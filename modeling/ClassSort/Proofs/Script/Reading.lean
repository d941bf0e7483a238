import ClassSort.Proofs.Script.Spelling
import ClassSort.Script.Grammar

/-!
Readers move forward, and the trees that they find stand where they moved and are spelled as the text
is there. A reader is taken apart step by step: each step adds its trees to those found since the
outset, and a node is put around trees that were found since its own beginning.
-/

namespace ClassSort.Script

open Script.Tree

class Finds (α : Type) where
  found : α → List Tree

open Finds (found)

instance : Finds Unit := ⟨fun _ => []⟩
instance : Finds Bool := ⟨fun _ => []⟩
instance : Finds String := ⟨fun _ => []⟩
instance : Finds Tree := ⟨fun t => [t]⟩
instance {α : Type} [Finds α] : Finds (List α) := ⟨fun xs => xs.flatMap found⟩
instance {α : Type} [Finds α] : Finds (Option α) := ⟨fun x => x.elim [] found⟩

section

variable {α : Type} [Finds α]

@[simp] theorem found_unit (x : Unit) : found x = [] := rfl
@[simp] theorem found_bool (x : Bool) : found x = [] := rfl
@[simp] theorem found_string (x : String) : found x = [] := rfl
@[simp] theorem found_tree (t : Tree) : found t = [t] := rfl
@[simp] theorem found_nil : found ([] : List α) = [] := rfl
@[simp] theorem found_cons (x : α) (xs : List α) : found (x :: xs) = found x ++ found xs := rfl
@[simp] theorem found_none : found (none : Option α) = [] := rfl
@[simp] theorem found_some (x : α) : found (some x) = found x := rfl

@[simp] theorem found_trees (ts : List Tree) : found ts = ts := by
  induction ts with
  | nil => rfl
  | cons t ts ih => rw [found_cons, ih]; rfl

@[simp] theorem found_units (xs : List Unit) : found xs = [] := by
  induction xs with
  | nil => rfl
  | cons x xs ih => rw [found_cons, ih]; rfl

@[simp] theorem found_strings (xs : List String) : found xs = [] := by
  induction xs with
  | nil => rfl
  | cons x xs ih => rw [found_cons, ih]; rfl

@[simp] theorem found_forest (tss : List (List Tree)) : found tss = tss.flatten := by
  induction tss with
  | nil => rfl
  | cons ts tss ih => rw [found_cons, found_trees, ih, List.flatten_cons]

end

/-- The cursor is in front of what is left of the text, and behind the last token. -/
structure Cursor.Stands (text : List Char) (c : Cursor) : Prop where
  rest : ∃ front, text = front ++ c.rest ∧ byteLength front = c.offset
  sane : c.last ≤ c.offset

/-- Where reading began: in which text, where the last token ended, and where the next one begins. -/
structure Outset where
  text : List Char
  last : Nat
  start : Nat

def Cursor.outset (text : List Char) (c : Cursor) : Outset := ⟨text, c.last, c.offset⟩

/-- What is known at a cursor that was reached from an outset; `taken` tells whether it is behind
another token. -/
structure Since (declares : Bool) (o : Outset) (taken : Bool) (ts : List Tree) (c : Cursor) :
    Prop where
  stands : c.Stands o.text
  start : o.start ≤ c.offset
  last : o.last ≤ c.last
  taken : taken = true → o.start ≤ c.last
  row : Row declares o.start c.last ts
  spelled : ∀ t ∈ ts, t.Spelled o.text

variable {α β : Type} {declares declares' taken s t : Bool} {text : List Char} {o : Outset}
  {ts us : List Tree} {c c' : Cursor}

structure At (o : Outset) (c : Cursor) : Prop where
  stands : c.Stands o.text
  start : o.start = c.offset
  last : o.last = c.last

theorem Cursor.Stands.here (h : c.Stands text) : At (c.outset text) c := ⟨h, rfl, rfl⟩

theorem At.since (h : At o c) : Since declares o false [] c :=
  ⟨h.stands, Nat.le_of_eq h.start, Nat.le_of_eq h.last, by simp, row_nil, by simp⟩

theorem Since.refl (h : c.Stands text) : Since declares (c.outset text) false [] c := h.here.since

theorem Since.trans (h : Since declares o taken ts c) (h' : Since declares (c.outset o.text) t us c') :
    Since declares o (taken || t) (ts ++ us) c' where
  stands := h'.stands
  start := Nat.le_trans h.start h'.start
  last := Nat.le_trans h.last h'.last
  taken htaken := by
    rcases Bool.or_eq_true_iff.mp htaken with ht | ht
    · exact Nat.le_trans (h.taken ht) h'.last
    · exact Nat.le_trans h.start (h'.taken ht)
  row := h.row.append h'.row h.start h.stands.sane h'.last
  spelled := List.forall_mem_append.mpr ⟨h.spelled, h'.spelled⟩

theorem Since.sublist (h : Since declares o taken ts c) (hsub : us.Sublist ts) :
    Since declares o taken us c :=
  { h with row := h.row.sublist hsub, spelled := fun t ht => h.spelled t (hsub.subset ht) }

theorem Since.weaken (h : Since declares o taken ts c) (hsub : us.Sublist ts) :
    Since declares o false us c :=
  { h.sublist hsub with taken := by simp }

theorem Since.loosen (h : Since false o taken ts c) : Since declares o taken ts c :=
  { h with row := h.row.loosen }

/-- What was found since the outset was found since the first tree. -/
theorem Since.focus {first : Tree} (h : Since declares o taken (first :: ts) c) :
    Since declares { o with start := first.span.start } true (first :: ts) c := by
  obtain ⟨-, hfirst, -, hstop, -⟩ := row_cons.mp h.row
  have hordered := hfirst.ordered
  have hsane := h.stands.sane
  exact ⟨h.stands, by simp only; omega, h.last, fun _ => by simp only; omega, h.row.focus, h.spelled⟩

theorem Since.widen {a : Nat} (h : Since declares { o with start := a } taken ts c)
    (ha : o.start ≤ a) : Since declares o taken ts c :=
  ⟨h.stands, Nat.le_trans ha h.start, h.last, fun ht => Nat.le_trans ha (h.taken ht),
    h.row.weaken ha (Nat.le_refl _), h.spelled⟩

def Ensures (P : Cursor → Prop) (p : Reader α) (Q : α → Cursor → Prop) : Prop :=
  ∀ c x c', P c → p c = some (x, c') → Q x c'

def Reads (declares taking : Bool) [Finds α] (p : Reader α) : Prop :=
  ∀ text c x c', c.Stands text → p c = some (x, c') →
    Since declares (c.outset text) taking (found x) c'

def Looks (p : Reader α) : Prop := ∀ c x c', p c = some (x, c') → c' = c

namespace Reader

variable {p q : Reader α} {f : α → Reader β}

theorem bind_eq_some {x : β} : (p >>= f) c = some (x, c') ↔
    ∃ a m, p c = some (a, m) ∧ f a m = some (x, c') := by
  show (p c >>= fun (a, m) => f a m) = some (x, c') ↔ _
  simp [Option.bind_eq_some_iff]

theorem pure_eq_some {x y : α} : (pure x : Reader α) c = some (y, c') ↔ x = y ∧ c = c' := by
  show some (x, c) = some (y, c') ↔ _
  simp

theorem orElse_eq_some {x : α} (h : (p <|> q) c = some (x, c')) :
    p c = some (x, c') ∨ q c = some (x, c') := by
  change (p c <|> q c) = some (x, c') at h
  cases hp : p c with
  | none => rw [hp] at h; exact .inr h
  | some y => rw [hp] at h; exact .inl h

end Reader

open Reader

section

variable {p q : Reader α} {f : α → Reader β} {P : Cursor → Prop} {Q : β → Cursor → Prop}

theorem Looks.pure (x : α) : Looks (pure x) :=
  fun _ _ _ h => (pure_eq_some.mp h).2.symm

theorem Looks.bind (hp : Looks p) (hf : ∀ x, Looks (f x)) : Looks (p >>= f) := by
  intro c y c' h
  obtain ⟨x, m, hx, hy⟩ := bind_eq_some.mp h
  rw [hf x m y c' hy, hp c x m hx]

theorem Looks.ite {b : Prop} [Decidable b] (hp : Looks p) (hq : Looks q) :
    Looks (if b then p else q) := by
  split
  · exact hp
  · exact hq

theorem Ensures.look (hp : Looks p) (hf : ∀ x, Ensures P (f x) Q) : Ensures P (p >>= f) Q := by
  intro c y c' hc h
  obtain ⟨x, m, hx, hy⟩ := bind_eq_some.mp h
  obtain rfl := hp c x m hx
  exact hf x m y c' hc hy

theorem Ensures.orElse {Q : α → Cursor → Prop} (hp : Ensures P p Q) (hq : Ensures P q Q) :
    Ensures P (p <|> q) Q := by
  intro c x c' hc h
  rcases orElse_eq_some h with h | h
  · exact hp c x c' hc h
  · exact hq c x c' hc h

theorem Ensures.ite {Q : α → Cursor → Prop} {b : Prop} [Decidable b] (hp : Ensures P p Q)
    (hq : Ensures P q Q) : Ensures P (if b then p else q) Q := by
  split
  · exact hp
  · exact hq

theorem Ensures.loosen {Q : α → Cursor → Prop} (h : Ensures (Since true o taken ts) p Q) :
    Ensures (Since false o taken ts) p Q :=
  fun c x c' hc hx => h c x c' hc.loosen hx

/-- The trees found so far may be put together. -/
theorem Ensures.regroup {Q : α → Cursor → Prop}
    (hrow : ∀ b, Row declares o.start b ts → Row declares o.start b us)
    (hspelled : (∀ t ∈ ts, t.Spelled o.text) → ∀ t ∈ us, t.Spelled o.text)
    (h : Ensures (Since declares o taken us) p Q) : Ensures (Since declares o taken ts) p Q :=
  fun c x c' hc hx => h c x c' { hc with row := hrow _ hc.row, spelled := hspelled hc.spelled } hx

theorem Ensures.congr {Q : α → Cursor → Prop} (heq : ts = us)
    (h : Ensures (Since declares o taken us) p Q) : Ensures (Since declares o taken ts) p Q :=
  heq ▸ h

/-- Some of the trees found so far are left out. -/
theorem Ensures.drop {Q : α → Cursor → Prop} (hsub : us.Sublist ts)
    (h : Ensures (Since declares o taken us) p Q) : Ensures (Since declares o taken ts) p Q :=
  fun c x c' hc hx => h c x c' (hc.sublist hsub) hx

/-- What was checked holds from there on. -/
theorem Ensures.check {b : Bool} {f : Unit → Reader β} (h : b = true → Ensures P (f ()) Q) :
    Ensures P (check b >>= f) Q := by
  cases b with
  | true => exact h rfl
  | false =>
    intro _ _ _ _ h
    cases h

theorem Ensures.failure {Q : α → Cursor → Prop} : Ensures P failure Q := by
  intro _ _ _ _ h
  cases h

theorem Ensures.weaken {P' : Cursor → Prop} {Q : α → Cursor → Prop} (hP : ∀ c, P c → P' c)
    (h : Ensures P' p Q) : Ensures P p Q :=
  fun c x c' hc hx => h c x c' (hP c hc) hx

theorem Ensures.left {Q : α → Cursor → Prop} (h : Ensures (Since false o false []) p Q) :
    Ensures (At o) p Q :=
  fun c x c' hc hx => h c x c' hc.since hx

/-- Only what comes last counts. -/
theorem Ensures.step (hf : ∀ x, Ensures (fun _ => True) (f x) Q) : Ensures P (p >>= f) Q := by
  intro c y c' _ h
  obtain ⟨x, m, -, hy⟩ := bind_eq_some.mp h
  exact hf x m y c' trivial hy

theorem Ensures.mark {f : Nat → Reader β} (h : Ensures (At o) (f o.start) Q) :
    Ensures (At o) (mark >>= f) Q :=
  fun c y c' hc hy => h c y c' hc (hc.start ▸ hy)

theorem Ensures.andThen {R : α → Cursor → Prop} (hp : Ensures P p R)
    (hf : ∀ x, Ensures (R x) (f x) Q) : Ensures P (p >>= f) Q := by
  intro c y c' hc h
  obtain ⟨x, m, hx, hy⟩ := bind_eq_some.mp h
  exact hf x m y c' (hp c x m hc hx) hy

variable [Finds α]

theorem Reads.ensures (hp : Reads declares t p) : Ensures (Since declares o taken ts) p
    fun x => Since declares o (taken || t) (ts ++ found x) :=
  fun c x c' hc hx => hc.trans (hp o.text c x c' hc.stands hx)

theorem Ensures.bind (hp : Reads declares t p)
    (hf : ∀ x, Ensures (Since declares o (taken || t) (ts ++ found x)) (f x) Q) :
    Ensures (Since declares o taken ts) (p >>= f) Q :=
  .andThen hp.ensures hf

/-- A step whose result says something. -/
theorem Ensures.bindFor {R : α → Prop} (hp : Reads declares t p)
    (hR : ∀ c x c', p c = some (x, c') → R x)
    (hf : ∀ x, R x → Ensures (Since declares o (taken || t) (ts ++ found x)) (f x) Q) :
    Ensures (Since declares o taken ts) (p >>= f) Q := by
  intro c y c' hc h
  obtain ⟨x, m, hx, hy⟩ := bind_eq_some.mp h
  exact hf x (hR _ _ _ hx) m y c' (hp.ensures c x m hc hx) hy

/-- A step without trees. -/
theorem Ensures.skip (hp : Reads declares t p) (hx : ∀ x : α, found x = [])
    (hf : ∀ x, Ensures (Since declares o taken ts) (f x) Q) :
    Ensures (Since declares o taken ts) (p >>= f) Q := by
  intro c y c' hc h
  obtain ⟨x, m, hm, hy⟩ := bind_eq_some.mp h
  have hstep : Since declares o (taken || t) (ts ++ found x) m := hp.ensures c x m hc hm
  rw [hx, List.append_nil] at hstep
  refine hf x m y c' { hstep with taken := fun ht => hstep.taken ?_ } hy
  rw [ht, Bool.true_or]

/-- A step without trees that is made under a condition. -/
theorem Ensures.optionally {q : Reader β} {b : Prop} [Decidable b] (hp : Reads declares t p)
    (hx : ∀ x : α, found x = []) (hq : Ensures (Since declares o taken ts) q Q) :
    Ensures (Since declares o taken ts) (if b then (p >>= fun _ => q) else q) Q :=
  .ite (.skip hp hx fun _ => hq) hq

/-- Nothing more is read. -/
theorem Ensures.done {x : α} (h : (found x).Sublist ts) :
    Ensures (Since declares o taken ts) (Pure.pure x) fun x => Since declares o taken (found x) := by
  intro c y c' hc hy
  obtain ⟨rfl, rfl⟩ := pure_eq_some.mp hy
  exact hc.sublist h

/-- The trees of the last step are all there are. -/
theorem Ensures.tail (hp : Reads declares t p) (h : ts = []) :
    Ensures (Since declares o taken ts) p
      fun x => Since declares o (taken || t) (found x) := by
  intro c x c' hc hx
  subst h
  exact hp.ensures c x c' hc hx

omit [Finds α] in
theorem Ensures.forget {Q : α → List Tree}
    (h : Ensures P p fun x => Since declares o taken (Q x)) :
    Ensures P p fun x => Since declares o false (Q x) :=
  fun c x c' hc hx => (h c x c' hc hx).weaken (List.Sublist.refl _)

theorem Reads.of (h : ∀ o, Ensures (Since declares o false []) p
    fun x => Since declares o t (found x)) : Reads declares t p :=
  fun text c x c' hc hx => h (c.outset text) c x c' (.refl hc) hx

/-- A reader that looks where it begins. -/
theorem Reads.markAt {f : Nat → Reader α} (h : ∀ o, Ensures (At o) (f o.start)
    fun x => Since declares o t (found x)) : Reads declares t (mark >>= f) :=
  fun text c x c' hc hx => h (c.outset text) c x c' hc.here hx

theorem Reads.mark {f : Nat → Reader α} (h : ∀ o, Ensures (Since false o false []) (f o.start)
    fun x => Since declares o t (found x)) : Reads declares t (mark >>= f) :=
  .markAt fun o => (h o).left

theorem Reads.forget (h : Reads declares t p) : Reads declares false p :=
  fun text c x c' hc hx => (h text c x c' hc hx).weaken (List.Sublist.refl _)

theorem Reads.loosen (h : Reads false t p) : Reads declares t p :=
  fun text c x c' hc hx => (h text c x c' hc hx).loosen

theorem Reads.look (hp : Looks p) (hx : ∀ x : α, found x = []) : Reads declares false p := by
  intro text c x c' hc h
  obtain rfl := hp c x c' h
  rw [hx]
  exact .refl hc

theorem Reads.pure {x : α} (h : found x = []) : Reads declares false (Pure.pure x) := by
  intro text c y c' hc hy
  obtain ⟨rfl, rfl⟩ := pure_eq_some.mp hy
  rw [h]
  exact .refl hc

theorem Reads.orElse (hp : Reads declares t p) (hq : Reads declares t q) :
    Reads declares t (p <|> q) := by
  intro text c x c' hc h
  rcases orElse_eq_some h with h | h
  · exact hp text c x c' hc h
  · exact hq text c x c' hc h

omit [Finds α] in
theorem Reads.lookAt [Finds β] {f : α → Reader β} (hp : Looks p) (hf : ∀ x, Reads declares t (f x)) :
    Reads declares t (p >>= f) := by
  intro text c y c' hc h
  obtain ⟨x, m, hx, hy⟩ := bind_eq_some.mp h
  obtain rfl := hp c x m hx
  exact hf x text m y c' hc hy

/-- A step without trees in front. -/
theorem Reads.seq {skip : Reader Unit} {f : Unit → Reader α}
    (hs : Reads declares s skip) (hp : Reads declares t (f ())) :
    Reads declares (s || t) (skip >>= f) :=
  .of fun _ => .bind hs fun _ => .tail hp rfl

/-- Something that may be missing. -/
theorem Reads.orPure (hp : Reads declares t p) {x : α} (h : found x = []) :
    Reads declares false (p <|> Pure.pure x) :=
  hp.forget.orElse (.pure h)

theorem Reads.ite {b : Prop} [Decidable b] (hp : Reads declares t p)
    (hq : Reads declares t q) : Reads declares t (if b then p else q) := by
  split
  · exact hp
  · exact hq

end

end ClassSort.Script
