import ClassSort.Proofs.ClassList.Context
import ClassSort.Proofs.Markup.Forward
import ClassSort.Proofs.Rule.SortedText
import ClassSort.Proofs.Source.Readings
import ClassSort.Proofs.Source.Texts
import ClassSort.Script.Parse

/-!
Texts with interpolations. The static pieces of a template, and those of an attribute with
expressions in braces, are sorted one by one, while a class of the whole text may run on into an
interpolation. The whole text keeps its classes, whatever is interpolated, exactly if every class
that touches an interpolation keeps its place.
-/

namespace ClassSort

open Candidate Sorting ClassList

inductive Piece where
  | text (before after : String)
  | hole
  deriving DecidableEq, Repr

inductive Evaluates : List Piece → String → String → Prop
  | nil : Evaluates [] "" ""
  | text {ps : List Piece} {before after : String} (s t : String) (h : Evaluates ps before after) :
    Evaluates (.text s t :: ps) (s ++ before) (t ++ after)
  | hole {ps : List Piece} {before after : String} (value : String) (h : Evaluates ps before after) :
    Evaluates (.hole :: ps) (value ++ before) (value ++ after)

/-- Whatever is interpolated, the fixes leave the classes of the text as they are. -/
def KeepsClasses (ps : List Piece) : Prop :=
  ∀ before after, Evaluates ps before after → (parse after).tokens.Perm (parse before).tokens

def StaysGlued (ps : List Piece) : Prop :=
  ∀ front before after back, ps = front ++ .text before after :: back →
    (front.getLast? = some .hole → (parse before).head = false →
      (parse after).tokens.head? = (parse before).tokens.head?) ∧
    (back.head? = some .hole → (parse before).tail = false →
      (parse after).tokens.getLast? = (parse before).tokens.getLast?)

namespace Piece

def Alternate : Piece → Piece → Prop
  | .text .., .text .. => False
  | _, _ => True

inductive Settled (orders : OrderMap) : Piece → Prop
  | same (s : String) : Settled orders (.text s s)
  | sorted (s : String) (h : (parse s).isSortable = true) :
    Settled orders (.text s (rebuilt orders false s))
  | hole : Settled orders .hole

variable {orders : OrderMap} {s t : String}

theorem Settled.cases_text (h : Settled orders (.text s t)) : t = s ∨ ∃ l m : Layout,
    l.Proper ∧ m.Proper ∧ l.Rearranged m ∧ l.text = s ∧ m.text = t := by
  cases h with
  | same => exact .inl rfl
  | sorted _ hs =>
    right
    obtain ⟨l, hl, rfl⟩ := Layout.exists_text (exists_of_sortable hs)
    have hperm : (sortBy (OrderKey.mayPrecede orders.key?) l.classes).Perm l.classes := sortBy_perm _
    have hclasses := Layout.rebuilt_classes hperm.length_eq false
    have hm := hl.rebuilt (fun t ht => hl.classes t (hperm.mem_iff.mp ht)) false
    refine ⟨l, _, hl, hm, ⟨?_, ?_, ?_⟩, rfl, (rebuilt_text hl fun _ _ => rfl).symm⟩
    · simp [Layout.rebuilt]
    · simp [Layout.rebuilt]
    · rw [hclasses]
      exact hperm

end Piece

namespace Evaluates

variable {ps qs : List Piece} {before after before' after' : String}

theorem append (h : Evaluates ps before after) (h' : Evaluates qs before' after') :
    Evaluates (ps ++ qs) (before ++ before') (after ++ after') := by
  induction h with
  | nil => simpa using h'
  | text s t _ ih => simpa [String.append_assoc] using ih.text s t
  | hole value _ ih => simpa [String.append_assoc] using ih.hole value

theorem exists_of_pieces (ps : List Piece) : ∃ before after, Evaluates ps before after := by
  induction ps with
  | nil => exact ⟨_, _, .nil⟩
  | cons p ps ih =>
    obtain ⟨before, after, h⟩ := ih
    cases p with
    | text s t => exact ⟨_, _, h.text s t⟩
    | hole => exact ⟨_, _, h.hole ""⟩

end Evaluates

theorem tokens_perm_iff {s t : String} :
    (parse s).tokens.Perm (parse t).tokens ↔ (classesOf s.toList).Perm (classesOf t.toList) := by
  rw [parse_tokens, parse_tokens]
  refine ⟨fun h => ?_, fun h => h.map _⟩
  simpa [Function.comp_def] using h.map String.toList

theorem parse_ends {l : Layout} (h : l.Proper) : (parse l.text).head = decide (l.lead ≠ "") ∧
    (parse l.text).tail = decide (l.trail ≠ "") ∧
    (parse l.text).tokens.head? = some l.first ∧ (parse l.text).tokens.getLast? = some l.last := by
  rw [Layout.parse_text h]
  refine ⟨rfl, rfl, rfl, ?_⟩
  simp [Layout.parts, Layout.classes, Layout.last, List.getLast?_cons]

section

variable {orders : OrderMap} {ps : List Piece}

/-- One static piece inside the whole text. -/
theorem classesOf_settled {s t : String} (h : Piece.Settled orders (.text s t)) {xs ys : List Char}
    (hfirst : xs ≠ [] → (parse s).head = false → (parse t).tokens.head? = (parse s).tokens.head?)
    (hlast : ys ≠ [] → (parse s).tail = false →
      (parse t).tokens.getLast? = (parse s).tokens.getLast?) :
    (classesOf (xs ++ t.toList ++ ys)).Perm (classesOf (xs ++ s.toList ++ ys)) := by
  rcases h.cases_text with rfl | ⟨l, m, hl, hm, hlm, rfl, rfl⟩
  · exact .refl _
  obtain ⟨hhead, htail, hfirst₁, hlast₁⟩ := parse_ends hl
  obtain ⟨-, -, hfirst₂, hlast₂⟩ := parse_ends hm
  rw [hhead, hfirst₁, hfirst₂] at hfirst
  rw [htail, hlast₁, hlast₂] at hlast
  refine Layout.classesOf_perm hl hm hlm ?_ ?_
  · by_cases hfree : xs = [] ∨ l.lead ≠ ""
    · exact .inl hfree
    · obtain ⟨hxs, hlead⟩ := not_or.mp hfree
      exact .inr (Option.some.inj (hfirst hxs (by simpa using hlead)))
  · by_cases hfree : ys = [] ∨ l.trail ≠ ""
    · exact .inl hfree
    · obtain ⟨hys, htrail⟩ := not_or.mp hfree
      exact .inr (Option.some.inj (hlast hys (by simpa using htrail)))

theorem text_of_nil {before after : String} (h : Evaluates [] before after) :
    before = "" ∧ after = "" := by
  cases h
  exact ⟨rfl, rfl⟩

/-- The pieces are fixed one after another. `xs` is what stands in front of those still to come. -/
theorem classesOf_evaluates (hsettled : ∀ p ∈ ps, p.Settled orders) {xs : List Char}
    (hglued : ∀ front s t back, ps = front ++ .text s t :: back →
      (xs ≠ [] ∨ front ≠ [] → (parse s).head = false →
        (parse t).tokens.head? = (parse s).tokens.head?) ∧
      (back ≠ [] → (parse s).tail = false →
        (parse t).tokens.getLast? = (parse s).tokens.getLast?))
    {before after : String} (h : Evaluates ps before after) :
    (classesOf (xs ++ after.toList)).Perm (classesOf (xs ++ before.toList)) := by
  induction h generalizing xs with
  | nil => exact .refl _
  | @text ps before after s t hps ih =>
    obtain ⟨hfirst, hlast⟩ := hglued [] s t ps rfl
    have hpiece : (classesOf (xs ++ t.toList ++ before.toList)).Perm
        (classesOf (xs ++ s.toList ++ before.toList)) := by
      refine classesOf_settled (hsettled _ List.mem_cons_self) (fun hxs => hfirst (.inl hxs)) ?_
      intro hbefore
      refine hlast fun hnil => hbefore ?_
      subst hnil
      rw [(text_of_nil hps).1]
      rfl
    have hrest : (classesOf (xs ++ t.toList ++ after.toList)).Perm
        (classesOf (xs ++ t.toList ++ before.toList)) := by
      refine ih (fun p hp => hsettled p (List.mem_cons_of_mem _ hp)) fun front s' t' back hsplit => ?_
      obtain ⟨hfirst', hlast'⟩ := hglued (.text s t :: front) s' t' back (by rw [hsplit]; rfl)
      exact ⟨fun _ => hfirst' (.inr (List.cons_ne_nil _ _)), hlast'⟩
    simpa [List.append_assoc] using hrest.trans hpiece
  | @hole ps before after value hps ih =>
    have hrest : (classesOf (xs ++ value.toList ++ after.toList)).Perm
        (classesOf (xs ++ value.toList ++ before.toList)) := by
      refine ih (fun p hp => hsettled p (List.mem_cons_of_mem _ hp)) fun front s t back hsplit => ?_
      obtain ⟨hfirst, hlast⟩ := hglued (.hole :: front) s t back (by rw [hsplit]; rfl)
      exact ⟨fun _ => hfirst (.inr (List.cons_ne_nil _ _)), hlast⟩
    simpa [List.append_assoc] using hrest

/-- What stands next to a static piece is a hole. -/
theorem hole_of_alternate {front back : List Piece} {s t : String}
    (h : (front ++ .text s t :: back).IsChain Piece.Alternate) :
    (front ≠ [] → front.getLast? = some .hole) ∧ (back ≠ [] → back.head? = some .hole) := by
  obtain ⟨-, hback, hfront⟩ := List.isChain_append.mp h
  constructor
  · intro hne
    obtain ⟨p, hp⟩ := Option.ne_none_iff_exists'.mp (mt List.getLast?_eq_none_iff.mp hne)
    cases p with
    | hole => exact hp
    | text => exact (hfront _ hp _ rfl).elim
  · intro hne
    cases back with
    | nil => exact absurd rfl hne
    | cons p back =>
      cases p with
      | hole => rfl
      | text => cases hback with | cons_cons hfalse => exact hfalse.elim

theorem StaysGlued.keepsClasses (h : StaysGlued ps) (halternate : ps.IsChain Piece.Alternate)
    (hsettled : ∀ p ∈ ps, p.Settled orders) : KeepsClasses ps := by
  intro before after heval
  rw [tokens_perm_iff]
  have hall : (classesOf ([] ++ after.toList)).Perm (classesOf ([] ++ before.toList)) := by
    refine classesOf_evaluates hsettled (fun front s t back hsplit => ?_) heval
    obtain ⟨hfirst, hlast⟩ := h front s t back hsplit
    obtain ⟨hfront, hback⟩ := hole_of_alternate (hsplit ▸ halternate)
    refine ⟨fun hne => hfirst (hfront ?_), fun hne => hlast (hback hne)⟩
    exact hne.resolve_left fun hnil => hnil rfl
  exact hall

/-- A long enough class in a hole tells which class touches it. -/
theorem KeepsClasses.staysGlued (h : KeepsClasses ps) (hsettled : ∀ p ∈ ps, p.Settled orders) :
    StaysGlued ps := by
  rintro front s t back rfl
  have hpiece : Piece.Settled orders (.text s t) := hsettled _ (by simp)
  rcases hpiece.cases_text with rfl | ⟨l, m, hl, hm, hlm, rfl, rfl⟩
  · exact ⟨fun _ _ => rfl, fun _ _ => rfl⟩
  obtain ⟨hhead, htail, hfirst₁, hlast₁⟩ := parse_ends hl
  obtain ⟨-, -, hfirst₂, hlast₂⟩ := parse_ends hm
  rw [hhead, htail, hfirst₁, hfirst₂, hlast₁, hlast₂]
  constructor
  · intro hfront hlead
    obtain ⟨front, rfl⟩ := List.getLast?_eq_some_iff.mp hfront
    obtain ⟨before, after, hbegin⟩ := Evaluates.exists_of_pieces front
    obtain ⟨before', after', hrest⟩ := Evaluates.exists_of_pieces back
    rw [Layout.first_kept hl hm hlm (by simpa using hlead)]
    intro n
    have heval := hbegin.append
      ((hrest.text l.text m.text).hole (String.ofList (' ' :: Layout.letters n)))
    have hperm := tokens_perm_iff.mp (h _ _ (by simpa using heval))
    simpa using hperm
  · intro hback htrail
    cases back with
    | nil => cases hback
    | cons p back =>
      cases hback
      obtain ⟨before, after, hbegin⟩ := Evaluates.exists_of_pieces front
      obtain ⟨before', after', hrest⟩ := Evaluates.exists_of_pieces back
      rw [Layout.last_kept hl hm hlm (by simpa using htrail)]
      intro n
      have heval := hbegin.append
        ((hrest.hole (String.ofList (Layout.letters n ++ [' ']))).text l.text m.text)
      have hperm := tokens_perm_iff.mp (h _ _ heval)
      simpa using hperm

end

/-! Where the pieces come from. -/

/-- The class text of a candidate once the finding for it is applied, with repeats kept. -/
def Candidate.fixed (orders : OrderMap) (c : Candidate) : String :=
  match violation? orders false c with
  | some _ => rebuilt orders false c.body
  | none => c.body

theorem Candidate.fixed_eq (orders : OrderMap) (c : Candidate) :
    c.fixed orders = rebuilt orders false c.body := by
  unfold Candidate.fixed violation?
  by_cases h : rebuilt orders false c.body = c.body <;> simp [h]

def staticPiece (orders : OrderMap) (text : String) (found : List Candidate) : Piece :=
  .text text ((found.head?.map (·.fixed orders)).getD text)

def chunkPiece (source : String) (orders : OrderMap) (chunk : Chunk) : Piece :=
  staticPiece orders chunk.raw (ofChunk source chunk)

def templatePieces (source : String) (orders : OrderMap) : List Chunk → List Piece
  | [] => []
  | [chunk] => [chunkPiece source orders chunk]
  | chunk :: next :: chunks =>
    chunkPiece source orders chunk :: .hole :: templatePieces source orders (next :: chunks)

def attributePieces (source : String) (orders : OrderMap) (parts : List AttributePart) : List Piece :=
  parts.map fun
    | .text span => staticPiece orders ((slice? source span).getD "") (ofText source span)
    | .mustache _ _ => .hole

theorem staticPiece_settled {orders : OrderMap} {text : String} {found : List Candidate}
    (h : ∀ c ∈ found, c.body = text ∧ (parse c.body).isSortable = true) :
    (staticPiece orders text found).Settled orders := by
  cases found with
  | nil => exact .same text
  | cons c found =>
    obtain ⟨rfl, hsortable⟩ := h c List.mem_cons_self
    simp only [staticPiece, List.head?_cons, Option.map_some, Option.getD_some, c.fixed_eq]
    exact .sorted _ hsortable

theorem chunkPiece_settled (source : String) (orders : OrderMap) (chunk : Chunk) :
    (chunkPiece source orders chunk).Settled orders := by
  refine staticPiece_settled fun c hc => ⟨?_, (ofChunk_cut chunk c hc).sortable⟩
  unfold ofChunk at hc
  split at hc
  · next hsplit =>
    obtain ⟨text, -, hsplit⟩ := Option.bind_eq_some_iff.mp hsplit
    rw [mem_keep hc]
    exact (splitTemplate?_eq_some hsplit).1
  · simp at hc

theorem textPiece_settled (source : String) (orders : OrderMap) (range : Span) :
    (staticPiece orders ((slice? source range).getD "") (ofText source range)).Settled orders := by
  refine staticPiece_settled fun c hc => ⟨?_, (ofText_cut range c hc).sortable⟩
  unfold ofText at hc
  split at hc
  · next body hslice =>
    rw [mem_keep hc, hslice]
    rfl
  · simp at hc

theorem templatePieces_settled (source : String) (orders : OrderMap) (chunks : List Chunk) :
    ∀ p ∈ templatePieces source orders chunks, p.Settled orders := by
  fun_induction templatePieces source orders chunks with
  | case1 => simp
  | case2 chunk => simpa using chunkPiece_settled source orders chunk
  | case3 chunk next chunks ih =>
    exact List.forall_mem_cons.mpr ⟨chunkPiece_settled source orders chunk,
      List.forall_mem_cons.mpr ⟨.hole, ih⟩⟩

theorem templatePieces_alternate (source : String) (orders : OrderMap) (chunks : List Chunk) :
    (templatePieces source orders chunks).IsChain Piece.Alternate := by
  fun_induction templatePieces source orders chunks with
  | case1 => exact .nil
  | case2 chunk => exact .singleton _
  | case3 chunk next chunks ih =>
    refine .cons_cons trivial ?_
    cases hrest : templatePieces source orders (next :: chunks) with
    | nil => exact .singleton _
    | cons p ps => exact .cons_cons trivial (hrest ▸ ih)

theorem attributePieces_settled (source : String) (orders : OrderMap) (parts : List AttributePart) :
    ∀ p ∈ attributePieces source orders parts, p.Settled orders := by
  intro p hp
  obtain ⟨part, -, rfl⟩ := List.mem_map.mp hp
  cases part with
  | text span => exact textPiece_settled source orders span
  | mustache => exact .hole

theorem attributePieces_alternate (g : Script.Grammars) (source : String) (orders : OrderMap) (dialect : Script.Dialect)
    {parts : List Markup.Part} (h : parts.IsChain Markup.Part.Alternate) :
    (attributePieces source orders (parts.map (Source.part g source.toList dialect))).IsChain
      Piece.Alternate := by
  rw [attributePieces, List.map_map, List.isChain_map]
  refine h.imp fun p q hpq => ?_
  cases p with
  | text => cases q with
    | text => exact hpq
    | braces => trivial
  | braces => cases q <;> trivial

/-- Templates and class attributes keep their classes exactly if what is glued stays glued. -/
theorem keepsClasses_iff_staysGlued (g : Script.Grammars) (source : String) (orders : OrderMap) :
    (∀ chunks, KeepsClasses (templatePieces source orders chunks) ↔
      StaysGlued (templatePieces source orders chunks)) ∧
    ∀ hasBraces dialect, ∀ v, .classes v ∈ Markup.scan source hasBraces →
      let parts := v.parts.map (Source.part g source.toList dialect)
      (KeepsClasses (attributePieces source orders parts) ↔
        StaysGlued (attributePieces source orders parts)) := by
  constructor
  · intro chunks
    have hsettled := templatePieces_settled source orders chunks
    have halternate := templatePieces_alternate source orders chunks
    exact ⟨fun h => h.staysGlued hsettled, fun h => h.keepsClasses halternate hsettled⟩
  · intro hasBraces dialect v hv parts
    have hsettled := attributePieces_settled source orders parts
    obtain ⟨stop, hrow⟩ := Markup.scan_row source hasBraces
    have halternate := attributePieces_alternate g source orders dialect (hrow.classes v hv).alternate
    exact ⟨fun h => h.staysGlued hsettled, fun h => h.keepsClasses halternate hsettled⟩

/-- The second class goes on in the interpolation, and sorting moves it away from there. -/
def gluedCall : String := "clsx(`b a${x}`)"

def gluedChunks : List Chunk := [⟨⟨5, 11⟩, "b a"⟩, ⟨⟨12, 14⟩, ""⟩]

theorem gluedCall_loses_class :
    (Source.roots Script.builtIn gluedCall .javaScript).any (fun
      | .call _ _ [.template _ chunks _] => chunks == gluedChunks
      | _ => false) = true ∧
    ¬ KeepsClasses (templatePieces gluedCall [("a", some 1), ("b", some 2)] gluedChunks) := by
  refine ⟨by decide +kernel, fun h => ?_⟩
  have hpieces : templatePieces gluedCall [("a", some 1), ("b", some 2)] gluedChunks =
      [.text "b a" "a b", .hole, .text "" ""] := by decide +kernel
  rw [hpieces] at h
  have hmoved := h _ _ (.text _ _ (.hole "z" (.text _ _ .nil)))
  have hnone : ¬ (parse "a bz").tokens.Perm (parse "b az").tokens := by decide +kernel
  exact hnone hmoved

end ClassSort
