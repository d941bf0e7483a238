import ClassSort.Order.Resolver

/-!
What one request to a resolver can do: answer from memory, fail without a trace, or learn the
answers of a whole batch. Over any run of requests a resolver only learns. If its context gives one
entry for each class and the same key for a class every time, the resolver reports the same key
for a class throughout its life, whether it has asked for it already or not.
-/

namespace ClassSort

theorem mem_distinct {t : String} {tokens : List String} : t ∈ distinct tokens ↔ t ∈ tokens := by
  induction tokens with
  | nil => rfl
  | cons a rest ih =>
    by_cases h : t = a
    · simp [distinct, h]
    · simp [distinct, h, ih]

/-- Looking up in a table of a function's values. -/
theorem lookup_table {β : Type} (f : String → β) (ts : List String) (t : String) :
    (ts.map fun x => (x, f x)).lookup t = if t ∈ ts then some (f t) else none := by
  induction ts with
  | nil => rfl
  | cons a ts ih =>
    rw [List.map_cons, List.lookup_cons, ih]
    by_cases h : t = a
    · simp [h]
    · simp [h, beq_false_of_ne h]

namespace Resolver

variable {σ κ : Type} {o : Ranking σ κ} {r : Resolver κ} {tokens : List String} {s : σ}

def answers (r : Resolver κ) (tokens : List String) : OrderMap :=
  (distinct tokens).map fun t => (t, r.cache.key? t)

def learn (o : Ranking σ κ) (r : Resolver κ) (batch : List String)
    (entries : List (String × Option OrderKey)) : Resolver κ :=
  { r with cache := r.cache ++
      (batch.zip entries).map fun (t, _, key) => (t, key.or (markerKey o r.context t)) }

inductive Outcome (o : Ranking σ κ) (r : Resolver κ) (tokens : List String) (s : σ) :
    Except OrderError OrderMap × Resolver κ × σ → Prop where
  | remembered : r.missing tokens = [] → Outcome o r tokens s (.ok (r.answers tokens), r, s)
  | failed (e s') : r.missing tokens ≠ [] →
      o.classOrder r.context (r.missing tokens) s = (.error e, s') →
      Outcome o r tokens s (.error e, r, s')
  | mismatch (entries s') : r.missing tokens ≠ [] →
      o.classOrder r.context (r.missing tokens) s = (.ok entries, s') →
      entries.length ≠ (r.missing tokens).length →
      Outcome o r tokens s (.error (.mismatch (r.missing tokens).length entries.length), r, s')
  | learned (entries s') : r.missing tokens ≠ [] →
      o.classOrder r.context (r.missing tokens) s = (.ok entries, s') →
      entries.length = (r.missing tokens).length →
      Outcome o r tokens s (.ok ((r.learn o (r.missing tokens) entries).answers tokens),
        r.learn o (r.missing tokens) entries, s')

theorem resolve_outcome (o : Ranking σ κ) (r : Resolver κ) (tokens : List String) (s : σ) :
    Outcome o r tokens s (r.resolve o tokens s) := by
  unfold resolve
  split
  · next h => exact .remembered h
  · next h =>
    have hne : r.missing tokens ≠ [] := fun e => h e
    split
    · next e s' hanswer => exact .failed e s' hne hanswer
    · next entries s' hanswer =>
      dsimp only
      split
      · next hlen => exact .mismatch entries s' hne hanswer hlen
      · next hlen => exact .learned entries s' hne hanswer (Decidable.not_not.mp hlen)

inductive Reached (o : Ranking σ κ) : Resolver κ → Prop where
  | new (context) : Reached o (.new context)
  | resolve (before tokens s) : Reached o before → Reached o (before.resolve o tokens s).2.1

abbrev Knows (r : Resolver κ) (t : String) : Prop := (r.cache.lookup t).isSome = true

theorem mem_missing {t : String} : t ∈ r.missing tokens ↔ t ∈ tokens ∧ ¬ r.Knows t := by
  rw [missing, List.mem_filter, mem_distinct, Knows, Option.isNone_iff_eq_none,
    Option.not_isSome_iff_eq_none]

theorem missing_eq_nil : r.missing tokens = [] ↔ ∀ t ∈ tokens, r.Knows t := by
  rw [List.eq_nil_iff_forall_not_mem]
  constructor
  · intro h t ht
    exact Decidable.not_not.mp fun hn => h t (mem_missing.mpr ⟨ht, hn⟩)
  · intro h t ht
    obtain ⟨ht, hn⟩ := mem_missing.mp ht
    exact hn (h t ht)

theorem key?_answers {t : String} (ht : t ∈ tokens) : (r.answers tokens).key? t = r.cache.key? t := by
  unfold OrderMap.key? answers
  rw [lookup_table, if_pos (mem_distinct.mpr ht)]
  rfl

theorem lookup_learn (o : Ranking σ κ) (r : Resolver κ) (batch : List String)
    (entries : List (String × Option OrderKey)) {t : String} {k : Option OrderKey}
    (h : r.cache.lookup t = some k) : (r.learn o batch entries).cache.lookup t = some k := by
  simp [learn, List.lookup_append, h]

theorem knows_learn {batch : List String} {entries : List (String × Option OrderKey)}
    (hlen : entries.length = batch.length) {t : String} (ht : t ∈ batch) :
    (r.learn o batch entries).Knows t := by
  have hmem : t ∈ ((batch.zip entries).map fun (t, _, key) =>
      (t, key.or (markerKey o r.context t))).map (·.1) := by
    rw [List.map_map]
    have : (batch.zip entries).map (·.1) = batch := List.map_fst_zip (by omega)
    rw [← this] at ht
    simpa [Function.comp_def] using ht
  obtain ⟨p, hp, rfl⟩ := List.mem_map.mp hmem
  unfold Knows learn
  rw [List.lookup_append, Option.isSome_or, Bool.or_eq_true]
  exact .inr (List.lookup_isSome_iff.mpr ⟨p, hp, by simp⟩)

/-- A request that succeeds leaves all its classes known. -/
theorem resolve_knows {orders : OrderMap} {r' : Resolver κ} {s' : σ}
    (h : r.resolve o tokens s = (.ok orders, r', s')) :
    r'.context = r.context ∧ orders = r'.answers tokens ∧ (∀ t ∈ tokens, r'.Knows t) ∧
      ∀ t k, r.cache.lookup t = some k → r'.cache.lookup t = some k := by
  have hout := resolve_outcome o r tokens s
  rw [h] at hout
  cases hout with
  | remembered hm => exact ⟨rfl, rfl, missing_eq_nil.mp hm, fun _ _ hk => hk⟩
  | learned entries _ _ _ hlen =>
    refine ⟨rfl, rfl, ?_, fun _ _ => lookup_learn o r _ _⟩
    intro t ht
    by_cases hk : r.Knows t
    · obtain ⟨k, hk⟩ := Option.isSome_iff_exists.mp hk
      exact Option.isSome_iff_exists.mpr ⟨k, lookup_learn o r _ _ hk⟩
    · exact knows_learn hlen (mem_missing.mpr ⟨ht, hk⟩)

theorem resolve_of_known (h : ∀ t ∈ tokens, r.Knows t) :
    r.resolve o tokens s = (.ok (r.answers tokens), r, s) := by
  have hm := missing_eq_nil.mpr h
  unfold resolve answers
  rw [hm]

/-- A context that answers with one entry for each class, and has one key for a class. -/
def Steady (o : Ranking σ κ) (context : κ) (said : String → Option OrderKey) : Prop :=
  ∀ batch s entries s', o.classOrder context batch s = (.ok entries, s') →
    entries.map (·.2) = batch.map said

/-- A context that has one key for a class in all batches that it answers entry by entry. Whenever it
likes it may fail, or give another number of entries. -/
def Consistent (o : Ranking σ κ) (context : κ) (said : String → Option OrderKey) : Prop :=
  ∀ batch s entries s', o.classOrder context batch s = (.ok entries, s') →
    entries.length = batch.length → entries.map (·.2) = batch.map said

theorem Steady.consistent {context : κ} {said : String → Option OrderKey} (h : Steady o context said) :
    Consistent o context said :=
  fun batch s entries s' hanswer _ => h batch s entries s' hanswer

def reported (o : Ranking σ κ) (context : κ) (said : String → Option OrderKey) (t : String) :
    Option OrderKey := (said t).or (markerKey o context t)

def Faithful (o : Ranking σ κ) (said : String → Option OrderKey) (r : Resolver κ) : Prop :=
  ∀ t k, r.cache.lookup t = some k → k = reported o r.context said t

theorem faithful_learn {said : String → Option OrderKey} (hr : Faithful o said r)
    {batch : List String} {entries : List (String × Option OrderKey)}
    (he : entries.map (·.2) = batch.map said) : Faithful o said (r.learn o batch entries) := by
  have hlearned : ((batch.zip entries).map fun (t, _, key) => (t, key.or (markerKey o r.context t))) =
      batch.map fun t => (t, reported o r.context said t) := by
    induction batch generalizing entries with
    | nil => rfl
    | cons t batch ih =>
      cases entries with
      | nil => simp at he
      | cons e entries =>
        simp only [List.map_cons, List.cons.injEq] at he
        simp [he.1, reported, ih he.2]
  intro t k hk
  unfold learn at hk
  rw [hlearned, List.lookup_append, lookup_table] at hk
  cases hold : r.cache.lookup t with
  | some k' =>
    rw [hold] at hk
    obtain rfl : k' = k := by simpa using hk
    exact hr t k' hold
  | none =>
    rw [hold] at hk
    split at hk
    · exact (by simpa using hk : reported o r.context said t = k).symm
    · simp at hk

theorem resolve_context : (r.resolve o tokens s).2.1.context = r.context := by
  have h := resolve_outcome o r tokens s
  generalize r.resolve o tokens s = result at h
  cases h <;> rfl

theorem Consistent.resolve {said : String → Option OrderKey} (hc : Consistent o r.context said)
    (hr : Faithful o said r) : Faithful o said (r.resolve o tokens s).2.1 := by
  have h := resolve_outcome o r tokens s
  generalize r.resolve o tokens s = result at h
  cases h with
  | remembered => exact hr
  | failed => exact hr
  | mismatch => exact hr
  | learned entries s' _ hanswer hlen => exact faithful_learn hr (hc _ _ _ _ hanswer hlen)

/-- No run of requests makes a resolver report another key. -/
theorem Consistent.reached {said : String → Option OrderKey} (hc : Consistent o r.context said)
    (h : Reached o r) : Faithful o said r := by
  induction h with
  | new context => intro t k hk; simp [new] at hk
  | resolve before tokens s _ ih =>
    rw [resolve_context] at hc
    exact hc.resolve (ih hc)

theorem key?_of_known {said : String → Option OrderKey} (hr : Faithful o said r) {t : String}
    (h : r.Knows t) : r.cache.key? t = reported o r.context said t := by
  obtain ⟨k, hk⟩ := Option.isSome_iff_exists.mp h
  rw [OrderMap.key?, hk, ← hr t k hk]
  rfl

end Resolver

end ClassSort
