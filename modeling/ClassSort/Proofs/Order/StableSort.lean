import ClassSort.Order.Sort

/-!
Insertion from the right keeps ties as they were. A stable sort of a list is a permutation that
is in order and leaves the elements of every tie in the order of the list; sorting gives one, no list
has two, and what is in order already comes back. Classes are so sorted by their keys.
-/

namespace ClassSort

variable {α : Type} {le : α → α → Bool}

def tied (le : α → α → Bool) (a b : α) : Bool := le a b && le b a

structure IsStableSort (le : α → α → Bool) (list sorted : List α) : Prop where
  perm : sorted.Perm list
  ordered : sorted.Pairwise (le · ·)
  stable : ∀ a, sorted.filter (tied le a) = list.filter (tied le a)

structure IsWeakOrder (le : α → α → Bool) : Prop where
  total : ∀ a b, le a b = true ∨ le b a = true
  trans : ∀ a b c, le a b = true → le b c = true → le a c = true

theorem IsWeakOrder.comap {β : Type} (h : IsWeakOrder le) (f : β → α) :
    IsWeakOrder fun a b => le (f a) (f b) where
  total a b := h.total (f a) (f b)
  trans a b c := h.trans (f a) (f b) (f c)

theorem insertBy_perm (x : α) (ys : List α) : (insertBy le x ys).Perm (x :: ys) := by
  induction ys with
  | nil => exact .refl _
  | cons y ys ih =>
    rw [insertBy]
    split
    · exact .refl _
    · exact (ih.cons y).trans (.swap x y ys)

theorem sortBy_perm (xs : List α) : (sortBy le xs).Perm xs := by
  induction xs with
  | nil => exact .refl _
  | cons x xs ih => exact (insertBy_perm x _).trans (ih.cons x)

theorem insertBy_ordered (h : IsWeakOrder le) (x : α) {ys : List α} (hys : ys.Pairwise (le · ·)) :
    (insertBy le x ys).Pairwise (le · ·) := by
  induction ys with
  | nil => simp [insertBy]
  | cons y ys ih =>
    obtain ⟨hy, hrest⟩ := List.pairwise_cons.mp hys
    rw [insertBy]
    split
    · next hxy =>
      refine List.pairwise_cons.mpr ⟨?_, hys⟩
      intro z hz
      rcases List.mem_cons.mp hz with rfl | hz
      · exact hxy
      · exact h.trans _ _ _ hxy (hy z hz)
    · next hxy =>
      refine List.pairwise_cons.mpr ⟨?_, ih hrest⟩
      intro z hz
      rcases List.mem_cons.mp ((insertBy_perm x ys).mem_iff.mp hz) with rfl | hz
      · exact (h.total z y).resolve_left hxy
      · exact hy z hz

theorem sortBy_ordered (h : IsWeakOrder le) (xs : List α) : (sortBy le xs).Pairwise (le · ·) := by
  induction xs with
  | nil => exact .nil
  | cons x xs ih => exact insertBy_ordered h x ih

/-- An element goes in front of everything that it is tied with. -/
theorem insertBy_stable (h : IsWeakOrder le) (x : α) (ys : List α) (a : α) :
    (insertBy le x ys).filter (tied le a) = (x :: ys).filter (tied le a) := by
  induction ys with
  | nil => rfl
  | cons y ys ih =>
    rw [insertBy]
    split
    · rfl
    · next hxy =>
      rw [List.filter_cons, ih]
      by_cases hx : tied le a x = true
      · have hy : tied le a y = false := by
          simp only [tied, Bool.and_eq_true] at hx
          cases hay : tied le a y with
          | false => rfl
          | true =>
            simp only [tied, Bool.and_eq_true] at hay
            exact absurd (h.trans _ _ _ hx.2 hay.1) hxy
        simp [hx, hy]
      · simp [List.filter_cons, hx]

theorem sortBy_stable (h : IsWeakOrder le) (xs : List α) (a : α) :
    (sortBy le xs).filter (tied le a) = xs.filter (tied le a) := by
  induction xs with
  | nil => rfl
  | cons x xs ih => rw [sortBy, insertBy_stable h, List.filter_cons, ih, List.filter_cons]

theorem sortBy_isStableSort (h : IsWeakOrder le) (xs : List α) :
    IsStableSort le xs (sortBy le xs) :=
  ⟨sortBy_perm xs, sortBy_ordered h xs, sortBy_stable h xs⟩

theorem sortBy_eq_self {xs : List α} (h : xs.Pairwise (le · ·)) : sortBy le xs = xs := by
  induction xs with
  | nil => rfl
  | cons x xs ih =>
    obtain ⟨hx, hxs⟩ := List.pairwise_cons.mp h
    rw [sortBy, ih hxs]
    cases xs with
    | nil => rfl
    | cons y ys => rw [insertBy, if_pos (hx y List.mem_cons_self)]

/-- A list can be sorted stably in one way only. -/
theorem IsStableSort.unique (hle : IsWeakOrder le) {list sorted sorted' : List α}
    (h : IsStableSort le list sorted) (h' : IsStableSort le list sorted') : sorted = sorted' := by
  have hrefl (a : α) : le a a = true := (hle.total a a).elim id id
  induction sorted generalizing list sorted' with
  | nil =>
    obtain rfl : list = [] := List.nil_perm.mp h.perm
    exact (List.perm_nil.mp h'.perm).symm
  | cons x xs ih =>
    have hperm : (x :: xs).Perm sorted' := h.perm.trans h'.perm.symm
    cases sorted' with
    | nil => exact absurd hperm (by simp)
    | cons y ys =>
      obtain ⟨hx, hxs⟩ := List.pairwise_cons.mp h.ordered
      obtain ⟨hy, hys⟩ := List.pairwise_cons.mp h'.ordered
      have hxy : le x y = true := by
        rcases List.mem_cons.mp (hperm.mem_iff.mpr List.mem_cons_self) with rfl | hmem
        · exact hrefl y
        · exact hx y hmem
      have hyx : le y x = true := by
        rcases List.mem_cons.mp (hperm.mem_iff.mp List.mem_cons_self) with rfl | hmem
        · exact hrefl x
        · exact hy x hmem
      have hsame (a : α) : (x :: xs).filter (tied le a) = (y :: ys).filter (tied le a) :=
        (h.stable a).trans (h'.stable a).symm
      -- the two first elements are tied, and of one tie the same element is the first
      obtain rfl : x = y := by
        have htied := hsame x
        rw [List.filter_cons_of_pos (by simp [tied, hrefl]),
          List.filter_cons_of_pos (by simp [tied, hxy, hyx])] at htied
        exact (List.cons.inj htied).1
      have hrest (a : α) : ys.filter (tied le a) = xs.filter (tied le a) := by
        have hcons := hsame a
        rw [List.filter_cons, List.filter_cons] at hcons
        split at hcons
        · exact (List.cons.inj hcons).2.symm
        · exact hcons.symm
      rw [ih ⟨.refl xs, hxs, fun _ => rfl⟩ ⟨hperm.cons_inv.symm, hys, hrest⟩]

theorem insertBy_map {β : Type} {le : β → β → Bool} (f : α → β) (x : α) (ys : List α) :
    insertBy le (f x) (ys.map f) = (insertBy (fun a b => le (f a) (f b)) x ys).map f := by
  induction ys with
  | nil => rfl
  | cons y ys ih =>
    rw [List.map_cons, insertBy, insertBy]
    split
    · rfl
    · rw [ih, List.map_cons]

theorem sortBy_map {β : Type} {le : β → β → Bool} (f : α → β) (xs : List α) :
    sortBy le (xs.map f) = (sortBy (fun a b => le (f a) (f b)) xs).map f := by
  induction xs with
  | nil => rfl
  | cons x xs ih => rw [List.map_cons, sortBy, ih, insertBy_map, sortBy]

/-! The order of classes. -/

namespace OrderKey

def NotAfter : Option OrderKey → Option OrderKey → Prop
  | none, _ => True
  | some _, none => False
  | some a, some b => a ≤ b

theorem compare_isLE {a b : Option OrderKey} : (compare a b).isLE = true ↔ NotAfter a b := by
  cases a with
  | none => cases b <;> simp [compare, NotAfter]
  | some a =>
    cases b with
    | none => simp [compare, NotAfter]
    | some b =>
      simp only [compare, NotAfter]
      split
      · next h => simpa using Int.le_of_lt h
      · next h =>
        split
        · next he => simpa using Int.le_of_eq he
        · next he => simpa using Int.lt_iff_le_and_ne.mpr ⟨Int.not_lt.mp h, Ne.symm he⟩

/-- Keys are compared as integers are, and none is less than any. -/
theorem compare_eq (a b : Option OrderKey) : compare a b = Ord.compare a b := by
  cases a <;> cases b <;> rfl

theorem compare_transCmp : Std.TransCmp compare := by
  have hcompare : compare = Ord.compare := funext fun a => funext fun b => compare_eq a b
  rw [hcompare]
  infer_instance

/-- Whether a class may stand in front of another one. -/
def mayPrecede (key : String → Option OrderKey) (a b : String) : Bool :=
  (compare (key a) (key b)).isLE

theorem mayPrecede_isWeakOrder (key : String → Option OrderKey) : IsWeakOrder (mayPrecede key) where
  total a b := by
    unfold mayPrecede
    rw [compare_isLE, compare_isLE]
    cases key a <;> cases key b <;> simp [NotAfter, Int.le_total]
  trans a b c := by
    unfold mayPrecede
    rw [compare_isLE, compare_isLE, compare_isLE]
    cases key a <;> cases key b <;> cases key c <;> simp [NotAfter]
    exact Int.le_trans

/-- Classes are tied if they have the same key, or none. -/
theorem tied_iff {key : String → Option OrderKey} {a b : String} :
    tied (mayPrecede key) a b = true ↔ key b = key a := by
  rw [tied, Bool.and_eq_true, mayPrecede, mayPrecede, compare_isLE, compare_isLE]
  cases key a with
  | none => cases key b <;> simp [NotAfter]
  | some m =>
    cases key b with
    | none => simp [NotAfter]
    | some n =>
      simp only [NotAfter, Option.some.injEq]
      exact ⟨fun ⟨hmn, hnm⟩ => Int.le_antisymm hnm hmn, fun h => ⟨Int.le_of_eq h.symm, Int.le_of_eq h⟩⟩

end OrderKey

open OrderKey

theorem sortTokens_isStableSort (tokens : List String) (orders : OrderMap) :
    IsStableSort (mayPrecede orders.key?) tokens (sortTokens tokens orders) :=
  sortBy_isStableSort (mayPrecede_isWeakOrder _) tokens

theorem sortTokens_of_ordered {tokens : List String} {orders : OrderMap}
    (h : tokens.Pairwise (mayPrecede orders.key? · ·)) : sortTokens tokens orders = tokens :=
  sortBy_eq_self h

/-- The ties of classes, told by their keys. -/
theorem isStableSort_iff {key : String → Option OrderKey} {tokens sorted : List String} :
    IsStableSort (mayPrecede key) tokens sorted ↔ sorted.Perm tokens ∧
      sorted.Pairwise (fun a b => (OrderKey.compare (key a) (key b)).isLE = true) ∧
      ∀ k, sorted.filter (key · = k) = tokens.filter (key · = k) := by
  have hties (a : String) (list : List String) :
      list.filter (tied (mayPrecede key) a) = list.filter (key · = key a) :=
    List.filter_congr fun b _ => Bool.eq_iff_iff.mpr (by rw [tied_iff, decide_eq_true_iff])
  constructor
  · intro h
    refine ⟨h.perm, h.ordered, fun k => ?_⟩
    by_cases hkey : ∃ a, key a = k
    · obtain ⟨a, rfl⟩ := hkey
      rw [← hties, ← hties]
      exact h.stable a
    · have hnone (list : List String) : list.filter (key · = k) = [] :=
        List.filter_eq_nil_iff.mpr fun a _ ha => hkey ⟨a, of_decide_eq_true ha⟩
      rw [hnone, hnone]
  · rintro ⟨hperm, hordered, hstable⟩
    exact ⟨hperm, hordered, fun a => by rw [hties, hties, hstable]⟩

/-- Comparison is a total preorder of the keys, as of integers, with no key in front. The sorted classes
are the only rearrangement that is in order and keeps classes of one key, or of none, as they were;
they and all rows taken from them are sorted to themselves. -/
theorem sortTokens_unique (tokens : List String) (orders : OrderMap) :
    (Std.TransCmp OrderKey.compare ∧
      (∀ m n : Int, OrderKey.compare (some m) (some n) = Ord.compare m n) ∧
      ∀ n : Int, OrderKey.compare none (some n) = .lt) ∧
    (∀ sorted, sorted = sortTokens tokens orders ↔ sorted.Perm tokens ∧
      sorted.Pairwise (fun a b => (OrderKey.compare (orders.key? a) (orders.key? b)).isLE = true) ∧
      ∀ k, sorted.filter (orders.key? · = k) = tokens.filter (orders.key? · = k)) ∧
    sortTokens (sortTokens tokens orders) orders = sortTokens tokens orders ∧
    ∀ row, row.Sublist (sortTokens tokens orders) → sortTokens row orders = row := by
  have hsorted := sortTokens_isStableSort tokens orders
  refine ⟨⟨compare_transCmp, fun m n => compare_eq m n, fun _ => rfl⟩, fun sorted => ?_, ?_, fun row hrow => ?_⟩
  · rw [← isStableSort_iff]
    constructor
    · rintro rfl
      exact hsorted
    · exact fun h => h.unique (mayPrecede_isWeakOrder _) hsorted
  · exact sortTokens_of_ordered hsorted.ordered
  · exact sortTokens_of_ordered (hsorted.ordered.sublist hrow)

/-- Of five classes, two of them without a key and two with the same one, three in a row. -/
theorem sortTokens_unique_row :
    ["y", "c", "a"].Sublist (sortTokens ["b", "x", "c", "y", "a"] [("a", some 2), ("b", some 1), ("c", some 2)]) ∧
    sortTokens ["y", "c", "a"] [("a", some 2), ("b", some 1), ("c", some 2)] = ["y", "c", "a"] := by
  have hrow : ["y", "c", "a"].Sublist
      (sortTokens ["b", "x", "c", "y", "a"] [("a", some 2), ("b", some 1), ("c", some 2)]) := by decide
  exact ⟨hrow, (sortTokens_unique _ _).2.2.2 _ hrow⟩

end ClassSort
