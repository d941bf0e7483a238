import ClassSort.Order.Expiring

/-!
An expiring map answers as if it kept every insertion for ever: what lookups and `purge` drop has
expired by then, and as long as the clock does not run backwards it stays expired.
-/

namespace ClassSort.Expiring

variable {κ ν : Type} {m : Expiring κ ν} {key : κ} {value : ν} {now : Nat}

theorem mem_of_mem_purge {e : κ × Nat × ν} (h : e ∈ (m.purge now).entries) : e ∈ m.entries :=
  (List.mem_filter.mp h).1

variable [BEq κ]

@[simp] theorem get_ttl : (m.get key now).2.ttl = m.ttl := by
  unfold get
  split
  · rfl
  · split <;> rfl

theorem mem_of_mem_get {e : κ × Nat × ν} (h : e ∈ (m.get key now).2.entries) : e ∈ m.entries := by
  unfold get at h
  split at h
  · exact h
  · split at h
    · exact h
    · exact (List.mem_filter.mp h).1

theorem mem_of_mem_insert {e : κ × Nat × ν} (h : e ∈ (m.insert key value now).entries) :
    e = (key, now, value) ∨ e ∈ m.entries := by
  rcases List.mem_cons.mp h with rfl | h
  · exact .inl rfl
  · exact .inr (List.mem_filter.mp h).1

theorem get_eq_some_iff : (m.get key now).1 = some value ↔
    ∃ since, m.entry? key = some (since, value) ∧ now - since < m.ttl := by
  unfold get
  cases hentry : m.entry? key with
  | none => simp
  | some e =>
    obtain ⟨since, v⟩ := e
    by_cases hlive : now - since < m.ttl
    · simp only [isLive, hlive, decide_true, if_true, Option.some.injEq, Prod.mk.injEq]
      constructor
      · rintro rfl
        exact ⟨since, ⟨rfl, rfl⟩, hlive⟩
      · rintro ⟨_, ⟨-, rfl⟩, -⟩
        rfl
    · simp only [isLive, hlive, decide_false, Option.some.injEq, Prod.mk.injEq]
      constructor
      · rintro ⟨⟩
      · rintro ⟨_, ⟨rfl, -⟩, h⟩
        exact absurd h hlive

theorem exists_of_lookup {α β : Type} [BEq α] {k : α} {v : β} {xs : List (α × β)}
    (h : xs.lookup k = some v) : ∃ k', (k', v) ∈ xs ∧ (k == k') = true := by
  induction xs with
  | nil => cases h
  | cons x xs ih =>
    rw [List.lookup_cons] at h
    by_cases hk : (k == x.1) = true
    · simp only [hk, Option.some.injEq] at h
      exact ⟨x.1, h ▸ List.mem_cons_self, hk⟩
    · rw [Bool.not_eq_true] at hk
      simp only [hk] at h
      obtain ⟨k', hmem, hk'⟩ := ih h
      exact ⟨k', List.mem_cons_of_mem _ hmem, hk'⟩

theorem exists_of_get (h : (m.get key now).1 = some value) :
    ∃ k since, (k, since, value) ∈ m.entries ∧ (key == k) = true ∧ now - since < m.ttl := by
  obtain ⟨since, hentry, hlive⟩ := get_eq_some_iff.mp h
  obtain ⟨k, hmem, hk⟩ := exists_of_lookup hentry
  exact ⟨k, since, hmem, hk, hlive⟩

def IsDistinct (m : Expiring κ ν) : Prop := m.entries.Pairwise fun d e => (d.1 == e.1) = false

theorem IsDistinct.erase (h : m.IsDistinct) : (m.erase key).IsDistinct := h.filter _

theorem IsDistinct.purge (h : m.IsDistinct) : (m.purge now).IsDistinct := h.filter _

theorem IsDistinct.get (h : m.IsDistinct) : (m.get key now).2.IsDistinct := by
  unfold Expiring.get
  split
  · exact h
  · split
    · exact h
    · exact h.erase

/-- From `clock` on, the map answers what the insertions say, of which the newest is in front: each
entry is the last insertion of its key, and where that one is gone it has expired. -/
structure Follows (m : Expiring κ ν) (inserted : List (κ × Nat × ν)) (clock : Nat) : Prop where
  distinct : m.IsDistinct
  entry : ∀ key, m.entry? key = inserted.lookup key ∨
    m.entry? key = none ∧ ∀ since v, inserted.lookup key = some (since, v) → m.ttl ≤ clock - since

variable {inserted : List (κ × Nat × ν)} {clock : Nat}

theorem follows_empty (ttl : Nat) : (empty ttl : Expiring κ ν).Follows [] 0 :=
  ⟨.nil, fun _ => .inl rfl⟩

theorem Follows.later (h : m.Follows inserted clock) (hnow : clock ≤ now) : m.Follows inserted now := by
  refine ⟨h.distinct, fun key => ?_⟩
  rcases h.entry key with hentry | ⟨hnone, hold⟩
  · exact .inl hentry
  · refine .inr ⟨hnone, fun since v hlast => ?_⟩
    have := hold since v hlast
    omega

/-- The last insertion is answered as long as it is not older than the lifetime. -/
theorem Follows.get_iff (h : m.Follows inserted clock) (hnow : clock ≤ now) :
    (m.get key now).1 = some value ↔
      ∃ since, inserted.lookup key = some (since, value) ∧ now - since < m.ttl := by
  rw [get_eq_some_iff]
  rcases (h.later hnow).entry key with hentry | ⟨hnone, hold⟩
  · rw [hentry]
  · constructor
    · rintro ⟨since, hsome, -⟩
      rw [hnone] at hsome
      cases hsome
    · rintro ⟨since, hlast, hlive⟩
      have := hold since value hlast
      omega

/-- Entries may go once they have expired. -/
theorem Follows.drop {m' : Expiring κ ν} (h : m.Follows inserted clock) (hnow : clock ≤ now)
    (hdistinct : m'.IsDistinct) (httl : m'.ttl = m.ttl) (hentry : ∀ k, m'.entry? k = m.entry? k ∨
      m'.entry? k = none ∧ ∀ since v, m.entry? k = some (since, v) → m.ttl ≤ now - since) :
    m'.Follows inserted now := by
  refine ⟨hdistinct, fun k => ?_⟩
  rw [httl]
  rcases hentry k with hsame | ⟨hgone, hold⟩
  · rw [hsame]
    exact (h.later hnow).entry k
  · rcases (h.later hnow).entry k with hlast | ⟨-, hlast⟩
    · rw [hlast] at hold
      exact .inr ⟨hgone, hold⟩
    · exact .inr ⟨hgone, hlast⟩

section Entries

variable [EquivBEq κ]

theorem lookup_congr {β : Type} {k k' : κ} (h : (k == k') = true) (xs : List (κ × β)) :
    xs.lookup k = xs.lookup k' := by
  induction xs with
  | nil => rfl
  | cons x xs ih => rw [List.lookup_cons, List.lookup_cons, BEq.congr_left h, ih]

theorem IsDistinct.insert (h : m.IsDistinct) : (m.insert key value now).IsDistinct := by
  refine List.pairwise_cons.mpr ⟨?_, h.erase⟩
  intro e he
  obtain ⟨-, hne⟩ := List.mem_filter.mp he
  rw [BEq.comm]
  simpa using hne

theorem entry?_erase (k : κ) : entry? (m.erase key) k = if k == key then none else m.entry? k := by
  unfold entry? erase
  induction m.entries with
  | nil => simp
  | cons e entries ih =>
    by_cases he : (e.1 == key) = true
    · have hk : (k == e.1) = (k == key) := BEq.congr_right he
      rw [List.filter_cons_of_neg (by simp [he]), ih, List.lookup_cons, hk]
      cases k == key <;> rfl
    · rw [Bool.not_eq_true] at he
      rw [List.filter_cons_of_pos (by simp [he]), List.lookup_cons, List.lookup_cons, ih]
      by_cases hk : (k == e.1) = true
      · have hne : (k == key) = false := (BEq.congr_left hk).trans he
        rw [hk, hne]
        rfl
      · rw [Bool.not_eq_true] at hk
        rw [hk]

theorem entry?_insert (k : κ) :
    entry? (m.insert key value now) k = if k == key then some (now, value) else m.entry? k := by
  have hother : entry? (m.erase key) k = if k == key then none else m.entry? k := entry?_erase k
  unfold entry? at hother ⊢
  unfold insert
  rw [List.lookup_cons, hother]
  cases k == key <;> rfl

/-- An entry that is dropped uncovers no other one. -/
theorem lookup_filter {entries : List (κ × Nat × ν)} (h : entries.Pairwise fun d e => (d.1 == e.1) = false)
    (keep : Nat → Bool) (k : κ) : (entries.filter fun e => keep e.2.1).lookup k =
      (entries.lookup k).filter fun e => keep e.1 := by
  induction entries with
  | nil => rfl
  | cons e entries ih =>
    obtain ⟨k', since, v⟩ := e
    obtain ⟨hne, hrest⟩ := List.pairwise_cons.mp h
    by_cases hk : (k == k') = true
    · have hnone : (entries.filter fun e => keep e.2.1).lookup k = none := by
        rw [List.lookup_eq_none_iff]
        intro d hd
        have hother : (k == d.1) = false := (BEq.congr_left hk).trans (hne d (List.mem_filter.mp hd).1)
        simp [bne, hother]
      cases hkeep : keep since <;> simp [List.lookup_cons, Option.filter, hk, hkeep, hnone]
    · rw [Bool.not_eq_true] at hk
      cases hkeep : keep since <;> simp [List.lookup_cons, hk, hkeep, ih hrest]

theorem IsDistinct.entry?_purge (h : m.IsDistinct) (k : κ) :
    entry? (m.purge now) k = (m.entry? k).filter fun e => m.isLive now e.1 :=
  lookup_filter h _ k

theorem Follows.get (h : m.Follows inserted clock) (hnow : clock ≤ now) :
    (m.get key now).2.Follows inserted now := by
  apply h.drop hnow h.distinct.get get_ttl
  intro k
  unfold Expiring.get
  cases hentry : m.entry? key with
  | none => exact .inl rfl
  | some e =>
    by_cases hlive : m.isLive now e.1 = true
    · simp only [hlive, if_true, true_or]
    · simp only [hlive, Bool.false_eq_true, if_false, entry?_erase]
      by_cases hk : (k == key) = true
      · refine .inr ⟨by rw [if_pos hk], ?_⟩
        have hsame : m.entry? k = some e := (lookup_congr hk m.entries).trans hentry
        rintro since v hsome
        rw [hsame] at hsome
        cases hsome
        simpa [isLive] using hlive
      · exact .inl (if_neg hk)

theorem Follows.purge (h : m.Follows inserted clock) (hnow : clock ≤ now) :
    (m.purge now).Follows inserted now := by
  apply h.drop hnow h.distinct.purge rfl
  intro k
  rw [h.distinct.entry?_purge]
  cases hentry : m.entry? k with
  | none => exact .inl rfl
  | some e =>
    by_cases hlive : m.isLive now e.1 = true
    · exact .inl (by simp [Option.filter, hlive])
    · refine .inr ⟨by simp [Option.filter, hlive], ?_⟩
      rintro since v hsome
      cases hsome
      simpa [isLive] using hlive

theorem Follows.insert (h : m.Follows inserted now) :
    (m.insert key value now).Follows ((key, now, value) :: inserted) now := by
  refine ⟨h.distinct.insert, fun k => ?_⟩
  rw [entry?_insert, List.lookup_cons]
  cases k == key with
  | true => exact .inl rfl
  | false => exact h.entry k

end Entries

end ClassSort.Expiring
