import ClassSort.Proofs.Order.Expiring
import Mathlib.Data.List.Induction

/-!
A map in use: insertions, lookups and purges in any order, with a clock that does not run backwards.
What a lookup answers is decided by the insertions alone. The last one for its key counts until the
lifetime is over, whatever was looked up or purged in between; and right behind a purge the map holds
the keys that live then, each once, and nothing else.
-/

namespace ClassSort.Expiring

inductive Action (κ ν : Type) where
  | insert (key : κ) (value : ν)
  | get (key : κ)
  | purge

/-- An action, and when it is taken. -/
structure Event (κ ν : Type) where
  action : Action κ ν
  now : Nat

variable {κ ν : Type} [BEq κ]

def act (m : Expiring κ ν) (e : Event κ ν) : Expiring κ ν :=
  match e.action with
  | .insert key value => m.insert key value e.now
  | .get key => (m.get key e.now).2
  | .purge => m.purge e.now

def after (ttl : Nat) (events : List (Event κ ν)) : Expiring κ ν := events.foldl act (empty ttl)

def Event.insertion? (key : κ) (e : Event κ ν) : Option (Nat × ν) :=
  match e.action with
  | .insert k value => if key == k then some (e.now, value) else none
  | _ => none

def lastInsertion? (events : List (Event κ ν)) (key : κ) : Option (Nat × ν) :=
  (events.filterMap (Event.insertion? key)).getLast?

/-- The key was put in, the last time less than the lifetime ago. -/
def Lives (ttl : Nat) (events : List (Event κ ν)) (now : Nat) (key : κ) : Prop :=
  ∃ since value, lastInsertion? events key = some (since, value) ∧ now - since < ttl

def insertions (events : List (Event κ ν)) : List (κ × Nat × ν) :=
  events.reverse.filterMap fun e =>
    match e.action with
    | .insert key value => some (key, e.now, value)
    | _ => none

variable {ttl now : Nat} {events : List (Event κ ν)} {m : Expiring κ ν}

theorem after_concat (e : Event κ ν) : after ttl (events ++ [e]) = (after ttl events).act e := by
  simp [after]

@[simp] theorem act_ttl (e : Event κ ν) : (m.act e).ttl = m.ttl := by
  unfold act
  split
  · rfl
  · exact get_ttl
  · rfl

theorem after_ttl : (after ttl events).ttl = ttl := by
  induction events using List.reverseRecOn with
  | nil => rfl
  | append_singleton events e ih => rw [after_concat, act_ttl, ih]

theorem lookup_insertions (key : κ) : (insertions events).lookup key = lastInsertion? events key := by
  induction events using List.reverseRecOn with
  | nil => rfl
  | append_singleton events e ih =>
    unfold insertions lastInsertion? at ih ⊢
    rw [List.reverse_concat, List.filterMap_cons, List.filterMap_append, List.getLast?_append]
    obtain ⟨action, now⟩ := e
    cases action with
    | insert k value =>
      by_cases hk : (key == k) = true
      · simp [Event.insertion?, hk, List.lookup_cons]
      · rw [Bool.not_eq_true] at hk
        simpa [Event.insertion?, hk, List.lookup_cons] using ih
    | get k => simpa [Event.insertion?] using ih
    | purge => simpa [Event.insertion?] using ih

/-- Some entry has the key or one that equals it. -/
theorem exists_key_iff {key : κ} :
    (∃ k ∈ m.entries.map (·.1), (key == k) = true) ↔ ∃ e, m.entry? key = some e := by
  rw [← Option.isSome_iff_exists, entry?, List.lookup_isSome_iff]
  constructor
  · rintro ⟨k, hk, hkey⟩
    obtain ⟨e, he, rfl⟩ := List.mem_map.mp hk
    exact ⟨e, he, hkey⟩
  · rintro ⟨e, he, hkey⟩
    exact ⟨e.1, List.mem_map_of_mem he, hkey⟩

variable [EquivBEq κ]

theorem Follows.act {e : Event κ ν} (h : m.Follows (insertions events) e.now) :
    (m.act e).Follows (insertions (events ++ [e])) e.now := by
  unfold Expiring.act insertions
  rw [List.reverse_concat, List.filterMap_cons]
  cases e.action with
  | insert key value => exact h.insert
  | get key => exact h.get (Nat.le_refl _)
  | purge => exact h.purge (Nat.le_refl _)

/-- A map in use answers what its insertions say. -/
theorem after_follows (hclock : (events.map (·.now)).Pairwise (· ≤ ·)) (hnow : ∀ e ∈ events, e.now ≤ now) :
    (after ttl events).Follows (insertions events) now := by
  induction events using List.reverseRecOn generalizing now with
  | nil => exact (follows_empty ttl).later (Nat.zero_le now)
  | append_singleton events e ih =>
    rw [List.map_append, List.pairwise_append] at hclock
    obtain ⟨hbefore, -, hlast⟩ := hclock
    have hle : ∀ d ∈ events, d.now ≤ e.now := fun d hd =>
      hlast d.now (List.mem_map_of_mem hd) e.now List.mem_cons_self
    rw [after_concat]
    exact (ih hbefore hle).act.later (hnow e (List.mem_append_right _ List.mem_cons_self))

/-- A purge leaves the last insertion of every key that lives. -/
theorem Follows.entry?_purge {inserted : List (κ × Nat × ν)} (h : m.Follows inserted now) (key : κ) :
    entry? (m.purge now) key = (inserted.lookup key).filter fun e => m.isLive now e.1 := by
  rw [h.distinct.entry?_purge]
  rcases h.entry key with hentry | ⟨hnone, hold⟩
  · rw [hentry]
  · rw [hnone, Option.filter_none, eq_comm, Option.filter_eq_none_iff]
    rintro ⟨since, value⟩ hlast
    have := hold since value hlast
    simpa [isLive] using this

/-- A lookup answers the last insertion of its key as long as it is younger than the lifetime, and
nothing else; a purge leaves these insertions and no others, one for each key that lives. -/
theorem after_shows_insertions (ttl : Nat) (events : List (Event κ ν)) (now : Nat)
    (hclock : (events.map (·.now) ++ [now]).Pairwise (· ≤ ·)) :
    (∀ key value, ((after ttl events).get key now).1 = some value ↔
      ∃ since, lastInsertion? events key = some (since, value) ∧ now - since < ttl) ∧
    (∀ key since value, entry? ((after ttl events).purge now) key = some (since, value) ↔
      lastInsertion? events key = some (since, value) ∧ now - since < ttl) ∧
    ∃ keys : List κ, keys.Pairwise (fun j k => (j == k) = false) ∧
      (∀ key, (∃ k ∈ keys, (key == k) = true) ↔ Lives ttl events now key) ∧
      ((after ttl events).purge now).size = keys.length := by
  rw [List.pairwise_append] at hclock
  obtain ⟨hbefore, -, hlast⟩ := hclock
  have hnow : ∀ e ∈ events, e.now ≤ now := fun e he =>
    hlast e.now (List.mem_map_of_mem he) now List.mem_cons_self
  have hfollows : (after ttl events).Follows (insertions events) now := after_follows hbefore hnow
  have hpurged (key : κ) (since : Nat) (value : ν) :
      entry? ((after ttl events).purge now) key = some (since, value) ↔
        lastInsertion? events key = some (since, value) ∧ now - since < ttl := by
    rw [hfollows.entry?_purge, lookup_insertions, Option.filter_eq_some_iff]
    simp [isLive, after_ttl]
  refine ⟨fun key value => ?_, hpurged, ((after ttl events).purge now).entries.map (·.1), ?_, fun key => ?_, ?_⟩
  · rw [hfollows.get_iff (Nat.le_refl now), after_ttl]
    simp only [lookup_insertions]
  · exact List.pairwise_map.mpr hfollows.distinct.purge
  · rw [exists_key_iff]
    constructor
    · rintro ⟨⟨since, value⟩, hentry⟩
      exact ⟨since, value, (hpurged key since value).mp hentry⟩
    · rintro ⟨since, value, hlive⟩
      exact ⟨(since, value), (hpurged key since value).mpr hlive⟩
  · rw [List.length_map, size]

def renewed : List (Event String Nat) :=
  [⟨.insert "a" 1, 0⟩, ⟨.get "a", 7⟩, ⟨.insert "a" 2, 8⟩, ⟨.insert "b" 3, 8⟩, ⟨.purge, 12⟩]

/-- The second insertion counts from its own time, up to the last moment of the lifetime. -/
theorem after_shows_renewed : (renewed.map Event.now ++ [17]).Pairwise (· ≤ ·) ∧
    (renewed.map Event.now ++ [18]).Pairwise (· ≤ ·) ∧
    ((after 10 renewed).get "a" 17).1 = some 2 ∧ ∀ value, ((after 10 renewed).get "a" 18).1 ≠ some value := by
  have hbefore : (renewed.map Event.now ++ [17]).Pairwise (· ≤ ·) := by decide
  have hend : (renewed.map Event.now ++ [18]).Pairwise (· ≤ ·) := by decide
  have hlast : lastInsertion? renewed "a" = some (8, 2) := by decide
  refine ⟨hbefore, hend, ?_, fun value h => ?_⟩
  · exact ((after_shows_insertions 10 renewed 17 hbefore).1 "a" 2).mpr ⟨8, hlast, by decide⟩
  · obtain ⟨since, hsince, hlive⟩ := ((after_shows_insertions 10 renewed 18 hend).1 "a" value).mp h
    rw [hlast] at hsince
    cases hsince
    omega

end ClassSort.Expiring
