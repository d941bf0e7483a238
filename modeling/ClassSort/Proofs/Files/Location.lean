import ClassSort.Files.Tree
import ClassSort.Proofs.Files.Components

/-!
Where a path leads. Without links it is enough to go through its components, back at a `..` and on at
a name: a path that can be followed through a tree ends there, and it can be followed if everything
on the way is a directory.
-/

namespace ClassSort

def Component.step : List String → Component → List String
  | _, .root => []
  | here, .current => here
  | here, .parent => here.dropLast
  | here, .name n => here ++ [n]

/-- The names on the way to what an absolute path stands for, with `.` and `..` resolved. -/
def Path.location (p : Path) : List String := p.components.foldl Component.step []

namespace FileTree

open Path

variable {t : FileTree} {here : List String} {ss : List (List Char)}

theorem walk_append (t : FileTree) (here : List String) (ss ts : List (List Char)) :
    t.walk here (ss ++ ts) = t.walk here ss >>= fun names => t.walk names.reverse ts := by
  induction ss generalizing here with
  | nil => simp [walk, bind, Except.bind]
  | cons s ss ih =>
    rw [List.cons_append, walk, walk]
    split
    · split
      · exact ih here
      · split
        · exact ih here.tail
        · dsimp only
          split
          · exact ih _
          · rfl
    · rfl

/-- Whoever arrives has gone the way that the components describe. -/
theorem walk_location {names : List String} (h : t.walk here ss = .ok names) :
    names = (componentsOf ss).foldl Component.step here.reverse := by
  induction ss generalizing here with
  | nil => exact (Except.ok.inj h).symm
  | cons s ss ih =>
    rw [walk] at h
    split at h
    · cases hs : isIdle s with
      | true =>
        rw [if_pos hs] at h
        rw [componentsOf_idle hs, ih h]
      | false =>
        rw [if_neg (by simp [hs])] at h
        rw [componentsOf_busy hs, List.foldl_cons]
        split at h
        · next hup =>
          rw [ih h, component, if_pos hup, Component.step, List.dropLast_reverse]
        · next hup =>
          dsimp only at h
          split at h
          · rw [ih h, component, if_neg hup, Component.step, List.reverse_cons]
          · cases h
    · cases h

/-- A way that leads through directories only can be gone. -/
theorem walk_of_directories
    (h : ∀ cs, cs <+: componentsOf ss → ∃ m, t.entry? (cs.foldl Component.step here.reverse) = some (.dir m)) :
    t.walk here ss = .ok ((componentsOf ss).foldl Component.step here.reverse) := by
  induction ss generalizing here with
  | nil => rfl
  | cons s ss ih =>
    obtain ⟨m, hhere⟩ := h [] List.nil_prefix
    rw [List.foldl_nil] at hhere
    rw [walk, hhere]
    dsimp only
    cases hs : isIdle s with
    | true =>
      rw [if_pos rfl, componentsOf_idle hs]
      rw [componentsOf_idle hs] at h
      exact ih h
    | false =>
      rw [if_neg (by simp), componentsOf_busy hs, List.foldl_cons]
      rw [componentsOf_busy hs] at h
      have hnext (cs : List Component) (hcs : cs <+: componentsOf ss) :
          ∃ m, t.entry? (cs.foldl Component.step (Component.step here.reverse (component s))) = some (.dir m) :=
        h (component s :: cs) (List.cons_prefix_cons.mpr ⟨rfl, hcs⟩)
      by_cases hup : s == ['.', '.']
      · have hstep : Component.step here.reverse (component s) = here.tail.reverse := by
          rw [component, if_pos hup, Component.step, List.dropLast_reverse]
        rw [hstep] at hnext ⊢
        rw [if_pos hup]
        exact ih hnext
      · have hstep : Component.step here.reverse (component s) = (String.ofList s :: here).reverse := by
          rw [component, if_neg hup, Component.step, List.reverse_cons]
        rw [hstep] at hnext ⊢
        obtain ⟨m, hentry⟩ := hnext [] List.nil_prefix
        rw [List.foldl_nil] at hentry
        rw [if_neg hup, hentry]
        exact ih hnext

theorem resolve_rooted (t : FileTree) (body : List Char) : t.resolve (rooted body) = t.walk [] (segments body) := by
  rw [resolve, analyse_rooted]

theorem location_rooted (body : List Char) :
    (rooted body).location = (componentsOf (segments body)).foldl Component.step [] := by
  rw [location, components_rooted, List.foldl_cons, Component.step]

/-- A way through directories can be gone on to a name that is there. -/
theorem resolve_join {p : Path} {n : String} {e : Entry} (hp : p.isAbsolute = true) (hn : IsPlainName n)
    (hdirs : ∀ cs, cs <+: p.components → ∃ m, t.entry? (cs.foldl Component.step []) = some (.dir m))
    (hentry : t.entry? (p.location ++ [n]) = some e) : t.resolve (p.join ⟨n⟩) = .ok (p.location ++ [n]) := by
  obtain ⟨body, rfl⟩ := exists_rooted hp
  obtain ⟨joined, ss, hjoin, hsegments, hss⟩ := exists_join hn body
  rw [components_rooted, ← hss] at hdirs
  rw [location_rooted, ← hss] at hentry ⊢
  have hway : t.walk [] ss = .ok ((componentsOf ss).foldl Component.step []) :=
    walk_of_directories fun cs hcs => hdirs (.root :: cs) (List.cons_prefix_cons.mpr ⟨rfl, hcs⟩)
  obtain ⟨m, hhere⟩ := hdirs _ (List.prefix_refl _)
  rw [List.foldl_cons, Component.step] at hhere
  rw [hjoin, resolve_rooted, hsegments, walk_append, hway]
  simp [bind, Except.bind, walk, hhere, hn.busy, hn.not_parent, hentry]

/-- A path that can be followed leads to its location. -/
theorem resolve_location {p : Path} {names : List String} (hp : p.isAbsolute = true)
    (h : t.resolve p = .ok names) : names = p.location := by
  obtain ⟨body, rfl⟩ := exists_rooted hp
  rw [resolve_rooted] at h
  rw [walk_location h, location_rooted, List.reverse_nil]

/-- A file stands at the location of its path. -/
theorem isFile_iff {p : Path} (hp : p.isAbsolute = true) : t.isFile p = true ↔
    t.resolve p = .ok p.location ∧ ∃ e, t.entry? p.location = some e ∧ e.isDirectory = false := by
  unfold isFile find
  constructor
  · intro h
    cases hresolve : t.resolve p with
    | error e => simp [hresolve, bind, Except.bind] at h
    | ok names =>
      obtain rfl := resolve_location hp hresolve
      refine ⟨rfl, ?_⟩
      simp only [hresolve, bind, Except.bind] at h
      cases hentry : t.entry? p.location with
      | none => simp [hentry] at h
      | some e => exact ⟨e, rfl, by simpa [hentry] using h⟩
  · rintro ⟨hresolve, e, hentry, hfile⟩
    simp [hresolve, hentry, hfile, bind, Except.bind]

end FileTree

end ClassSort
