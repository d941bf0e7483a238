import ClassSort.Config.Search
import ClassSort.Proofs.Files.Location
import Mathlib.Data.Set.Finite.Basic

/-!
What bounds a search upwards. It goes from directory to directory by dropping components and stops in
front of the root's, so all that it finds lies between the root and the start as they are written. Where
the start has a `..` behind the root, a directory between the two may lie outside the root; then there
is a tree in which the search finds a config outside, and otherwise there is none.
-/

namespace ClassSort

open Path

/-- `dir` stands between `root` and `start` as they are written. -/
structure Path.IsBetween (dir root start : Path) : Prop where
  absolute : dir.isAbsolute = true
  below : root.components <+: dir.components
  above : dir.components <+: start.components

def Path.IsWithin (dir root : Path) : Prop := root.location <+: dir.location

namespace ConfigSearch

variable {files : FileTree} {root start dir p : Path} {names : List String} {n : String}

theorem isPlainName_fileNames : ∀ n ∈ fileNames, IsPlainName n := by
  intro n hn
  simp only [fileNames, List.mem_cons, List.not_mem_nil, or_false] at hn
  rcases hn with rfl | rfl | rfl | rfl | rfl | rfl <;> exact ⟨by decide, by decide, by decide⟩

theorem startsWith_iff : p.startsWith dir = true ↔ dir.components <+: p.components :=
  List.isPrefixOf_iff_prefix

/-- What is found is a file of a directory between the root and the start. -/
theorem upwards_sound {fuel : Nat} (hdir : dir.isAbsolute = true)
    (h : upwards files root names fuel dir = some p) :
    ∃ (above : Path) (n : String),
      above.IsBetween root dir ∧ n ∈ names ∧ p = above.join ⟨n⟩ ∧ files.isFile p = true := by
  induction fuel generalizing dir with
  | zero => cases h
  | succ fuel ih =>
    rw [upwards] at h
    split at h
    · cases h
    · next hwithin =>
      have hbelow : root.components <+: dir.components := startsWith_iff.mp (by simpa using hwithin)
      split at h
      · next found hfound =>
        cases h
        obtain ⟨n, hn, rfl⟩ := List.mem_map.mp (List.mem_of_find?_eq_some hfound)
        have hfile := List.find?_some hfound
        exact ⟨dir, n, ⟨hdir, hbelow, List.prefix_refl _⟩, hn, rfl, hfile⟩
      · obtain ⟨parent, hparent, h⟩ := Option.bind_eq_some_iff.mp h
        rcases parent?_cases hdir with ⟨-, hnone⟩ | ⟨above, habove, habsolute, hcomponents⟩
        · rw [hnone] at hparent
          cases hparent
        · obtain rfl : above = parent := Option.some.inj (habove.symm.trans hparent)
          obtain ⟨farther, n, hbetween, hn, hp, hfile⟩ := ih habsolute h
          have hshorter : above.components <+: dir.components := hcomponents ▸ List.dropLast_prefix _
          exact ⟨farther, n, ⟨hbetween.absolute, hbetween.below, hbetween.above.trans hshorter⟩, hn, hp, hfile⟩

/-- A directory between the root and the start is reached, unless something is found before. -/
theorem upwards_complete {fuel : Nat} {cs : List Component} (hdir : dir.isAbsolute = true)
    (hroot : root.isAbsolute = true) (hbelow : root.components <+: cs) (habove : cs <+: dir.components)
    (hfuel : dir.components.length < fuel)
    (h : ∀ q : Path, q.isAbsolute = true → q.components = cs → (inDirectory? files q names).isSome = true) :
    (upwards files root names fuel dir).isSome = true := by
  induction fuel generalizing dir with
  | zero => omega
  | succ fuel ih =>
    rw [upwards, if_neg (by simpa using startsWith_iff.mpr (hbelow.trans habove))]
    cases hfound : inDirectory? files dir names with
    | some found => rfl
    | none =>
      have hfarther : cs ≠ dir.components := by
        intro heq
        simpa [hfound] using h dir hdir heq.symm
      rcases parent?_cases hdir with ⟨hcomponents, -⟩ | ⟨above, hparent, habsolute, hcomponents⟩
      · -- only the root directory has no parent, and the search has come to it
        obtain ⟨body, rfl⟩ := exists_rooted hroot
        rw [components_rooted] at hbelow
        obtain ⟨tail, hcs⟩ := hbelow
        rw [hcomponents, ← hcs, List.cons_append, List.cons_prefix_cons, List.prefix_nil] at habove
        rw [hcomponents, ← hcs, List.cons_append, habove.2] at hfarther
        exact absurd rfl hfarther
      · rw [hparent]
        have hne : dir.components ≠ [] := by
          obtain ⟨body, rfl⟩ := exists_rooted hdir
          simp
        refine ih habsolute ?_ ?_
        · rw [hcomponents]
          obtain ⟨last, hlast⟩ : ∃ last, dir.components = dir.components.dropLast ++ [last] :=
            ⟨_, (List.dropLast_concat_getLast hne).symm⟩
          rw [hlast] at habove hfarther
          exact (List.prefix_concat_iff.mp habove).resolve_left hfarther
        · have hpos := List.length_pos_of_ne_nil hne
          rw [hcomponents, List.length_dropLast]
          omega

theorem find_eq_ok {configured : Option String} : find files root start configured = .ok p ↔
    upwards files root (configured.toList ++ fileNames) (start.text.length + 1) start = some p := by
  unfold find
  split
  · next found hfound => rw [hfound]; simp
  · next hnone => rw [hnone]; simp

/-- A found config stands in a directory between the root and the start, in the tree as well. -/
theorem find_sound {configured : Option String} (hstart : start.isAbsolute = true)
    (hplain : ∀ n ∈ configured, IsPlainName n) (h : find files root start configured = .ok p) :
    ∃ (dir : Path) (n : String), p.parent? = some dir ∧ dir.IsBetween root start ∧
      n ∈ configured.toList ++ fileNames ∧ files.resolve p = .ok (dir.location ++ [n]) ∧
        ∃ e, files.entry? (dir.location ++ [n]) = some e ∧ e.isDirectory = false := by
  obtain ⟨above, n, hbetween, hn, rfl, hfile⟩ := upwards_sound hstart (find_eq_ok.mp h)
  have hname : IsPlainName n := by
    rcases List.mem_append.mp hn with hn | hn
    · exact hplain n (by simpa using hn)
    · exact isPlainName_fileNames n hn
  have habsolute := isAbsolute_join hbetween.absolute hname
  have hcomponents := components_join hbetween.absolute hname
  rcases parent?_cases habsolute with ⟨hroot, -⟩ | ⟨dir, hparent, hdir, hdropped⟩
  · obtain ⟨body, rfl⟩ := exists_rooted hbetween.absolute
    rw [hcomponents] at hroot
    simp at hroot
  · rw [hcomponents, List.dropLast_concat] at hdropped
    have hlocation : (above.join ⟨n⟩).location = dir.location ++ [n] := by
      rw [location, location, hcomponents, hdropped, List.foldl_append]
      rfl
    have hthere := (FileTree.isFile_iff habsolute).mp hfile
    rw [hlocation] at hthere
    exact ⟨dir, n, hparent, ⟨hdir, hdropped ▸ hbetween.below, hdropped ▸ hbetween.above⟩, hn, hthere⟩

/-! A tree with a config in a directory that a path leads to. -/

def treeAlong (cs : List Component) (n : String) : FileTree :=
  ⟨(cs.foldl Component.step [] ++ [n], .file "" 0) ::
    cs.inits.map fun front => (front.foldl Component.step [], .dir 0)⟩

theorem mem_of_mem_steps {cs : List Component} {here : List String}
    (h : n ∈ cs.foldl Component.step here) : n ∈ here ∨ .name n ∈ cs := by
  induction cs generalizing here with
  | nil => exact .inl h
  | cons c cs ih =>
    rcases ih h with hhere | hcs
    · cases c with
      | root => simp [Component.step] at hhere
      | current => exact .inl hhere
      | parent => exact .inl (List.mem_of_mem_dropLast hhere)
      | name m =>
        rw [Component.step, List.mem_append, List.mem_singleton] at hhere
        exact hhere.imp_right fun heq => by rw [heq]; exact List.mem_cons_self
    · exact .inr (List.mem_cons_of_mem _ hcs)

/-- The tree has one file. -/
theorem treeAlong_entries {cs : List Component} {here : List String} {e : Entry}
    (h : FileTree.entry? (treeAlong cs n) here = some e) : here = cs.foldl Component.step [] ++ [n] ∨ e = .dir 0 := by
  cases here with
  | nil => exact .inr (Option.some.inj h).symm
  | cons m here =>
    obtain ⟨front, rest, hsplit, -⟩ := List.lookup_eq_some_iff.mp h
    have hmem : (m :: here, e) ∈ (treeAlong cs n).entries := hsplit ▸ List.mem_append_right _ List.mem_cons_self
    rcases List.mem_cons.mp hmem with hfile | hdir
    · exact .inl (congrArg Prod.fst hfile)
    · obtain ⟨front, -, heq⟩ := List.mem_map.mp hdir
      exact .inr (congrArg Prod.snd heq).symm

theorem treeAlong_file (cs : List Component) (n : String) :
    FileTree.entry? (treeAlong cs n) (cs.foldl Component.step [] ++ [n]) = some (.file "" 0) := by
  simp [treeAlong, FileTree.entry?]

theorem treeAlong_directory {cs front : List Component} (hn : .name n ∉ cs) (hfront : front <+: cs) :
    FileTree.entry? (treeAlong cs n) (front.foldl Component.step []) = some (.dir 0) := by
  cases hhere : front.foldl Component.step [] with
  | nil => rfl
  | cons m here =>
    have hmem : (m :: here, Entry.dir 0) ∈ (treeAlong cs n).entries :=
      List.mem_cons_of_mem _ (List.mem_map.mpr ⟨front, (List.mem_inits _ _).mpr hfront, by rw [hhere]⟩)
    obtain ⟨e, he⟩ : ∃ e, FileTree.entry? (treeAlong cs n) (m :: here) = some e :=
      Option.isSome_iff_exists.mp (List.lookup_isSome_iff.mpr ⟨_, hmem, beq_self_eq_true _⟩)
    rcases treeAlong_entries he with hfile | hdir
    · -- the name of the file is on no way to a directory
      have hlast : n ∈ front.foldl Component.step [] := by
        rw [hhere, hfile]
        exact List.mem_append_right _ List.mem_cons_self
      rcases mem_of_mem_steps hlast with hnil | hname
      · exact absurd hnil List.not_mem_nil
      · exact absurd (hfront.subset hname) hn
    · rw [← hdir]
      exact he

/-- Some plain name is none of finitely many components. -/
theorem exists_fresh (cs : List Component) : ∃ n, IsPlainName n ∧ .name n ∉ cs := by
  let name (k : Nat) : Component := .name (String.ofList (List.replicate (k + 1) 'x'))
  have hinjective : Function.Injective name := by
    intro j k h
    have := congrArg List.length (String.ofList_inj.mp (Component.name.inj h))
    simpa using this
  obtain ⟨c, ⟨k, rfl⟩, hfresh⟩ := (Set.infinite_range_of_injective hinjective).exists_notMem_finset cs.toFinset
  refine ⟨String.ofList (List.replicate (k + 1) 'x'), ⟨by simp, ?_, ?_⟩, by simpa using hfresh⟩
  · rw [String.toList_ofList, isIdle, Bool.or_eq_false_iff, beq_eq_false_iff_ne, beq_eq_false_iff_ne]
    exact ⟨by simp [List.replicate_succ], by simp [List.replicate_succ]⟩
  · simp [← String.toList_inj, List.replicate_succ]

/-- Every directory between the root and the start is searched: some tree has its only file there. -/
theorem exists_found (hroot : root.isAbsolute = true) (hstart : start.isAbsolute = true)
    (hbetween : dir.IsBetween root start) : ∃ (files : FileTree) (n : String) (p found : Path),
      IsPlainName n ∧ find files root start (some n) = .ok p ∧ p.parent? = some found ∧
        found.location = dir.location := by
  obtain ⟨n, hn, hfresh⟩ := exists_fresh dir.components
  have hthere (q : Path) (hq : q.isAbsolute = true) (hcomponents : q.components = dir.components) :
      (inDirectory? (treeAlong dir.components n) q (n :: fileNames)).isSome = true := by
    have hlocation : q.location = dir.components.foldl Component.step [] := by rw [location, hcomponents]
    have hentry : FileTree.entry? (treeAlong dir.components n) (q.location ++ [n]) = some (.file "" 0) := by
      rw [hlocation]
      exact treeAlong_file _ n
    have hresolve := FileTree.resolve_join hq hn
      (fun cs hcs => ⟨0, treeAlong_directory hfresh (hcomponents ▸ hcs)⟩) hentry
    have hjoined : (q.join ⟨n⟩).location = q.location ++ [n] :=
      (FileTree.resolve_location (isAbsolute_join hq hn) hresolve).symm
    have hfile : (treeAlong dir.components n).isFile (q.join ⟨n⟩) = true :=
      (FileTree.isFile_iff (isAbsolute_join hq hn)).mpr
        ⟨by rw [hjoined, hresolve], .file "" 0, by rw [hjoined, hentry], rfl⟩
    simp [inDirectory?, hfile]
  obtain ⟨p, hp⟩ := Option.isSome_iff_exists.mp (upwards_complete hstart hroot hbetween.below hbetween.above
    (Nat.lt_succ_of_le (length_components_le hstart)) hthere)
  have hfind : find (treeAlong dir.components n) root start (some n) = .ok p := find_eq_ok.mpr hp
  obtain ⟨found, m, hparent, -, -, -, e, he, hfile⟩ := find_sound hstart (by simpa using hn) hfind
  refine ⟨_, n, p, found, hn, hfind, hparent, ?_⟩
  rcases treeAlong_entries he with heq | hdirectory
  · exact (List.append_inj' heq rfl).1
  · rw [hdirectory] at hfile
    cases hfile

/-- Behind the root a way without `..` only goes further down. -/
theorem isPrefix_steps {cs : List Component} (h : ∀ c ∈ cs, c ≠ .root ∧ c ≠ .parent) (here : List String) :
    here <+: cs.foldl Component.step here := by
  induction cs generalizing here with
  | nil => exact List.prefix_refl _
  | cons c cs ih =>
    have hc := h c List.mem_cons_self
    refine List.IsPrefix.trans ?_ (ih (fun d hd => h d (List.mem_cons_of_mem _ hd)) _)
    cases c with
    | root => exact absurd rfl hc.1
    | current => exact List.prefix_refl _
    | parent => exact absurd rfl hc.2
    | name n => exact List.prefix_append _ _

theorem isWithin_of_plain (hstart : start.isAbsolute = true) (hroot : root.isAbsolute = true)
    (hplain : .parent ∉ start.components.drop root.components.length) (h : dir.IsBetween root start) :
    dir.IsWithin root := by
  obtain ⟨behind, hbehind⟩ := h.below
  obtain ⟨farther, hfarther⟩ := h.above
  have hdrop : start.components.drop root.components.length = behind ++ farther := by
    rw [← hfarther, ← hbehind, List.append_assoc, List.drop_left]
  rw [IsWithin, location, location, ← hbehind, List.foldl_append]
  refine isPrefix_steps (fun c hc => ⟨?_, ?_⟩) _
  · rintro rfl
    obtain ⟨body, rfl⟩ := exists_rooted hstart
    obtain ⟨above, rfl⟩ := exists_rooted hroot
    rw [components_rooted, components_rooted, List.length_cons, List.drop_succ_cons] at hdrop
    exact root_notMem_componentsOf (List.mem_of_mem_drop (hdrop ▸ List.mem_append_left _ hc))
  · rintro rfl
    exact hplain (hdrop ▸ List.mem_append_left _ hc)

/-- A search finds a file of a directory between the root and the start, as they are written. So it
stays within the root, over all trees and names, exactly if all these directories lie there, which they
do where no `..` stands behind the root. -/
theorem find_within_iff (hroot : root.isAbsolute = true) (hstart : start.isAbsolute = true) :
    (∀ (files : FileTree) (configured : Option String) (p : Path), (∀ n ∈ configured, IsPlainName n) →
      find files root start configured = .ok p →
        ∃ (dir : Path) (n : String), p.parent? = some dir ∧ dir.IsBetween root start ∧
          n ∈ configured.toList ++ fileNames ∧ files.resolve p = .ok (dir.location ++ [n]) ∧
            ∃ e, files.entry? (dir.location ++ [n]) = some e ∧ e.isDirectory = false) ∧
      ((∀ (files : FileTree) (configured : Option String) (p : Path), (∀ n ∈ configured, IsPlainName n) →
          find files root start configured = .ok p → ∃ dir, p.parent? = some dir ∧ dir.IsWithin root) ↔
        ∀ dir : Path, dir.IsBetween root start → dir.IsWithin root) ∧
      (.parent ∉ start.components.drop root.components.length →
        ∀ dir : Path, dir.IsBetween root start → dir.IsWithin root) := by
  refine ⟨fun files configured p hplain h => find_sound hstart hplain h, ⟨?_, ?_⟩, ?_⟩
  · intro h dir hbetween
    obtain ⟨files, n, p, found, hn, hfind, hparent, hlocation⟩ := exists_found hroot hstart hbetween
    obtain ⟨dir', hparent', hwithin⟩ := h files (some n) p (by simpa using hn) hfind
    obtain rfl : found = dir' := Option.some.inj (hparent.symm.trans hparent')
    rw [IsWithin, ← hlocation]
    exact hwithin
  · intro h files configured p hplain hfind
    obtain ⟨dir, n, hparent, hbetween, -⟩ := find_sound hstart hplain hfind
    exact ⟨dir, hparent, h dir hbetween⟩
  · exact fun hplain dir => isWithin_of_plain hstart hroot hplain

/-- From a package without `..` in its path nothing outside the repository is found. -/
theorem package_stays_within : (Path.mk "/repo").isAbsolute = true ∧ (Path.mk "/repo/packages/web").isAbsolute = true ∧
    ∀ (files : FileTree) (configured : Option String) (p : Path), (∀ n ∈ configured, IsPlainName n) →
      find files ⟨"/repo"⟩ ⟨"/repo/packages/web"⟩ configured = .ok p →
        ∃ dir, p.parent? = some dir ∧ dir.IsWithin ⟨"/repo"⟩ := by
  have hroot : (Path.mk "/repo").isAbsolute = true := by decide
  have hstart : (Path.mk "/repo/packages/web").isAbsolute = true := by decide
  obtain ⟨-, hiff, hplain⟩ := find_within_iff hroot hstart
  exact ⟨hroot, hstart, hiff.mpr (hplain (by decide))⟩

def siblingTree : FileTree :=
  ⟨[(["repo"], .dir 0), (["other"], .dir 0), (["other", "tailwind.config.js"], .file "" 0)]⟩

/-- From `../other` the search in the repository comes upon the config of the sibling. -/
theorem sibling_is_found :
    find siblingTree ⟨"/repo"⟩ ⟨"/repo/../other"⟩ none = .ok ⟨"/repo/../other/tailwind.config.js"⟩ ∧
      (Path.mk "/repo/../other/tailwind.config.js").parent? = some ⟨"/repo/../other"⟩ ∧
      (Path.mk "/repo/../other").location = ["other"] ∧ ¬ (Path.mk "/repo/../other").IsWithin ⟨"/repo"⟩ := by
  unfold IsWithin
  decide

end ConfigSearch

end ClassSort
