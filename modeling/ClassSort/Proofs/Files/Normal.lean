import ClassSort.Proofs.Files.Location

/-!
Normalised absolute paths: one slash in front of each name and nothing else. Such a path is the row of
its names. Its parent drops the last one, a name is joined to it by one more slash, and a file stands
there if the tree has one at these names and directories on the whole way to it.
-/

namespace ClassSort

namespace Path

/-- The normalised absolute path of a row of names. -/
def ofNames (names : List String) : Path := ofBody ['/'] (names.map String.toList)

variable {names front : List String} {n : String}

theorem cons_intercalate {ss : List (List Char)} (h : ss ≠ []) :
    '/' :: ['/'].intercalate ss = ss.flatMap ('/' :: ·) := by
  induction ss with
  | nil => exact absurd rfl h
  | cons s ss ih =>
    cases ss with
    | nil => simp
    | cons t ss =>
      rw [List.intercalate_cons_cons, List.flatMap_cons, ← ih (List.cons_ne_nil t ss)]
      simp

@[simp] theorem isAbsolute_ofNames (names : List String) : (ofNames names).isAbsolute = true :=
  isAbsolute_rooted _

theorem ofNames_root : ofNames [] = rooted [] := rfl

theorem ofNames_concat (names : List String) (n : String) : ofNames (names ++ [n]) =
    ⟨String.ofList ((names.flatMap fun m => '/' :: m.toList) ++ '/' :: n.toList)⟩ := by
  have hne : (names ++ [n]).map String.toList ≠ [] := by simp
  rw [ofNames, ofBody, List.singleton_append, cons_intercalate hne]
  simp [List.flatMap_map]

theorem pieces_ofNames (h : ∀ n ∈ names, IsPlainName n) (hne : names ≠ []) :
    (ofNames names).analyse = (some .root, ['/'], names.map String.toList) := by
  have hwhole : ∀ s ∈ names.map String.toList, '/' ∉ s := by
    intro s hs
    obtain ⟨n, hn, rfl⟩ := List.mem_map.mp hs
    exact (h n hn).whole
  rw [ofNames, ofBody_root, analyse_rooted, segments_eq_splitOn,
    List.splitOn_intercalate _ hwhole (by simpa using hne)]

theorem components_ofNames (h : ∀ n ∈ names, IsPlainName n) :
    (ofNames names).components = .root :: names.map .name := by
  have hbusy : componentsOf (names.map String.toList) = names.map .name := by
    induction names with
    | nil => rfl
    | cons n names ih =>
      have hn := (h n List.mem_cons_self).componentsOf
      rw [List.map_cons, ← List.singleton_append, componentsOf_append, hn,
        ih fun m hm => h m (List.mem_cons_of_mem n hm), List.map_cons, List.singleton_append]
  rw [ofNames, ofBody_root, components_rooted, componentsOf_intercalate, hbusy]
  intro s hs
  obtain ⟨n, hn, rfl⟩ := List.mem_map.mp hs
  exact (h n hn).whole

theorem foldl_names (names here : List String) :
    (names.map Component.name).foldl Component.step here = here ++ names := by
  induction names generalizing here with
  | nil => simp
  | cons n names ih =>
    rw [List.map_cons, List.foldl_cons, ih, Component.step, List.append_assoc, List.singleton_append]

theorem location_ofNames (h : ∀ n ∈ names, IsPlainName n) : (ofNames names).location = names := by
  rw [location, components_ofNames h, List.foldl_cons, foldl_names]
  rfl

theorem startsWith_ofNames (h : ∀ n ∈ names, IsPlainName n) (hfront : ∀ n ∈ front, IsPlainName n) :
    (ofNames names).startsWith (ofNames front) = true ↔ front <+: names := by
  have hinjective : Function.Injective Component.name := fun _ _ heq => Component.name.inj heq
  rw [startsWith, List.isPrefixOf_iff_prefix, components_ofNames h, components_ofNames hfront,
    List.cons_prefix_cons, List.prefix_map_iff_of_injective hinjective]
  simp

theorem parent?_root : (ofNames []).parent? = none := rfl

theorem trimIdleEnd_names (h : ∀ n ∈ names, IsPlainName n) :
    trimIdleEnd (names.map String.toList) = names.map String.toList := by
  rcases List.eq_nil_or_concat names with rfl | ⟨front, last, rfl⟩
  · rfl
  · have hlast := (h last (by simp)).busy
    simp [trimIdleEnd, hlast]

theorem parent?_concat (h : ∀ m ∈ names ++ [n], IsPlainName m) :
    (ofNames (names ++ [n])).parent? = some (ofNames names) := by
  have hnames : ∀ m ∈ names, IsPlainName m := (List.forall_mem_append.mp h).1
  rw [parent?, pieces_ofNames h (by simp)]
  dsimp only
  rw [trimIdleEnd_names h]
  split
  · next hnil => simp at hnil
  · rw [← List.map_dropLast, List.dropLast_concat, trimIdleEnd_names hnames]
    rfl

theorem join_ofNames (h : ∀ m ∈ names, IsPlainName m) (hn : IsPlainName n) :
    (ofNames names).join ⟨n⟩ = ofNames (names ++ [n]) := by
  rw [ofNames_concat, join, if_neg (by simp [hn.isAbsolute])]
  rcases List.eq_nil_or_concat names with rfl | ⟨front, last, hnames⟩
  · simp [ofNames_root, rooted]
  · rw [List.concat_eq_append] at hnames
    subst hnames
    have hlast := h last (by simp)
    have hbusy : last.toList ≠ [] := by
      intro hnil
      simpa [hnil, isIdle] using hlast.busy
    have hslash : last.toList.getLast hbusy ≠ '/' := fun heq => hlast.whole (heq ▸ List.getLast_mem hbusy)
    have hend : ((front.flatMap fun m => '/' :: m.toList) ++ '/' :: last.toList).getLast? =
        some (last.toList.getLast hbusy) := by
      rw [List.getLast?_append, List.getLast?_cons, List.getLast?_eq_some_getLast hbusy]
      rfl
    rw [ofNames_concat, String.toList_ofList, hend]
    simp [hslash, ← String.toList_inj]

end Path

namespace FileTree

open Path

variable {t : FileTree} {names here : List String} {n : String}

/-- A way along names that can be gone leads through directories. -/
theorem directories_of_walk {way : List String} (h : ∀ n ∈ names, IsPlainName n)
    (hwalk : t.walk here (names.map String.toList) = .ok way) :
    ∀ front, front <+: names → front ≠ names → ∃ m, t.entry? (here.reverse ++ front) = some (.dir m) := by
  induction names generalizing here with
  | nil =>
    intro front hfront hne
    exact absurd (List.prefix_nil.mp hfront) hne
  | cons n names ih =>
    have hn := h n List.mem_cons_self
    rw [List.map_cons, walk] at hwalk
    split at hwalk
    · next m hhere =>
      rw [if_neg (by simp [hn.busy]), if_neg (by simp [hn.not_parent])] at hwalk
      dsimp only at hwalk
      split at hwalk
      · intro front hfront hne
        cases front with
        | nil => exact ⟨m, by rw [List.append_nil, hhere]⟩
        | cons first front =>
          obtain ⟨rfl, hbehind⟩ := List.cons_prefix_cons.mp hfront
          simpa using ih (fun m hm => h m (List.mem_cons_of_mem _ hm)) hwalk front hbehind
            fun heq => hne (by rw [heq])
      · cases hwalk
    · cases hwalk

theorem isFile_ofNames (h : ∀ m ∈ names, IsPlainName m) (hn : IsPlainName n) :
    t.isFile (ofNames (names ++ [n])) = true ↔
      (∀ front, front <+: names → ∃ m, t.entry? front = some (.dir m)) ∧
        ∃ e, t.entry? (names ++ [n]) = some e ∧ e.isDirectory = false := by
  have hall : ∀ m ∈ names ++ [n], IsPlainName m :=
    List.forall_mem_append.mpr ⟨h, List.forall_mem_singleton.mpr hn⟩
  rw [isFile_iff (isAbsolute_ofNames _), location_ofNames hall]
  refine and_congr_left ?_
  rintro ⟨e, hentry, -⟩
  constructor
  · intro hresolve front hfront
    rw [resolve, pieces_ofNames hall (by simp)] at hresolve
    have hbelow : front ≠ names ++ [n] := by
      rintro rfl
      exact absurd hfront.length_le (by simp)
    simpa using directories_of_walk hall hresolve front (hfront.trans (List.prefix_append _ _)) hbelow
  · intro hdirs
    have hlocation := location_ofNames h
    rw [← join_ofNames h hn, resolve_join (isAbsolute_ofNames _) hn ?_ (by rw [hlocation, hentry]), hlocation]
    intro cs hcs
    rw [components_ofNames h] at hcs
    cases cs with
    | nil => exact ⟨0, rfl⟩
    | cons c cs =>
      obtain ⟨rfl, hnames⟩ := List.cons_prefix_cons.mp hcs
      obtain ⟨front, hfront, rfl⟩ := List.prefix_map_iff.mp hnames
      rw [List.foldl_cons, foldl_names]
      exact hdirs front hfront

end FileTree

end ClassSort
