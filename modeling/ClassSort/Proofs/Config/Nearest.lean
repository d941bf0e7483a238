import ClassSort.Proofs.Config.Upwards
import ClassSort.Proofs.Files.Normal

/-!
Which config a search upwards returns. From a normalised start it goes to the directories on the chain up
to the root, from the start on, and stops at the first of them that has a file of one of the names. So it
returns the nearest config, if there is one, and otherwise says between which two directories there is
none. The start, the root and the root directory of all files belong to the chain like any other.
-/

namespace ClassSort.ConfigSearch

open Path

variable {files : FileTree} {names rs ss dir : List String} {p : Path} {m n : String} {fuel : Nat}

def Holds (files : FileTree) (dir : List String) (n : String) : Prop :=
  files.isFile ((ofNames dir).join ⟨n⟩) = true

def FirstOf (files : FileTree) (names dir : List String) (n : String) : Prop :=
  ∃ front rest, names = front ++ n :: rest ∧ Holds files dir n ∧ ∀ m ∈ front, ¬Holds files dir m

/-- The file that is nearest to the start on its chain of directories up to the root. -/
structure Nearest (files : FileTree) (rs ss names dir : List String) (n : String) : Prop where
  below : rs <+: dir
  above : dir <+: ss
  first : FirstOf files names dir n
  nearest : ∀ deeper, dir <+: deeper → deeper <+: ss → dir ≠ deeper → ∀ m ∈ names, ¬Holds files deeper m

theorem FirstOf.mem (h : FirstOf files names dir n) : n ∈ names := by
  obtain ⟨front, rest, rfl, -⟩ := h
  simp

theorem FirstOf.holds (h : FirstOf files names dir n) : Holds files dir n := by
  obtain ⟨front, rest, -, hn, -⟩ := h
  exact hn

theorem inDirectory?_eq_some : inDirectory? files (ofNames dir) names = some p ↔
    ∃ n, FirstOf files names dir n ∧ p = (ofNames dir).join ⟨n⟩ := by
  rw [inDirectory?, List.find?_map, Option.map_eq_some_iff]
  refine exists_congr fun n => ?_
  rw [List.find?_eq_some_iff_append]
  constructor
  · rintro ⟨⟨hn, front, rest, hnames, hfront⟩, rfl⟩
    exact ⟨⟨front, rest, hnames, hn, fun m hm => by simpa [Holds] using hfront m hm⟩, rfl⟩
  · rintro ⟨⟨front, rest, hnames, hn, hfront⟩, rfl⟩
    exact ⟨⟨hn, front, rest, hnames, fun m hm => by simpa [Holds] using hfront m hm⟩, rfl⟩

theorem inDirectory?_eq_none : inDirectory? files (ofNames dir) names = none ↔
    ∀ n ∈ names, ¬Holds files dir n := by
  simp [inDirectory?, Holds]

/-- What the first directory has is the nearest. -/
theorem nearest_here (hwithin : rs <+: ss) (h : FirstOf files names ss n) : Nearest files rs ss names ss n where
  below := hwithin
  above := List.prefix_refl ss
  first := h
  nearest _ hbelow habove hne := absurd (hbelow.eq_of_length_le habove.length_le) hne

theorem Nearest.eq_start (h : Nearest files rs ss names dir n) (hm : m ∈ names) (hhere : Holds files ss m) :
    dir = ss := by
  by_contra hne
  exact h.nearest ss h.above (List.prefix_refl ss) hne m hm hhere

/-- Where the first directory has nothing, the nearest from its parent is the nearest. -/
theorem nearest_concat (h : ∀ n ∈ names, ¬Holds files (ss ++ [m]) n) :
    Nearest files rs (ss ++ [m]) names dir n ↔ Nearest files rs ss names dir n := by
  constructor
  · intro hn
    have hne : dir ≠ ss ++ [m] := by
      rintro rfl
      exact h n hn.first.mem hn.first.holds
    exact ⟨hn.below, (List.prefix_concat_iff.mp hn.above).resolve_left hne, hn.first,
      fun deeper hbelow habove => hn.nearest deeper hbelow (habove.trans (List.prefix_append ss [m]))⟩
  · intro hn
    refine ⟨hn.below, hn.above.trans (List.prefix_append ss [m]), hn.first, fun deeper hbelow habove hne => ?_⟩
    rcases List.prefix_concat_iff.mp habove with rfl | habove
    · exact h
    · exact hn.nearest deeper hbelow habove hne

/-- From a start whose components the fuel outnumbers, a search returns the nearest. -/
theorem upwards_eq_some (hroot : ∀ m ∈ rs, IsPlainName m) (hstart : ∀ m ∈ ss, IsPlainName m)
    (hfuel : ss.length < fuel) : upwards files (ofNames rs) names fuel (ofNames ss) = some p ↔
      ∃ dir n, Nearest files rs ss names dir n ∧ p = (ofNames dir).join ⟨n⟩ := by
  induction fuel generalizing ss with
  | zero => omega
  | succ fuel ih =>
    rw [upwards]
    by_cases hwithin : rs <+: ss
    · rw [if_neg (by simpa using (startsWith_ofNames hstart hroot).mpr hwithin)]
      cases hhere : inDirectory? files (ofNames ss) names with
      | some found =>
        obtain ⟨m, hfirst, rfl⟩ := inDirectory?_eq_some.mp hhere
        dsimp only
        rw [Option.some_inj]
        constructor
        · rintro rfl
          exact ⟨ss, m, nearest_here hwithin hfirst, rfl⟩
        · rintro ⟨dir, n, hn, rfl⟩
          obtain rfl := hn.eq_start hfirst.mem hfirst.holds
          exact Option.some.inj (hhere.symm.trans (inDirectory?_eq_some.mpr ⟨n, hn.first, rfl⟩))
      | none =>
        have hnothing := inDirectory?_eq_none.mp hhere
        rcases List.eq_nil_or_concat ss with rfl | ⟨above, m, hss⟩
        · -- the root directory of all files has no parent
          rw [parent?_root]
          constructor
          · rintro ⟨⟩
          · rintro ⟨dir, n, hn, -⟩
            obtain rfl := List.prefix_nil.mp hn.above
            exact absurd hn.first.holds (hnothing n hn.first.mem)
        · rw [List.concat_eq_append] at hss
          subst hss
          have habove : ∀ n ∈ above, IsPlainName n := (List.forall_mem_append.mp hstart).1
          rw [List.length_append, List.length_singleton] at hfuel
          dsimp only
          rw [parent?_concat hstart, Option.bind_some, ih habove (by omega)]
          simp only [nearest_concat hnothing]
    · rw [if_pos (by simpa using mt (startsWith_ofNames hstart hroot).mp hwithin)]
      constructor
      · rintro ⟨⟩
      · rintro ⟨dir, n, hn, -⟩
        exact absurd (hn.below.trans hn.above) hwithin

/-- Wherever one of the names is held there is a first one. -/
theorem exists_firstOf (hn : n ∈ names) (h : Holds files dir n) : ∃ m, FirstOf files names dir m := by
  have hsome : (inDirectory? files (ofNames dir) names).isSome = true := by
    rw [Option.isSome_iff_ne_none, Ne, inDirectory?_eq_none]
    exact fun hnone => hnone n hn h
  obtain ⟨p, hp⟩ := Option.isSome_iff_exists.mp hsome
  obtain ⟨m, hm, -⟩ := inDirectory?_eq_some.mp hp
  exact ⟨m, hm⟩

/-- Where a directory on the chain has a file of one of the names, there is a nearest. -/
theorem exists_nearest (hbelow : rs <+: dir) (habove : dir <+: ss) (hn : n ∈ names) (h : Holds files dir n) :
    ∃ near m, Nearest files rs ss names near m := by
  induction ss using List.reverseRecOn with
  | nil =>
    obtain rfl := List.prefix_nil.mp habove
    obtain ⟨m, hm⟩ := exists_firstOf hn h
    exact ⟨[], m, nearest_here hbelow hm⟩
  | append_singleton ss last ih =>
    by_cases hhere : ∃ m ∈ names, Holds files (ss ++ [last]) m
    · obtain ⟨m, hm, hholds⟩ := hhere
      obtain ⟨first, hfirst⟩ := exists_firstOf hm hholds
      exact ⟨_, first, nearest_here (hbelow.trans habove) hfirst⟩
    · push Not at hhere
      have hne : dir ≠ ss ++ [last] := by
        rintro rfl
        exact hhere n hn h
      obtain ⟨near, m, hnear⟩ := ih ((List.prefix_concat_iff.mp habove).resolve_left hne)
      exact ⟨near, m, (nearest_concat hhere).mpr hnear⟩

theorem length_names_le (h : ∀ m ∈ ss, IsPlainName m) : ss.length < (ofNames ss).text.length + 1 := by
  have := length_components_le (isAbsolute_ofNames ss)
  rw [components_ofNames h, List.length_cons, List.length_map] at this
  omega

theorem find_eq_error {root start : Path} {configured : Option String}
    (h : ∀ p, find files root start configured ≠ .ok p) :
    find files root start configured = .error (.noConfigBetween start root) := by
  unfold find at h ⊢
  split
  · next found hfound =>
    rw [hfound] at h
    exact absurd rfl (h found)
  · rfl

/-- A search between normalised directories returns the nearest config: in the deepest directory on the
chain from the start up to the root that has a file of one of the names, the first of the names that it
has, with the configured one in front. It finds one exactly if the start is the root or below it and some
directory on the chain has such a file, and otherwise names the start and the root. A name that is no way
of its own is put behind the directory, and it is held if there are directories on the way and no
directory at its end. -/
theorem find_nearest (files : FileTree) (rs ss : List String) (configured : Option String)
    (hroot : ∀ m ∈ rs, IsPlainName m) (hstart : ∀ m ∈ ss, IsPlainName m) :
    (∀ p, find files (ofNames rs) (ofNames ss) configured = .ok p ↔
      ∃ dir n, Nearest files rs ss (configured.toList ++ fileNames) dir n ∧ p = (ofNames dir).join ⟨n⟩) ∧
    ((∃ p, find files (ofNames rs) (ofNames ss) configured = .ok p) ↔
      rs <+: ss ∧ ∃ dir, rs <+: dir ∧ dir <+: ss ∧ ∃ n ∈ configured.toList ++ fileNames, Holds files dir n) ∧
    ((∀ p, find files (ofNames rs) (ofNames ss) configured ≠ .ok p) →
      find files (ofNames rs) (ofNames ss) configured = .error (.noConfigBetween (ofNames ss) (ofNames rs))) ∧
    ∀ dir n, dir <+: ss → IsPlainName n → (ofNames dir).join ⟨n⟩ = ofNames (dir ++ [n]) ∧
      (Holds files dir n ↔ (∀ front, front <+: dir → ∃ m, files.entry? front = some (.dir m)) ∧
        ∃ e, files.entry? (dir ++ [n]) = some e ∧ e.isDirectory = false) := by
  have hfind (p : Path) : find files (ofNames rs) (ofNames ss) configured = .ok p ↔
      ∃ dir n, Nearest files rs ss (configured.toList ++ fileNames) dir n ∧ p = (ofNames dir).join ⟨n⟩ := by
    rw [find_eq_ok, upwards_eq_some hroot hstart (length_names_le hstart)]
  refine ⟨hfind, ?_, find_eq_error, fun dir n habove hn => ?_⟩
  · simp only [hfind]
    constructor
    · rintro ⟨-, dir, n, hnear, rfl⟩
      exact ⟨hnear.below.trans hnear.above, dir, hnear.below, hnear.above, n, hnear.first.mem, hnear.first.holds⟩
    · rintro ⟨-, dir, hbelow, habove, n, hn, hholds⟩
      obtain ⟨near, m, hnear⟩ := exists_nearest hbelow habove hn hholds
      exact ⟨_, near, m, hnear, rfl⟩
  · have hdir : ∀ m ∈ dir, IsPlainName m := fun m hm => hstart m (habove.subset hm)
    have hjoin := join_ofNames hdir hn
    exact ⟨hjoin, by rw [Holds, hjoin, FileTree.isFile_ofNames hdir hn]⟩

def packageTree : FileTree :=
  ⟨[(["repo"], .dir 0), (["repo", "tailwind.config.js"], .file "" 0), (["repo", "web"], .dir 0),
    (["repo", "web", "tailwind.config.cjs"], .file "" 0), (["repo", "web", "src"], .dir 0),
    (["repo", "web", "src", "tailwind.config.js"], .dir 0)]⟩

/-- From the sources the config of the package is found, and from a sibling of the repository none is. -/
theorem nearest_in_package : (∀ m ∈ ["repo"], IsPlainName m) ∧ (∀ m ∈ ["repo", "web", "src"], IsPlainName m) ∧
    (∀ m ∈ ["other"], IsPlainName m) ∧
    (∃ dir n, Nearest packageTree ["repo"] ["repo", "web", "src"] fileNames dir n ∧
      ⟨"/repo/web/tailwind.config.cjs"⟩ = (ofNames dir).join ⟨n⟩) ∧
    find packageTree (ofNames ["repo"]) (ofNames ["other"]) none =
      .error (.noConfigBetween (ofNames ["other"]) (ofNames ["repo"])) := by
  have hplain : ∀ m ∈ ["repo", "web", "src", "other"], IsPlainName m := by
    intro m hm
    simp only [List.mem_cons, List.not_mem_nil, or_false] at hm
    rcases hm with rfl | rfl | rfl | rfl <;> exact ⟨by decide, by decide, by decide⟩
  have hamong {ns : List String} (hns : ns ⊆ ["repo", "web", "src", "other"]) : ∀ m ∈ ns, IsPlainName m :=
    fun m hm => hplain m (hns hm)
  have hroot : ∀ m ∈ ["repo"], IsPlainName m := hamong (by decide)
  have hstart : ∀ m ∈ ["repo", "web", "src"], IsPlainName m := hamong (by decide)
  have hother : ∀ m ∈ ["other"], IsPlainName m := hamong (by decide)
  have hfound : find packageTree (ofNames ["repo"]) (ofNames ["repo", "web", "src"]) none =
      .ok ⟨"/repo/web/tailwind.config.cjs"⟩ := by decide
  refine ⟨hroot, hstart, hother, ?_, ?_⟩
  · exact ((find_nearest packageTree _ _ none hroot hstart).1 _).mp hfound
  · obtain ⟨-, hfinds, hrefused, -⟩ := find_nearest packageTree _ _ none hroot hother
    refine hrefused fun p hp => ?_
    exact absurd (hfinds.mp ⟨p, hp⟩).1 (by decide)

end ClassSort.ConfigSearch
