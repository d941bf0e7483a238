import ClassSort.Files.Tree
import Mathlib.Data.List.Basic

/-!
What a write changes. A file that can be read can be written and holds the new text then; no other
file or directory changes, and paths lead where they led, since the directories stay the same.
-/

namespace ClassSort.FileTree

variable {t t' : FileTree} {p : Path} {place : List String} {text : String}

/-- A piece of a path asks only whether it stands in a directory and whether something comes next. -/
theorem walk_cons (t : FileTree) (here : List String) (s : List Char) (ss : List (List Char)) :
    t.walk here (s :: ss) =
      if (t.entry? here.reverse).any Entry.isDirectory then
        if Path.isIdle s then t.walk here ss
        else if s == ['.', '.'] then t.walk here.tail ss
        else if (t.entry? (String.ofList s :: here).reverse).isSome then t.walk (String.ofList s :: here) ss
        else .error .notFound
      else .error .notDirectory := by
  rw [walk]
  rcases t.entry? here.reverse with _ | (_ | _ | _)
  case some.dir =>
    dsimp only
    cases t.entry? (String.ofList s :: here).reverse <;> rfl
  all_goals rfl

def SameShape (t t' : FileTree) : Prop :=
  ∀ names, (t'.entry? names).map Entry.isDirectory = (t.entry? names).map Entry.isDirectory

theorem SameShape.walk (h : SameShape t t') (here : List String) (ss : List (List Char)) :
    t'.walk here ss = t.walk here ss := by
  have hdirectory (names : List String) :
      (t'.entry? names).any Entry.isDirectory = (t.entry? names).any Entry.isDirectory := by
    simpa [Option.any_map] using congrArg (Option.any id) (h names)
  have hthere (names : List String) : (t'.entry? names).isSome = (t.entry? names).isSome := by
    simpa using congrArg Option.isSome (h names)
  induction ss generalizing here with
  | nil => rfl
  | cons s ss ih => rw [walk_cons, walk_cons, hdirectory, hthere, ih, ih, ih]

theorem SameShape.resolve (h : SameShape t t') (p : Path) : t'.resolve p = t.resolve p :=
  h.walk [] _

theorem lookup_filter_ne {names other : List String} (h : other ≠ names) (entries : List (List String × Entry)) :
    (entries.filter (·.1 != names)).lookup other = entries.lookup other := by
  induction entries with
  | nil => rfl
  | cons e entries ih =>
    obtain ⟨key, entry⟩ := e
    by_cases hkey : key = names
    · have hother : (other == key) = false := by simpa [hkey] using h
      simp [hkey ▸ hother, hkey, ih, List.lookup_cons]
    · simp [hkey, ih, List.lookup_cons]

theorem set_here (hplace : place ≠ []) (e : Entry) : FileTree.entry? (t.set place e) place = some e := by
  obtain ⟨name, names, rfl⟩ := List.exists_cons_of_ne_nil hplace
  simp [set, FileTree.entry?]

theorem set_elsewhere {names : List String} (h : names ≠ place) (e : Entry) :
    FileTree.entry? (t.set place e) names = t.entry? names := by
  cases names with
  | nil => rfl
  | cons name names =>
    have hkey : ((name :: names) == place) = false := beq_eq_false_iff_ne.mpr h
    simp only [set, FileTree.entry?, List.lookup_cons, hkey]
    exact lookup_filter_ne h t.entries

theorem read_eq_ok : t.read p = .ok text ↔
    ∃ place m, t.resolve p = .ok place ∧ t.entry? place = some (.file text m) := by
  unfold read find
  cases t.resolve p with
  | error e => simp [bind, Except.bind]
  | ok place =>
    simp only [bind, Except.bind]
    rcases hentry : t.entry? place with _ | (_ | _ | _) <;> simp [hentry]

theorem SameShape.refl (t : FileTree) : SameShape t t := fun _ => rfl

theorem SameShape.trans {t'' : FileTree} (h : SameShape t t') (h' : SameShape t' t'') : SameShape t t'' :=
  fun names => (h' names).trans (h names)

/-- Two trees that differ in one file at most; paths lead to the same places in both. -/
structure DiffersAt (place : List String) (t t' : FileTree) : Prop where
  shape : SameShape t t'
  elsewhere : ∀ names, names ≠ place → t'.entry? names = t.entry? names

theorem DiffersAt.refl (place : List String) (t : FileTree) : DiffersAt place t t :=
  ⟨.refl t, fun _ _ => rfl⟩

/-- What a path leads to stays the same, unless it is the one file. -/
theorem DiffersAt.find (h : DiffersAt place t t') (hp : t.resolve p ≠ .ok place) : t'.find p = t.find p := by
  unfold FileTree.find
  rw [h.shape.resolve]
  cases hresolve : t.resolve p with
  | error e => rfl
  | ok names =>
    have hnames : names ≠ place := fun heq => hp (heq ▸ hresolve)
    simp only [bind, Except.bind, h.elsewhere names hnames]

/-- A file that was read can be written, and then it holds the text. -/
theorem write_of_read {source : String} (h : t.read p = .ok source) (text : String) (now : Int) :
    ∃ place t', t.resolve p = .ok place ∧ t.write p text now = .ok t' ∧ t'.read p = .ok text ∧
      DiffersAt place t t' := by
  obtain ⟨place, m, hresolve, hentry⟩ := read_eq_ok.mp h
  have hplace : place ≠ [] := by
    rintro rfl
    cases hentry
  have hdiffers : DiffersAt place t (t.set place (.file text now)) := by
    refine ⟨fun names => ?_, fun names hnames => set_elsewhere hnames _⟩
    by_cases hnames : names = place
    · rw [hnames, set_here hplace, hentry]
      rfl
    · rw [set_elsewhere hnames]
  refine ⟨place, t.set place (.file text now), hresolve, ?_, ?_, hdiffers⟩
  · simp [write, hresolve, hentry, bind, Except.bind]
  · exact read_eq_ok.mpr ⟨place, now, by rw [hdiffers.shape.resolve, hresolve], set_here hplace _⟩

end ClassSort.FileTree
