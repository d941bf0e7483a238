import ClassSort.ClassList

/-!
A class text with at least one class, read from the left: perhaps separators, a class, any number
of further classes each with the run in front of it, perhaps separators. Taking such a text apart
gives exactly these parts, every class text that has a class reads so, and putting classes back
into its places, with or without repeats, gives such a text again.
-/

namespace ClassSort.ClassList

structure IsSeparators (s : String) : Prop where
  ne : s.toList ≠ []
  all : ∀ c ∈ s.toList, isSeparator c = true

structure IsClass (s : String) : Prop where
  ne : s.toList ≠ []
  none : ∀ c ∈ s.toList, isSeparator c = false

theorem pieces_cons_head (c : Char) (cs : List Char) :
    ∃ p ps, pieces (c :: cs) = (c :: p) :: ps := by
  rw [pieces]
  split
  · split
    · exact ⟨_, _, rfl⟩
    · exact ⟨_, _, rfl⟩
  · exact ⟨_, _, rfl⟩

theorem pieces_cons_same {c d : Char} (h : isSeparator c = isSeparator d) (cs : List Char) :
    ∃ p ps, pieces (d :: cs) = (d :: p) :: ps ∧ pieces (c :: d :: cs) = (c :: d :: p) :: ps := by
  obtain ⟨p, ps, hp⟩ := pieces_cons_head d cs
  refine ⟨p, ps, hp, ?_⟩
  rw [pieces, hp]
  simp [h]

theorem pieces_cons_other {c : Char} {cs : List Char}
    (h : ∀ d ∈ cs.head?, isSeparator d ≠ isSeparator c) : pieces (c :: cs) = [c] :: pieces cs := by
  cases cs with
  | nil => rfl
  | cons d cs =>
    obtain ⟨p, ps, hp⟩ := pieces_cons_head d cs
    have hd : isSeparator c ≠ isSeparator d := fun e => h d rfl e.symm
    rw [pieces, hp]
    simp [hd]

/-- A stretch of one kind in front of the other kind is a piece. -/
theorem pieces_append {u : List Char} (hu : u ≠ []) {kind : Bool}
    (hk : ∀ c ∈ u, isSeparator c = kind) {rest : List Char}
    (hr : ∀ d ∈ rest.head?, isSeparator d ≠ kind) : pieces (u ++ rest) = u :: pieces rest := by
  induction u with
  | nil => exact absurd rfl hu
  | cons c u ih =>
    have hc : isSeparator c = kind := hk c List.mem_cons_self
    cases u with
    | nil => exact pieces_cons_other fun d hd => hc ▸ hr d hd
    | cons d u =>
      have hd : isSeparator d = kind := hk d (by simp)
      have hrest := ih (by simp) fun x hx => hk x (List.mem_cons_of_mem _ hx)
      obtain ⟨p, ps, hp, hcp⟩ := pieces_cons_same (hc.trans hd.symm) (u ++ rest)
      rw [List.cons_append, hp] at hrest
      injection hrest with hhead htail
      rw [List.cons_append, List.cons_append, hcp, hhead, htail]

theorem isRun_of_separators {u : List Char} (hu : u ≠ []) (h : ∀ c ∈ u, isSeparator c = true) :
    isRun u = true := by
  cases u with
  | nil => exact absurd rfl hu
  | cons c u => simpa [isRun] using h c List.mem_cons_self

theorem isRun_of_class {u : List Char} (h : ∀ c ∈ u, isSeparator c = false) :
    isRun u = false := by
  cases u with
  | nil => rfl
  | cons c u => simpa [isRun] using h c List.mem_cons_self

structure Layout where
  lead : String
  first : String
  /-- Each further class behind the run in front of it. -/
  rest : List (String × String)
  trail : String
  deriving DecidableEq, Repr

namespace Layout

def restText : List (String × String) → String
  | [] => ""
  | (run, token) :: rest => run ++ token ++ restText rest

def text (l : Layout) : String := l.lead ++ l.first ++ restText l.rest ++ l.trail

def classes (l : Layout) : List String := l.first :: l.rest.map (·.2)

def ending (s : String) : List String := if s = "" then [] else [s]

def runs (l : Layout) : List String := ending l.lead ++ l.rest.map (·.1) ++ ending l.trail

def parts (l : Layout) : ClassList := ⟨l.classes, l.runs, l.lead ≠ "", l.trail ≠ ""⟩

structure Proper (l : Layout) : Prop where
  lead : ∀ c ∈ l.lead.toList, isSeparator c = true
  first : IsClass l.first
  rest : ∀ p ∈ l.rest, IsSeparators p.1 ∧ IsClass p.2
  trail : ∀ c ∈ l.trail.toList, isSeparator c = true

theorem pieces_separators {s : String} (h : ∀ c ∈ s.toList, isSeparator c = true) :
    pieces s.toList = (ending s).map String.toList := by
  by_cases hs : s = ""
  · subst hs; rfl
  · have hne : s.toList ≠ [] := fun e => hs (String.toList_eq_nil_iff.mp e)
    have hpieces : pieces (s.toList ++ []) = s.toList :: pieces [] := pieces_append hne h (by simp)
    simpa [ending, hs, pieces] using hpieces

/-- What a text of one kind begins with is not of the other kind. -/
theorem head_append {s : String} (hs : s.toList ≠ []) {kind : Bool}
    (h : ∀ c ∈ s.toList, isSeparator c = kind) (cs : List Char) :
    ∀ d ∈ (s.toList ++ cs).head?, isSeparator d ≠ !kind := by
  intro d hd
  cases hc : s.toList with
  | nil => exact absurd hc hs
  | cons c u =>
    rw [hc] at hd
    obtain rfl : c = d := by simpa using hd
    simp [h c (by simp [hc])]

/-- The pieces behind the lead: classes and runs by turns. -/
theorem pieces_rest {token : String} {rest : List (String × String)} {trail : String}
    (ht : IsClass token) (hr : ∀ p ∈ rest, IsSeparators p.1 ∧ IsClass p.2)
    (hl : ∀ c ∈ trail.toList, isSeparator c = true) :
    pieces (token ++ restText rest ++ trail).toList =
      token.toList :: (rest.flatMap fun p => [p.1.toList, p.2.toList]) ++
        (ending trail).map String.toList := by
  induction rest generalizing token with
  | nil =>
    simp only [restText, String.append_empty, String.toList_append, List.flatMap_nil,
      List.cons_append, List.nil_append]
    rw [pieces_append ht.ne ht.none, pieces_separators hl]
    intro d hd
    simp [hl d (List.mem_of_mem_head? hd)]
  | cons p rest ih =>
    obtain ⟨run, next⟩ := p
    obtain ⟨hrun, hnext⟩ := hr _ List.mem_cons_self
    have ih := ih hnext fun q hq => hr q (List.mem_cons_of_mem _ hq)
    simp only [restText, String.toList_append, List.append_assoc, List.flatMap_cons,
      List.cons_append, List.nil_append] at ih ⊢
    rw [pieces_append ht.ne ht.none (head_append hrun.ne hrun.all _),
      pieces_append hrun.ne hrun.all (head_append hnext.ne hnext.none _), ih]

theorem pieces_text {l : Layout} (h : l.Proper) :
    pieces l.text.toList = (ending l.lead).map String.toList ++ l.first.toList ::
      (l.rest.flatMap fun p => [p.1.toList, p.2.toList]) ++ (ending l.trail).map String.toList := by
  have hrest := pieces_rest h.first h.rest h.trail
  by_cases hlead : l.lead = ""
  · simpa [text, ending, hlead, String.append_assoc] using hrest
  · have hne : l.lead.toList ≠ [] := fun e => hlead (String.toList_eq_nil_iff.mp e)
    have hhead : ∀ d ∈ (l.first ++ restText l.rest ++ l.trail).toList.head?,
        isSeparator d ≠ true := by
      rw [String.append_assoc, String.toList_append]
      exact head_append h.first.ne h.first.none _
    have := pieces_append hne h.lead hhead
    rw [hrest] at this
    simpa [text, ending, hlead, String.append_assoc] using this

theorem filter_pieces {rest : List (String × String)}
    (hr : ∀ p ∈ rest, IsSeparators p.1 ∧ IsClass p.2) :
    (rest.flatMap fun p => [p.1.toList, p.2.toList]).filter isRun = rest.map (·.1.toList) ∧
      (rest.flatMap fun p => [p.1.toList, p.2.toList]).filter (!isRun ·) = rest.map (·.2.toList) := by
  induction rest with
  | nil => exact ⟨rfl, rfl⟩
  | cons p rest ih =>
    obtain ⟨hrun, hclass⟩ := hr p List.mem_cons_self
    obtain ⟨ih₁, ih₂⟩ := ih fun q hq => hr q (List.mem_cons_of_mem _ hq)
    have h₁ := isRun_of_separators hrun.ne hrun.all
    have h₂ := isRun_of_class hclass.none
    simp only [List.flatMap_cons, List.cons_append, List.nil_append, List.map_cons]
    constructor
    · rw [List.filter_cons_of_pos h₁, List.filter_cons_of_neg (by simp [h₂]), ih₁]
    · rw [List.filter_cons_of_neg (by simp [h₁]), List.filter_cons_of_pos (by simp [h₂]), ih₂]

theorem filter_ending {s : String} (h : ∀ c ∈ s.toList, isSeparator c = true) :
    ((ending s).map String.toList).filter isRun = (ending s).map String.toList ∧
      ((ending s).map String.toList).filter (!isRun ·) = [] := by
  by_cases hs : s = ""
  · simp [ending, hs]
  · have hne : s.toList ≠ [] := fun e => hs (String.toList_eq_nil_iff.mp e)
    simp [ending, hs, isRun_of_separators hne h]

theorem head_text {l : Layout} (h : l.Proper) :
    l.text.toList.head?.any isSeparator = decide (l.lead ≠ "") := by
  by_cases hlead : l.lead = ""
  · have := head_append h.first.ne h.first.none (restText l.rest ++ l.trail).toList
    cases hc : l.first.toList with
    | nil => exact absurd hc h.first.ne
    | cons c u => simp [text, hlead, hc, h.first.none c (by simp [hc])]
  · cases hc : l.lead.toList with
    | nil => exact absurd (String.toList_eq_nil_iff.mp hc) hlead
    | cons c u => simp [text, hlead, hc, h.lead c (by simp [hc])]

/-- The last class, behind which only the trail stands. -/
def last (l : Layout) : String := (l.rest.map (·.2)).getLast?.getD l.first

theorem text_eq_last (l : Layout) : ∃ s, l.text = s ++ l.last ++ l.trail := by
  obtain ⟨lead, first, rest, trail⟩ := l
  induction rest generalizing lead first with
  | nil => exact ⟨lead, by simp [text, last, restText]⟩
  | cons p rest ih =>
    obtain ⟨run, token⟩ := p
    obtain ⟨s, hs⟩ := ih (lead ++ first ++ run) token
    refine ⟨s, ?_⟩
    have hlast : last ⟨lead, first, (run, token) :: rest, trail⟩ =
        last ⟨lead ++ first ++ run, token, rest, trail⟩ := by
      simp only [last, List.map_cons, List.getLast?_cons]
      rfl
    rw [hlast, ← hs]
    simp [text, restText, String.append_assoc]

theorem last_mem (l : Layout) : l.last ∈ l.classes := by
  unfold last classes
  cases h : (l.rest.map (·.2)).getLast? with
  | none => exact List.mem_cons_self
  | some t => exact List.mem_cons_of_mem _ (List.mem_of_getLast? h)

theorem Proper.classes {l : Layout} (h : l.Proper) : ∀ t ∈ l.classes, IsClass t := by
  intro t ht
  rcases List.mem_cons.mp ht with rfl | ht
  · exact h.first
  · obtain ⟨p, hp, rfl⟩ := List.mem_map.mp ht
    exact (h.rest p hp).2

theorem tail_text {l : Layout} (h : l.Proper) :
    l.text.toList.getLast?.any isSeparator = decide (l.trail ≠ "") := by
  obtain ⟨s, hs⟩ := l.text_eq_last
  have hlast := h.classes _ l.last_mem
  rw [hs]
  by_cases htrail : l.trail = ""
  · cases hc : l.last.toList.getLast? with
    | none => exact absurd (List.getLast?_eq_none_iff.mp hc) hlast.ne
    | some c =>
      simp [htrail, List.getLast?_append, hc, hlast.none c (List.mem_of_getLast? hc)]
  · cases hc : l.trail.toList.getLast? with
    | none => exact absurd (String.toList_eq_nil_iff.mp (List.getLast?_eq_none_iff.mp hc)) htrail
    | some c => simp [htrail, List.getLast?_append, hc, h.trail c (List.mem_of_getLast? hc)]

/-- Taking a text apart finds the parts that it was put together from. -/
theorem parse_text {l : Layout} (h : l.Proper) : parse l.text = l.parts := by
  have hp := pieces_text h
  obtain ⟨hr₁, hr₂⟩ := filter_pieces h.rest
  obtain ⟨hl₁, hl₂⟩ := filter_ending h.lead
  obtain ⟨ht₁, ht₂⟩ := filter_ending h.trail
  have hfirst := isRun_of_class h.first.none
  simp only [parse, parts]
  rw [hp, head_text h, tail_text h]
  simp only [List.filter_append, List.filter_cons, hr₁, hr₂, hl₁, hl₂, ht₁, ht₂, hfirst,
    ClassList.mk.injEq, and_true]
  constructor
  · simp [Layout.classes, Function.comp_def]
  · simp [runs, Function.comp_def]

/-- A separator in front of a text makes its lead longer. -/
theorem Proper.cons_separator {l : Layout} (h : l.Proper) {c : Char} (hc : isSeparator c = true) :
    ∃ m : Layout, m.Proper ∧ m.text = String.singleton c ++ l.text := by
  refine ⟨{ l with lead := String.singleton c ++ l.lead }, ?_, ?_⟩
  · exact { h with lead := by simpa [hc] using h.lead }
  · simp [text, String.append_assoc]

/-- Any other character makes the first class longer, or is a class in front of it. -/
theorem Proper.cons_class {l : Layout} (h : l.Proper) {c : Char} (hc : isSeparator c = false) :
    ∃ m : Layout, m.Proper ∧ m.text = String.singleton c ++ l.text := by
  by_cases hlead : l.lead = ""
  · refine ⟨{ l with first := String.singleton c ++ l.first }, ?_, ?_⟩
    · exact { h with first := ⟨by simp, by simpa [hc] using h.first.none⟩ }
    · simp [text, hlead, String.append_assoc]
  · have hne : l.lead.toList ≠ [] := fun e => hlead (String.toList_eq_nil_iff.mp e)
    refine ⟨⟨"", String.singleton c, (l.lead, l.first) :: l.rest, l.trail⟩, ?_, ?_⟩
    · refine ⟨by simp, ⟨by simp, by simpa using hc⟩, ?_, h.trail⟩
      intro p hp
      rcases List.mem_cons.mp hp with rfl | hp
      · exact ⟨⟨hne, h.lead⟩, h.first⟩
      · exact h.rest p hp
    · simp [text, restText, String.append_assoc]

/-- Every text in which something is no separator has a layout. -/
theorem exists_ofList {cs : List Char} (h : ∃ c ∈ cs, isSeparator c = false) :
    ∃ l : Layout, l.Proper ∧ l.text = String.ofList cs := by
  induction cs with
  | nil => simp at h
  | cons c cs ih =>
    rw [String.ofList_cons]
    cases hc : isSeparator c with
    | true =>
      obtain ⟨l, hl, htext⟩ := ih (by simpa [hc] using h)
      exact htext ▸ hl.cons_separator hc
    | false =>
      by_cases hall : ∃ d ∈ cs, isSeparator d = false
      · obtain ⟨l, hl, htext⟩ := ih hall
        exact htext ▸ hl.cons_class hc
      · refine ⟨⟨"", String.singleton c, [], String.ofList cs⟩, ?_, by simp [text, restText]⟩
        refine ⟨by simp, ⟨by simp, by simpa using hc⟩, by simp, ?_⟩
        intro d hd
        rw [String.toList_ofList] at hd
        cases hsep : isSeparator d with
        | true => rfl
        | false => exact absurd ⟨d, hd, hsep⟩ hall

theorem exists_text {s : String} (h : ∃ c ∈ s.toList, isSeparator c = false) :
    ∃ l : Layout, l.Proper ∧ l.text = s := by
  obtain ⟨l, hl, htext⟩ := exists_ofList h
  exact ⟨l, hl, by rw [htext, String.ofList_toList]⟩

/-! Putting classes back into their places. -/

theorem assemble_cons_lead (a b r r' : String) (ts rs : List String) (tail : Bool) :
    assemble (a :: b :: ts) (r :: r' :: rs) true tail =
      r ++ a ++ assemble (b :: ts) (r' :: rs) true tail := by
  have hpiece : ∀ i, piece (r :: r' :: rs) true tail (a :: b :: ts).length (i + 1) =
      piece (r' :: rs) true tail (b :: ts).length i := by
    intro i
    funext t
    simp [piece]
  unfold assemble
  rw [List.mapIdx_cons, String.join_cons]
  simp only [hpiece]
  simp [piece]

theorem assemble_cons (a b r : String) (ts rs : List String) (tail : Bool) :
    assemble (a :: b :: ts) (r :: rs) false tail =
      a ++ r ++ assemble (b :: ts) rs false tail := by
  have hpiece : ∀ i, piece (r :: rs) false tail (a :: b :: ts).length (i + 1) =
      piece rs false tail (b :: ts).length i := by
    intro i
    funext t
    simp [piece]
  unfold assemble
  rw [List.mapIdx_cons, String.join_cons]
  simp only [hpiece]
  simp [piece]

theorem assemble_lead (lead first : String) (rest : List (String × String)) (trail : Option String) :
    assemble (first :: rest.map (·.2)) (lead :: rest.map (·.1) ++ trail.toList) true trail.isSome =
      lead ++ first ++ restText rest ++ trail.getD "" := by
  induction rest generalizing lead first with
  | nil => cases trail <;> simp [assemble, piece, restText]
  | cons p rest ih =>
    obtain ⟨run, token⟩ := p
    rw [List.map_cons, List.map_cons, List.cons_append, List.cons_append, assemble_cons_lead,
      ← List.cons_append, ih]
    simp [restText, String.append_assoc]

theorem assemble_runs (first : String) (rest : List (String × String)) (trail : Option String) :
    assemble (first :: rest.map (·.2)) (rest.map (·.1) ++ trail.toList) false trail.isSome =
      first ++ restText rest ++ trail.getD "" := by
  induction rest generalizing first with
  | nil => cases trail <;> simp [assemble, piece, restText]
  | cons p rest ih =>
    obtain ⟨run, token⟩ := p
    rw [List.map_cons, List.map_cons, List.cons_append, assemble_cons, ih]
    simp [restText, String.append_assoc]

theorem exists_ending (s : String) :
    ∃ run : Option String, ending s = run.toList ∧ decide (s ≠ "") = run.isSome ∧ s = run.getD "" := by
  by_cases hs : s = ""
  · exact ⟨none, by simp [ending, hs]⟩
  · exact ⟨some s, by simp [ending, hs]⟩

/-- The runs of a text threaded through its classes give the text back. -/
theorem assemble_parts (l : Layout) :
    assemble l.classes l.runs (l.lead ≠ "") (l.trail ≠ "") = l.text := by
  obtain ⟨trail, htrail, hsome, hget⟩ := exists_ending l.trail
  by_cases hlead : l.lead = ""
  · have hruns := assemble_runs l.first l.rest trail
    rw [← htrail, ← hsome, ← hget] at hruns
    simpa [classes, runs, text, ending, hlead] using hruns
  · have hruns := assemble_lead l.lead l.first l.rest trail
    rw [← htrail, ← hsome, ← hget] at hruns
    simpa [classes, runs, text, ending, hlead] using hruns

def arrange (l : Layout) : List String → Layout
  | [] => l
  | first :: others => { l with first, rest := (l.rest.map (·.1)).zip others }

theorem arrange_classes {l : Layout} {sorted : List String}
    (h : sorted.length = l.classes.length) : (l.arrange sorted).classes = sorted := by
  cases sorted with
  | nil => simp [classes] at h
  | cons t ts =>
    have hlen : ts.length = l.rest.length := by simpa [classes] using h
    simp [arrange, classes, List.map_snd_zip, hlen]

theorem arrange_runs {l : Layout} {sorted : List String}
    (h : sorted.length = l.classes.length) : (l.arrange sorted).runs = l.runs := by
  cases sorted with
  | nil => rfl
  | cons t ts =>
    have hlen : ts.length = l.rest.length := by simpa [classes] using h
    simp [arrange, runs, List.map_fst_zip, hlen]

@[simp] theorem arrange_lead (l : Layout) (sorted : List String) :
    (l.arrange sorted).lead = l.lead := by
  cases sorted <;> rfl

@[simp] theorem arrange_trail (l : Layout) (sorted : List String) :
    (l.arrange sorted).trail = l.trail := by
  cases sorted <;> rfl

theorem Proper.arrange {l : Layout} (h : l.Proper) {sorted : List String}
    (hs : ∀ t ∈ sorted, IsClass t) : (l.arrange sorted).Proper := by
  cases sorted with
  | nil => exact h
  | cons t ts =>
    refine ⟨h.lead, hs t List.mem_cons_self, ?_, h.trail⟩
    rintro ⟨run, token⟩ hp
    obtain ⟨hrun, htoken⟩ := List.of_mem_zip hp
    obtain ⟨p, hmem, rfl⟩ := List.mem_map.mp hrun
    exact ⟨(h.rest p hmem).1, hs token (List.mem_cons_of_mem _ htoken)⟩

def collapseRest : String → List (String × String) → List (String × String)
  | _, [] => []
  | a, (run, b) :: rest =>
    if a = b then collapseRest b rest else (run, b) :: collapseRest b rest

/-- Without every class equal to the one before it, and without the run between them. -/
def collapse (l : Layout) : Layout := { l with rest := collapseRest l.first l.rest }

theorem collapseRest_subset (a : String) (rest : List (String × String)) :
    collapseRest a rest ⊆ rest := by
  induction rest generalizing a with
  | nil => exact List.Subset.refl _
  | cons p rest ih =>
    rw [collapseRest]
    split
    · exact List.subset_cons_of_subset _ (ih _)
    · exact List.cons_subset_cons _ (ih _)

theorem Proper.collapse {l : Layout} (h : l.Proper) : l.collapse.Proper :=
  { h with rest := fun p hp => h.rest p (collapseRest_subset _ _ hp) }

theorem collapse_classes (l : Layout) : l.collapse.classes = distinctNeighbours l.classes := by
  obtain ⟨lead, first, rest, trail⟩ := l
  simp only [collapse, classes]
  induction rest generalizing first with
  | nil => rfl
  | cons p rest ih =>
    obtain ⟨run, token⟩ := p
    rw [collapseRest, List.map_cons, distinctNeighbours]
    by_cases h : first = token
    · rw [if_pos h, if_pos h, ← ih, h]
    · rw [if_neg h, if_neg h, ← ih, List.map_cons]

theorem repeats_succ (i : Nat) (ts : List String) :
    repeats (i + 1) ts = (repeats i ts).map (· + 1) := by
  fun_induction repeats i ts with
  | case1 i a rest ih => rw [repeats, if_pos rfl, ih, List.map_cons]
  | case2 i a b rest h ih => rw [repeats, if_neg h, ih]
  | case3 ts i h =>
    rw [repeats]
    · rfl
    · exact h

theorem repeats_pos (ts : List String) :
    ∃ gaps : List Nat, repeats 0 ts = gaps.map (· + 1) := by
  match ts with
  | [] => exact ⟨[], rfl⟩
  | [_] => exact ⟨[], rfl⟩
  | a :: b :: rest =>
    by_cases h : a = b
    · exact ⟨0 :: repeats 0 (b :: rest), by rw [repeats, if_pos h, repeats_succ]; rfl⟩
    · exact ⟨repeats 0 (b :: rest), by rw [repeats, if_neg h, repeats_succ]⟩

/-- Erasing behind the first element. -/
theorem erase_behind (x : String) (is : List Nat) (xs : List String) :
    (is.map (· + 1)).foldr (fun i left => left.eraseIdx i) (x :: xs) =
      x :: is.foldr (fun i left => left.eraseIdx i) xs := by
  induction is with
  | nil => rfl
  | cons i is ih => rw [List.map_cons, List.foldr_cons, ih, List.foldr_cons, List.eraseIdx_cons_succ]

/-- The runs in front of repeated classes are the ones that go. -/
theorem erase_runs (a : String) (rest : List (String × String)) (behind : List String) :
    ((repeats 0 (a :: rest.map (·.2))).map (· - 1)).foldr (fun i left => left.eraseIdx i)
      (rest.map (·.1) ++ behind) = (collapseRest a rest).map (·.1) ++ behind := by
  induction rest generalizing a with
  | nil => rfl
  | cons p rest ih =>
    obtain ⟨run, b⟩ := p
    obtain ⟨gaps, hgaps⟩ := repeats_pos (b :: rest.map (·.2))
    have ih := ih b
    rw [hgaps, List.map_map] at ih
    have hback : gaps.map ((· - 1) ∘ (· + 1)) = gaps := by simp [Function.comp_def]
    rw [hback] at ih
    simp only [List.map_cons, List.cons_append, repeats, collapseRest]
    by_cases h : a = b
    · rw [if_pos h, if_pos h, repeats_succ, hgaps, List.map_cons, List.map_map, List.foldr_cons]
      rw [Function.comp_def]
      simp only [Nat.add_sub_cancel, List.map_id']
      rw [erase_behind, ih]
      rfl
    · rw [if_neg h, if_neg h, repeats_succ, hgaps, List.map_map]
      rw [Function.comp_def]
      simp only [Nat.add_sub_cancel, List.map_id']
      rw [erase_behind, ih]
      rfl

/-- A run at the front stays, and all the others stand one place further. -/
theorem erase_dropped (lead : Option String) (a : String) (rest : List (String × String))
    (behind : List String) :
    ((repeats 0 (a :: rest.map (·.2))).map fun i => if lead.isSome then i else i - 1).foldr
      (fun i left => left.eraseIdx i) (lead.toList ++ rest.map (·.1) ++ behind) =
        lead.toList ++ (collapseRest a rest).map (·.1) ++ behind := by
  have herase := erase_runs a rest behind
  cases lead with
  | none => exact herase
  | some lead =>
    obtain ⟨gaps, hgaps⟩ := repeats_pos (a :: rest.map (·.2))
    have hback : gaps.map ((· - 1) ∘ (· + 1)) = gaps := by simp [Function.comp_def]
    rw [hgaps, List.map_map, hback] at herase
    simp only [hgaps, Option.isSome_some, if_true, List.map_id', Option.toList_some, List.cons_append,
      List.nil_append, erase_behind, herase]

theorem dedupe_parts (l : Layout) :
    dedupe l.classes l.runs (l.lead ≠ "") = (l.collapse.classes, l.collapse.runs) := by
  obtain ⟨lead, hlead, hsome, -⟩ := exists_ending l.lead
  rw [collapse_classes, dedupe, hsome, runs, hlead]
  exact Prod.ext rfl ((erase_dropped lead l.first l.rest (ending l.trail)).trans (by rw [← hlead]; rfl))

/-- The text with other classes in its places, with or without repeats. -/
def rebuilt (l : Layout) (sorted : List String) (removeDuplicates : Bool) : Layout :=
  if removeDuplicates then (l.arrange sorted).collapse else l.arrange sorted

theorem rebuild_parts {l : Layout} {sorted : List String} (h : sorted.length = l.classes.length)
    (removeDuplicates : Bool) :
    l.parts.rebuild sorted removeDuplicates = (l.rebuilt sorted removeDuplicates).text := by
  have hc := arrange_classes h
  have hr := arrange_runs h
  unfold ClassList.rebuild parts rebuilt
  cases removeDuplicates with
  | false =>
    have := assemble_parts (l.arrange sorted)
    simpa [hc, hr] using this
  | true =>
    have hd := dedupe_parts (l.arrange sorted)
    have ha := assemble_parts (l.arrange sorted).collapse
    rw [hc, hr, arrange_lead] at hd
    simp only [if_true, hd]
    simpa [collapse] using ha

theorem Proper.rebuilt {l : Layout} (h : l.Proper) {sorted : List String}
    (hs : ∀ t ∈ sorted, IsClass t) (removeDuplicates : Bool) :
    (l.rebuilt sorted removeDuplicates).Proper := by
  unfold Layout.rebuilt
  split
  · exact (h.arrange hs).collapse
  · exact h.arrange hs

theorem rebuilt_classes {l : Layout} {sorted : List String} (h : sorted.length = l.classes.length)
    (removeDuplicates : Bool) : (l.rebuilt sorted removeDuplicates).classes =
      if removeDuplicates then distinctNeighbours sorted else sorted := by
  unfold rebuilt
  cases removeDuplicates with
  | false => simp [arrange_classes h]
  | true => simp [collapse_classes, arrange_classes h]

end Layout

/-- A text with classes is not only separators. -/
theorem exists_of_tokens_ne {s : String} (h : (parse s).tokens ≠ []) :
    ∃ c ∈ s.toList, isSeparator c = false := by
  refine Classical.byContradiction fun hn => h ?_
  have hall : ∀ c ∈ s.toList, isSeparator c = true := by simpa using hn
  have hnone := (Layout.filter_ending hall).2
  rw [← Layout.pieces_separators hall] at hnone
  rw [parse, List.map_eq_nil_iff]
  exact hnone

end ClassSort.ClassList
