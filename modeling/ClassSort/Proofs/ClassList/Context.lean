import ClassSort.Proofs.ClassList.Layout

/-!
The classes of a longer text that holds a class text. Separators part what is in front of them from
what is behind them; where a class text begins or ends without any, its first or its last class
grows together with what it is put next to. So putting the classes into another order is seen from
outside only at the two ends.
-/

namespace ClassSort.ClassList

def classesOf (cs : List Char) : List (List Char) := (pieces cs).filter (!isRun ·)

theorem parse_tokens (text : String) :
    (parse text).tokens = (classesOf text.toList).map String.ofList := rfl

theorem classesOf_cons_separator {c : Char} (h : isSeparator c = true) (cs : List Char) :
    classesOf (c :: cs) = classesOf cs := by
  have hrun (p : List Char) : isRun (c :: p) = true := h
  by_cases hother : ∀ d ∈ cs.head?, isSeparator d ≠ isSeparator c
  · rw [classesOf, pieces_cons_other hother, List.filter_cons_of_neg (by simp [hrun])]
    rfl
  · cases cs with
    | nil => simp at hother
    | cons d cs =>
      have hd : isSeparator c = isSeparator d := by simpa [eq_comm] using hother
      obtain ⟨p, ps, hp, hcp⟩ := pieces_cons_same hd cs
      have hrun' : isRun (d :: p) = true := hd.symm.trans h
      rw [classesOf, classesOf, hp, hcp, List.filter_cons_of_neg (by simp [hrun]),
        List.filter_cons_of_neg (by simp [hrun'])]

theorem classesOf_separators {u : List Char} (h : ∀ c ∈ u, isSeparator c = true) (cs : List Char) :
    classesOf (u ++ cs) = classesOf cs := by
  induction u with
  | nil => rfl
  | cons c u ih =>
    rw [List.cons_append, classesOf_cons_separator (h c List.mem_cons_self)]
    exact ih fun d hd => h d (List.mem_cons_of_mem _ hd)

/-- A class that is not grown together with what follows it. -/
theorem classesOf_class {w : List Char} (hw : w ≠ []) (h : ∀ c ∈ w, isSeparator c = false)
    {cs : List Char} (hcs : ∀ d ∈ cs.head?, isSeparator d = true) :
    classesOf (w ++ cs) = w :: classesOf cs := by
  rw [classesOf, pieces_append hw h fun d hd => by simp [hcs d hd], List.filter_cons_of_pos]
  · rfl
  · simp [isRun_of_class h]

/-- One more character makes the first class longer, whatever stands behind it. -/
theorem classesOf_cons_class {c d : Char} (hc : isSeparator c = false) (hd : isSeparator d = false)
    (cs : List Char) : ∃ w ws, classesOf (d :: cs) = (d :: w) :: ws ∧
      classesOf (c :: d :: cs) = (c :: d :: w) :: ws := by
  obtain ⟨p, ps, hp, hcp⟩ := pieces_cons_same (hc.trans hd.symm) cs
  refine ⟨p, ps.filter (!isRun ·), ?_, ?_⟩
  · rw [classesOf, hp, List.filter_cons_of_pos (by simp [isRun, hd])]
  · rw [classesOf, hcp, List.filter_cons_of_pos (by simp [isRun, hc])]

theorem classesOf_append_cons {s : Char} (hs : isSeparator s = true) (xs ys : List Char) :
    classesOf (xs ++ s :: ys) = classesOf xs ++ classesOf ys := by
  induction xs with
  | nil => exact classesOf_cons_separator hs ys
  | cons c xs ih =>
    cases hc : isSeparator c with
    | true => rw [List.cons_append, classesOf_cons_separator hc, classesOf_cons_separator hc, ih]
    | false =>
      have hclass : ∀ d ∈ [c], isSeparator d = false := by simpa using hc
      cases xs with
      | nil =>
        have hlong : classesOf ([c] ++ s :: ys) = [c] :: classesOf (s :: ys) :=
          classesOf_class (by simp) hclass (by simpa using hs)
        have hshort : classesOf [c] = [[c]] := classesOf_class (by simp) hclass (by simp)
        rw [hlong, hshort, classesOf_cons_separator hs, List.singleton_append]
      | cons d xs =>
        cases hd : isSeparator d with
        | true =>
          have hlong : classesOf (c :: (d :: xs ++ s :: ys)) =
              [c] :: classesOf (d :: xs ++ s :: ys) :=
            classesOf_class (by simp) hclass (by simpa using hd)
          have hshort : classesOf (c :: d :: xs) = [c] :: classesOf (d :: xs) :=
            classesOf_class (by simp) hclass (by simpa using hd)
          rw [List.cons_append, hlong, hshort, ih, List.cons_append]
        | false =>
          obtain ⟨w, ws, hshort, hshort'⟩ := classesOf_cons_class hc hd xs
          obtain ⟨v, vs, hlong, hlong'⟩ := classesOf_cons_class hc hd (xs ++ s :: ys)
          rw [List.cons_append, hlong, hshort] at ih
          injection ih with hhead htail
          injection hhead with _ hhead
          rw [List.cons_append, List.cons_append, hlong', hshort', hhead, htail]
          rfl

theorem classesOf_append {u : List Char} (hu : u ≠ []) (h : ∀ c ∈ u, isSeparator c = true)
    (xs ys : List Char) : classesOf (xs ++ (u ++ ys)) = classesOf xs ++ classesOf ys := by
  cases u with
  | nil => exact absurd rfl hu
  | cons s u =>
    rw [List.cons_append, classesOf_append_cons (h s List.mem_cons_self)]
    rw [classesOf_separators fun c hc => h c (List.mem_cons_of_mem _ hc)]

theorem flatten_pieces (cs : List Char) : (pieces cs).flatten = cs := by
  induction cs with
  | nil => rfl
  | cons c cs ih =>
    rw [pieces]
    split
    · next hpieces =>
      rw [hpieces] at ih
      split <;> simpa using ih
    · simpa using ih

theorem length_le_of_mem_classesOf {w cs : List Char} (h : w ∈ classesOf cs) :
    w.length ≤ cs.length := by
  have hpiece : w ∈ pieces cs := (List.mem_filter.mp h).1
  have hsub := List.sublist_flatten_of_mem hpiece
  rw [flatten_pieces] at hsub
  exact hsub.length_le

namespace Layout

theorem classesOf_of_isClass {s : String} (h : IsClass s) : classesOf s.toList = [s.toList] := by
  have hclass : classesOf (s.toList ++ []) = [s.toList] := classesOf_class h.ne h.none (by simp)
  rwa [List.append_nil] at hclass

theorem classesOf_rest {rest : List (String × String)}
    (h : ∀ p ∈ rest, IsSeparators p.1 ∧ IsClass p.2) {run : String} (hrun : IsSeparators run)
    (xs ys : List Char) :
    classesOf (xs ++ (restText rest).toList ++ (run.toList ++ ys)) =
      classesOf xs ++ rest.map (·.2.toList) ++ classesOf ys := by
  induction rest generalizing xs with
  | nil => simpa [restText] using classesOf_append hrun.ne hrun.all xs ys
  | cons p rest ih =>
    obtain ⟨gap, token⟩ := p
    obtain ⟨hgap, htoken⟩ := h _ List.mem_cons_self
    have hrest := ih (fun p hp => h p (List.mem_cons_of_mem _ hp)) token.toList
    calc classesOf (xs ++ (restText ((gap, token) :: rest)).toList ++ (run.toList ++ ys))
        = classesOf (xs ++ (gap.toList ++
            (token.toList ++ (restText rest).toList ++ (run.toList ++ ys)))) := by
          simp [restText]
      _ = classesOf xs ++ classesOf (token.toList ++ (restText rest).toList ++ (run.toList ++ ys)) :=
          classesOf_append hgap.ne hgap.all xs _
      _ = classesOf xs ++ ((gap, token) :: rest).map (·.2.toList) ++ classesOf ys := by
          rw [hrest, classesOf_of_isClass htoken]
          simp

theorem restText_append (front back : List (String × String)) :
    restText (front ++ back) = restText front ++ restText back := by
  induction front with
  | nil => simp [restText]
  | cons p front ih =>
    obtain ⟨run, token⟩ := p
    simp [restText, ih, String.append_assoc]

/-- A text with several classes inside a longer one. Only its first and its last class depend on
what is around it. -/
theorem classesOf_around {l : Layout} (h : l.Proper) (hrest : l.rest ≠ []) : ∃ mid,
    l.classes = l.first :: mid ++ [l.last] ∧ ∀ xs ys, classesOf (xs ++ l.text.toList ++ ys) =
      classesOf (xs ++ l.lead.toList ++ l.first.toList) ++ mid.map String.toList ++
        classesOf (l.last.toList ++ l.trail.toList ++ ys) := by
  obtain ⟨lead, first, rest, trail⟩ := l
  obtain ⟨front, ⟨run, token⟩, rfl⟩ : ∃ front p, rest = front ++ [p] :=
    ⟨_, _, (List.dropLast_concat_getLast hrest).symm⟩
  have hlast : last ⟨lead, first, front ++ [(run, token)], trail⟩ = token := by simp [last]
  refine ⟨front.map (·.2), by simp [classes, hlast], fun xs ys => ?_⟩
  rw [hlast, List.map_map]
  have hall := classesOf_rest (fun p hp => h.rest p (List.mem_append_left _ hp))
    (h.rest (run, token) (by simp)).1 (xs ++ lead.toList ++ first.toList)
    (token.toList ++ trail.toList ++ ys)
  simpa [text, restText_append, restText, Function.comp_def] using hall

/-- Next to nothing, or next to its own separators, the first class is a class by itself. -/
theorem classesOf_first {l : Layout} (h : l.Proper) {xs : List Char} (hfree : xs = [] ∨ l.lead ≠ "") :
    classesOf (xs ++ l.lead.toList ++ l.first.toList) = classesOf xs ++ [l.first.toList] := by
  rw [List.append_assoc]
  rcases hfree with rfl | hlead
  · rw [List.nil_append, classesOf_separators h.lead, classesOf_of_isClass h.first]
    rfl
  · rw [classesOf_append (fun e => hlead (String.toList_eq_nil_iff.mp e)) h.lead,
      classesOf_of_isClass h.first]

theorem classesOf_last {l : Layout} (h : l.Proper) {ys : List Char} (hfree : ys = [] ∨ l.trail ≠ "") :
    classesOf (l.last.toList ++ l.trail.toList ++ ys) = l.last.toList :: classesOf ys := by
  have hlast := h.classes _ l.last_mem
  rw [List.append_assoc]
  have hbehind : classesOf (l.trail.toList ++ ys) = classesOf ys := classesOf_separators h.trail ys
  rw [← hbehind]
  refine classesOf_class hlast.ne hlast.none fun d hd => ?_
  rcases hfree with rfl | htrail
  · rw [List.append_nil] at hd
    exact h.trail d (List.mem_of_mem_head? hd)
  · cases htext : l.trail.toList with
    | nil => exact absurd (String.toList_eq_nil_iff.mp htext) htrail
    | cons c cs =>
      obtain rfl : c = d := by simpa [htext] using hd
      exact h.trail c (by simp [htext])

/-- The same places with other classes in them. -/
structure Rearranged (l m : Layout) : Prop where
  lead : m.lead = l.lead
  trail : m.trail = l.trail
  classes : m.classes.Perm l.classes

theorem Rearranged.rest_eq_nil {l m : Layout} (h : l.Rearranged m) : m.rest = [] ↔ l.rest = [] := by
  have hlength : m.rest.length = l.rest.length := by
    simpa [Layout.classes] using h.classes.length_eq
  rw [← List.length_eq_zero_iff, hlength, List.length_eq_zero_iff]

/-- A text of one class has one arrangement. -/
theorem Rearranged.single {l m : Layout} (h : l.Rearranged m) (hrest : l.rest = []) : m = l := by
  have hrest' : m.rest = [] := h.rest_eq_nil.mpr hrest
  have hfirst : m.first = l.first := by simpa [Layout.classes, hrest, hrest'] using h.classes
  obtain ⟨hlead, htrail, -⟩ := h
  cases l
  cases m
  simp_all

/-- Other classes in the same places are the same classes to whoever reads the longer text, if
those at the ends stay there or are parted from what is around them. -/
theorem classesOf_perm {l m : Layout} (hl : l.Proper) (hm : m.Proper) (h : l.Rearranged m)
    {xs ys : List Char} (hfirst : (xs = [] ∨ l.lead ≠ "") ∨ m.first = l.first)
    (hlast : (ys = [] ∨ l.trail ≠ "") ∨ m.last = l.last) :
    (classesOf (xs ++ m.text.toList ++ ys)).Perm (classesOf (xs ++ l.text.toList ++ ys)) := by
  by_cases hrest : l.rest = []
  · rw [h.single hrest]
  have hrest' : m.rest ≠ [] := mt h.rest_eq_nil.mp hrest
  obtain ⟨mid, hclasses, haround⟩ := classesOf_around hl hrest
  obtain ⟨mid', hclasses', haround'⟩ := classesOf_around hm hrest'
  rw [haround, haround', h.lead, h.trail]
  have hfront : (classesOf (xs ++ l.lead.toList ++ m.first.toList) ++ [l.first.toList]).Perm
      (classesOf (xs ++ l.lead.toList ++ l.first.toList) ++ [m.first.toList]) := by
    rcases hfirst with hfree | heq
    · rw [classesOf_first hl hfree, ← h.lead, classesOf_first hm (h.lead ▸ hfree), List.append_assoc,
        List.append_assoc]
      exact (List.Perm.swap _ _ _).append_left _
    · rw [heq]
  have hback : ([l.last.toList] ++ classesOf (m.last.toList ++ l.trail.toList ++ ys)).Perm
      ([m.last.toList] ++ classesOf (l.last.toList ++ l.trail.toList ++ ys)) := by
    rcases hlast with hfree | heq
    · rw [classesOf_last hl hfree, ← h.trail, classesOf_last hm (h.trail ▸ hfree)]
      exact .swap _ _ _
    · rw [heq]
  have hall : ([m.first.toList] ++ mid'.map String.toList ++ [m.last.toList]).Perm
      ([l.first.toList] ++ mid.map String.toList ++ [l.last.toList]) := by
    have hmapped := h.classes.map String.toList
    rw [hclasses, hclasses'] at hmapped
    simpa using hmapped
  refine List.perm_iff_count.mpr fun w => ?_
  have hcount := hfront.count_eq w
  have hcount' := hback.count_eq w
  have hcounts := hall.count_eq w
  simp only [List.count_append] at *
  omega

def letters (n : Nat) : List Char := List.replicate n 'z'

theorem length_class_le {l : Layout} (h : l.Proper) {t : String} (ht : t ∈ l.classes) :
    t.toList.length ≤ l.text.toList.length := by
  have htokens : (parse l.text).tokens = l.classes := by rw [parse_text h]; rfl
  rw [parse_tokens] at htokens
  rw [← htokens] at ht
  obtain ⟨w, hw, rfl⟩ := List.mem_map.mp ht
  rw [String.toList_ofList]
  exact length_le_of_mem_classesOf hw

theorem length_last_le {l : Layout} (h : l.Proper) {w ys : List Char}
    (hw : w ∈ classesOf (l.last.toList ++ l.trail.toList ++ ys)) :
    w.length ≤ 2 * l.text.toList.length + ys.length := by
  have hword := length_le_of_mem_classesOf hw
  have hlast := length_class_le h l.last_mem
  have htrail : l.trail.toList.length ≤ l.text.toList.length := by
    simp only [text, String.toList_append, List.length_append]
    omega
  simp only [List.length_append] at hword
  omega

theorem length_first_le {l : Layout} (h : l.Proper) {w xs : List Char}
    (hw : w ∈ classesOf (xs ++ l.lead.toList ++ l.first.toList)) :
    w.length ≤ 2 * l.text.toList.length + xs.length := by
  have hword := length_le_of_mem_classesOf hw
  have hfirst := length_class_le h (show l.first ∈ l.classes from List.mem_cons_self)
  have hlead : l.lead.toList.length ≤ l.text.toList.length := by
    simp only [text, String.toList_append, List.length_append]
    omega
  simp only [List.length_append] at hword
  omega

theorem not_mem_of_long {l : Layout} (h : l.Proper) {ts : List String} (hts : ts ⊆ l.classes)
    {w : List Char} (hlong : l.text.toList.length < w.length) : w ∉ ts.map String.toList := by
  intro hmem
  obtain ⟨t, ht, rfl⟩ := List.mem_map.mp hmem
  have hlength := length_class_le h (hts ht)
  omega

theorem not_separator_of_mem_letters {c : Char} {n : Nat} (h : c ∈ letters n) :
    isSeparator c = false := by
  rw [List.eq_of_mem_replicate h]
  rfl

/-- A class that letters have grown onto, behind a separator. -/
theorem classesOf_grown_first {t : String} (ht : IsClass t) (xs : List Char) (n : Nat) :
    classesOf (xs ++ ' ' :: letters n ++ t.toList) = classesOf xs ++ [letters n ++ t.toList] := by
  have hclass : ∀ c ∈ letters n ++ t.toList, isSeparator c = false := fun c hc =>
    (List.mem_append.mp hc).elim not_separator_of_mem_letters (ht.none c)
  have hword : classesOf (letters n ++ t.toList ++ []) = [letters n ++ t.toList] :=
    classesOf_class (by simp [ht.ne]) hclass (by simp)
  rw [List.append_nil] at hword
  rw [List.append_assoc, List.cons_append, classesOf_append_cons rfl, hword]

theorem classesOf_grown_last {t : String} (ht : IsClass t) (ys : List Char) (n : Nat) :
    classesOf (t.toList ++ (letters n ++ ' ' :: ys)) = (t.toList ++ letters n) :: classesOf ys := by
  have hclass : ∀ c ∈ t.toList ++ letters n, isSeparator c = false := fun c hc =>
    (List.mem_append.mp hc).elim (ht.none c) not_separator_of_mem_letters
  rw [← List.append_assoc, classesOf_class (by simp [ht.ne]) hclass (by simp; rfl)]
  rw [classesOf_cons_separator rfl]

/-- With a long enough class grown onto the first one, the first one can be told from the classes
around it. -/
theorem first_kept {l m : Layout} (hl : l.Proper) (hm : m.Proper) (h : l.Rearranged m)
    (hlead : l.lead = "") {xs xs' ys ys' : List Char} (hperm : ∀ n,
      (classesOf (xs' ++ ' ' :: letters n ++ m.text.toList ++ ys')).Perm
        (classesOf (xs ++ ' ' :: letters n ++ l.text.toList ++ ys))) : m.first = l.first := by
  by_cases hrest : l.rest = []
  · rw [h.single hrest]
  have hrest' : m.rest ≠ [] := mt h.rest_eq_nil.mp hrest
  obtain ⟨mid, hclasses, haround⟩ := classesOf_around hl hrest
  obtain ⟨mid', hclasses', haround'⟩ := classesOf_around hm hrest'
  let n := xs'.length + ys'.length + 2 * m.text.toList.length + 1
  have hlong : n ≤ (letters n ++ l.first.toList).length := by simp [letters]
  have hmid : mid' ⊆ m.classes := by simp [hclasses']
  have hmem : letters n ++ l.first.toList ∈
      classesOf (xs' ++ ' ' :: letters n ++ m.text.toList ++ ys') := by
    refine (hperm n).mem_iff.mpr ?_
    rw [haround, hlead, String.toList_empty, List.append_nil, classesOf_grown_first hl.first]
    simp
  rw [haround', h.lead, hlead, String.toList_empty, List.append_nil,
    classesOf_grown_first hm.first] at hmem
  simp only [List.mem_append, List.mem_singleton] at hmem
  rcases hmem with ((hmem | hmem) | hmem) | hmem
  · have hlength := length_le_of_mem_classesOf hmem
    omega
  · exact (String.toList_inj.mp (List.append_cancel_left hmem)).symm
  · exact absurd hmem (not_mem_of_long hm hmid (by omega))
  · have hlength := length_last_le hm hmem
    omega

theorem last_kept {l m : Layout} (hl : l.Proper) (hm : m.Proper) (h : l.Rearranged m)
    (htrail : l.trail = "") {xs xs' ys ys' : List Char} (hperm : ∀ n,
      (classesOf (xs' ++ m.text.toList ++ (letters n ++ ' ' :: ys'))).Perm
        (classesOf (xs ++ l.text.toList ++ (letters n ++ ' ' :: ys)))) : m.last = l.last := by
  by_cases hrest : l.rest = []
  · rw [h.single hrest]
  have hrest' : m.rest ≠ [] := mt h.rest_eq_nil.mp hrest
  obtain ⟨mid, hclasses, haround⟩ := classesOf_around hl hrest
  obtain ⟨mid', hclasses', haround'⟩ := classesOf_around hm hrest'
  let n := xs'.length + ys'.length + 2 * m.text.toList.length + 1
  have hlong : n ≤ (l.last.toList ++ letters n).length := by simp [letters]
  have hmid : mid' ⊆ m.classes := by simp [hclasses']
  have hmem : l.last.toList ++ letters n ∈
      classesOf (xs' ++ m.text.toList ++ (letters n ++ ' ' :: ys')) := by
    refine (hperm n).mem_iff.mpr ?_
    rw [haround, htrail, String.toList_empty, List.append_nil,
      classesOf_grown_last (hl.classes _ l.last_mem)]
    simp
  rw [haround', h.trail, htrail, String.toList_empty, List.append_nil,
    classesOf_grown_last (hm.classes _ m.last_mem)] at hmem
  simp only [List.mem_append, List.mem_cons] at hmem
  rcases hmem with (hmem | hmem) | hmem | hmem
  · have hlength := length_first_le hm hmem
    omega
  · exact absurd hmem (not_mem_of_long hm hmid (by omega))
  · exact (String.toList_inj.mp (List.append_cancel_right hmem)).symm
  · have hlength := length_le_of_mem_classesOf hmem
    omega

end Layout

end ClassSort.ClassList
