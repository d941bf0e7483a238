import ClassSort.Proofs.ClassList.Joined
import ClassSort.Proofs.Markup.Standing
import ClassSort.Proofs.Rule.Interpolated
import ClassSort.Rule.Grouping

/-!
A class value whose texts and expressions are put into two groups. The texts are trimmed and everything
is joined by spaces, so a class that runs on from a text into an expression is torn apart. The value
keeps its classes, whatever the expressions come to, exactly if nothing touches an expression and
trimming takes off nothing but separators.
-/

namespace ClassSort.Grouping

open ClassList

/-- The parts of a value: whether a part is a text, and what stands there. -/
abbrev Row := List (Bool × String)

def shown (row : Row) : String := String.join (row.map (·.2))

def joined (row : Row) : String := " ".intercalate (row.map (·.2))

def literals (row : Row) : Row := (((row.filter (·.1)).map (trim ·.2)).filter (· != "")).map (true, ·)

def mustaches (row : Row) : Row := row.filter (!·.1)

def regrouped (row : Row) : Row :=
  if row.head?.any (!·.1) then mustaches row ++ literals row else literals row ++ mustaches row

def Fills : Row → Row → Prop := List.Forall₂ fun a b => a.1 = b.1 ∧ (a.1 = true → a.2 = b.2)

/-- Whatever the expressions come to, the grouped value has the classes of the value. -/
def KeepsClasses (row : Row) : Prop :=
  ∀ before after, Fills row before → Fills (regrouped row) after → mustaches after = mustaches before →
    (parse (joined after)).tokens.Perm (parse (shown before)).tokens

/-- One of the two is a text that has a separator where they meet. -/
def Apart (a b : Bool × String) : Prop :=
  (a.1 = true ∧ (parse a.2).tail = true) ∨ (b.1 = true ∧ (parse b.2).head = true)

instance (a b : Bool × String) : Decidable (Apart a b) := inferInstanceAs (Decidable (_ ∨ _))

structure Loose (row : Row) : Prop where
  apart : row.IsChain Apart
  trims : ∀ cell ∈ row, cell.1 = true → (parse (trim cell.2)).tokens = (parse cell.2).tokens

variable {row filled : Row}

/-! The text of the groups. -/

theorem isSolid_intercalate {texts : List (List Char)} (hne : texts ≠ []) (h : ∀ t ∈ texts, IsSolid t) :
    IsSolid ([' '].intercalate texts) := by
  induction texts with
  | nil => exact absurd rfl hne
  | cons t texts ih =>
    have ht := h t List.mem_cons_self
    cases texts with
    | nil => simpa using ht
    | cons u texts =>
      rw [List.intercalate_cons_cons]
      exact ht.append (ih (by simp) fun s hs => h s (List.mem_cons_of_mem _ hs)) [' ']

theorem intercalate_append {texts more : List (List Char)} (h : texts ≠ []) (h' : more ≠ []) :
    [' '].intercalate (texts ++ more) = [' '].intercalate texts ++ [' '] ++ [' '].intercalate more := by
  induction texts with
  | nil => exact absurd rfl h
  | cons t texts ih =>
    cases texts with
    | nil =>
      rw [List.singleton_append, List.intercalate_cons_of_ne_nil h', List.intercalate_singleton]
    | cons u texts =>
      have hmore := ih (by simp)
      rw [List.cons_append, List.cons_append, List.intercalate_cons_cons, ← List.cons_append, hmore,
        List.intercalate_cons_cons]
      simp

theorem trimChars_groups {texts more : List (List Char)} (h : ∀ t ∈ texts, IsSolid t)
    (h' : ∀ t ∈ more, IsSolid t) :
    trimChars ([' '].intercalate texts ++ [' '] ++ [' '].intercalate more) = [' '].intercalate (texts ++ more) := by
  have hspace : ∀ c ∈ [' '], isBlank c = true := by
    intro c hc
    rw [List.mem_singleton.mp hc]
    rfl
  have hnothing : ∀ c ∈ ([] : List Char), isBlank c = true := List.forall_mem_nil _
  by_cases htexts : texts = []
  · subst htexts
    by_cases hmore : more = []
    · subst hmore
      decide
    · simpa using trimChars_around hspace (isSolid_intercalate hmore h') hnothing
  · have hsolid := isSolid_intercalate htexts h
    by_cases hmore : more = []
    · subst hmore
      simpa using trimChars_around hnothing hsolid hspace
    · rw [intercalate_append htexts hmore]
      exact (hsolid.append (isSolid_intercalate hmore h') [' ']).trimChars

theorem trim_groups {texts more : Row} (h : ∀ cell ∈ texts, IsSolid cell.2.toList)
    (h' : ∀ cell ∈ more, IsSolid cell.2.toList) :
    trim (joined texts ++ " " ++ joined more) = joined (texts ++ more) := by
  have hgroups : trimChars (joined texts ++ " " ++ joined more).toList = (joined (texts ++ more)).toList := by
    have hlists := trimChars_groups (List.forall_mem_map.mpr h) (List.forall_mem_map.mpr h')
    simpa [joined, String.toList_intercalate, Function.comp_def] using hlists
  rw [trim, hgroups, String.ofList_toList]

theorem isSolid_literals : ∀ cell ∈ literals row, IsSolid cell.2.toList := by
  intro cell hcell
  obtain ⟨text, htext, rfl⟩ := List.mem_map.mp hcell
  obtain ⟨htext, hne⟩ := List.mem_filter.mp htext
  obtain ⟨whole, -, rfl⟩ := List.mem_map.mp htext
  simp only [trim, bne_iff_ne, ne_eq] at hne ⊢
  rw [String.toList_ofList]
  apply isSolid_trimChars
  intro hnil
  rw [hnil] at hne
  exact hne rfl

theorem grouped_eq (h : ∀ cell ∈ mustaches row, IsSolid cell.2.toList) :
    grouped row = joined (regrouped row) := by
  have hliterals : ((row.filter (·.1)).map (trim ·.2)).filter (· != "") = (literals row).map (·.2) := by
    simp [literals, Function.comp_def]
  unfold grouped regrouped
  simp only [hliterals]
  split
  · exact trim_groups h isSolid_literals
  · exact trim_groups isSolid_literals h

/-! Filling in the expressions. -/

theorem Fills.symm (h : Fills row filled) : Fills filled row := by
  induction h with
  | nil => exact .nil
  | cons hcell _ ih => exact .cons ⟨hcell.1.symm, fun ht => (hcell.2 (hcell.1 ▸ ht)).symm⟩ ih

theorem Fills.refl (row : Row) : Fills row row := by
  induction row with
  | nil => exact .nil
  | cons cell row ih => exact .cons ⟨rfl, fun _ => rfl⟩ ih

theorem Fills.texts (h : Fills row filled) : row.filter (·.1) = filled.filter (·.1) := by
  induction h with
  | nil => rfl
  | @cons a b row filled hcell _ ih =>
    obtain ⟨hkind, htext⟩ := hcell
    cases ha : a.1 with
    | true =>
      have hsame : a = b := Prod.ext hkind (htext ha)
      subst hsame
      rw [List.filter_cons_of_pos ha, List.filter_cons_of_pos ha, ih]
    | false => rw [List.filter_cons_of_neg (by simp [ha]), List.filter_cons_of_neg (by simp [← hkind, ha]), ih]

theorem Fills.mustaches (h : Fills row filled) : Fills (mustaches row) (mustaches filled) := by
  induction h with
  | nil => exact .nil
  | @cons a b row filled hcell _ ih =>
    unfold Grouping.mustaches at ih ⊢
    cases ha : a.1 with
    | true =>
      rw [List.filter_cons_of_neg (by simp [ha]), List.filter_cons_of_neg (by simp [← hcell.1, ha])]
      exact ih
    | false =>
      rw [List.filter_cons_of_pos (by simp [ha]), List.filter_cons_of_pos (by simp [← hcell.1, ha])]
      exact .cons hcell ih

/-- The texts and the expressions decide what a value is filled to. -/
theorem Fills.unique {other : Row} (h : Fills row filled) (h' : Fills row other)
    (hsame : Grouping.mustaches filled = Grouping.mustaches other) : filled = other := by
  induction h generalizing other with
  | nil =>
    cases h'
    rfl
  | @cons a b row filled hcell _ ih =>
    cases h' with
    | @cons _ c _ other hcell' hrest =>
      unfold Grouping.mustaches at ih hsame
      cases ha : a.1 with
      | true =>
        have hb : b.1 = true := hcell.1 ▸ ha
        have hc : c.1 = true := hcell'.1 ▸ ha
        have hbc : b = c := Prod.ext (hb.trans hc.symm) ((hcell.2 ha).symm.trans (hcell'.2 ha))
        rw [List.filter_cons_of_neg (by simp [hb]), List.filter_cons_of_neg (by simp [hc])] at hsame
        rw [hbc, ih hrest hsame]
      | false =>
        have hb : b.1 = false := hcell.1 ▸ ha
        have hc : c.1 = false := hcell'.1 ▸ ha
        rw [List.filter_cons_of_pos (by simp [hb]), List.filter_cons_of_pos (by simp [hc])] at hsame
        obtain ⟨hbc, hrest'⟩ := List.cons.inj hsame
        rw [hbc, ih hrest hrest']

theorem Fills.regrouped (h : Fills row filled) : Fills (regrouped row) (regrouped filled) := by
  have hliterals : literals row = literals filled := by rw [literals, literals, h.texts]
  have hhead : row.head?.any (!·.1) = filled.head?.any (!·.1) := by
    cases h with
    | nil => rfl
    | cons hcell _ => simp [hcell.1]
  unfold Grouping.regrouped
  rw [hhead, hliterals]
  split
  · exact List.rel_append h.mustaches (Fills.refl _)
  · exact List.rel_append (Fills.refl _) h.mustaches

theorem mustaches_regrouped (row : Row) : mustaches (regrouped row) = mustaches row := by
  have hself : mustaches (mustaches row) = mustaches row := by simp [mustaches]
  have hliterals : mustaches (literals row) = [] := by simp [mustaches, literals]
  have happend (a b : Row) : mustaches (a ++ b) = mustaches a ++ mustaches b := List.filter_append ..
  unfold regrouped
  split
  · rw [happend, hself, hliterals, List.append_nil]
  · rw [happend, hself, hliterals, List.nil_append]

/-! Classes of a value and of its groups. -/

def classes (cell : Bool × String) : List (List Char) := classesOf cell.2.toList

def trimmed (cell : Bool × String) : Bool × String := if cell.1 then (true, trim cell.2) else cell

theorem classesOf_joined (row : Row) : classesOf (joined row).toList = row.flatMap classes := by
  rw [joined, String.toList_intercalate, List.map_map]
  exact (classesOf_intercalate _).trans (List.flatMap_map ..)

theorem classes_literals (row : Row) :
    (literals row).flatMap classes = (row.filter (·.1)).flatMap fun cell => classes (trimmed cell) := by
  unfold literals
  induction row with
  | nil => rfl
  | cons cell row ih =>
    cases hcell : cell.1 with
    | false =>
      rw [List.filter_cons_of_neg (by simp [hcell])]
      exact ih
    | true =>
      have htrimmed : classes (trimmed cell) = classesOf (trim cell.2).toList := by simp [trimmed, hcell, classes]
      rw [List.filter_cons_of_pos hcell, List.map_cons, List.flatMap_cons, htrimmed, ← ih]
      by_cases hempty : trim cell.2 = ""
      · rw [List.filter_cons_of_neg (by simp [hempty]), hempty]
        rfl
      · rw [List.filter_cons_of_pos (by simpa using hempty), List.map_cons, List.flatMap_cons]
        rfl

theorem classes_regrouped (row : Row) :
    ((regrouped row).flatMap classes).Perm (row.flatMap fun cell => classes (trimmed cell)) := by
  have hmustaches : (mustaches row).flatMap classes =
      (mustaches row).flatMap fun cell => classes (trimmed cell) := by
    apply List.flatMap_congr
    intro cell hcell
    have hkind := (List.mem_filter.mp hcell).2
    rw [trimmed, if_neg (by simpa using hkind)]
  have hall := (List.filter_append_perm (·.1) row).flatMap_right fun cell => classes (trimmed cell)
  rw [List.flatMap_append, ← classes_literals] at hall
  refine .trans ?_ hall
  unfold regrouped
  split
  · rw [List.flatMap_append, hmustaches]
    exact List.perm_append_comm
  · rw [List.flatMap_append, hmustaches]
    exact .refl _

theorem toList_shown (row : Row) : (shown row).toList = row.flatMap (·.2.toList) := by
  rw [shown, String.toList_join, List.flatMap_map]

/-- Where everything stands apart the classes of a value are those of its parts. -/
theorem classesOf_shown (h : row.IsChain Apart) : classesOf (shown row).toList = row.flatMap classes := by
  rw [toList_shown]
  induction row with
  | nil => rfl
  | cons a row ih =>
    cases row with
    | nil => simp [classes]
    | cons b row =>
      obtain ⟨hapart, hrest⟩ := List.isChain_cons_cons.mp h
      rw [List.flatMap_cons, List.flatMap_cons (x := a), ← ih hrest]
      rcases hapart with ⟨-, htail⟩ | ⟨-, hhead⟩
      · obtain ⟨c, hlast, hc⟩ := (Option.any_eq_true _ _).mp htail
        exact classesOf_append_of_tail hlast hc _
      · obtain ⟨c, hfirst, hc⟩ := (Option.any_eq_true _ _).mp hhead
        have hbehind : ((b :: row).flatMap (·.2.toList)).head? = some c := by
          rw [List.flatMap_cons, List.head?_append, hfirst]
          rfl
        exact classesOf_append_of_head hbehind hc _

theorem classes_trimmed {cell : Bool × String}
    (h : cell.1 = true → (parse (trim cell.2)).tokens = (parse cell.2).tokens) :
    classes (trimmed cell) = classes cell := by
  unfold trimmed
  split
  · next hkind =>
    have htokens := h hkind
    rw [parse_tokens, parse_tokens] at htokens
    exact List.map_injective_iff.mpr (fun _ _ => String.ofList_inj.mp) htokens
  · rfl

theorem Loose.keeps (h : Loose row) :
    (parse (joined (regrouped row))).tokens.Perm (parse (shown row)).tokens := by
  rw [tokens_perm_iff, classesOf_joined, classesOf_shown h.apart]
  refine (classes_regrouped row).trans (.of_eq ?_)
  apply List.flatMap_congr
  intro cell hcell
  exact classes_trimmed (h.trims cell hcell)

/-- Only the texts decide whether everything stands apart. -/
theorem Fills.loose (h : Fills row filled) (hrow : Loose row) : Loose filled := by
  obtain ⟨hapart, htrims⟩ := hrow
  constructor
  · clear htrims
    induction h with
    | nil => exact .nil
    | @cons a a' row filled ha hrest ih =>
      cases hrest with
      | nil => exact .singleton _
      | @cons b b' row filled hb hrest =>
        obtain ⟨hpair, hchain⟩ := List.isChain_cons_cons.mp hapart
        refine .cons_cons ?_ (ih hchain)
        rcases hpair with ⟨hkind, htail⟩ | ⟨hkind, hhead⟩
        · exact .inl ⟨ha.1 ▸ hkind, ha.2 hkind ▸ htail⟩
        · exact .inr ⟨hb.1 ▸ hkind, hb.2 hkind ▸ hhead⟩
  · intro cell hcell hkind
    have hmem : cell ∈ filled.filter (·.1) := List.mem_filter.mpr ⟨hcell, hkind⟩
    rw [← h.texts] at hmem
    exact htrims cell (List.mem_filter.mp hmem).1 hkind

def weight (texts : List (List Char)) : Nat := texts.flatten.length

theorem weight_append (texts more : List (List Char)) : weight (texts ++ more) = weight texts + weight more := by
  simp [weight]

theorem weight_classesOf (cs : List Char) : weight (classesOf cs) = cs.countP (!isSeparator ·) := by
  rw [weight, flatten_classesOf, List.countP_eq_length_filter]

theorem weight_trimmed_le (cell : Bool × String) : weight (classes (trimmed cell)) ≤ weight (classes cell) := by
  rw [classes, classes, weight_classesOf, weight_classesOf, trimmed]
  split
  · obtain ⟨front, back, hcell, -, -⟩ := exists_trimmed cell.2.toList
    have hcount := congrArg (List.countP (!isSeparator ·)) hcell
    simp only [List.countP_append] at hcount
    simp only [trim, String.toList_ofList]
    omega
  · exact Nat.le_refl _

/-- Putting texts next to each other takes no character away. -/
theorem weight_shown (row : Row) : weight (classesOf (shown row).toList) = weight (row.flatMap classes) := by
  rw [toList_shown, weight_classesOf]
  induction row with
  | nil => rfl
  | cons cell row ih =>
    rw [List.flatMap_cons, List.flatMap_cons, List.countP_append, weight_append, ih, classes, weight_classesOf]

section

variable {f g : Bool × String → List (List Char)} (hle : ∀ cell ∈ row, weight (f cell) ≤ weight (g cell))
include hle

theorem weight_flatMap_le : weight (row.flatMap f) ≤ weight (row.flatMap g) := by
  induction row with
  | nil => exact Nat.le_refl _
  | cons cell row ih =>
    have hcell := hle cell List.mem_cons_self
    have hrest := ih fun c hc => hle c (List.mem_cons_of_mem _ hc)
    rw [List.flatMap_cons, List.flatMap_cons, weight_append, weight_append]
    omega

/-- No part is lighter than it could be when all of them together are as heavy as they can be. -/
theorem weight_le_of_flatMap (h : weight (row.flatMap g) ≤ weight (row.flatMap f)) :
    ∀ cell ∈ row, weight (g cell) ≤ weight (f cell) := by
  induction row with
  | nil => exact List.forall_mem_nil _
  | cons cell row ih =>
    have hcell := hle cell List.mem_cons_self
    have hle' : ∀ c ∈ row, weight (f c) ≤ weight (g c) := fun c hc => hle c (List.mem_cons_of_mem _ hc)
    have hrest := weight_flatMap_le hle'
    rw [List.flatMap_cons, List.flatMap_cons, weight_append, weight_append] at h
    intro c hc
    rcases List.mem_cons.mp hc with rfl | hc
    · omega
    · exact ih hle' (by omega) c hc

end

theorem length_classesOf_shown_le (row : Row) :
    (classesOf (shown row).toList).length ≤ (row.flatMap classes).length := by
  rw [toList_shown]
  induction row with
  | nil => exact Nat.le_refl _
  | cons cell row ih =>
    have hcount := length_classesOf_append cell.2.toList (row.flatMap (·.2.toList))
    rw [List.flatMap_cons, List.flatMap_cons, List.length_append]
    unfold classes at ih ⊢
    omega

/-- If no two classes have become one then everything stands apart. -/
theorem apart_of_length (hne : ∀ cell ∈ row, cell.2.toList ≠ [])
    (hmustaches : ∀ cell ∈ row, cell.1 = false → cell.2 = "z")
    (h : (row.flatMap classes).length ≤ (classesOf (shown row).toList).length) : row.IsChain Apart := by
  induction row with
  | nil => exact .nil
  | cons a row ih =>
    cases row with
    | nil => exact .singleton _
    | cons b row =>
      have hcount := length_classesOf_append a.2.toList ((b :: row).flatMap (·.2.toList))
      have hle := length_classesOf_shown_le (b :: row)
      have hrest := ih (fun c hc => hne c (List.mem_cons_of_mem _ hc))
        fun c hc => hmustaches c (List.mem_cons_of_mem _ hc)
      rw [toList_shown] at h hle hrest
      rw [List.flatMap_cons, List.flatMap_cons (x := a), List.length_append] at h
      have hsame : (classes a).length = (classesOf a.2.toList).length := rfl
      have hglued : glued a.2.toList ((b :: row).flatMap (·.2.toList)) = false := by
        by_contra hglued
        rw [if_pos (by simpa using hglued)] at hcount
        omega
      refine .cons_cons ?_ (hrest (by omega))
      obtain ⟨c, hlast⟩ := Option.ne_none_iff_exists'.mp (mt List.getLast?_eq_none_iff.mp (hne a List.mem_cons_self))
      obtain ⟨d, hhead⟩ := Option.ne_none_iff_exists'.mp (mt List.head?_eq_none_iff.mp (hne b (by simp)))
      have hhead' : ((b :: row).flatMap (·.2.toList)).head? = some d := by
        rw [List.flatMap_cons, List.head?_append, hhead]
        rfl
      simp only [glued, hlast, hhead', Option.any_some, Bool.and_eq_false_iff, Bool.not_eq_false'] at hglued
      -- a separator stands at the edge of a text, as the expressions are filled with a class
      rcases hglued with hc | hd
      · refine .inl ⟨?_, by rw [parse, hlast]; exact hc⟩
        by_contra hkind
        rw [hmustaches a List.mem_cons_self (by simpa using hkind)] at hlast
        cases hlast
        cases hc
      · refine .inr ⟨?_, by rw [parse, hhead]; exact hd⟩
        by_contra hkind
        rw [hmustaches b (by simp) (by simpa using hkind)] at hhead
        cases hhead
        cases hd

/-- A value whose expressions are filled with a class shows whether everything stands apart. -/
theorem loose_of_keeps (hne : ∀ cell ∈ row, cell.2.toList ≠ [])
    (hmustaches : ∀ cell ∈ row, cell.1 = false → cell.2 = "z")
    (h : (parse (joined (regrouped row))).tokens.Perm (parse (shown row)).tokens) : Loose row := by
  rw [tokens_perm_iff, classesOf_joined] at h
  have hperm := (classes_regrouped row).symm.trans h
  have hweight : ∀ cell ∈ row, weight (classes cell) ≤ weight (classes (trimmed cell)) := by
    apply weight_le_of_flatMap fun cell _ => weight_trimmed_le cell
    rw [← weight_shown]
    exact hperm.flatten.length_eq.ge
  have htrims : ∀ cell ∈ row, cell.1 = true → (parse (trim cell.2)).tokens = (parse cell.2).tokens := by
    intro cell hcell hkind
    have hcount := hweight cell hcell
    rw [classes, classes, weight_classesOf, weight_classesOf, trimmed, if_pos hkind, trim,
      String.toList_ofList] at hcount
    rw [parse_tokens, parse_tokens, trim, String.toList_ofList, classesOf_trimChars hcount]
  refine ⟨apart_of_length hne hmustaches ?_, htrims⟩
  have hsame : (row.flatMap fun cell => classes (trimmed cell)) = row.flatMap classes := by
    apply List.flatMap_congr
    intro cell hcell
    exact classes_trimmed (htrims cell hcell)
  rw [hsame] at hperm
  exact hperm.length_eq.le

theorem keepsClasses_iff (hne : ∀ cell ∈ row, cell.1 = true → cell.2 ≠ "") :
    KeepsClasses row ↔ Loose row := by
  constructor
  · intro h
    let filled := row.map fun cell => if cell.1 then cell else (false, "z")
    have hfills : Fills row filled := by
      apply List.forall₂_map_right_iff.mpr
      apply List.forall₂_same.mpr
      intro cell _
      cases hkind : cell.1 <;> simp [hkind]
    have hkept := h filled (regrouped filled) hfills hfills.regrouped (mustaches_regrouped filled)
    refine hfills.symm.loose (loose_of_keeps ?_ ?_ hkept)
    · intro cell hcell
      obtain ⟨part, hpart, rfl⟩ := List.mem_map.mp hcell
      cases hkind : part.1 with
      | true => simpa [hkind] using hne part hpart hkind
      | false => simp
    · intro cell hcell hkind
      obtain ⟨part, hpart, rfl⟩ := List.mem_map.mp hcell
      cases hpart' : part.1 with
      | true => simp [hpart'] at hkind
      | false => simp
  · intro h before after hbefore hafter hsame
    rw [← mustaches_regrouped before] at hsame
    rw [hafter.unique hbefore.regrouped hsame]
    exact (hbefore.loose h).keeps

/-! Where the parts come from. -/

open Markup

variable {source : String}

structure Reads (p q : Point) (row : Row) : Prop where
  crosses : Crosses p q (shown row).toList
  texts : ∀ cell ∈ row, cell.1 = true → cell.2 ≠ ""
  mustaches : ∀ cell ∈ mustaches row, IsSolid cell.2.toList

theorem Reads.cons {p q r : Point} {cs : List Char} {isText : Bool} (h : Reads q r row)
    (hcrosses : Crosses p q cs) (htext : isText = true → cs ≠ []) (hmustache : isText = false → IsSolid cs) :
    Reads p r ((isText, String.ofList cs) :: row) where
  crosses := by
    have hshown := hcrosses.trans h.crosses
    rw [toList_shown] at hshown ⊢
    simpa using hshown
  texts := by
    intro cell hcell hkind
    rcases List.mem_cons.mp hcell with rfl | hcell
    · simpa using htext hkind
    · exact h.texts cell hcell hkind
  mustaches := by
    intro cell hcell
    obtain ⟨hcell, hkind⟩ := List.mem_filter.mp hcell
    rcases List.mem_cons.mp hcell with rfl | hcell
    · simpa using hmustache (by simpa using hkind)
    · exact h.mustaches cell (List.mem_filter.mpr ⟨hcell, hkind⟩)

theorem partTexts_tiles {p q : Point} {parts : List Part} (h : Tiles p q parts)
    (hleads : Leads (.ofText source) p) (hend : q.rest ≠ []) (dialect : Script.Dialect) :
    ∃ row, partTexts source (parts.map (Source.part library source.toList dialect)) = some row ∧ Reads p q row := by
  induction h with
  | nil => exact ⟨[], rfl, .refl _, by simp, by simp [mustaches]⟩
  | @text p q r cs parts hcrosses hne hrest ih =>
    obtain ⟨row, htexts, hreads⟩ := ih (hleads.trans ⟨cs, hcrosses⟩) hend
    refine ⟨(true, String.ofList cs) :: row, ?_, hreads.cons hcrosses (fun _ => hne) (by simp)⟩
    have hslice := Crosses.slice hleads hcrosses
    simp [partTexts, Source.part, AttributePart.span, slice?, hslice, htexts]
  | @braces p q r cs parts hcrosses hopened hclosed hrest ih =>
    obtain ⟨row, htexts, hreads⟩ := ih (hleads.trans ⟨cs, hcrosses⟩) hend
    have hsolid : IsSolid cs := by
      obtain ⟨behind, hbehind⟩ := hrest.leads
      have hlast := hclosed (by simp [hbehind.rest, hend])
      refine ⟨?_, ?_, ?_⟩
      · rintro rfl
        cases hopened
      · intro c hc
        cases hopened.symm.trans hc
        rfl
      · intro c hc
        cases hlast.symm.trans hc
        rfl
    refine ⟨(false, String.ofList cs) :: row, ?_, hreads.cons hcrosses (by simp) fun _ => hsolid⟩
    have hslice := Crosses.slice hleads hcrosses
    simp [partTexts, Source.part, AttributePart.span, slice?, hslice, htexts]

/-- The fix for a class value keeps its classes, whatever the expressions come to, exactly if a separator
stands between any two of its parts and trimming the texts loses nothing of a class. -/
theorem check_keepsClasses_iff {hasBraces : Bool} {v : Value} (hv : .classes v ∈ scan source hasBraces)
    (hclosed : v.IsClosed) {dialect : Script.Dialect} {node : Node}
    (hnode : Source.attribute? library source.toList dialect (.classes v) = some node) {finding : Violation}
    (h : check source node = some finding) : ∃ row : Row,
      partTexts source (v.parts.map (Source.part library source.toList dialect)) = some row ∧
      slice? source v.span.inner = some (shown row) ∧ finding.range = v.span.inner ∧
      finding.replacement = joined (regrouped row) ∧ (KeepsClasses row ↔ Loose row) := by
  cases hnode
  cases hquoted : v.isQuoted with
  | false =>
    rw [hquoted] at h
    cases h
  | true =>
    rw [hquoted, check] at h
    split at h
    · cases h
    · next hsize =>
      have hne : v.parts ≠ [] := by
        intro hnil
        simp [hnil] at hsize
      obtain ⟨first, last, hleads, htiles, hinner, hend⟩ := hclosed.tiles (scan_standing hv) hquoted hne
      obtain ⟨row, htexts, hreads⟩ := partTexts_tiles htiles hleads hend dialect
      have hslice : slice? source v.span.inner = some (shown row) := by
        rw [hinner, slice?, hreads.crosses.slice hleads, Option.map_some, String.ofList_toList]
      rw [hslice, htexts] at h
      simp only [Option.bind_eq_bind, Option.bind_some] at h
      split at h
      · cases h
      · cases h
        exact ⟨row, htexts, hslice, rfl, grouped_eq hreads.mustaches, keepsClasses_iff hreads.texts⟩

def sampleValue : Value :=
  ⟨⟨9, 18⟩, true, [.text ⟨10, 12⟩, .braces ⟨12, 15⟩, .text ⟨15, 17⟩]⟩

/-- The first class runs on into the expression, and in two groups they are two. -/
def gluedValue : String := "<p class=\"a-\x7bx\x7d b\"></p>"

def gluedRow : Row := [(true, "a-"), (false, "\x7bx\x7d"), (true, " b")]

theorem gluedValue_loses_class : .classes sampleValue ∈ scan gluedValue true ∧ sampleValue.IsClosed ∧
    ((Source.attribute? Script.builtIn gluedValue.toList .javaScript (.classes sampleValue)).bind (check gluedValue)).map
      (·.replacement) = some (joined (regrouped gluedRow)) ∧
    slice? gluedValue sampleValue.span.inner = some (shown gluedRow) ∧ ¬ KeepsClasses gluedRow := by
  refine ⟨by decide +kernel, by decide, by decide +kernel, by decide +kernel, ?_⟩
  intro h
  have hbefore : Fills gluedRow [(true, "a-"), (false, "z"), (true, " b")] := by simp [Fills, gluedRow]
  have hgroups : regrouped gluedRow = [(true, "a-"), (true, "b"), (false, "\x7bx\x7d")] := by decide +kernel
  have hafter : Fills (regrouped gluedRow) [(true, "a-"), (true, "b"), (false, "z")] := by simp [Fills, hgroups]
  have hperm := h _ _ hbefore hafter rfl
  have hnone : ¬ (parse "a- b z").tokens.Perm (parse "a-z b").tokens := by decide +kernel
  exact hnone hperm

def partedValue : String := "<p class=\"a \x7bx\x7d b\"></p>"

def partedRow : Row := [(true, "a "), (false, "\x7bx\x7d"), (true, " b")]

theorem partedValue_keepsClasses : .classes sampleValue ∈ scan partedValue true ∧ sampleValue.IsClosed ∧
    slice? partedValue sampleValue.span.inner = some (shown partedRow) ∧ KeepsClasses partedRow := by
  have hv : .classes sampleValue ∈ scan partedValue true := by decide +kernel
  have hclosed : sampleValue.IsClosed := by decide
  obtain ⟨node, hnode⟩ : ∃ node, Source.attribute? Script.builtIn partedValue.toList .javaScript (.classes sampleValue) =
      some node := ⟨_, rfl⟩
  have hfound : ((Source.attribute? Script.builtIn partedValue.toList .javaScript (.classes sampleValue)).bind
      (check partedValue)).isSome = true := by decide +kernel
  rw [hnode, Option.bind_some] at hfound
  obtain ⟨finding, hfinding⟩ := Option.isSome_iff_exists.mp hfound
  obtain ⟨row, htexts, hslice, -, -, hiff⟩ := check_keepsClasses_iff hv hclosed hnode hfinding
  have hrow : partTexts partedValue (sampleValue.parts.map (Source.part Script.builtIn partedValue.toList .javaScript)) =
      some partedRow := by decide +kernel
  obtain rfl : row = partedRow := Option.some.inj (htexts.symm.trans hrow)
  refine ⟨hv, hclosed, hslice, hiff.mpr ⟨by decide +kernel, ?_⟩⟩
  decide +kernel

end ClassSort.Grouping
