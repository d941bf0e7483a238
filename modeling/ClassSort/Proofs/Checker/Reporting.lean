import ClassSort.Proofs.Checker.Passes
import ClassSort.Proofs.Rule.Applicable
import ClassSort.Proofs.Text.Positions
import ClassSort.Report

/-!
A report says for each finding where it starts, as a line and a column. Findings begin between characters and
come by range, so a report is read from the front of the text to its end, and findings that begin at different
offsets are never shown at the same place.
-/

namespace ClassSort

namespace Violation

def place (source : String) (v : Violation) : Position := positionAt source v.range.start

theorem reportLine_eq (name source : String) (v : Violation) : v.reportLine name source =
    name ++ ":" ++ (v.place source).shown ++ ": " ++ v.message ++ " [" ++ v.rule ++ "]\n" := by
  simp only [reportLine, place, Position.shown, String.append_assoc]
  rfl

end Violation

/-- Findings are shown in the order of their ranges, and at one place only those with one start. -/
structure ShownInOrder (source : String) (found : List Violation) : Prop where
  distinct : ∀ v ∈ found, ∀ w ∈ found,
    (v.place source).shown = (w.place source).shown ↔ v.range.start = w.range.start
  ordered : found.Pairwise fun v w => v.range.le w.range = true ∧
    ((v.place source).Before (w.place source) ∨ v.place source = w.place source)

theorem Applicable.shownInOrder {source : String} {found : List Violation} (h : Applicable source found) :
    ShownInOrder source found where
  distinct v hv w hw := by
    rw [Position.shown_inj]
    exact positionAt_inj (h.cuts v hv).start (h.cuts w hw).start
  ordered := by
    refine h.ordered.imp_of_mem fun {v w} hv hw hle => ⟨hle, ?_⟩
    have hstart := Span.start_le_of_le hle
    obtain hlt | heq := Nat.lt_or_eq_of_le hstart
    · exact .inl (positionAt_before (h.cuts v hv).start (h.cuts w hw).start hlt)
    · exact .inr (congrArg (positionAt source) heq)

/-- Positions are faithful to offsets. Every offset has one, counted over the whole characters in front of it: an
offset inside a character has the position of the character, one past the end that of the end. Between characters
positions follow the offsets, and distinct ones are shown differently. The lines of a report begin with these
positions, and what a check finds and what a fix leaves is reported in the order of the ranges. -/
theorem positions_faithful (source : String) :
    (∀ offset, ∃ before after, WholeUpTo source.toList offset before after ∧
      positionAt source offset = Position.behind before) ∧
    (∀ before c after k, source.toList = before ++ c :: after → k < c.utf8Size →
      positionAt source (byteLength before + k) = positionAt source (byteLength before)) ∧
    (∀ k, positionAt source (byteLength source.toList + k) = positionAt source (byteLength source.toList)) ∧
    (∀ a b, IsBoundary source.toList a → IsBoundary source.toList b →
      ((positionAt source a).Before (positionAt source b) ↔ a < b) ∧
      ((positionAt source a).shown = (positionAt source b).shown ↔ a = b)) ∧
    (∀ name found, report name source found = String.join (found.map fun v =>
      name ++ ":" ++ (v.place source).shown ++ ": " ++ v.message ++ " [" ++ v.rule ++ "]\n")) ∧
    ∀ {σ κ : Type} (o : Oracle σ κ) (files : FileTree) (path : Path) (c : Checker κ) (s : σ),
      (∀ now found, (c.check o files now path source s).1 = .ok found → ShownInOrder source found) ∧
      ∀ clock done, (c.fix o files clock path source s).1 = .ok done →
        ShownInOrder done.output done.remaining := by
  refine ⟨fun offset => ?_, fun before c after k hsplit hk => ?_, fun k => ?_, fun a b ha hb => ?_,
    fun name found => ?_, fun {σ κ} o files path c s => ⟨fun now found h => ?_, fun clock done h => ?_⟩⟩
  · obtain ⟨before, after, hwhole⟩ := exists_wholeUpTo source.toList offset
    exact ⟨before, after, hwhole, positionAt_wholeUpTo hwhole⟩
  · rw [positionAt_append hsplit]
    exact positionAt_wholeUpTo ⟨hsplit, Nat.le_add_right _ _, by rintro d ⟨⟩; exact Nat.add_lt_add_left hk _⟩
  · have hsplit : source.toList = source.toList ++ [] := (List.append_nil _).symm
    rw [positionAt_append hsplit]
    exact positionAt_wholeUpTo ⟨hsplit, Nat.le_add_right _ _, nofun⟩
  · rw [Position.shown_inj]
    exact ⟨positionAt_before_iff ha hb, positionAt_inj ha hb⟩
  · simp only [report, Violation.reportLine_eq]
  · exact (Checker.check_applicable (Prod.ext h rfl)).shownInOrder
  · obtain ⟨c₁, s₁, hcheck⟩ := (Checker.fix_passes (Prod.ext h rfl)).1.lastCheck
    exact (Checker.check_applicable hcheck).shownInOrder

def accentedLines : String := "é\nclsx('b a')\nclsx('b a')"

theorem positions_faithful_lines :
    let o : Oracle Unit OrderTable := OrderTable.fixed Sorting.alphabet
    let inLines : List Violation :=
      [⟨Sorting.rule, ⟨9, 12⟩, "a b", Sorting.message⟩, ⟨Sorting.rule, ⟨21, 24⟩, "a b", Sorting.message⟩]
    (inlineChecker.check o ⟨[]⟩ 0 ⟨"a.js"⟩ accentedLines ()).1 = .ok inLines ∧
      ShownInOrder accentedLines inLines ∧
      accentedLines.toList = [] ++ 'é' :: ("\nclsx('b a')\nclsx('b a')").toList ∧ 1 < 'é'.utf8Size ∧
      positionAt accentedLines (byteLength [] + 1) = positionAt accentedLines (byteLength []) ∧
      IsBoundary accentedLines.toList 2 ∧ IsBoundary accentedLines.toList 3 ∧
      (positionAt accentedLines 2).Before (positionAt accentedLines 3) := by
  intro o inLines
  obtain ⟨-, hinside, -, hbetween, -, hchecks⟩ := positions_faithful accentedLines
  have hcheck : (inlineChecker.check o ⟨[]⟩ 0 ⟨"a.js"⟩ accentedLines ()).1 = .ok inLines := by decide +kernel
  have hsplit : accentedLines.toList = [] ++ 'é' :: ("\nclsx('b a')\nclsx('b a')").toList := by decide
  have htwo : IsBoundary accentedLines.toList 2 :=
    ⟨['é'], "\nclsx('b a')\nclsx('b a')".toList, by decide, by decide⟩
  have hthree : IsBoundary accentedLines.toList 3 :=
    ⟨['é', '\n'], "clsx('b a')\nclsx('b a')".toList, by decide, by decide⟩
  exact ⟨hcheck, (hchecks o ⟨[]⟩ ⟨"a.js"⟩ inlineChecker ()).1 0 inLines hcheck, hsplit, by decide,
    hinside [] 'é' _ 1 hsplit (by decide), htwo, hthree, (hbetween 2 3 htwo hthree).1.mpr (by decide)⟩

end ClassSort
