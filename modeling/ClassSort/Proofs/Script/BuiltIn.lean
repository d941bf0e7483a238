import ClassSort.Proofs.Script.Lowered
import ClassSort.Proofs.Script.Statements
import ClassSort.Proofs.Source.Readings

/-!
The grammars of the library itself. Their trees lie in the text in order, one inside the other, and each is
spelled as its form says. A script that they cannot read has no trees but the whole of it, so there is
nothing in it that could be spelled otherwise.
-/

namespace ClassSort.Script

open Script.Tree

variable {text : List Char} {t : Tree}

theorem builtIn_read (dialect : Dialect) (text : List Char) : parse? dialect text = some (builtIn.read dialect text) ∨
    builtIn.read dialect text = [node .broken ⟨0, byteLength text⟩ []] := by
  rw [Grammars.read, builtIn]
  dsimp only
  cases parse? dialect text with
  | none => exact .inr rfl
  | some trees => exact .inl rfl

theorem builtIn_row (dialect : Dialect) (text : List Char) :
    Row false 0 (byteLength text) (builtIn.read dialect text) := by
  rcases builtIn_read dialect text with hparse | hbroken
  · exact parse?_row hparse
  · rw [hbroken]
    refine row_single.mpr ⟨Nat.zero_le _, sound_node.mpr ⟨Nat.zero_le _, ?_, ?_, row_nil⟩, .inr rfl, Nat.le_refl _⟩
    · exact fun h => by cases h
    · trivial

theorem builtIn_wellNested (dialect : Dialect) (text : List Char) :
    WellNestedFrom 0 (byteLength text) (builtIn.read dialect text) :=
  (builtIn_row dialect text).wellNested _ (Nat.zero_le _)

theorem builtIn_regular (dialect : Dialect) (text : List Char) : ∀ t ∈ builtIn.read dialect text, t.Regular :=
  (builtIn_row dialect text).regular

theorem builtIn_spelled (dialect : Dialect) (text : List Char) :
    ∀ t ∈ builtIn.read dialect text, t.Spelled text := by
  rcases builtIn_read dialect text with hparse | hbroken
  · exact parse?_spelled hparse
  · rw [hbroken]
    exact List.forall_mem_singleton.mpr (.node trivial (by simp))

/-- A sound tree that is spelled as it should be. -/
theorem legible_of_spelled (hsound : t.Sound) (h : t.Spelled text) : t.Legible text := by
  obtain ⟨form, s, ts⟩ := t
  have hspelled := h.form
  cases form with
  | string => exact hspelled
  | identifier | propertyName | shorthand =>
    obtain ⟨name, hslice, hname⟩ := hspelled
    exact ⟨name, hslice, hname.nonempty, hname.plain⟩
  | template =>
    obtain ⟨-, -, -, hrow⟩ := sound_node.mp hsound
    refine ⟨rfl, hsound.wellNested, hspelled, fun u hu => ?_⟩
    have hmem : u ∈ ts := (Form.kept_sublist _ ts).subset hu
    have hform : u.form = .substitution := by
      have hkeeps : Form.template.keeps u.form = true := (List.mem_filter.mp hu).2
      revert hkeeps
      cases u.form <;> simp [Form.keeps]
    have hinner := hrow.sound u hmem
    have hsubstitution := h.children u hmem
    obtain ⟨form, s, us⟩ := u
    obtain rfl : form = .substitution := hform
    obtain ⟨-, -, -, hrow⟩ := sound_node.mp hinner
    exact ⟨hsubstitution.form, fun v hv =>
      have hv := (Form.kept_sublist _ us).subset hv
      ⟨hrow.start_le v hv, hrow.stop_le v hv⟩⟩
  | _ => trivial

theorem builtIn_readable (dialect : Dialect) (text : List Char) : Readable text (builtIn.read dialect text) := by
  have hclosed : Closed fun t : Tree => t.Sound ∧ t.Spelled text := by
    rintro ⟨form, s, ts⟩ ⟨hsound, hspelled⟩ u hu
    obtain ⟨-, -, -, hrow⟩ := sound_node.mp hsound
    exact ⟨hrow.sound u hu, hspelled.children u hu⟩
  have hfound : ∀ t, Among (builtIn.read dialect text) t → t.Sound ∧ t.Spelled text := by
    intro t ht
    induction ht with
    | here ht => exact ⟨(builtIn_row dialect text).sound _ ht, builtIn_spelled dialect text _ ht⟩
    | inside _ hu ih => exact hclosed _ ih _ hu
  exact fun t ht => legible_of_spelled (hfound t ht).1 (hfound t ht).2

end ClassSort.Script
