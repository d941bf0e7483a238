import ClassSort.Proofs.Order.Decimal

/-!
What is printed for a key is read as that key, whatever its size and sign. So two keys that print alike are one
key, and keys that went over the wire compare as they did before.
-/

namespace ClassSort.OrderKey

open Json

/-- A key on the wire: the JSON string that holds its decimal form. -/
def write (key : OrderKey) : List Char := (str (print key)).write

variable {m n : OrderKey}

theorem read?_write (n : OrderKey) : read? (write n) = some n := by
  rw [write, read?_str, parse?_print]

/-- Keys that print alike are the same. -/
theorem eq_of_print_eq (h : print m = print n) : m = n := by
  have hread : parse? (print m) = parse? (print n) := congrArg parse? h
  rw [parse?_print, parse?_print] at hread
  exact Option.some.inj hread

/-- Printing loses nothing of a key. It is read from its decimal form, also with letters `n` behind it and then
white space around both, and from the JSON string that holds the decimal form. Distinct keys print differently,
and two keys compare after both were written and read as they did before. -/
theorem print_survives (m n : OrderKey) {before after : List Char}
    (hbefore : ∀ c ∈ before, isBlank c = true) (hafter : ∀ c ∈ after, isBlank c = true) (k : Nat) :
    parse? (String.ofList (before ++ ((print n).toList ++ List.replicate k 'n') ++ after)) = some n ∧
    parse? (print n) = some n ∧ read? (write n) = some n ∧ (m ≠ n → print m ≠ print n) ∧
    compare (read? (write m)) (read? (write n)) = compare (some m) (some n) := by
  refine ⟨?_, parse?_print n, read?_write n, mt eq_of_print_eq, ?_⟩
  · obtain ⟨negative, digits, hspell, -, hn⟩ := exists_spell n
    rw [toList_print, hspell, parse?_around hbefore hafter, hn]
  · rw [read?_write, read?_write]

/-- A negative key far beyond 64 bits, between white space that is no ASCII, against one that is greater by one. -/
theorem print_survives_large :
    (∀ c ∈ ['\u3000', '\t'], isBlank c = true) ∧ (∀ c ∈ ['\u00a0'], isBlank c = true) ∧
    parse? "\u3000\t-36893488147419103233nn\u00a0" = some (-36893488147419103233) ∧
    read? "\"-36893488147419103233\"".toList = some (-36893488147419103233) ∧
    print (-36893488147419103232) ≠ print (-36893488147419103233) ∧
    compare (read? (write (-36893488147419103232))) (read? (write (-36893488147419103233))) = .gt := by
  have hbefore : ∀ c ∈ ['\u3000', '\t'], isBlank c = true := List.all_eq_true.mp (by decide)
  have hafter : ∀ c ∈ ['\u00a0'], isBlank c = true := List.all_eq_true.mp (by decide)
  obtain ⟨hparse, -, hread, hprint, hcompare⟩ :=
    print_survives (-36893488147419103232) (-36893488147419103233) hbefore hafter 2
  have htext : String.ofList (['\u3000', '\t'] ++
      ((print (-36893488147419103233)).toList ++ List.replicate 2 'n') ++ ['\u00a0']) =
        "\u3000\t-36893488147419103233nn\u00a0" := by decide +kernel
  have hwire : write (-36893488147419103233) = "\"-36893488147419103233\"".toList := by decide +kernel
  rw [htext] at hparse
  refine ⟨hbefore, hafter, hparse, hwire ▸ hread, hprint (by decide), ?_⟩
  rw [hcompare]
  decide

end ClassSort.OrderKey
