import Mathlib.Algebra.Ring.Nat
import PlayerPaths.Number.Decimal
import PlayerPaths.Text.Quoted

/-!
# Numerals

A number is written with its decimal digits, as many as there are powers of ten up to it, and the
digits are read as the number again.
-/

namespace PlayerPaths

namespace Text

theorem toList_toString (n : Nat) : (toString n).toList = Nat.toDigits 10 n := by
  rw [Nat.toString_eq_ofList_toDigits, String.toList_ofList]

theorem isDigit_of_mem_toString {n : Nat} {c : Char} (h : c ∈ (toString n).toList) :
    c.isDigit = true := by
  rw [toList_toString] at h
  exact Nat.isDigit_of_mem_toDigits (by decide) (by decide) h

/-- A numeral that is read is below the limit. -/
theorem readNumeral?_lt {s : String} {limit n : Nat} (h : Text.readNumeral? limit s = some n) :
    n < limit := by
  simp only [Text.readNumeral?, Option.ite_none_left_eq_some, Option.ite_none_right_eq_some] at h
  obtain ⟨-, hlt, hn⟩ := h
  exact Option.some.inj hn ▸ hlt

/-- Digits are read as the number that they spell. -/
theorem readNumeral?_digits {s : String} (hne : s.toList ≠ [])
    (hdigit : ∀ c ∈ s.toList, c.isDigit = true) {limit : Nat}
    (h : Nat.ofDigitChars 10 s.toList 0 < limit) :
    Text.readNumeral? limit s = some (Nat.ofDigitChars 10 s.toList 0) := by
  obtain ⟨c, cs, htext⟩ := List.exists_cons_of_ne_nil hne
  have hsign : c ≠ '+' := by
    rintro rfl
    exact absurd (hdigit '+' (htext ▸ List.mem_cons_self)) (by decide)
  have hall : (c :: cs).all Char.isDigit = true := by simpa [htext] using hdigit
  rw [htext, Nat.ofDigitChars_eq_foldl] at h ⊢
  simp only [Text.readNumeral?, htext]
  split
  · next heq => exact absurd (List.cons.inj heq).1 hsign
  · rw [hall]
    exact if_pos h

/-- A numeral is read back. -/
theorem readNumeral?_toString {n limit : Nat} (h : n < limit) :
    Text.readNumeral? limit (toString n) = some n := by
  have hvalue : Nat.ofDigitChars 10 (toString n).toList 0 = n := by
    rw [toList_toString, Nat.ofDigitChars_ten_toDigits]
  have hne : (toString n).toList ≠ [] := by
    rw [toList_toString]
    exact Nat.toDigits_ne_nil
  have hread := readNumeral?_digits hne (fun c => isDigit_of_mem_toString) (hvalue.symm ▸ h)
  rwa [hvalue] at hread

/-- Different numbers have different numerals. -/
theorem toString_injective {n k : Nat} (h : toString n = toString k) : n = k := by
  have hn : readNumeral? (n + k + 1) (toString n) = some n := readNumeral?_toString (by omega)
  have hk : readNumeral? (n + k + 1) (toString k) = some k := readNumeral?_toString (by omega)
  exact Option.some.inj (hn.symm.trans (h ▸ hk))

end Text

/-- A number has as many digits as powers of ten up to it. -/
theorem Decimal.digitCount_bounds {n : Nat} (h : 0 < n) :
    10 ^ (digitCount n - 1) ≤ n ∧ n < 10 ^ digitCount n ∧ 0 < digitCount n := by
  have hcount : digitCount n = (Nat.toDigits 10 n).length := by
    rw [digitCount, ← String.length_toList, Text.toList_toString]
  have hpos : 0 < digitCount n := hcount ▸ Nat.length_toDigits_pos
  refine ⟨?_, (Nat.length_toDigits_le_iff (by decide) hpos).mp (Nat.le_of_eq hcount.symm), hpos⟩
  -- One digit less is too few, unless one digit is all there is.
  rcases Nat.eq_zero_or_pos (digitCount n - 1) with hzero | hone
  · rw [hzero]
    exact h
  · rw [← Nat.not_lt, ← Nat.length_toDigits_le_iff (by decide) hone]
    omega

end PlayerPaths
