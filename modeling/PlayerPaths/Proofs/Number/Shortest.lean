import Mathlib
import PlayerPaths.Number.Decimal
import PlayerPaths.Proofs.Number.Numerals

/-!
# Shortest decimal text

The digits that `Decimal.shortest` finds stand for a number between the midpoints to the neighbours
of the double (`Decimal.shortest_contained`): the grid of the seventeenth digit is finer than the
gap between the midpoints, so the search ends before it runs out of digits. A double with binary
digits behind the point has no whole number that near, so its text has digits behind the point as
well (`Decimal.exact_hasPoint`).
-/

namespace PlayerPaths.Decimal

/-! ## Exact values -/

namespace Ratio

def value (r : Ratio) : ℚ := r.numerator / r.denominator

theorem zpow_of_nonneg (b : ℚ) {e : Int} (h : 0 ≤ e) : b ^ e = b ^ e.toNat := by
  obtain ⟨n, rfl⟩ := Int.eq_ofNat_of_zero_le h
  simp

theorem zpow_of_neg (b : ℚ) {e : Int} (h : ¬ 0 ≤ e) : b ^ e = (b ^ (-e).toNat)⁻¹ := by
  obtain ⟨n, hn⟩ := Int.eq_ofNat_of_zero_le (show 0 ≤ -e by omega)
  obtain rfl : e = -(n : Int) := by omega
  simp

theorem value_binary (n : Nat) (e : Int) : (binary n e).value = n * 2 ^ e := by
  unfold binary
  split
  · next h => simp [value, zpow_of_nonneg 2 h]
  · next h => simp [value, zpow_of_neg 2 h, div_eq_mul_inv]

theorem value_decimal (n : Nat) (e : Int) : (decimal n e).value = n * 10 ^ e := by
  unfold decimal
  split
  · next h => simp [value, zpow_of_nonneg 10 h]
  · next h => simp [value, zpow_of_neg 10 h, div_eq_mul_inv]

theorem denominator_binary (n : Nat) (e : Int) : 0 < (binary n e).denominator := by
  unfold binary
  split
  · exact Nat.one_pos
  · exact Nat.pow_pos (by decide)

theorem denominator_decimal (n : Nat) (e : Int) : 0 < (decimal n e).denominator := by
  unfold decimal
  split
  · exact Nat.one_pos
  · exact Nat.pow_pos (by decide)

theorem lt_iff {a b : Ratio} (ha : 0 < a.denominator) (hb : 0 < b.denominator) :
    a.lt b = true ↔ a.value < b.value := by
  rw [lt, decide_eq_true_eq, value, value,
    div_lt_div_iff₀ (by exact_mod_cast ha) (by exact_mod_cast hb)]
  exact_mod_cast Iff.rfl

theorem le_iff {a b : Ratio} (ha : 0 < a.denominator) (hb : 0 < b.denominator) :
    a.le b = true ↔ a.value ≤ b.value := by
  rw [le, decide_eq_true_eq, value, value,
    div_le_div_iff₀ (by exact_mod_cast ha) (by exact_mod_cast hb)]
  exact_mod_cast Iff.rfl

/-- The quotient counts the multiples of `10 ^ e` up to the number. -/
theorem quotient_eq (r : Ratio) (e : Int) : r.quotient e = ⌊r.value / 10 ^ e⌋₊ := by
  unfold quotient
  split
  · next h =>
    rw [zpow_of_nonneg 10 h, value, div_div]
    norm_cast
  · next h =>
    rw [zpow_of_neg 10 h, value, div_inv_eq_mul, div_mul_eq_mul_div]
    norm_cast

end Ratio

/-- The magnitude of a number is a power of ten that is not above it. -/
theorem magnitude_le {r : Ratio} (hn : 0 < r.numerator) (hd : 0 < r.denominator) :
    (10 : ℚ) ^ magnitude r ≤ r.value := by
  simp only [magnitude]
  split
  · next h =>
    rw [Ratio.le_iff (Ratio.denominator_decimal _ _) hd, Ratio.value_decimal] at h
    simpa using h
  · obtain ⟨hnum, -, hpos⟩ := digitCount_bounds hn
    obtain ⟨-, hden, -⟩ := digitCount_bounds hd
    have hd' : (0 : ℚ) < r.denominator := by exact_mod_cast hd
    have hnum' : (10 : ℚ) ^ (digitCount r.numerator - 1) ≤ r.numerator := by exact_mod_cast hnum
    have hden' : (r.denominator : ℚ) ≤ 10 ^ digitCount r.denominator := by exact_mod_cast hden.le
    have hexponent : (digitCount r.numerator : Int) - digitCount r.denominator - 1 =
        (digitCount r.numerator - 1 : Nat) - (digitCount r.denominator : Nat) := by omega
    rw [hexponent, zpow_sub₀ (by norm_num), zpow_natCast, zpow_natCast, Ratio.value]
    exact div_le_div₀ (by positivity) hnum' hd' hden'

/-! ## The rounding interval -/

/-- Half of the gap to the lower neighbour, as a part of the last binary digit. -/
def lowerHalf (p : Double.Parts) : ℚ :=
  if p.significand = pow2 52 ∧ -1074 < p.exponent then 1 / 4 else 1 / 2

section

variable {p : Double.Parts}

theorem value_low (hp : 0 < p.significand) :
    (roundingInterval p).low.value = (p.significand - lowerHalf p) * 2 ^ p.exponent := by
  unfold roundingInterval lowerHalf
  split
  · rw [Ratio.value_binary, zpow_sub₀ (by norm_num), Nat.cast_sub (by omega)]
    push_cast
    ring
  · rw [Ratio.value_binary, zpow_sub₀ (by norm_num), Nat.cast_sub (by omega)]
    push_cast
    ring

theorem value_high : (roundingInterval p).high.value = (p.significand + 1 / 2) * 2 ^ p.exponent := by
  unfold roundingInterval
  rw [Ratio.value_binary, zpow_sub₀ (by norm_num)]
  push_cast
  ring

theorem denominator_low : 0 < (roundingInterval p).low.denominator := by
  unfold roundingInterval
  split <;> exact Ratio.denominator_binary _ _

theorem denominator_high : 0 < (roundingInterval p).high.denominator :=
  Ratio.denominator_binary _ _

/-- What lies strictly between the midpoints is in the interval. -/
theorem contains_of_lt (hp : 0 < p.significand) {n : Nat} {e : Int}
    (hlow : (p.significand - lowerHalf p) * 2 ^ p.exponent < n * (10 : ℚ) ^ e)
    (hhigh : n * (10 : ℚ) ^ e < (p.significand + 1 / 2) * 2 ^ p.exponent) :
    (roundingInterval p).contains (Ratio.decimal n e) = true := by
  rw [← value_low hp, ← Ratio.value_decimal] at hlow
  rw [← value_high, ← Ratio.value_decimal] at hhigh
  have hd := Ratio.denominator_decimal n e
  have hlow' := (Ratio.lt_iff denominator_low hd).mpr hlow
  have hhigh' := (Ratio.lt_iff hd denominator_high).mpr hhigh
  have hle := (Ratio.le_iff denominator_low hd).mpr hlow.le
  have hle' := (Ratio.le_iff hd denominator_high).mpr hhigh.le
  unfold Interval.contains
  split <;> simp [*]

/-- What is in the interval lies between the midpoints, or is one of them. -/
theorem le_of_contains (hp : 0 < p.significand) {n : Nat} {e : Int}
    (h : (roundingInterval p).contains (Ratio.decimal n e) = true) :
    (p.significand - 1 / 2) * 2 ^ p.exponent ≤ n * (10 : ℚ) ^ e ∧
      n * (10 : ℚ) ^ e ≤ (p.significand + 1 / 2) * 2 ^ p.exponent := by
  have hd := Ratio.denominator_decimal n e
  obtain ⟨hlow, hhigh⟩ : (roundingInterval p).low.value ≤ (Ratio.decimal n e).value ∧
      (Ratio.decimal n e).value ≤ (roundingInterval p).high.value := by
    unfold Interval.contains at h
    split at h
    · obtain ⟨hl, hh⟩ := by simpa using h
      exact ⟨(Ratio.le_iff denominator_low hd).mp hl, (Ratio.le_iff hd denominator_high).mp hh⟩
    · obtain ⟨hl, hh⟩ := by simpa using h
      exact ⟨((Ratio.lt_iff denominator_low hd).mp hl).le,
        ((Ratio.lt_iff hd denominator_high).mp hh).le⟩
  rw [value_low hp, Ratio.value_decimal] at hlow
  rw [value_high, Ratio.value_decimal] at hhigh
  refine ⟨le_trans ?_ hlow, hhigh⟩
  gcongr
  unfold lowerHalf
  split <;> norm_num

/-! ## The search -/

theorem contains_of_nearestOnGrid {tie : Tie} {i : Interval} {r : Ratio} {e : Int} {n : Nat}
    (h : nearestOnGrid tie i r e = some n) : i.contains (Ratio.decimal n e) = true := by
  simp only [nearestOnGrid] at h
  split at h
  · simp at h
  · next hbelow _ =>
    obtain rfl := Option.some.inj h
    exact hbelow
  · next _ habove =>
    obtain rfl := Option.some.inj h
    exact habove
  · next hbelow habove =>
    obtain rfl := Option.some.inj h
    unfold Tie.choose
    split
    · exact hbelow
    · exact habove
    · split
      · exact hbelow
      · exact habove

/-- The search ends with a number in the interval if some grid that it comes to has one. -/
theorem contains_of_shortestFrom {tie : Tie} {i : Interval} {r : Ratio} {top : Int}
    {fuel used k : Nat} (hused : used ≤ k) (hfuel : k < used + fuel)
    (hk : nearestOnGrid tie i r (top - k) ≠ none) {s : Scaled}
    (h : shortestFrom tie i r top fuel used = s) :
    i.contains (Ratio.decimal s.digits s.exponent) = true := by
  induction fuel generalizing used with
  | zero => omega
  | succ fuel ih =>
      unfold shortestFrom at h
      split at h
      · next n hn =>
        subst h
        exact contains_of_nearestOnGrid hn
      · next hnone =>
        have hne : used ≠ k := by
          rintro rfl
          exact hk hnone
        exact ih (by omega) (by omega) h

/-- The grid of the seventeenth digit is finer than the gap between the midpoints. -/
theorem grid_lt (hp : 0 < p.significand) (hs : p.significand < pow2 53) :
    (10 : ℚ) ^ (magnitude (Ratio.binary p.significand p.exponent) - 16) <
      (lowerHalf p + 1 / 2) * 2 ^ p.exponent := by
  have hpow : (0 : ℚ) < 2 ^ p.exponent := by positivity
  have hle : (10 : ℚ) ^ magnitude (Ratio.binary p.significand p.exponent) ≤
      p.significand * 2 ^ p.exponent := by
    rw [← Ratio.value_binary]
    refine magnitude_le ?_ (Ratio.denominator_binary _ _)
    unfold Ratio.binary
    split
    · exact Nat.mul_pos hp (Nat.pow_pos (by decide))
    · exact hp
  have hbound : (p.significand : ℚ) < (lowerHalf p + 1 / 2) * 10 ^ 16 := by
    unfold lowerHalf
    split
    · next h =>
      rw [h.1]
      norm_num
    · have hs' : (p.significand : ℚ) < pow2 53 := by exact_mod_cast hs
      refine hs'.trans ?_
      norm_num
  rw [zpow_sub₀ (by norm_num), div_lt_iff₀ (by positivity)]
  calc (10 : ℚ) ^ magnitude (Ratio.binary p.significand p.exponent)
      ≤ p.significand * 2 ^ p.exponent := hle
    _ < (lowerHalf p + 1 / 2) * 10 ^ 16 * 2 ^ p.exponent := by gcongr
    _ = (lowerHalf p + 1 / 2) * 2 ^ p.exponent * 10 ^ (16 : Int) := by norm_cast; ring

/-- Seventeen digits are enough. -/
theorem nearestOnGrid_ne_none (tie : Tie) (hp : 0 < p.significand) (hs : p.significand < pow2 53) :
    nearestOnGrid tie (roundingInterval p) (Ratio.binary p.significand p.exponent)
      (magnitude (Ratio.binary p.significand p.exponent) - 16) ≠ none := by
  have hgrid := grid_lt hp hs
  generalize magnitude (Ratio.binary p.significand p.exponent) - 16 = e at hgrid ⊢
  have hpow : (0 : ℚ) < 10 ^ e := by positivity
  have hpow2 : (0 : ℚ) < 2 ^ p.exponent := by positivity
  have hquotient := Ratio.quotient_eq (Ratio.binary p.significand p.exponent) e
  rw [Ratio.value_binary] at hquotient
  -- The number lies between two neighbours on the grid, of which one is near enough.
  have hlow : ((Ratio.binary p.significand p.exponent).quotient e : ℚ) * 10 ^ e ≤
      p.significand * 2 ^ p.exponent := by
    rw [hquotient, ← le_div_iff₀ hpow]
    exact Nat.floor_le (by positivity)
  have hhigh : (p.significand * 2 ^ p.exponent : ℚ) <
      ((Ratio.binary p.significand p.exponent).quotient e + 1 : Nat) * 10 ^ e := by
    rw [hquotient, ← div_lt_iff₀ hpow]
    push_cast
    exact Nat.lt_floor_add_one _
  have hhalf : 0 < lowerHalf p := by
    unfold lowerHalf
    split <;> norm_num
  have hcontains : (roundingInterval p).contains
        (Ratio.decimal ((Ratio.binary p.significand p.exponent).quotient e) e) = true ∨
      (roundingInterval p).contains
        (Ratio.decimal ((Ratio.binary p.significand p.exponent).quotient e + 1) e) = true := by
    by_cases hnear : (p.significand - lowerHalf p) * 2 ^ p.exponent <
        ((Ratio.binary p.significand p.exponent).quotient e : ℚ) * 10 ^ e
    · refine .inl (contains_of_lt hp hnear ?_)
      nlinarith
    · refine .inr (contains_of_lt hp ?_ ?_)
      · nlinarith
      · push_cast at hhigh ⊢
        nlinarith
  unfold nearestOnGrid
  rcases hcontains with h | h
  · simp only [h]
    split <;> simp_all
  · simp only [h]
    split <;> simp_all

/-- **The shortest digits round to the double.** -/
theorem shortest_contained (tie : Tie) (hp : 0 < p.significand) (hs : p.significand < pow2 53) :
    (roundingInterval p).contains
      (Ratio.decimal (shortest tie p).digits (shortest tie p).exponent) = true :=
  contains_of_shortestFrom (Nat.zero_le 16) (by decide) (nearestOnGrid_ne_none tie hp hs) rfl

/-- A double with binary digits behind the point is nearer to itself than to any whole number. -/
theorem ne_whole_of_contains (hwhole : p.isWhole = false) {n : Nat} {e : Int}
    (h : (roundingInterval p).contains (Ratio.decimal n e) = true) (m : Nat) :
    n * (10 : ℚ) ^ e ≠ m := by
  intro heq
  obtain ⟨hexponent, hmod⟩ : p.exponent < 0 ∧ p.significand % pow2 (-p.exponent).toNat ≠ 0 := by
    simpa [Double.Parts.isWhole] using hwhole
  have hp : 0 < p.significand := Nat.pos_of_ne_zero fun hzero => hmod (by simp [hzero])
  obtain ⟨hlow, hhigh⟩ := le_of_contains hp h
  have hscale : (0 : ℚ) < pow2 (-p.exponent).toNat := by exact_mod_cast Nat.pow_pos (by decide)
  rw [heq, Ratio.zpow_of_neg 2 (Int.not_le.mpr hexponent), ← div_eq_mul_inv] at hlow hhigh
  -- Counted in last binary digits, both are whole, and half a digit apart at most.
  have hlow' : (p.significand : ℚ) - 1 / 2 ≤ m * pow2 (-p.exponent).toNat := by
    rw [← div_le_iff₀ hscale]
    exact_mod_cast hlow
  have hhigh' : (m : ℚ) * pow2 (-p.exponent).toNat ≤ p.significand + 1 / 2 := by
    rw [← le_div_iff₀ hscale]
    exact_mod_cast hhigh
  have heq' : m * pow2 (-p.exponent).toNat = p.significand := by
    have hle : m * pow2 (-p.exponent).toNat < p.significand + 1 := by
      have : (m : ℚ) * pow2 (-p.exponent).toNat < p.significand + 1 := by linarith
      exact_mod_cast this
    have hge : p.significand < m * pow2 (-p.exponent).toNat + 1 := by
      have : (p.significand : ℚ) < m * pow2 (-p.exponent).toNat + 1 := by linarith
      exact_mod_cast this
    omega
  apply hmod
  rw [← heq']
  exact Nat.mul_mod_left _ _

end

/-! ## Digits around a point -/

/-- A text of digits with a point among them. -/
def HasPoint (text : String) : Prop :=
  ∃ whole fraction : List Char, text.toList = whole ++ '.' :: fraction ∧ whole ≠ [] ∧
    ∀ c ∈ whole ++ fraction, c.isDigit = true

theorem hasPoint_whole (n : Nat) : HasPoint (toString n ++ ".0") := by
  refine ⟨(toString n).toList, ['0'], by simp, ?_, ?_⟩
  · rw [Text.toList_toString]
    exact Nat.toDigits_ne_nil
  · intro c hc
    rcases List.mem_append.mp hc with hc | hc
    · exact Text.isDigit_of_mem_toString hc
    · obtain rfl := List.mem_singleton.mp hc
      rfl

/-- The digits of a number with zeros in front. -/
def padded (n places : Nat) : List Char :=
  List.replicate (places + 1 - (toString n).length) '0' ++ (toString n).toList

theorem ofDigitChars_padded (n places : Nat) : Nat.ofDigitChars 10 (padded n places) 0 = n := by
  rw [padded, Nat.ofDigitChars_append, Nat.ofDigitChars_replicate_zero, Nat.mul_zero,
    Text.toList_toString, Nat.ofDigitChars_ten_toDigits]

theorem lt_length_padded (n places : Nat) : places < (padded n places).length := by
  rw [padded, List.length_append, List.length_replicate, String.length_toList]
  omega

theorem isDigit_of_mem_padded {n places : Nat} {c : Char} (h : c ∈ padded n places) :
    c.isDigit = true := by
  rcases List.mem_append.mp h with h | h
  · rw [(List.mem_replicate.mp h).2]
    rfl
  · exact Text.isDigit_of_mem_toString h

/-- Digits that end in zeros only behind the point are those of a whole number. -/
theorem eq_mul_of_zeros {n places : Nat}
    (h : ∀ c ∈ (padded n places).drop ((padded n places).length - places), c = '0') :
    ∃ m, n = 10 ^ places * m := by
  have hlength := lt_length_padded n places
  have hzeros : (padded n places).drop ((padded n places).length - places) =
      List.replicate places '0' := by
    refine List.eq_replicate_iff.mpr ⟨?_, h⟩
    rw [List.length_drop]
    omega
  have hvalue := ofDigitChars_padded n places
  rw [← List.take_append_drop ((padded n places).length - places) (padded n places), hzeros,
    Nat.ofDigitChars_append, Nat.ofDigitChars_replicate_zero] at hvalue
  exact ⟨_, hvalue.symm⟩

/-- What is no whole number is written with a point. -/
theorem hasPoint_positional {s : Scaled} (h : ∀ m : Nat, s.digits * (10 : ℚ) ^ s.exponent ≠ m) :
    HasPoint s.positional := by
  have hexponent : ¬ 0 ≤ s.exponent := by
    intro hexponent
    apply h (s.digits * 10 ^ s.exponent.toNat)
    rw [Ratio.zpow_of_nonneg 10 hexponent]
    push_cast
    rfl
  generalize hplaces : (-s.exponent).toNat = places
  have hfraction : ¬ ((((padded s.digits places).drop ((padded s.digits places).length - places)
      ).reverse.dropWhile (· == '0')).reverse.isEmpty = true) := by
    intro hempty
    obtain ⟨m, hm⟩ := eq_mul_of_zeros (n := s.digits) (by simpa using hempty)
    apply h m
    rw [Ratio.zpow_of_neg 10 hexponent, hplaces, hm]
    push_cast
    rw [mul_comm, inv_mul_cancel_left₀ (by positivity)]
  have hlength := lt_length_padded s.digits places
  refine ⟨(padded s.digits places).take ((padded s.digits places).length - places),
    (((padded s.digits places).drop ((padded s.digits places).length - places)
      ).reverse.dropWhile (· == '0')).reverse, ?_, ?_, ?_⟩
  · simp only [Scaled.positional, if_neg hexponent, hplaces]
    rw [padded] at hfraction
    rw [if_neg hfraction]
    simp [padded]
  · rw [ne_eq, List.take_eq_nil_iff]
    rintro (hzero | hnil)
    · omega
    · simp [hnil] at hlength
  · intro c hc
    apply isDigit_of_mem_padded (n := s.digits)
    rcases List.mem_append.mp hc with hc | hc
    · exact List.mem_of_mem_take hc
    · rw [List.mem_reverse] at hc
      exact List.mem_of_mem_drop (List.mem_reverse.mp ((List.dropWhile_suffix _).mem hc))

/-- **Constants are written with a point.** -/
theorem exact_hasPoint {x : Float} {p : Double.Parts} (hx : Double.parts? x = some p)
    (hsign : p.negative = false) (hsignificand : p.significand < pow2 53) : HasPoint (exact x) := by
  simp only [exact, hx]
  split
  · rw [hsign]
    exact hasPoint_whole _
  · next hwhole =>
    have hp : 0 < p.significand := by
      refine Nat.pos_of_ne_zero fun hzero => hwhole ?_
      simp [Double.Parts.isWhole, hzero]
    simp only [text, hx, hp.ne', if_false, hsign]
    exact hasPoint_positional (ne_whole_of_contains (by simpa using hwhole)
      (shortest_contained .up hp hsignificand))

end PlayerPaths.Decimal
