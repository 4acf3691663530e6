import PlayerPaths.Proofs.Number.Nearest

/-!
# Fractions of natural numbers

A fraction of natural numbers is computed as the quotient of their doubles. Division keeps 53 or 54
binary digits and sums up the rest in two residual bits, so the outcome is the exact quotient,
rounded to the nearest double and to even (`roundedQuotient`, `unpack_div_ofNat`). Rounding is
monotone: fractions with one denominator ascend (`div_ofNat_le`), from 0 (`zero_div_ofNat`) to 1
(`div_ofNat_self`).
-/

namespace PlayerPaths.Double

open Std Float.Model UnpackedFloat

/-! ## Rounded quotients -/

/-- A quotient of natural numbers, with residual bits for what is left. -/
def extendedQuotient (a b : Nat) : ExtendedMantissa :=
  .ofMantissaAndAccuracy (a / b) (accuracyOfFraction (a % b) b)

/-- A quotient of natural numbers, rounded to the nearest one and to even. -/
def roundedQuotient (a b : Nat) : Nat := (extendedQuotient a b).roundedMantissa

/-- The residue of a quotient: its binary digits up to the first one behind the point, and whether
something is left. -/
def quotientResidue (a b : Nat) : Nat := 2 * (2 * a / b) + min (2 * a % b) 1

theorem residue_extendedQuotient (a : Nat) {b : Nat} (hb : 0 < b) :
    residue (extendedQuotient a b) = quotientResidue a b := by
  have hsplit : 2 * a = b * (2 * (a / b)) + 2 * (a % b) := by
    rw [Nat.mul_left_comm, ← Nat.mul_add, Nat.div_add_mod]
  have hlt := Nat.mod_lt a hb
  rw [extendedQuotient, quotientResidue, hsplit, Nat.mul_add_div hb, Nat.mul_add_mod]
  generalize a / b = q at *
  generalize a % b = r at *
  unfold accuracyOfFraction
  split
  · next hr =>
    subst hr
    simp [ExtendedMantissa.ofMantissaAndAccuracy, residue]
    omega
  · rcases Nat.lt_trichotomy (2 * r) b with h | h | h
    · rw [Nat.compare_eq_lt.mpr h, Nat.div_eq_of_lt h, Nat.mod_eq_of_lt h]
      simp only [ExtendedMantissa.ofMantissaAndAccuracy, residue, Bool.toNat_false,
        Bool.toNat_true]
      omega
    · rw [Nat.compare_eq_eq.mpr h, h, Nat.div_self hb, Nat.mod_self]
      simp only [ExtendedMantissa.ofMantissaAndAccuracy, residue, Bool.toNat_false,
        Bool.toNat_true]
      omega
    · have hdiv : 2 * r / b = 1 := Nat.div_eq_of_lt_le (by omega) (by omega)
      have hmod : 2 * r % b = 2 * r - b := by
        rw [Nat.mod_eq_sub_mod (by omega), Nat.mod_eq_of_lt (by omega)]
      rw [Nat.compare_eq_gt.mpr h, hdiv, hmod]
      simp only [ExtendedMantissa.ofMantissaAndAccuracy, residue, Bool.toNat_true]
      omega

theorem quotientResidue_le {a a' : Nat} (h : a ≤ a') (b : Nat) :
    quotientResidue a b ≤ quotientResidue a' b := by
  have hdiv : 2 * a / b ≤ 2 * a' / b := Nat.div_le_div_right (by omega)
  have hsplit := Nat.div_add_mod (2 * a) b
  have hsplit' := Nat.div_add_mod (2 * a') b
  unfold quotientResidue
  by_cases heq : 2 * a / b = 2 * a' / b
  · rw [heq] at hsplit ⊢
    omega
  · omega

theorem quotientResidue_mul (a b : Nat) {c : Nat} (hc : 0 < c) :
    quotientResidue (a * c) (b * c) = quotientResidue a b := by
  have hmin (m : Nat) : min (m * c) 1 = min m 1 := by
    rcases Nat.eq_zero_or_pos m with rfl | hm
    · simp
    · have := Nat.mul_pos hm hc
      omega
  rw [quotientResidue, ← Nat.mul_assoc, Nat.mul_div_mul_right _ _ hc, Nat.mul_mod_mul_right, hmin]
  rfl

/-- Equal fractions have equal residues. -/
theorem quotientResidue_congr {a b a' b' : Nat} (h : a * b' = a' * b) (hb : 0 < b)
    (hb' : 0 < b') : quotientResidue a b = quotientResidue a' b' := by
  rw [← quotientResidue_mul a b hb', h, Nat.mul_comm b, quotientResidue_mul a' b' hb]

/-- A shift of a quotient doubles its divisor. -/
theorem residue_extendedQuotient_shiftRight (a : Nat) {b : Nat} (hb : 0 < b) (k : Nat) :
    residue (extendedQuotient a b >>> k) = quotientResidue a (b * 2 ^ k) := by
  induction k with
  | zero =>
      rw [Nat.pow_zero, Nat.mul_one]
      exact residue_extendedQuotient a hb
  | succ k ih =>
      have hpos : 0 < b * 2 ^ k := Nat.mul_pos hb (Nat.two_pow_pos k)
      rw [shiftRight_succ, residue_shiftRightOne, ih, Nat.pow_succ, ← Nat.mul_assoc]
      generalize b * 2 ^ k = d at hpos ⊢
      rw [quotientResidue, quotientResidue, ← Nat.div_div_eq_div_mul, Nat.mod_mul]
      rcases Nat.mod_two_eq_zero_or_one (2 * a / d) with h | h <;> rw [h] <;> omega

theorem roundedMantissa_congr {em em' : ExtendedMantissa} (h : residue em = residue em') :
    em.roundedMantissa = em'.roundedMantissa := by
  rw [roundedMantissa_eq, roundedMantissa_eq, h]

theorem roundedMantissa_shiftRight (a : Nat) {b : Nat} (hb : 0 < b) (k : Nat) :
    (extendedQuotient a b >>> k).roundedMantissa = roundedQuotient a (b * 2 ^ k) := by
  have hpos : 0 < b * 2 ^ k := Nat.mul_pos hb (Nat.two_pow_pos k)
  apply roundedMantissa_congr
  rw [residue_extendedQuotient_shiftRight a hb, residue_extendedQuotient a hpos]

theorem roundedQuotient_congr {a b a' b' : Nat} (h : a * b' = a' * b) (hb : 0 < b)
    (hb' : 0 < b') : roundedQuotient a b = roundedQuotient a' b' := by
  apply roundedMantissa_congr
  rw [residue_extendedQuotient a hb, residue_extendedQuotient a' hb',
    quotientResidue_congr h hb hb']

section

variable {a a' b : Nat} (hb : 0 < b)

include hb

theorem roundedQuotient_le (h : a ≤ a') : roundedQuotient a b ≤ roundedQuotient a' b := by
  apply roundedMantissa_le
  rw [residue_extendedQuotient a hb, residue_extendedQuotient a' hb]
  exact quotientResidue_le h b

theorem roundedQuotient_mul (c : Nat) : roundedQuotient (c * b) b = c := by
  rw [roundedQuotient, extendedQuotient, Nat.mul_div_cancel c hb, Nat.mul_mod_left]
  rfl

end

/-- A quotient with 53 digits in front of the point. -/
def FullQuotient (a b : Nat) : Prop := 2 ^ 52 * b ≤ a ∧ a < 2 ^ 53 * b

namespace FullQuotient

variable {a b a' b' : Nat}

theorem congr (h : FullQuotient a b) (heq : a * b' = a' * b) (hb : 0 < b) (hb' : 0 < b') :
    FullQuotient a' b' := by
  constructor
  · apply Nat.le_of_mul_le_mul_right _ hb
    rw [← heq, Nat.mul_right_comm]
    exact Nat.mul_le_mul_right b' h.1
  · apply Nat.lt_of_mul_lt_mul_right (a := b)
    rw [← heq, Nat.mul_right_comm]
    exact Nat.mul_lt_mul_of_pos_right h.2 hb'

/-- Rounding leaves 53 digits, or carries into one more. -/
theorem rounded_bounds (h : FullQuotient a b) (hb : 0 < b) :
    2 ^ 52 ≤ roundedQuotient a b ∧ roundedQuotient a b ≤ 2 ^ 53 := by
  constructor
  · simpa only [roundedQuotient_mul hb] using roundedQuotient_le hb h.1
  · simpa only [roundedQuotient_mul hb] using roundedQuotient_le hb (Nat.le_of_lt h.2)

theorem log2_div (hb : 0 < b) {k : Nat} (h : FullQuotient a (b * 2 ^ k)) :
    (a / b).log2 = 52 + k := by
  have hle : 2 ^ (52 + k) ≤ a / b := by
    rw [Nat.le_div_iff_mul_le hb, Nat.pow_add, Nat.mul_assoc, Nat.mul_comm (2 ^ k)]
    exact h.1
  have hlt : a / b < 2 ^ (52 + k + 1) := by
    rw [Nat.div_lt_iff_lt_mul hb, show 52 + k + 1 = 53 + k by omega, Nat.pow_add,
      Nat.mul_assoc, Nat.mul_comm (2 ^ k)]
    exact h.2
  have hne : a / b ≠ 0 := Nat.ne_of_gt (Nat.lt_of_lt_of_le (Nat.two_pow_pos _) hle)
  exact (Nat.log2_eq_iff hne).mpr ⟨hle, hlt⟩

end FullQuotient

/-! ## Division -/

theorem divCore_eq {m₁ m₂ : Nat} {d e : Int} (h₁ : m₁.log2 = 52) (h₂ : m₂.log2 = 52)
    (he : -1000 ≤ d - e) : divCore Format.binary64 m₁ d m₂ e =
      (m₁ * 2 ^ 53 / m₂, d - e - 53, accuracyOfFraction (m₁ * 2 ^ 53 % m₂) m₂) := by
  have htarget : Format.binary64.targetExponent (totalExponent m₁ d - totalExponent m₂ e) =
      d - e - 53 := by
    simp [Format.targetExponent, totalExponent, Format.mantissaBits, Format.minExponent, h₁, h₂]
    omega
  have hmin : min (d - e) (d - e - 53) = d - e - 53 := by omega
  have hamount : (d - e - (d - e - 53)).toNat = 53 := by omega
  simp only [divCore, htarget, hmin, hamount, Nat.shiftLeft_eq]

/-- The quotient of significands has one digit more if they do not ascend. -/
theorem fullQuotient_significands {m₁ m₂ : Nat} (h₁ : 2 ^ 52 ≤ m₁ ∧ m₁ < 2 ^ 53)
    (h₂ : 2 ^ 52 ≤ m₂ ∧ m₂ < 2 ^ 53) :
    ∃ k ≤ 1, FullQuotient (m₁ * 2 ^ 53) (m₂ * 2 ^ k) := by
  unfold FullQuotient
  by_cases h : m₁ < m₂
  · exact ⟨0, by omega, by omega, by omega⟩
  · exact ⟨1, by omega, by omega, by omega⟩

/-- Division rounds the exact quotient of the significands. -/
theorem div_finite {m₁ m₂ : Nat} {d e : Int} (h₁ : 2 ^ 52 ≤ m₁ ∧ m₁ < 2 ^ 53)
    (h₂ : 2 ^ 52 ≤ m₂ ∧ m₂ < 2 ^ 53) (he : -1000 ≤ d - e) (hpos₁ : 0 < m₁) (hpos₂ : 0 < m₂)
    {k : Nat} (hk : FullQuotient (m₁ * 2 ^ 53) (m₂ * 2 ^ k)) {p : Int × Nat}
    (hp : carried (d - e - 53 + k) (roundedQuotient (m₁ * 2 ^ 53) (m₂ * 2 ^ k)) = p) :
    ∃ hpos, UnpackedFloat.div Format.binary64 (.finite .positive m₁ d hpos₁)
      (.finite .positive m₂ e hpos₂) = .finite .positive p.2 p.1 hpos := by
  subst hp
  have hpos : 0 < m₂ * 2 ^ k := Nat.mul_pos hpos₂ (Nat.two_pow_pos k)
  obtain ⟨hpos', hround⟩ := roundWithAccuracy_of_bounds (s := .positive) (e := d - e - 53)
    (hk.log2_div hpos₂) (by omega) (roundedMantissa_shiftRight _ hpos₂ k) (hk.rounded_bounds hpos)
  refine ⟨hpos', ?_⟩
  rw [← hround, UnpackedFloat.div, divCore_eq (log2_eq_of_bounds h₁) (log2_eq_of_bounds h₂) he]
  rfl

/-! ## Fractions -/

/-- The exponent and the significand of the double nearest to `i / n`, if a scale of `2 ^ t` gives
the fraction 53 digits. -/
def nearestFraction (i n t : Nat) : Int × Nat := carried (-t) (roundedQuotient (i * 2 ^ t) n)

/-- The significands of two numbers are in the ratio of the numbers, but for a power of two. -/
theorem significand_ratio {i n k t : Nat} (hi : Representable i) (hn : Representable n)
    (ht : t + k + i.log2 = 53 + n.log2) :
    significand i * 2 ^ 53 * n = i * 2 ^ t * (significand n * 2 ^ k) := by
  have hpow : 2 ^ t * 2 ^ k * 2 ^ (i.log2 + 1) = 2 ^ 53 * 2 ^ (n.log2 + 1) := by
    rw [← Nat.pow_add, ← Nat.pow_add, ← Nat.pow_add]
    congr 1
    omega
  have hpos : 0 < 2 ^ (i.log2 + 1) * 2 ^ 53 := Nat.mul_pos (Nat.two_pow_pos _) (Nat.two_pow_pos _)
  apply Nat.eq_of_mul_eq_mul_right hpos
  calc significand i * 2 ^ 53 * n * (2 ^ (i.log2 + 1) * 2 ^ 53)
      = significand i * 2 ^ (i.log2 + 1) * 2 ^ 53 * (n * 2 ^ 53) := by ring
    _ = i * 2 ^ 53 * 2 ^ 53 * (significand n * 2 ^ (n.log2 + 1)) := by
        rw [significand_mul hi, significand_mul hn]
    _ = i * 2 ^ 53 * significand n * (2 ^ 53 * 2 ^ (n.log2 + 1)) := by ring
    _ = i * 2 ^ 53 * significand n * (2 ^ t * 2 ^ k * 2 ^ (i.log2 + 1)) := by rw [hpow]
    _ = i * 2 ^ t * (significand n * 2 ^ k) * (2 ^ (i.log2 + 1) * 2 ^ 53) := by ring

section

variable {i n : Nat} (hi : i ≠ 0) (hin : i ≤ n) (hn : n ≤ 2 ^ 53)

include hi hin hn

/-- **A fraction is rounded to the nearest double.** -/
theorem unpack_div_ofNat : ∃ t, FullQuotient (i * 2 ^ t) n ∧ ∃ hpos,
    (Float.ofNat i / Float.ofNat n).toModel.unpack =
      .finite .positive (nearestFraction i n t).2 (nearestFraction i n t).1 hpos := by
  have hn0 : n ≠ 0 := by omega
  have hfiti := representable_of_le (Nat.le_trans hin hn)
  have hfitn := representable_of_le hn
  have hboundi := significand_bounds hi
  have hboundn := significand_bounds hn0
  have hlti := significand_lt hfiti
  have hltn := significand_lt hfitn
  have hlog : i.log2 ≤ n.log2 :=
    (Nat.le_log2 hn0).mpr (Nat.le_trans (Nat.log2_self_le hi) hin)
  have hlogn := log2_le_of_le hn0 hn
  obtain ⟨k, hk, hfull⟩ :=
    fullQuotient_significands ⟨hboundi.1, hlti⟩ ⟨hboundn.1, hltn⟩
  obtain ⟨t, ht⟩ : ∃ t, t + k + i.log2 = 53 + n.log2 := ⟨53 + n.log2 - i.log2 - k, by omega⟩
  have hratio := significand_ratio hfiti hfitn ht
  have hposn : 0 < significand n * 2 ^ k := Nat.mul_pos (by omega) (Nat.two_pow_pos k)
  have hscaled : FullQuotient (i * 2 ^ t) n := hfull.congr hratio hposn (by omega)
  have hbounds := hscaled.rounded_bounds (by omega)
  obtain ⟨hexp, hsig⟩ := carried_bounds (e := -t) hbounds
  refine ⟨t, hscaled, by unfold nearestFraction; omega, ?_⟩
  obtain ⟨hpos, hdiv⟩ := div_finite (d := (i.log2 : Int) - 52) (e := (n.log2 : Int) - 52)
    (p := nearestFraction i n t) ⟨hboundi.1, hlti⟩ ⟨hboundn.1, hltn⟩ (by omega) (by omega)
    (by omega) hfull (by
      rw [nearestFraction, roundedQuotient_congr hratio hposn (by omega)]
      congr 1
      omega)
  show (Float.Model.pack (UnpackedFloat.div Format.binary64 (Float.ofNat i).toModel.unpack
    (Float.ofNat n).toModel.unpack)).unpack = _
  have huni := unpack_ofNat hi (by omega)
  have hunn := unpack_ofNat hn0 (by omega)
  simp only [nearest_eq hfiti] at huni
  simp only [nearest_eq hfitn] at hunn
  rw [huni, hunn, hdiv]
  refine unpack_pack hpos hsig ?_
  unfold nearestFraction
  omega

theorem place?_div_ofNat : ∃ t, FullQuotient (i * 2 ^ t) n ∧
    place? (Float.ofNat i / Float.ofNat n) =
      some ((1, (nearestFraction i n t).1, ((nearestFraction i n t).2 : Int)) : Place) := by
  obtain ⟨t, ht, hpos, hunpack⟩ := unpack_div_ofNat hi hin hn
  exact ⟨t, ht, by rw [place?, hunpack, placeOf?]⟩

end

/-- A greater fraction needs no greater scale. -/
theorem FullQuotient.scale_le {i j n t u : Nat} (hi : FullQuotient (i * 2 ^ t) n)
    (hj : FullQuotient (j * 2 ^ u) n) (h : i ≤ j) : u ≤ t := by
  by_contra hlt
  have hpow : 2 ^ (t + 1) ≤ 2 ^ u := Nat.pow_le_pow_right (by decide) (by omega)
  have hscale : 2 * (i * 2 ^ t) ≤ j * 2 ^ u := by
    calc 2 * (i * 2 ^ t) = i * 2 ^ (t + 1) := by ring
      _ ≤ j * 2 ^ u := Nat.mul_le_mul h hpow
  have hlow := hi.1
  have hhigh := hj.2
  omega

theorem nearestFraction_le {i j n t u : Nat} (hn : 0 < n) (hi : FullQuotient (i * 2 ^ t) n)
    (hj : FullQuotient (j * 2 ^ u) n) (h : i ≤ j) :
    (nearestFraction i n t).1 < (nearestFraction j n u).1 ∨
      (nearestFraction i n t).1 = (nearestFraction j n u).1 ∧
        (nearestFraction i n t).2 ≤ (nearestFraction j n u).2 := by
  have hscale := hi.scale_le hj h
  -- Quotients are compared only where they have one scale.
  apply carried_le (hi.rounded_bounds hn) (hj.rounded_bounds hn) (by omega)
  intro heq
  obtain rfl : t = u := by omega
  exact roundedQuotient_le hn (Nat.mul_le_mul_right _ h)

section

variable {n : Nat} (hn0 : n ≠ 0) (hn : n ≤ 2 ^ 53)

include hn0 hn

theorem zero_div_ofNat : Float.ofNat 0 / Float.ofNat n = 0.0 := by
  have hlog := log2_le_of_le hn0 hn
  apply eq_of_unpack_eq
  show (Float.Model.pack (UnpackedFloat.div Format.binary64 (.zero .positive)
    (Float.ofNat n).toModel.unpack)).unpack = _
  rw [unpack_ofNat hn0 (by omega)]
  rfl

theorem div_ofNat_self : Float.ofNat n / Float.ofNat n = 1.0 := by
  obtain ⟨t, ⟨hlow, hhigh⟩, hpos, hunpack⟩ := unpack_div_ofNat hn0 (Nat.le_refl n) hn
  have hn' : 0 < n := Nat.pos_of_ne_zero hn0
  have ht : t = 52 := by
    rw [Nat.mul_comm n] at hlow hhigh
    have hlow := (Nat.pow_le_pow_iff_right (by decide)).mp (Nat.le_of_mul_le_mul_right hlow hn')
    have hhigh := (Nat.pow_lt_pow_iff_right (by decide)).mp (Nat.lt_of_mul_lt_mul_right hhigh)
    omega
  have hone : (1.0 : Float).toModel.unpack = .finite .positive (2 ^ 52) (-52) (by decide) := by rfl
  apply eq_of_unpack_eq
  rw [hunpack, hone]
  refine finite_congr ?_ _ _
  rw [nearestFraction, ht, Nat.mul_comm n, roundedQuotient_mul hn']
  rfl

/-- **Fractions ascend.** -/
theorem div_ofNat_le {i j : Nat} (hij : i ≤ j) (hjn : j ≤ n) :
    Float.ofNat i / Float.ofNat n ≤ Float.ofNat j / Float.ofNat n := by
  by_cases hj : j = 0
  · obtain rfl : i = 0 := by omega
    rw [hj, zero_div_ofNat hn0 hn]
    decide +kernel
  · obtain ⟨u, hu, hplacej⟩ := place?_div_ofNat hj hjn hn
    by_cases hi : i = 0
    · rw [hi, zero_div_ofNat hn0 hn]
      exact le_iff.mpr ⟨_, _, rfl, hplacej, Place.isLE_iff.mpr (.inl Int.zero_lt_one)⟩
    · obtain ⟨t, ht, hplacei⟩ := place?_div_ofNat hi (Nat.le_trans hij hjn) hn
      refine le_iff.mpr ⟨_, _, hplacei, hplacej, Place.isLE_iff.mpr (.inr ⟨rfl, ?_⟩)⟩
      have hle := nearestFraction_le (Nat.pos_of_ne_zero hn0) ht hu hij
      simp only
      omega

/-- No fraction is `-0`. -/
theorem normal_div_ofNat {i : Nat} (hin : i ≤ n) :
    normal (Float.ofNat i / Float.ofNat n) = Float.ofNat i / Float.ofNat n := by
  by_cases hi : i = 0
  · rw [hi, zero_div_ofNat hn0 hn]
    unfold normal
    split <;> rfl
  · obtain ⟨t, -, hpos, hunpack⟩ := unpack_div_ofNat hi hin hn
    refine if_neg fun hzero => ?_
    obtain ⟨s, hs⟩ := beq_zero_iff.mp hzero
    rw [hunpack] at hs
    cases hs

end

end PlayerPaths.Double
