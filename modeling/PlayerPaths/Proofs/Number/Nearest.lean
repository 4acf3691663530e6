import PlayerPaths.Proofs.Number.Sign

/-!
# The doubles nearest to integers

`Double.ofInt` keeps the first 53 binary digits of an integer, rounded to the nearest and to even.
`Double.nearest` is the outcome in closed form. Rounding respects the order, so that two integers
are compared like their doubles, unless both are rounded to one double (`Double.ofInt_lt_iff`,
`Double.ofInt_le_iff`); this does not happen to integers of at most 53 digits (`Double.ofInt_inj`).
No integer, however large, has NaN for its double (`Double.ofInt_le_self`).

The digits that a shift drops are summed up by two residual bits. Read as two more digits of the
mantissa they make one number, `residue`, which is all that rounding depends on, and shifts and
rounding are monotone in it.
-/

namespace PlayerPaths.Double

open Std Float.Model UnpackedFloat

/-! ## Shifts with rounding -/

/-- A mantissa and its residual bits as one number: the bits are two more digits of it. -/
def residue (em : ExtendedMantissa) : Nat :=
  4 * em.mantissa + 2 * em.roundBit.toNat + em.stickyBit.toNat

/-- A shift keeps the digits but the last two, and whether one of these is set. -/
theorem residue_shiftRightOne (em : ExtendedMantissa) :
    residue em.shiftRightOne = 2 * (residue em / 4) + min (residue em % 4) 1 := by
  obtain ⟨m, r, s⟩ := em
  have hodd : (m % 2 != 0).toNat = m % 2 := by
    rcases Nat.mod_two_eq_zero_or_one m with h | h <;> simp [h]
  cases r <;> cases s <;>
    simp only [residue, ExtendedMantissa.shiftRightOne, hodd, Bool.toNat_false, Bool.toNat_true,
      Bool.or_false, Bool.or_true] <;> omega

/-- A half is rounded up above an odd mantissa only. -/
theorem roundedMantissa_eq (em : ExtendedMantissa) :
    em.roundedMantissa = (residue em + 1 + residue em / 4 % 2) / 4 := by
  obtain ⟨m, r, s⟩ := em
  have hm : residue ⟨m, r, s⟩ / 4 = m := by
    cases r <;> cases s <;> simp only [residue, Bool.toNat_false, Bool.toNat_true] <;> omega
  rw [hm]
  cases r <;> cases s <;>
    simp only [residue, ExtendedMantissa.roundedMantissa, ExtendedMantissa.accuracy,
      Accuracy.roundToNearestEven, Bool.toNat_false, Bool.toNat_true] <;> omega

theorem roundedMantissa_le {em em' : ExtendedMantissa} (h : residue em ≤ residue em') :
    em.roundedMantissa ≤ em'.roundedMantissa := by
  rw [roundedMantissa_eq, roundedMantissa_eq]
  by_cases hdiv : residue em / 4 = residue em' / 4
  · rw [hdiv]
    exact Nat.div_le_div_right (by omega)
  · have := Nat.mod_lt (residue em / 4) (show 2 > 0 by decide)
    omega

theorem shiftRight_succ (em : ExtendedMantissa) (k : Nat) :
    em >>> (k + 1) = (em >>> k).shiftRightOne := rfl

theorem residue_shiftRight_le {em em' : ExtendedMantissa} (h : residue em ≤ residue em')
    (k : Nat) : residue (em >>> k) ≤ residue (em' >>> k) := by
  induction k with
  | zero => exact h
  | succ k ih =>
      rw [shiftRight_succ, shiftRight_succ, residue_shiftRightOne, residue_shiftRightOne]
      omega

/-- The quotient by a power of two, rounded to the nearest number and to even. -/
def rounded (m k : Nat) : Nat := (ExtendedMantissa.mk m false false >>> k).roundedMantissa

theorem rounded_le {m n : Nat} (h : m ≤ n) (k : Nat) : rounded m k ≤ rounded n k :=
  roundedMantissa_le (residue_shiftRight_le (by simpa [residue] using h) k)

/-- Shifting out zeros loses nothing. -/
theorem shiftRight_mul (m k : Nat) :
    ExtendedMantissa.mk (m * 2 ^ k) false false >>> k = ⟨m, false, false⟩ := by
  induction k generalizing m with
  | zero => simp [HShiftRight.hShiftRight, Nat.repeat]
  | succ k ih =>
      have hsplit : m * 2 ^ (k + 1) = 2 * m * 2 ^ k := by ring
      rw [shiftRight_succ, hsplit, ih]
      simp [ExtendedMantissa.shiftRightOne]

theorem rounded_mul (m k : Nat) : rounded (m * 2 ^ k) k = m := by
  rw [rounded, shiftRight_mul]
  rfl

/-! ## Rounding to 53 digits -/

/-- The exponent and the significand of a number whose significand has been rounded: if this has
54 digits, it is a power of two, and its last digit goes. -/
def carried (e : Int) (c : Nat) : Int × Nat := if c = 2 ^ 53 then (e + 1, 2 ^ 52) else (e, c)

theorem carried_bounds {e : Int} {c : Nat} (h : 2 ^ 52 ≤ c ∧ c ≤ 2 ^ 53) :
    (e ≤ (carried e c).1 ∧ (carried e c).1 ≤ e + 1) ∧
      2 ^ 52 ≤ (carried e c).2 ∧ (carried e c).2 < 2 ^ 53 := by
  unfold carried
  split <;> simp only <;> omega

/-- Carries keep the order: a carry makes the exponent greater, with the least significand. -/
theorem carried_le {e e' : Int} {c c' : Nat} (h : 2 ^ 52 ≤ c ∧ c ≤ 2 ^ 53)
    (h' : 2 ^ 52 ≤ c' ∧ c' ≤ 2 ^ 53) (he : e ≤ e') (hc : e = e' → c ≤ c') :
    (carried e c).1 < (carried e' c').1 ∨
      (carried e c).1 = (carried e' c').1 ∧ (carried e c).2 ≤ (carried e' c').2 := by
  unfold carried
  split <;> split <;> simp only <;> omega

/-- The bounds of a quotient with 53 digits. -/
theorem rounded_bounds {m k : Nat} (h : m.log2 = 52 + k) :
    2 ^ 52 ≤ rounded m k ∧ rounded m k ≤ 2 ^ 53 := by
  have hm : m ≠ 0 := by
    rintro rfl
    simp at h
    omega
  have hlow : 2 ^ 52 * 2 ^ k ≤ m := by
    rw [← Nat.pow_add, ← h]
    exact Nat.log2_self_le hm
  have hhigh : m ≤ 2 ^ 53 * 2 ^ k := by
    rw [← Nat.pow_add, show 53 + k = m.log2 + 1 by omega]
    exact Nat.le_of_lt Nat.lt_log2_self
  constructor
  · simpa only [rounded_mul] using rounded_le hlow k
  · simpa only [rounded_mul] using rounded_le hhigh k

theorem shiftToTargetExponent_eq {m k : Nat} {e : Int} (accuracy : Accuracy)
    (h : m.log2 = 52 + k) (he : -1074 ≤ e + k) :
    shiftToTargetExponent Format.binary64 m e accuracy =
      (ExtendedMantissa.ofMantissaAndAccuracy m accuracy >>> k, e + k) := by
  have htarget : Format.binary64.targetExponent (totalExponent m e) = e + k := by
    simp [Format.targetExponent, totalExponent, Format.mantissaBits, Format.minExponent]
    omega
  have hamount : (e + k - e).toNat = k := by omega
  rw [shiftToTargetExponent, htarget, shiftToExponent, hamount]

theorem log2_eq_of_bounds {c : Nat} (h : 2 ^ 52 ≤ c ∧ c < 2 ^ 53) : c.log2 = 52 :=
  (Nat.log2_eq_iff (by omega)).mpr h

/-- Rounding keeps the first 53 digits, and carries when they are all ones. -/
theorem roundWithAccuracy_of_bounds {s : Sign} {m k c : Nat} {e : Int} {accuracy : Accuracy}
    (h : m.log2 = 52 + k) (he : -1074 ≤ e + k)
    (hc : (ExtendedMantissa.ofMantissaAndAccuracy m accuracy >>> k).roundedMantissa = c)
    (hbounds : 2 ^ 52 ≤ c ∧ c ≤ 2 ^ 53) :
    ∃ hpos, roundWithAccuracy Format.binary64 s m e accuracy =
      .finite s (carried (e + k) c).2 (carried (e + k) c).1 hpos := by
  have hcarried := (carried_bounds (e := e + k) hbounds).2.1
  refine ⟨by omega, ?_⟩
  -- The second shift has nothing to do, or takes one zero off the significand `2 ^ 53`.
  have hsecond : shiftToTargetExponent Format.binary64 c (e + k) .exact =
      (⟨(carried (e + k) c).2, false, false⟩, (carried (e + k) c).1) := by
    unfold carried
    by_cases hmax : c = 2 ^ 53
    · rw [if_pos hmax, hmax,
        shiftToTargetExponent_eq (k := 1) .exact (Nat.log2_two_pow) (by omega)]
      rw [show 2 ^ 53 = 2 ^ 52 * 2 ^ 1 by rfl, ExtendedMantissa.ofMantissaAndAccuracy,
        shiftRight_mul]
      rfl
    · rw [if_neg hmax,
        shiftToTargetExponent_eq (k := 0) .exact (log2_eq_of_bounds (by omega)) (by omega)]
      simp [HShiftRight.hShiftRight, Nat.repeat, ExtendedMantissa.ofMantissaAndAccuracy]
  rw [roundWithAccuracy, shiftToTargetExponent_eq accuracy h he]
  simp only [hc, hsecond]
  rw [dif_neg (by omega)]

theorem roundWithAccuracy_eq {s : Sign} {m k : Nat} {e : Int} (h : m.log2 = 52 + k)
    (he : -1074 ≤ e + k) : ∃ hpos, roundWithAccuracy Format.binary64 s m e .exact =
      .finite s (carried (e + k) (rounded m k)).2 (carried (e + k) (rounded m k)).1 hpos :=
  roundWithAccuracy_of_bounds h he rfl (rounded_bounds h)

/-- A normal number is packed without loss. -/
theorem unpack_pack {s : Sign} {m : Nat} {e : Int} (hpos : 0 < m) (hm : 2 ^ 52 ≤ m ∧ m < 2 ^ 53)
    (he : -1074 ≤ e ∧ e ≤ 971) :
    (Float.Model.pack (.finite s m e hpos)).unpack = .finite s m e hpos := by
  obtain ⟨b, hb, hrange⟩ : ∃ b : Nat, e = (b : Int) - 1075 ∧ 1 ≤ b ∧ b ≤ 2046 :=
    ⟨(e + 1075).toNat, by omega, by omega, by omega⟩
  subst hb
  have hpacked : UnpackedFloat.pack Format.binary64 (.finite s m ((b : Int) - 1075) hpos) =
      packComponents Format.binary64 s (BitVec.ofNat 11 b) (BitVec.ofNat 52 m) := by
    have hbiased : ((b : Int) - 1075 + 1023 + 52).toNat = b := by omega
    simp only [UnpackedFloat.pack, Format.exponentBias, Format.mantissaBits,
      log2_eq_of_bounds hm]
    norm_num [hbiased]
    omega
  have hnat : (BitVec.ofNat 11 b).toNat = b := by
    rw [BitVec.toNat_ofNat]
    omega
  have hones : BitVec.ofNat 11 b ≠ -1#11 := by
    intro h
    have := congrArg BitVec.toNat h
    rw [hnat] at this
    simp at this
    omega
  have hzero : BitVec.ofNat 11 b ≠ 0#11 := by
    intro h
    have := congrArg BitVec.toNat h
    rw [hnat] at this
    simp at this
    omega
  have hmantissa : (1#1 ++ BitVec.ofNat 52 m).toNat = m := by
    rw [BitVec.toNat_append, BitVec.toNat_ofNat, ← Nat.shiftLeft_add_eq_or_of_lt]
    · simp
      omega
    · exact Nat.mod_lt _ (by decide)
  change UnpackedFloat.unpack Format.binary64 (UnpackedFloat.pack Format.binary64 _) = _
  rw [hpacked]
  simp only [UnpackedFloat.unpack, unpackExponent_packComponents, unpackMantissa_packComponents,
    unpackSign_packComponents, Sign.ofBitVec_toBitVec, if_neg hones, if_neg hzero, hmantissa,
    hnat]
  rfl

/-! ## Natural numbers -/

/-- The significand of a number, rounded to 53 digits. -/
def significand (n : Nat) : Nat := rounded (n * 2 ^ 53) (n.log2 + 1)

/-- The exponent and the significand of the double nearest to a number. -/
def nearest (n : Nat) : Int × Nat := carried (n.log2 - 52) (significand n)

theorem log2_mul_pow {n : Nat} (hn : n ≠ 0) (k : Nat) : (n * 2 ^ k).log2 = n.log2 + k := by
  apply (Nat.log2_eq_iff (Nat.mul_ne_zero hn (Nat.ne_of_gt (Nat.two_pow_pos k)))).mpr
  rw [Nat.pow_add, show n.log2 + k + 1 = n.log2 + 1 + k by omega, Nat.pow_add _ (n.log2 + 1)]
  exact ⟨Nat.mul_le_mul_right _ (Nat.log2_self_le hn),
    Nat.mul_lt_mul_of_pos_right Nat.lt_log2_self (Nat.two_pow_pos k)⟩

theorem significand_bounds {n : Nat} (hn : n ≠ 0) :
    2 ^ 52 ≤ significand n ∧ significand n ≤ 2 ^ 53 := by
  apply rounded_bounds
  rw [log2_mul_pow hn]
  omega

theorem nearest_pos {n : Nat} (hn : n ≠ 0) : 0 < (nearest n).2 := by
  have := (carried_bounds (e := n.log2 - 52) (significand_bounds hn)).2
  unfold nearest
  omega

/-- At most 53 digits stand before the zeros at the end. -/
def Representable (n : Nat) : Prop := 2 ^ (n.log2 + 1) ∣ n * 2 ^ 53

theorem log2_le_of_le {n k : Nat} (hn : n ≠ 0) (h : n ≤ 2 ^ k) : n.log2 ≤ k := by
  rw [← Nat.lt_succ_iff, Nat.log2_lt hn, Nat.pow_succ]
  have := Nat.two_pow_pos k
  omega

theorem representable_of_log2_le {n : Nat} (h : n.log2 ≤ 52) : Representable n :=
  Nat.dvd_mul_left_of_dvd (Nat.pow_dvd_pow 2 (by omega)) n

theorem representable_of_le {n : Nat} (h : n ≤ 2 ^ 53) : Representable n := by
  rcases Nat.lt_or_eq_of_le h with hlt | rfl
  · by_cases hn : n = 0
    · subst hn
      exact Nat.dvd_mul_right_of_dvd (Nat.dvd_zero _) _
    · exact representable_of_log2_le (Nat.le_of_lt_succ ((Nat.log2_lt hn).mpr hlt))
  · exact Nat.mul_dvd_mul (Nat.dvd_refl _) (by decide)

section

variable {n : Nat} (h : Representable n)

include h

/-- A number of at most 53 digits is not rounded. -/
theorem significand_mul : significand n * 2 ^ (n.log2 + 1) = n * 2 ^ 53 := by
  obtain ⟨q, hq⟩ := h
  rw [significand, hq, Nat.mul_comm _ q, rounded_mul]

theorem significand_lt : significand n < 2 ^ 53 := by
  apply Nat.lt_of_mul_lt_mul_right (a := 2 ^ (n.log2 + 1))
  rw [significand_mul h, Nat.mul_comm (2 ^ 53)]
  exact Nat.mul_lt_mul_of_pos_right Nat.lt_log2_self (Nat.two_pow_pos 53)

theorem nearest_eq : nearest n = ((n.log2 : Int) - 52, significand n) :=
  if_neg (Nat.ne_of_lt (significand_lt h))

theorem log2_significand (hn : n ≠ 0) : (significand n).log2 = 52 :=
  log2_eq_of_bounds ⟨(significand_bounds hn).1, significand_lt h⟩

end

/-- Rounding keeps representable numbers apart. -/
theorem nearest_inj {m n : Nat} (hm : Representable m) (hn : Representable n)
    (h : nearest m = nearest n) : m = n := by
  rw [nearest_eq hm, nearest_eq hn, Prod.mk.injEq] at h
  have hlog : m.log2 = n.log2 := by omega
  apply Nat.eq_of_mul_eq_mul_right (Nat.two_pow_pos 53)
  rw [← significand_mul hm, ← significand_mul hn, hlog, h.2]

/-- Packing the double nearest to a number loses nothing. -/
theorem unpack_pack_nearest {n : Nat} (s : Sign) (hn : n ≠ 0) (hlog : n.log2 ≤ 1000) :
    (Float.Model.pack (.finite s (nearest n).2 (nearest n).1 (nearest_pos hn))).unpack =
      .finite s (nearest n).2 (nearest n).1 (nearest_pos hn) := by
  obtain ⟨hexp, hsig⟩ := carried_bounds (e := n.log2 - 52) (significand_bounds hn)
  apply unpack_pack _ hsig
  unfold nearest
  omega

theorem finite_congr {s : Sign} {m m' : Nat} {e e' : Int} (h : (e, m) = (e', m')) (hm : 0 < m)
    (hm' : 0 < m') : UnpackedFloat.finite s m e hm = .finite s m' e' hm' := by
  cases h
  rfl

theorem ofNat_eq {n : Nat} (hn : n ≠ 0) (h : n.log2 ≤ 52) :
    UnpackedFloat.ofNat Format.binary64 n =
      .finite .positive (nearest n).2 (nearest n).1 (nearest_pos hn) := by
  have hfits := representable_of_log2_le h
  have hcompare : compare (n : Int) 0 = .gt := Int.compare_eq_gt.mpr (by omega)
  have htarget : Format.binary64.targetExponent (totalExponent n 0) = n.log2 - 52 := by
    simp [Format.targetExponent, totalExponent, Format.mantissaBits, Format.minExponent]
    omega
  have hamount : (0 - ((n.log2 : Int) - 52)).toNat = 52 - n.log2 := by omega
  have hsig : n * 2 ^ (52 - n.log2) = significand n := by
    apply Nat.eq_of_mul_eq_mul_right (Nat.two_pow_pos (n.log2 + 1))
    rw [significand_mul hfits, Nat.mul_assoc, ← Nat.pow_add]
    congr 2
    omega
  have hrounded : rounded (significand n) 0 = significand n := by
    simpa using rounded_mul (significand n) 0
  obtain ⟨hpos, hround⟩ := roundWithAccuracy_eq (s := .positive) (e := n.log2 - 52)
    (show (significand n).log2 = 52 + 0 from log2_significand hfits hn) (by omega)
  simp only [UnpackedFloat.ofNat, UnpackedFloat.ofInt, UnpackedFloat.normalize, hcompare,
    UnpackedFloat.round, decreaseExponent, Int.toNat_natCast, htarget, hamount,
    Nat.shiftLeft_eq, hsig]
  rw [show (0 : Int) - (52 - n.log2 : Nat) = n.log2 - 52 by omega, hround]
  refine finite_congr ?_ _ _
  rw [hrounded, nearest, Int.natCast_zero, Int.add_zero]

/-- Multiplication by one changes nothing. -/
theorem mul_one_eq {n : Nat} (hn : n ≠ 0) (h : n.log2 ≤ 52) (hone : 0 < 2 ^ 52) :
    UnpackedFloat.mul Format.binary64
        (.finite .positive (nearest n).2 (nearest n).1 (nearest_pos hn))
        (.finite .positive (2 ^ 52) (-52) hone) =
      .finite .positive (nearest n).2 (nearest n).1 (nearest_pos hn) := by
  have hfits := representable_of_log2_le h
  have hpair := nearest_eq hfits
  have hlt := significand_lt hfits
  have hlog : ((nearest n).2 * 2 ^ 52).log2 = 52 + 52 := by
    rw [log2_mul_pow (Nat.ne_of_gt (nearest_pos hn)), hpair, log2_significand hfits hn]
  obtain ⟨hpos, hround⟩ := roundWithAccuracy_eq (s := .positive) (e := (nearest n).1 + -52) hlog
    (by rw [hpair]; simp only; omega)
  refine hround.trans (finite_congr ?_ _ _)
  rw [rounded_mul, hpair, carried, if_neg (Nat.ne_of_lt hlt)]
  simp

theorem ofScientific_eq {n : Nat} (hn : n ≠ 0) : UnpackedFloat.ofScientific Format.binary64 n 0 =
    roundWithAccuracy Format.binary64 .positive (n * 2 ^ 53) (-53) .exact := by
  have hlarge : ¬ (0 : Int) > 2 ^ Format.binary64.exponentBits := by decide
  have hsmall : ¬ (0 : Int) < -(2 ^ Format.binary64.exponentBits + (n.log2 : Int)) := by
    have : (0 : Int) ≤ 2 ^ Format.binary64.exponentBits := by decide
    omega
  have hone : (10 : Nat) ^ (0 : Int).toNat = 1 := rfl
  have hdigits : Format.binary64.mantissaBits = 53 := rfl
  rw [UnpackedFloat.ofScientific, dif_neg hn, if_neg hlarge, if_neg hsmall,
    if_pos (Int.le_refl 0)]
  simp only [UnpackedFloat.mul, Nat.shiftLeft_eq, hone, Nat.mul_one, Int.add_zero, hdigits]
  rfl

theorem unpack_ofNat {n : Nat} (hn : n ≠ 0) (hlog : n.log2 ≤ 1000) :
    (Float.ofNat n).toModel.unpack =
      .finite .positive (nearest n).2 (nearest n).1 (nearest_pos hn) := by
  unfold Float.ofNat OfScientific.ofScientific instOfScientificFloat Float.ofScientific
  simp only
  -- Below `2 ^ 53` the number is converted as a word and multiplied by one.
  split
  · next h =>
    have h53 : n.log2 ≤ 52 := Nat.le_of_lt_succ ((Nat.log2_lt hn).mpr h.1)
    have hword : UnpackedFloat.ofUInt64 Format.binary64 n.toUInt64 =
        UnpackedFloat.ofNat Format.binary64 n := by
      rw [UnpackedFloat.ofUInt64]
      congr 1
      simp
      omega
    have hone : (Float.ofBits 0x3FF0000000000000).toModel.unpack =
        .finite .positive (2 ^ 52) (-52) (by decide) := by rfl
    show (Float.Model.pack (mul Format.binary64
      (Float.Model.pack (UnpackedFloat.ofUInt64 Format.binary64 n.toUInt64)).unpack
      (Float.ofBits 0x3FF0000000000000).toModel.unpack)).unpack = _
    rw [hone, hword, ofNat_eq hn h53, unpack_pack_nearest _ hn hlog, mul_one_eq hn h53,
      unpack_pack_nearest _ hn hlog]
  · next h =>
    have hlog' : (n * 2 ^ 53).log2 = 52 + (n.log2 + 1) := by
      rw [log2_mul_pow hn]
      omega
    obtain ⟨hpos, hround⟩ := roundWithAccuracy_eq (s := .positive) (e := -53) hlog' (by omega)
    show (Float.Model.pack (UnpackedFloat.ofScientific Format.binary64 n 0)).unpack = _
    rw [ofScientific_eq hn, hround, ← unpack_pack_nearest .positive hn hlog]
    congr 2
    refine finite_congr ?_ _ _
    rw [show -53 + ((n.log2 + 1 : Nat) : Int) = n.log2 - 52 by omega]
    rfl

/-! ## Places -/

theorem Place.isLE_iff {p q : Place} : (Place.order p q).isLE = true ↔
    p.1 < q.1 ∨ p.1 = q.1 ∧ (p.2.1 < q.2.1 ∨ p.2.1 = q.2.1 ∧ p.2.2 ≤ q.2.2) := by
  obtain ⟨a, b, c⟩ := p
  obtain ⟨a', b', c'⟩ := q
  simp only [Place.order, compareLex, compareOn]
  rcases Int.lt_trichotomy a a' with h | rfl | h
  · simp [Int.compare_eq_lt.mpr h, h]
  · rcases Int.lt_trichotomy b b' with h | rfl | h
    · simp [Int.compare_eq_lt.mpr h, h]
    · rcases Int.lt_trichotomy c c' with h | rfl | h
      · simp [Int.compare_eq_lt.mpr h, Int.le_of_lt h]
      · simp
      · simp [Int.compare_eq_gt.mpr h, h]
    · simp [Int.compare_eq_gt.mpr h]
      omega
  · simp [Int.compare_eq_gt.mpr h]
    omega

theorem Place.eq_of_isLE {p q : Place} (h : (Place.order p q).isLE = true)
    (h' : (Place.order q p).isLE = true) : p = q := by
  obtain ⟨a, b, c⟩ := p
  obtain ⟨a', b', c'⟩ := q
  simp only [isLE_iff] at h h'
  simp only [Prod.mk.injEq]
  omega

theorem Place.lt_of_isLE {p q : Place} (h : (Place.order p q).isLE = true) (hne : p ≠ q) :
    Place.order p q = .lt := by
  cases hpq : Place.order p q with
  | lt => rfl
  | eq =>
      have hswap : Place.order q p = (Place.order p q).swap := OrientedCmp.eq_swap
      have hqp : Place.order q p = .eq := by rw [hswap, hpq]; rfl
      exact absurd (Place.eq_of_isLE h (by rw [hqp]; rfl)) hne
  | gt =>
      rw [hpq] at h
      cases h

/-! ## Integers -/

theorem log2_natAbs {i : Int} (h : Word.inRange i = true) : i.natAbs.log2 ≤ 63 := by
  have hmin : Word.minInt = -9223372036854775808 := by decide
  have hmax : Word.maxInt = 9223372036854775807 := by decide
  simp only [Word.inRange, hmin, hmax, Bool.and_eq_true, decide_eq_true_eq] at h
  by_cases hi : i.natAbs = 0
  · rw [hi]
    decide
  · exact Nat.le_of_lt_succ ((Nat.log2_lt hi).mpr (by omega))

/-- The sign of an integer other than zero. -/
def intSign (i : Int) : Sign := if 0 < i then .positive else .negative

theorem unpack_ofInt {i : Int} (hi : i ≠ 0) (h : Word.inRange i = true) :
    (ofInt i).toModel.unpack = .finite (intSign i) (nearest i.natAbs).2 (nearest i.natAbs).1
      (nearest_pos (Int.natAbs_ne_zero.mpr hi)) := by
  have hlog : i.natAbs.log2 ≤ 1000 := Nat.le_trans (log2_natAbs h) (by decide)
  cases i with
  | ofNat n =>
      have hn : n ≠ 0 := fun hn => hi (by rw [hn]; rfl)
      rw [intSign, if_pos (by simpa using Nat.pos_of_ne_zero hn)]
      exact unpack_ofNat hn hlog
  | negSucc n =>
      have hsucc : n + 1 ≠ 0 := Nat.succ_ne_zero n
      show (Float.Model.pack (Float.ofNat (n + 1)).toModel.unpack.neg).unpack = _
      rw [unpack_ofNat hsucc hlog]
      exact unpack_pack_nearest .negative hsucc hlog

/-- The place of the double nearest to an integer. -/
def intPlace (i : Int) : Place :=
  (i.sign, i.sign * (nearest i.natAbs).1, i.sign * (nearest i.natAbs).2)

theorem place?_ofInt {i : Int} (h : Word.inRange i = true) :
    place? (ofInt i) = some (intPlace i) := by
  rcases Int.lt_trichotomy i 0 with hi | rfl | hi
  · rw [place?, unpack_ofInt (Int.ne_of_lt hi) h, intSign, if_neg (by omega)]
    simp [placeOf?, intPlace, Int.sign_eq_neg_one_of_neg hi]
  · rfl
  · rw [place?, unpack_ofInt (Int.ne_of_gt hi) h, intSign, if_pos hi]
    simp [placeOf?, intPlace, Int.sign_eq_one_of_pos hi]

theorem intPlace_eq_iff {i j : Int} : intPlace i = intPlace j ↔
    i.sign = j.sign ∧ (i ≠ 0 → nearest i.natAbs = nearest j.natAbs) := by
  simp only [intPlace, Prod.mk.injEq]
  refine and_congr_right fun hsign => ?_
  rw [← hsign]
  by_cases hi : i = 0
  · simp [hi]
  · have hne : i.sign ≠ 0 := fun h => hi (Int.sign_eq_zero_iff_zero.mp h)
    simp [hi, hne, Prod.ext_iff]

/-- Rounding respects the order. -/
theorem nearest_le {m n : Nat} (hm : m ≠ 0) (h : m ≤ n) : (nearest m).1 < (nearest n).1 ∨
    (nearest m).1 = (nearest n).1 ∧ (nearest m).2 ≤ (nearest n).2 := by
  have hn : n ≠ 0 := by omega
  have hlog : m.log2 ≤ n.log2 := (Nat.le_log2 hn).mpr (Nat.le_trans (Nat.log2_self_le hm) h)
  -- Significands are compared only where there are as many digits.
  apply carried_le (significand_bounds hm) (significand_bounds hn) (by omega)
  intro heq
  rw [significand, significand, show m.log2 = n.log2 by omega]
  exact rounded_le (Nat.mul_le_mul_right _ h) _

theorem intPlace_le {i j : Int} (h : i ≤ j) :
    (Place.order (intPlace i) (intPlace j)).isLE = true := by
  rw [Place.isLE_iff]
  rcases Int.lt_trichotomy i 0 with hi | rfl | hi
  · rcases Int.lt_or_le j 0 with hj | hj
    · have hle := nearest_le (m := j.natAbs) (n := i.natAbs) (by omega) (by omega)
      simp only [intPlace, Int.sign_eq_neg_one_of_neg hi, Int.sign_eq_neg_one_of_neg hj]
      refine .inr ⟨trivial, ?_⟩
      omega
    · left
      have hsign := Int.sign_nonneg_iff.mpr hj
      simp only [intPlace, Int.sign_eq_neg_one_of_neg hi]
      omega
  · rcases Int.lt_or_eq_of_le h with hj | rfl
    · left
      simp [intPlace, Int.sign_eq_one_of_pos hj]
    · simp
  · have hj : 0 < j := by omega
    have hle := nearest_le (m := i.natAbs) (n := j.natAbs) (by omega) (by omega)
    simp only [intPlace, Int.sign_eq_one_of_pos hi, Int.sign_eq_one_of_pos hj]
    refine .inr ⟨trivial, ?_⟩
    omega

section

variable {i j : Int} (hi : Word.inRange i = true) (hj : Word.inRange j = true)

include hi hj

/-- Integers with one place have one double. -/
theorem ofInt_eq_iff : ofInt i = ofInt j ↔ intPlace i = intPlace j := by
  constructor
  · intro h
    have hplace := place?_ofInt hi
    rw [h, place?_ofInt hj] at hplace
    exact (Option.some.inj hplace).symm
  · intro h
    obtain ⟨hsign, hnearest⟩ := intPlace_eq_iff.mp h
    by_cases hi0 : i = 0
    · subst hi0
      obtain rfl : j = 0 := Int.sign_eq_zero_iff_zero.mp hsign.symm
      rfl
    · have hj0 : j ≠ 0 := fun hj0 => hi0 (Int.sign_eq_zero_iff_zero.mp (by rw [hsign, hj0]; rfl))
      have hpos : 0 < i ↔ 0 < j := by
        rw [← Int.sign_eq_one_iff_pos, ← Int.sign_eq_one_iff_pos, hsign]
      apply eq_of_unpack_eq
      rw [unpack_ofInt hi0 hi, unpack_ofInt hj0 hj, intSign, intSign, if_congr hpos rfl rfl]
      exact finite_congr (hnearest hi0) _ _

/-- **Rounding to doubles is monotone.** -/
theorem ofInt_le (h : i ≤ j) : ofInt i ≤ ofInt j :=
  le_iff.mpr ⟨_, _, place?_ofInt hi, place?_ofInt hj, intPlace_le h⟩

theorem ofInt_le_iff : ofInt i ≤ ofInt j ↔ i ≤ j ∨ ofInt i = ofInt j := by
  constructor
  · intro h
    rcases Int.le_total i j with hle | hge
    · exact .inl hle
    · obtain ⟨p, q, hp, hq, hpq⟩ := le_iff.mp h
      obtain rfl := Option.some.inj ((place?_ofInt hi).symm.trans hp)
      obtain rfl := Option.some.inj ((place?_ofInt hj).symm.trans hq)
      exact .inr ((ofInt_eq_iff hi hj).mpr (Place.eq_of_isLE hpq (intPlace_le hge)))
  · rintro (h | h)
    · exact ofInt_le hi hj h
    · rw [h]
      exact ofInt_le hj hj (Int.le_refl j)

theorem ofInt_lt_iff : ofInt i < ofInt j ↔ i < j ∧ ofInt i ≠ ofInt j := by
  constructor
  · intro h
    refine ⟨Int.not_le.mp fun hle => not_lt_of_le (ofInt_le hj hi hle) h, fun heq => ?_⟩
    exact lt_irrefl _ (heq ▸ h)
  · rintro ⟨h, hne⟩
    have hle := intPlace_le (Int.le_of_lt h)
    refine lt_iff.mpr ⟨_, _, place?_ofInt hi, place?_ofInt hj, ?_⟩
    exact Place.lt_of_isLE hle fun heq => hne ((ofInt_eq_iff hi hj).mpr heq)

/-- Integers of at most 53 digits are kept apart. -/
theorem ofInt_inj (hfiti : Representable i.natAbs) (hfitj : Representable j.natAbs) :
    ofInt i = ofInt j ↔ i = j := by
  refine ⟨fun h => ?_, fun h => by rw [h]⟩
  obtain ⟨hsign, hnearest⟩ := intPlace_eq_iff.mp ((ofInt_eq_iff hi hj).mp h)
  rw [← Int.sign_mul_natAbs i, ← Int.sign_mul_natAbs j, hsign]
  by_cases hi0 : i = 0
  · subst hi0
    rw [← hsign]
    simp
  · rw [nearest_inj hfiti hfitj (hnearest hi0)]

end

/-! ## Integers are numbers -/

/-- Only NaN is packed into NaN. -/
theorem unpack_pack_ne_nan {u : UnpackedFloat} (h : u ≠ .notANumber) :
    (Float.Model.pack u).unpack ≠ .notANumber := by
  change UnpackedFloat.unpack Format.binary64 (UnpackedFloat.pack Format.binary64 u) ≠ _
  have hother : ∀ {s : Sign} {exponent : BitVec 11} {mantissa : BitVec 52}, exponent ≠ -1#11 →
      UnpackedFloat.unpack Format.binary64 (packComponents Format.binary64 s exponent mantissa) ≠
        .notANumber := by
    intro s exponent mantissa hne
    simp only [UnpackedFloat.unpack, unpackExponent_packComponents,
      unpackMantissa_packComponents, if_neg hne]
    split
    · split <;> simp
    · simp
  have hinfinity : ∀ s, UnpackedFloat.unpack Format.binary64 (packedInfinity Format.binary64 s) ≠
      .notANumber := by
    intro s
    simp [UnpackedFloat.unpack, packedInfinity]
  cases u with
  | notANumber => exact absurd rfl h
  | infinity s => exact hinfinity s
  | zero s => exact hother (by decide)
  | finite s m e hm =>
      simp only [UnpackedFloat.pack]
      split
      · exact hinfinity s
      · next hfits =>
        split
        · refine hother fun heq => ?_
          have hnat := congrArg BitVec.toNat heq
          rw [BitVec.toNat_ofNat] at hnat
          simp at hnat hfits
          omega
        · exact hother (by decide)

theorem roundWithAccuracy_ne_nan {s : Sign} {m : Nat} {e : Int} {a : Accuracy} :
    roundWithAccuracy Format.binary64 s m e a ≠ .notANumber := by
  simp only [roundWithAccuracy]
  split <;> simp

theorem unpack_ofNat_ne_nan (n : Nat) : (Float.ofNat n).toModel.unpack ≠ .notANumber := by
  by_cases hn : n = 0
  · subst hn
    intro h
    cases h
  by_cases hlog : n.log2 ≤ 1000
  · rw [unpack_ofNat hn hlog]
    simp
  · unfold Float.ofNat OfScientific.ofScientific instOfScientificFloat Float.ofScientific
    simp only
    split
    · next h =>
      have h53 : n.log2 ≤ 52 := Nat.le_of_lt_succ ((Nat.log2_lt hn).mpr h.1)
      omega
    · show (Float.Model.pack (UnpackedFloat.ofScientific Format.binary64 n 0)).unpack ≠ _
      rw [ofScientific_eq hn]
      exact unpack_pack_ne_nan roundWithAccuracy_ne_nan

/-- The double nearest to an integer is no NaN. -/
theorem ofInt_le_self (i : Int) : ofInt i ≤ ofInt i := by
  have hnan : (ofInt i).toModel.unpack ≠ .notANumber := by
    cases i with
    | ofNat n => exact unpack_ofNat_ne_nan n
    | negSucc n =>
        show (Float.Model.pack (Float.ofNat (n + 1)).toModel.unpack.neg).unpack ≠ _
        refine unpack_pack_ne_nan ?_
        have hnat := unpack_ofNat_ne_nan (n + 1)
        revert hnat
        cases (Float.ofNat (n + 1)).toModel.unpack <;> simp [UnpackedFloat.neg]
  obtain ⟨p, hp⟩ : ∃ p, place? (ofInt i) = some p := by
    unfold place?
    revert hnan
    rcases (ofInt i).toModel.unpack with (_ | _) | _ | _ | ⟨_ | _, _⟩ <;> simp [placeOf?]
  exact le_iff.mpr ⟨p, p, hp, hp, by simp [ReflCmp.compare_self]⟩

end PlayerPaths.Double
