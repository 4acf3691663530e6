import Mathlib
import PlayerPaths.Proofs.Number.DoubleOrder

/-!
# Signs of doubles

The sign of a double is one bit, and the magnitude and the contrary differ from a number in that bit
only (`Double.bitsOf_abs`, `Double.bitsOf_neg`). Hence a negative number is the contrary of its
magnitude, and every other number but `-0` is its magnitude.
-/

namespace PlayerPaths.Double

open Float.Model UnpackedFloat

abbrev Bits := BitVec Format.binary64.numBits

/-- The bits of a double with another sign. -/
def setSign (s : Sign) (b : Bits) : Bits :=
  packComponents Format.binary64 s (unpackExponent b) (unpackMantissa b)

theorem setSign_setSign (s t : Sign) (b : Bits) : setSign s (setSign t b) = setSign s b := by
  simp only [setSign, unpackExponent_packComponents, unpackMantissa_packComponents]

def withSign (s : Sign) : UnpackedFloat → UnpackedFloat
  | .notANumber => .notANumber
  | .infinity _ => .infinity s
  | .zero _ => .zero s
  | .finite _ m e hm => .finite s m e hm

/-- The sign is a field of its own. -/
theorem unpack_setSign (s : Sign) (b : Bits) :
    UnpackedFloat.unpack Format.binary64 (setSign s b) =
      withSign s (UnpackedFloat.unpack Format.binary64 b) := by
  simp only [UnpackedFloat.unpack, setSign, unpackExponent_packComponents,
    unpackMantissa_packComponents, unpackSign_packComponents, Sign.ofBitVec_toBitVec]
  split
  · split <;> rfl
  · split
    · split <;> rfl
    · rfl

/-- Packing a number with another sign sets the sign bit. -/
theorem pack_withSign {b : Bits} (s : Sign)
    (hnan : UnpackedFloat.unpack Format.binary64 b ≠ .notANumber) :
    UnpackedFloat.pack Format.binary64 (withSign s (UnpackedFloat.unpack Format.binary64 b)) =
      setSign s b := by
  rw [← unpack_setSign, pack_unpack, if_neg]
  intro h
  obtain ⟨hexponent, hmantissa⟩ : unpackExponent b = -1#_ ∧ unpackMantissa b ≠ 0#_ := by
    simpa [isNaNBits, setSign, unpackExponent_packComponents, unpackMantissa_packComponents]
      using h
  apply hnan
  simp only [UnpackedFloat.unpack, if_pos hexponent, if_neg hmantissa]

/-! ## Magnitude and contrary -/

def bitsOf (x : Float) : Bits := x.toModel.toBits.toBitVec

theorem eq_of_bitsOf_eq {x y : Float} (h : bitsOf x = bitsOf y) : x = y := by
  obtain ⟨⟨⟨b⟩, hb⟩⟩ := x
  obtain ⟨⟨⟨c⟩, hc⟩⟩ := y
  obtain rfl : b = c := h
  rfl

theorem eq_of_unpack_eq {x y : Float} (h : x.toModel.unpack = y.toModel.unpack) : x = y := by
  apply eq_of_bitsOf_eq
  have hx : UnpackedFloat.pack _ x.toModel.unpack = bitsOf x :=
    pack_unpack_of_valid x.toModel.valid
  have hy : UnpackedFloat.pack _ y.toModel.unpack = bitsOf y :=
    pack_unpack_of_valid y.toModel.valid
  rw [← hx, ← hy, h]

theorem word_eq (x : Float) : word x = (bitsOf x).toNat := rfl

theorem unpack_eq (x : Float) :
    x.toModel.unpack = UnpackedFloat.unpack Format.binary64 (bitsOf x) := rfl

section

variable {x : Float}

theorem bitsOf_abs (h : x.toModel.unpack ≠ .notANumber) :
    bitsOf x.abs = setSign .positive (bitsOf x) := by
  rw [← pack_withSign (b := bitsOf x) .positive h]
  show UnpackedFloat.pack _ x.toModel.unpack.abs = UnpackedFloat.pack _ (withSign _ x.toModel.unpack)
  cases x.toModel.unpack <;> rfl

theorem bitsOf_neg {s : Sign} (h : x.toModel.unpack ≠ .notANumber)
    (hs : withSign s x.toModel.unpack = x.toModel.unpack) :
    bitsOf (-x) = setSign (-s) (bitsOf x) := by
  rw [← pack_withSign (b := bitsOf x) (-s) h]
  show UnpackedFloat.pack _ x.toModel.unpack.neg = UnpackedFloat.pack _ (withSign _ x.toModel.unpack)
  cases hx : x.toModel.unpack with
  | notANumber => rfl
  | infinity t =>
      obtain rfl : s = t := by simpa [hx, withSign] using hs
      rfl
  | zero t =>
      obtain rfl : s = t := by simpa [hx, withSign] using hs
      rfl
  | finite t m e hm =>
      obtain rfl : s = t := by simpa [hx, withSign] using hs
      rfl

theorem unpack_abs (h : x.toModel.unpack ≠ .notANumber) :
    x.abs.toModel.unpack = withSign .positive x.toModel.unpack := by
  rw [unpack_eq, bitsOf_abs h, unpack_setSign]
  rfl

theorem withSign_withSign (s t : Sign) (u : UnpackedFloat) :
    withSign s (withSign t u) = withSign s u := by
  cases u <;> rfl

theorem withSign_eq_notANumber {s : Sign} {u : UnpackedFloat} :
    withSign s u = .notANumber ↔ u = .notANumber := by
  cases u <;> simp [withSign]

/-- Setting the sign that a number has changes nothing. -/
theorem setSign_eq_self {s : Sign} (h : x.toModel.unpack ≠ .notANumber)
    (hs : withSign s x.toModel.unpack = x.toModel.unpack) : setSign s (bitsOf x) = bitsOf x := by
  rw [← pack_withSign (b := bitsOf x) s h]
  show UnpackedFloat.pack _ (withSign s x.toModel.unpack) = _
  rw [hs]
  exact pack_unpack_of_valid x.toModel.valid

theorem unpack_zero : (0.0 : Float).toModel.unpack = .zero .positive := rfl

/-- The numbers below zero are those with a minus sign, without `-0`. -/
theorem lt_zero_iff : x < 0.0 ↔ x.toModel.unpack = .infinity .negative ∨
    ∃ m e hm, x.toModel.unpack = .finite .negative m e hm := by
  have hcompare : x < 0.0 ↔ x.toModel.unpack.compare (.zero .positive) = some .lt := by
    change (decide (x.toModel.lt (0.0 : Float).toModel = true)) = true ↔ _
    simp [Float.Model.lt, UnpackedFloat.lt, unpack_zero]
  rw [hcompare]
  rcases x.toModel.unpack with (_ | _) | _ | (_ | _) | ⟨_ | _, m, e, hm⟩ <;>
    simp [UnpackedFloat.compare, *]

/-- **A negative number is the contrary of its magnitude.** -/
theorem neg_abs (h : x < 0.0) : -x.abs = x := by
  obtain ⟨hnan, hsign⟩ : x.toModel.unpack ≠ .notANumber ∧
      withSign .negative x.toModel.unpack = x.toModel.unpack := by
    rcases lt_zero_iff.mp h with hx | ⟨m, e, hm, hx⟩ <;> simp [hx, withSign]
  have habs := unpack_abs hnan
  have hnan' : x.abs.toModel.unpack ≠ .notANumber := by
    rwa [habs, ne_eq, withSign_eq_notANumber]
  have hsign' : withSign .positive x.abs.toModel.unpack = x.abs.toModel.unpack := by
    rw [habs, withSign_withSign]
  apply eq_of_bitsOf_eq
  rw [bitsOf_neg hnan' hsign', bitsOf_abs hnan, setSign_setSign]
  exact setSign_eq_self hnan hsign

theorem beq_zero_iff : (x == 0.0) = true ↔ ∃ s, x.toModel.unpack = .zero s := by
  have hcompare : (x == 0.0) = true ↔ x.toModel.unpack.compare (.zero .positive) = some .eq := by
    change (x.toModel.unpack.compare (0.0 : Float).toModel.unpack == some .eq) = true ↔ _
    simp [unpack_zero]
  rw [hcompare]
  rcases x.toModel.unpack with (_ | _) | _ | s | ⟨_ | _, m, e, hm⟩ <;>
    simp [UnpackedFloat.compare]

/-- A number that is neither negative nor `-0` is its magnitude. -/
theorem abs_eq_self (hnan : x.toModel.unpack ≠ .notANumber) (h : ¬ x < 0.0)
    (hzero : normal x = x) : x.abs = x := by
  have hsign : withSign .positive x.toModel.unpack = x.toModel.unpack := by
    rw [lt_zero_iff] at h
    by_cases hx : (x == 0.0) = true
    · obtain rfl : 0.0 = x := by simpa [normal, hx] using hzero
      rfl
    · rw [beq_zero_iff] at hx
      rcases hu : x.toModel.unpack with (_ | _) | _ | s | ⟨_ | _, m, e, hm⟩ <;>
        simp_all [withSign]
  apply eq_of_bitsOf_eq
  rw [bitsOf_abs hnan]
  exact setSign_eq_self hnan hsign

/-- A magnitude is not `-0`. -/
theorem normal_abs (hnan : x.toModel.unpack ≠ .notANumber) : normal x.abs = x.abs := by
  unfold normal
  split
  · next hx =>
    obtain ⟨s, hs⟩ := beq_zero_iff.mp hx
    have habs := unpack_abs hnan
    apply eq_of_unpack_eq
    rw [unpack_zero]
    cases hx : x.toModel.unpack <;> simp_all [withSign]
  · rfl

end

/-! ## Finite doubles -/

theorem exponent_field (x : Float) :
    word x / pow2 52 % pow2 11 = (unpackExponent (bitsOf x)).toNat := by
  rw [word_eq, unpackExponent_def, BitVec.extractLsb'_toNat, Nat.shiftRight_eq_div_pow]
  rfl

theorem sign_field (x : Float) : word x / pow2 63 % 2 = (unpackSign (bitsOf x)).toNat := by
  rw [word_eq, unpackSign_def, BitVec.extractLsb'_toNat, Nat.shiftRight_eq_div_pow]
  rfl

theorem isFinite_iff {x : Float} :
    isFinite x = true ↔ (unpackExponent (bitsOf x)).toNat ≠ 2047 := by
  rw [← exponent_field]
  unfold isFinite parts?
  by_cases h : word x / pow2 52 % pow2 11 = 2047
  · simp [h]
  · by_cases h0 : word x / pow2 52 % pow2 11 = 0 <;> simp [h, h0]

theorem number_of_isFinite {x : Float} (h : isFinite x = true) :
    x.toModel.unpack ≠ .notANumber := by
  have hexponent : unpackExponent (bitsOf x) ≠ -1#_ := by
    intro heq
    rw [isFinite_iff, heq] at h
    exact h rfl
  rw [unpack_eq]
  simp only [UnpackedFloat.unpack, if_neg hexponent]
  split
  · split <;> simp
  · simp

/-- The magnitude of a finite number is finite, and has no sign. -/
theorem parts?_abs {x : Float} (h : isFinite x = true) :
    ∃ p, parts? x.abs = some p ∧ p.negative = false ∧ p.significand < pow2 53 := by
  have hnan := number_of_isFinite h
  have hexponent : word x.abs / pow2 52 % pow2 11 ≠ 2047 := by
    rw [exponent_field, bitsOf_abs hnan, setSign, unpackExponent_packComponents]
    exact isFinite_iff.mp h
  have hsign : word x.abs / pow2 63 % 2 = 0 := by
    rw [sign_field, bitsOf_abs hnan, setSign, unpackSign_packComponents]
    rfl
  have hword : word x.abs < 2 ^ 64 := (bitsOf x.abs).isLt
  have hnegative : ¬ pow2 63 ≤ word x.abs := by
    have hpow : pow2 63 = 9223372036854775808 := by decide
    rw [hpow] at hsign ⊢
    omega
  have hfraction : word x.abs % pow2 52 < pow2 52 := Nat.mod_lt _ (by decide)
  have hpow : pow2 53 = pow2 52 + pow2 52 := by decide
  unfold parts?
  simp only [hexponent, if_false]
  split
  · exact ⟨_, rfl, by simpa using hnegative, by simp only; omega⟩
  · exact ⟨_, rfl, by simpa using hnegative, by simp only; omega⟩

end PlayerPaths.Double
