import Mathlib.Algebra.Ring.Nat
import PlayerPaths.Proofs.Formula.Values

/-!
# The theory of bit vectors

A formula over bit vectors is computed with words of 64 bits: an operation works on whole words,
and the low bits of the outcome are kept. `BitOp.denote` and `BitComparison.denote` say what the
theory of fixed-size bit vectors gives instead, at the width of the operands, and
`eval_followsTheory` says that evaluation gives the same for all widths up to 64.

A bit vector is spelled by the literal `ofBitVec`. Reducing a word to the low `w` bits is
`BitVec.ofNat w`, so that each operation amounts to one equation between bit vectors: the low bits
of the word are what the theory asks for.
-/

namespace PlayerPaths

/-! ## What the theory says -/

/-- The literal that spells a bit vector. -/
def Formula.ofBitVec {w : Nat} (x : BitVec w) : Formula := .lit (.bits x.toNat w)

open Formula

variable {w : Nat}

/-- The function of the theory that an operation stands for. Division by zero gives all ones, or
one if a negative number is divided, and a remainder by zero is the dividend. -/
def BitOp.denote (op : BitOp) (x y : BitVec w) : BitVec w :=
  match op with
  | add => x + y
  | sub => x - y
  | mul => x * y
  | udiv => x.smtUDiv y
  | sdiv => x.smtSDiv y
  | urem => x % y
  | srem => x.srem y
  | and => x &&& y
  | or => x ||| y
  | xor => x ^^^ y
  | shl => x <<< y
  | lshr => x >>> y
  | ashr => x.sshiftRight' y

/-- The predicate of the theory that a comparison stands for. -/
def BitComparison.denote (c : BitComparison) (x y : BitVec w) : Bool :=
  match c with
  | ult => x.ult y
  | ule => x.ule y
  | ugt => y.ult x
  | uge => y.ule x
  | slt => x.slt y
  | sle => x.sle y
  | sgt => y.slt x
  | sge => y.sle x

/-! ## The low bits of words -/

/-- Words below `2 ^ width` read as two's complement. -/
theorem signed_eq {n w : Nat} (hw : 1 ≤ w ∧ w ≤ 64) (hn : n < pow2 w) :
    Bits.signed n w = if n < pow2 (w - 1) then (n : Int) else n - pow2 w := by
  unfold Bits.signed
  split
  · obtain rfl : w = 64 := by omega
    rfl
  · rw [Nat.mod_eq_of_lt hn]

theorem pow2_succ {w : Nat} (hw : 1 ≤ w) : pow2 w = 2 * pow2 (w - 1) := by
  obtain ⟨k, rfl⟩ : ∃ k, w = k + 1 := ⟨w - 1, by omega⟩
  simp [pow2, Nat.pow_succ, Nat.mul_comm]

theorem signed_toNat (hw : 1 ≤ w ∧ w ≤ 64) (x : BitVec w) : Bits.signed x.toNat w = x.toInt := by
  have hpow := pow2_succ hw.1
  rw [signed_eq hw x.isLt, BitVec.toInt_eq_toNat_cond]
  change _ = if 2 * x.toNat < pow2 w then _ else (x.toNat : Int) - pow2 w
  split <;> split <;> first | rfl | omega

theorem toInt_neg_iff (x : BitVec w) : x.toInt < 0 ↔ x.msb = true := by
  rw [BitVec.msb_eq_toInt, decide_eq_true_eq]

theorem bits_eq_ofBitVec (hw : w ≤ 64) (n : Nat) :
    Formula.bits n w = ofBitVec (BitVec.ofNat w n) := by
  rw [Formula.bits, ofBitVec, BitVec.toNat_ofNat, Nat.min_eq_left hw]
  rfl

theorem limit_eq_mul (hw : w ≤ 64) : Word.limit = 2 ^ w * 2 ^ (64 - w) := by
  rw [← Nat.pow_add, Nat.add_sub_cancel' hw]
  rfl

/-- Wrapping an integer to a word first does not change its low bits. -/
theorem ofNat_ofInt (hw : w ≤ 64) (i : Int) :
    BitVec.ofNat w (Word.ofInt i) = BitVec.ofInt w i := by
  apply BitVec.eq_of_toNat_eq
  have hdvd : ((2 ^ w : Nat) : Int) ∣ (Word.limit : Int) := by
    rw [limit_eq_mul hw]
    exact Int.natCast_dvd_natCast.mpr (Nat.dvd_mul_right _ _)
  have hword : (0 : Int) ≤ i % Word.limit := Int.emod_nonneg _ (by decide)
  have hlow : (0 : Int) ≤ i % (2 ^ w : Nat) :=
    Int.emod_nonneg _ (Int.natCast_ne_zero.mpr (Nat.ne_of_gt (Nat.two_pow_pos w)))
  rw [BitVec.toNat_ofNat, BitVec.toNat_ofInt, Word.ofInt]
  apply Int.ofNat.inj
  simp only [Int.ofNat_eq_natCast, Int.natCast_emod, Int.toNat_of_nonneg hword,
    Int.toNat_of_nonneg hlow]
  exact Int.emod_emod_of_dvd i hdvd

theorem ofNat_ones (hw : w ≤ 64) : BitVec.ofNat w Bits.ones = BitVec.allOnes w := by
  apply BitVec.eq_of_toNat_eq
  have hones : Bits.ones = 2 ^ w * (2 ^ (64 - w) - 1) + (2 ^ w - 1) := by
    rw [Bits.ones, limit_eq_mul hw, Nat.mul_sub, Nat.mul_one]
    have : 2 ^ w ≤ 2 ^ w * 2 ^ (64 - w) := Nat.le_mul_of_pos_right _ (Nat.two_pow_pos _)
    have := Nat.two_pow_pos w
    omega
  rw [BitVec.toNat_ofNat, BitVec.toNat_allOnes, hones, Nat.mul_add_mod,
    Nat.mod_eq_of_lt (Nat.sub_lt (Nat.two_pow_pos w) Nat.one_pos)]

/-! ## Operations -/

namespace BitOp

theorem low_sub (hw : w ≤ 64) (x y : BitVec w) :
    BitVec.ofNat w (x.toNat + (Word.limit - y.toNat)) = x - y := by
  apply BitVec.eq_of_toNat_eq
  have hy := y.isLt
  have hsplit : x.toNat + (Word.limit - y.toNat) =
      2 ^ w - y.toNat + x.toNat + 2 ^ w * (2 ^ (64 - w) - 1) := by
    rw [limit_eq_mul hw, Nat.mul_sub, Nat.mul_one]
    have : 2 ^ w ≤ 2 ^ w * 2 ^ (64 - w) := Nat.le_mul_of_pos_right _ (Nat.two_pow_pos _)
    omega
  rw [BitVec.toNat_ofNat, BitVec.toNat_sub, hsplit, Nat.add_mul_mod_self_left]

theorem low_udiv (hw : w ≤ 64) (x y : BitVec w) :
    BitVec.ofNat w (if y.toNat = 0 then Bits.ones else x.toNat / y.toNat) = x.smtUDiv y := by
  rw [BitVec.smtUDiv_eq]
  by_cases hy : y = 0#w
  · rw [if_pos hy, hy, BitVec.toNat_zero, if_pos rfl, ofNat_ones hw]
  · have hnat : y.toNat ≠ 0 := fun h => hy (BitVec.eq_of_toNat_eq (by rw [h, BitVec.toNat_zero]))
    rw [if_neg hy, if_neg hnat, ← BitVec.toNat_udiv, BitVec.ofNat_toNat, BitVec.setWidth_eq]

theorem low_urem (x y : BitVec w) :
    BitVec.ofNat w (if y.toNat = 0 then x.toNat else x.toNat % y.toNat) = x % y := by
  by_cases hy : y.toNat = 0
  · rw [if_pos hy, BitVec.ofNat_toNat, BitVec.setWidth_eq]
    exact BitVec.eq_of_toNat_eq (by rw [BitVec.toNat_umod, hy, Nat.mod_zero])
  · rw [if_neg hy, ← BitVec.toNat_umod, BitVec.ofNat_toNat, BitVec.setWidth_eq]

/-- Only division by zero tells the two signed divisions apart. -/
theorem smtSDiv_eq_sdiv {x y : BitVec w} (hy : y ≠ 0#w) : x.smtSDiv y = x.sdiv y := by
  have hpos : ∀ z : BitVec w, z.smtUDiv y = z / y := fun z => by
    rw [BitVec.smtUDiv_eq, if_neg hy]
  have hneg : ∀ z : BitVec w, z.smtUDiv (-y) = z / -y := fun z => by
    rw [BitVec.smtUDiv_eq, if_neg (by simpa using hy)]
  rw [BitVec.smtSDiv_eq, BitVec.sdiv_eq]
  simp only [hpos, hneg]
  rfl

theorem smtSDiv_zero (x : BitVec w) :
    x.smtSDiv 0#w = if x.toInt < 0 then 1#w else BitVec.allOnes w := by
  rw [BitVec.smtSDiv_eq, BitVec.msb_zero, if_congr (toInt_neg_iff x) rfl rfl]
  cases x.msb with
  | false => simp [BitVec.smtUDiv_eq]
  | true => simp [BitVec.smtUDiv_eq, ← BitVec.neg_one_eq_allOnes]

/-- The quotient of the least number by `-1` leaves the range, and its low bits are the least
number again. -/
theorem low_sdiv (hw : w ≤ 64) (x y : BitVec w) :
    BitVec.ofNat w (if y.toInt = 0 then (if x.toInt < 0 then 1 else Bits.ones)
      else Word.ofInt (x.toInt.tdiv y.toInt)) = x.smtSDiv y := by
  by_cases hy : y = 0#w
  · subst hy
    rw [smtSDiv_zero, BitVec.toInt_zero, if_pos rfl, apply_ite (BitVec.ofNat w), ofNat_ones hw]
  · have hint : y.toInt ≠ 0 := fun h => hy (BitVec.eq_of_toInt_eq (by rw [h, BitVec.toInt_zero]))
    rw [if_neg hint, ofNat_ofInt hw, smtSDiv_eq_sdiv hy]
    apply BitVec.eq_of_toInt_eq
    rw [BitVec.toInt_ofInt, BitVec.toInt_sdiv]

theorem low_srem (hw : w ≤ 64) (x y : BitVec w) :
    BitVec.ofNat w (if y.toInt = 0 then x.toNat else Word.ofInt (x.toInt.tmod y.toInt)) =
      x.srem y := by
  apply BitVec.eq_of_toInt_eq
  rw [BitVec.toInt_srem]
  by_cases hy : y.toInt = 0
  · rw [if_pos hy, hy, Int.tmod_zero, BitVec.ofNat_toNat, BitVec.setWidth_eq]
  · rw [if_neg hy, ofNat_ofInt hw, ← BitVec.toInt_srem, BitVec.ofInt_toInt]

/-- An arithmetic shift by the width or more leaves the sign. -/
theorem sshiftRight_of_le {x : BitVec w} {n : Nat} (hn : w ≤ n) :
    x.sshiftRight n = if x.toInt < 0 then BitVec.allOnes w else 0#w := by
  apply BitVec.eq_of_getElem_eq
  intro i hi
  rw [BitVec.getElem_sshiftRight, if_congr (toInt_neg_iff x) rfl rfl]
  simp only [show ¬ n + i < w by omega]
  cases x.msb <;> simp

/-- The amount of a shift that leaves some bits is in range. -/
theorem shiftAmount_eq {n : Nat} (hw : w ≤ 64) (h : ¬ w ≤ n) : Bits.shiftAmount n = .ok n :=
  if_pos (by omega)

/-- An operation has an outcome, and its low bits are what the theory says. -/
theorem exists_apply (hw : 1 ≤ w ∧ w ≤ 64) (op : BitOp) (x y : BitVec w) :
    ∃ n, op.apply x.toNat y.toNat w = .ok n ∧ BitVec.ofNat w n = op.denote x y := by
  unfold apply
  simp only [signed_toNat hw]
  cases op with
  | add => exact ⟨_, rfl, by simp [denote, BitVec.ofNat_add]⟩
  | sub => exact ⟨_, rfl, low_sub hw.2 x y⟩
  | mul => exact ⟨_, rfl, by simp [denote, BitVec.ofNat_mul]⟩
  | udiv => exact ⟨_, rfl, low_udiv hw.2 x y⟩
  | sdiv => exact ⟨_, rfl, low_sdiv hw.2 x y⟩
  | urem => exact ⟨_, rfl, low_urem x y⟩
  | srem => exact ⟨_, rfl, low_srem hw.2 x y⟩
  | and => exact ⟨_, rfl, by simp [denote]⟩
  | or => exact ⟨_, rfl, by simp [denote]⟩
  | xor => exact ⟨_, rfl, by simp [denote]⟩
  | shl =>
      by_cases hy : w ≤ y.toNat
      · exact ⟨0, by simp [hy], by simp [denote, BitVec.shiftLeft_eq_zero hy]⟩
      · refine ⟨x.toNat <<< y.toNat, by simp [hy, shiftAmount_eq hw.2 hy], ?_⟩
        exact BitVec.eq_of_toNat_eq (by simp [denote])
  | lshr =>
      by_cases hy : w ≤ y.toNat
      · exact ⟨0, by simp [hy], by simp [denote, BitVec.ushiftRight_eq_zero hy]⟩
      · refine ⟨x.toNat >>> y.toNat, by simp [hy, shiftAmount_eq hw.2 hy], ?_⟩
        rw [denote, BitVec.ushiftRight_eq', ← BitVec.toNat_ushiftRight, BitVec.ofNat_toNat,
          BitVec.setWidth_eq]
  | ashr =>
      by_cases hy : w ≤ y.toNat
      · refine ⟨if x.toInt < 0 then Bits.ones else 0, by simp [hy], ?_⟩
        rw [denote, BitVec.sshiftRight', sshiftRight_of_le hy, apply_ite (BitVec.ofNat w),
          ofNat_ones hw.2]
      · refine ⟨Word.ofInt (x.toInt >>> y.toNat), by simp [hy, shiftAmount_eq hw.2 hy], ?_⟩
        exact ofNat_ofInt hw.2 _

end BitOp

theorem BitComparison.holds_eq_denote (hw : 1 ≤ w ∧ w ≤ 64) (c : BitComparison)
    (x y : BitVec w) : c.holds x.toNat y.toNat w = c.denote x y := by
  unfold holds
  simp only [signed_toNat hw]
  cases c <;> rfl

/-! ## Functions on bit vectors -/

theorem widthValue_eq {n : Nat} (hn : n ≤ 64) : widthValue n = .ok n :=
  if_pos (Nat.lt_of_le_of_lt hn (by decide))

namespace BinaryFunction

theorem apply_bits (hw : 1 ≤ w ∧ w ≤ 64) (op : BitOp) (x y : BitVec w) :
    (BinaryFunction.bits op).apply (ofBitVec x) (ofBitVec y) = .ok (ofBitVec (op.denote x y)) := by
  obtain ⟨n, happly, hlow⟩ := op.exists_apply hw x y
  rw [← hlow, ← bits_eq_ofBitVec hw.2]
  exact bind_eq_ok.mpr ⟨n, happly, rfl⟩

theorem apply_compareBits (hw : 1 ≤ w ∧ w ≤ 64) (c : BitComparison) (x y : BitVec w) :
    (BinaryFunction.compareBits c).apply (ofBitVec x) (ofBitVec y) = .ok (.bool (c.denote x y)) := by
  rw [← c.holds_eq_denote hw]
  rfl

/-- The shifted operand keeps all of its bits, because the word has room for both operands. -/
theorem apply_concat {m n : Nat} (hm : 1 ≤ m) (hn : m + n ≤ 64) (x : BitVec m) (y : BitVec n) :
    BinaryFunction.concat.apply (ofBitVec x) (ofBitVec y) = .ok (ofBitVec (x ++ y)) := by
  have hword : x.toNat <<< n < Word.limit := by
    rw [Nat.shiftLeft_eq]
    calc x.toNat * 2 ^ n
        < 2 ^ m * 2 ^ n := Nat.mul_lt_mul_of_pos_right x.isLt (Nat.two_pow_pos n)
      _ = 2 ^ (m + n) := (Nat.pow_add 2 m n).symm
      _ ≤ 2 ^ 64 := Nat.pow_le_pow_right (by decide) hn
  have happend : x.toNat <<< n ||| y.toNat = (x ++ y).toNat := by simp
  simp only [apply, ofBitVec, widthValue_eq hn]
  show (if 64 < m + n then throw EvalError.undefined else _) = _
  rw [if_neg (by omega), if_neg (by omega), Nat.mod_eq_of_lt hword, happend,
    bits_eq_ofBitVec hn, BitVec.ofNat_toNat, BitVec.setWidth_eq]
  rfl

end BinaryFunction

namespace UnaryFunction

theorem apply_extract {high low : Nat} (hw : w ≤ 64) (hrange : low ≤ high ∧ high < w)
    (x : BitVec w) :
    (UnaryFunction.extract high low).apply (ofBitVec x) =
      .ok (ofBitVec (x.extractLsb high low)) := by
  have hwidth : high - low + 1 ≤ 64 := by omega
  have hlow : ¬ w ≤ low := by omega
  simp only [apply, ofBitVec, if_neg (Nat.not_lt.mpr hrange.1), BitOp.shiftAmount_eq hw hlow,
    widthValue_eq hwidth]
  exact congrArg Except.ok (bits_eq_ofBitVec hwidth _)

theorem apply_zeroExtend {extra : Nat} (hw : w + extra ≤ 64) (x : BitVec w) :
    (UnaryFunction.zeroExtend extra).apply (ofBitVec x) =
      .ok (ofBitVec (x.zeroExtend (w + extra))) := by
  simp only [apply, ofBitVec, widthValue_eq hw]
  show Except.ok (Formula.bits x.toNat (w + extra)) = _
  rw [bits_eq_ofBitVec hw, BitVec.ofNat_toNat]
  rfl

theorem apply_signExtend {extra : Nat} (hw : 1 ≤ w ∧ w + extra ≤ 64) (x : BitVec w) :
    (UnaryFunction.signExtend extra).apply (ofBitVec x) =
      .ok (ofBitVec (x.signExtend (w + extra))) := by
  have hsigned : Bits.signed x.toNat w = x.toInt := signed_toNat (by omega) x
  simp only [apply, ofBitVec, widthValue_eq hw.2, hsigned]
  show Except.ok (Formula.bits (Word.ofInt x.toInt) (w + extra)) = _
  rw [bits_eq_ofBitVec hw.2, ofNat_ofInt hw.2]
  rfl

theorem apply_intToBits (hw : w ≤ 64) (i : Int) :
    (UnaryFunction.intToBits w).apply (.int i) = .ok (ofBitVec (BitVec.ofInt w i)) := by
  rw [← ofNat_ofInt hw, ← bits_eq_ofBitVec hw]
  rfl

theorem apply_bitsToInt_eq_ok {x : BitVec w} {v : Formula} :
    UnaryFunction.bitsToInt.apply (ofBitVec x) = .ok v ↔
      x.toNat < 2 ^ 63 ∧ v = .int x.toNat := by
  show intValue (x.toNat : Int) = .ok v ↔ _
  have hrange : Word.inRange (x.toNat : Int) = true ↔ x.toNat < 2 ^ 63 := by
    have hmin : Word.minInt = -9223372036854775808 := by decide
    have hmax : Word.maxInt = 9223372036854775807 := by decide
    simp only [Word.inRange, hmin, hmax, Bool.and_eq_true, decide_eq_true_eq]
    omega
  rw [intValue_eq_ok, hrange]

end UnaryFunction

/-! ## Evaluation -/

/-- What evaluation gives under an assignment when the operands of a formula evaluate to bit
vectors of at most 64 bits. -/
structure FollowsTheory (σ : Assignment) : Prop where
  operation : ∀ (op : BitOp) (w : Nat) (x y : BitVec w) (a b : Formula), 1 ≤ w → w ≤ 64 →
    a.eval σ = .ok (ofBitVec x) → b.eval σ = .ok (ofBitVec y) →
    (Formula.binary (.bits op) a b).eval σ = .ok (ofBitVec (op.denote x y))
  comparison : ∀ (c : BitComparison) (w : Nat) (x y : BitVec w) (a b : Formula), 1 ≤ w → w ≤ 64 →
    a.eval σ = .ok (ofBitVec x) → b.eval σ = .ok (ofBitVec y) →
    (Formula.binary (.compareBits c) a b).eval σ = .ok (.bool (c.denote x y))
  concat : ∀ (m n : Nat) (x : BitVec m) (y : BitVec n) (a b : Formula), 1 ≤ m → 1 ≤ n →
    m + n ≤ 64 → a.eval σ = .ok (ofBitVec x) → b.eval σ = .ok (ofBitVec y) →
    (Formula.binary .concat a b).eval σ = .ok (ofBitVec (x ++ y))
  extract : ∀ (w high low : Nat) (x : BitVec w) (a : Formula), w ≤ 64 → low ≤ high → high < w →
    a.eval σ = .ok (ofBitVec x) →
    (Formula.unary (.extract high low) a).eval σ = .ok (ofBitVec (x.extractLsb high low))
  zeroExtend : ∀ (w extra : Nat) (x : BitVec w) (a : Formula), 1 ≤ w → w + extra ≤ 64 →
    a.eval σ = .ok (ofBitVec x) →
    (Formula.unary (.zeroExtend extra) a).eval σ = .ok (ofBitVec (x.zeroExtend (w + extra)))
  signExtend : ∀ (w extra : Nat) (x : BitVec w) (a : Formula), 1 ≤ w → w + extra ≤ 64 →
    a.eval σ = .ok (ofBitVec x) →
    (Formula.unary (.signExtend extra) a).eval σ = .ok (ofBitVec (x.signExtend (w + extra)))
  intToBits : ∀ (w : Nat) (i : Int) (a : Formula), 1 ≤ w → w ≤ 64 → a.eval σ = .ok (.int i) →
    (Formula.unary (.intToBits w) a).eval σ = .ok (ofBitVec (BitVec.ofInt w i))
  bitsToInt : ∀ (w : Nat) (x : BitVec w) (a v : Formula), 1 ≤ w → w ≤ 64 →
    a.eval σ = .ok (ofBitVec x) →
    ((Formula.unary .bitsToInt a).eval σ = .ok v ↔ x.toNat < 2 ^ 63 ∧ v = .int x.toNat)

theorem eval_unary_of_eval {σ : Assignment} {f : UnaryFunction} {a x : Formula}
    (ha : a.eval σ = .ok x) : (Formula.unary f a).eval σ = f.apply x := by
  rw [eval, ha]
  rfl

theorem eval_binary_of_eval {σ : Assignment} {f : BinaryFunction} {a b x y : Formula}
    (ha : a.eval σ = .ok x) (hb : b.eval σ = .ok y) :
    (Formula.binary f a b).eval σ = f.apply x y := by
  rw [eval, ha, hb]
  rfl

/-- **Evaluation follows the theory of bit vectors** at every width up to 64. -/
theorem eval_followsTheory (σ : Assignment) : FollowsTheory σ where
  operation op _ x y _ _ h1 h64 ha hb := by
    rw [eval_binary_of_eval ha hb, BinaryFunction.apply_bits ⟨h1, h64⟩]
  comparison c _ x y _ _ h1 h64 ha hb := by
    rw [eval_binary_of_eval ha hb, BinaryFunction.apply_compareBits ⟨h1, h64⟩]
  concat _ _ x y _ _ hm _ hn ha hb := by
    rw [eval_binary_of_eval ha hb, BinaryFunction.apply_concat hm hn]
  extract _ _ _ x _ h64 hle hlt ha := by
    rw [eval_unary_of_eval ha, UnaryFunction.apply_extract h64 ⟨hle, hlt⟩]
  zeroExtend _ _ x _ _ h64 ha := by
    rw [eval_unary_of_eval ha, UnaryFunction.apply_zeroExtend h64]
  signExtend _ _ x _ h1 h64 ha := by
    rw [eval_unary_of_eval ha, UnaryFunction.apply_signExtend ⟨h1, h64⟩]
  intToBits _ i _ _ h64 ha := by
    rw [eval_unary_of_eval ha, UnaryFunction.apply_intToBits h64]
  bitsToInt _ x _ _ _ _ ha := by
    rw [eval_unary_of_eval ha, UnaryFunction.apply_bitsToInt_eq_ok]

/-- The least number of 8 bits divided by `-1` is itself. -/
example : (Formula.binary (.bits .sdiv) (ofBitVec 0x80#8) (ofBitVec 0xff#8)).eval (fun _ => none) =
    .ok (ofBitVec 0x80#8) := by
  decide

end PlayerPaths
