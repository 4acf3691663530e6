import Mathlib.Data.Int.ModEq
import PlayerPaths.Proofs.Execution.Memory
import PlayerPaths.Proofs.Formula.Overflow

/-!
# Operands of different widths

Conversions widen an integral value by its own type: signed types repeat the sign, the others fill
up with zeros (`convert_widens`). To a narrower type they keep the low bits. Either way the number
keeps its residue (`convert_residue`).

A comparison of two variables widens the narrower one too, but by the sign of the instruction,
whatever its type is (`Evaluator.compare_widens`). Both give the same if the type agrees with the
instruction or the top bit is clear (`extend_eq_widen_iff`), and the comparison is wrong where they
differ (`Evaluator.byte_misread`).
-/

namespace PlayerPaths

open IL Formula

variable {k m n : Nat}

/-- A bit vector in another width. A wider one has its sign repeated or zeros before it, and a
narrower one has its low bits. -/
def extend (signed : Bool) (n : Nat) (x : BitVec m) : BitVec n :=
  if signed then x.signExtend n else x.zeroExtend n

/-- What a value of an integral type is in another width. -/
def IL.Ty.widen (t : Ty) (n : Nat) (x : BitVec m) : BitVec n := extend t.isSigned n x

/-- The number that a bit vector is for an integral type. -/
def IL.Ty.integer (t : Ty) (x : BitVec m) : Int := if t.isSigned then x.toInt else x.toNat

/-- The predicate that a comparison of bit vectors stands for. -/
def IL.Comparison.denote (kind : Comparison) (unsigned : Bool) (x y : BitVec n) : Bool :=
  match kind with
  | .equal => x = y
  | .notEqual => x ≠ y
  | .less => if unsigned then x.ult y else x.slt y
  | .lessOrEqual => if unsigned then x.ule y else x.sle y
  | .greater => if unsigned then y.ult x else y.slt x
  | .greaterOrEqual => if unsigned then y.ule x else y.sle x

/-! ## Extensions -/

theorem extend_self (signed : Bool) (x : BitVec n) : extend signed n x = x := by
  cases signed <;> simp [extend, BitVec.signExtend_eq]

/-- The two extensions are the same exactly for bit vectors with a clear top bit. -/
theorem signExtend_eq_zeroExtend_iff (h : m < n) (x : BitVec m) :
    x.signExtend n = x.zeroExtend n ↔ x.msb = false := by
  constructor
  · intro heq
    have hbit := congrArg (fun y => y.getLsbD m) heq
    have hhigh : ¬ m < m := Nat.lt_irrefl m
    simpa only [BitVec.getLsbD_signExtend, BitVec.truncate_eq_setWidth, BitVec.getLsbD_setWidth,
      decide_eq_true h, if_neg hhigh, Bool.true_and, BitVec.getLsbD_of_ge x m (Nat.le_refl m)]
      using hbit
  · intro hmsb
    exact BitVec.signExtend_eq_setWidth_of_msb_false hmsb

/-- Extending by a sign is widening by the type if nothing is to be done, if the type has this
sign, or if the top bit is clear, and only then. -/
theorem extend_eq_widen_iff (h : m ≤ n) (signed : Bool) (t : Ty) (x : BitVec m) :
    extend signed n x = t.widen n x ↔ m = n ∨ t.isSigned = signed ∨ x.msb = false := by
  rcases Nat.lt_or_eq_of_le h with hlt | rfl
  · have hne : m ≠ n := Nat.ne_of_lt hlt
    have hiff := signExtend_eq_zeroExtend_iff hlt x
    rw [IL.Ty.widen]
    cases signed <;> cases t.isSigned <;> simp only [extend, hne, false_or, true_or, or_true,
      Bool.false_eq_true, Bool.true_eq_false, ↓reduceIte]
    · rw [← hiff]
      exact eq_comm
    · exact hiff
  · rw [IL.Ty.widen, extend_self, extend_self]
    simp

/-- An extension keeps the residue of the number, whatever the widths. -/
theorem widen_residue (t : Ty) (n : Nat) (x : BitVec m) :
    ((t.widen n x).toNat : Int) ≡ t.integer x [ZMOD 2 ^ n] := by
  unfold IL.Ty.widen IL.Ty.integer extend
  cases t.isSigned with
  | true =>
      have hnonneg : 0 ≤ x.toInt % (2 ^ n : Nat) :=
        Int.emod_nonneg _ (Int.natCast_ne_zero.mpr (Nat.two_pow_pos n).ne')
      have hvalue : ((x.signExtend n).toNat : Int) = x.toInt % (2 ^ n : Nat) := by
        rw [BitVec.signExtend, BitVec.toNat_ofInt, Int.toNat_of_nonneg hnonneg]
      rw [if_pos rfl, if_pos rfl, hvalue, Int.natCast_pow]
      exact Int.mod_modEq _ _
  | false =>
      have hvalue : ((x.zeroExtend n).toNat : Int) = (x.toNat : Int) % 2 ^ n := by
        simp
      rw [if_neg Bool.false_ne_true, if_neg Bool.false_ne_true, hvalue]
      exact Int.mod_modEq _ _

/-- The low bits of a bit vector are what either extension gives in a narrower width. -/
theorem extend_of_le (h : n ≤ m) (signed : Bool) (x : BitVec m) :
    extend signed n x = x.setWidth n := by
  cases signed with
  | true => exact BitVec.signExtend_eq_setWidth_of_le x h
  | false => rfl

/-! ## Conversions -/

variable {e a b : Formula} {sorts : Sorts} {t u : Ty}

theorem requireExtensible_ok {extra : Nat} (he : e.sort = .ok (.bitVec m)) (h : m + extra ≤ 64) :
    Build.requireExtensible extra e = .ok () := by
  have hsize : Word.add m extra = .ok (m + extra) :=
    if_pos (Nat.lt_of_le_of_lt h (by decide))
  simp only [Build.requireExtensible, bind_eq_ok]
  exact ⟨m, Build.requireBits_eq_ok.mpr he, m + extra, hsize, if_neg (Nat.not_lt.mpr h)⟩

theorem resize_self (signed : Bool) (he : e.sort = .ok (.bitVec m)) :
    resize e m signed = .ok e := by
  simp [resize, he]

/-- A bit vector is resized by extending it, or by extracting its low bits. -/
theorem resize_extends (signed : Bool) (he : e.sort = .ok (.bitVec m)) (hm : 1 ≤ m ∧ m ≤ 64)
    (hn : 1 ≤ n ∧ n ≤ 64) : ∃ e', resize e n signed = .ok e' ∧ e'.sort = .ok (.bitVec n) ∧
      ∀ (σ : Assignment) (x : BitVec m), e.eval σ = .ok (ofBitVec x) →
        e'.eval σ = .ok (ofBitVec (extend signed n x)) := by
  rcases Nat.lt_trichotomy m n with hlt | rfl | hgt
  · obtain ⟨extra, rfl⟩ := Nat.exists_eq_add_of_le (Nat.le_of_lt hlt)
    have hsize : Word.add m extra = .ok (m + extra) :=
      if_pos (Nat.lt_of_le_of_lt hn.2 (by decide))
    have hsort : ∀ f, (f = .signExtend extra ∨ f = .zeroExtend extra) →
        (Formula.unary f e).sort = .ok (.bitVec (m + extra)) := by
      rintro f (rfl | rfl) <;> simp [Formula.sort, he, SmtSort.width, SmtSort.width?, hsize]
    have hcheck := requireExtensible_ok he hn.2
    have hextra : m + extra - m = extra := Nat.add_sub_cancel_left ..
    have hne : extra ≠ 0 := by omega
    cases signed with
    | true =>
        refine ⟨.unary (.signExtend extra) e, ?_, hsort _ (.inl rfl), fun σ x hx => ?_⟩
        · simp [resize, he, hne, hlt, hextra, Build.signExtend, hcheck]
        · exact (eval_followsTheory σ).signExtend m extra x e hm.1 hn.2 hx
    | false =>
        refine ⟨.unary (.zeroExtend extra) e, ?_, hsort _ (.inr rfl), fun σ x hx => ?_⟩
        · simp [resize, he, hne, hlt, hextra, Build.zeroExtend, hcheck]
        · exact (eval_followsTheory σ).zeroExtend m extra x e hm.1 hn.2 hx
  · refine ⟨e, resize_self signed he, he, fun σ x hx => ?_⟩
    rw [extend_self]
    exact hx
  · obtain ⟨high, rfl⟩ := Nat.exists_eq_add_of_le' hn.1
    have hsize : Word.size (high + 1) = .ok (high + 1) :=
      if_pos (Nat.lt_of_le_of_lt hn.2 (by decide))
    have hrange : ¬ m ≤ high := by omega
    refine ⟨.unary (.extract high 0) e, ?_, by simp [Formula.sort, hsize], fun σ x hx => ?_⟩
    · have hbuild : Build.extract high 0 e = .ok (.unary (.extract high 0) e) := by
        simp [Build.extract, Build.requireBits_eq_ok.mpr he, hrange]
      have hnot : ¬ m < high + 1 := Nat.not_lt.mpr (Nat.le_of_lt hgt)
      simp only [resize, he, bind, Except.bind, if_neg (Nat.ne_of_gt hgt), if_neg hnot,
        if_neg (Nat.succ_ne_zero high), Nat.add_sub_cancel, hbuild]
    · rw [(eval_followsTheory σ).extract m high 0 x e hm.2 (Nat.zero_le _) (by omega) hx,
        extend_of_le (Nat.le_of_lt hgt)]
      simp [ofBitVec]

/-- The width of an integral type is one of a machine word. -/
theorem bits?_bounds (h : t.bits? = some n) : 1 ≤ n ∧ n ≤ 64 := by
  cases t <;> simp_all [IL.Ty.bits?] <;> omega

theorem sort_of_bits? (h : t.bits? = some n) : sorts.sort t = .ok (.bitVec n) := by
  cases t <;> simp_all [IL.Ty.bits?, Sorts.sort]

theorem convert_bits (hu : sorts.sort u = .ok (.bitVec n)) (he : e.sort = .ok (.bitVec m)) :
    convert sorts e t u = if m = n then .ok e else resize e n t.isSigned := by
  simp only [convert, hu, he, bind, Except.bind, pure, Except.pure, SmtSort.bitVec.injEq]

theorem coerce_bits (hu : sorts.sort u = .ok (.bitVec n)) (he : e.sort = .ok (.bitVec m)) :
    coerce sorts e t u = if m = n then .ok e else resize e n t.isSigned := by
  simp only [coerce, hu, he, bind, Except.bind, pure, Except.pure, SmtSort.bitVec.injEq]

/-- **Conversions widen a value by its own type**, or narrow it. -/
theorem convert_widens (he : e.sort = .ok (.bitVec m)) (ht : t.bits? = some m)
    (hu : u.bits? = some n) : ∃ e', convert sorts e t u = .ok e' ∧
      coerce sorts e t u = .ok e' ∧
      ∀ (σ : Assignment) (x : BitVec m), e.eval σ = .ok (ofBitVec x) →
        e'.eval σ = .ok (ofBitVec (t.widen n x)) := by
  rw [convert_bits (sort_of_bits? hu) he, coerce_bits (sort_of_bits? hu) he]
  by_cases hne : m = n
  · subst hne
    refine ⟨e, if_pos rfl, if_pos rfl, fun σ x hx => ?_⟩
    rw [IL.Ty.widen, extend_self]
    exact hx
  · obtain ⟨e', hresize, -, heval⟩ :=
      resize_extends t.isSigned he (bits?_bounds ht) (bits?_bounds hu)
    rw [if_neg hne, hresize]
    exact ⟨e', rfl, rfl, heval⟩

/-- A formula of the width of a type has a value of this width, if its variables have values of
their sorts. -/
theorem exists_ofBitVec_of_eval {σ : Assignment} {v : Formula} (he : e.HasSort (.bitVec m))
    (hr : e.InRange) (hσ : Assigns σ e.occurrences) (h : e.eval σ = .ok v) :
    ∃ x : BitVec m, v = ofBitVec x := by
  have hvars : e.Every (varIn e.occurrences) := fun p hp name s hvar =>
    mem_occurrences.mpr (hvar ▸ hp)
  obtain ⟨-, x, hx⟩ := (eval_isValue he hr hσ hvars h).exists_ofBitVec
  exact ⟨x, hx⟩

/-- How a formula of an integral type is converted to another one with `n` bits. -/
structure ConvertsResidue (e : Formula) (t : Ty) (m n : Nat) (e' : Formula) : Prop where
  /-- The value has the residue of the number that the operand is for its own type. -/
  residue : ∀ (σ : Assignment) (x : BitVec m), e.eval σ = .ok (ofBitVec x) →
    ∃ y : BitVec n, e'.eval σ = .ok (ofBitVec y) ∧ (y.toNat : Int) ≡ t.integer x [ZMOD 2 ^ n]
  /-- Whatever the operand evaluates to, it is a number of its width. -/
  operand : e.HasSort (.bitVec m) → e.InRange → ∀ (σ : Assignment) (v : Formula),
    Assigns σ e.occurrences → e.eval σ = .ok v → ∃ x : BitVec m, v = ofBitVec x

/-- **Conversions between integral types compute residues.** -/
theorem convert_residue (sorts : Sorts) (ht : t.bits? = some m) (hu : u.bits? = some n)
    (he : e.sort = .ok (.bitVec m)) : ∃ e', convert sorts e t u = .ok e' ∧
      coerce sorts e t u = .ok e' ∧ ConvertsResidue e t m n e' := by
  obtain ⟨e', hconvert, hcoerce, heval⟩ := convert_widens he ht hu
  refine ⟨e', hconvert, hcoerce, fun σ x hx => ?_, fun hsort hr σ v hσ hv => ?_⟩
  · exact ⟨t.widen n x, heval σ x hx, widen_residue t n x⟩
  · exact exists_ofBitVec_of_eval hsort hr hσ hv

def balance : Formula := .var "balance" (.bitVec 16)

/-- The balance is `-2`. -/
def owing : Assignment := fun _ => some (ofBitVec (-2 : BitVec 16))

/-- In one byte it is read as `254`, and in eight bytes it is still `-2`. -/
theorem balance_converted : ∃ narrow wide,
    convert {} balance .int16 .uint8 = .ok narrow ∧ coerce {} balance .int16 .uint8 = .ok narrow ∧
      convert {} balance .int16 .int64 = .ok wide ∧ coerce {} balance .int16 .int64 = .ok wide ∧
      narrow.eval owing = .ok (ofBitVec 254#8) ∧
      wide.eval owing = .ok (ofBitVec (-2 : BitVec 64)) := by
  have heval : balance.eval owing = .ok (ofBitVec (-2 : BitVec 16)) := rfl
  have hinteger : Ty.integer .int16 (-2 : BitVec 16) = -2 := by decide
  obtain ⟨narrow, hnarrow, hnarrow', hresidue, -⟩ :=
    convert_residue {} (t := .int16) (u := .uint8) rfl rfl (e := balance) rfl
  obtain ⟨wide, hwide, hwide', hresidue', -⟩ :=
    convert_residue {} (t := .int16) (u := .int64) rfl rfl (e := balance) rfl
  obtain ⟨y, hy, hmod⟩ := hresidue owing _ heval
  obtain ⟨z, hz, hmod'⟩ := hresidue' owing _ heval
  rw [hinteger] at hmod hmod'
  have hylt := y.isLt
  have hzlt := z.isLt
  obtain rfl : y = 254#8 := BitVec.eq_of_toNat_eq (by grind [Int.ModEq])
  obtain rfl : z = (-2 : BitVec 64) := BitVec.eq_of_toNat_eq (by grind [Int.ModEq])
  exact ⟨narrow, wide, hnarrow, hnarrow', hwide, hwide', hy, hz⟩

/-! ## Comparisons -/

/-- Two operands are brought to the greater width by the sign of the instruction. -/
theorem unify_extends (signed : Bool) (ha : a.sort = .ok (.bitVec m))
    (hb : b.sort = .ok (.bitVec n)) (hm : 1 ≤ m ∧ m ≤ 64) (hn : 1 ≤ n ∧ n ≤ 64) :
    ∃ a' b', unify a b signed = .ok (a', b') ∧
      a'.sort = .ok (.bitVec (max m n)) ∧ b'.sort = .ok (.bitVec (max m n)) ∧
      ∀ (σ : Assignment) (x : BitVec m) (y : BitVec n), a.eval σ = .ok (ofBitVec x) →
        b.eval σ = .ok (ofBitVec y) →
        a'.eval σ = .ok (ofBitVec (extend signed (max m n) x)) ∧
          b'.eval σ = .ok (ofBitVec (extend signed (max m n) y)) := by
  have hmax : 1 ≤ max m n ∧ max m n ≤ 64 :=
    ⟨Nat.le_trans hm.1 (Nat.le_max_left m n), Nat.max_le.mpr ⟨hm.2, hn.2⟩⟩
  obtain ⟨a', hresizea, hsorta, hevala⟩ :=
    resize_extends signed ha hm hmax
  obtain ⟨b', hresizeb, hsortb, hevalb⟩ :=
    resize_extends signed hb hn hmax
  refine ⟨a', b', ?_, hsorta, hsortb, fun σ x y hx hy => ⟨hevala σ x hx, hevalb σ y hy⟩⟩
  -- An operand of the greater width is resized to the width that it has, which leaves it alone.
  rcases Nat.lt_trichotomy m n with h | rfl | h
  · rw [Nat.max_eq_right (Nat.le_of_lt h)] at hresizea hresizeb
    obtain rfl : b = b' := Except.ok.inj ((resize_self signed hb).symm.trans hresizeb)
    simp [unify, ha, hb, h, hresizea]
  · rw [Nat.max_self] at hresizea hresizeb
    obtain rfl : a = a' := Except.ok.inj ((resize_self signed ha).symm.trans hresizea)
    obtain rfl : b = b' := Except.ok.inj ((resize_self signed hb).symm.trans hresizeb)
    simp [unify, ha, hb]
  · rw [Nat.max_eq_left (Nat.le_of_lt h)] at hresizea hresizeb
    obtain rfl : a = a' := Except.ok.inj ((resize_self signed ha).symm.trans hresizea)
    simp [unify, ha, hb, h, Nat.not_lt.mpr (Nat.le_of_lt h), hresizeb]

theorem bitOrder_denote {kind : Comparison} (unsigned : Bool)
    (hkind : kind ≠ .equal ∧ kind ≠ .notEqual) (x y : BitVec n) :
    (bitOrder kind unsigned).denote x y = kind.denote unsigned x y := by
  cases kind <;> cases unsigned <;> simp_all [bitOrder, BitComparison.denote, IL.Comparison.denote]

theorem ofBitVec_inj {x y : BitVec n} : ofBitVec x = ofBitVec y ↔ x = y := by
  simp [ofBitVec, BitVec.toNat_inj]

/-- Operands that have been brought to one width are compared as bit vectors. -/
theorem compareValue_of_unify (kind : Comparison) {sign : Sign} {a' b' : Formula}
    (hunify : unify a b (!decide (sign = .unsigned)) = .ok (a', b'))
    (ha : a'.sort = .ok (.bitVec n)) (hb : b'.sort = .ok (.bitVec n)) :
    compareValue kind sign a b =
      match kind with
      | .equal => Build.eq a' b'
      | .notEqual => Build.ne a' b'
      | _ => Build.compareBits (bitOrder kind (sign = .unsigned)) a' b' := by
  simp only [compareValue, hunify, ha, hb, bind, Except.bind, ne_eq, not_true_eq_false, if_false]
  cases kind <;> rfl

/-- A comparison of two operands of one width is that of their values. -/
theorem exists_compareValue (kind : Comparison) {sign : Sign} {a' b' : Formula}
    (hn : 1 ≤ n ∧ n ≤ 64) (hunify : unify a b (!decide (sign = .unsigned)) = .ok (a', b'))
    (ha : a'.sort = .ok (.bitVec n)) (hb : b'.sort = .ok (.bitVec n)) :
    ∃ f, compareValue kind sign a b = .ok f ∧ ∀ (σ : Assignment) (x y : BitVec n),
      a'.eval σ = .ok (ofBitVec x) → b'.eval σ = .ok (ofBitVec y) →
      f.eval σ = .ok (.bool (kind.denote (sign = .unsigned) x y)) := by
  have hsame : Build.requireSame a' b' = .ok (.bitVec n) := Build.requireSame_eq_ok.mpr ⟨ha, hb⟩
  have heq : Build.eq a' b' = .ok (.eq a' b') := Build.eq_eq_ok.mpr ⟨⟨_, ha, hb⟩, rfl⟩
  have heval : ∀ (σ : Assignment) (x y : BitVec n), a'.eval σ = .ok (ofBitVec x) →
      b'.eval σ = .ok (ofBitVec y) → (Formula.eq a' b').eval σ = .ok (.bool (x = y)) := by
    intro σ x y hx hy
    rw [eval_eq_eq_ok]
    exact ⟨_, _, hx, hy, by rw [decide_eq_decide.mpr ofBitVec_inj]⟩
  by_cases hkind : kind ≠ .equal ∧ kind ≠ .notEqual
  · refine ⟨.binary (.compareBits (bitOrder kind (sign = .unsigned))) a' b', ?_,
      fun σ x y hx hy => ?_⟩
    · have hbuild : Build.compareBits (bitOrder kind (sign = .unsigned)) a' b' =
          .ok (.binary (.compareBits (bitOrder kind (sign = .unsigned))) a' b') := by
        simp [Build.compareBits, Build.requireBits_eq_ok.mpr ha, hsame]
      rw [compareValue_of_unify kind hunify ha hb]
      cases kind with
      | equal => exact absurd rfl hkind.1
      | notEqual => exact absurd rfl hkind.2
      | _ => exact hbuild
    · rw [(eval_followsTheory σ).comparison _ n x y a' b' hn.1 hn.2 hx hy, bitOrder_denote _ hkind]
  · cases kind with
    | equal =>
        exact ⟨.eq a' b', (compareValue_of_unify .equal hunify ha hb).trans heq, heval⟩
    | notEqual =>
        refine ⟨.not (.eq a' b'), ?_, fun σ x y hx hy => ?_⟩
        · have hne : Build.ne a' b' = .ok (.not (.eq a' b')) :=
            Build.ne_eq_ok.mpr ⟨⟨_, ha, hb⟩, rfl⟩
          exact (compareValue_of_unify .notEqual hunify ha hb).trans hne
        · rw [eval_not_eq_ok]
          exact ⟨_, heval σ x y hx hy, by simp [IL.Comparison.denote]⟩
    | _ => simp at hkind

/-- A comparison of bit vectors compares them in the greater width, where the sign of the
instruction has brought them. -/
theorem compareValue_extends (kind : Comparison) (sign : Sign) (ha : a.sort = .ok (.bitVec m))
    (hb : b.sort = .ok (.bitVec n)) (hm : 1 ≤ m ∧ m ≤ 64) (hn : 1 ≤ n ∧ n ≤ 64) :
    ∃ f, compareValue kind sign a b = .ok f ∧
      ∀ (σ : Assignment) (x : BitVec m) (y : BitVec n), a.eval σ = .ok (ofBitVec x) →
        b.eval σ = .ok (ofBitVec y) →
        f.eval σ = .ok (.bool (kind.denote (sign = .unsigned)
          (extend (!decide (sign = .unsigned)) (max m n) x)
          (extend (!decide (sign = .unsigned)) (max m n) y))) := by
  obtain ⟨a', b', hunify, hsorta, hsortb, heval⟩ :=
    unify_extends (!decide (sign = .unsigned)) ha hb hm hn
  obtain ⟨f, hf, hfeval⟩ := exists_compareValue kind
    ⟨Nat.le_trans hm.1 (Nat.le_max_left m n), Nat.max_le.mpr ⟨hm.2, hn.2⟩⟩ hunify hsorta hsortb
  refine ⟨f, hf, fun σ x y hx hy => ?_⟩
  obtain ⟨hx', hy'⟩ := heval σ x y hx hy
  exact hfeval σ _ _ hx' hy'

/-! ## Variables -/

/-- The sign of an instruction extends an operand like its type does. -/
def IL.Sign.Suits (sign : Sign) (t : Ty) (k : Nat) (x : BitVec m) : Prop :=
  m = k ∨ t.isSigned = !decide (sign = .unsigned) ∨ x.msb = false

namespace Evaluator

theorem exists_value_load {v : Evaluator} {x : Variable} (before : Nat)
    (hx : x.type.bits? = some m)
    (hslot : v.memory.Holds (.ofVariable v.depth x) (.bitVec m)) :
    ∃ e, v.value before (.load x) = .ok e ∧ e.sort = .ok (.bitVec m) := by
  rw [value]
  exact hslot.exists_read (sort_of_bits? hx)

/-- How a comparison of two variables with `m` and with `n` bits is evaluated: to the comparison of
the operands, widened by the sign of the instruction. -/
structure ComparesWidened (v : Evaluator) (before : Nat) (kind : Comparison) (sign : Sign)
    (x y : Variable) (m n : Nat) (a b f : Formula) : Prop where
  lhs : v.value before (.load x) = .ok a
  rhs : v.value before (.load y) = .ok b
  value : v.value before (.compare kind sign (.load x) (.load y)) = .ok f
  /-- The narrower operand is extended by the sign of the instruction. -/
  extended : ∀ (σ : Assignment) (p : BitVec m) (q : BitVec n), a.eval σ = .ok (ofBitVec p) →
    b.eval σ = .ok (ofBitVec q) → f.eval σ = .ok (.bool (kind.denote (sign = .unsigned)
      (extend (!decide (sign = .unsigned)) (max m n) p)
      (extend (!decide (sign = .unsigned)) (max m n) q)))
  /-- If this suits the types, then each operand is widened by its own type. -/
  widened : ∀ (σ : Assignment) (p : BitVec m) (q : BitVec n), a.eval σ = .ok (ofBitVec p) →
    b.eval σ = .ok (ofBitVec q) → sign.Suits x.type (max m n) p →
    sign.Suits y.type (max m n) q → f.eval σ = .ok (.bool (kind.denote (sign = .unsigned)
      (x.type.widen (max m n) p) (y.type.widen (max m n) q)))
  /-- Conversions to the greater width always do this. -/
  converted_lhs : ∀ u : Ty, u.bits? = some (max m n) → ∃ a',
    convert v.sorts a x.type u = .ok a' ∧ coerce v.sorts a x.type u = .ok a' ∧
    ∀ (σ : Assignment) (p : BitVec m), a.eval σ = .ok (ofBitVec p) →
      a'.eval σ = .ok (ofBitVec (x.type.widen (max m n) p))
  /-- And so for the other operand. -/
  converted_rhs : ∀ u : Ty, u.bits? = some (max m n) → ∃ b',
    convert v.sorts b y.type u = .ok b' ∧ coerce v.sorts b y.type u = .ok b' ∧
    ∀ (σ : Assignment) (q : BitVec n), b.eval σ = .ok (ofBitVec q) →
      b'.eval σ = .ok (ofBitVec (y.type.widen (max m n) q))

/-- **Variables of different widths are compared in the greater width**, where the sign of the
instruction has brought them. -/
theorem compare_widens (v : Evaluator) (before : Nat) (kind : Comparison) (sign : Sign)
    {x y : Variable} (hx : x.type.bits? = some m) (hy : y.type.bits? = some n)
    (hslotx : v.memory.Holds (.ofVariable v.depth x) (.bitVec m))
    (hsloty : v.memory.Holds (.ofVariable v.depth y) (.bitVec n)) :
    ∃ a b f, v.ComparesWidened before kind sign x y m n a b f := by
  obtain ⟨a, ha, hsorta⟩ := exists_value_load before hx hslotx
  obtain ⟨b, hb, hsortb⟩ := exists_value_load before hy hsloty
  obtain ⟨f, hf, hfeval⟩ :=
    compareValue_extends kind sign hsorta hsortb (bits?_bounds hx) (bits?_bounds hy)
  refine ⟨a, b, f, ha, hb, ?_, hfeval, fun σ p q hp hq hsuitsp hsuitsq => ?_,
    fun u hu => convert_widens hsorta hx hu,
    fun u hu => convert_widens hsortb hy hu⟩
  · have hsites : before + (Expression.load x).siteCount = before := rfl
    rw [Evaluator.value, ha, hsites, hb]
    exact hf
  · rw [← (extend_eq_widen_iff (Nat.le_max_left m n) _ x.type p).mpr hsuitsp,
      ← (extend_eq_widen_iff (Nat.le_max_right m n) _ y.type q).mpr hsuitsq]
    exact hfeval σ p q hp hq

def level : Variable := ⟨"level", .local, .uint8⟩

def total : Variable := ⟨"total", .local, .int32⟩

def blank : Evaluator :=
  { memory := {}, sorts := {}, depth := 0, siteCount := 0, results := ∅ }

/-- A level of 5 in a total of 7. -/
def someLevels : Assignment
  | "frame:0:local:level" => some (ofBitVec 5#8)
  | "frame:0:local:total" => some (ofBitVec 7#32)
  | _ => none

theorem level_below_total :
    blank.memory.Holds (.ofVariable 0 level) (.bitVec 8) ∧
      blank.memory.Holds (.ofVariable 0 total) (.bitVec 32) ∧
      ∃ f, blank.value 0 (.compare .less .none (.load level) (.load total)) = .ok f ∧
        f.eval someLevels = .ok (.bool true) := by
  have hempty : ∀ (a : Address) (s : SmtSort), blank.memory.Holds a s := by
    intro a s value h
    simp [blank] at h
  obtain ⟨a, b, f, h⟩ := compare_widens blank 0 .less .none (x := level) (y := total)
    rfl rfl (hempty _ _) (hempty _ _)
  have ha : a = .var "frame:0:local:level" (.bitVec 8) := (Except.ok.inj h.lhs).symm
  have hb : b = .var "frame:0:local:total" (.bitVec 32) := (Except.ok.inj h.rhs).symm
  refine ⟨hempty _ _, hempty _ _, f, h.value, ?_⟩
  exact h.widened someLevels 5#8 7#32 (by rw [ha]; rfl) (by rw [hb]; rfl) (.inr (.inr rfl))
    (.inl rfl)

def filledMemory : Memory :=
  (blank.memory.write (.ofVariable 0 level) (.bits 0xff 8)).write
    (.ofVariable 0 total) (.bits 0xff 32)

/-- **An unsigned byte is compared as if it were signed.** The two variables hold one number, and
they are found to be different. -/
theorem byte_misread :
    ∃ f, { blank with memory := filledMemory }.value 0
        (.compare .equal .none (.load level) (.load total)) = .ok f ∧
      f.eval (fun _ => none) = .ok (.bool false) ∧
      Comparison.equal.denote false (level.type.widen 32 0xff#8) (total.type.widen 32 0xff#32) =
        true := by
  have hlevel : filledMemory.read {} (.ofVariable 0 level) .uint8 = .ok (.bits 0xff 8) := by
    rw [filledMemory, Memory.read_write_of_ne (by decide)]
    exact Memory.read_write_self
  have htotal : filledMemory.read {} (.ofVariable 0 total) .int32 = .ok (.bits 0xff 32) :=
    Memory.read_write_self
  have hcompare : compareValue .equal .none (.bits 0xff 8) (.bits 0xff 32) =
      .ok (.eq (.unary (.signExtend 24) (.bits 0xff 8)) (.bits 0xff 32)) := by rfl
  refine ⟨.eq (.unary (.signExtend 24) (.bits 0xff 8)) (.bits 0xff 32), ?_, by decide, by decide⟩
  simp only [value]
  show (do
    let a ← filledMemory.read {} (.ofVariable 0 level) .uint8
    let b ← filledMemory.read {} (.ofVariable 0 total) .int32
    compareValue .equal .none a b) = _
  rw [hlevel, htotal]
  exact hcompare

end Evaluator

end PlayerPaths
