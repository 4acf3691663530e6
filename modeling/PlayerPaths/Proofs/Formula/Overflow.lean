import PlayerPaths.Proofs.Formula.BitVectors
import PlayerPaths.Proofs.Formula.Construction
import PlayerPaths.Proofs.Formula.NormalForm
import PlayerPaths.Proofs.Outcomes

/-!
# Overflow while values are computed

On values of the right sorts the functions of formulas end in a value or without one: sums are
checked, words wrap around, and widths and shifts are bounded by the sorts. The one exception is the
quotient of the least integer by `-1`, which leaves the range of 64 bits
(`BinaryFunction.apply_outcome`). A well-sorted formula in range therefore overflows only where it
divides these two numbers: when it is evaluated (`Formula.eval_outcome`), and when its constants are
folded, which overflows exactly then (`Formula.simplify_error_iff`).
-/

namespace PlayerPaths

open Formula

/-! ## Functions on values -/

theorem intValue_outcome (i : Int) : Meets (· = .undefined) (fun _ => True) (intValue i) := by
  unfold intValue
  split
  · exact trivial
  · exact .throw rfl

/-- A value of a bit vector sort spells a bit vector. -/
theorem Formula.IsValue.exists_ofBitVec {v : Formula} {w : Nat} (h : v.IsValue (.bitVec w)) :
    (1 ≤ w ∧ w ≤ 64) ∧ ∃ x : BitVec w, v = ofBitVec x := by
  obtain ⟨n, rfl⟩ := constant_bitVec h.constant h.hasSort
  obtain ⟨hw, hn⟩ := isValue_lit_bits.mp h
  exact ⟨hw, .ofNatLT n hn, rfl⟩

/-- A function of one argument takes values to values. -/
theorem UnaryFunction.apply_isValue {f : UnaryFunction} {a v : Formula} {s t : SmtSort}
    (ha : a.IsValue s) (hf : f.result? s = some t) (ht : t.inRange = true)
    (h : f.apply a = .ok v) : v.IsValue t := by
  obtain ⟨hc, hv⟩ := apply_hasSort hf ha.constant ha.hasSort h
  refine ⟨hc, hv, ?_⟩
  rcases apply_computed h with hcomputed | ⟨r, es, rfl, hmem⟩
  · exact hcomputed.inRange hv ht
  · exact (every_nary.mp ha.inRange).2 v hmem

/-- A function of two arguments takes values to values. -/
theorem BinaryFunction.apply_isValue {f : BinaryFunction} {a b v : Formula} {s t u : SmtSort}
    (ha : a.IsValue s) (hb : b.IsValue t) (hf : f.result? s t = some u) (hu : u.inRange = true)
    (h : f.apply a b = .ok v) : v.IsValue u := by
  obtain ⟨hc, hv⟩ := apply_hasSort hf ha.constant hb.constant ha.hasSort hb.hasSort h
  exact ⟨hc, hv, (apply_computed h).inRange hv hu⟩

/-- A function of one argument does not fault on values. -/
theorem UnaryFunction.apply_outcome {f : UnaryFunction} {a : Formula} {s t : SmtSort}
    (ha : a.IsValue s) (hf : f.result? s = some t) (ht : t.inRange = true) :
    Meets (· = .undefined) (fun v => v.IsValue t) (f.apply a) := by
  have hends : Meets (· = .undefined) (fun _ => True) (f.apply a) := by
    cases f with
    | not =>
        obtain ⟨rfl, -⟩ := result?_not.mp hf
        obtain ⟨b, rfl⟩ := constant_bool ha.constant ha.hasSort
        exact trivial
    | neg =>
        obtain ⟨rfl | rfl, -⟩ := result?_neg.mp hf
        · obtain ⟨i, rfl⟩ := constant_int ha.constant ha.hasSort
          exact intValue_outcome (-i)
        · obtain ⟨x, rfl⟩ := constant_real ha.constant ha.hasSort
          exact trivial
    | extract high low =>
        obtain ⟨w, rfl, hrange, -⟩ := result?_extract.mp hf
        obtain ⟨hw, x, rfl⟩ := ha.exists_ofBitVec
        rw [apply_extract hw.2 hrange]
        exact trivial
    | zeroExtend extra =>
        obtain ⟨w, rfl, hbound, -⟩ := result?_zeroExtend.mp hf
        obtain ⟨hw, x, rfl⟩ := ha.exists_ofBitVec
        rw [apply_zeroExtend hbound]
        exact trivial
    | signExtend extra =>
        obtain ⟨w, rfl, hbound, -⟩ := result?_signExtend.mp hf
        obtain ⟨hw, x, rfl⟩ := ha.exists_ofBitVec
        rw [apply_signExtend ⟨hw.1, hbound⟩]
        exact trivial
    | bitsToInt =>
        obtain ⟨⟨w, rfl⟩, -⟩ := result?_bitsToInt.mp hf
        obtain ⟨n, rfl⟩ := constant_bitVec ha.constant ha.hasSort
        exact intValue_outcome n
    | intToBits w =>
        obtain ⟨rfl, -⟩ := result?_intToBits.mp hf
        obtain ⟨i, rfl⟩ := constant_int ha.constant ha.hasSort
        exact trivial
    | toReal =>
        obtain ⟨rfl, -⟩ := result?_toReal.mp hf
        obtain ⟨i, rfl⟩ := constant_int ha.constant ha.hasSort
        exact trivial
    | toInt =>
        obtain ⟨rfl, -⟩ := result?_toInt.mp hf
        obtain ⟨x, rfl⟩ := constant_real ha.constant ha.hasSort
        simp only [apply]
        split
        · split
          · exact trivial
          · exact .throw rfl
        · exact .throw rfl
    | get r i =>
        obtain ⟨rfl, -⟩ := result?_get.mp hf
        obtain ⟨es, rfl, -⟩ := constant_record ha.constant ha.hasSort
        simp only [apply]
        split
        · exact trivial
        · exact .throw rfl
  exact hends.and_value fun v hv => apply_isValue ha hf ht hv

/-- A quotient of two integers in range is in range, unless the least one is divided by `-1`. -/
theorem ediv_inRange {x y : Int} (hx : Word.inRange x = true) (hy : y ≠ 0)
    (h : Word.inRange (x / y) = false) : x = Word.minInt ∧ y = -1 := by
  have hmin : Word.minInt = -9223372036854775808 := by decide
  have hmax : Word.maxInt = 9223372036854775807 := by decide
  simp only [Word.inRange, hmin, hmax, Bool.and_eq_true, decide_eq_true_eq, Bool.and_eq_false_iff,
    decide_eq_false_iff_not] at hx h ⊢
  rcases Int.lt_or_gt_of_ne hy with hneg | hpos
  · -- The quotient is the opposite of the quotient by a positive number.
    obtain ⟨z, rfl⟩ : ∃ z, y = -z := ⟨-y, by omega⟩
    have hz : 0 < z := by omega
    rw [Int.ediv_neg] at h
    have hupper : x / z ≤ 9223372036854775807 :=
      Int.ediv_le_of_le_mul hz (by omega)
    have hlower : z ≠ 1 → -9223372036854775807 ≤ x / z := fun hne =>
      Int.le_ediv_of_mul_le hz (by omega)
    by_cases hone : z = 1
    · subst hone
      rw [Int.ediv_one] at h
      omega
    · have := hlower hone
      omega
  · have hupper : x / y ≤ 9223372036854775807 :=
      Int.ediv_le_of_le_mul hpos (by omega)
    have hlower : -9223372036854775808 ≤ x / y :=
      Int.le_ediv_of_mul_le hpos (by omega)
    omega

theorem ArithOp.applyInt_outcome {op : ArithOp} {x y : Int} (hx : Word.inRange x = true) :
    Meets (fun err => err = .undefined ∨
        err = .fault .overflow ∧ op = .div ∧ x = Word.minInt ∧ y = -1)
      (fun _ => True) (op.applyInt x y) := by
  cases op with
  | add => exact (intValue_outcome (x + y)).weaken fun _ h => .inl h
  | sub => exact (intValue_outcome (x - y)).weaken fun _ h => .inl h
  | mul => exact (intValue_outcome (x * y)).weaken fun _ h => .inl h
  | div =>
      rw [applyInt]
      split
      · exact .throw (.inl rfl)
      · next hy =>
        split
        · exact trivial
        · next hrange =>
          exact .throw (.inr ⟨rfl, rfl, ediv_inRange hx hy (by simpa using hrange)⟩)

theorem ArithOp.applyReal_outcome {op : ArithOp} {x y : Float} :
    Meets (· = .undefined) (fun _ => True) (op.applyReal x y) := by
  cases op with
  | add | sub | mul => exact trivial
  | div =>
      rw [applyReal]
      split
      · exact .throw rfl
      · exact trivial

/-- A function of two arguments faults on values only when the least integer is divided by `-1`. -/
theorem BinaryFunction.apply_outcome {f : BinaryFunction} {a b : Formula} {s t u : SmtSort}
    (ha : a.IsValue s) (hb : b.IsValue t) (hf : f.result? s t = some u) (hu : u.inRange = true) :
    Meets (fun err => err = .undefined ∨
        err = .fault .overflow ∧ f = .arith .div ∧ a = .int Word.minInt ∧ b = .int (-1))
      (fun v => v.IsValue u) (f.apply a b) := by
  refine Meets.and_value (P := fun _ => True) ?_ fun v hv => apply_isValue ha hb hf hu hv
  cases f with
  | eq => exact trivial
  | bits op =>
      obtain ⟨w, rfl, rfl, -⟩ := result?_bits.mp hf
      obtain ⟨hw, x, rfl⟩ := ha.exists_ofBitVec
      obtain ⟨-, y, rfl⟩ := hb.exists_ofBitVec
      rw [apply_bits hw]
      exact trivial
  | compareBits c =>
      obtain ⟨⟨w, rfl, rfl⟩, -⟩ := result?_compareBits.mp hf
      obtain ⟨m, rfl⟩ := constant_bitVec ha.constant ha.hasSort
      obtain ⟨n, rfl⟩ := constant_bitVec hb.constant hb.hasSort
      exact trivial
  | arith op =>
      obtain ⟨rfl | rfl, rfl, -⟩ := result?_arith.mp hf
      · obtain ⟨i, rfl⟩ := constant_int ha.constant ha.hasSort
        obtain ⟨j, rfl⟩ := constant_int hb.constant hb.hasSort
        refine (ArithOp.applyInt_outcome (isValue_int.mp ha)).weaken ?_
        rintro err (rfl | ⟨rfl, rfl, rfl, rfl⟩)
        · exact .inl rfl
        · exact .inr ⟨rfl, rfl, rfl, rfl⟩
      · obtain ⟨x, rfl⟩ := constant_real ha.constant ha.hasSort
        obtain ⟨y, rfl⟩ := constant_real hb.constant hb.hasSort
        exact ArithOp.applyReal_outcome.weaken fun _ h => .inl h
  | compareArith c =>
      simp only [apply]
      split
      · exact trivial
      · exact .throw (.inl rfl)
  | concat =>
      obtain ⟨m, n, rfl, rfl, hbound, -⟩ := result?_concat.mp hf
      obtain ⟨hm, x, rfl⟩ := ha.exists_ofBitVec
      obtain ⟨-, y, rfl⟩ := hb.exists_ofBitVec
      rw [apply_concat hm.1 hbound]
      exact trivial

theorem apply_div_overflow :
    (BinaryFunction.arith .div).apply (.int Word.minInt) (.int (-1)) =
      .error (.fault .overflow) := by
  decide

namespace Formula

/-! ## Evaluation -/

variable {σ : Assignment} {vars : List (String × SmtSort)}

/-- A part divides the least integer by `-1`. -/
def OverflowsAt (σ : Assignment) (e : Formula) : Prop :=
  ∃ x y, .binary (.arith .div) x y ∈ e.parts ∧ x.eval σ = .ok (.int Word.minInt) ∧
    y.eval σ = .ok (.int (-1))

/-- How the evaluation of a formula may fail. -/
def FailsAt (σ : Assignment) (e : Formula) (err : EvalError) : Prop :=
  err = .undefined ∨ err = .fault .overflow ∧ e.OverflowsAt σ

theorem FailsAt.of_part {e p : Formula} {err : EvalError} (h : p.FailsAt σ err)
    (hp : p ∈ e.parts) : e.FailsAt σ err := by
  rcases h with rfl | ⟨rfl, x, y, hdiv, hx, hy⟩
  · exact .inl rfl
  · exact .inr ⟨rfl, x, y, mem_parts_trans hdiv hp, hx, hy⟩

/-- The value of a formula in range is a value of its sort. -/
theorem eval_isValue {e v : Formula} {s : SmtSort} (hs : e.HasSort s) (hr : e.InRange)
    (hσ : Assigns σ vars) (hvars : e.Every (varIn vars)) (h : e.eval σ = .ok v) : v.IsValue s := by
  induction e using ind_connective generalizing s v with
  | var name t =>
      obtain ⟨w, hw, hval⟩ := hσ name t (hvars.self name t rfl)
      rw [eval_var_eq_ok, hw] at h
      obtain rfl := Option.some.inj h
      exact hasSort_var.mp hs ▸ hval
  | lit l =>
      obtain rfl := Except.ok.inj h
      exact ⟨rfl, hs, hr⟩
  | unary f a ih =>
      obtain ⟨t, ht, hf⟩ := hasSort_unary.mp hs
      obtain ⟨x, hx, happly⟩ := eval_unary_eq_ok.mp h
      have hxv := ih ht (every_unary.mp hr).2 (every_unary.mp hvars).2 hx
      exact UnaryFunction.apply_isValue hxv hf (sort_inRange hs hr) happly
  | binary f a b iha ihb =>
      obtain ⟨t, u, ht, hu, hf⟩ := hasSort_binary.mp hs
      obtain ⟨x, y, hx, hy, happly⟩ := eval_binary_eq_ok.mp h
      have hxv := iha ht (every_binary.mp hr).2.1 (every_binary.mp hvars).2.1 hx
      have hyv := ihb hu (every_binary.mp hr).2.2 (every_binary.mp hvars).2.2 hy
      exact BinaryFunction.apply_isValue hxv hyv hf (sort_inRange hs hr) happly
  | ite c a b _ iha ihb =>
      obtain ⟨-, ha, hb⟩ := hasSort_ite.mp hs
      rcases eval_ite_eq_ok.mp h with ⟨-, h⟩ | ⟨-, h⟩
      · exact iha ha (every_ite.mp hr).2.2.1 (every_ite.mp hvars).2.2.1 h
      · exact ihb hb (every_ite.mp hr).2.2.2 (every_ite.mp hvars).2.2.2 h
  | make r es ih =>
      obtain ⟨rfl, hfields⟩ := hasSort_make.mp hs
      obtain ⟨vs, hvs, rfl⟩ := eval_make_eq_ok.mp h
      refine isValue_record.mpr ⟨(every_nary.mp hr).1, vs, rfl, ?_⟩
      rw [List.forall₂_iff_get] at *
      refine ⟨hvs.1.symm.trans hfields.1, fun i hi hj => ?_⟩
      have hmem := List.get_mem es ⟨i, hvs.1 ▸ hi⟩
      exact ih _ hmem (hfields.2 i (hvs.1 ▸ hi) hj) ((every_nary.mp hr).2 _ hmem)
        ((every_nary.mp hvars).2 _ hmem) (hvs.2 i (hvs.1 ▸ hi) hi)
  | connective f es hf _ =>
      obtain ⟨rfl, -⟩ := (hasSort_junction hf).mp hs
      obtain ⟨b, rfl, -⟩ := (eval_junction_eq_ok hf).mp h
      exact isValue_bool b

theorem truthOf_outcome (v : Formula) : Meets (· = .undefined) (fun _ => True) (truthOf v) := by
  unfold truthOf
  split
  · exact trivial
  · exact .throw rfl

/-- A conjunction or disjunction of values has a value if they are truth values. -/
theorem apply_junction_outcome {f : NaryFunction} (hf : f = .and ∨ f = .or) (vs : List Formula) :
    Meets (· = .undefined) (fun _ => True) (f.apply vs) := by
  have htruths : Meets (· = .undefined) (fun _ => True) (vs.mapM truthOf) :=
    (Meets.mapM fun v _ => truthOf_outcome v).imp fun _ _ => trivial
  rcases hf with rfl | rfl <;> exact htruths.bind fun _ _ => .pure trivial

theorem evalAll_outcome {E : EvalError → Prop} {es : List Formula}
    (h : ∀ e ∈ es, Meets E (fun _ => True) (e.eval σ)) :
    Meets E (fun _ => True) (evalAll σ es) := by
  rw [evalAll_eq]
  exact (Meets.mapM h).imp fun _ _ => trivial

/-- **Evaluation overflows only where the least integer is divided by `-1`**, if the variables have
values of their sorts. -/
theorem eval_outcome {e : Formula} {s : SmtSort} (hs : e.HasSort s) (hr : e.InRange)
    (hσ : Assigns σ vars) (hvars : e.Every (varIn vars)) :
    Meets (e.FailsAt σ) (fun v => v.IsValue s) (e.eval σ) := by
  refine Meets.and_value (P := fun _ => True) ?_ fun v hv => eval_isValue hs hr hσ hvars hv
  induction e using ind_connective generalizing s with
  | var name t =>
      rw [eval]
      split
      · exact trivial
      · exact .throw (.inl rfl)
  | lit l => exact trivial
  | unary f a ih =>
      obtain ⟨t, ht, hf⟩ := hasSort_unary.mp hs
      have hra := (every_unary.mp hr).2
      have hva := (every_unary.mp hvars).2
      have ha := (ih ht hra hva).weaken fun _ h => h.of_part (e := .unary f a) (by simp)
      rw [eval]
      refine (ha.and_value fun x hx => eval_isValue ht hra hσ hva hx).bind fun x hx => ?_
      exact ((UnaryFunction.apply_outcome hx hf (sort_inRange hs hr)).weaken
        fun _ h => .inl h).imp fun _ _ => trivial
  | binary f a b iha ihb =>
      obtain ⟨t, u, ht, hu, hf⟩ := hasSort_binary.mp hs
      obtain ⟨-, hra, hrb⟩ := every_binary.mp hr
      obtain ⟨-, hva, hvb⟩ := every_binary.mp hvars
      have ha := (iha ht hra hva).weaken fun _ h => h.of_part (e := .binary f a b) (by simp)
      have hb := (ihb hu hrb hvb).weaken fun _ h => h.of_part (e := .binary f a b) (by simp)
      rw [eval]
      refine ha.eq_ok.bind fun x hx => hb.eq_ok.bind fun y hy => ?_
      refine ((BinaryFunction.apply_outcome (eval_isValue ht hra hσ hva hx)
        (eval_isValue hu hrb hσ hvb hy) hf (sort_inRange hs hr)).weaken ?_).imp fun _ _ => trivial
      rintro err (rfl | ⟨rfl, rfl, rfl, rfl⟩)
      · exact .inl rfl
      · exact .inr ⟨rfl, a, b, mem_parts_self _, hx, hy⟩
  | ite c a b ihc iha ihb =>
      obtain ⟨hc, ha, hb⟩ := hasSort_ite.mp hs
      obtain ⟨-, hrc, hra, hrb⟩ := every_ite.mp hr
      obtain ⟨-, hvc, hva, hvb⟩ := every_ite.mp hvars
      have hc := (ihc hc hrc hvc).weaken fun _ h => h.of_part (e := .ite c a b) (by simp)
      have ha := (iha ha hra hva).weaken fun _ h => h.of_part (e := .ite c a b) (by simp)
      have hb := (ihb hb hrb hvb).weaken fun _ h => h.of_part (e := .ite c a b) (by simp)
      rw [eval]
      refine hc.bind fun x _ => ((truthOf_outcome x).weaken fun _ h => .inl h).bind fun t _ => ?_
      cases t with
      | true => exact ha
      | false => exact hb
  | make r es ih =>
      obtain ⟨rfl, hfields⟩ := hasSort_make.mp hs
      rw [eval]
      refine (evalAll_outcome fun e he => ?_).bind fun vs _ => .pure trivial
      obtain ⟨f, -, hf⟩ := forall₂_exists_of_mem_left hfields he
      exact (ih e he hf ((every_nary.mp hr).2 e he) ((every_nary.mp hvars).2 e he)).weaken
        fun _ h => h.of_part (mem_parts_operand he)
  | connective f es hf ih =>
      obtain ⟨-, hsorts⟩ := (hasSort_junction hf).mp hs
      rw [eval]
      refine (evalAll_outcome fun e he => ?_).bind fun vs _ =>
        (apply_junction_outcome hf vs).weaken fun _ h => .inl h
      exact (ih e he (hsorts e he) ((every_nary.mp hr).2 e he)
        ((every_nary.mp hvars).2 e he)).weaken
        fun _ h => h.of_part (mem_parts_operand he)

/-! ## Folding of constants -/

/-- A part divides the least integer by `-1`, which its operands are simplified to. -/
def OverflowsWhenFolded (e : Formula) : Prop :=
  ∃ x y, .binary (.arith .div) x y ∈ e.parts ∧ x.simplify = .ok (.int Word.minInt) ∧
    y.simplify = .ok (.int (-1))

/-- How the simplification of a formula may fail. -/
def FailsToFold (e : Formula) (err : Error) : Prop :=
  err = .fault .overflow ∧ e.OverflowsWhenFolded

theorem FailsToFold.of_part {e p : Formula} {err : Error} (h : p.FailsToFold err)
    (hp : p ∈ e.parts) : e.FailsToFold err := by
  obtain ⟨rfl, x, y, hdiv, hx, hy⟩ := h
  exact ⟨rfl, x, y, mem_parts_trans hdiv hp, hx, hy⟩

/-- Folding passes on the faults of the computation, and nothing else. -/
theorem foldOr_outcome {E : Error → Prop} {constant : Bool} {value : Evaluation Formula}
    {otherwise : Formula} (h : constant = true →
      Meets (fun err => ∀ reason, err = .fault reason → E (.fault reason)) (fun _ => True) value) :
    Meets E (fun _ => True) (foldOr constant value otherwise) := by
  unfold foldOr
  split
  · next hc =>
    split
    · exact trivial
    · exact trivial
    · exact .throw ((h hc).error rfl _ rfl)
  · exact trivial

theorem simplifyUnary_outcome {f : UnaryFunction} {a : Formula} {s t : SmtSort}
    (ha : a.HasSort s) (hr : a.InRange) (hf : f.result? s = some t) (ht : t.inRange = true) :
    Meets (fun _ => False) (fun _ => True) (simplifyUnary f a) := by
  refine foldOr_outcome fun hc => ?_
  refine ((UnaryFunction.apply_outcome ⟨hc, ha, hr⟩ hf ht).weaken ?_).imp fun _ _ => trivial
  rintro err rfl reason heq
  cases heq

theorem simplifyBinary_outcome {f : BinaryFunction} {a b : Formula} {s t u : SmtSort}
    (ha : a.HasSort s) (hb : b.HasSort t) (hra : a.InRange) (hrb : b.InRange)
    (hf : f.result? s t = some u) (hu : u.inRange = true) :
    Meets (fun err => err = .fault .overflow ∧
        f = .arith .div ∧ a = .int Word.minInt ∧ b = .int (-1))
      (fun _ => True) (simplifyBinary f a b) := by
  unfold simplifyBinary
  split
  · exact trivial
  · refine foldOr_outcome fun hc => ?_
    rw [Bool.and_eq_true] at hc
    refine ((BinaryFunction.apply_outcome ⟨hc.1, ha, hra⟩ ⟨hc.2, hb, hrb⟩ hf hu).weaken
      ?_).imp fun _ _ => trivial
    rintro err (rfl | ⟨rfl, hdiv⟩) reason heq
    · cases heq
    · cases heq
      exact ⟨rfl, hdiv⟩

theorem simplifyAll_outcome {E : Error → Prop} {es : List Formula}
    (h : ∀ e ∈ es, Meets E (fun _ => True) e.simplify) :
    Meets E (fun _ => True) (simplifyAll es) := by
  rw [simplifyAll_eq]
  exact (Meets.mapM h).imp fun _ _ => trivial

/-- **Folding overflows only where the least integer is divided by `-1`.** -/
theorem simplify_outcome {e : Formula} {s : SmtSort} (hs : e.HasSort s) (hr : e.InRange) :
    Meets e.FailsToFold (fun _ => True) e.simplify := by
  induction e using ind_connective generalizing s with
  | var name t => exact trivial
  | lit l => exact trivial
  | unary f a ih =>
      obtain ⟨t, ht, hf⟩ := hasSort_unary.mp hs
      have hra := (every_unary.mp hr).2
      have ha := (ih ht hra).weaken fun _ h => h.of_part (e := .unary f a) (by simp)
      rw [simplify]
      refine ha.eq_ok.bind fun a' ha' => ?_
      exact (simplifyUnary_outcome (simplify_hasSort ht ha')
        (simplify_every stable_nodeInRange ht ha' hra) hf (sort_inRange hs hr)).weaken
        fun _ h => h.elim
  | binary f a b iha ihb =>
      obtain ⟨t, u, ht, hu, hf⟩ := hasSort_binary.mp hs
      obtain ⟨-, hra, hrb⟩ := every_binary.mp hr
      have ha := (iha ht hra).weaken fun _ h => h.of_part (e := .binary f a b) (by simp)
      have hb := (ihb hu hrb).weaken fun _ h => h.of_part (e := .binary f a b) (by simp)
      rw [simplify]
      refine ha.eq_ok.bind fun a' ha' => hb.eq_ok.bind fun b' hb' => ?_
      refine (simplifyBinary_outcome (simplify_hasSort ht ha') (simplify_hasSort hu hb')
        (simplify_every stable_nodeInRange ht ha' hra)
        (simplify_every stable_nodeInRange hu hb' hrb) hf (sort_inRange hs hr)).weaken ?_
      rintro err ⟨rfl, rfl, rfl, rfl⟩
      exact ⟨rfl, a, b, mem_parts_self _, ha', hb'⟩
  | ite c a b ihc iha ihb =>
      obtain ⟨hc, ha, hb⟩ := hasSort_ite.mp hs
      obtain ⟨-, hrc, hra, hrb⟩ := every_ite.mp hr
      have hc := (ihc hc hrc).weaken fun _ h => h.of_part (e := .ite c a b) (by simp)
      have ha := (iha ha hra).weaken fun _ h => h.of_part (e := .ite c a b) (by simp)
      have hb := (ihb hb hrb).weaken fun _ h => h.of_part (e := .ite c a b) (by simp)
      rw [simplify]
      exact hc.bind fun _ _ => ha.bind fun _ _ => hb.bind fun _ _ => .pure trivial
  | make r es ih =>
      obtain ⟨rfl, hfields⟩ := hasSort_make.mp hs
      rw [simplify]
      refine (simplifyAll_outcome fun e he => ?_).bind fun es' _ => .pure trivial
      obtain ⟨f, -, hf⟩ := forall₂_exists_of_mem_left hfields he
      exact (ih e he hf ((every_nary.mp hr).2 e he)).weaken
        fun _ h => h.of_part (mem_parts_operand he)
  | connective f es hf ih =>
      obtain ⟨-, hsorts⟩ := (hasSort_junction hf).mp hs
      rw [simplify]
      refine (simplifyAll_outcome fun e he => ?_).bind fun es' _ => ?_
      · exact (ih e he (hsorts e he) ((every_nary.mp hr).2 e he)).weaken
          fun _ h => h.of_part (mem_parts_operand he)
      · rcases hf with rfl | rfl <;> exact .pure trivial

/-- The parts of a formula are simplified on the way. -/
theorem simplify_part {e e' p : Formula} (h : e.simplify = .ok e') (hp : p ∈ e.parts) :
    ∃ p', p.simplify = .ok p' := by
  induction e using ind_connective generalizing e' with
  | var name t =>
      obtain rfl := mem_parts_var.mp hp
      exact ⟨_, h⟩
  | lit l =>
      obtain rfl := mem_parts_lit.mp hp
      exact ⟨_, h⟩
  | unary f a ih =>
      obtain ⟨a', ha', -⟩ := simplify_unary_eq_ok.mp h
      rcases mem_parts_unary.mp hp with rfl | hp
      · exact ⟨_, h⟩
      · exact ih ha' hp
  | binary f a b iha ihb =>
      obtain ⟨a', b', ha', hb', -⟩ := simplify_binary_eq_ok.mp h
      rcases mem_parts_binary.mp hp with rfl | hp | hp
      · exact ⟨_, h⟩
      · exact iha ha' hp
      · exact ihb hb' hp
  | ite c a b ihc iha ihb =>
      obtain ⟨c', a', b', hc', ha', hb', -⟩ := simplify_ite_eq_ok.mp h
      rcases mem_parts_ite.mp hp with rfl | hp | hp | hp
      · exact ⟨_, h⟩
      · exact ihc hc' hp
      · exact iha ha' hp
      · exact ihb hb' hp
  | make r es ih =>
      obtain ⟨es', hes', -⟩ := simplify_make_eq_ok.mp h
      rcases mem_parts_nary.mp hp with rfl | ⟨e, he, hp⟩
      · exact ⟨_, h⟩
      · obtain ⟨e', -, he'⟩ := forall₂_exists_of_mem_left hes' he
        exact ih e he he' hp
  | connective f es hf ih =>
      obtain ⟨es', hes', -⟩ := (simplify_junction_eq_ok hf).mp h
      rcases mem_parts_nary.mp hp with rfl | ⟨e, he, hp⟩
      · exact ⟨_, h⟩
      · obtain ⟨e', -, he'⟩ := forall₂_exists_of_mem_left hes' he
        exact ih e he he' hp

/-- What divides the least integer by `-1` is not simplified. -/
theorem OverflowsWhenFolded.simplify_ne_ok {e e' : Formula} (h : e.OverflowsWhenFolded) :
    e.simplify ≠ .ok e' := by
  intro he
  obtain ⟨x, y, hdiv, hx, hy⟩ := h
  obtain ⟨p, hp⟩ := simplify_part he hdiv
  obtain ⟨a, b, ha, hb, hfold⟩ := simplify_binary_eq_ok.mp hp
  obtain rfl := Except.ok.inj (hx.symm.trans ha)
  obtain rfl := Except.ok.inj (hy.symm.trans hb)
  rcases simplifyBinary_cases hfold with ⟨heq, -⟩ | ⟨-, -, -, hv⟩ | ⟨-, rfl⟩
  · cases heq
  · rw [apply_div_overflow] at hv
    cases hv
  · simp [simplifyBinary, foldOr, apply_div_overflow] at hfold

/-- **Simplification fails exactly where it divides the least integer by `-1`.** -/
theorem simplify_error_iff {e : Formula} {err : Error} (hs : e.WellSorted) (hr : e.InRange) :
    e.simplify = .error err ↔ err = .fault .overflow ∧ e.OverflowsWhenFolded := by
  obtain ⟨s, hs⟩ := hs
  refine ⟨(simplify_outcome hs hr).error, ?_⟩
  rintro ⟨rfl, hoverflow⟩
  cases h : e.simplify with
  | ok e' => exact absurd h hoverflow.simplify_ne_ok
  | error err => rw [((simplify_outcome hs hr).error h).1]

end Formula

end PlayerPaths
