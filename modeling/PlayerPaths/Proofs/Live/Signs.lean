import PlayerPaths.Live.CompiledPath
import PlayerPaths.Proofs.Formula.Evaluation
import PlayerPaths.Proofs.Number.DoubleOrder

/-!
# Numbers of which only the sign counts

An axis is reported by its sign. The sign takes the place of the number wherever the axis is only
compared with zero: a formula that looks at axes in no other way (`OnlySigns`) keeps its value when
they are held at their signs (`OnlySigns.eval_signed`).
-/

namespace PlayerPaths

open Formula

/-! ## Signs -/

/-- A number of which the sign is exact: not NaN, and not the negative zero. -/
def HasSign (x : Float) : Prop := 0.0 < x ∨ x < 0.0 ∨ x = 0.0

/-- All comparisons of two numbers of which one is below the other. -/
theorem holds_of_lt {x y : Float} (h : x < y) (op : ArithComparison) :
    op.holds x y = (op == .lt || op == .le) ∧ op.holds y x = (op == .gt || op == .ge) := by
  have hle := Double.le_of_lt h
  have hnot : ¬ y < x := Double.not_lt_of_le hle
  have hnle : ¬ y ≤ x := fun hyx => Double.not_lt_of_le hyx h
  cases op with
  | lt => exact ⟨decide_eq_true h, decide_eq_false hnot⟩
  | le => exact ⟨decide_eq_true hle, decide_eq_false hnle⟩
  | gt => exact ⟨decide_eq_false hnot, decide_eq_true h⟩
  | ge => exact ⟨decide_eq_false hnle, decide_eq_true hle⟩

theorem sign_of_pos {x : Float} (h : 0.0 < x) : InputRead.sign x = 1.0 := if_pos h

theorem sign_of_neg {x : Float} (h : x < 0.0) : InputRead.sign x = -1.0 := by
  have hnot : ¬ x > 0.0 := Double.not_lt_of_le (Double.le_of_lt h)
  rw [InputRead.sign, if_neg hnot, if_pos h]

theorem sign_zero : InputRead.sign 0.0 = 0.0 := by
  rw [InputRead.sign, if_neg (Double.lt_irrefl _), if_neg (Double.lt_irrefl _)]

/-- A number that has a sign compares with zero as its sign does. -/
theorem HasSign.holds {x : Float} (h : HasSign x) (op : ArithComparison) :
    op.holds (InputRead.sign x) 0.0 = op.holds x 0.0 ∧
      op.holds 0.0 (InputRead.sign x) = op.holds 0.0 x := by
  rcases h with h | h | rfl
  · obtain ⟨hx, hx'⟩ := holds_of_lt h op
    obtain ⟨hone, hone'⟩ := holds_of_lt (show (0.0 : Float) < 1.0 by decide +kernel) op
    rw [sign_of_pos h, hx, hx', hone, hone']
    exact ⟨rfl, rfl⟩
  · obtain ⟨hx, hx'⟩ := holds_of_lt h op
    obtain ⟨hone, hone'⟩ := holds_of_lt (show (-1.0 : Float) < 0.0 by decide +kernel) op
    rw [sign_of_neg h, hx, hx', hone, hone']
    exact ⟨rfl, rfl⟩
  · rw [sign_zero]
    exact ⟨rfl, rfl⟩

/-- Only zero has the sign zero. -/
theorem HasSign.sign_eq_zero {x : Float} (h : HasSign x) : InputRead.sign x = 0.0 ↔ x = 0.0 := by
  rcases h with h | h | rfl
  · rw [sign_of_pos h]
    refine iff_of_false (by decide +kernel) ?_
    rintro rfl
    exact Double.lt_irrefl _ h
  · rw [sign_of_neg h]
    refine iff_of_false (by decide +kernel) ?_
    rintro rfl
    exact Double.lt_irrefl _ h
  · exact iff_of_true sign_zero rfl

/-! ## Axes held at their signs -/

/-- A value held at its sign. -/
def signOf (v : Formula) : Formula :=
  match v.number? with
  | some x => .lit (.real (InputRead.sign x))
  | none => v

/-- The assignment that holds some variables at their signs. -/
def Formula.Assignment.signed (σ : Assignment) (axes : List String) : Assignment :=
  fun name => if name ∈ axes then (σ name).map signOf else σ name

/-- A value that is a number with a sign. The zero of an axis is a real number. -/
def SignedValue (v : Formula) : Prop :=
  ∃ x, v.number? = some x ∧ HasSign x ∧ (x = 0.0 → v = .lit (.real 0.0))

/-- A comparison of an axis with zero. -/
inductive SignTest (axes : List String) : Formula → Prop
  | compare {op : ArithComparison} {name : String} {s : SmtSort} (h : name ∈ axes) :
      SignTest axes (.binary (.compareArith op) (.var name s) (.lit (.real 0.0)))
  | compareFlipped {op : ArithComparison} {name : String} {s : SmtSort} (h : name ∈ axes) :
      SignTest axes (.binary (.compareArith op) (.lit (.real 0.0)) (.var name s))
  | eq {name : String} {s : SmtSort} (h : name ∈ axes) :
      SignTest axes (.eq (.var name s) (.lit (.real 0.0)))
  | eqFlipped {name : String} {s : SmtSort} (h : name ∈ axes) :
      SignTest axes (.eq (.lit (.real 0.0)) (.var name s))

/-- A formula that does nothing with axes but compare them with zero. -/
inductive OnlySigns (axes : List String) : Formula → Prop
  | test {e : Formula} (h : SignTest axes e) : OnlySigns axes e
  | var {name : String} {s : SmtSort} (h : name ∉ axes) : OnlySigns axes (.var name s)
  | lit (v : Literal) : OnlySigns axes (.lit v)
  | unary {f : UnaryFunction} {a : Formula} (h : OnlySigns axes a) : OnlySigns axes (.unary f a)
  | binary {f : BinaryFunction} {a b : Formula} (ha : OnlySigns axes a) (hb : OnlySigns axes b) :
      OnlySigns axes (.binary f a b)
  | ite {c a b : Formula} (hc : OnlySigns axes c) (ha : OnlySigns axes a) (hb : OnlySigns axes b) :
      OnlySigns axes (.ite c a b)
  | nary {f : NaryFunction} {es : List Formula} (h : ∀ e ∈ es, OnlySigns axes e) :
      OnlySigns axes (.nary f es)

variable {axes : List String} {σ : Assignment} {e : Formula}

/-- A value that is zero is so at its sign. -/
theorem SignedValue.signOf_eq_zero {v : Formula} (h : SignedValue v) :
    signOf v = .lit (.real 0.0) ↔ v = .lit (.real 0.0) := by
  obtain ⟨x, hx, hsign, hzero⟩ := h
  have hsignOf : signOf v = .lit (.real (InputRead.sign x)) := by simp only [signOf, hx]
  constructor
  · intro heq
    rw [hsignOf] at heq
    exact hzero (hsign.sign_eq_zero.mp (by simpa using heq))
  · rintro rfl
    obtain rfl : (0.0 : Float) = x := by simpa [number?] using hx
    rw [hsignOf, sign_zero]

theorem SignTest.eval_signed (h : SignTest axes e)
    (hσ : ∀ name ∈ axes, ∀ v, σ name = some v → SignedValue v) :
    e.eval (σ.signed axes) = e.eval σ := by
  -- An axis has no value in both assignments, or it has one and its sign.
  have hvalue : ∀ name ∈ axes, (σ name = none ∧ σ.signed axes name = none) ∨
      ∃ v, SignedValue v ∧ σ name = some v ∧ σ.signed axes name = some (signOf v) := by
    intro name hname
    cases hv : σ name with
    | none => exact .inl ⟨rfl, by simp [Assignment.signed, hname, hv]⟩
    | some v => exact .inr ⟨v, hσ name hname v hv, rfl, by simp [Assignment.signed, hname, hv]⟩
  cases h with
  | @compare op name s hname | @compareFlipped op name s hname =>
      rcases hvalue name hname with ⟨hnone, hnone'⟩ | ⟨v, ⟨x, hx, hsign, -⟩, hv, hv'⟩
      · simp only [eval, hnone, hnone']
      · have hsignOf : signOf v = .lit (.real (InputRead.sign x)) := by simp only [signOf, hx]
        obtain ⟨hholds, hholds'⟩ := hsign.holds op
        have hreal : ∀ y, (Formula.lit (.real y)).number? = some y := fun _ => rfl
        simp [eval, hv, hv', hsignOf, BinaryFunction.apply, hreal, hx, hholds, hholds']
  | @eq name s hname =>
      rcases hvalue name hname with ⟨hnone, hnone'⟩ | ⟨v, hsigned, hv, hv'⟩
      · simp only [eval, hnone, hnone']
      · simp [eval, hv, hv', BinaryFunction.apply, hsigned.signOf_eq_zero]
  | @eqFlipped name s hname =>
      rcases hvalue name hname with ⟨hnone, hnone'⟩ | ⟨v, hsigned, hv, hv'⟩
      · simp only [eval, hnone, hnone']
      · simp [eval, hv, hv', BinaryFunction.apply, eq_comm, hsigned.signOf_eq_zero]

/-- **Only the signs count**: a formula that does nothing with axes but compare them with zero has
the same value when they are held at their signs. -/
theorem OnlySigns.eval_signed (h : OnlySigns axes e)
    (hσ : ∀ name ∈ axes, ∀ v, σ name = some v → SignedValue v) :
    e.eval (σ.signed axes) = e.eval σ := by
  induction h with
  | test h => exact h.eval_signed hσ
  | var h => simp [eval, Assignment.signed, h]
  | lit v => rfl
  | unary _ ih => simp [eval, ih]
  | binary _ _ iha ihb => simp [eval, iha, ihb]
  | ite _ _ _ ihc iha ihb => simp [eval, ihc, iha, ihb]
  | nary _ ih => simp [eval, evalAll_eq, mapM_congr ih]

end PlayerPaths
