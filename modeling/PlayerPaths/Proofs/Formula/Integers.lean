import PlayerPaths.Proofs.Formula.Overflow
import PlayerPaths.Proofs.Number.Nearest

/-!
# Formulas over the integers

A formula over integers is computed with 64-bit numbers: sums, products and contraries are checked,
division is Euclidean, and comparisons go through doubles. `Formula.denote` says what the theories
of integers and of bit vectors give instead, without a bound on the integers.

Evaluation gives this value or none, as long as no comparison mistakes two integers for each other
that are rounded to one double (`Formula.eval_over_integers`). `ArithComparison.Faithful` says when
it does not. It never does for integers of at most 53 digits, and it does beyond them
(`Formula.neighbours_mistaken`).
-/

namespace PlayerPaths

open Formula

/-! ## What the theories say -/

/-- A truth value, an integer or a bit vector. -/
inductive Meaning where
  | truth (b : Bool)
  | int (i : Int)
  | bits (w : Nat) (x : BitVec w)
  deriving DecidableEq

namespace Meaning

def literal : Meaning → Formula
  | truth b => .bool b
  | int i => .int i
  | bits _ x => ofBitVec x

def of : Formula → Meaning
  | .bool b => truth b
  | .int i => int i
  | .lit (.bits n w) => bits w (BitVec.ofNat w n)
  | _ => truth false

def isTrue : Meaning → Bool
  | truth b => b
  | _ => false

end Meaning

/-- The integer that an operation stands for. Division is Euclidean, and the theory leaves open what
a number divided by zero is. -/
def ArithOp.denote (byZero : Int → Int) (op : ArithOp) (x y : Int) : Int :=
  match op with
  | add => x + y
  | sub => x - y
  | mul => x * y
  | div => if y = 0 then byZero x else x / y

/-- The order of the integers. -/
def ArithComparison.denote (c : ArithComparison) (x y : Int) : Bool :=
  match c with
  | lt => x < y
  | le => x ≤ y
  | gt => x > y
  | ge => x ≥ y

/-- The function that a function of one argument stands for, on arguments of the right sort. -/
def UnaryFunction.denote (f : UnaryFunction) (a : Meaning) : Meaning :=
  match f, a with
  | .not, .truth b => .truth (!b)
  | .neg, .int i => .int (-i)
  | .extract high low, .bits _ x => .bits _ (x.extractLsb high low)
  | .zeroExtend extra, .bits w x => .bits _ (x.zeroExtend (w + extra))
  | .signExtend extra, .bits w x => .bits _ (x.signExtend (w + extra))
  | .bitsToInt, .bits _ x => .int x.toNat
  | .intToBits w, .int i => .bits w (BitVec.ofInt w i)
  | _, a => a

/-- The function that a function of two arguments stands for, on arguments of the right sorts. -/
def BinaryFunction.denote (byZero : Int → Int) (f : BinaryFunction) (a b : Meaning) : Meaning :=
  match f, a, b with
  | .eq, a, b => .truth (a = b)
  | .bits op, .bits w x, .bits _ y => .bits w (op.denote x (y.setWidth w))
  | .compareBits c, .bits w x, .bits _ y => .truth (c.denote x (y.setWidth w))
  | .arith op, .int x, .int y => .int (op.denote byZero x y)
  | .compareArith c, .int x, .int y => .truth (c.denote x y)
  | .concat, .bits _ x, .bits _ y => .bits _ (x ++ y)
  | _, a, _ => a

/-- The connective that a function of any number of arguments stands for, on truth values. -/
def NaryFunction.denote (f : NaryFunction) (ms : List Meaning) : Meaning :=
  match f with
  | .or => .truth (ms.any Meaning.isTrue)
  | _ => .truth (ms.all Meaning.isTrue)

namespace Formula

mutual

/-- The meaning of a formula over truth values, integers and bit vectors. -/
def denote (byZero : Int → Int) (σ : Assignment) : Formula → Meaning
  | .var name _ => Meaning.of ((σ name).getD (.bool false))
  | .lit v => Meaning.of (.lit v)
  | .unary f a => f.denote (a.denote byZero σ)
  | .binary f a b => f.denote byZero (a.denote byZero σ) (b.denote byZero σ)
  | .ite c a b => if (c.denote byZero σ).isTrue then a.denote byZero σ else b.denote byZero σ
  | .nary f es => f.denote (denoteAll byZero σ es)

def denoteAll (byZero : Int → Int) (σ : Assignment) : List Formula → List Meaning
  | [] => []
  | e :: es => e.denote byZero σ :: denoteAll byZero σ es

end

end Formula

/-- Neither a real number, a text nor a record. -/
def SmtSort.isDiscrete : SmtSort → Bool
  | .bool | .int | .bitVec _ => true
  | _ => false

/-- A formula over truth values, integers and bit vectors. -/
def Formula.Discrete (e : Formula) : Prop :=
  e.Every fun p => ∀ s ∈ p.sort?, s.isDiscrete = true

instance (e : Formula) : Decidable e.Discrete :=
  inferInstanceAs (Decidable (∀ p ∈ e.parts, ∀ s ∈ p.sort?, s.isDiscrete = true))

/-- A comparison does not mistake two integers for each other: if they are one number as doubles, it
does not tell them apart. -/
def ArithComparison.Faithful (c : ArithComparison) (x y : Int) : Prop :=
  Double.ofInt x = Double.ofInt y → c.denote x y = c.denote x x

/-- No comparison in a formula mistakes two integers for each other. -/
def Formula.Faithful (σ : Assignment) (e : Formula) : Prop :=
  ∀ c a b x y, .binary (.compareArith c) a b ∈ e.parts → a.eval σ = .ok (.int x) →
    b.eval σ = .ok (.int y) → c.Faithful x y

/-! ## Functions -/

theorem Meaning.literal_of {v : Formula} {s : SmtSort} (hv : v.IsValue s)
    (hs : s.isDiscrete = true) : (of v).literal = v := by
  cases s with
  | bool =>
      obtain ⟨b, rfl⟩ := constant_bool hv.constant hv.hasSort
      rfl
  | int =>
      obtain ⟨i, rfl⟩ := constant_int hv.constant hv.hasSort
      rfl
  | bitVec w =>
      obtain ⟨-, x, rfl⟩ := hv.exists_ofBitVec
      show ofBitVec (BitVec.ofNat w x.toNat) = ofBitVec x
      rw [BitVec.ofNat_toNat, BitVec.setWidth_eq]
  | real | string | record => cases hs

theorem Meaning.of_literal (m : Meaning) : of m.literal = m := by
  cases m with
  | truth b => rfl
  | int i => rfl
  | bits w x =>
      show bits w (BitVec.ofNat w x.toNat) = bits w x
      rw [BitVec.ofNat_toNat, BitVec.setWidth_eq]

/-- Meanings are told apart by what spells them. -/
theorem Meaning.literal_inj {m n : Meaning} : m.literal = n.literal ↔ m = n := by
  refine ⟨fun h => ?_, fun h => by rw [h]⟩
  rw [← of_literal m, ← of_literal n, h]

theorem Meaning.exists_bits {m : Meaning} {w : Nat} (h : m.literal.IsValue (.bitVec w)) :
    (1 ≤ w ∧ w ≤ 64) ∧ ∃ x, m = .bits w x := by
  obtain ⟨hw, x, hx⟩ := h.exists_ofBitVec
  exact ⟨hw, x, literal_inj (n := .bits w x) |>.mp hx⟩

theorem Meaning.exists_int {m : Meaning} (h : m.literal.HasSort .int) : ∃ i, m = .int i := by
  cases m with
  | int i => exact ⟨i, rfl⟩
  | truth | bits => cases h

theorem Meaning.not_hasSort_real {m : Meaning} : ¬ m.literal.HasSort .real := by
  intro h
  cases m <;> cases h

theorem Meaning.isTrue_eq {m : Meaning} {b : Bool} (h : .bool b = m.literal) : m.isTrue = b := by
  rw [← of_literal m, ← h]
  rfl

theorem ArithOp.applyInt_denote {op : ArithOp} {x y : Int} {v : Formula} (byZero : Int → Int)
    (h : op.applyInt x y = .ok v) : v = .int (op.denote byZero x y) := by
  cases op with
  | add | sub | mul => exact (intValue_eq_ok.mp h).2
  | div =>
      rw [applyInt] at h
      split at h
      · cases h
      · next hy =>
        split at h
        · rw [denote, if_neg hy]
          exact (pure_eq_ok.mp h).symm
        · cases h

namespace ArithComparison

variable {x y : Int} (hx : Word.inRange x = true) (hy : Word.inRange y = true)

include hx hy

/-- Integers are compared like their doubles, and those with one double like one integer. -/
theorem holds_ofInt (c : ArithComparison) : c.holds (Double.ofInt x) (Double.ofInt y) =
    if Double.ofInt x = Double.ofInt y then c.denote x x else c.denote x y := by
  rw [Bool.eq_iff_iff]
  cases c with
  | lt =>
      simp only [holds, denote, decide_eq_true_eq, Double.ofInt_lt_iff hx hy]
      split <;> simp_all
  | le =>
      simp only [holds, denote, decide_eq_true_eq, Double.ofInt_le_iff hx hy]
      split <;> simp_all
  | gt =>
      simp only [holds, denote, decide_eq_true_eq, gt_iff_lt, Double.ofInt_lt_iff hy hx, ne_eq,
        eq_comm (a := Double.ofInt y) (b := Double.ofInt x)]
      split <;> simp_all
  | ge =>
      simp only [holds, denote, decide_eq_true_eq, ge_iff_le, Double.ofInt_le_iff hy hx,
        eq_comm (a := Double.ofInt y) (b := Double.ofInt x)]
      split <;> simp_all

/-- **Two integers are compared rightly exactly when they are not mistaken for each other.** -/
theorem holds_eq_denote_iff (c : ArithComparison) :
    c.holds (Double.ofInt x) (Double.ofInt y) = c.denote x y ↔ c.Faithful x y := by
  rw [holds_ofInt hx hy, Faithful]
  split
  · next h => simp [h, eq_comm]
  · next h => simp [h]

/-- Integers of at most 53 digits are not mistaken for others. -/
theorem faithful_of_representable (c : ArithComparison) (hfitx : Double.Representable x.natAbs)
    (hfity : Double.Representable y.natAbs) : c.Faithful x y := by
  intro h
  rw [(Double.ofInt_inj hx hy hfitx hfity).mp h]

end ArithComparison

/-- A function of one argument gives the value of its theory. -/
theorem UnaryFunction.apply_literal {f : UnaryFunction} {m : Meaning} {v : Formula} {s t : SmtSort}
    (hm : m.literal.IsValue s) (hf : f.result? s = some t) (ht : t.inRange = true)
    (hdiscrete : t.isDiscrete = true) (h : f.apply m.literal = .ok v) :
    v = (f.denote m).literal := by
  cases f with
  | not =>
      cases m with
      | truth b => exact (pure_eq_ok.mp h).symm
      | int | bits => cases h
  | neg =>
      cases m with
      | int i => exact (intValue_eq_ok.mp h).2
      | truth | bits => cases h
  | extract high low =>
      obtain ⟨w, rfl, hrange, -⟩ := result?_extract.mp hf
      obtain ⟨hw, x, rfl⟩ := Meaning.exists_bits hm
      rw [Meaning.literal, apply_extract hw.2 hrange] at h
      exact (pure_eq_ok.mp h).symm
  | zeroExtend extra =>
      obtain ⟨w, rfl, hbound, -⟩ := result?_zeroExtend.mp hf
      obtain ⟨hw, x, rfl⟩ := Meaning.exists_bits hm
      rw [Meaning.literal, apply_zeroExtend hbound] at h
      exact (pure_eq_ok.mp h).symm
  | signExtend extra =>
      obtain ⟨w, rfl, hbound, -⟩ := result?_signExtend.mp hf
      obtain ⟨hw, x, rfl⟩ := Meaning.exists_bits hm
      rw [Meaning.literal, apply_signExtend ⟨hw.1, hbound⟩] at h
      exact (pure_eq_ok.mp h).symm
  | bitsToInt =>
      cases m with
      | bits w x => exact (apply_bitsToInt_eq_ok.mp h).2
      | truth | int => cases h
  | intToBits w =>
      obtain ⟨-, rfl⟩ := result?_intToBits.mp hf
      cases m with
      | int i =>
          rw [Meaning.literal, apply_intToBits (SmtSort.inRange_bitVec.mp ht).2] at h
          exact (pure_eq_ok.mp h).symm
      | truth | bits => cases h
  | toReal =>
      obtain ⟨-, rfl⟩ := result?_toReal.mp hf
      cases hdiscrete
  | toInt => cases m <;> cases h
  | get r i => cases m <;> cases h

/-- A function of two arguments gives the value of its theory. -/
theorem BinaryFunction.apply_literal {byZero : Int → Int} {f : BinaryFunction} {m n : Meaning}
    {v : Formula} {s t u : SmtSort} (hm : m.literal.IsValue s) (hn : n.literal.IsValue t)
    (hf : f.result? s t = some u)
    (hfaithful : ∀ c x y, f = .compareArith c → m = .int x → n = .int y → c.Faithful x y)
    (h : f.apply m.literal n.literal = .ok v) : v = (f.denote byZero m n).literal := by
  cases f with
  | eq =>
      obtain rfl := pure_eq_ok.mp h
      show Formula.bool (decide (m.literal = n.literal)) = Formula.bool (decide (m = n))
      rw [decide_eq_decide.mpr Meaning.literal_inj]
  | bits op =>
      obtain ⟨w, rfl, rfl, -⟩ := result?_bits.mp hf
      obtain ⟨hw, x, rfl⟩ := Meaning.exists_bits hm
      obtain ⟨-, y, rfl⟩ := Meaning.exists_bits hn
      rw [Meaning.literal, Meaning.literal, apply_bits hw] at h
      obtain rfl := pure_eq_ok.mp h
      rw [denote, BitVec.setWidth_eq]
      rfl
  | compareBits c =>
      obtain ⟨⟨w, rfl, rfl⟩, -⟩ := result?_compareBits.mp hf
      obtain ⟨hw, x, rfl⟩ := Meaning.exists_bits hm
      obtain ⟨-, y, rfl⟩ := Meaning.exists_bits hn
      rw [Meaning.literal, Meaning.literal, apply_compareBits hw] at h
      obtain rfl := pure_eq_ok.mp h
      rw [denote, BitVec.setWidth_eq]
      rfl
  | arith op =>
      cases m with
      | int x =>
          cases n with
          | int y => exact ArithOp.applyInt_denote byZero h
          | truth | bits => cases h
      | truth | bits => cases h
  | compareArith c =>
      obtain ⟨rfl | rfl, rfl, -⟩ := result?_compareArith.mp hf
      · obtain ⟨x, rfl⟩ := Meaning.exists_int hm.hasSort
        obtain ⟨y, rfl⟩ := Meaning.exists_int hn.hasSort
        obtain rfl := pure_eq_ok.mp h
        have hholds := (ArithComparison.holds_eq_denote_iff (inRange_lit.mp hm.inRange)
          (inRange_lit.mp hn.inRange) c).mpr (hfaithful c x y rfl rfl rfl)
        exact congrArg Formula.bool hholds
      · exact (Meaning.not_hasSort_real hm.hasSort).elim
  | concat =>
      obtain ⟨k, l, rfl, rfl, hbound, -⟩ := result?_concat.mp hf
      obtain ⟨hk, x, rfl⟩ := Meaning.exists_bits hm
      obtain ⟨-, y, rfl⟩ := Meaning.exists_bits hn
      rw [Meaning.literal, Meaning.literal, apply_concat hk.1 hbound] at h
      exact (pure_eq_ok.mp h).symm

/-! ## Evaluation -/

namespace Formula

variable {byZero : Int → Int} {σ : Assignment}

theorem denoteAll_eq (es : List Formula) :
    denoteAll byZero σ es = es.map (denote byZero σ) := by
  induction es with
  | nil => rfl
  | cons e es ih => rw [denoteAll, ih, List.map_cons]

theorem Discrete.isDiscrete {e : Formula} {s : SmtSort} (h : e.Discrete) (hs : e.HasSort s) :
    s.isDiscrete = true := Every.self h s hs

theorem Faithful.part {e p : Formula} (h : e.Faithful σ) (hp : p ∈ e.parts) : p.Faithful σ :=
  fun c a b x y hc ha hb => h c a b x y (mem_parts_trans hc hp) ha hb

theorem every_varIn_occurrences (e : Formula) : e.Every (varIn e.occurrences) := by
  rintro p hp name t rfl
  exact mem_occurrences.mpr hp

/-- A value that evaluation gives is the value over the integers and bit vectors, if no comparison
mistakes two integers for each other. -/
theorem eval_eq_literal {vars : List (String × SmtSort)} {e v : Formula} {s : SmtSort}
    (hs : e.HasSort s) (hd : e.Discrete) (hr : e.InRange) (hσ : Assigns σ vars)
    (hvars : e.Every (varIn vars)) (hf : e.Faithful σ) (h : e.eval σ = .ok v) :
    v = (e.denote byZero σ).literal := by
  induction e using ind_connective generalizing s v with
  | var name t =>
      obtain rfl := hasSort_var.mp hs
      obtain ⟨w, hw, hval⟩ := hσ name t (hvars.self name t rfl)
      have hv : w = v := by simpa [hw] using eval_var_eq_ok.mp h
      rw [denote, hw, Option.getD_some, Meaning.literal_of hval (hd.isDiscrete hs), hv]
  | lit l =>
      obtain rfl := Except.ok.inj h
      rw [denote, Meaning.literal_of ⟨rfl, hs, hr⟩ (hd.isDiscrete hs)]
  | unary f a ih =>
      obtain ⟨t, ht, hresult⟩ := hasSort_unary.mp hs
      obtain ⟨x, hx, happly⟩ := eval_unary_eq_ok.mp h
      have hra := (every_unary.mp hr).2
      have hva := (every_unary.mp hvars).2
      obtain rfl := ih ht (every_unary.mp hd).2 hra hva (hf.part (by simp)) hx
      exact UnaryFunction.apply_literal (eval_isValue ht hra hσ hva hx) hresult
        (sort_inRange hs hr) (hd.isDiscrete hs) happly
  | binary f a b iha ihb =>
      obtain ⟨t, u, ht, hu, hresult⟩ := hasSort_binary.mp hs
      obtain ⟨x, y, hx, hy, happly⟩ := eval_binary_eq_ok.mp h
      obtain ⟨-, hra, hrb⟩ := every_binary.mp hr
      obtain ⟨-, hva, hvb⟩ := every_binary.mp hvars
      obtain ⟨-, hda, hdb⟩ := every_binary.mp hd
      obtain rfl := iha ht hda hra hva (hf.part (by simp)) hx
      obtain rfl := ihb hu hdb hrb hvb (hf.part (by simp)) hy
      refine BinaryFunction.apply_literal (eval_isValue ht hra hσ hva hx)
        (eval_isValue hu hrb hσ hvb hy) hresult ?_ happly
      rintro c i j rfl hi hj
      rw [hi] at hx
      rw [hj] at hy
      exact hf c a b i j (mem_parts_self _) hx hy
  | ite c a b ihc iha ihb =>
      obtain ⟨hc, ha, hb⟩ := hasSort_ite.mp hs
      obtain ⟨-, hrc, hra, hrb⟩ := every_ite.mp hr
      obtain ⟨-, hvc, hva, hvb⟩ := every_ite.mp hvars
      obtain ⟨-, hdc, hda, hdb⟩ := every_ite.mp hd
      rcases eval_ite_eq_ok.mp h with ⟨hx, h⟩ | ⟨hx, h⟩
      · rw [denote, Meaning.isTrue_eq (ihc hc hdc hrc hvc (hf.part (by simp)) hx)]
        exact iha ha hda hra hva (hf.part (by simp)) h
      · rw [denote, Meaning.isTrue_eq (ihc hc hdc hrc hvc (hf.part (by simp)) hx)]
        exact ihb hb hdb hrb hvb (hf.part (by simp)) h
  | make r es ih =>
      obtain ⟨rfl, -⟩ := hasSort_make.mp hs
      exact absurd (hd.isDiscrete hs) (by simp [Record.sort, SmtSort.isDiscrete])
  | connective f es hconn ih =>
      obtain ⟨rfl, hsorts⟩ := (hasSort_junction hconn).mp hs
      obtain ⟨b, rfl, hdef, hb⟩ := (eval_junction_eq_ok hconn).mp h
      -- A member has the truth value that it stands for.
      have htruth : ∀ e ∈ es, ∀ t, e.eval σ = .ok (.bool t) ↔ (e.denote byZero σ).isTrue = t := by
        intro e he t
        obtain ⟨t', ht'⟩ := hdef e he
        have hvalue := ih e he (hsorts e he) ((every_nary.mp hd).2 e he)
          ((every_nary.mp hr).2 e he) ((every_nary.mp hvars).2 e he)
          (hf.part (mem_parts_operand he)) ht'
        rw [Meaning.isTrue_eq hvalue, ht']
        simp
      have hall : (∀ e ∈ es, e.eval σ = .ok (.bool (neutral f))) ↔
          ∀ e ∈ es, (e.denote byZero σ).isTrue = neutral f :=
        forall₂_congr fun e he => htruth e he (neutral f)
      rw [hall] at hb
      rw [denote, denoteAll_eq]
      rcases hconn with rfl | rfl
      · show Formula.bool b = Formula.bool _
        congr 2
        rw [Bool.eq_iff_iff, List.all_map, List.all_eq_true]
        exact hb
      · show Formula.bool b = Formula.bool _
        congr 2
        rw [← Bool.not_inj_iff, Bool.eq_iff_iff, List.any_map]
        simpa [neutral] using hb

/-- A comparison of two integers is evaluated to what the order of the integers says exactly when it
does not mistake them for each other. -/
theorem eval_compareArith_iff {c : ArithComparison} {a b : Formula} {x y : Int}
    (hx : Word.inRange x = true) (hy : Word.inRange y = true) (ha : a.eval σ = .ok (.int x))
    (hb : b.eval σ = .ok (.int y)) :
    (Formula.binary (.compareArith c) a b).eval σ = .ok (.bool (c.denote x y)) ↔
      c.Faithful x y := by
  rw [eval_binary_of_eval ha hb, ← c.holds_eq_denote_iff hx hy]
  show (Except.ok (Formula.bool (c.holds (Double.ofInt x) (Double.ofInt y))) : Evaluation Formula) =
    .ok (.bool (c.denote x y)) ↔ _
  simp

/-- **Evaluation over the integers is exact but for comparisons.** A value that it gives is the
value over the integers and bit vectors if no comparison mistakes two integers for each other, and a
comparison has the right truth value exactly when it does not. -/
theorem eval_over_integers (byZero : Int → Int) {e : Formula} {s : SmtSort} (hs : e.HasSort s)
    (hd : e.Discrete) (hr : e.InRange) (hσ : Assigns σ e.occurrences) :
    (e.Faithful σ → ∀ v, e.eval σ = .ok v → v = (e.denote byZero σ).literal) ∧
    ∀ c a b x y, .binary (.compareArith c) a b ∈ e.parts →
      a.eval σ = .ok (.int x) → b.eval σ = .ok (.int y) →
      ((Formula.binary (.compareArith c) a b).eval σ = .ok (.bool (c.denote x y)) ↔
        c.Faithful x y) := by
  have hvars := every_varIn_occurrences e
  constructor
  · intro hf v hv
    exact eval_eq_literal hs hd hr hσ hvars hf hv
  · intro c a b x y hpart hx hy
    -- The operands are well-sorted parts, so that their values are in range.
    have hvalue : ∀ {p i}, p ∈ (Formula.binary (.compareArith c) a b).parts →
        p.eval σ = .ok (.int i) → Word.inRange i = true := by
      intro p i hp hi
      have hpe := mem_parts_trans hp hpart
      obtain ⟨t, ht⟩ := hs.part hpe
      exact inRange_lit.mp
        (eval_isValue ht (hr.part hpe) hσ (hvars.part hpe) hi).inRange
    exact eval_compareArith_iff (hvalue (by simp) hx) (hvalue (by simp) hy) hx hy

/-- One point more is less than the bonus. -/
def belowBonus : Formula :=
  .binary (.compareArith .lt) (.binary (.arith .add) (.var "score" .int) (.int 1))
    (.unary .bitsToInt (.var "bonus" (.bitVec 8)))

def wellBelow : Assignment
  | "score" => some (.int 5)
  | "bonus" => some (ofBitVec 0xff#8)
  | _ => none

theorem belowBonus_holds :
    belowBonus.HasSort .bool ∧ belowBonus.Discrete ∧ belowBonus.InRange ∧
      Assigns wellBelow belowBonus.occurrences ∧ belowBonus.Faithful wellBelow ∧
      belowBonus.eval wellBelow = .ok (.bool true) ∧
      .bool true = (belowBonus.denote (fun _ => 0) wellBelow).literal := by
  have hs : belowBonus.HasSort .bool := by decide
  have hd : belowBonus.Discrete := by decide
  have hr : belowBonus.InRange := by decide
  have hσ : Assigns wellBelow belowBonus.occurrences := by decide
  have hf : belowBonus.Faithful wellBelow := by
    intro c a b x y hpart hx hy
    obtain ⟨rfl, rfl, rfl⟩ : c = .lt ∧
        a = .binary (.arith .add) (.var "score" .int) (.int 1) ∧
        b = .unary .bitsToInt (.var "bonus" (.bitVec 8)) := by
      simpa [belowBonus] using hpart
    have hsum : (Formula.binary (.arith .add) (.var "score" .int) (.int 1)).eval wellBelow =
        .ok (.int 6) := rfl
    have hbonus : (Formula.unary .bitsToInt (.var "bonus" (.bitVec 8))).eval wellBelow =
        .ok (.int 255) := rfl
    obtain rfl : 6 = x := by simpa [hsum] using hx
    obtain rfl : 255 = y := by simpa [hbonus] using hy
    exact ArithComparison.faithful_of_representable (by decide) (by decide) .lt
      (Double.representable_of_le (by decide)) (Double.representable_of_le (by decide))
  have heval : belowBonus.eval wellBelow = .ok (.bool true) := by decide +kernel
  exact ⟨hs, hd, hr, hσ, hf, heval,
    (eval_over_integers (fun _ => 0) hs hd hr hσ).1 hf _ heval⟩

/-- Two integers that are rounded to one double. -/
def neighbours : Formula :=
  .binary (.compareArith .lt) (.int 9007199254740992) (.int 9007199254740993)

/-- **A comparison mistakes two integers for each other**: the lesser of them is not found less. -/
theorem neighbours_mistaken :
    neighbours.HasSort .bool ∧ neighbours.Discrete ∧ neighbours.InRange ∧
      neighbours.eval (fun _ => none) = .ok (.bool false) ∧
      neighbours.denote (fun _ => 0) (fun _ => none) = .truth true := by
  refine ⟨by decide, by decide, by decide, by decide +kernel, by decide⟩

end Formula

end PlayerPaths
