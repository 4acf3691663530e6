import PlayerPaths.Proofs.Formula.Evaluation
import PlayerPaths.Proofs.Formula.Sorting

/-!
# Values

A formula is *in range* when its literals and widths are: widths lie between 1 and 64, a bit vector
is below `2 ^ width`, and an integer fits 64 bits. A *value* of a sort is a constant that has the
sort and is in range. The functions of formulas take values to values: `UnaryFunction.apply` and
`BinaryFunction.apply` give a constant of the sort that they promise, and stay in range.
-/

namespace PlayerPaths

/-! ## Ranges -/

namespace SmtSort

mutual

/-- Every width in a sort is supported. -/
def inRange : SmtSort → Bool
  | .bitVec w => 1 ≤ w && w ≤ 64
  | .record _ fields => fieldsInRange fields
  | _ => true

def fieldsInRange : List (String × SmtSort) → Bool
  | [] => true
  | (_, s) :: fields => s.inRange && fieldsInRange fields

end

/-- Induction over sorts. -/
@[elab_as_elim, induction_eliminator]
theorem ind {motive : SmtSort → Prop} (bool : motive .bool) (bitVec : ∀ w, motive (.bitVec w))
    (int : motive .int) (real : motive .real) (string : motive .string)
    (record : ∀ name fields, (∀ f ∈ fields, motive f.2) → motive (.record name fields))
    (s : SmtSort) : motive s :=
  @SmtSort.rec motive (fun fields => ∀ f ∈ fields, motive f.2) (fun f => motive f.2)
    bool bitVec int real string record
    (by simp) (fun _ _ hf hfs => List.forall_mem_cons.mpr ⟨hf, hfs⟩) (fun _ _ hs => hs) s

theorem inRange_bitVec {w : Nat} : (SmtSort.bitVec w).inRange = true ↔ 1 ≤ w ∧ w ≤ 64 := by
  simp [inRange]

theorem inRange_record {name : String} {fields : List (String × SmtSort)} :
    (SmtSort.record name fields).inRange = true ↔ ∀ f ∈ fields, f.2.inRange = true := by
  simp only [inRange]
  induction fields with
  | nil => simp [fieldsInRange]
  | cons f fields ih => simp [fieldsInRange, ih]

end SmtSort

/-- A literal that a machine word can hold. -/
def Literal.inRange : Literal → Bool
  | .bits value width => (SmtSort.bitVec width).inRange && value < pow2 width
  | .int i => Word.inRange i
  | _ => true

namespace Formula

/-- What a formula says about literals and widths itself, its parts left aside. -/
def nodeInRange : Formula → Bool
  | .var _ s => s.inRange
  | .lit v => v.inRange
  | .unary (.intToBits w) _ => (SmtSort.bitVec w).inRange
  | .unary (.get r _) _ => r.sort.inRange
  | .nary (.make r) _ => r.sort.inRange
  | _ => true

/-- All literals and widths of a formula are in range. -/
def InRange (e : Formula) : Prop := e.Every fun p => p.nodeInRange = true

instance (e : Formula) : Decidable e.InRange :=
  inferInstanceAs (Decidable (∀ p ∈ e.parts, p.nodeInRange = true))

/-- A value of a sort. -/
structure IsValue (v : Formula) (s : SmtSort) : Prop where
  constant : v.isConstant = true
  hasSort : v.HasSort s
  inRange : v.InRange

instance (v : Formula) (s : SmtSort) : Decidable (v.IsValue s) :=
  decidable_of_iff (v.isConstant = true ∧ v.HasSort s ∧ v.InRange)
    ⟨fun ⟨hc, hs, hr⟩ => ⟨hc, hs, hr⟩, fun ⟨hc, hs, hr⟩ => ⟨hc, hs, hr⟩⟩

/-! ## Constants of a sort -/

section

variable {a : Formula}

theorem constant_bool (hc : a.isConstant = true) (h : a.HasSort .bool) : ∃ b, a = .bool b := by
  rcases isConstant_cases hc with ⟨v, rfl⟩ | ⟨r, es, rfl, -⟩
  · cases v <;> simp_all [Literal.sort]
  · simp [Record.sort] at h

theorem constant_bitVec {w : Nat} (hc : a.isConstant = true) (h : a.HasSort (.bitVec w)) :
    ∃ n, a = .lit (.bits n w) := by
  rcases isConstant_cases hc with ⟨v, rfl⟩ | ⟨r, es, rfl, -⟩
  · cases v <;> simp_all [Literal.sort]
  · simp [Record.sort] at h

theorem constant_int (hc : a.isConstant = true) (h : a.HasSort .int) : ∃ i, a = .int i := by
  rcases isConstant_cases hc with ⟨v, rfl⟩ | ⟨r, es, rfl, -⟩
  · cases v <;> simp_all [Literal.sort]
  · simp [Record.sort] at h

theorem constant_real (hc : a.isConstant = true) (h : a.HasSort .real) :
    ∃ x, a = .lit (.real x) := by
  rcases isConstant_cases hc with ⟨v, rfl⟩ | ⟨r, es, rfl, -⟩
  · cases v <;> simp_all [Literal.sort]
  · simp [Record.sort] at h

theorem constant_string (hc : a.isConstant = true) (h : a.HasSort .string) :
    ∃ s, a = .str s := by
  rcases isConstant_cases hc with ⟨v, rfl⟩ | ⟨r, es, rfl, -⟩
  · cases v <;> simp_all [Literal.sort]
  · simp [Record.sort] at h

theorem constant_record {r : Record} (hc : a.isConstant = true) (h : a.HasSort r.sort) :
    ∃ es, a = .nary (.make r) es ∧ (∀ e ∈ es, e.isConstant = true) ∧
      List.Forall₂ (fun e f => HasSort e f.2) es r.fields := by
  rcases isConstant_cases hc with ⟨v, rfl⟩ | ⟨r', es, rfl, hes⟩
  · cases v <;> simp [Literal.sort, Record.sort] at h
  · obtain ⟨heq, hfields⟩ := hasSort_make.mp h
    obtain rfl := Record.eq_of_sort_eq heq
    exact ⟨es, rfl, hes, hfields⟩

end

theorem inRange_lit {v : Literal} : (Formula.lit v).InRange ↔ v.inRange = true := every_lit

@[simp] theorem isValue_bool (b : Bool) : (Formula.bool b).IsValue .bool :=
  ⟨rfl, rfl, inRange_lit.mpr rfl⟩

@[simp] theorem isValue_str (s : String) : (Formula.str s).IsValue .string :=
  ⟨rfl, rfl, inRange_lit.mpr rfl⟩

@[simp] theorem isValue_real (x : Float) : (Formula.real x).IsValue .real :=
  ⟨rfl, rfl, inRange_lit.mpr rfl⟩

theorem isValue_int {i : Int} : (Formula.int i).IsValue .int ↔ Word.inRange i = true :=
  ⟨fun h => inRange_lit.mp h.inRange, fun h => ⟨rfl, rfl, inRange_lit.mpr h⟩⟩

theorem isValue_lit_bits {n w : Nat} :
    (Formula.lit (.bits n w)).IsValue (.bitVec w) ↔ (1 ≤ w ∧ w ≤ 64) ∧ n < pow2 w :=
  ⟨fun h => by simpa [Literal.inRange, SmtSort.inRange] using inRange_lit.mp h.inRange,
    fun h => ⟨rfl, rfl, inRange_lit.mpr (by simpa [Literal.inRange, SmtSort.inRange] using h)⟩⟩

/-- The low bits of any number are a value. -/
theorem isValue_bits {w : Nat} (n : Nat) (hw : 1 ≤ w ∧ w ≤ 64) :
    (Formula.bits n w).IsValue (.bitVec w) := by
  refine isValue_lit_bits.mpr ⟨hw, ?_⟩
  rw [Nat.min_eq_left hw.2]
  exact Nat.mod_lt _ (Nat.pow_pos (by decide))

/-- The values of a record sort are the records of values of the sorts of its fields. -/
theorem isValue_record {r : Record} {v : Formula} :
    v.IsValue r.sort ↔ r.sort.inRange = true ∧
      ∃ es, v = .nary (.make r) es ∧ List.Forall₂ (fun e f => IsValue e f.2) es r.fields := by
  constructor
  · rintro ⟨hc, hs, hr⟩
    obtain ⟨es, rfl, hes, hfields⟩ := constant_record hc hs
    rw [InRange, every_nary] at hr
    refine ⟨hr.1, es, rfl, ?_⟩
    rw [List.forall₂_iff_get] at hfields ⊢
    exact ⟨hfields.1, fun i hi hj =>
      ⟨hes _ (List.get_mem ..), hfields.2 i hi hj, hr.2 _ (List.get_mem ..)⟩⟩
  · rintro ⟨hr, es, rfl, hes⟩
    have hall : ∀ e ∈ es, e.isConstant = true ∧ e.InRange := by
      intro e he
      obtain ⟨f, -, hf⟩ := forall₂_exists_of_mem_left hes he
      exact ⟨hf.constant, hf.inRange⟩
    refine ⟨isConstant_make.mpr fun e he => (hall e he).1,
      hasSort_make.mpr ⟨rfl, hes.imp fun _ _ h => h.hasSort⟩, ?_⟩
    rw [InRange, every_nary]
    exact ⟨hr, fun e he => (hall e he).2⟩

/-- The default value of a sort is a value of it. -/
theorem isValue_zero {s : SmtSort} (h : s.inRange = true) : s.zero.IsValue s := by
  induction s with
  | bool => exact isValue_bool false
  | bitVec w => exact isValue_bits 0 (SmtSort.inRange_bitVec.mp h)
  | int => exact isValue_int.mpr (by decide)
  | real => exact isValue_real 0.0
  | string => exact isValue_str ""
  | record name fields ih =>
      refine isValue_record (r := ⟨name, fields⟩).mpr ⟨h, _, rfl, ?_⟩
      have hfields := SmtSort.inRange_record.mp h
      clear h
      induction fields with
      | nil => exact .nil
      | cons f fields ihf =>
          obtain ⟨hf, hrest⟩ := List.forall_mem_cons.mp hfields
          obtain ⟨ihf', ihrest⟩ := List.forall_mem_cons.mp ih
          exact .cons (ihf' hf) (ihf ihrest hrest)

end Formula

/-! ## Functions on constants -/

open Formula

theorem intValue_eq_ok {i : Int} {v : Formula} :
    intValue i = .ok v ↔ Word.inRange i = true ∧ v = .int i := by
  unfold intValue
  split
  · next h => simp [h, @eq_comm _ _ v]
  · next h => simp [h]

theorem widthValue_eq_ok {n m : Nat} (h : widthValue n = .ok m) : m = n := by
  unfold widthValue at h
  split at h <;> simp_all

theorem ArithOp.applyInt_eq_ok {op : ArithOp} {x y : Int} {v : Formula}
    (h : op.applyInt x y = .ok v) : ∃ i, Word.inRange i = true ∧ v = .int i := by
  cases op with
  | add | sub | mul => exact ⟨_, intValue_eq_ok.mp h⟩
  | div =>
      simp only [applyInt] at h
      split at h
      · simp at h
      · split at h
        · next hr => exact ⟨_, hr, (pure_eq_ok.mp h).symm⟩
        · simp at h

theorem ArithOp.applyReal_eq_ok {op : ArithOp} {x y : Float} {v : Formula}
    (h : op.applyReal x y = .ok v) : ∃ z, v = .real z := by
  cases op with
  | add | sub | mul => exact ⟨_, (pure_eq_ok.mp h).symm⟩
  | div =>
      simp only [applyReal] at h
      split at h
      · simp at h
      · exact ⟨_, (pure_eq_ok.mp h).symm⟩

/-- A function of one argument gives a constant of the sort that it promises. -/
theorem UnaryFunction.apply_hasSort {f : UnaryFunction} {a v : Formula} {s t : SmtSort}
    (hf : f.result? s = some t) (hc : a.isConstant = true) (ha : a.HasSort s)
    (h : f.apply a = .ok v) : v.isConstant = true ∧ v.HasSort t := by
  cases f with
  | not =>
      obtain ⟨rfl, rfl⟩ := result?_not.mp hf
      obtain ⟨b, rfl⟩ := constant_bool hc ha
      obtain rfl : .bool (!b) = v := by simpa [apply] using h
      simp [Literal.sort]
  | neg =>
      obtain ⟨rfl | rfl, rfl⟩ := result?_neg.mp hf
      · obtain ⟨i, rfl⟩ := constant_int hc ha
        obtain ⟨-, rfl⟩ := intValue_eq_ok.mp (by simpa [apply] using h)
        simp [Literal.sort]
      · obtain ⟨x, rfl⟩ := constant_real hc ha
        obtain rfl : .real (-x) = v := by simpa [apply] using h
        simp [Literal.sort, Formula.real]
  | extract high low =>
      obtain ⟨w, rfl, hrange, rfl⟩ := result?_extract.mp hf
      obtain ⟨n, rfl⟩ := constant_bitVec hc ha
      simp only [apply, Nat.not_lt.mpr hrange.1, ↓reduceIte, bind_eq_ok, pure_eq_ok] at h
      obtain ⟨k, -, m, hm, rfl⟩ := h
      simp [Literal.sort, Formula.bits, widthValue_eq_ok hm]
  | zeroExtend extra =>
      obtain ⟨w, rfl, -, rfl⟩ := result?_zeroExtend.mp hf
      obtain ⟨n, rfl⟩ := constant_bitVec hc ha
      simp only [apply, bind_eq_ok, pure_eq_ok] at h
      obtain ⟨m, hm, rfl⟩ := h
      simp [Literal.sort, Formula.bits, widthValue_eq_ok hm]
  | signExtend extra =>
      obtain ⟨w, rfl, -, rfl⟩ := result?_signExtend.mp hf
      obtain ⟨n, rfl⟩ := constant_bitVec hc ha
      simp only [apply, bind_eq_ok, pure_eq_ok] at h
      obtain ⟨m, hm, rfl⟩ := h
      simp [Literal.sort, Formula.bits, widthValue_eq_ok hm]
  | bitsToInt =>
      obtain ⟨⟨w, rfl⟩, rfl⟩ := result?_bitsToInt.mp hf
      obtain ⟨n, rfl⟩ := constant_bitVec hc ha
      obtain ⟨-, rfl⟩ := intValue_eq_ok.mp (by simpa [apply] using h)
      simp [Literal.sort]
  | intToBits w =>
      obtain ⟨rfl, rfl⟩ := result?_intToBits.mp hf
      obtain ⟨i, rfl⟩ := constant_int hc ha
      obtain rfl : .bits (Word.ofInt i) w = v := by simpa [apply] using h
      simp [Literal.sort, Formula.bits]
  | toReal =>
      obtain ⟨rfl, rfl⟩ := result?_toReal.mp hf
      obtain ⟨i, rfl⟩ := constant_int hc ha
      obtain rfl : .real (Double.ofInt i) = v := by simpa [apply] using h
      simp [Literal.sort, Formula.real]
  | toInt =>
      obtain ⟨rfl, rfl⟩ := result?_toInt.mp hf
      obtain ⟨x, rfl⟩ := constant_real hc ha
      simp only [apply] at h
      split at h
      · split at h <;> simp_all
        simp [← h, Literal.sort]
      · simp at h
  | get r i =>
      obtain ⟨rfl, hi⟩ := result?_get.mp hf
      obtain ⟨es, rfl, hes, hfields⟩ := constant_record hc ha
      simp only [apply] at h
      split at h
      · next e he =>
        obtain rfl : e = v := by simpa using h
        obtain ⟨u, hu, heu⟩ := hasSort_field hfields he
        obtain rfl : u = t := by simpa [hu] using hi
        exact ⟨hes e (List.mem_of_getElem? he), heu⟩
      · simp at h

/-- A function of two arguments gives a constant of the sort that it promises. -/
theorem BinaryFunction.apply_hasSort {f : BinaryFunction} {a b v : Formula} {s t u : SmtSort}
    (hf : f.result? s t = some u) (hca : a.isConstant = true) (hcb : b.isConstant = true)
    (ha : a.HasSort s) (hb : b.HasSort t) (h : f.apply a b = .ok v) :
    v.isConstant = true ∧ v.HasSort u := by
  cases f with
  | eq =>
      obtain ⟨-, rfl⟩ := result?_eq.mp hf
      obtain rfl : .bool (a = b) = v := by simpa [apply] using h
      simp [Literal.sort]
  | bits op =>
      obtain ⟨w, rfl, rfl, rfl⟩ := result?_bits.mp hf
      obtain ⟨m, rfl⟩ := constant_bitVec hca ha
      obtain ⟨n, rfl⟩ := constant_bitVec hcb hb
      simp only [apply, bind_eq_ok, pure_eq_ok] at h
      obtain ⟨k, -, rfl⟩ := h
      simp [Literal.sort, Formula.bits]
  | compareBits c =>
      obtain ⟨⟨w, rfl, rfl⟩, rfl⟩ := result?_compareBits.mp hf
      obtain ⟨m, rfl⟩ := constant_bitVec hca ha
      obtain ⟨n, rfl⟩ := constant_bitVec hcb hb
      obtain rfl : .bool (c.holds m n w) = v := by simpa [apply] using h
      simp [Literal.sort]
  | arith op =>
      obtain ⟨rfl | rfl, rfl, rfl⟩ := result?_arith.mp hf
      · obtain ⟨i, rfl⟩ := constant_int hca ha
        obtain ⟨j, rfl⟩ := constant_int hcb hb
        obtain ⟨k, -, rfl⟩ := ArithOp.applyInt_eq_ok h
        simp [Literal.sort]
      · obtain ⟨x, rfl⟩ := constant_real hca ha
        obtain ⟨y, rfl⟩ := constant_real hcb hb
        obtain ⟨z, rfl⟩ := ArithOp.applyReal_eq_ok h
        simp [Literal.sort, Formula.real]
  | compareArith c =>
      obtain ⟨-, -, rfl⟩ := result?_compareArith.mp hf
      simp only [apply] at h
      split at h
      · obtain rfl := pure_eq_ok.mp h
        simp [Literal.sort]
      · simp at h
  | concat =>
      obtain ⟨m, n, rfl, rfl, -, rfl⟩ := result?_concat.mp hf
      obtain ⟨k, rfl⟩ := constant_bitVec hca ha
      obtain ⟨l, rfl⟩ := constant_bitVec hcb hb
      simp only [apply, bind_eq_ok] at h
      obtain ⟨w, hw, h⟩ := h
      split at h
      · simp at h
      · obtain rfl : Formula.bits _ w = v := by simpa using h
        simp [Literal.sort, Formula.bits, widthValue_eq_ok hw]

/-! ## Ranges of results -/

namespace Formula

theorem literal_sort_inRange {v : Literal} (h : v.inRange = true) : v.sort.inRange = true := by
  cases v with
  | bits value width => exact ((Bool.and_eq_true _ _).mp h).1
  | _ => rfl

/-- The sort of a formula in range is in range. -/
theorem sort_inRange {e : Formula} {s : SmtSort} (hs : e.HasSort s) (hr : e.InRange) :
    s.inRange = true := by
  induction e generalizing s with
  | var name t =>
      obtain rfl := hasSort_var.mp hs
      exact hr.self
  | lit v =>
      obtain rfl := hasSort_lit.mp hs
      exact literal_sort_inRange (inRange_lit.mp hr)
  | unary f a ih =>
      obtain ⟨t, ht, hf⟩ := hasSort_unary.mp hs
      obtain ⟨hnode, ha⟩ := every_unary.mp hr
      have hrange := ih ht ha
      cases f with
      | extract high low =>
          obtain ⟨w, rfl, hbound, rfl⟩ := result?_extract.mp hf
          have := SmtSort.inRange_bitVec.mp hrange
          exact SmtSort.inRange_bitVec.mpr (by omega)
      | zeroExtend extra | signExtend extra =>
          obtain ⟨w, rfl, hbound, rfl⟩ : ∃ w, t = .bitVec w ∧ w + extra ≤ 64 ∧
              s = .bitVec (w + extra) := by simpa using hf
          have := SmtSort.inRange_bitVec.mp hrange
          exact SmtSort.inRange_bitVec.mpr (by omega)
      | intToBits w =>
          obtain ⟨-, rfl⟩ := result?_intToBits.mp hf
          exact hnode
      | get r i =>
          obtain ⟨rfl, hi⟩ := result?_get.mp hf
          obtain ⟨field, hfield, rfl⟩ := Option.map_eq_some_iff.mp hi
          exact SmtSort.inRange_record.mp hrange field (List.mem_of_getElem? hfield)
      | neg =>
          obtain ⟨-, rfl⟩ := result?_neg.mp hf
          exact hrange
      | _ => simp_all [SmtSort.inRange]
  | binary f a b iha ihb =>
      obtain ⟨t, u, ht, hu, hf⟩ := hasSort_binary.mp hs
      obtain ⟨-, ha, hb⟩ := every_binary.mp hr
      have hrange := iha ht ha
      cases f with
      | bits op =>
          obtain ⟨w, rfl, rfl, rfl⟩ := result?_bits.mp hf
          exact hrange
      | arith op =>
          obtain ⟨-, -, rfl⟩ := result?_arith.mp hf
          exact hrange
      | concat =>
          obtain ⟨m, n, rfl, rfl, hbound, rfl⟩ := result?_concat.mp hf
          have := SmtSort.inRange_bitVec.mp hrange
          exact SmtSort.inRange_bitVec.mpr (by omega)
      | _ => simp_all [SmtSort.inRange]
  | ite c a b ihc iha ihb =>
      obtain ⟨-, ha, -⟩ := hasSort_ite.mp hs
      exact iha ha (every_ite.mp hr).2.2.1
  | nary f es ih =>
      cases f with
      | make r =>
          obtain ⟨rfl, -⟩ := hasSort_make.mp hs
          exact (every_nary.mp hr).1
      | and | or =>
          obtain ⟨rfl, -⟩ := by simpa using hs
          rfl

/-- A literal as the functions compute them: integers are checked, bit vectors are cut off. -/
inductive Computed : Formula → Prop
  | bool (b : Bool) : Computed (.bool b)
  | int (i : Int) (h : Word.inRange i = true) : Computed (.int i)
  | bits (n w : Nat) : Computed (.bits n w)
  | real (x : Float) : Computed (.real x)

theorem Computed.isLit {v : Formula} (h : Computed v) : ∃ l, v = .lit l := by
  cases h <;> exact ⟨_, rfl⟩

/-- A computed literal is in range if its width is. -/
theorem Computed.inRange {v : Formula} {s : SmtSort} (h : Computed v) (hs : v.HasSort s)
    (hr : s.inRange = true) : v.InRange := by
  cases h with
  | bool b => exact (isValue_bool b).inRange
  | int i h => exact (isValue_int.mpr h).inRange
  | bits n w =>
      obtain rfl : .bitVec w = s := by simpa [Formula.bits, Literal.sort] using hs
      exact (isValue_bits n (SmtSort.inRange_bitVec.mp hr)).inRange
  | real x => exact (isValue_real x).inRange

end Formula

theorem inRange_of_natAbs_lt {i : Int} (h : i.natAbs < floorLimit) : Word.inRange i = true := by
  have hlimit : floorLimit = 9000000000000000000 := by decide
  have hmin : Word.minInt = -9223372036854775808 := by decide
  have hmax : Word.maxInt = 9223372036854775807 := by decide
  simp only [Word.inRange, hmin, hmax, Bool.and_eq_true, decide_eq_true_eq]
  omega

/-- A function of one argument computes a literal, or takes a field out of a record. -/
theorem UnaryFunction.apply_computed {f : UnaryFunction} {a v : Formula} (h : f.apply a = .ok v) :
    Computed v ∨ ∃ r es, a = .nary (.make r) es ∧ v ∈ es := by
  unfold apply at h
  split at h
  case h_1 b => exact .inl (by obtain rfl := pure_eq_ok.mp h; exact .bool _)
  case h_2 i =>
    obtain ⟨hr, rfl⟩ := intValue_eq_ok.mp h
    exact .inl (.int _ hr)
  case h_3 x => exact .inl (by obtain rfl := pure_eq_ok.mp h; exact .real _)
  case h_4 high low n w =>
    split at h
    · simp at h
    · simp only [bind_eq_ok, pure_eq_ok] at h
      obtain ⟨k, -, m, -, rfl⟩ := h
      exact .inl (.bits _ _)
  case h_5 extra n w =>
    obtain ⟨m, -, rfl⟩ := by simpa using h
    exact .inl (.bits _ _)
  case h_6 extra n w =>
    obtain ⟨m, -, rfl⟩ := by simpa using h
    exact .inl (.bits _ _)
  case h_7 n w =>
    obtain ⟨hr, rfl⟩ := intValue_eq_ok.mp h
    exact .inl (.int _ hr)
  case h_8 w i => exact .inl (by obtain rfl := pure_eq_ok.mp h; exact .bits _ _)
  case h_9 i => exact .inl (by obtain rfl := pure_eq_ok.mp h; exact .real _)
  case h_10 x =>
    split at h
    · split at h
      · next hlt =>
        obtain rfl := pure_eq_ok.mp h
        exact .inl (.int _ (inRange_of_natAbs_lt hlt))
      · simp at h
    · simp at h
  case h_11 r i s fields =>
    split at h
    · next e he =>
      obtain rfl := pure_eq_ok.mp h
      exact .inr ⟨s, fields, rfl, List.mem_of_getElem? he⟩
    · simp at h
  case h_12 => simp at h

/-- A function of two arguments computes a literal. -/
theorem BinaryFunction.apply_computed {f : BinaryFunction} {a b v : Formula}
    (h : f.apply a b = .ok v) : Computed v := by
  unfold apply at h
  split at h
  case h_1 => obtain rfl := pure_eq_ok.mp h; exact .bool _
  case h_2 =>
    obtain ⟨k, -, rfl⟩ := by simpa using h
    exact .bits _ _
  case h_3 => obtain rfl := pure_eq_ok.mp h; exact .bool _
  case h_4 =>
    obtain ⟨i, hr, rfl⟩ := ArithOp.applyInt_eq_ok h
    exact .int i hr
  case h_5 =>
    obtain ⟨z, rfl⟩ := ArithOp.applyReal_eq_ok h
    exact .real z
  case h_6 =>
    split at h
    · obtain rfl := pure_eq_ok.mp h
      exact .bool _
    · simp at h
  case h_7 =>
    simp only [bind_eq_ok] at h
    obtain ⟨w, -, h⟩ := h
    split at h
    · simp at h
    · obtain rfl := pure_eq_ok.mp h
      exact .bits _ _
  case h_8 => simp at h

/-! ## Values of formulas -/

namespace Formula

/-- An assignment gives some variables values of their sorts. -/
def Assigns (σ : Assignment) (vars : List (String × SmtSort)) : Prop :=
  ∀ name s, (name, s) ∈ vars → ∃ v, σ name = some v ∧ v.IsValue s

instance (σ : Assignment) (vars : List (String × SmtSort)) : Decidable (Assigns σ vars) :=
  decidable_of_iff (∀ v ∈ vars, (σ v.1).any (·.IsValue v.2) = true) <| by
    simp [Assigns, Option.any_eq_true]

/-- An assignment gives variables, if any, constants of their sorts. -/
def Respects (σ : Assignment) (vars : List (String × SmtSort)) : Prop :=
  ∀ name s v, (name, s) ∈ vars → σ name = some v → v.isConstant = true ∧ v.HasSort s

theorem Assigns.respects {σ : Assignment} {vars : List (String × SmtSort)} (h : Assigns σ vars) :
    Respects σ vars := by
  intro name s v hvar hv
  obtain ⟨w, hw, hval⟩ := h name s hvar
  obtain rfl := Option.some.inj (hw.symm.trans hv)
  exact ⟨hval.constant, hval.hasSort⟩

/-- **Values have the sort of the formula**, if the values of its variables do. -/
theorem eval_respects {σ : Assignment} {e v : Formula} {s : SmtSort} (hs : e.HasSort s)
    (hσ : Respects σ e.occurrences) (h : e.eval σ = .ok v) : v.isConstant = true ∧ v.HasSort s := by
  have hvars : ∀ name s v, .var name s ∈ e.parts → σ name = some v →
      v.isConstant = true ∧ v.HasSort s :=
    fun name s v hp => hσ name s v (mem_occurrences.mpr hp)
  clear hσ
  induction e using ind_connective generalizing s v with
  | var name t =>
      obtain rfl := hasSort_var.mp hs
      exact hvars name t v (by simp) (eval_var_eq_ok.mp h)
  | lit l =>
      cases h
      exact ⟨rfl, hs⟩
  | unary f a ih =>
      obtain ⟨t, ha, hf⟩ := hasSort_unary.mp hs
      obtain ⟨x, hx, hv⟩ := eval_unary_eq_ok.mp h
      obtain ⟨hc, hxs⟩ := ih ha hx fun n s w hp => hvars n s w (by simp [hp])
      exact UnaryFunction.apply_hasSort hf hc hxs hv
  | binary f a b iha ihb =>
      obtain ⟨t, u, ha, hb, hf⟩ := hasSort_binary.mp hs
      obtain ⟨x, y, hx, hy, hv⟩ := eval_binary_eq_ok.mp h
      obtain ⟨hcx, hxs⟩ := iha ha hx fun n s w hp => hvars n s w (by simp [hp])
      obtain ⟨hcy, hys⟩ := ihb hb hy fun n s w hp => hvars n s w (by simp [hp])
      exact BinaryFunction.apply_hasSort hf hcx hcy hxs hys hv
  | ite c a b ihc iha ihb =>
      obtain ⟨-, ha, hb⟩ := hasSort_ite.mp hs
      rcases eval_ite_eq_ok.mp h with ⟨-, h⟩ | ⟨-, h⟩
      · exact iha ha h fun n s w hp => hvars n s w (by simp [hp])
      · exact ihb hb h fun n s w hp => hvars n s w (by simp [hp])
  | make r es ih =>
      obtain ⟨rfl, hfields⟩ := hasSort_make.mp hs
      obtain ⟨vs, hvs, rfl⟩ := eval_make_eq_ok.mp h
      have hall : List.Forall₂ (fun v f => v.isConstant = true ∧ HasSort v f.2) vs r.fields := by
        rw [List.forall₂_iff_get] at *
        refine ⟨hvs.1.symm.trans hfields.1, fun i hi hj => ?_⟩
        exact ih _ (List.get_mem ..) (hfields.2 i (hvs.1 ▸ hi) hj) (hvs.2 i (hvs.1 ▸ hi) hi)
          fun n s w hp => hvars n s w (mem_parts_nary.mpr (.inr ⟨_, List.get_mem .., hp⟩))
      refine ⟨isConstant_make.mpr fun v hv => ?_, hasSort_make.mpr ⟨rfl, hall.imp fun _ _ h => h.2⟩⟩
      obtain ⟨f, -, hf⟩ := forall₂_exists_of_mem_left hall hv
      exact hf.1
  | connective f es hf ih =>
      obtain ⟨rfl, -⟩ := (hasSort_junction hf).mp hs
      obtain ⟨b, rfl, -⟩ := (eval_junction_eq_ok hf).mp h
      exact ⟨rfl, rfl⟩

theorem eval_hasSort {σ : Assignment} {e v : Formula} {s : SmtSort} (hs : e.HasSort s)
    (hσ : Assigns σ e.occurrences) (h : e.eval σ = .ok v) : v.isConstant = true ∧ v.HasSort s :=
  eval_respects hs hσ.respects h

/-- The value of a truth value is true or false. -/
theorem eval_bool {σ : Assignment} {e v : Formula} (hs : e.HasSort .bool)
    (hσ : Assigns σ e.occurrences) (h : e.eval σ = .ok v) : ∃ b, v = .bool b := by
  obtain ⟨hc, hv⟩ := eval_hasSort hs hσ h
  exact constant_bool hc hv

end Formula

end PlayerPaths
