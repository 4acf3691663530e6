import PlayerPaths.Proofs.Execution.Addresses
import PlayerPaths.Proofs.Execution.StackErrors
import PlayerPaths.Proofs.Execution.Values
import PlayerPaths.Proofs.Formula.NormalForm

/-!
# Formulas of an execution

A formula is *legal* in a state that has noted `n` calls when it is well sorted, mentions results of
the first `n` calls only, and is in range provided that the program is (`Context.Typed`). Checked
construction and simplification make legal formulas of legal ones. What a checked function gives and
how it fails is said in one place, its `_meets` lemma.
-/

namespace PlayerPaths

open IL

def IL.Operation.constants : Operation → List Int
  | .switch _ cases _ => cases.flatMap SwitchCase.values
  | _ => []

/-- The constants of its switches are 64-bit integers. -/
def IL.Method.WordCases (m : Method) : Prop :=
  ∀ b ∈ m.body, ∀ block ∈ b.blocks, ∀ i ∈ block.instructions, ∀ k ∈ i.operation.constants,
    Word.inRange k = true

instance (m : Method) : Decidable m.WordCases := by
  unfold IL.Method.WordCases
  infer_instance

/-- Types have sorts in range, and the constants of switches are 64-bit integers. -/
structure Context.Typed (c : Context) : Prop where
  sorts : ∀ {t s}, c.sorts.sort t = .ok s → s.inRange = true
  entry : c.entry.WordCases
  methods : ∀ {r m}, c.program.resolve? r = some m → m.WordCases

namespace Formula

/-- A part that is a variable belongs to no call with a number or a later one. -/
def VariableBelow (n : Nat) (p : Formula) : Prop :=
  ∀ name s, p = .var name s → Address.NameBelow n name

theorem stable_variableBelow (n : Nat) : Stable (VariableBelow n) where
  bool _ := by simp [VariableBelow]
  computed _ _ hv _ := by cases hv <;> simp [VariableBelow, Formula.bits, Formula.real]
  unary _ _ _ := by simp [VariableBelow]
  binary _ _ _ _ _ := by simp [VariableBelow]
  ite _ _ _ := by simp [VariableBelow]
  make _ := by simp [VariableBelow]
  connective _ := by simp [VariableBelow]
  eq := by simp [VariableBelow]

/-- Default values mention no variables. -/
theorem zero_below (n : Nat) (s : SmtSort) : s.zero.Every (VariableBelow n) := by
  induction s with
  | record name fields ih =>
      refine every_nary.mpr ⟨by simp [VariableBelow], ?_⟩
      induction fields with
      | nil => exact List.forall_mem_nil _
      | cons f fields ihf =>
          obtain ⟨hf, hrest⟩ := List.forall_mem_cons.mp ih
          exact List.forall_mem_cons.mpr ⟨hf, ihf hrest⟩
  | _ => exact every_lit.mpr (by simp [VariableBelow])

/-- The formulas that a state may hold when it has noted a number of calls. -/
structure Legal (c : Context) (n : Nat) (e : Formula) : Prop where
  wellSorted : e.WellSorted
  below : e.Every (VariableBelow n)
  inRange : c.Typed → e.InRange

namespace Legal

variable {c : Context} {n : Nat} {e e' a b : Formula} {s : SmtSort}

theorem mono {k : Nat} (h : e.Legal c n) (hle : n ≤ k) : e.Legal c k where
  wellSorted := h.wellSorted
  below p hp name s heq a ha := (h.below p hp name s heq a ha).mono hle
  inRange := h.inRange

theorem var {x : Address} (hx : x.Below n) (hs : c.Typed → s.inRange = true) :
    (Formula.var x.text s).Legal c n where
  wellSorted := ⟨s, hasSort_var.mpr rfl⟩
  below := by
    refine every_var.mpr fun name t heq => ?_
    obtain ⟨rfl, -⟩ := Formula.var.inj heq
    exact hx.name
  inRange ht := every_var.mpr (hs ht)

theorem lit {v : Literal} (h : c.Typed → v.inRange = true) : (Formula.lit v).Legal c n where
  wellSorted := wellSorted_lit v
  below := every_lit.mpr (by simp [VariableBelow])
  inRange ht := every_lit.mpr (h ht)

theorem unary {f : UnaryFunction} (hs : (Formula.unary f a).WellSorted) (ha : a.Legal c n)
    (h : c.Typed → (Formula.unary f a).nodeInRange = true) : (Formula.unary f a).Legal c n where
  wellSorted := hs
  below := every_unary.mpr ⟨by simp [VariableBelow], ha.below⟩
  inRange ht := every_unary.mpr ⟨h ht, ha.inRange ht⟩

theorem binary {f : BinaryFunction} (hs : (Formula.binary f a b).WellSorted) (ha : a.Legal c n)
    (hb : b.Legal c n) : (Formula.binary f a b).Legal c n where
  wellSorted := hs
  below := every_binary.mpr ⟨by simp [VariableBelow], ha.below, hb.below⟩
  inRange ht := every_binary.mpr ⟨rfl, ha.inRange ht, hb.inRange ht⟩

theorem nary {f : NaryFunction} {es : List Formula} (hs : (Formula.nary f es).WellSorted)
    (hes : ∀ e ∈ es, e.Legal c n) (h : c.Typed → (Formula.nary f es).nodeInRange = true) :
    (Formula.nary f es).Legal c n where
  wellSorted := hs
  below := every_nary.mpr ⟨by simp [VariableBelow], fun e he => (hes e he).below⟩
  inRange ht := every_nary.mpr ⟨h ht, fun e he => (hes e he).inRange ht⟩

/-- A legal formula has a sort in range. -/
theorem sort_inRange (h : e.Legal c n) (hs : e.HasSort s) (ht : c.Typed) : s.inRange = true :=
  Formula.sort_inRange hs (h.inRange ht)

theorem hasSort (h : e.Legal c n) (hs : e.sort = .ok s) : e.HasSort s := h.wellSorted.hasSort hs

/-- The sort of a legal formula. -/
theorem sort_meets (h : e.Legal c n) : Meets c.Harmless e.HasSort e.sort :=
  (Context.safe_sort e).and_value fun _ hs => h.hasSort hs

theorem simplify_meets (h : e.Legal c n) :
    Meets c.Harmless (fun e' => e'.Legal c n ∧ ∀ {s}, e.HasSort s → e'.HasSort s) e.simplify := by
  refine (Context.safe_simplify e).and_value fun e' he' => ?_
  obtain ⟨s, hs⟩ := h.wellSorted
  refine ⟨⟨⟨s, simplify_hasSort hs he'⟩, ?_, fun ht => ?_⟩, fun ht => simplify_hasSort ht he'⟩
  · exact simplify_every (stable_variableBelow n) hs he' h.below
  · exact simplify_every stable_nodeInRange hs he' (h.inRange ht)

/-! ## Constants -/

theorem bool (b : Bool) : (Formula.bool b).Legal c n := .lit fun _ => rfl

theorem str (s : String) : (Formula.str s).Legal c n := .lit fun _ => rfl

theorem real (x : Float) : (Formula.real x).Legal c n := .lit fun _ => rfl

theorem int {i : Int} (h : c.Typed → Word.inRange i = true) : (Formula.int i).Legal c n := .lit h

theorem bits {value width : Nat} (h : c.Typed → (SmtSort.bitVec width).inRange = true) :
    (Formula.bits value width).Legal c n := by
  refine .lit fun ht => ?_
  have hvalue := isValue_bits value (SmtSort.inRange_bitVec.mp (h ht))
  exact every_lit.mp hvalue.inRange

theorem zero (h : c.Typed → s.inRange = true) : s.zero.Legal c n where
  wellSorted := ⟨s, s.zero_hasSort⟩
  below := zero_below n s
  inRange ht := (isValue_zero (h ht)).inRange

theorem constant (k : Constant) : (constantValue k).Legal c n := by
  cases k with
  | int32 i | int64 i => exact .bits fun _ => by decide
  | single x | double x => exact .real x
  | string s => exact .str s
  | null => exact .int fun _ => by decide

end Legal

/-- A legal formula that is a truth value. -/
def Condition (c : Context) (n : Nat) (e : Formula) : Prop := e.Legal c n ∧ e.HasSort .bool

theorem Condition.mono {c : Context} {n k : Nat} {e : Formula} (h : e.Condition c n) (hle : n ≤ k) :
    e.Condition c k :=
  ⟨h.1.mono hle, h.2⟩

end Formula

/-! ## Checked construction -/

namespace Build

open Formula Context

variable {c : Context} {n : Nat} {e a b k value : Formula} {x : Result Formula}

theorem legal_unary {f : UnaryFunction} (hx : Meets c.Harmless (· = .unary f a) x)
    (hs : ∀ e, x = .ok e → e.WellSorted) (ha : a.Legal c n)
    (h : c.Typed → (Formula.unary f a).nodeInRange = true) :
    Meets c.Harmless (Legal c n) x := by
  refine hx.and_value fun e he => ?_
  obtain rfl := hx.value he
  exact .unary (hs _ he) ha h

theorem legal_binary {f : BinaryFunction} (hx : Meets c.Harmless (· = .binary f a b) x)
    (hs : ∀ e, x = .ok e → e.WellSorted) (ha : a.Legal c n) (hb : b.Legal c n) :
    Meets c.Harmless (Legal c n) x := by
  refine hx.and_value fun e he => ?_
  obtain rfl := hx.value he
  exact .binary (hs _ he) ha hb

/-- A legal result that is a truth value whenever it is given. -/
theorem condition_of_legal (hx : Meets c.Harmless (Legal c n) x)
    (hs : ∀ e, x = .ok e → e.HasSort .bool) : Meets c.Harmless (Condition c n) x :=
  hx.and_value fun e he => ⟨hx.value he, hs e he⟩

theorem not_meets (he : e.Legal c n) : Meets c.Harmless (Condition c n) (Build.not e) := by
  have hsort : ∀ f, Build.not e = .ok f → f.HasSort .bool := fun f => not_hasSort he.wellSorted
  refine condition_of_legal ?_ hsort
  exact legal_unary (safe_requireBool.bind fun _ _ => .pure rfl)
    (fun f hf => (hsort f hf).wellSorted) he fun _ => rfl

theorem and_meets {es : List Formula} (hes : ∀ e ∈ es, e.Condition c n) :
    Meets c.Harmless (Condition c n) (Build.and es) := by
  refine (Meets.forM fun _ _ => safe_requireBool).bind fun _ _ => .pure ?_
  have hsort : (Formula.and es).HasSort .bool := hasSort_and.mpr ⟨rfl, fun e he => (hes e he).2⟩
  exact ⟨.nary hsort.wellSorted (fun e he => (hes e he).1) fun _ => rfl, hsort⟩

theorem or_meets {es : List Formula} (hes : ∀ e ∈ es, e.Condition c n) :
    Meets c.Harmless (Condition c n) (Build.or es) := by
  refine (Meets.forM fun _ _ => safe_requireBool).bind fun _ _ => .pure ?_
  have hsort : (Formula.or es).HasSort .bool := hasSort_or.mpr ⟨rfl, fun e he => (hes e he).2⟩
  exact ⟨.nary hsort.wellSorted (fun e he => (hes e he).1) fun _ => rfl, hsort⟩

theorem eq_meets (ha : a.Legal c n) (hb : b.Legal c n) :
    Meets c.Harmless (Condition c n) (Build.eq a b) := by
  have hsort : ∀ f, Build.eq a b = .ok f → f.HasSort .bool := fun f =>
    eq_hasSort ha.wellSorted hb.wellSorted
  refine condition_of_legal ?_ hsort
  exact legal_binary (safe_requireSame.bind fun _ _ => .pure rfl)
    (fun f hf => (hsort f hf).wellSorted) ha hb

theorem ne_meets (ha : a.Legal c n) (hb : b.Legal c n) :
    Meets c.Harmless (Condition c n) (Build.ne a b) :=
  (eq_meets ha hb).bind fun _ he => not_meets he.1

theorem compareArith_meets {op : ArithComparison} (ha : a.Legal c n) (hb : b.Legal c n) :
    Meets c.Harmless (Condition c n) (Build.compareArith op a b) := by
  have hsort : ∀ f, Build.compareArith op a b = .ok f → f.HasSort .bool := fun f =>
    compareArith_hasSort ha.wellSorted hb.wellSorted
  refine condition_of_legal ?_ hsort
  exact legal_binary
    (safe_requireSame.bind fun _ _ => safe_requireArithmetic.bind fun _ _ => .pure rfl)
    (fun f hf => (hsort f hf).wellSorted) ha hb

theorem compareBits_meets {op : BitComparison} (ha : a.Legal c n) (hb : b.Legal c n) :
    Meets c.Harmless (Condition c n) (Build.compareBits op a b) := by
  have hsort : ∀ f, Build.compareBits op a b = .ok f → f.HasSort .bool := fun f =>
    compareBits_hasSort ha.wellSorted hb.wellSorted
  refine condition_of_legal ?_ hsort
  exact legal_binary (safe_requireBits.bind fun _ _ => safe_requireSame.bind fun _ _ => .pure rfl)
    (fun f hf => (hsort f hf).wellSorted) ha hb

theorem ite_meets (hk : k.Legal c n) (ha : a.Legal c n) (hb : b.Legal c n) :
    Meets c.Harmless (Legal c n) (Build.ite k a b) := by
  have hx : Meets c.Harmless (· = .ite k a b) (Build.ite k a b) :=
    safe_requireBool.bind fun _ _ => safe_requireSame.bind fun _ _ => .pure rfl
  refine hx.and_value fun e he => ?_
  obtain rfl := hx.value he
  exact ⟨ite_hasSort hk.wellSorted ha.wellSorted hb.wellSorted he,
    every_ite.mpr ⟨by simp [VariableBelow], hk.below, ha.below, hb.below⟩,
    fun ht => every_ite.mpr ⟨rfl, hk.inRange ht, ha.inRange ht, hb.inRange ht⟩⟩

theorem bits_meets {op : BitOp} (ha : a.Legal c n) (hb : b.Legal c n) :
    Meets c.Harmless (Legal c n) (Build.bits op a b) :=
  legal_binary (safe_requireBits.bind fun _ _ => safe_requireSame.bind fun _ _ => .pure rfl)
    (fun _ => bits_wellSorted ha.wellSorted hb.wellSorted) ha hb

theorem arith_meets {op : ArithOp} (ha : a.Legal c n) (hb : b.Legal c n) :
    Meets c.Harmless (Legal c n) (Build.arith op a b) :=
  legal_binary (safe_requireSame.bind fun _ _ => safe_requireArithmetic.bind fun _ _ => .pure rfl)
    (fun _ => arith_wellSorted ha.wellSorted hb.wellSorted) ha hb

theorem neg_meets (he : e.Legal c n) : Meets c.Harmless (Legal c n) (Build.neg e) :=
  legal_unary ((safe_sort e).bind fun _ _ => safe_requireArithmetic.bind fun _ _ => .pure rfl)
    (fun _ => neg_wellSorted he.wellSorted) he fun _ => rfl

theorem extract_meets {high low : Nat} (he : e.Legal c n) :
    Meets c.Harmless (Legal c n) (Build.extract high low e) := by
  refine legal_unary (f := .extract high low) (safe_requireBits.bind fun w _ => ?_)
    (fun _ => extract_wellSorted he.wellSorted) he fun _ => rfl
  split
  · exact .throw_bind (c.harmless rfl)
  · exact .pure rfl

theorem zeroExtend_meets {extra : Nat} (he : e.Legal c n) :
    Meets c.Harmless (Legal c n) (Build.zeroExtend extra e) :=
  legal_unary (safe_requireExtensible.bind fun _ _ => .pure rfl)
    (fun _ => zeroExtend_wellSorted he.wellSorted) he fun _ => rfl

theorem signExtend_meets {extra : Nat} (he : e.Legal c n) :
    Meets c.Harmless (Legal c n) (Build.signExtend extra e) :=
  legal_unary (safe_requireExtensible.bind fun _ _ => .pure rfl)
    (fun _ => signExtend_wellSorted he.wellSorted) he fun _ => rfl

theorem bitsToInt_meets (he : e.Legal c n) : Meets c.Harmless (Legal c n) (Build.bitsToInt e) :=
  legal_unary (safe_requireBits.bind fun _ _ => .pure rfl)
    (fun _ => bitsToInt_wellSorted he.wellSorted) he fun _ => rfl

theorem intToBits_meets {width : Nat} (he : e.Legal c n)
    (h : c.Typed → (SmtSort.bitVec width).inRange = true) :
    Meets c.Harmless (Legal c n) (Build.intToBits width e) :=
  legal_unary (safe_requireSort.bind fun _ _ => .pure rfl)
    (fun _ => intToBits_wellSorted he.wellSorted) he h

theorem toReal_meets (he : e.Legal c n) : Meets c.Harmless (Legal c n) (Build.toReal e) :=
  legal_unary (safe_requireSort.bind fun _ _ => .pure rfl)
    (fun _ => toReal_wellSorted he.wellSorted) he fun _ => rfl

theorem toInt_meets (he : e.Legal c n) : Meets c.Harmless (Legal c n) (Build.toInt e) :=
  legal_unary (safe_requireSort.bind fun _ _ => .pure rfl)
    (fun _ => toInt_wellSorted he.wellSorted) he fun _ => rfl

/-! ## Records -/

/-- The record that a legal formula is. -/
theorem requireRecord_meets (he : e.Legal c n) :
    Meets c.Harmless (fun r => e.HasSort r.sort) (requireRecord e) :=
  safe_requireRecord.and_value fun _ hr => he.hasSort (requireRecord_eq_ok.mp hr)

theorem get_meets {field : String} (he : e.Legal c n) :
    Meets c.Harmless (Legal c n) (Build.get e field) := by
  have hsafe : c.Safe (Build.get e field) := by
    refine safe_requireRecord.bind fun r _ => ?_
    split
    · exact trivial
    · exact .throw (c.harmless rfl)
  refine hsafe.and_value fun f hf => ?_
  obtain ⟨r, i, hr, -, rfl⟩ := get_eq_ok.mp hf
  exact .unary (get_wellSorted he.wellSorted hf) he fun ht => he.sort_inRange (he.hasSort hr) ht

theorem make_meets {r : Record} {fields : List Formula} (hfields : ∀ e ∈ fields, e.Legal c n)
    (hr : c.Typed → r.sort.inRange = true) : Meets c.Harmless (Legal c n) (Build.make r fields) := by
  have hx : Meets c.Harmless (· = .nary (.make r) fields) (Build.make r fields) := by
    unfold Build.make
    split
    · exact .throw_bind (c.harmless rfl)
    · refine (Meets.forM ?_).bind fun _ _ => .pure rfl
      rintro ⟨e, _, s⟩ -
      refine (safe_sort e).bind fun t _ => ?_
      split
      · exact quoted_meets fun _ => c.harmless rfl
      · exact trivial
  refine hx.and_value fun f hf => ?_
  obtain rfl := hx.value hf
  exact .nary (make_wellSorted (fun e he => (hfields e he).wellSorted) hf) hfields hr

theorem set_meets {field : String} (he : e.Legal c n) (hvalue : value.Legal c n) :
    Meets c.Harmless (Legal c n) (Build.set e field value) := by
  refine (requireRecord_meets he).bind fun r hr => ?_
  refine (Meets.mapM (R := Legal c n) ?_).bind fun fields hfields =>
    make_meets hfields (he.sort_inRange hr)
  rintro ⟨f, s⟩ -
  show Meets c.Harmless (Legal c n) (if (f == field) = true then pure value else Build.get e f)
  split
  · exact .pure hvalue
  · exact get_meets he

end Build

end PlayerPaths
