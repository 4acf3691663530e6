import PlayerPaths.Proofs.SmtLib.Totality

/-!
# What is read is checked

Terms are built with the checked constructors and with nothing else, so every part of what is read
is what its own constructor gives for its operands (`Formula.build`). Checked parts make a
well-sorted formula, whatever the text (`Formula.wellSorted_of_checked`).

A variable in a term was declared before the term was asserted. A name can be declared again with
another sort, and stays declared, so the variables of every assertion are declared in the end
(`SmtLib.readScript_checked`).
-/

namespace PlayerPaths

open SmtLib Formula

/-! ## Constructors, function by function -/

/-- The checked application of a function of one argument. A field goes by its name. -/
def UnaryFunction.build (f : UnaryFunction) (a : Formula) : Result Formula :=
  match f with
  | .not => Build.not a
  | .neg => Build.neg a
  | .extract high low => Build.extract high low a
  | .zeroExtend extra => Build.zeroExtend extra a
  | .signExtend extra => Build.signExtend extra a
  | .bitsToInt => Build.bitsToInt a
  | .intToBits width => Build.intToBits width a
  | .toReal => Build.toReal a
  | .toInt => Build.toInt a
  | .get r i => Build.get a ((r.fields[i]?.map Prod.fst).getD "")

/-- The checked application of a function of any number of arguments. -/
def NaryFunction.build (f : NaryFunction) (es : List Formula) : Result Formula :=
  match f with
  | .and => Build.and es
  | .or => Build.or es
  | .make r => Build.make r es

/-- What the constructor of a formula gives for its operands. -/
def Formula.build : Formula → Result Formula
  | .lit (.bits n w) => return .bits n w
  | .lit (.real x) => return .real x
  | .unary f a => f.build a
  | .binary f a b => f.build a b
  | .ite c a b => Build.ite c a b
  | .nary f es => f.build es
  | e => return e

/-- What a function gives is its application. Of a record it gives the field of a name, wherever it
is. -/
theorem UnaryFunction.eq_of_build {f : UnaryFunction} {a e : Formula} (h : f.build a = .ok e)
    (hf : ∀ r i, f ≠ .get r i) : e = .unary f a := by
  cases f with
  | not => exact (Build.not_eq_ok.mp h).2
  | extract high low =>
      simp only [build, Build.extract, bind_eq_ok] at h
      obtain ⟨w, -, h⟩ := h
      split at h
      · cases h
      · exact (Except.ok.inj h).symm
  | get r i => exact absurd rfl (hf r i)
  | neg | zeroExtend | signExtend | bitsToInt | intToBits | toReal | toInt =>
      simp only [build, Build.neg, Build.zeroExtend, Build.signExtend, Build.bitsToInt,
        Build.intToBits, Build.toReal, Build.toInt, bind_eq_ok, pure_eq_ok] at h
      grind

theorem BinaryFunction.eq_of_build {f : BinaryFunction} {a b e : Formula}
    (h : f.build a b = .ok e) : e = .binary f a b := by
  cases f with
  | eq => exact (Build.eq_eq_ok.mp h).2
  | compareArith c => exact (Build.compareArith_eq_ok.mp h).2
  | concat =>
      simp only [build, Build.concat, bind_eq_ok] at h
      obtain ⟨m, -, n, -, w, -, h⟩ := h
      split at h
      · cases h
      · exact (Except.ok.inj h).symm
  | bits | compareBits | arith =>
      simp only [build, Build.bits, Build.compareBits, Build.arith, bind_eq_ok, pure_eq_ok] at h
      grind

theorem Formula.eq_of_build_ite {c a b e : Formula} (h : Build.ite c a b = .ok e) :
    e = .ite c a b := by
  simp only [Build.ite, bind_eq_ok, pure_eq_ok] at h
  obtain ⟨_, -, _, -, rfl⟩ := h
  rfl

theorem NaryFunction.eq_of_build {f : NaryFunction} {es : List Formula} {e : Formula}
    (h : f.build es = .ok e) : e = .nary f es := by
  cases f with
  | and => exact (Build.and_eq_ok.mp h).2
  | or => exact (Build.or_eq_ok.mp h).2
  | make r =>
      simp only [build, Build.make] at h
      split at h
      · cases h
      · obtain ⟨_, -, h⟩ := bind_eq_ok.mp h
        exact (Except.ok.inj h).symm

/-- The field of a name is the field of the name at its position. -/
theorem Build.get_build {a e : Formula} {field : String} (h : Build.get a field = .ok e) :
    ∃ r i, e = .unary (.get r i) a ∧ (UnaryFunction.get r i).build a = .ok e := by
  obtain ⟨r, i, hr, hi, rfl⟩ := Build.get_eq_ok.mp h
  obtain ⟨hlt, hname, -⟩ := List.findIdx?_eq_some_iff_getElem.mp hi
  have hfield : (r.fields[i]?.map Prod.fst).getD "" = field := by
    simpa [List.getElem?_eq_getElem hlt] using hname
  exact ⟨r, i, rfl, by rw [UnaryFunction.build, hfield, h]⟩

/-! ## Checked parts make a well-sorted formula -/

theorem Build.concat_wellSorted {a b e : Formula} (ha : a.WellSorted) (hb : b.WellSorted)
    (h : Build.concat a b = .ok e) : e.WellSorted := by
  simp only [Build.concat, bind_eq_ok, Build.requireBits_eq_ok] at h
  obtain ⟨m, hm, n, hn, w, hw, h⟩ := h
  obtain rfl : w = m + n := size_eq_ok hw
  split at h
  · cases h
  · next hle =>
    obtain rfl := Except.ok.inj h
    exact ⟨.bitVec (m + n), hasSort_binary.mpr ⟨_, _, ha.hasSort hm, hb.hasSort hn,
      result?_concat.mpr ⟨m, n, rfl, rfl, by omega, rfl⟩⟩⟩

theorem UnaryFunction.build_wellSorted {f : UnaryFunction} {a e : Formula} (ha : a.WellSorted)
    (h : f.build a = .ok e) : e.WellSorted := by
  cases f with
  | not => exact (Build.not_hasSort ha h).wellSorted
  | neg => exact Build.neg_wellSorted ha h
  | extract high low => exact Build.extract_wellSorted ha h
  | zeroExtend extra => exact Build.zeroExtend_wellSorted ha h
  | signExtend extra => exact Build.signExtend_wellSorted ha h
  | bitsToInt => exact Build.bitsToInt_wellSorted ha h
  | intToBits width => exact Build.intToBits_wellSorted ha h
  | toReal => exact Build.toReal_wellSorted ha h
  | toInt => exact Build.toInt_wellSorted ha h
  | get r i => exact Build.get_wellSorted ha h

theorem BinaryFunction.build_wellSorted {f : BinaryFunction} {a b e : Formula}
    (ha : a.WellSorted) (hb : b.WellSorted) (h : f.build a b = .ok e) : e.WellSorted := by
  cases f with
  | eq => exact (Build.eq_hasSort ha hb h).wellSorted
  | bits op => exact Build.bits_wellSorted ha hb h
  | compareBits c => exact (Build.compareBits_hasSort ha hb h).wellSorted
  | arith op => exact Build.arith_wellSorted ha hb h
  | compareArith c => exact (Build.compareArith_hasSort ha hb h).wellSorted
  | concat => exact Build.concat_wellSorted ha hb h

theorem NaryFunction.build_wellSorted {f : NaryFunction} {es : List Formula} {e : Formula}
    (hes : ∀ e ∈ es, e.WellSorted) (h : f.build es = .ok e) : e.WellSorted := by
  cases f with
  | and =>
      obtain ⟨hsorts, rfl⟩ := Build.and_eq_ok.mp h
      exact ⟨.bool, hasSort_and.mpr ⟨rfl, fun e he => (hes e he).hasSort (hsorts e he)⟩⟩
  | or =>
      obtain ⟨hsorts, rfl⟩ := Build.or_eq_ok.mp h
      exact ⟨.bool, hasSort_or.mpr ⟨rfl, fun e he => (hes e he).hasSort (hsorts e he)⟩⟩
  | make r => exact Build.make_wellSorted hes h

/-- **A formula whose parts pass the checks of their constructors is well sorted.** -/
theorem Formula.wellSorted_of_checked {e : Formula} (h : e.Every fun p => p.build = .ok p) :
    e.WellSorted := by
  induction e with
  | var name s => exact ⟨s, rfl⟩
  | lit v => exact wellSorted_lit v
  | unary f a ih =>
      obtain ⟨hnode, ha⟩ := every_unary.mp h
      exact UnaryFunction.build_wellSorted (ih ha) hnode
  | binary f a b iha ihb =>
      obtain ⟨hnode, ha, hb⟩ := every_binary.mp h
      exact BinaryFunction.build_wellSorted (iha ha) (ihb hb) hnode
  | ite c a b ihc iha ihb =>
      obtain ⟨hnode, hc, ha, hb⟩ := every_ite.mp h
      exact Build.ite_hasSort (ihc hc) (iha ha) (ihb hb) hnode
  | nary f es ih =>
      obtain ⟨hnode, hes⟩ := every_nary.mp h
      exact NaryFunction.build_wellSorted (fun e he => ih e he (hes e he)) hnode

/-- A bit vector that its constructor keeps fits its width. -/
theorem Formula.lt_of_checked_bits {n w : Nat}
    (h : (Formula.lit (.bits n w)).build = .ok (.lit (.bits n w))) : n < 2 ^ w := by
  have hmod : n % 2 ^ min w 64 = n := by simpa [build, Formula.bits, pow2] using h
  calc n = n % 2 ^ min w 64 := hmod.symm
    _ < 2 ^ min w 64 := Nat.mod_lt _ (Nat.two_pow_pos _)
    _ ≤ 2 ^ w := Nat.pow_le_pow_right (by decide) (Nat.min_le_left _ _)

theorem Double.normal_normal (x : Float) : Double.normal (Double.normal x) = Double.normal x := by
  have hzero : Double.normal 0.0 = 0.0 := by decide +kernel
  by_cases h : (x == 0.0) = true
  · simp only [Double.normal, h, if_true]
    exact hzero
  · simp only [Double.normal, h, if_false, Bool.false_eq_true]

namespace SmtLib

variable {v v' : Vocabulary} {a b c e : Formula} {es : List Formula}

/-! ## Terms -/

/-- A part of what is read with a vocabulary: its constructor checked it, and it is no variable
without a declaration. -/
structure PartRead (v : Vocabulary) (p : Formula) : Prop where
  checked : p.build = .ok p
  declared : ∀ name s, p = .var name s → name ∈ v.variableSorts

/-- Every part was checked, and every variable declared. -/
def Vocabulary.Reads (v : Vocabulary) (e : Formula) : Prop := e.Every (PartRead v)

namespace Vocabulary.Reads

/-- A name stays declared. -/
theorem mono (h : v.Reads e) (hnames : ∀ name ∈ v.variableSorts, name ∈ v'.variableSorts) :
    v'.Reads e :=
  fun p hp => ⟨(h p hp).checked, fun name s hvar => hnames name ((h p hp).declared name s hvar)⟩

theorem unary {f : UnaryFunction} (ha : v.Reads a) (h : f.build a = .ok (.unary f a)) :
    v.Reads (.unary f a) :=
  every_unary.mpr ⟨⟨h, by simp⟩, ha⟩

/-- A function of one argument, but for the fields of records. -/
theorem build_unary {f : UnaryFunction} (hf : ∀ r i, f ≠ .get r i) (ha : v.Reads a) :
    Yields v.Reads (f.build a) := by
  intro e he
  obtain rfl := UnaryFunction.eq_of_build he hf
  exact ha.unary he

theorem get {field : String} (ha : v.Reads a) : Yields v.Reads (Build.get a field) := by
  intro e he
  obtain ⟨r, i, rfl, hbuild⟩ := Build.get_build he
  exact ha.unary hbuild

theorem build_binary (f : BinaryFunction) (ha : v.Reads a) (hb : v.Reads b) :
    Yields v.Reads (f.build a b) := by
  intro e he
  obtain rfl := BinaryFunction.eq_of_build he
  exact every_binary.mpr ⟨⟨he, by simp⟩, ha, hb⟩

theorem ite (hc : v.Reads c) (ha : v.Reads a) (hb : v.Reads b) :
    Yields v.Reads (Build.ite c a b) := by
  intro e he
  obtain rfl := eq_of_build_ite he
  exact every_ite.mpr ⟨⟨he, by simp⟩, hc, ha, hb⟩

theorem build_nary (f : NaryFunction) (hes : ∀ e ∈ es, v.Reads e) :
    Yields v.Reads (f.build es) := by
  intro e he
  obtain rfl := NaryFunction.eq_of_build he
  exact every_nary.mpr ⟨⟨he, by simp⟩, hes⟩

theorem lit {l : Literal} (h : (Formula.lit l).build = .ok (.lit l)) : v.Reads (.lit l) :=
  every_lit.mpr ⟨h, by simp⟩

theorem bits (n w : Nat) : v.Reads (Formula.bits n w) := by
  refine lit (congrArg Except.ok ?_)
  simp [Formula.bits]

theorem real (x : Float) : v.Reads (Formula.real x) := by
  refine lit (congrArg Except.ok ?_)
  simp only [Formula.real, Double.normal_normal]

end Vocabulary.Reads

theorem readLiteral_reads (l : String) : Yields v.Reads (readLiteral l) := by
  unfold readLiteral
  split
  · split
    · exact .pure (.bits _ _)
    · exact .throw
  · split
    · exact .pure (.bits _ _)
    · exact .throw
  · split
    · split
      · exact .pure (.real _)
      · exact .throw
    · split
      · exact .pure (.lit rfl)
      · exact .throw

theorem readSymbol_reads (name : String) : Yields v.Reads (readSymbol v name) := by
  unfold readSymbol
  split_ifs
  · exact .pure (.lit rfl)
  · exact .pure (.lit rfl)
  · split
    · next hs =>
      refine .pure (every_var.mpr ⟨rfl, fun name' s' hvar => ?_⟩)
      obtain ⟨rfl, -⟩ := Formula.var.inj hvar
      exact mem_iff_exists_getElem?.mpr ⟨_, hs⟩
    · split
      · exact .build_nary (.make _) (by simp)
      · exact .throw

theorem readBits_reads (items : List SExpr) : Yields v.Reads (readBits items) := by
  unfold readBits
  split
  · split
    · split
      · exact .bind fun w => .pure (.bits _ _)
      · exact .throw
    · exact .throw
  · exact .throw

theorem negated_reads (ha : v.Reads a) : Yields v.Reads (negated a) := by
  unfold negated
  split
  · exact .pure (.lit rfl)
  · exact .pure (.real _)
  · exact ha.build_unary (f := .neg) (by simp)

/-- A function takes the arguments that it is given. -/
theorem oneArgument_reads {function : String} (hes : ∀ e ∈ es, v.Reads e) :
    Yields v.Reads (oneArgument function es) := by
  unfold oneArgument
  split
  · exact .pure (List.forall_mem_singleton.mp hes)
  · exact .throw

theorem twoArguments_reads {function : String} (hes : ∀ e ∈ es, v.Reads e) :
    Yields (fun p => v.Reads p.1 ∧ v.Reads p.2) (twoArguments function es) := by
  unfold twoArguments
  split
  · exact .pure ⟨hes _ (by simp), hes _ (by simp)⟩
  · exact .throw

/-- Whatever a name stands for, it is applied by a checked constructor. -/
theorem apply_reads {function : String} (hes : ∀ e ∈ es, v.Reads e) :
    Yields v.Reads (apply v function es) := by
  have hone : ∀ f : UnaryFunction, (∀ r i, f ≠ .get r i) →
      Yields v.Reads (oneArgument function es >>= f.build) :=
    fun f hf => .bind_of (oneArgument_reads hes) fun a ha => .build_unary hf ha
  have htwo : ∀ f : BinaryFunction,
      Yields v.Reads (twoArguments function es >>= fun p => f.build p.1 p.2) :=
    fun f => .bind_of (twoArguments_reads hes) fun p hp => .build_binary f hp.1 hp.2
  unfold apply
  split
  · next op hop => exact htwo (.bits op)
  split
  · next c hc => exact htwo (.compareBits c)
  split
  · next c hc => exact htwo (.compareArith c)
  split
  · exact hone .not (by simp)
  · exact .build_nary .and hes
  · exact .build_nary .or hes
  · exact htwo .eq
  · obtain ⟨hc, ha, hb⟩ : _ ∧ _ ∧ _ := by simpa using hes
    exact .ite hc ha hb
  · exact .throw
  · exact negated_reads (List.forall_mem_singleton.mp hes)
  · exact htwo .concat
  · exact hone .bitsToInt (by simp)
  · exact hone .toReal (by simp)
  · exact hone .toInt (by simp)
  · split
    · next op a b es _ _ _ =>
      obtain ⟨ha, hrest⟩ := List.forall_mem_cons.mp hes
      exact fun e he => foldlM_induction
        (fun a b hb ha => Vocabulary.Reads.build_binary (.arith op) ha (hrest b hb)) ha he
    · exact .throw
    · split
      · exact .build_nary (.make _) hes
      · exact .bind_of (oneArgument_reads hes) fun a ha => ha.get
      · exact .throw

theorem applyIndexed_reads {function : List SExpr} (hes : ∀ e ∈ es, v.Reads e) :
    Yields v.Reads (applyIndexed function es) := by
  rcases es with _ | ⟨a, _ | ⟨b, rest⟩⟩
  · unfold applyIndexed
    split <;> exact .throw_bind
  · have ha : v.Reads a := List.forall_mem_singleton.mp hes
    unfold applyIndexed
    simp only [pure_bind]
    split
    · exact .bind fun high => .bind fun low => ha.build_unary (f := .extract high low) (by simp)
    · refine .bind fun n => ?_
      split
      · exact ha.build_unary (f := .zeroExtend n) (by simp)
      · exact ha.build_unary (f := .signExtend n) (by simp)
      · exact ha.build_unary (f := .intToBits n) (by simp)
      · exact .throw
    · exact .throw
  · unfold applyIndexed
    split <;> exact .throw_bind

/-- **A term is read as a formula whose parts were checked** and whose variables are declared. -/
theorem readTerm_reads (x : SExpr) : Yields v.Reads (readTerm v x) := by
  induction x with
  | str s => exact .pure (.lit rfl)
  | literal l => exact readLiteral_reads l
  | symbol name => exact readSymbol_reads name
  | list items ih =>
      have hreads : ∀ xs : List SExpr, xs ⊆ items →
          Yields (fun es => ∀ e ∈ es, v.Reads e) (readTerms v xs) := by
        intro xs hxs
        rw [readTerms_eq]
        exact .mapM fun x hx => ih x (hxs hx)
      rw [readTerm]
      unfold readApplication
      split
      · exact .throw
      · exact .bind_of (hreads _ (List.subset_cons_self _ _)) fun es => applyIndexed_reads
      · exact readBits_reads _
      · exact .bind_of (hreads _ (List.subset_cons_self _ _)) fun es => apply_reads
      · exact .throw

/-! ## Scripts -/

/-- Every assertion was read with declarations that are still there. -/
def Script.ReadsAll (s : Script) : Prop := ∀ e ∈ s.assertions, s.vocabulary.Reads e

namespace Script

variable {s : Script}

theorem declareRecords_readsAll (hs : s.ReadsAll) (command : List SExpr) :
    Yields ReadsAll (s.declareRecords command) := by
  unfold declareRecords
  split
  · split
    · refine fun t ht => foldlM_induction (P := ReadsAll) (fun s p _ hs => ?_) hs ht
      exact Yields.bind fun r => .pure fun e he => (hs e he).mono fun name hname => hname
    · exact .throw_bind
  · split
    · exact .throw
    · exact .throw_bind

theorem declareVariable_readsAll (hs : s.ReadsAll) (name : String) (sort : Option SExpr) :
    Yields ReadsAll (s.declareVariable name sort) := by
  unfold declareVariable
  split
  · refine .bind fun t => .pure fun e he => (hs e he).mono fun other hother => ?_
    exact Std.TreeMap.mem_insert.mpr (.inr hother)
  · exact .throw

theorem run_readsAll (hs : s.ReadsAll) (command : List SExpr) :
    Yields ReadsAll (s.run command) := by
  unfold run
  split
  · exact declareRecords_readsAll hs command
  · refine .bind fun name => ?_
    split
    · exact declareVariable_readsAll hs name _
    · exact .throw
  · exact .bind fun name => declareVariable_readsAll hs name _
  · split
    · refine .bind_of (readTerm_reads _) fun e he => .pure fun e' he' => ?_
      rcases List.mem_append.mp he' with he' | he'
      · exact hs e' he'
      · obtain rfl := List.mem_singleton.mp he'
        exact he
    · exact .throw
  · exact .pure hs

theorem readCommand_readsAll (hs : s.ReadsAll) (x : SExpr) : Yields ReadsAll (s.readCommand x) := by
  cases x with
  | list command => exact run_readsAll hs command
  | _ => exact .throw

/-- **The specification** of an assertion: each of its parts is what its constructor gives, its
literals fit their widths, and its variables are declared. -/
structure Asserts (s : Script) (e : Formula) : Prop where
  wellSorted : e.WellSorted
  checked : ∀ p ∈ e.parts, p.build = .ok p
  narrow : ∀ n w, .lit (.bits n w) ∈ e.parts → n < 2 ^ w
  declared : ∀ name ∈ e.freeVariables, name ∈ s.declarations

theorem ReadsAll.asserts (hs : s.ReadsAll) (he : e ∈ s.assertions) : s.Asserts e where
  wellSorted := wellSorted_of_checked fun p hp => (hs e he p hp).checked
  checked p hp := (hs e he p hp).checked
  narrow n w hp := lt_of_checked_bits (hs e he _ hp).checked
  declared name hname := by
    obtain ⟨t, ht⟩ := mem_variablesOf.mp hname
    have hpart : .var name t ∈ e.parts := mem_occurrences.mp (by simpa using ht)
    exact (hs e he _ hpart).declared name t rfl

end Script

/-- **What a script asserts is well sorted**, part by part, and speaks of declared variables. -/
theorem readScript_checked {text : String} {s : Script} (h : readScript text = .ok s) :
    ∀ e ∈ s.assertions, s.Asserts e := by
  rw [readScript_eq_foldlM] at h
  obtain ⟨xs, -, h⟩ := bind_eq_ok.mp h
  have hs : s.ReadsAll := foldlM_induction (P := Script.ReadsAll)
    (fun _ x _ hs => Script.readCommand_readsAll hs x) (by simp [Script.ReadsAll]) h
  exact fun e he => hs.asserts he

/-- A name is declared again with another sort, between assertions that use it, and a field of a
record is compared with a negative number. -/
def redeclaringScript : String :=
  "(declare-datatypes ((P 0)) (((mk-P (P.x Int) (P.f Bool))))) " ++
    "(declare-const p P) (declare-const b (_ BitVec 8)) (assert (bvult b #x0f)) " ++
    "(declare-const b Bool) (assert (and b (P.f p) (= (- (P.x p) 1 2) (- 3))))"

theorem redeclaringScript_checked : ∃ s, readScript redeclaringScript = .ok s ∧
    s.assertions.length = 2 ∧ s.declarations["b"]? = some .bool ∧
    ∀ e ∈ s.assertions, s.Asserts e := by
  obtain ⟨s, hread, hlength, hsort⟩ := exists_readScript redeclaringScript
    (fun s => s.assertions.length = 2 ∧ s.declarations["b"]? = some .bool) (by decide +kernel)
  exact ⟨s, hread, hlength, hsort, readScript_checked hread⟩

end SmtLib

end PlayerPaths
