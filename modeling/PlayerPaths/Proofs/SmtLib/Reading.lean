import PlayerPaths.Proofs.Formula.Records
import PlayerPaths.Proofs.SmtLib.Terms

/-!
# Reading terms
-/

namespace PlayerPaths

open SmtLib Formula

namespace SmtLib

/-! ## Functions -/

/-- The functions that need no declaration, and the mark of indices. -/
def builtins : List String :=
  bitOps.map Prod.fst ++ bitComparisons.map Prod.fst ++ arithComparisons.map Prod.fst ++
    arithOps.map Prod.fst ++
    ["not", "and", "or", "=", "ite", "concat", "bv2nat", "to_real", "to_int", "_"]

theorem lookup_eq_none {β : Type} {l : List (String × β)} {name : String}
    (h : name ∉ l.map Prod.fst) : l.lookup name = none := by
  rw [List.lookup_eq_none_iff]
  intro p hp
  have hne : name ≠ p.1 := fun heq => h (heq ▸ List.mem_map_of_mem hp)
  simpa using hne

/-- A function that is no builtin is a constructor or an accessor. -/
theorem apply_declared {v : Vocabulary} {name : String} {es : List Formula}
    (h : name ∉ builtins) : apply v name es =
      match v.constructor? name, v.accessor? name with
      | some r, _ => Build.make r es
      | none, some field => oneArgument name es >>= fun a => Build.get a field
      | none, none => throw (.parse ("unknown function " ++ name)) := by
  simp only [builtins, List.mem_append, not_or] at h
  obtain ⟨⟨⟨⟨hbits, hcompareBits⟩, hcompareArith⟩, harith⟩, hothers⟩ := h
  have hne : ∀ other ∈ ["not", "and", "or", "=", "ite", "concat", "bv2nat", "to_real", "to_int",
      "_"], name ≠ other := by
    rintro other hother rfl
    exact hothers hother
  have hminus : name ≠ "-" := by
    rintro rfl
    exact harith (by decide)
  simp only [apply, lookup_eq_none hbits, lookup_eq_none hcompareBits,
    lookup_eq_none hcompareArith]
  split
  case h_12 =>
    cases v.constructor? name with
    | some r => simp only [lookup_eq_none harith]
    | none => cases v.accessor? name <;> simp only [lookup_eq_none harith]
  all_goals first
    | exact absurd rfl (hne _ (by decide))
    | exact absurd rfl hminus

/-- The names of accessors have a point in them, and those of builtins have none. -/
theorem accessorName_not_builtin (r : Record) (field : String) :
    r.accessorName field ∉ builtins := by
  have hpoint : ∀ name ∈ builtins, '.' ∉ name.toList := by decide
  intro hmem
  exact hpoint _ hmem (by simp [Record.accessorName])

theorem constructorName_not_builtin (r : Record) : r.constructorName ∉ builtins := by
  have hmake : ∀ name ∈ builtins, ¬ "mk-".toList <+: name.toList := by decide
  intro hmem
  exact hmake _ hmem ⟨r.name.toList, by simp [Record.constructorName]⟩

theorem ne_mark_of_not_builtin {name : String} (h : name ∉ builtins) : name ≠ "_" := by
  rintro rfl
  exact h (by decide)

end SmtLib

/-! ## Checked construction, function by function -/

/-- The checked application of a function of two arguments. -/
def BinaryFunction.build (f : BinaryFunction) (a b : Formula) : Result Formula :=
  match f with
  | .eq => Build.eq a b
  | .bits op => Build.bits op a b
  | .compareBits c => Build.compareBits c a b
  | .arith op => Build.arith op a b
  | .compareArith c => Build.compareArith c a b
  | .concat => Build.concat a b

/-- The name of a function of two arguments stands for it. -/
theorem SmtLib.apply_binary (v : Vocabulary) (f : BinaryFunction) (s : SmtSort) (a b : Formula) :
    apply v (f.name s) [a, b] = f.build a b := by
  cases f with
  | eq => rfl
  | bits op => cases op <;> rfl
  | compareBits c => cases c <;> rfl
  | compareArith c => cases c <;> rfl
  | concat => rfl
  | arith op =>
      have hfold : (Build.arith op a b >>= pure) = Build.arith op a b := by simp
      rw [BinaryFunction.build, ← hfold]
      cases op with
      | div =>
          simp only [BinaryFunction.name, ArithOp.smt]
          split <;> rfl
      | _ => rfl

/-- Construction succeeds on operands of the sorts that the function accepts. -/
theorem BinaryFunction.build_eq_ok {f : BinaryFunction} {a b : Formula} {s t u : SmtSort}
    (hf : f.result? s t = some u) (ha : a.sort = .ok s) (hb : b.sort = .ok t) :
    f.build a b = .ok (.binary f a b) := by
  cases f with
  | eq =>
      obtain ⟨rfl, -⟩ := result?_eq.mp hf
      exact Build.eq_eq_ok.mpr ⟨⟨s, ha, hb⟩, rfl⟩
  | bits op =>
      obtain ⟨w, rfl, rfl, -⟩ := result?_bits.mp hf
      simp [build, Build.bits, Build.requireBits_eq_ok.mpr ha, Build.requireSame_eq_ok.mpr ⟨ha, hb⟩]
  | compareBits c =>
      obtain ⟨⟨w, rfl, rfl⟩, -⟩ := result?_compareBits.mp hf
      simp [build, Build.compareBits, Build.requireBits_eq_ok.mpr ha,
        Build.requireSame_eq_ok.mpr ⟨ha, hb⟩]
  | arith op =>
      obtain ⟨hs, rfl, -⟩ := result?_arith.mp hf
      have harith : Build.requireArithmetic t a = .ok () := Build.requireArithmetic_eq_ok.mpr hs
      simp [build, Build.arith, Build.requireSame_eq_ok.mpr ⟨ha, hb⟩, harith]
  | compareArith c =>
      obtain ⟨hs, rfl, -⟩ := result?_compareArith.mp hf
      exact Build.compareArith_eq_ok.mpr ⟨⟨t, ha, hb, hs⟩, rfl⟩
  | concat =>
      obtain ⟨m, n, rfl, rfl, hle, -⟩ := result?_concat.mp hf
      simp [build, Build.concat, Build.requireBits_eq_ok.mpr ha, Build.requireBits_eq_ok.mpr hb,
        Word.add, Word.size_of_lt (Word.lt_limit hle), Nat.not_lt.mpr hle]

theorem Build.requireExtensible_of_le {extra w : Nat} {e : Formula} (h : e.sort = .ok (.bitVec w))
    (hle : w + extra ≤ 64) : Build.requireExtensible extra e = .ok () := by
  simp [Build.requireExtensible, Build.requireBits_eq_ok.mpr h, Word.add,
    Word.size_of_lt (Word.lt_limit hle), Nat.not_lt.mpr hle]

/-- A formula with a minus sign as it is read: a literal takes the sign itself. -/
def Formula.negate : Formula → Formula
  | .int i => .int (-i)
  | .lit (.real x) => .real (-x)
  | e => .unary .neg e

/-- A function of one argument as it is read. -/
def UnaryFunction.reapply (f : UnaryFunction) (a : Formula) : Formula :=
  match f with
  | .neg => a.negate
  | f => .unary f a

theorem SmtLib.negated_eq_ok {a : Formula} {s : SmtSort} (hs : s = .int ∨ s = .real)
    (ha : a.sort = .ok s) : negated a = .ok a.negate := by
  have hneg : Build.neg a = .ok (.unary .neg a) := by
    have harith : Build.requireArithmetic s a = .ok () := Build.requireArithmetic_eq_ok.mpr hs
    simp [Build.neg, ha, harith]
  rcases a with _ | (_ | _ | _ | _ | _) | _ | _ | _ | _
  all_goals first | rfl | exact hneg

/-- What a vocabulary says about a record that it has. -/
structure SmtLib.Vocabulary.Knows (v : Vocabulary) (r : Record) : Prop where
  construct : v.constructor? r.constructorName = some r
  constant : v.variableSorts[r.constructorName]? = none
  access : ∀ f ∈ r.fields, v.constructor? (r.accessorName f.1) = none ∧
    v.accessor? (r.accessorName f.1) = some f.1
  fields : (r.fields.map Prod.fst).Nodup

theorem numeral_toString {n : Nat} (h : n < Word.limit) : numeral (toString n) = .ok n := by
  simp only [numeral, Text.readNumeral?_toString h]
  rfl

section

variable {v : Vocabulary} {xs : List SExpr} {es : List Formula}

theorem readTerm_symbol {name : String} (hname : name ≠ "_") (xs : List SExpr) :
    readTerm v (.list (.symbol name :: xs)) = (readTerms v xs >>= apply v name) := by
  rw [readTerm, readApplication]
  exact hname

theorem readTerm_list (function xs : List SExpr) :
    readTerm v (.list (.list function :: xs)) = (readTerms v xs >>= applyIndexed function) := by
  rw [readTerm, readApplication]

theorem readTerm_apply {name : String} (hname : name ≠ "_") (hes : readTerms v xs = .ok es) :
    readTerm v (.list (.symbol name :: xs)) = apply v name es := by
  rw [readTerm_symbol hname, hes]
  rfl

theorem readTerm_indexed {function : List SExpr} (hes : readTerms v xs = .ok es) :
    readTerm v (.list (.list function :: xs)) = applyIndexed function es := by
  rw [readTerm_list, hes]
  rfl

end

/-- A function of one argument is read from its expression and that of the argument. -/
theorem readTerm_unary {v : Vocabulary} {f : UnaryFunction} {a : Formula} {s t : SmtSort}
    {x : SExpr} (hx : readTerm v x = .ok a) (hf : f.result? s = some t) (ha : a.sort = .ok s)
    (hs : s.isSized = true) (hnode : (Formula.unary f a).nodeSized = true)
    (hknows : ∀ r i, f = .get r i → v.Knows r) :
    readTerm v (.list [f.sexpr, x]) = .ok (f.reapply a) := by
  have hxs : readTerms v [x] = .ok [a] := by simp [readTerms, hx]
  cases f with
  | not =>
      obtain ⟨rfl, -⟩ := result?_not.mp hf
      exact (readTerm_apply (by decide) hxs).trans (Build.not_eq_ok.mpr ⟨ha, rfl⟩)
  | neg =>
      obtain ⟨hs, -⟩ := result?_neg.mp hf
      exact (readTerm_apply (by decide) hxs).trans (negated_eq_ok hs ha)
  | extract high low =>
      obtain ⟨w, rfl, hrange, -⟩ := result?_extract.mp hf
      have hw := SmtSort.isSized_bitVec.mp hs
      have hhigh : numeral (toString high) = .ok high := numeral_toString (by omega)
      have hlow : numeral (toString low) = .ok low := numeral_toString (by omega)
      have hextract : Build.extract high low a = .ok (.unary (.extract high low) a) := by
        have hfits : ¬ (high < low ∨ w ≤ high) := by omega
        simp [Build.extract, Build.requireBits_eq_ok.mpr ha, hfits]
      refine (readTerm_indexed hxs).trans ?_
      show (numeral (toString high) >>= fun high => numeral (toString low) >>= fun low =>
        Build.extract high low a) = _
      rw [hhigh, hlow]
      exact hextract
  | zeroExtend n =>
      obtain ⟨w, rfl, hle, -⟩ := result?_zeroExtend.mp hf
      refine (readTerm_indexed hxs).trans ?_
      show (numeral (toString n) >>= fun n => Build.zeroExtend n a) = _
      rw [numeral_toString (Word.lt_limit (by omega))]
      show Build.zeroExtend n a = _
      simp only [Build.zeroExtend, Build.requireExtensible_of_le ha hle]
      rfl
  | signExtend n =>
      obtain ⟨w, rfl, hle, -⟩ := result?_signExtend.mp hf
      refine (readTerm_indexed hxs).trans ?_
      show (numeral (toString n) >>= fun n => Build.signExtend n a) = _
      rw [numeral_toString (Word.lt_limit (by omega))]
      show Build.signExtend n a = _
      simp only [Build.signExtend, Build.requireExtensible_of_le ha hle]
      rfl
  | bitsToInt =>
      obtain ⟨⟨w, rfl⟩, -⟩ := result?_bitsToInt.mp hf
      refine (readTerm_apply (by decide) hxs).trans ?_
      show Build.bitsToInt a = _
      simp only [Build.bitsToInt, Build.requireBits_eq_ok.mpr ha]
      rfl
  | intToBits w =>
      obtain ⟨rfl, -⟩ := result?_intToBits.mp hf
      have hsort : Build.requireSort .int a = .ok () := Build.requireSort_eq_ok.mpr ha
      refine (readTerm_indexed hxs).trans ?_
      show (numeral (toString w) >>= fun n => Build.intToBits n a) = _
      rw [numeral_toString (SmtSort.isSized_bitVec.mp hnode)]
      show Build.intToBits w a = _
      simp only [Build.intToBits, hsort]
      rfl
  | toReal =>
      obtain ⟨rfl, -⟩ := result?_toReal.mp hf
      have hsort : Build.requireSort .int a = .ok () := Build.requireSort_eq_ok.mpr ha
      refine (readTerm_apply (by decide) hxs).trans ?_
      show Build.toReal a = _
      simp only [Build.toReal, hsort]
      rfl
  | toInt =>
      obtain ⟨rfl, -⟩ := result?_toInt.mp hf
      have hsort : Build.requireSort .real a = .ok () := Build.requireSort_eq_ok.mpr ha
      refine (readTerm_apply (by decide) hxs).trans ?_
      show Build.toInt a = _
      simp only [Build.toInt, hsort]
      rfl
  | get r i =>
      obtain ⟨rfl, hi⟩ := result?_get.mp hf
      obtain ⟨field, hfield, rfl⟩ := Option.map_eq_some_iff.mp hi
      obtain ⟨hconstructor, haccessor⟩ := (hknows r i rfl).access field (List.mem_of_getElem? hfield)
      have hname : (r.accessorName? i).getD "" = r.accessorName field.1 := by
        simp [Record.accessorName?, hfield]
      have hbuiltin := accessorName_not_builtin r field.1
      rw [UnaryFunction.sexpr, hname, readTerm_apply (ne_mark_of_not_builtin hbuiltin) hxs,
        apply_declared hbuiltin, hconstructor, haccessor]
      exact Build.get_eq_ok.mpr
        ⟨r, i, ha, Record.Distinct.fieldIndex? (hknows r i rfl).fields hfield, rfl⟩

/-- A function of any number of arguments as it is read: without any, it is a constant. -/
def NaryFunction.reapply (f : NaryFunction) (es : List Formula) : Formula :=
  match f, es with
  | .and, [] => .bool true
  | .or, [] => .bool false
  | f, es => .nary f es

theorem readTerms_eq (v : Vocabulary) (xs : List SExpr) :
    readTerms v xs = xs.mapM (readTerm v) := by
  induction xs with
  | nil => rfl
  | cons x xs ih => simp [readTerms, ih]

/-- A function of any number of arguments is read from its expression and those of the
arguments. -/
theorem readTerm_nary {v : Vocabulary} {f : NaryFunction} {es : List Formula} {ss : List SmtSort}
    {t : SmtSort} {xs : List SExpr} (hxs : List.Forall₂ (fun x e => readTerm v x = .ok e) xs es)
    (hf : f.result? ss = some t) (hes : List.Forall₂ (fun e s => e.sort = .ok s) es ss)
    (hknows : ∀ r, f = .make r → v.Knows r) :
    readTerm v (f.sexpr xs) = .ok (f.reapply es) := by
  have hread : readTerms v xs = .ok es := by
    rw [readTerms_eq]
    exact mapM_eq_ok.mpr hxs
  have hbools : f = .and ∨ f = .or → ∀ e ∈ es, e.sort = .ok .bool := by
    rintro hjunction e he
    obtain ⟨u, hu, hsort⟩ := forall₂_exists_of_mem_left hes he
    have hall : ∀ u ∈ ss, u = .bool := by
      rcases hjunction with rfl | rfl <;>
        exact (by simpa [NaryFunction.result?] using hf : _ ∧ SmtSort.bool = t).1
    rw [hsort, hall u hu]
  cases f with
  | and =>
      cases hxs with
      | nil => rfl
      | cons hx hxs =>
          exact (readTerm_apply (by decide) hread).trans
            (Build.and_eq_ok.mpr ⟨hbools (.inl rfl), rfl⟩)
  | or =>
      cases hxs with
      | nil => rfl
      | cons hx hxs =>
          exact (readTerm_apply (by decide) hread).trans
            (Build.or_eq_ok.mpr ⟨hbools (.inr rfl), rfl⟩)
  | make r =>
      have hknows := hknows r rfl
      have hmake : Build.make r es = .ok (.nary (.make r) es) := by
        obtain ⟨rfl, -⟩ : ss = r.fields.map Prod.snd ∧ _ := by
          simpa [NaryFunction.result?] using hf
        rw [List.forall₂_map_right_iff (R := fun (e : Formula) s => e.sort = .ok s)] at hes
        exact Build.make_ok hes
      have hbuiltin := constructorName_not_builtin r
      cases hxs with
      | nil =>
          have hne : ∀ name ∈ ["true", "false"], r.constructorName ≠ name := by
            rintro name hname heq
            have hmake : ∀ name ∈ ["true", "false"], ¬ "mk-".toList <+: name.toList := by decide
            exact hmake name hname (heq ▸ ⟨r.name.toList, by simp [Record.constructorName]⟩)
          show readSymbol v r.constructorName = _
          simp only [readSymbol, hne "true" (by simp), hne "false" (by simp), if_false,
            hknows.constant, hknows.construct]
          exact hmake
      | cons hx hxs =>
          refine (readTerm_apply (ne_mark_of_not_builtin hbuiltin) hread).trans ?_
          rw [apply_declared hbuiltin, hknows.construct]
          exact hmake

/-! ## Literals -/

/-- A constant whose text is read back. The least integer is not: its magnitude is no integer.
Zero has no sign, and a finite real is written with digits that are read as the same number. -/
def Literal.Readable : Literal → Prop
  | .int i => i ≠ Word.minInt
  | .real x => Double.normal x = x ∧
      (Double.isFinite x = true → Decimal.read? (Decimal.exact x.abs) = some x.abs)
  | _ => True

/-- A constant as it is read. Infinities and NaN become a quotient that has no value. -/
def Literal.reread : Literal → Formula
  | .real x =>
    if Double.isFinite x then .lit (.real x)
    else .binary (.arith .div) (.lit (.real 1.0)) (.lit (.real 0.0))
  | v => .lit v

theorem readLiteral_of_ne {l : String} {c : Char} {cs : List Char} (hl : l.toList = c :: cs)
    (hc : c ≠ '#') : readLiteral l =
      if (c :: cs).contains '.' then
        match Decimal.read? l with
        | some x => return .real x
        | none => throw (.parse ("bad decimal " ++ l))
      else
        match Text.readNumeral? (pow2 63) l with
        | some n => return .int n
        | none => throw (.parse ("bad numeral " ++ l)) := by
  unfold readLiteral
  rw [hl]
  split
  · next heq => exact absurd (List.cons.inj heq).1 hc
  · next heq => exact absurd (List.cons.inj heq).1 hc
  · rfl

theorem readLiteral_numeral {n : Nat} (h : n < pow2 63) :
    readLiteral (toString n) = .ok (.int n) := by
  have hdigit : ∀ d ∈ (toString n).toList, d.isDigit = true := fun d =>
    Text.isDigit_of_mem_toString
  obtain ⟨c, cs, htext⟩ : ∃ c cs, (toString n).toList = c :: cs := by
    rw [Text.toList_toString]
    exact List.exists_cons_of_ne_nil Nat.toDigits_ne_nil
  rw [htext] at hdigit
  have hc : c ≠ '#' := by
    rintro rfl
    exact absurd (hdigit _ List.mem_cons_self) (by decide)
  have hpoint : (c :: cs).contains '.' = false := by
    rw [Bool.eq_false_iff]
    intro hmem
    exact absurd (hdigit '.' (List.contains_iff_mem.mp hmem)) (by decide)
  rw [readLiteral_of_ne htext hc, hpoint, Text.readNumeral?_toString h]
  rfl

theorem readLiteral_decimal {text : String} {x : Float} (h : Decimal.HasPoint text)
    (hx : Decimal.read? text = some x) : readLiteral text = .ok (.real x) := by
  obtain ⟨whole, fraction, htext, hne, hdigit⟩ := h
  obtain ⟨c, cs, rfl⟩ := List.exists_cons_of_ne_nil hne
  have hc : c ≠ '#' := by
    rintro rfl
    exact absurd (hdigit _ List.mem_cons_self) (by decide)
  rw [List.cons_append] at htext
  have hpoint : (c :: (cs ++ '.' :: fraction)).contains '.' = true := by simp
  rw [readLiteral_of_ne htext hc, hpoint, hx]
  rfl

/-- A minus sign in front of a literal is part of the literal. -/
theorem readTerm_signedLiteral {v : Vocabulary} {text : String} {l l' : Formula} {negative : Bool}
    (h : readLiteral text = .ok l) (hpositive : negative = false → l = l')
    (hnegative : negative = true → negated l = .ok l') :
    readTerm v (signedLiteral negative text) = .ok l' := by
  cases negative with
  | false => exact h.trans (by rw [hpositive rfl])
  | true =>
      have hread : readTerms v [.literal text] = .ok [l] := by simp [readTerms, readTerm, h]
      exact (readTerm_apply (by decide) hread).trans (hnegative rfl)

theorem natAbs_lt_of_inRange {i : Int} (h : Word.inRange i = true) (hmin : i ≠ Word.minInt) :
    i.natAbs < pow2 63 := by
  have hmin' : Word.minInt = -9223372036854775808 := by decide
  have hmax : Word.maxInt = 9223372036854775807 := by decide
  have hpow : pow2 63 = 9223372036854775808 := by decide
  simp only [Word.inRange, Bool.and_eq_true, decide_eq_true_eq, hmin', hmax] at h
  rw [hmin'] at hmin
  omega

theorem readTerm_bits {v : Vocabulary} {value width : Nat} (hwidth : width < Word.limit)
    (hvalue : value < pow2 (min width 64)) :
    readTerm v (Literal.bits value width).sexpr = .ok (.lit (.bits value width)) := by
  have hlimit : value < Word.limit :=
    hvalue.trans_le (Nat.pow_le_pow_right (by decide) (Nat.min_le_right width 64))
  have hchars : ("bv" ++ toString value).toList = 'b' :: 'v' :: (toString value).toList := by
    rw [String.toList_append]
    rfl
  have hread : readBits [.symbol ("bv" ++ toString value), .literal (toString width)] =
      .ok (.bits value width) := by
    simp only [readBits, hchars, String.ofList_toList, Text.readNumeral?_toString hlimit,
      numeral_toString hwidth]
    rfl
  rw [Formula.bits, Nat.mod_eq_of_lt hvalue] at hread
  exact hread

/-- The quotient that stands for infinities and NaN. -/
theorem readTerm_undefined (v : Vocabulary) :
    readTerm v (.list [.symbol "/", .literal "1.0", .literal "0.0"]) =
      .ok (.binary (.arith .div) (.lit (.real 1.0)) (.lit (.real 0.0))) := by
  have hone : readLiteral "1.0" = .ok (.lit (.real 1.0)) := rfl
  have hzero : readLiteral "0.0" = .ok (.lit (.real 0.0)) := rfl
  have hread : readTerms v [.literal "1.0", .literal "0.0"] =
      .ok [.lit (.real 1.0), .lit (.real 0.0)] := by
    simp [readTerms, readTerm, hone, hzero]
  refine (readTerm_apply (by decide) hread).trans ?_
  exact (apply_binary v (.arith .div) .real _ _).trans
    (BinaryFunction.build_eq_ok (s := .real) (t := .real) (u := .real) rfl rfl rfl)

theorem readTerm_literal {v : Vocabulary} {l : Literal} (hz : l.isSized = true)
    (hr : l.Readable) : readTerm v l.sexpr = .ok l.reread := by
  cases l with
  | bool b => cases b <;> rfl
  | bits value width =>
      obtain ⟨hwidth, hvalue⟩ : width < Word.limit ∧ value < pow2 (min width 64) := by
        simpa [Literal.isSized] using hz
      exact readTerm_bits hwidth hvalue
  | int i =>
      refine readTerm_signedLiteral (readLiteral_numeral (natAbs_lt_of_inRange hz hr)) ?_ ?_
      · intro hpositive
        have hi : 0 ≤ i := by simpa using hpositive
        show Formula.int i.natAbs = .int i
        rw [Int.natAbs_of_nonneg hi]
      · intro hnegative
        have hi : i < 0 := by simpa using hnegative
        have habs : -(i.natAbs : Int) = i := by omega
        show Except.ok (Formula.int (-(i.natAbs : Int))) = .ok (.int i)
        rw [habs]
  | real x =>
      simp only [Literal.sexpr, Literal.reread]
      by_cases hfinite : Double.isFinite x = true
      · have hnan := Double.number_of_isFinite hfinite
        have hread := readLiteral_decimal (hasPoint_magnitude hfinite) (hr.2 hfinite)
        rw [Formula.real, Double.normal_abs hnan] at hread
        simp only [hfinite, Bool.not_true, if_true]
        refine readTerm_signedLiteral hread ?_ ?_
        · intro hpositive
          have hx : ¬ x < 0.0 := by simpa using hpositive
          rw [Double.abs_eq_self hnan hx hr.1]
        · intro hnegative
          have hx : x < 0.0 := by simpa using hnegative
          show Except.ok (Formula.real (-x.abs)) = .ok (.lit (.real x))
          rw [Double.neg_abs hx, Formula.real, hr.1]
      · simp only [hfinite, Bool.not_false, Bool.false_eq_true, if_true, if_false]
        exact readTerm_undefined v
  | str s => rfl

end PlayerPaths
