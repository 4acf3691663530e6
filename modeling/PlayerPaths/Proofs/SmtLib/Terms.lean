import PlayerPaths.Proofs.Formula.Construction
import PlayerPaths.Proofs.Formula.Sizes
import PlayerPaths.Proofs.Number.Shortest
import PlayerPaths.Proofs.Number.Sign
import PlayerPaths.Proofs.SmtLib.Tokens
import PlayerPaths.SmtLib.Reader

/-!
# Terms

The text of a formula spells the expression of the formula (`Formula.text_writes`).
-/

namespace PlayerPaths

open SmtLib

/-! ## Expressions -/

def signedLiteral (negative : Bool) (text : String) : SExpr :=
  if negative then .list [.symbol "-", .literal text] else .literal text

def Literal.sexpr : Literal → SExpr
  | .bool b => .symbol (if b then "true" else "false")
  | .bits value width =>
    .list [.symbol "_", .symbol ("bv" ++ toString value), .literal (toString width)]
  | .int i => signedLiteral (i < 0) (toString i.natAbs)
  | .real x =>
    if !Double.isFinite x then .list [.symbol "/", .literal "1.0", .literal "0.0"]
    else signedLiteral (x < 0.0) (Decimal.exact x.abs)
  | .str s => .str s

def indexed (name : String) (indices : List Nat) : SExpr :=
  .list (.symbol "_" :: .symbol name :: indices.map fun n => .literal (toString n))

def UnaryFunction.sexpr : UnaryFunction → SExpr
  | .extract high low => indexed "extract" [high, low]
  | .zeroExtend extra => indexed "zero_extend" [extra]
  | .signExtend extra => indexed "sign_extend" [extra]
  | .intToBits width => indexed "int2bv" [width]
  | .get r i => .symbol ((r.accessorName? i).getD "")
  | f => .symbol f.smt

/-- The name of a function of two arguments, of which the left one has a sort. -/
def BinaryFunction.name (f : BinaryFunction) (s : SmtSort) : String :=
  match f with
  | .eq => "="
  | .bits op => op.smt
  | .compareBits c => c.smt
  | .arith op => op.smt s
  | .compareArith c => c.smt
  | .concat => "concat"

def NaryFunction.sexpr (f : NaryFunction) (arguments : List SExpr) : SExpr :=
  match f, arguments with
  | .and, [] => .symbol "true"
  | .and, arguments => .list (.symbol "and" :: arguments)
  | .or, [] => .symbol "false"
  | .or, arguments => .list (.symbol "or" :: arguments)
  | .make r, [] => .symbol r.constructorName
  | .make r, arguments => .list (.symbol r.constructorName :: arguments)

namespace Formula

mutual

/-- The expression that the text of a well-sorted formula spells. -/
def sexpr : Formula → SExpr
  | .var name _ => .symbol name
  | .lit v => v.sexpr
  | .unary f a => .list [f.sexpr, a.sexpr]
  | .binary f a b => .list [.symbol (f.name (a.sort?.getD .bool)), a.sexpr, b.sexpr]
  | .ite c a b => .list [.symbol "ite", c.sexpr, a.sexpr, b.sexpr]
  | .nary f es => f.sexpr (sexprs es)

def sexprs : List Formula → List SExpr
  | [] => []
  | e :: es => e.sexpr :: sexprs es

end

theorem sexprs_eq (es : List Formula) : sexprs es = es.map sexpr := by
  induction es with
  | nil => rfl
  | cons e es ih => rw [sexprs, ih, List.map_cons]

theorem texts_eq (es : List Formula) : texts es = es.mapM text := by
  induction es with
  | nil => rfl
  | cons e es ih => simp [texts, ih]

end Formula

/-! ## Spelling -/

/-- No bar in a name, which could not stand between bars. -/
def barFree (name : String) : Prop := '|' ∉ name.toList

instance (name : String) : Decidable (barFree name) :=
  inferInstanceAs (Decidable ('|' ∉ name.toList))

theorem writes_signed {text : String} (h : Writes text (.literal text)) (negative : Bool) :
    Writes (if negative then "(- " ++ text ++ ")" else text) (signedLiteral negative text) := by
  cases negative with
  | false => exact h
  | true =>
      have htext : "(- " ++ text ++ ")" = application "-" [text] := by
        simp [application, String.intercalate_cons_cons, ← String.append_assoc]
      simp only [if_true, htext]
      exact writes_application (writes_simple (by decide)) (.cons h .nil)

theorem writes_decimal {text : String} (h : Decimal.HasPoint text) :
    Writes text (.literal text) := by
  obtain ⟨whole, fraction, htext, hne, hdigit⟩ := h
  obtain ⟨c, cs, rfl⟩ := List.exists_cons_of_ne_nil hne
  refine writes_literal htext (hdigit c (by simp)) fun d hd => ?_
  rw [htext] at hd
  have hchar : d ∈ c :: cs ++ fraction ∨ d = '.' := by
    simp only [List.mem_append, List.mem_cons] at hd ⊢
    grind
  rcases hchar with hd | rfl
  · exact endsAtom_of_isAlphanum (by simp [Char.isAlphanum, hdigit d hd])
  · decide

theorem hasPoint_magnitude {x : Float} (h : Double.isFinite x = true) :
    Decimal.HasPoint (Decimal.exact x.abs) := by
  obtain ⟨p, hp, hsign, hsignificand⟩ := Double.parts?_abs h
  exact Decimal.exact_hasPoint hp hsign hsignificand

theorem writes_indexed {name : String} (hname : isSimple name = true) (indices : List Nat) :
    Writes ("(" ++ " ".intercalate ("_" :: name :: indices.map toString) ++ ")")
      (indexed name indices) := by
  refine writes_list (.cons (writes_simple (by decide)) (.cons (writes_simple hname) ?_))
  rw [List.forall₂_map_left_iff, List.forall₂_map_right_iff, List.forall₂_same]
  exact fun n _ => writes_numeral n

theorem isSimple_bits (n : Nat) : isSimple ("bv" ++ toString n) = true := by
  have hdigits : ∀ c ∈ (toString n).toList, isSimpleChar c = true := by
    intro c hc
    simp [isSimpleChar, Char.isAlphanum, Text.isDigit_of_mem_toString hc]
  have hchars : ("bv" ++ toString n).toList = 'b' :: 'v' :: (toString n).toList := by
    rw [String.toList_append]
    rfl
  have hb : isSimpleChar 'b' = true := by decide
  have hv : isSimpleChar 'v' = true := by decide
  have hdigit : Char.isDigit 'b' = false := by decide
  simp only [isSimple, hchars, hdigit, List.all_cons, hb, hv, List.all_eq_true.mpr hdigits]
  rfl

theorem Literal.text_writes (v : Literal) : Writes v.text v.sexpr := by
  cases v with
  | bool b => cases b <;> exact writes_simple (by decide)
  | bits value width =>
      have htext : (Literal.bits value width).text =
          application "_" ["bv" ++ toString value, toString width] := by
        apply String.toList_inj.mp
        show ("(_ bv" ++ toString value ++ " " ++ toString width ++ ")").toList = _
        simp [application, String.intercalate_cons_cons]
      rw [htext]
      exact writes_application (writes_simple (by decide))
        (.cons (writes_simple (isSimple_bits value)) (.cons (writes_numeral width) .nil))
  | int i =>
      have htext : (Literal.int i).text =
          if (decide (i < 0)) = true then "(- " ++ toString i.natAbs ++ ")"
          else toString i.natAbs := by
        simp only [Literal.text, intText, decide_eq_true_eq]
        split
        · rfl
        · next h =>
          obtain ⟨n, rfl⟩ := Int.eq_ofNat_of_zero_le (Int.not_lt.mp h)
          rfl
      rw [htext]
      exact writes_signed (writes_numeral i.natAbs) _
  | real x =>
      simp only [Literal.text, realText, Literal.sexpr]
      split
      · have htext : "(/ 1.0 0.0)" = application "/" ["1.0", "0.0"] := by decide
        rw [htext]
        exact writes_application (writes_simple (by decide))
          (.cons (writes_decimal (Decimal.hasPoint_whole 1))
            (.cons (writes_decimal (Decimal.hasPoint_whole 0)) .nil))
      · next h =>
        have hfinite : Double.isFinite x = true := by simpa using h
        have hsigned := writes_signed (writes_decimal (hasPoint_magnitude hfinite))
          (decide (x < 0.0))
        simp only [decide_eq_true_eq] at hsigned
        exact hsigned
  | str s => exact writes_string s

/-- A record whose names contain no bars. -/
structure Record.BarFree (r : Record) : Prop where
  name : barFree r.name
  fields : ∀ f ∈ r.fields, barFree f.1

instance (r : Record) : Decidable r.BarFree :=
  decidable_of_iff (barFree r.name ∧ ∀ f ∈ r.fields, barFree f.1)
    ⟨fun h => ⟨h.1, h.2⟩, fun h => ⟨h.name, h.fields⟩⟩

theorem Record.BarFree.constructorName {r : Record} (h : r.BarFree) : barFree r.constructorName := by
  simpa [barFree, Record.constructorName] using h.name

theorem Record.BarFree.accessorName {r : Record} (h : r.BarFree) {f : String × SmtSort}
    (hf : f ∈ r.fields) : barFree (r.accessorName f.1) := by
  simpa [barFree, Record.accessorName] using ⟨h.name, h.fields f hf⟩

theorem UnaryFunction.smt_writes (f : UnaryFunction)
    (h : ∀ r i, f = .get r i → r.BarFree) : Writes f.smt f.sexpr := by
  have hindexed : ∀ {text name} {indices : List Nat}, isSimple name = true →
      text = "(" ++ " ".intercalate ("_" :: name :: indices.map toString) ++ ")" →
      Writes text (indexed name indices) := by
    rintro _ name indices hname rfl
    exact writes_indexed hname indices
  cases f with
  | extract high low =>
      refine hindexed (by decide) (String.toList_inj.mp ?_)
      show ("(_ extract " ++ toString high ++ " " ++ toString low ++ ")").toList = _
      simp [String.intercalate_cons_cons]
  | zeroExtend n =>
      refine hindexed (by decide) (String.toList_inj.mp ?_)
      show ("(_ zero_extend " ++ toString n ++ ")").toList = _
      simp [String.intercalate_cons_cons]
  | signExtend n =>
      refine hindexed (by decide) (String.toList_inj.mp ?_)
      show ("(_ sign_extend " ++ toString n ++ ")").toList = _
      simp [String.intercalate_cons_cons]
  | intToBits n =>
      refine hindexed (by decide) (String.toList_inj.mp ?_)
      show ("(_ int2bv " ++ toString n ++ ")").toList = _
      simp [String.intercalate_cons_cons]
  | get r i =>
      refine writes_symbol ?_
      rcases hi : r.fields[i]? with _ | field
      · simp [Record.accessorName?, hi]
      · simpa [Record.accessorName?, hi, barFree] using
          (h r i rfl).accessorName (List.mem_of_getElem? hi)
  | _ => exact writes_simple (by decide)

theorem BinaryFunction.smt_eq_ok (f : BinaryFunction) {a : Formula} {s : SmtSort}
    (h : a.sort = .ok s) : f.smt a = .ok (f.name s) := by
  cases f with
  | arith op =>
      cases op with
      | div => simp [BinaryFunction.smt, BinaryFunction.name, h]
      | _ => rfl
  | _ => rfl

def binaryNames : List String :=
  ["=", "concat", "+", "-", "*", "/", "div", "<", "<=", ">", ">=", "bvadd", "bvsub", "bvmul",
    "bvudiv", "bvsdiv", "bvurem", "bvsrem", "bvand", "bvor", "bvxor", "bvshl", "bvlshr", "bvashr",
    "bvult", "bvule", "bvugt", "bvuge", "bvslt", "bvsle", "bvsgt", "bvsge"]

theorem BinaryFunction.name_mem (f : BinaryFunction) (s : SmtSort) : f.name s ∈ binaryNames := by
  cases f with
  | eq => exact show "=" ∈ binaryNames by decide
  | concat => exact show "concat" ∈ binaryNames by decide
  | bits op =>
      show op.smt ∈ binaryNames
      cases op <;> decide
  | compareBits c =>
      show c.smt ∈ binaryNames
      cases c <;> decide
  | compareArith c =>
      show c.smt ∈ binaryNames
      cases c <;> decide
  | arith op =>
      show op.smt s ∈ binaryNames
      cases op with
      | div =>
          simp only [ArithOp.smt]
          split <;> decide
      | add => exact show "+" ∈ binaryNames by decide
      | sub => exact show "-" ∈ binaryNames by decide
      | mul => exact show "*" ∈ binaryNames by decide

theorem BinaryFunction.isSimple_name (f : BinaryFunction) (s : SmtSort) :
    isSimple (f.name s) = true := by
  have hnames : ∀ name ∈ binaryNames, isSimple name = true := by decide
  exact hnames _ (f.name_mem s)

theorem NaryFunction.smt_writes (f : NaryFunction) (h : ∀ r, f = .make r → r.BarFree)
    {texts : List String} {es : List SExpr} (hes : List.Forall₂ Writes texts es) :
    Writes (f.smt texts) (f.sexpr es) := by
  have hmake : ∀ r, f = .make r → Writes (symbol r.constructorName) (.symbol r.constructorName) :=
    fun r hr => writes_symbol (h r hr).constructorName
  cases hes with
  | nil =>
      cases f with
      | make r => exact hmake r rfl
      | _ => exact writes_simple (by decide)
  | cons ht hts =>
      cases f with
      | make r => exact writes_application (hmake r rfl) (.cons ht hts)
      | _ => exact writes_application (writes_simple (by decide)) (.cons ht hts)

namespace Formula

/-- The names that a formula mentions itself, its parts left aside, contain no bars. -/
def NodeBarFree (p : Formula) : Prop :=
  (∀ name s, p = .var name s → barFree name) ∧ (∀ r i a, p = .unary (.get r i) a → r.BarFree) ∧
    ∀ r es, p = .nary (.make r) es → r.BarFree

/-- **The text of a formula spells its expression.** -/
theorem text_writes {e : Formula} {s : SmtSort} (hs : e.HasSort s) (hz : e.Sized)
    (hnames : e.Every NodeBarFree) : ∃ t, e.text = .ok t ∧ Writes t e.sexpr := by
  induction e generalizing s with
  | var name t => exact ⟨_, rfl, writes_symbol (hnames.self.1 name t rfl)⟩
  | lit v => exact ⟨_, rfl, v.text_writes⟩
  | unary f a ih =>
      obtain ⟨t, ht, -⟩ := hasSort_unary.mp hs
      obtain ⟨hnode, ha⟩ := every_unary.mp hnames
      obtain ⟨text, htext, hwrites⟩ := ih ht (every_unary.mp hz).2 ha
      refine ⟨application f.smt [text], by simp [Formula.text, htext], ?_⟩
      exact writes_application (f.smt_writes fun r i hf => hnode.2.1 r i a (hf ▸ rfl))
        (.cons hwrites .nil)
  | binary f a b iha ihb =>
      obtain ⟨t, u, ht, hu, -⟩ := hasSort_binary.mp hs
      obtain ⟨-, ha, hb⟩ := every_binary.mp hnames
      obtain ⟨-, hza, hzb⟩ := every_binary.mp hz
      obtain ⟨text, htext, hwrites⟩ := iha ht hza ha
      obtain ⟨text', htext', hwrites'⟩ := ihb hu hzb hb
      have hname := f.smt_eq_ok (sort_sized ht hza).1
      refine ⟨application (f.name t) [text, text'], by simp [Formula.text, hname, htext, htext'], ?_⟩
      have hsort : a.sort?.getD .bool = t := by rw [show a.sort? = some t from ht]; rfl
      rw [sexpr, hsort]
      exact writes_application (writes_simple (f.isSimple_name t)) (.cons hwrites (.cons hwrites' .nil))
  | ite c a b ihc iha ihb =>
      obtain ⟨hc, ha, hb⟩ := hasSort_ite.mp hs
      obtain ⟨-, hnc, hna, hnb⟩ := every_ite.mp hnames
      obtain ⟨-, hzc, hza, hzb⟩ := every_ite.mp hz
      obtain ⟨tc, htc, hspc⟩ := ihc hc hzc hnc
      obtain ⟨ta, hta, hspa⟩ := iha ha hza hna
      obtain ⟨tb, htb, hspb⟩ := ihb hb hzb hnb
      refine ⟨application "ite" [tc, ta, tb], by simp [Formula.text, htc, hta, htb], ?_⟩
      exact writes_application (writes_simple (by decide))
        (.cons hspc (.cons hspa (.cons hspb .nil)))
  | nary f es ih =>
      obtain ⟨ss, hss, -⟩ := hasSort_nary.mp hs
      obtain ⟨hnode, hes⟩ := every_nary.mp hnames
      have hparts : ∀ e ∈ es, ∃ t, e.text = .ok t ∧ Writes t e.sexpr := by
        intro e he
        obtain ⟨t, -, ht⟩ := forall₂_exists_of_mem_left hss he
        exact ih e he ht ((every_nary.mp hz).2 e he) (hes e he)
      obtain ⟨ts, hts, hwrites⟩ := exists_mapM_eq_ok hparts
      refine ⟨f.smt ts, by simp [Formula.text, texts_eq, hts], ?_⟩
      rw [sexpr, sexprs_eq]
      exact f.smt_writes (fun r hf => hnode.2.2 r es (hf ▸ rfl)) hwrites

end Formula

end PlayerPaths
