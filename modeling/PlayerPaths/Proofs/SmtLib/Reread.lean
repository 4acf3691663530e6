import PlayerPaths.Proofs.SmtLib.Reading

/-!
# Formulas that are read back

The expression of a formula is read as a formula of the same sort (`Formula.readTerm_sexpr`), which
is the formula itself up to the spelling of constants: a minus sign in front of a literal is taken
into the literal, a conjunction or disjunction of nothing is a truth value, and what is no number is
a quotient without a value.
-/

namespace PlayerPaths

open SmtLib

namespace Formula

mutual

/-- The formula that is read from the text of a formula. -/
def reread : Formula → Formula
  | .var name s => .var name s
  | .lit v => v.reread
  | .unary f a => f.reapply a.reread
  | .binary f a b => .binary f a.reread b.reread
  | .ite c a b => .ite c.reread a.reread b.reread
  | .nary f es => f.reapply (rereadAll es)

def rereadAll : List Formula → List Formula
  | [] => []
  | e :: es => e.reread :: rereadAll es

end

theorem rereadAll_eq (es : List Formula) : rereadAll es = es.map reread := by
  induction es with
  | nil => rfl
  | cons e es ih => rw [rereadAll, ih, List.map_cons]

theorem negate_cases (a : Formula) : (∃ i, a = .int i ∧ a.negate = .int (-i)) ∨
    (∃ x, a = .lit (.real x) ∧ a.negate = .real (-x)) ∨ a.negate = .unary .neg a := by
  rcases a with _ | (_ | _ | i | x | _) | _ | _ | _ | _
  case lit.int => exact .inl ⟨i, rfl, rfl⟩
  case lit.real => exact .inr (.inl ⟨x, rfl, rfl⟩)
  all_goals exact .inr (.inr rfl)

theorem reapply_unary (f : UnaryFunction) (a : Formula) :
    f = .neg ∧ f.reapply a = a.negate ∨ f.reapply a = .unary f a := by
  cases f with
  | neg => exact .inl ⟨rfl, rfl⟩
  | _ => exact .inr rfl

theorem reapply_nary (f : NaryFunction) (es : List Formula) :
    (f = .and ∧ es = [] ∧ f.reapply es = .bool true) ∨
      (f = .or ∧ es = [] ∧ f.reapply es = .bool false) ∨ f.reapply es = .nary f es := by
  cases es with
  | nil =>
      cases f with
      | and => exact .inl ⟨rfl, rfl, rfl⟩
      | or => exact .inr (.inl ⟨rfl, rfl, rfl⟩)
      | make r => exact .inr (.inr rfl)
  | cons e es => cases f <;> exact .inr (.inr rfl)

/-- What is read has the sort of what was written. -/
theorem reread_hasSort {e : Formula} {s : SmtSort} (h : e.HasSort s) : e.reread.HasSort s := by
  induction e generalizing s with
  | var name t => exact h
  | lit v =>
      obtain rfl := hasSort_lit.mp h
      cases v with
      | real x =>
          simp only [reread, Literal.reread]
          split <;> simp [Literal.sort]
      | _ => rfl
  | unary f a ih =>
      obtain ⟨t, ht, hf⟩ := hasSort_unary.mp h
      have ha := ih ht
      rw [reread]
      rcases reapply_unary f a.reread with ⟨rfl, heq⟩ | heq
      · obtain ⟨-, rfl⟩ := result?_neg.mp hf
        rw [heq]
        rcases negate_cases a.reread with ⟨i, hi, heq⟩ | ⟨x, hx, heq⟩ | heq
        · rw [hi] at ha
          rw [heq]
          exact ha
        · rw [hx] at ha
          rw [heq]
          exact ha
        · rw [heq]
          exact hasSort_unary.mpr ⟨s, ha, hf⟩
      · rw [heq]
        exact hasSort_unary.mpr ⟨t, ha, hf⟩
  | binary f a b iha ihb =>
      obtain ⟨t, u, ht, hu, hf⟩ := hasSort_binary.mp h
      exact hasSort_binary.mpr ⟨t, u, iha ht, ihb hu, hf⟩
  | ite c a b ihc iha ihb =>
      obtain ⟨hc, ha, hb⟩ := hasSort_ite.mp h
      exact hasSort_ite.mpr ⟨ihc hc, iha ha, ihb hb⟩
  | nary f es ih =>
      obtain ⟨ss, hss, hf⟩ := hasSort_nary.mp h
      rw [reread, rereadAll_eq]
      rcases reapply_nary f (es.map reread) with ⟨rfl, -, heq⟩ | ⟨rfl, -, heq⟩ | heq
      · obtain ⟨rfl, -⟩ := hasSort_and.mp h
        rw [heq]
        rfl
      · obtain ⟨rfl, -⟩ := hasSort_or.mp h
        rw [heq]
        rfl
      · rw [heq, hasSort_nary]
        refine ⟨ss, ?_, hf⟩
        rw [List.forall₂_map_left_iff]
        exact forall₂_imp_of_mem hss fun e he t ht => ih e he ht

/-- A part that is no integer beyond the range of magnitudes. -/
def NodeBalanced (p : Formula) : Prop := p.nodeSized = true ∧ p ≠ .int Word.minInt

theorem negate_balanced {a : Formula} (h : a.Every NodeBalanced) : a.negate.Every NodeBalanced := by
  have hmin : Word.minInt = -9223372036854775808 := by decide
  have hmax : Word.maxInt = 9223372036854775807 := by decide
  rcases negate_cases a with ⟨i, rfl, heq⟩ | ⟨x, rfl, heq⟩ | heq
  · rw [heq, every_lit]
    obtain ⟨hz, hne⟩ := every_lit.mp h
    have hi : Word.inRange i = true := hz
    have hne' : i ≠ Word.minInt := fun hi => hne (by rw [hi])
    simp only [Word.inRange, Bool.and_eq_true, decide_eq_true_eq, hmin, hmax] at hi
    rw [hmin] at hne'
    constructor
    · show Word.inRange (-i) = true
      simp only [Word.inRange, Bool.and_eq_true, decide_eq_true_eq, hmin, hmax]
      omega
    · intro heq
      have : -i = Word.minInt := by simpa using heq
      omega
  · rw [heq, Formula.real, every_lit]
    exact ⟨rfl, by simp⟩
  · rw [heq, every_unary]
    exact ⟨⟨rfl, by simp⟩, h⟩

/-- What is read still fits a machine word. -/
theorem reread_balanced {e : Formula} (h : e.Every NodeBalanced) :
    e.reread.Every NodeBalanced := by
  induction e with
  | var name t => exact h
  | lit v =>
      cases v with
      | real x =>
          simp only [reread, Literal.reread]
          split <;> simp [NodeBalanced, nodeSized, Literal.isSized]
      | _ => exact h
  | unary f a ih =>
      obtain ⟨hnode, ha⟩ := every_unary.mp h
      rw [reread]
      rcases reapply_unary f a.reread with ⟨rfl, heq⟩ | heq
      · rw [heq]
        exact negate_balanced (ih ha)
      · rw [heq, every_unary]
        refine ⟨⟨?_, by simp⟩, ih ha⟩
        cases f <;> exact hnode.1
  | binary f a b iha ihb =>
      obtain ⟨-, ha, hb⟩ := every_binary.mp h
      exact every_binary.mpr ⟨⟨rfl, by simp⟩, iha ha, ihb hb⟩
  | ite c a b ihc iha ihb =>
      obtain ⟨-, hc, ha, hb⟩ := every_ite.mp h
      exact every_ite.mpr ⟨⟨rfl, by simp⟩, ihc hc, iha ha, ihb hb⟩
  | nary f es ih =>
      obtain ⟨hnode, hes⟩ := every_nary.mp h
      rw [reread, rereadAll_eq]
      rcases reapply_nary f (es.map reread) with ⟨-, -, heq⟩ | ⟨-, -, heq⟩ | heq
      · rw [heq, every_lit]
        exact ⟨rfl, by simp⟩
      · rw [heq, every_lit]
        exact ⟨rfl, by simp⟩
      · rw [heq, every_nary]
        refine ⟨⟨?_, by simp⟩, ?_⟩
        · cases f <;> exact hnode.1
        · intro e he
          obtain ⟨e, hmem, rfl⟩ := List.mem_map.mp he
          exact ih e hmem (hes e hmem)

/-- The literals that a formula is, its parts left aside, are read back. -/
def NodeReadable (p : Formula) : Prop := ∀ l, p = .lit l → l.Readable

theorem NodeReadable.balanced {p : Formula} (h : p.NodeReadable) (hz : p.nodeSized = true) :
    p.NodeBalanced := by
  refine ⟨hz, ?_⟩
  rintro rfl
  exact h _ rfl rfl

/-- A vocabulary has the names that a formula mentions itself, its parts left aside. -/
def NodeKnown (v : Vocabulary) (p : Formula) : Prop :=
  (∀ name s, p = .var name s →
    v.variableSorts[name]? = some s ∧ name ≠ "true" ∧ name ≠ "false") ∧
  (∀ r i a, p = .unary (.get r i) a → v.Knows r) ∧ ∀ r es, p = .nary (.make r) es → v.Knows r

/-- The sort of what is read. -/
theorem reread_sort {e : Formula} {s : SmtSort} (hs : e.HasSort s) (hz : e.Sized)
    (hr : e.Every NodeReadable) : e.reread.sort = .ok s ∧ s.isSized = true := by
  have hbalanced : e.Every NodeBalanced := fun p hp => (hr p hp).balanced (hz p hp)
  exact sort_sized (reread_hasSort hs) fun p hp => (reread_balanced hbalanced p hp).1

/-- **The expression of a formula is read back.** -/
theorem readTerm_sexpr {v : Vocabulary} {e : Formula} {s : SmtSort} (hs : e.HasSort s)
    (hz : e.Sized) (hr : e.Every NodeReadable) (hv : e.Every (NodeKnown v)) :
    readTerm v e.sexpr = .ok e.reread := by
  induction e generalizing s with
  | var name t =>
      obtain ⟨hname, htrue, hfalse⟩ := hv.self.1 name t rfl
      show readSymbol v name = _
      simp only [readSymbol, htrue, hfalse, if_false, hname]
      rfl
  | lit l => exact readTerm_literal hz.self (hr.self l rfl)
  | unary f a ih =>
      obtain ⟨t, ht, hf⟩ := hasSort_unary.mp hs
      obtain ⟨hnode, hza⟩ := every_unary.mp hz
      obtain ⟨-, hra⟩ := every_unary.mp hr
      obtain ⟨hknown, hva⟩ := every_unary.mp hv
      obtain ⟨hsort, hsized⟩ := reread_sort ht hza hra
      refine readTerm_unary (ih ht hza hra hva) hf hsort hsized ?_ fun r i hf => ?_
      · cases f <;> exact hnode
      · exact hknown.2.1 r i a (hf ▸ rfl)
  | binary f a b iha ihb =>
      obtain ⟨t, u, ht, hu, hf⟩ := hasSort_binary.mp hs
      obtain ⟨-, hza, hzb⟩ := every_binary.mp hz
      obtain ⟨-, hra, hrb⟩ := every_binary.mp hr
      obtain ⟨-, hva, hvb⟩ := every_binary.mp hv
      have hxs : readTerms v [a.sexpr, b.sexpr] = .ok [a.reread, b.reread] := by
        simp [readTerms, iha ht hza hra hva, ihb hu hzb hrb hvb]
      have hname : f.name t ≠ "_" := by
        have hnames : ∀ name ∈ binaryNames, name ≠ "_" := by decide
        exact hnames _ (f.name_mem t)
      have hsort : a.sort?.getD .bool = t := by rw [show a.sort? = some t from ht]; rfl
      rw [sexpr, hsort, readTerm_apply hname hxs, apply_binary]
      exact BinaryFunction.build_eq_ok hf (reread_sort ht hza hra).1 (reread_sort hu hzb hrb).1
  | ite c a b ihc iha ihb =>
      obtain ⟨hc, ha, hb⟩ := hasSort_ite.mp hs
      obtain ⟨-, hzc, hza, hzb⟩ := every_ite.mp hz
      obtain ⟨-, hrc, hra, hrb⟩ := every_ite.mp hr
      obtain ⟨-, hvc, hva, hvb⟩ := every_ite.mp hv
      have hxs : readTerms v [c.sexpr, a.sexpr, b.sexpr] = .ok [c.reread, a.reread, b.reread] := by
        simp [readTerms, ihc hc hzc hrc hvc, iha ha hza hra hva, ihb hb hzb hrb hvb]
      have hbool : Build.requireBool c.reread = .ok () :=
        Build.requireBool_eq_ok.mpr (reread_sort hc hzc hrc).1
      have hsame : Build.requireSame a.reread b.reread = .ok s :=
        Build.requireSame_eq_ok.mpr ⟨(reread_sort ha hza hra).1, (reread_sort hb hzb hrb).1⟩
      refine (readTerm_apply (by decide) hxs).trans ?_
      show Build.ite c.reread a.reread b.reread = _
      simp only [Build.ite, hbool, hsame]
      rfl
  | nary f es ih =>
      obtain ⟨ss, hss, hf⟩ := hasSort_nary.mp hs
      obtain ⟨-, hzes⟩ := every_nary.mp hz
      obtain ⟨-, hres⟩ := every_nary.mp hr
      obtain ⟨hknown, hves⟩ := every_nary.mp hv
      have hread : List.Forall₂ (fun x e => readTerm v x = .ok e) (sexprs es) (rereadAll es) := by
        rw [sexprs_eq, rereadAll_eq, List.forall₂_map_left_iff, List.forall₂_map_right_iff,
          List.forall₂_same]
        intro e he
        obtain ⟨t, -, ht⟩ := forall₂_exists_of_mem_left hss he
        exact ih e he ht (hzes e he) (hres e he) (hves e he)
      have hsorts : List.Forall₂ (fun e s => e.sort = .ok s) (rereadAll es) ss := by
        rw [rereadAll_eq, List.forall₂_map_left_iff]
        exact forall₂_imp_of_mem hss fun e he t ht => (reread_sort ht (hzes e he) (hres e he)).1
      exact readTerm_nary hread hf hsorts fun r hf => hknown.2.2 r es (hf ▸ rfl)

/-! ## Meaning -/

/-- A minus sign that is taken into a literal means the same. -/
theorem eval_negate {σ : Assignment} {a : Formula} (h : a.Every NodeBalanced) :
    a.negate.eval σ = (Formula.unary .neg a).eval σ := by
  rcases negate_cases a with ⟨i, rfl, heq⟩ | ⟨x, rfl, heq⟩ | heq
  · have hi : Word.inRange (-i) = true := by
      have hnegate := (negate_balanced h).self.1
      rwa [heq] at hnegate
    rw [heq]
    show pure (Formula.int (-i)) = intValue (-i)
    simp only [intValue, hi, if_true]
  · rw [heq]
    rfl
  · rw [heq]

mutual

/-- A formula with a quotient that has no value in the place of infinities and NaN. -/
def definite : Formula → Formula
  | .var name s => .var name s
  | .lit v => v.reread
  | .unary f a => .unary f a.definite
  | .binary f a b => .binary f a.definite b.definite
  | .ite c a b => .ite c.definite a.definite b.definite
  | .nary f es => .nary f (definiteAll es)

def definiteAll : List Formula → List Formula
  | [] => []
  | e :: es => e.definite :: definiteAll es

end

theorem definiteAll_eq (es : List Formula) : definiteAll es = es.map definite := by
  induction es with
  | nil => rfl
  | cons e es ih => rw [definiteAll, ih, List.map_cons]

/-- **What is read means what was written**, where infinities and NaN have no value. -/
theorem eval_reread {e : Formula} (h : e.Every NodeBalanced) (σ : Assignment) :
    e.reread.eval σ = e.definite.eval σ := by
  induction e with
  | var name t => rfl
  | lit v => rfl
  | unary f a ih =>
      obtain ⟨-, ha⟩ := every_unary.mp h
      have heval : (Formula.unary f a.reread).eval σ = (Formula.unary f a.definite).eval σ := by
        rw [eval, eval, ih ha]
      rw [reread, definite]
      rcases reapply_unary f a.reread with ⟨rfl, heq⟩ | heq
      · rw [heq, eval_negate (reread_balanced ha), heval]
      · rw [heq, heval]
  | binary f a b iha ihb =>
      obtain ⟨-, ha, hb⟩ := every_binary.mp h
      rw [reread, definite, eval, eval, iha ha, ihb hb]
  | ite c a b ihc iha ihb =>
      obtain ⟨-, hc, ha, hb⟩ := every_ite.mp h
      rw [reread, definite, eval, eval, ihc hc, iha ha, ihb hb]
  | nary f es ih =>
      obtain ⟨-, hes⟩ := every_nary.mp h
      have heval : evalAll σ (rereadAll es) = evalAll σ (definiteAll es) := by
        clear h
        induction es with
        | nil => rfl
        | cons e es ihes =>
            obtain ⟨ihe, ihrest⟩ := List.forall_mem_cons.mp ih
            obtain ⟨he, hrest⟩ := List.forall_mem_cons.mp hes
            rw [rereadAll, definiteAll, evalAll, evalAll, ihe he, ihes ihrest hrest]
      rw [reread, definite]
      rcases reapply_nary f (rereadAll es) with ⟨rfl, hnil, heq⟩ | ⟨rfl, hnil, heq⟩ | heq
      · obtain rfl : es = [] := by simpa [rereadAll_eq] using hnil
        rfl
      · obtain rfl : es = [] := by simpa [rereadAll_eq] using hnil
        rfl
      · rw [heq, eval, eval, heval]

theorem definite_refines (e : Formula) : e.definite.Refines e := by
  induction e with
  | var name t => exact Refines.refl _
  | lit v =>
      cases v with
      | real x =>
          simp only [definite, Literal.reread]
          split
          · exact Refines.refl _
          · intro σ v hv
            have hundefined : (Formula.binary (.arith .div) (.lit (.real 1.0))
                (.lit (.real 0.0))).eval σ = .error .undefined := rfl
            simp [hundefined] at hv
      | _ => exact Refines.refl _
  | unary f a ih => exact Refines.unary ih
  | binary f a b iha ihb => exact Refines.binary iha ihb
  | ite c a b ihc iha ihb => exact Refines.ite ihc iha ihb
  | nary f es ih =>
      refine Refines.nary ?_
      rw [definiteAll_eq, List.forall₂_map_left_iff, List.forall₂_same]
      exact ih

/-- A part that is no infinity and no NaN. -/
def NodeFinite (p : Formula) : Prop := ∀ x, p = .lit (.real x) → Double.isFinite x = true

theorem definite_eq_self {e : Formula} (h : e.Every NodeFinite) : e.definite = e := by
  induction e with
  | var name t => rfl
  | lit v =>
      cases v with
      | real x =>
          have hx := h.self x rfl
          simp only [definite, Literal.reread, hx, if_true]
      | _ => rfl
  | unary f a ih =>
      obtain ⟨-, ha⟩ := every_unary.mp h
      rw [definite, ih ha]
  | binary f a b iha ihb =>
      obtain ⟨-, ha, hb⟩ := every_binary.mp h
      rw [definite, iha ha, ihb hb]
  | ite c a b ihc iha ihb =>
      obtain ⟨-, hc, ha, hb⟩ := every_ite.mp h
      rw [definite, ihc hc, iha ha, ihb hb]
  | nary f es ih =>
      obtain ⟨-, hes⟩ := every_nary.mp h
      have hall : es.map definite = es :=
        (List.map_congr_left fun e he => ih e he (hes e he)).trans (List.map_id es)
      rw [definite, definiteAll_eq, hall]

/-! ## Formulas that stay as they are -/

/-- A part whose spelling is the one that is read: it is no conjunction or disjunction of nothing,
no minus sign in front of a literal, not the least integer, and no infinity, NaN or `-0`. -/
def NodeCanonical : Formula → Prop
  | .nary .and [] | .nary .or [] => False
  | .unary .neg (.lit _) => False
  | .lit (.int i) => i ≠ Word.minInt
  | .lit (.real x) => Double.isFinite x = true ∧ Double.normal x = x
  | _ => True

/-- Canonical literals are read back where doubles are. -/
theorem NodeCanonical.readable {p : Formula} (h : p.NodeCanonical)
    (hdisplay : ∀ x, p = .lit (.real x) → Decimal.read? (Decimal.exact x.abs) = some x.abs) :
    p.NodeReadable := by
  rintro (b | ⟨value, width⟩ | i | x | s) rfl
  case int => exact h
  case real => exact ⟨h.2, fun _ => hdisplay x rfl⟩
  all_goals exact trivial

theorem reread_eq_self {e : Formula} (h : e.Every NodeCanonical) : e.reread = e := by
  induction e with
  | var name t => rfl
  | lit v =>
      cases v with
      | real x =>
          have hx : Double.isFinite x = true := h.self.1
          simp only [reread, Literal.reread, hx, if_true]
      | _ => rfl
  | unary f a ih =>
      obtain ⟨hnode, ha⟩ := every_unary.mp h
      rw [reread, ih ha]
      rcases reapply_unary f a with ⟨rfl, heq⟩ | heq
      · rw [heq]
        rcases negate_cases a with ⟨i, rfl, -⟩ | ⟨x, rfl, -⟩ | heq
        · exact hnode.elim
        · exact hnode.elim
        · exact heq
      · exact heq
  | binary f a b iha ihb =>
      obtain ⟨-, ha, hb⟩ := every_binary.mp h
      rw [reread, iha ha, ihb hb]
  | ite c a b ihc iha ihb =>
      obtain ⟨-, hc, ha, hb⟩ := every_ite.mp h
      rw [reread, ihc hc, iha ha, ihb hb]
  | nary f es ih =>
      obtain ⟨hnode, hes⟩ := every_nary.mp h
      have hall : rereadAll es = es := by
        rw [rereadAll_eq]
        exact List.map_congr_left (fun e he => ih e he (hes e he)) |>.trans (List.map_id es)
      rw [reread, hall]
      rcases reapply_nary f es with ⟨rfl, rfl, -⟩ | ⟨rfl, rfl, -⟩ | heq
      · exact hnode.elim
      · exact hnode.elim
      · exact heq

end Formula

end PlayerPaths
