import PlayerPaths.Formula.Simplify
import PlayerPaths.Proofs.Computation
import PlayerPaths.Solve.Candidates
import PlayerPaths.Solve.Cubes

/-!
# The structure of formulas

`Formula.ind` is induction over formulas with one hypothesis for all operands of a connective. The
functions that come in pairs, one for a formula and one for a list of them, are traversals: each
list version is a `flatMap`, or relates the list to its results elementwise.
-/

namespace PlayerPaths.Formula

/-- Induction over formulas. -/
@[elab_as_elim, induction_eliminator]
theorem ind {motive : Formula → Prop}
    (var : ∀ name s, motive (.var name s))
    (lit : ∀ v, motive (.lit v))
    (unary : ∀ f a, motive a → motive (.unary f a))
    (binary : ∀ f a b, motive a → motive b → motive (.binary f a b))
    (ite : ∀ c a b, motive c → motive a → motive b → motive (.ite c a b))
    (nary : ∀ f es, (∀ e ∈ es, motive e) → motive (.nary f es)) (e : Formula) : motive e :=
  @Formula.rec motive (fun es => ∀ e ∈ es, motive e) var lit unary binary ite nary
    (by simp) (fun _ _ he hes => List.forall_mem_cons.mpr ⟨he, hes⟩) e

/-- Induction over formulas, with the records apart from the conjunctions and disjunctions. -/
@[elab_as_elim]
theorem ind_connective {motive : Formula → Prop}
    (var : ∀ name s, motive (.var name s))
    (lit : ∀ v, motive (.lit v))
    (unary : ∀ f a, motive a → motive (.unary f a))
    (binary : ∀ f a b, motive a → motive b → motive (.binary f a b))
    (ite : ∀ c a b, motive c → motive a → motive b → motive (.ite c a b))
    (make : ∀ r es, (∀ e ∈ es, motive e) → motive (.nary (.make r) es))
    (connective : ∀ f es, f = .and ∨ f = .or → (∀ e ∈ es, motive e) → motive (.nary f es))
    (e : Formula) : motive e := by
  induction e with
  | var name s => exact var name s
  | lit v => exact lit v
  | unary f a ih => exact unary f a ih
  | binary f a b iha ihb => exact binary f a b iha ihb
  | ite c a b ihc iha ihb => exact ite c a b ihc iha ihb
  | nary f es ih =>
      cases f with
      | and => exact connective .and es (.inl rfl) ih
      | or => exact connective .or es (.inr rfl) ih
      | make r => exact make r es ih

/-! ## Traversals -/

theorem partsAll_eq (es : List Formula) : partsAll es = es.flatMap parts := by
  induction es with
  | nil => rfl
  | cons e es ih => simp [partsAll, ih]

theorem membersAll_eq (f : NaryFunction) (es : List Formula) :
    membersAll f es = es.flatMap (members f) := by
  induction es with
  | nil => rfl
  | cons e es ih => simp [membersAll, ih]

theorem leavesAll_eq (es : List Formula) : leavesAll es = es.flatMap leaves := by
  induction es with
  | nil => rfl
  | cons e es ih => simp [leavesAll, ih]

theorem constantsAll_eq (es : List Formula) : constantsAll es = es.flatMap constants := by
  induction es with
  | nil => rfl
  | cons e es ih => simp [constantsAll, ih]

theorem areConstant_iff {es : List Formula} :
    areConstant es = true ↔ ∀ e ∈ es, e.isConstant = true := by
  induction es with
  | nil => simp [areConstant]
  | cons e es ih => simp [areConstant, ih]

theorem evalAll_eq (env : Assignment) (es : List Formula) :
    evalAll env es = es.mapM (eval env) := by
  induction es with
  | nil => rfl
  | cons e es ih => simp [evalAll, ih]

theorem simplifyAll_eq (es : List Formula) : simplifyAll es = es.mapM simplify := by
  induction es with
  | nil => rfl
  | cons e es ih => simp [simplifyAll, ih]

theorem nnfAll_eq (negated : Bool) (es : List Formula) :
    nnfAll negated es = es.mapM (nnf negated) := by
  induction es with
  | nil => rfl
  | cons e es ih => simp [nnfAll, ih]

/-! ## Parts -/

section

attribute [local simp] parts

@[simp] theorem mem_parts_self (e : Formula) : e ∈ e.parts := by
  cases e <;> simp

@[simp] theorem mem_parts_var {p : Formula} {name : String} {s : SmtSort} :
    p ∈ (Formula.var name s).parts ↔ p = .var name s := by simp

@[simp] theorem mem_parts_lit {p : Formula} {v : Literal} :
    p ∈ (Formula.lit v).parts ↔ p = .lit v := by simp

@[simp] theorem mem_parts_unary {p a : Formula} {f : UnaryFunction} :
    p ∈ (Formula.unary f a).parts ↔ p = .unary f a ∨ p ∈ a.parts := by simp

@[simp] theorem mem_parts_binary {p a b : Formula} {f : BinaryFunction} :
    p ∈ (Formula.binary f a b).parts ↔ p = .binary f a b ∨ p ∈ a.parts ∨ p ∈ b.parts := by
  simp

@[simp] theorem mem_parts_ite {p c a b : Formula} :
    p ∈ (Formula.ite c a b).parts ↔
      p = .ite c a b ∨ p ∈ c.parts ∨ p ∈ a.parts ∨ p ∈ b.parts := by
  simp

@[simp] theorem mem_parts_nary {p : Formula} {f : NaryFunction} {es : List Formula} :
    p ∈ (Formula.nary f es).parts ↔ p = .nary f es ∨ ∃ e ∈ es, p ∈ e.parts := by
  simp [partsAll_eq]

end

/-- The operands of an operation are parts of it. -/
theorem mem_parts_operand {f : NaryFunction} {es : List Formula} {e : Formula} (he : e ∈ es) :
    e ∈ (Formula.nary f es).parts :=
  mem_parts_nary.mpr (.inr ⟨e, he, mem_parts_self e⟩)

/-- A part of a part is a part. -/
theorem mem_parts_trans {p q e : Formula} (hq : q ∈ p.parts) (hp : p ∈ e.parts) : q ∈ e.parts := by
  induction e with
  | var name s => simp_all
  | lit v => simp_all
  | unary f a ih => grind [mem_parts_unary]
  | binary f a b iha ihb => grind [mem_parts_binary]
  | ite c a b ihc iha ihb => grind [mem_parts_ite]
  | nary f es ih =>
      rcases mem_parts_nary.mp hp with rfl | ⟨e, he, hp⟩
      · exact hq
      · exact mem_parts_nary.mpr (.inr ⟨e, he, ih e he hp⟩)

/-- Every part satisfies a predicate. -/
def Every (P : Formula → Prop) (e : Formula) : Prop := ∀ p ∈ e.parts, P p

instance (P : Formula → Prop) [DecidablePred P] (e : Formula) : Decidable (e.Every P) :=
  inferInstanceAs (Decidable (∀ p ∈ e.parts, P p))

theorem Every.self {P : Formula → Prop} {e : Formula} (h : e.Every P) : P e :=
  h e (mem_parts_self e)

theorem Every.part {P : Formula → Prop} {e p : Formula} (h : e.Every P) (hp : p ∈ e.parts) :
    p.Every P :=
  fun _ hq => h _ (mem_parts_trans hq hp)

section

variable {P : Formula → Prop}

@[simp] theorem every_var {name : String} {s : SmtSort} :
    (Formula.var name s).Every P ↔ P (.var name s) := by simp [Every]

@[simp] theorem every_lit {v : Literal} : (Formula.lit v).Every P ↔ P (.lit v) := by simp [Every]

@[simp] theorem every_unary {f : UnaryFunction} {a : Formula} :
    (Formula.unary f a).Every P ↔ P (.unary f a) ∧ a.Every P := by
  simp only [Every, mem_parts_unary]
  grind

@[simp] theorem every_binary {f : BinaryFunction} {a b : Formula} :
    (Formula.binary f a b).Every P ↔ P (.binary f a b) ∧ a.Every P ∧ b.Every P := by
  simp only [Every, mem_parts_binary]
  grind

@[simp] theorem every_ite {c a b : Formula} :
    (Formula.ite c a b).Every P ↔ P (.ite c a b) ∧ c.Every P ∧ a.Every P ∧ b.Every P := by
  simp only [Every, mem_parts_ite]
  grind

@[simp] theorem every_nary {f : NaryFunction} {es : List Formula} :
    (Formula.nary f es).Every P ↔ P (.nary f es) ∧ ∀ e ∈ es, e.Every P := by
  simp only [Every, mem_parts_nary]
  grind

end

/-! ## Constants -/

@[simp] theorem isConstant_lit (v : Literal) : (Formula.lit v).isConstant = true := rfl

@[simp] theorem isConstant_make {r : Record} {es : List Formula} :
    (Formula.nary (.make r) es).isConstant = true ↔ ∀ e ∈ es, e.isConstant = true := by
  simp [isConstant, areConstant_iff]

/-- A constant is a literal, or a record of constants. -/
theorem isConstant_cases {e : Formula} (h : e.isConstant = true) :
    (∃ v, e = .lit v) ∨ ∃ r es, e = .nary (.make r) es ∧ ∀ a ∈ es, a.isConstant = true := by
  cases e with
  | lit v => exact .inl ⟨v, rfl⟩
  | nary f es =>
      cases f with
      | make r => exact .inr ⟨r, es, rfl, isConstant_make.mp h⟩
      | and => simp [isConstant] at h
      | or => simp [isConstant] at h
  | var name s => simp [isConstant] at h
  | unary f a => simp [isConstant] at h
  | binary f a b => simp [isConstant] at h
  | ite c a b => simp [isConstant] at h

end PlayerPaths.Formula
