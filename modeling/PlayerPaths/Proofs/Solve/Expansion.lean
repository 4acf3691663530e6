import PlayerPaths.Proofs.Formula.Values
import PlayerPaths.Proofs.Number.Nearest
import PlayerPaths.Proofs.Solve.Cubes

/-!
# The expansion into cubes

The cubes of a truth value stand for it: where it is true, all literals of some cube are, and where
all literals of a cube are, it is not false (`cubes_represent`). Nothing more can be said, since
evaluation is strict: a disjunction with a true member and one without a value has no value, and
the cube of the true member does not mention the other one. Numbers must be integers: NaN is neither
below another number nor at least as large, and no integer has NaN for its double.
-/

namespace PlayerPaths.Formula

variable {σ : Assignment}

/-! ## Comparisons of integers -/

/-- No part is a real number. -/
def WithoutReals (e : Formula) : Prop := e.Every fun p => ¬ p.HasSort .real

instance (e : Formula) : Decidable e.WithoutReals :=
  inferInstanceAs (Decidable (∀ p ∈ e.parts, ¬ p.HasSort .real))

/-- The value of an integer is one. -/
theorem eval_int {e v : Formula} (hs : e.HasSort .int) (hσ : Respects σ e.occurrences)
    (h : e.eval σ = .ok v) : ∃ i, v = .int i := by
  obtain ⟨hconstant, hsort⟩ := eval_respects hs hσ h
  exact constant_int hconstant hsort

theorem Respects.part {e p : Formula} (h : Respects σ e.occurrences) (hp : p ∈ e.parts) :
    Respects σ p.occurrences :=
  fun name s v hvar => h name s v <|
    mem_occurrences.mpr (mem_parts_trans (mem_occurrences.mp hvar) hp)

/-- Of two integers, one is below the other one or at least as large. -/
theorem negatesExactly_of_withoutReals {e : Formula} {s : SmtSort} (hs : e.HasSort s)
    (hreal : e.WithoutReals) (hσ : Respects σ e.occurrences) : NegatesExactly σ e := by
  intro c a b hp hfalse
  obtain ⟨u, hu⟩ := hs.part hp
  obtain ⟨t, t', ha, hb, hf⟩ := hasSort_binary.mp hu
  obtain ⟨ht, heq, -⟩ := result?_compareArith.mp hf
  have hap : a ∈ e.parts := mem_parts_trans (by simp) hp
  have hbp : b ∈ e.parts := mem_parts_trans (by simp) hp
  obtain rfl : t = .int := ht.resolve_right fun h => hreal a hap (h ▸ ha)
  obtain rfl := heq
  obtain ⟨x, y, hx, hy, hv⟩ := eval_binary_eq_ok.mp hfalse
  obtain ⟨i, rfl⟩ := eval_int ha (hσ.part hap) hx
  obtain ⟨j, rfl⟩ := eval_int hb (hσ.part hbp) hy
  have hholds : c.holds (Double.ofInt i) (Double.ofInt j) = false := by
    simpa [BinaryFunction.apply, number?] using hv
  have hcontrary := ArithComparison.negate_holds (Double.ofInt_le_self i)
    (Double.ofInt_le_self j) hholds
  exact eval_binary_eq_ok.mpr ⟨_, _, hx, hy,
    apply_compareArith_eq_ok.mpr ⟨_, _, rfl, rfl, by rw [hcontrary]⟩⟩

/-! ## Normal forms of truth values -/

/-- The sort of a truth value is found. -/
theorem sort_of_hasSort_bool {e : Formula} (hs : e.HasSort .bool) : e.sort = .ok .bool := by
  induction e with
  | var name t =>
      obtain rfl := hasSort_var.mp hs
      rfl
  | lit v =>
      have := hasSort_lit.mp hs
      simp [sort, this]
  | unary f a ih =>
      obtain ⟨t, -, hf⟩ := hasSort_unary.mp hs
      cases f <;> simp_all [sort]
  | binary f a b iha ihb =>
      obtain ⟨t, u, -, -, hf⟩ := hasSort_binary.mp hs
      cases f <;> simp_all [sort]
  | ite c a b ihc iha ihb => simpa [sort] using iha (hasSort_ite.mp hs).2.1
  | nary f es ih =>
      cases f with
      | make r => simp [Record.sort] at hs
      | _ => rfl

/-- **Every truth value has a negation normal form.** -/
theorem exists_nnf {e : Formula} (hs : e.HasSort .bool) (negated : Bool) :
    ∃ e', e.nnf negated = .ok e' := by
  have atom : ∀ {e : Formula} {negated : Bool}, e.isAtom = true →
      ∃ e', e.nnf negated = .ok e' := by
    intro e negated ha
    by_cases hb : ∃ b, e = .bool b
    · obtain ⟨b, rfl⟩ := hb
      exact ⟨_, rfl⟩
    · exact ⟨_, nnf_atom ha (fun b heq => hb ⟨b, heq⟩) negated⟩
  induction e using ind_connective generalizing negated with
  | unary f a ih =>
      cases f with
      | not => exact ih (hasSort_not.mp hs).2 (!negated)
      | _ => exact atom rfl
  | ite c a b ihc iha ihb =>
      obtain ⟨hc, ha, hb⟩ := hasSort_ite.mp hs
      obtain ⟨c₁, hc₁⟩ := ihc hc negated
      obtain ⟨c₂, hc₂⟩ := ihc hc (!negated)
      obtain ⟨a', ha'⟩ := iha ha negated
      obtain ⟨b', hb'⟩ := ihb hb negated
      exact ⟨_, by simp [nnf, sort_of_hasSort_bool ha, SmtSort.isBool, hc₁, hc₂, ha', hb']; rfl⟩
  | connective f es hf ih =>
      have hes := ((hasSort_junction hf).mp hs).2
      obtain ⟨es', hes'⟩ := exists_mapM_ok fun e he => ih e he (hes e he) negated
      exact ⟨_, (nnf_junction_eq_ok hf).mpr ⟨es', mapM_eq_ok.mp hes', rfl⟩⟩
  | _ => exact atom rfl

/-! ## The number of cubes -/

theorem length_product (cubes others : List (List Formula)) :
    (product cubes others).length = cubes.length * others.length := by
  simp [product, List.length_flatMap]

mutual

/-- **The limit is kept**, if it admits one cube. A literal has one, however low the limit is. -/
theorem length_cubes? {limit : Nat} (hlimit : 1 ≤ limit) :
    ∀ {e : Formula} {cubes : List (List Formula)},
    e.cubes? limit = some cubes → cubes.length ≤ limit
  | .nary .and es, cubes, h => length_conjunctionCubes? hlimit es [[]] (by simpa) h
  | .nary .or es, cubes, h => length_disjunctionCubes? hlimit es [] (by simp) h
  | .lit (.bool true), cubes, h => by
    obtain rfl : [[]] = cubes := by simpa [cubes?] using h
    simpa
  | .lit (.bool false), cubes, h => by
    obtain rfl : [] = cubes := by simpa [cubes?] using h
    simp
  | .var .., cubes, h | .unary .., cubes, h | .binary .., cubes, h | .ite .., cubes, h
  | .nary (.make _) _, cubes, h | .lit (.bits ..), cubes, h | .lit (.int _), cubes, h
  | .lit (.real _), cubes, h | .lit (.str _), cubes, h => by
    obtain rfl := Option.some.inj h
    simpa

theorem length_conjunctionCubes? {limit : Nat} (hlimit : 1 ≤ limit) :
    ∀ (es : List Formula) (acc : List (List Formula)) {cubes : List (List Formula)},
    acc.length ≤ limit → conjunctionCubes? limit acc es = some cubes → cubes.length ≤ limit
  | [], acc, cubes, hacc, h => by
    obtain rfl := Option.some.inj h
    exact hacc
  | e :: es, acc, cubes, hacc, h => by
    obtain ⟨others, -, hle, h⟩ := conjunctionCubes?_cons.mp h
    refine length_conjunctionCubes? hlimit es _ ?_ h
    rw [length_product]
    exact hle

theorem length_disjunctionCubes? {limit : Nat} (hlimit : 1 ≤ limit) :
    ∀ (es : List Formula) (acc : List (List Formula)) {cubes : List (List Formula)},
    acc.length ≤ limit → disjunctionCubes? limit acc es = some cubes → cubes.length ≤ limit
  | [], acc, cubes, hacc, h => by
    obtain rfl := Option.some.inj h
    exact hacc
  | e :: es, acc, cubes, hacc, h => by
    obtain ⟨others, -, hle, h⟩ := disjunctionCubes?_cons.mp h
    exact length_disjunctionCubes? hlimit es _ hle h

end

/-! ## What cubes say -/

/-- All literals evaluate to true. -/
def CubeHolds (σ : Assignment) (cube : List Formula) : Prop :=
  ∀ l ∈ cube, l.eval σ = .ok (.bool true)

/-- The literals of cubes have no members to decide them: they are true if they evaluate to it. -/
theorem allTrue_iff_cubeHolds {limit : Nat} {e normal : Formula} {cubes : List (List Formula)}
    (hs : e.HasSort .bool) (hnnf : e.nnf false = .ok normal)
    (hcubes : normal.cubes? limit = some cubes) {cube : List Formula} (hcube : cube ∈ cubes) :
    AllTrue σ cube ↔ CubeHolds σ cube := by
  refine forall₂_congr fun l hl => ⟨fun h => ?_, truth_of_eval⟩
  have hliteral := mem_literals_of_cubes? hcubes cube hcube l hl
  obtain ⟨-, -, hatom⟩ := nnf_literals_of_hasSort (P := fun _ => True) (fun _ _ => trivial)
    (fun _ _ => trivial) hs trivial hnnf l hliteral
  exact hatom.eval h

/-- **Cubes represent formulas.** A truth value without reals has a negation normal form. If that
has cubes within a limit, then some cube holds where the formula is true, the formula is not false
where some cube holds, and, unless the limit is zero, there are no more cubes than it admits. -/
theorem cubes_represent {e : Formula} (hs : e.HasSort .bool) (hreal : e.WithoutReals) :
    ∃ normal, e.nnf false = .ok normal ∧
      ∀ limit cubes, normal.cubes? limit = some cubes →
        (∀ σ, Respects σ e.occurrences → e.eval σ = .ok (.bool true) →
          ∃ cube ∈ cubes, CubeHolds σ cube) ∧
        (∀ σ, (∃ cube ∈ cubes, CubeHolds σ cube) → e.eval σ ≠ .ok (.bool false)) ∧
        (1 ≤ limit → cubes.length ≤ limit) := by
  obtain ⟨normal, hnnf⟩ := exists_nnf hs false
  refine ⟨normal, hnnf, fun limit cubes hcubes =>
    ⟨fun σ hσ htrue => ?_, fun σ ⟨cube, hcube, hholds⟩ hfalse => ?_,
      fun hlimit => length_cubes? hlimit hcubes⟩⟩
  · have hnormal := nnf_of_eval hnnf (negatesExactly_of_withoutReals hs hreal hσ) htrue
    obtain ⟨cube, hcube, hall⟩ := (truth_cubes? hcubes).mp hnormal
    exact ⟨cube, hcube, (allTrue_iff_cubeHolds hs hnnf hcubes hcube).mp hall⟩
  · have hall := (allTrue_iff_cubeHolds hs hnnf hcubes hcube).mpr hholds
    have htrue := truth_of_nnf hnnf ((truth_cubes? hcubes).mpr ⟨cube, hcube, hall⟩)
    simp [truth_of_eval hfalse] at htrue

/-- A choice between an order of two integers and its contrary. -/
def orderChoice : Formula :=
  let below := .binary (.compareArith .lt) (.var "x" .int) (.var "y" .int)
  .ite (.var "up" .bool) below (.not below)

/-- The second of two integers is less. -/
def falling : Assignment
  | "up" => some (.bool false)
  | "x" => some (.int 2)
  | "y" => some (.int 1)
  | _ => none

theorem orderChoice_represented :
    let up : Formula := .var "up" .bool
    let order := fun c : ArithComparison =>
      Formula.binary (.compareArith c) (.var "x" .int) (.var "y" .int)
    let cubes := [[up, order .lt], [.not up, order .ge]]
    (∃ cube ∈ cubes, CubeHolds falling cube) ∧
      orderChoice.eval falling ≠ .ok (.bool false) ∧ cubes.length ≤ 2 := by
  intro up order cubes
  obtain ⟨normal, hnnf, h⟩ := cubes_represent (e := orderChoice) (by decide) (by decide)
  have hnormal : orderChoice.nnf false =
      .ok (.or [.and [up, order .lt], .and [.not up, order .ge]]) := rfl
  obtain rfl := Except.ok.inj (hnormal.symm.trans hnnf)
  obtain ⟨hsome, hnot, hlength⟩ := h 2 cubes (by decide)
  have hσ : Assigns falling orderChoice.occurrences := by decide
  have htrue : orderChoice.eval falling = .ok (.bool true) := by decide +kernel
  have hcube := hsome falling hσ.respects htrue
  exact ⟨hcube, hnot falling hcube, hlength (by decide)⟩

end PlayerPaths.Formula
