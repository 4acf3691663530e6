import PlayerPaths.Proofs.Formula.Overflow
import PlayerPaths.Proofs.SmtLib.Totality
import PlayerPaths.Proofs.Solve.Soundness

/-!
# Deciding ends, and where it overflows

The solver looks at sorts, lists candidates and evaluates literals. Sorts and candidates of formulas
in range are always there, and the models that it evaluates literals in give every variable a value
of its sort (`compose_fits`), so what is left is the one fault of evaluation
(`Formula.eval_outcome`): the quotient of the least integer by `-1`. The functions of the solver
follow, from the candidates for a leaf to the assertions of a script (`deciding_outcome`).
-/

namespace PlayerPaths

open Formula
open SmtLib (exists_readScript)

variable {vars : List (String × SmtSort)} {E : Error → Prop}

/-! ## Literals -/

/-- A conjunction of formulas of any sorts overflows only where one of them does. -/
theorem Formula.Conjoined.eval_outcome {σ : Assignment} {e : Formula} (h : e.Conjoined)
    (hr : e.InRange) (hσ : Assigns σ vars) (hvars : e.Every (varIn vars)) :
    Meets (e.FailsAt σ) (fun _ => True) (e.eval σ) := by
  induction e with
  | nary f es ih =>
      rcases h.self with ⟨s, hs⟩ | ⟨es', heq⟩
      · exact (Formula.eval_outcome hs hr hσ hvars).imp fun _ _ => trivial
      · cases heq
        rw [eval]
        refine (evalAll_outcome fun e he => ?_).bind fun vs _ =>
          (apply_junction_outcome (.inl rfl) vs).weaken fun _ h => .inl h
        exact (ih e he ((every_nary.mp h).2 e he) ((every_nary.mp hr).2 e he)
          ((every_nary.mp hvars).2 e he)).weaken
          fun _ h => h.of_part (mem_parts_operand he)
  | _ =>
      obtain ⟨s, hs⟩ := h.self.resolve_right (by simp)
      exact (Formula.eval_outcome hs hr hσ hvars).imp fun _ _ => trivial

/-- How deciding literals may fail: one of them overflows for some values of the variables. -/
def FailsOn (vars : List (String × SmtSort)) (literals : List Formula) (err : Error) : Prop :=
  err = .fault .overflow ∧ ∃ σ, Assigns σ vars ∧ ∃ l ∈ literals, l.OverflowsAt σ

theorem FailsOn.subset {literals literals' : List Formula} {err : Error}
    (h : FailsOn vars literals err) (hsub : ∀ l ∈ literals, l ∈ literals') :
    FailsOn vars literals' err := by
  obtain ⟨rfl, σ, hσ, l, hl, hoverflow⟩ := h
  exact ⟨rfl, σ, hσ, l, hsub l hl, hoverflow⟩

theorem Searchable.value?_outcome {m : Model} {e : Formula} (h : Searchable vars e)
    (hm : m.Fits vars) :
    Meets (fun err => err = .fault .overflow ∧ e.OverflowsAt m.assignment) (fun _ => True)
      (m.eval e).value? := by
  have hvars : e.Every (varIn vars) := fun p hp name s heq => h.occurs name s (heq ▸ hp)
  have heval : Meets (e.FailsAt m.assignment) (fun _ => True) (m.eval e) :=
    h.conjoined.eval_outcome h.inRange hm hvars
  unfold Evaluation.value?
  split
  · exact trivial
  · exact trivial
  · next reason hfault =>
    rcases heval.error hfault with heq | ⟨heq, hoverflow⟩
    · cases heq
    · cases heq
      exact ⟨rfl, hoverflow⟩

/-- Literals are evaluated in a model that fits the variables. -/
theorem allHold_outcome {literals : List Formula} {m : Model}
    (hliterals : ∀ l ∈ literals, Searchable vars l) (hm : m.Fits vars) :
    Meets (FailsOn vars literals) (fun _ => True) (allHold literals m) := by
  have hvalues : ∀ l ∈ literals, Meets (FailsOn vars literals) (fun _ => True)
      (m.eval l).value? := by
    intro l hl
    refine ((hliterals l hl).value?_outcome hm).weaken ?_
    rintro err ⟨rfl, hoverflow⟩
    exact ⟨rfl, m.assignment, hm, l, hl, hoverflow⟩
  clear hliterals
  generalize FailsOn vars literals = E at hvalues
  induction literals with
  | nil => exact trivial
  | cons l literals ih =>
      obtain ⟨hl, hrest⟩ := List.forall_mem_cons.mp hvalues
      rw [allHold]
      refine hl.bind fun found _ => ?_
      split
      · exact ih hrest
      · exact trivial
      · exact (ih hrest).bind fun _ _ => trivial

/-! ## Leaves -/

theorem exists_sort_of_isLeaf {leaf : Formula} (h : leaf.isLeaf = true) :
    ∃ t, leaf.sort = .ok t := by
  cases leaf with
  | var name s => exact ⟨s, rfl⟩
  | unary f e =>
      cases f with
      | get r i => exact ⟨_, rfl⟩
      | _ => cases h
  | _ => cases h

theorem LeafOf.sort_outcome {leaf : Formula} {t : SmtSort} (h : LeafOf vars leaf t) :
    Meets E (· = t) leaf.sort := by
  obtain ⟨u, hu⟩ := exists_sort_of_isLeaf h.isLeaf
  rw [hu]
  exact sort_agrees h.hasSort hu

theorem simpleLeaf?_outcome (literal : Formula) :
    Meets E (fun _ => True) (simpleLeaf? literal) := by
  simp only [simpleLeaf?]
  split
  · exact trivial
  · next found hfound =>
    have hleaf : found.isLeaf = true := by
      split at hfound
      · exact (comparedLeaf?_eq_some hfound).1
      · split at hfound <;> simp_all
      · exact (comparedLeaf?_eq_some hfound).1
      · exact (comparedLeaf?_eq_some hfound).1
      · exact (comparedLeaf?_eq_some hfound).1
      · split at hfound <;> simp_all
    obtain ⟨t, ht⟩ := exists_sort_of_isLeaf hleaf
    rw [ht]
    cases t <;> exact trivial

/-- Every cube has a plan. -/
theorem ofCube_outcome (cube : List Formula) :
    Meets E (fun plan => plan.For cube) (CubePlan.ofCube cube) := by
  refine Meets.and_value (P := fun _ => True) ?_ fun plan hplan => ofCube_spec hplan
  have hfold : Meets E (fun _ => True) (cube.foldlM distribute ([], [])) := by
    refine Meets.foldlM trivial fun state _ l _ => ?_
    refine (simpleLeaf?_outcome l).bind fun found _ => ?_
    cases found <;> exact trivial
  exact hfold.bind fun _ _ => .pure trivial

/-- There are candidates for every leaf in range, and they are values of its sort. -/
theorem candidates_outcome {s : SmtSort} {constants : List Formula} (hs : s.inRange = true)
    (hconstants : ∀ c ∈ constants, ∃ t, c.IsValue t) :
    Meets E (fun values => ∀ v ∈ values, v.IsValue s) (candidates s constants) := by
  refine Meets.and_value (P := fun _ => True) ?_ fun values hvalues =>
    candidates_isValue hs hconstants hvalues
  cases s with
  | bitVec width =>
      have hwidth : ¬ 64 < width := Nat.not_lt.mpr (SmtSort.inRange_bitVec.mp hs).2
      simp only [candidates, bitCandidates, if_neg hwidth]
      exact trivial
  | record name fields =>
      have hkept : Meets E (fun _ => True) (constants.filterM fun e =>
          return (← e.sort) = SmtSort.record name fields) := by
        refine (Meets.filterM fun c hc => ?_).imp fun _ _ => trivial
        obtain ⟨t, ht⟩ := hconstants c hc
        rw [(sort_sized ht.hasSort ht.inRange.sized).1]
        exact trivial
      have hlisted : Meets E (fun _ => True) (recordCandidates (.record name fields) constants) :=
        hkept.bind fun _ _ => .pure trivial
      exact hlisted.bind fun _ _ => .pure trivial
  | _ => exact trivial

/-! ## Cubes -/

section

variable (hvars : Functional vars) (hrange : ∀ v ∈ vars, v.2.inRange = true)

include hvars hrange

theorem decideLeaf?_outcome {leaf : Formula} {t : SmtSort} {literals : List Formula}
    (hleaf : LeafOf vars leaf t) (ht : t.inRange = true)
    (hliterals : ∀ l ∈ literals, Searchable vars l) :
    Meets (FailsOn vars literals) (fun _ => True) (decideLeaf? vars leaf literals) := by
  have hconstants := Searchable.constantsAll_isValue hliterals
  unfold decideLeaf?
  refine hleaf.sort_outcome.bind fun u hu => ?_
  subst hu
  refine (candidates_outcome ht hconstants).bind fun values hvalues => ?_
  refine (Meets.findM? fun v hv => ?_).imp fun _ _ => trivial
  have hwritable : Writable vars [(leaf, v)] := by
    simpa [Writable] using ⟨u, hleaf, hvalues v hv⟩
  exact allHold_outcome hliterals (compose_fits hvars hrange hwritable)

omit hvars hrange in
theorem decideLeaves?_outcome {groups : List (Formula × List Formula)}
    (h : ∀ g ∈ groups, Meets E (fun _ => True) (decideLeaf? vars g.1 g.2)) :
    Meets E (fun _ => True) (decideLeaves? vars groups) := by
  induction groups with
  | nil => exact trivial
  | cons g groups ih =>
      obtain ⟨leaf, literals⟩ := g
      obtain ⟨hg, hrest⟩ := List.forall_mem_cons.mp h
      rw [decideLeaves?]
      refine hg.bind fun found _ => ?_
      cases found with
      | none => exact trivial
      | some value =>
          refine (ih hrest).bind fun values _ => ?_
          cases values <;> exact trivial

omit hvars hrange in
/-- A search evaluates the literals in models composed of candidates. -/
theorem search_outcome {fixed : LeafValues} {options : List (Formula × List Formula)}
    {searched : List Formula} {attempts : Nat} {positions : List Nat}
    (h : ∀ chosen : LeafValues,
      (∀ entry ∈ chosen, ∃ values, (entry.1, values) ∈ options ∧ entry.2 ∈ values) →
      Meets E (fun _ => True)
        (allHold searched (compose vars (sortLeafValues (fixed ++ chosen))))) :
    Meets E (fun _ => True) (search vars fixed options searched attempts positions) := by
  induction attempts generalizing positions with
  | zero => exact trivial
  | succ attempts ih =>
      rw [search]
      refine (h _ fun entry hentry => mem_options_of_chosen hentry).bind fun hold _ => ?_
      cases hold with
      | true => exact trivial
      | false =>
          simp only [Bool.false_eq_true, ↓reduceIte]
          split
          · exact ih
          · exact trivial

/-- A cube is decided, or one of its literals overflows. -/
theorem checkCube_outcome {b : Bounds} {cube : List Formula}
    (hcube : ∀ l ∈ cube, Searchable vars l) :
    Meets (FailsOn vars cube) (fun _ => True) (b.checkCube vars cube) := by
  unfold Bounds.checkCube
  refine (ofCube_outcome cube).bind fun plan hplan => ?_
  have hdecided : Meets (FailsOn vars cube) (fun _ => True) (decideLeaves? vars plan.exact) := by
    refine decideLeaves?_outcome fun g hg => ?_
    obtain ⟨t, ht, htrange, -⟩ := hplan.exists_leafOf hcube hg
    have habout : ∀ l ∈ g.2, l ∈ cube := fun l hl => (hplan.about g hg l hl).1
    exact (decideLeaf?_outcome hvars hrange ht htrange fun l hl => hcube l (habout l hl)).weaken
      fun _ h => h.subset habout
  refine hdecided.eq_ok.bind fun found hfound => ?_
  cases found with
  | none => exact trivial
  | some fixed =>
      have hsearched : ∀ l ∈ plan.searched, Searchable vars l := fun l hl =>
        hcube l (hplan.searched l hl)
      have hoptions : Meets (FailsOn vars cube) (fun _ => True) (plan.open.mapM fun leaf => do
          return (leaf, ← candidates (← leaf.sort) (setOf (constantsAll plan.searched)))) := by
        refine (Meets.mapM (R := fun _ => True) fun leaf hleaf => ?_).imp fun _ _ => trivial
        obtain ⟨l, hl, hmem⟩ := hplan.open leaf hleaf
        obtain ⟨t, ht, htrange⟩ := (hcube l hl).leafOf hmem
        refine ht.sort_outcome.bind fun u hu => ?_
        subst hu
        exact (candidates_outcome htrange (Searchable.constantsAll_isValue hsearched)).bind
          fun _ _ => .pure trivial
      refine hoptions.eq_ok.bind fun options hoptions => ?_
      refine search_outcome fun chosen hchosen => ?_
      have hwritable := hplan.writable hcube hfound fun entry hentry =>
        (chosen_writable hplan hcube hoptions (hchosen entry hentry)).2
      exact (allHold_outcome hsearched (compose_fits hvars hrange hwritable)).weaken
        fun _ h => h.subset hplan.searched

theorem checkCubes_outcome {b : Bounds} {sure : Bool} {cubes : List (List Formula)}
    (hcubes : ∀ cube ∈ cubes, ∀ l ∈ cube, Searchable vars l) :
    Meets (FailsOn vars cubes.flatten) (fun _ => True) (b.checkCubes vars sure cubes) := by
  have hall : ∀ cube ∈ cubes, simplifyAll cube = .ok cube ∧
      Meets (FailsOn vars cubes.flatten) (fun _ => True) (b.checkCube vars cube) := by
    intro cube hcube
    refine ⟨Searchable.simplifyAll_eq (hcubes cube hcube), ?_⟩
    exact (checkCube_outcome hvars hrange (hcubes cube hcube)).weaken fun _ h =>
      h.subset fun l hl => List.mem_flatten.mpr ⟨cube, hcube, hl⟩
  clear hcubes
  generalize FailsOn vars cubes.flatten = E at hall
  induction cubes generalizing sure with
  | nil => exact trivial
  | cons cube cubes ih =>
      obtain ⟨⟨hsimplify, hcheck⟩, hrest⟩ := List.forall_mem_cons.mp hall
      rw [Bounds.checkCubes, hsimplify]
      show Meets E _ (if .bool false ∈ cube then _ else _)
      split
      · exact ih hrest
      · refine hcheck.bind fun answer _ => ?_
        cases answer with
        | sat m => exact trivial
        | unsat => exact ih hrest
        | unknown => exact ih hrest

end

/-! ## Assertions -/

/-- The branches of a choice have sorts, so there is a negation normal form. -/
theorem nnf_outcome {e : Formula} {negated : Bool} (h : e.Conjoined) (hr : e.InRange) :
    Meets E (fun _ => True) (e.nnf negated) := by
  induction e using ind_connective generalizing negated with
  | lit v => cases v <;> exact trivial
  | unary f a ih =>
      cases f with
      | not => exact ih (every_unary.mp h).2 (every_unary.mp hr).2
      | _ => exact trivial
  | ite c a b ihc iha ihb =>
      obtain ⟨hself, hc, ha, hb⟩ := every_ite.mp h
      obtain ⟨-, hrc, hra, hrb⟩ := every_ite.mp hr
      obtain ⟨s, hs⟩ := hself.resolve_right (by simp)
      have hsort := (sort_sized (hasSort_ite.mp hs).2.1 (InRange.sized hra)).1
      rw [nnf, hsort]
      show Meets E _ (if s.isBool = true then _ else _)
      split
      · exact (ihc hc hrc).bind fun _ _ => (iha ha hra).bind fun _ _ =>
          (ihc hc hrc).bind fun _ _ => (ihb hb hrb).bind fun _ _ => .pure trivial
      · exact trivial
  | connective f es hf ih =>
      have hall : Meets E (fun _ => True) (nnfAll negated es) := by
        rw [nnfAll_eq]
        refine (Meets.mapM (R := fun _ => True) fun e he => ?_).imp fun _ _ => trivial
        exact ih e he ((every_nary.mp h).2 e he) ((every_nary.mp hr).2 e he)
      rcases hf with rfl | rfl <;> exact hall.bind fun _ _ => .pure trivial
  | _ => exact trivial

theorem Formula.ArithmeticOf.overflowsAt {e l : Formula} {σ : Assignment} (h : l.ArithmeticOf e)
    (hl : l.OverflowsAt σ) : e.OverflowsAt σ := by
  obtain ⟨x, y, hdiv, hx, hy⟩ := hl
  exact ⟨x, y, h _ x y hdiv, hx, hy⟩

/-- The cubes of a searchable formula, or the formula itself past the limit, consist of searchable
formulas that compute what it computes. -/
theorem cubes_searchable {formula normal : Formula} {limit : Nat} (h : Searchable vars formula)
    (hnnf : formula.nnf false = .ok normal) :
    ∀ cube ∈ (normal.cubes? limit).getD [[formula]], ∀ l ∈ cube,
      Searchable vars l ∧ l.ArithmeticOf formula := by
  intro cube hcube l hl
  cases hc : normal.cubes? limit with
  | none =>
      rw [hc] at hcube
      obtain rfl := List.mem_singleton.mp hcube
      obtain rfl := List.mem_singleton.mp hl
      exact ⟨h, fun _ _ _ hp => hp⟩
  | some cubes =>
      rw [hc] at hcube
      exact h.literals hnnf l (mem_literals_of_cubes? hc cube hcube l hl)

variable {assertions : List Formula}

/-- A conjunction fails to be simplified exactly where a member does. -/
theorem simplify_and_error_iff {err : Error} (hsort : ∀ a ∈ assertions, a.WellSorted)
    (hrange : ∀ a ∈ assertions, a.InRange) :
    (Formula.and assertions).simplify = .error err ↔
      err = .fault .overflow ∧ ∃ a ∈ assertions, a.OverflowsWhenFolded := by
  have hsimplify : (Formula.and assertions).simplify =
      simplifyAll assertions >>= fun es => pure (junction .and es) := rfl
  rw [hsimplify, simplifyAll_eq, bind_eq_error]
  constructor
  · rintro (h | ⟨es, -, h⟩)
    · obtain ⟨before, a, after, es, rfl, -, ha⟩ := mapM_eq_error.mp h
      obtain ⟨rfl, hoverflow⟩ :=
        (simplify_error_iff (hsort a (by simp)) (hrange a (by simp))).mp ha
      exact ⟨rfl, a, by simp, hoverflow⟩
    · cases h
  · rintro ⟨rfl, a, ha, hoverflow⟩
    left
    cases h : assertions.mapM simplify with
    | ok es =>
        obtain ⟨a', -, ha'⟩ := forall₂_exists_of_mem_left (mapM_eq_ok.mp h) ha
        exact absurd ha' hoverflow.simplify_ne_ok
    | error err =>
        obtain ⟨before, a', after, es, rfl, -, ha'⟩ := mapM_eq_error.mp h
        rw [((simplify_error_iff (hsort a' (by simp)) (hrange a' (by simp))).mp ha').1]

/-- Deciding assertions comes to the quotient of the least integer by `-1`: where their constants
are folded, or where their simplified conjunction is evaluated for some values of its variables. -/
def DecidingOverflows (assertions : List Formula) : Prop :=
  (∃ a ∈ assertions, a.OverflowsWhenFolded) ∨
    ∃ formula σ, (Formula.and assertions).simplify = .ok formula ∧
      Assigns σ formula.occurrences ∧ formula.OverflowsAt σ

/-- What the solver relies on where it composes models: every name has one sort, and the paths of
the leaves read the same from both ends. -/
structure Composable (assertions : List Formula) : Prop where
  functional : Functional (assertions.flatMap occurrences)
  mirrored : ∀ formula, (Formula.and assertions).simplify = .ok formula →
    ∀ l ∈ formula.leaves, l.Mirrored

/-- Assertions are decided, or they overflow. -/
theorem check_outcome {b : Bounds} (hsort : ∀ a ∈ assertions, a.WellSorted)
    (hrange : ∀ a ∈ assertions, a.InRange) (hcomposable : Composable assertions) :
    Meets (fun err => err = .fault .overflow ∧ DecidingOverflows assertions) (fun _ => True)
      (b.check assertions) := by
  unfold Bounds.check
  have hsimplify : Meets (fun err => err = .fault .overflow ∧ DecidingOverflows assertions)
      (fun formula => (Formula.and assertions).simplify = .ok formula)
      (Formula.and assertions).simplify := by
    cases h : (Formula.and assertions).simplify with
    | ok formula => exact rfl
    | error err =>
        obtain ⟨rfl, hoverflow⟩ := (simplify_and_error_iff hsort hrange).mp h
        exact ⟨rfl, .inl hoverflow⟩
  refine hsimplify.bind fun formula hformula => ?_
  obtain ⟨-, hfunctional, hsearchable⟩ :=
    searchable_of_assertions hsort hrange hcomposable.functional hformula
      (hcomposable.mirrored formula hformula)
  obtain ⟨hvars, hrange⟩ := hsearchable.freeVariables hfunctional
  have hnnf : Meets (fun err => err = .fault .overflow ∧ DecidingOverflows assertions)
      (fun _ => True) (formula.nnf false) := nnf_outcome hsearchable.conjoined hsearchable.inRange
  refine hnnf.eq_ok.bind fun normal hnormal => ?_
  have hcubes := fun cube hcube l hl =>
    cubes_searchable hsearchable hnormal cube
      (hcube : cube ∈ (normal.cubes? b.maxCubes).getD [[formula]]) l hl
  refine (checkCubes_outcome hvars hrange fun cube hcube l hl =>
    (hcubes cube hcube l hl).1).weaken ?_
  rintro err ⟨rfl, σ, hσ, l, hl, hoverflow⟩
  obtain ⟨cube, hcube, hl⟩ := List.mem_flatten.mp hl
  refine ⟨rfl, .inr ⟨formula, σ, hformula, fun name s hs => ?_,
    (hcubes cube hcube l hl).2.overflowsAt hoverflow⟩⟩
  exact hσ name s ((mem_freeVariables hfunctional).mpr (mem_occurrences.mp hs))

/-! ## Scripts -/

/-- Every bit vector in a formula has between 1 and 64 bits. -/
def Formula.WidthsSupported (e : Formula) : Prop :=
  ∀ p ∈ e.parts, ∀ t ∈ p.sort?, t.inRange = true

instance (e : Formula) : Decidable e.WidthsSupported :=
  inferInstanceAs (Decidable (∀ p ∈ e.parts, ∀ t ∈ p.sort?, t.inRange = true))

/-- What is constructed with supported widths is in range. -/
theorem Formula.Constructed.inRange {e : Formula} (h : e.Constructed) (hw : e.WidthsSupported) :
    e.InRange := by
  intro p hp
  obtain ⟨s, hs⟩ := h.wellSorted
  obtain ⟨t, ht⟩ := hs.part hp
  have ht' := hw p hp t ht
  have hsized := h.sized p hp
  cases p with
  | var name u =>
      obtain rfl := hasSort_var.mp ht
      exact ht'
  | lit v =>
      cases v with
      | bits value width =>
          obtain rfl := hasSort_lit.mp ht
          have hwidth := SmtSort.inRange_bitVec.mp ht'
          simp only [nodeSized, Literal.isSized, Nat.min_eq_left hwidth.2,
            Bool.and_eq_true] at hsized
          exact (Bool.and_eq_true _ _).mpr ⟨ht', hsized.2⟩
      | int i => exact hsized
      | _ => rfl
  | unary f a =>
      obtain ⟨u, hu, hf⟩ := hasSort_unary.mp ht
      cases f with
      | intToBits w =>
          obtain ⟨-, rfl⟩ := result?_intToBits.mp hf
          exact ht'
      | get r i =>
          obtain ⟨rfl, -⟩ := result?_get.mp hf
          exact hw a (mem_parts_trans (by simp) hp) _ hu
      | _ => rfl
  | binary f a b => rfl
  | ite c a b => rfl
  | nary f es =>
      cases f with
      | make r =>
          obtain ⟨rfl, -⟩ := hasSort_make.mp ht
          exact ht'
      | _ => rfl

/-- Deciding assertions fails only by the quotient of the least integer by `-1`. -/
structure DecidedUpToQuotient (assertions : List Formula) : Prop where
  simplify : ∀ a ∈ assertions, ∀ err,
    a.simplify = .error err ↔ err = .fault .overflow ∧ a.OverflowsWhenFolded
  folded : (∃ a ∈ assertions, a.OverflowsWhenFolded) →
    boundsSolver assertions = .error (.fault .overflow)
  check : Composable assertions → ∀ err, boundsSolver assertions = .error err →
    err = .fault .overflow ∧ DecidingOverflows assertions

/-- **Deciding a script ends, or it divides the least integer by `-1`.** For a script that was read
with supported widths, simplifying an assertion fails exactly where this quotient is folded. The
bounds solver fails then, and otherwise, where models are composed of leaves that do not disturb one
another, only if the quotient comes up for some values of the variables. -/
theorem deciding_outcome {text : String} {s : SmtLib.Script} (h : 4 * text.length < Word.limit)
    (hread : SmtLib.readScript text = .ok s) (hwidths : ∀ a ∈ s.assertions, a.WidthsSupported) :
    DecidedUpToQuotient s.assertions := by
  have hformed := ((SmtLib.readScript_outcome h).value hread).assertions
  have hsort : ∀ a ∈ s.assertions, a.WellSorted := fun a ha => (hformed a ha).wellSorted
  have hrange : ∀ a ∈ s.assertions, a.InRange := fun a ha =>
    (hformed a ha).inRange (hwidths a ha)
  refine ⟨fun a ha err => simplify_error_iff (hsort a ha) (hrange a ha), fun hfolded => ?_,
    fun hcomposable err => (check_outcome hsort hrange hcomposable).error⟩
  have hsimplify := (simplify_and_error_iff hsort hrange).mpr ⟨rfl, hfolded⟩
  exact bind_eq_error.mpr (.inl hsimplify)

/-- A quotient of a variable by `-1`, and a comparison of bit vectors. -/
def quotientScript : String :=
  "(declare-const n Int) (declare-const x (_ BitVec 8)) " ++
    "(assert (= (div n (- 1)) 5)) (assert (bvugt x #x07))"

theorem quotientScript_decided : 4 * quotientScript.length < Word.limit ∧
    ∃ s, SmtLib.readScript quotientScript = .ok s ∧ s.assertions.length = 2 ∧
      Composable s.assertions ∧ DecidedUpToQuotient s.assertions := by
  have hlength : 4 * quotientScript.length < Word.limit := by decide +kernel
  obtain ⟨s, hread, hcount, hwidths, hvars, hleaves⟩ := exists_readScript quotientScript
    (fun s => s.assertions.length = 2 ∧ (∀ a ∈ s.assertions, a.WidthsSupported) ∧
      Functional (s.assertions.flatMap occurrences) ∧
      ∀ formula ∈ (Formula.and s.assertions).simplify.toOption, ∀ l ∈ formula.leaves, l.Mirrored)
    (by decide +kernel)
  have hcomposable : Composable s.assertions := by
    refine ⟨hvars, fun formula hformula => hleaves formula ?_⟩
    simp [hformula, Except.toOption]
  exact ⟨hlength, s, hread, hcount, hcomposable, deciding_outcome hlength hread hwidths⟩

/-- The least integer is divided by `-1`. -/
def leastQuotientScript : String :=
  "(assert (= (div (- (- 9223372036854775807) 1) (- 1)) 0))"

/-- The quotient has no value in the range, but it is not left alone as one without value. -/
theorem leastQuotientScript_faults :
    ∃ s, SmtLib.readScript leastQuotientScript = .ok s ∧
      (∀ a ∈ s.assertions, a.WidthsSupported) ∧
      (∃ a ∈ s.assertions, a.simplify = .error (.fault .overflow)) ∧
      boundsSolver s.assertions = .error (.fault .overflow) := by
  obtain ⟨s, hread, hwidths, hsimplify, hcheck⟩ := exists_readScript leastQuotientScript
    (fun s => (∀ a ∈ s.assertions, a.WidthsSupported) ∧
      (∃ a ∈ s.assertions, a.simplify = .error (.fault .overflow)) ∧
      (fun _ => ()) <$> boundsSolver s.assertions = .error (.fault .overflow))
    (by decide +kernel)
  exact ⟨s, hread, hwidths, hsimplify, map_eq_error.mp hcheck⟩

end PlayerPaths
