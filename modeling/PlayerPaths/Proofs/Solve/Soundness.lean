import Mathlib.Data.List.Nodup
import PlayerPaths.Proofs.Solve.Queries

/-!
# Models of the bounds solver

When the bounds solver answers with a model, the model gives every variable of the simplified
conjunction a value of its sort, and makes a cube of it true (`checkCube_sat`). Hence the
conjunction is true, in the sense in which the members that decide a formula decide it, and no
assertion is false.
-/

namespace PlayerPaths

open Formula

variable {vars : List (String × SmtSort)}

/-- A value of a sort that is no record is no record. -/
theorem Formula.IsValue.ne_make {v : Formula} {t : SmtSort} (h : v.IsValue t)
    (ht : ∀ r : Record, t ≠ r.sort) (r : Record) (es : List Formula) : v ≠ .nary (.make r) es := by
  rintro rfl
  exact ht r (hasSort_make.mp h.hasSort).1

/-- What is decided on its own is a leaf, of a sort that is no record. -/
theorem CubePlan.For.exists_leafOf {plan : CubePlan} {cube : List Formula} (hplan : plan.For cube)
    (hcube : ∀ l ∈ cube, Searchable vars l) {g : Formula × List Formula} (hg : g ∈ plan.exact) :
    ∃ t, LeafOf vars g.1 t ∧ t.inRange = true ∧ ∀ r : Record, t ≠ r.sort := by
  obtain ⟨l, hl⟩ := List.exists_mem_of_ne_nil _ (hplan.nonempty g hg)
  obtain ⟨hmem, hsimple⟩ := hplan.about g hg l hl
  obtain ⟨hleaf, habout, u, hu, hrecord⟩ := simpleLeaf?_eq_some hsimple
  obtain ⟨t, ht, hrange⟩ := (hcube l hmem).leafOf (habout.mem_leaves hleaf)
  obtain rfl := sort_agrees ht.hasSort hu
  exact ⟨u, ht, hrange, hrecord⟩

theorem CubePlan.For.leafOf {plan : CubePlan} {cube : List Formula} (hplan : plan.For cube)
    (hcube : ∀ l ∈ cube, Query vars l) {g : Formula × List Formula} (hg : g ∈ plan.exact) :
    ∃ t, LeafOf vars g.1 t ∧ t.inRange = true ∧ ∀ r : Record, t ≠ r.sort :=
  hplan.exists_leafOf (fun l hl => (hcube l hl).searchable) hg

/-- The value of a leaf that is decided on its own, and what it was decided for. -/
theorem decideLeaf?_some {leaf v : Formula} {literals : List Formula} {t : SmtSort}
    (hleaf : LeafOf vars leaf t) (hrange : t.inRange = true)
    (hliterals : ∀ l ∈ literals, Searchable vars l)
    (h : decideLeaf? vars leaf literals = .ok (some v)) :
    v.IsValue t ∧ ∀ l ∈ literals, (compose vars [(leaf, v)]).eval l = .ok (.bool true) := by
  obtain ⟨u, values, hu, hvalues, hfind⟩ := decideLeaf?_eq_ok h
  obtain rfl := sort_agrees hleaf.hasSort hu
  obtain ⟨hmem, hhold⟩ := findM?_eq_some hfind
  exact ⟨candidates_isValue hrange (Searchable.constantsAll_isValue hliterals) hvalues v hmem,
    allHold_eq_true.mp hhold⟩

theorem sortLeafValues_perm (values : LeafValues) : (sortLeafValues values).Perm values :=
  List.mergeSort_perm ..

/-- The candidates that are searched can be written. -/
theorem chosen_writable {plan : CubePlan} {cube : List Formula} (hplan : plan.For cube)
    (hcube : ∀ l ∈ cube, Searchable vars l) {options : List (Formula × List Formula)}
    (hoptions : (plan.open.mapM fun leaf => do
      return (leaf, ← candidates (← leaf.sort) (setOf (constantsAll plan.searched)))) = .ok options)
    {entry : Formula × Formula}
    (hentry : ∃ values, (entry.1, values) ∈ options ∧ entry.2 ∈ values) :
    entry.1 ∈ plan.open ∧ ∃ t, LeafOf vars entry.1 t ∧ entry.2.IsValue t := by
  obtain ⟨values, hmem, hvalue⟩ := hentry
  obtain ⟨leaf, hleaf, hoption⟩ := mem_of_mapM_eq_ok hoptions hmem
  simp only [bind_eq_ok, pure_eq_ok, Prod.mk.injEq] at hoption
  obtain ⟨u, hu, _, hvalues, rfl, rfl⟩ := hoption
  obtain ⟨l, hl, hmemleaf⟩ := hplan.open entry.1 hleaf
  obtain ⟨t, ht, hrange⟩ := (hcube l hl).leafOf hmemleaf
  obtain rfl := sort_agrees ht.hasSort hu
  have hconstants := Searchable.constantsAll_isValue fun e he => hcube e (hplan.searched e he)
  exact ⟨hleaf, u, ht, candidates_isValue hrange hconstants hvalues entry.2 hvalue⟩

/-- The values that were decided and chosen can be written. -/
theorem CubePlan.For.writable {plan : CubePlan} {cube : List Formula} (hplan : plan.For cube)
    (hcube : ∀ l ∈ cube, Searchable vars l) {fixed chosen : LeafValues}
    (hfixed : decideLeaves? vars plan.exact = .ok (some fixed))
    (hchosen : ∀ entry ∈ chosen, ∃ t, LeafOf vars entry.1 t ∧ entry.2.IsValue t) :
    Writable vars (sortLeafValues (fixed ++ chosen)) := by
  intro entry hentry
  rcases List.mem_append.mp ((sortLeafValues_perm _).mem_iff.mp hentry) with hentry | hentry
  · obtain ⟨g, hg, hkey, hdecide⟩ :=
      forall₂_exists_of_mem_right (decideLeaves?_eq_some hfixed) hentry
    obtain ⟨t, ht, hrange, -⟩ := hplan.exists_leafOf hcube hg
    have hliterals : ∀ l ∈ g.2, Searchable vars l := fun l hl => hcube l (hplan.about g hg l hl).1
    exact ⟨t, hkey ▸ ht, (decideLeaf?_some ht hrange hliterals hdecide).1⟩
  · exact hchosen entry hentry

/-- **A model for a cube makes its literals true**, and fits the variables. -/
theorem checkCube_sat {b : Bounds} {cube : List Formula} {m : Model} (hvars : Functional vars)
    (hrange : ∀ v ∈ vars, v.2.inRange = true) (hcube : ∀ l ∈ cube, Query vars l)
    (h : b.checkCube vars cube = .ok (.sat m)) :
    m.Fits vars ∧ ∀ l ∈ cube, m.eval l = .ok (.bool true) := by
  replace hcube : ∀ l ∈ cube, Searchable vars l := fun l hl => (hcube l hl).searchable
  simp only [Bounds.checkCube, bind_eq_ok] at h
  obtain ⟨plan, hplan, decided, hdecided, h⟩ := h
  have hplan := ofCube_spec hplan
  cases decided with
  | none => simp at h
  | some fixed =>
      simp only [bind_eq_ok] at h
      obtain ⟨options, hoptions, h⟩ := h
      obtain ⟨chosen, rfl, hchosen, hsearched⟩ := search_eq_sat h
      have hfixed := decideLeaves?_eq_some hdecided
      have hchosen : ∀ entry ∈ chosen, entry.1 ∈ plan.open ∧
          ∃ t, LeafOf vars entry.1 t ∧ entry.2.IsValue t := fun entry hentry =>
        chosen_writable hplan hcube hoptions (hchosen entry hentry)
      have hliterals : ∀ g ∈ plan.exact, ∀ l ∈ g.2, Searchable vars l := fun g hg l hl =>
        hcube l (hplan.about g hg l hl).1
      have hwritable : Writable vars (sortLeafValues (fixed ++ chosen)) :=
        hplan.writable hcube hdecided fun entry hentry => (hchosen entry hentry).2
      refine ⟨compose_fits hvars hrange hwritable, fun l hl => ?_⟩
      rcases hplan.complete l hl with ⟨g, hg, hl⟩ | hl
      · -- The leaf has the value that its literals were decided for.
        obtain ⟨entry, hentry, hkey, hdecide⟩ := forall₂_exists_of_mem_left hfixed hg
        obtain ⟨t, ht, htrange, hrecord⟩ := hplan.exists_leafOf hcube hg
        obtain ⟨hvalue, hhold⟩ := decideLeaf?_some ht htrange (hliterals g hg) hdecide
        have honce : ((sortLeafValues (fixed ++ chosen)).map Prod.fst).count g.1 = 1 := by
          have hnone : g.1 ∉ chosen.map Prod.fst := fun hmem => by
            obtain ⟨entry, hentry, hkey⟩ := List.mem_map.mp hmem
            exact hplan.apart g hg (hkey ▸ (hchosen entry hentry).1)
          rw [((sortLeafValues_perm _).map _).count_eq, List.map_append, List.count_append,
            decideLeaves?_leaves hdecided, List.count_eq_one_of_mem hplan.nodup
              (List.mem_map_of_mem hg), List.count_eq_zero.mpr hnone]
        have hone : Writable vars [(g.1, entry.2)] := by simpa [Writable] using ⟨t, ht, hvalue⟩
        have halone := eval_compose hvars hrange hone ht (hvalue.ne_make hrecord) (by simp)
          (by simp)
        have htogether := eval_compose hvars hrange hwritable ht (hvalue.ne_make hrecord)
          ((sortLeafValues_perm _).mem_iff.mpr (by simp [← hkey, hentry])) honce
        obtain ⟨-, habout, -⟩ := simpleLeaf?_eq_some (hplan.about g hg l hl).2
        rw [← hhold l hl]
        exact habout.eval_congr (htogether.trans halone.symm)
      · exact hsearched l hl

/-- A model for a disjunction of cubes is a model for one of them. -/
theorem checkCubes_sat {b : Bounds} {sure : Bool} {cubes : List (List Formula)} {m : Model}
    (h : b.checkCubes vars sure cubes = .ok (.sat m)) :
    ∃ cube ∈ cubes, ∃ cube', simplifyAll cube = .ok cube' ∧
      b.checkCube vars cube' = .ok (.sat m) := by
  induction cubes generalizing sure with
  | nil => cases sure <;> simp [Bounds.checkCubes] at h
  | cons cube cubes ih =>
      have later : ∀ {sure}, b.checkCubes vars sure cubes = .ok (.sat m) →
          ∃ c ∈ cube :: cubes, ∃ c', simplifyAll c = .ok c' ∧
            b.checkCube vars c' = .ok (.sat m) := fun h => by
        obtain ⟨c, hc, found⟩ := ih h
        exact ⟨c, List.mem_cons_of_mem _ hc, found⟩
      simp only [Bounds.checkCubes, bind_eq_ok] at h
      obtain ⟨cube', hcube', h⟩ := h
      split at h
      · exact later h
      · obtain ⟨answer, hanswer, h⟩ := bind_eq_ok.mp h
        cases answer with
        | sat m' =>
            obtain rfl : m' = m := by simpa using h
            exact ⟨cube, List.mem_cons_self, cube', hcube', hanswer⟩
        | unsat => exact later h
        | unknown => exact later h

/-- The cubes of a query, or the query itself past the limit, consist of queries. -/
theorem cubes_queries {formula normal : Formula} {limit : Nat} (hquery : Query vars formula)
    (hnnf : formula.nnf false = .ok normal) :
    ∀ cube ∈ (normal.cubes? limit).getD [[formula]], ∀ l ∈ cube, Query vars l := by
  intro cube hcube l hl
  cases hc : normal.cubes? limit with
  | none =>
      rw [hc] at hcube
      obtain rfl := List.mem_singleton.mp hcube
      obtain rfl := List.mem_singleton.mp hl
      exact hquery
  | some cubes =>
      rw [hc] at hcube
      exact (hquery.literals hnnf l (mem_literals_of_cubes? hc cube hcube l hl)).1

/-- A true cube makes the formula true. -/
theorem truth_of_cube {formula normal : Formula} {limit : Nat} {σ : Assignment}
    (hnnf : formula.nnf false = .ok normal) {cube : List Formula}
    (hcube : cube ∈ (normal.cubes? limit).getD [[formula]]) (htrue : AllTrue σ cube) :
    formula.truth σ = some true := by
  cases hc : normal.cubes? limit with
  | none =>
      rw [hc] at hcube
      obtain rfl := List.mem_singleton.mp hcube
      exact htrue formula (by simp)
  | some cubes =>
      rw [hc] at hcube
      exact truth_of_nnf hnnf ((truth_cubes? hc).mpr ⟨cube, hcube, htrue⟩)

theorem check_eq_ok {b : Bounds} {assertions : List Formula} {answer : Answer}
    (h : b.check assertions = .ok answer) :
    ∃ formula normal, (Formula.and assertions).simplify = .ok formula ∧
      formula.nnf false = .ok normal ∧
      b.checkCubes formula.freeVariables.toList true
        ((normal.cubes? b.maxCubes).getD [[formula]]) = .ok answer := by
  simp only [Bounds.check, bind_eq_ok] at h
  obtain ⟨formula, hsimplify, normal, hnnf, h⟩ := h
  exact ⟨formula, normal, hsimplify, hnnf, h⟩

/-- A simplified conjunction is false when a member evaluates to false. -/
theorem truth_of_false_member {assertions : List Formula} {formula : Formula} {σ : Assignment}
    (hsort : ∀ a ∈ assertions, a.HasSort .bool)
    (hsimplify : (Formula.and assertions).simplify = .ok formula) {a : Formula}
    (ha : a ∈ assertions) (hfalse : a.eval σ = .ok (.bool false)) :
    formula.truth σ = some false := by
  obtain ⟨es, hes, rfl⟩ := (simplify_junction_eq_ok (.inl rfl)).mp hsimplify
  obtain ⟨e, he, hsimp⟩ := forall₂_exists_of_mem_left hes ha
  rw [truth_junction (.inl rfl)]
  exact (truth_junction_decided (.inl rfl)).mpr
    ⟨e, he, truth_of_eval (simplify_refines (hsort a ha) hsimp hfalse)⟩

/-- A model, completed by default values for some variables. -/
def Model.completed (m : Model) (vars : List (String × SmtSort)) : Assignment := fun name =>
  (m.values[name]?).or ((vars.find? fun v => v.1 == name).map fun v => v.2.zero)

/-- **Models are sound.** If the bounds solver answers with a model for well-sorted assertions, each
name of one sort, and the leaves of the simplified conjunction have paths that read the same from
both ends, then the model gives every variable of the simplified conjunction a value of its sort,
the conjunction is true in the model and evaluates to nothing but true, and no assertion evaluates
to false in the model completed by default values. -/
theorem model_sound {b : Bounds} {assertions : List Formula} {formula : Formula} {m : Model}
    (hsort : ∀ a ∈ assertions, a.HasSort .bool) (hrange : ∀ a ∈ assertions, a.InRange)
    (hvars : Functional (assertions.flatMap occurrences))
    (hsimplify : (Formula.and assertions).simplify = .ok formula)
    (hleaves : ∀ l ∈ formula.leaves, l.Mirrored)
    (h : b.check assertions = .ok (.sat m)) :
    Assigns m.assignment formula.occurrences ∧
    formula.truth m.assignment = some true ∧
    (∀ v, m.eval formula = .ok v → v = .bool true) ∧
    ∀ a ∈ assertions, a.eval (m.completed (assertions.flatMap occurrences)) ≠ .ok (.bool false) := by
  obtain ⟨-, hfunctional, hquery⟩ := query_of_assertions hsort hrange hvars hsimplify hleaves
  obtain ⟨formula', normal, hsimplify', hnnf, h⟩ := check_eq_ok h
  obtain rfl : formula = formula' := Except.ok.inj (hsimplify.symm.trans hsimplify')
  obtain ⟨cube, hcube, cube', hsimp, hcheck⟩ := checkCubes_sat h
  have hqueries := cubes_queries hquery hnnf cube hcube
  obtain rfl : cube = cube' := Except.ok.inj ((Query.simplifyAll_eq hqueries).symm.trans hsimp)
  obtain ⟨hvars, hrange⟩ := hquery.freeVariables hfunctional
  obtain ⟨hfits, htrue⟩ := checkCube_sat hvars hrange hqueries hcheck
  have htruth : formula.truth m.assignment = some true :=
    truth_of_cube hnnf hcube fun l hl => truth_of_eval (htrue l hl)
  have hfits : Assigns m.assignment formula.occurrences := fun name s hs =>
    hfits name s ((mem_freeVariables hfunctional).mpr (mem_occurrences.mp hs))
  refine ⟨hfits, htruth, fun v hv => ?_, fun a ha hfalse => ?_⟩
  · obtain ⟨t, rfl⟩ := eval_bool hquery.hasSort hfits hv
    have := truth_of_eval hv
    rw [htruth] at this
    rw [← Option.some.inj this]
  · have hcompleted : formula.truth (m.completed (assertions.flatMap occurrences)) =
        formula.truth m.assignment := by
      refine truth_congr fun name s hs => ?_
      obtain ⟨v, hv, -⟩ := hfits name s (mem_occurrences.mpr hs)
      rw [Model.assignment] at hv
      simp [Model.completed, Model.assignment, hv]
    rw [truth_of_false_member hsort hsimplify ha hfalse, htruth] at hcompleted
    simp at hcompleted

/-- A computed answer is a model with a computed property. -/
theorem exists_sat (answer : Result Answer) (p : Model → Bool)
    (h : (match answer with
      | .ok (.sat m) => p m
      | _ => false) = true) : ∃ m, answer = .ok (.sat m) ∧ p m = true := by
  split at h
  · exact ⟨_, rfl, h⟩
  · simp at h

/-- A field of a record is above a bound. -/
def fieldQuery : Formula :=
  let point : Record := ⟨"Point", [("x", .real), ("y", .bitVec 8)]⟩
  .binary (.compareBits .sgt) (.unary (.get point 1) (.var "p" point.sort)) (.bits 7 8)

theorem fieldQuery_model_sound :
    ∃ m, boundsSolver [fieldQuery] = .ok (.sat m) ∧ fieldQuery.truth m.assignment = some true := by
  obtain ⟨m, hm, -⟩ := exists_sat (boundsSolver [fieldQuery]) (fun _ => true)
    (by decide +kernel)
  exact ⟨m, hm, (model_sound (b := {}) (by decide) (by decide) (by decide +kernel)
    (by decide +kernel) (by decide) hm).2.1⟩

/-- A disjunction with a member that may have no value. -/
def partialQuery : Formula :=
  .or [.var "p" .bool, .eq (.binary (.arith .div) (.int 1) (.var "x" .int)) (.int 1)]

/-- A field of a nested record, whose path from inside leads to a field of another sort. -/
def nestedQuery : Formula :=
  let inner : Record := ⟨"In", [("x", .int), ("y", .bool)]⟩
  let outer : Record := ⟨"Out", [("a", inner.sort), ("b", inner.sort)]⟩
  .not (.unary (.get inner 1) (.unary (.get outer 0) (.var "v" outer.sort)))

/-- A model may leave a member without value that nothing depends on, and it may have values of the
wrong sort when a path is not the same from both ends. -/
theorem model_not_strict :
    (∃ m, boundsSolver [partialQuery] = .ok (.sat m) ∧
      (Formula.and [partialQuery]).simplify = .ok partialQuery ∧
      m.eval partialQuery ≠ .ok (.bool true)) ∧
    (∃ m, boundsSolver [nestedQuery] = .ok (.sat m) ∧
      (Formula.and [nestedQuery]).simplify = .ok nestedQuery ∧
      ∃ v ∈ nestedQuery.occurrences, ∀ x, m.values[v.1]? = some x → ¬ x.IsValue v.2) := by
  constructor
  · obtain ⟨m, hm, hvalue⟩ := exists_sat (boundsSolver [partialQuery])
      (fun m => m.eval partialQuery ≠ .ok (.bool true)) (by decide +kernel)
    exact ⟨m, hm, by decide +kernel, by simpa using hvalue⟩
  · obtain ⟨m, hm, hvalue⟩ := exists_sat (boundsSolver [nestedQuery])
      (fun m => ∃ v ∈ nestedQuery.occurrences, ∀ x ∈ m.values[v.1]?, ¬ x.IsValue v.2)
      (by decide +kernel)
    exact ⟨m, hm, by decide +kernel, of_decide_eq_true hvalue⟩

end PlayerPaths
