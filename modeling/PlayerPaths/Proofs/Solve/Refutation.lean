import PlayerPaths.Proofs.Solve.Adequacy
import PlayerPaths.Proofs.Solve.Soundness

/-!
# Refutations of the bounds solver

When the bounds solver answers that assertions cannot hold together, they cannot: an assignment
that makes them true makes the literals of some cube true, and then every leaf that is decided on
its own has a candidate that makes its literals true (`decideLeaf?_ne_none`), so the cube is not
refuted. Real numbers, comparisons of numbers and nested records are left out.
-/

namespace PlayerPaths

open Formula

variable {vars : List (String × SmtSort)} {σ τ : Assignment}

/-! ## Literals about alike values -/

theorem constants_of_isConstant {c : Formula} (h : c.isConstant = true) : c.constants = [c] := by
  rcases isConstant_cases h with ⟨v, rfl⟩ | ⟨r, es, rfl, -⟩
  · rfl
  · rw [constants, if_pos h]

/-- A comparison with a constant is the same for alike values. -/
theorem ComparedWith.apply_congr {leaf a b x y : Formula} {t : SmtSort} {constants : List Formula}
    (h : ComparedWith leaf a b) (hsort : ∀ {c}, c = a ∨ c = b → c.HasSort t)
    (hconstants : ∀ c ∈ a.constants ++ b.constants, c ∈ constants)
    (hlike : Alike t constants x y) (hx : leaf.eval σ = .ok x) (hy : leaf.eval τ = .ok y) :
    (Formula.eq a b).eval σ = (Formula.eq a b).eval τ ∧
      ∀ op, (Formula.binary (.compareBits op) a b).eval σ =
        (Formula.binary (.compareBits op) a b).eval τ := by
  rcases h with ⟨rfl, hc⟩ | ⟨rfl, hc⟩
  · obtain ⟨heq, hcmp⟩ := hlike b (hconstants b (by simp [constants_of_isConstant hc]))
      (hsort (.inr rfl))
    refine ⟨?_, fun op => ?_⟩
    · simp [eval, hx, hy, eval_constant hc, BinaryFunction.apply, heq, bind, Except.bind]
    · simpa [eval, hx, hy, eval_constant hc, bind, Except.bind] using (hcmp op).1
  · obtain ⟨heq, hcmp⟩ := hlike a (hconstants a (by simp [constants_of_isConstant hc]))
      (hsort (.inl rfl))
    have heq : a = x ↔ a = y := by rw [eq_comm, heq, eq_comm]
    refine ⟨?_, fun op => ?_⟩
    · simp [eval, hx, hy, eval_constant hc, BinaryFunction.apply, heq, bind, Except.bind]
    · simpa [eval, hx, hy, eval_constant hc, bind, Except.bind] using (hcmp op).2

/-- A literal about a leaf is the same for alike values of the leaf. -/
theorem AboutLeaf.eval_alike {leaf l x y : Formula} {t : SmtSort} {constants : List Formula}
    (h : AboutLeaf leaf l) (hleaf : leaf.HasSort t) (hsort : l.HasSort .bool)
    (hexact : ∀ c a b, l ≠ .binary (.compareArith c) a b)
    (hconstants : ∀ c ∈ l.constants, c ∈ constants) (hlike : Alike t constants x y)
    (hbool : t = .bool → y = x) (hx : leaf.eval σ = .ok x) (hy : leaf.eval τ = .ok y) :
    l.eval σ = l.eval τ := by
  have hsame : t = .bool → leaf.eval σ = leaf.eval τ := fun ht => by rw [hx, hy, hbool ht]
  -- Both sides of a comparison have the sort of the leaf.
  have hsides : ∀ {a b : Formula} {u : SmtSort}, ComparedWith leaf a b → a.HasSort u →
      b.HasSort u → ∀ {c}, c = a ∨ c = b → c.HasSort t := by
    rintro a b u (⟨rfl, -⟩ | ⟨rfl, -⟩) ha hb c (rfl | rfl)
    · exact hleaf
    · exact ha.unique hleaf ▸ hb
    · exact hb.unique hleaf ▸ ha
    · exact hleaf
  cases h with
  | truth => exact hsame (hleaf.unique hsort)
  | falsity =>
      obtain ⟨-, hu⟩ := hasSort_not.mp hsort
      simp [eval, hsame (hleaf.unique hu)]
  | @eq a b h =>
      obtain ⟨u, v, hu, hv, hf⟩ := hasSort_binary.mp hsort
      obtain ⟨rfl, -⟩ := result?_eq.mp hf
      exact (h.apply_congr (hsides h hu hv) hconstants hlike hx hy).1
  | @ne a b h =>
      obtain ⟨u, v, hu, hv, hf⟩ := hasSort_binary.mp (hasSort_not.mp hsort).2
      obtain ⟨rfl, -⟩ := result?_eq.mp hf
      have := (h.apply_congr (hsides h hu hv) hconstants hlike hx hy).1
      rw [Formula.not, eval, eval, this]
  | @compareBits op a b h =>
      obtain ⟨u, v, hu, hv, hf⟩ := hasSort_binary.mp hsort
      obtain ⟨⟨w, rfl, rfl⟩, -⟩ := result?_compareBits.mp hf
      exact (h.apply_congr (hsides h hu hv) hconstants hlike hx hy).2 op
  | @compareArith c a b h => exact absurd rfl (hexact c a b)

/-- A leaf has a value of its sort when the variables do. -/
theorem LeafOf.eval {leaf : Formula} {t : SmtSort} (h : LeafOf vars leaf t)
    (hσ : Assigns σ vars) : ∃ x, leaf.eval σ = .ok x ∧ x.IsValue t := by
  obtain ⟨name, path, s, hpath, hrev, hmem, hsort⟩ := h.path
  obtain ⟨v, hv, hval⟩ := hσ name s hmem
  obtain ⟨x, hx, hxv⟩ := hval.fieldAt? hsort
  exact ⟨x, (eval_leaf hpath).mpr ⟨v, hv, by rwa [hrev]⟩, hxv⟩

/-- **A leaf is decided** when an assignment makes the literals about it true. -/
theorem decideLeaf?_ne_none (hvars : Functional vars) (hrange : ∀ v ∈ vars, v.2.inRange = true)
    {leaf : Formula} {literals : List Formula} {t : SmtSort} (hleaf : LeafOf vars leaf t)
    (ht : t.inRange = true) (hreal : t ≠ .real) (hrecord : ∀ r : Record, t ≠ r.sort)
    (hliterals : ∀ l ∈ literals, Query vars l ∧ AboutLeaf leaf l ∧ l.Every realFree)
    (hσ : Assigns σ vars) (htrue : ∀ l ∈ literals, l.eval σ = .ok (.bool true)) :
    decideLeaf? vars leaf literals ≠ .ok none := by
  intro h
  obtain ⟨x, hx, hxv⟩ := hleaf.eval hσ
  obtain ⟨u, values, hu, hvalues, hfind⟩ := decideLeaf?_eq_ok h
  obtain rfl := sort_agrees hleaf.hasSort hu
  have hconstants := Searchable.constantsAll_isValue fun l hl => (hliterals l hl).1.searchable
  obtain ⟨y, hy, hlike, hbool⟩ := candidates_adequate ht hreal hrecord hxv hconstants hvalues
  have hyv := candidates_isValue ht hconstants hvalues y hy
  have hyeval : leaf.eval (compose vars [(leaf, y)]).assignment = .ok y :=
    eval_compose hvars hrange (by simpa [Writable] using ⟨u, hleaf, hyv⟩) hleaf
      (hyv.ne_make hrecord) (by simp) (by simp)
  have hhold : allHold literals (compose vars [(leaf, y)]) = .ok true := by
    refine allHold_eq_true.mpr fun l hl => ?_
    obtain ⟨hquery, habout, hfree⟩ := hliterals l hl
    rw [← htrue l hl]
    refine (habout.eval_alike hleaf.hasSort hquery.hasSort hfree.self.2 (fun c hc => ?_) hlike
      hbool hx hyeval).symm
    rw [mem_setOf, constantsAll_eq]
    exact List.mem_flatMap.mpr ⟨l, hl, hc⟩
  simpa [hhold] using findM?_eq_none hfind y hy

/-! ## Refuted cubes -/

theorem checkCube_unsat {b : Bounds} {cube : List Formula}
    (h : b.checkCube vars cube = .ok .unsat) :
    ∃ plan : CubePlan, plan.For cube ∧ ∃ g ∈ plan.exact, decideLeaf? vars g.1 g.2 = .ok none := by
  simp only [Bounds.checkCube, bind_eq_ok] at h
  obtain ⟨plan, hplan, decided, hdecided, h⟩ := h
  cases decided with
  | none => exact ⟨plan, ofCube_spec hplan, decideLeaves?_eq_none hdecided⟩
  | some fixed =>
      simp only [bind_eq_ok] at h
      obtain ⟨options, -, h⟩ := h
      exact absurd h search_ne_unsat

theorem checkCubes_unsat {b : Bounds} {sure : Bool} {cubes : List (List Formula)}
    (h : b.checkCubes vars sure cubes = .ok .unsat) :
    sure = true ∧ ∀ cube ∈ cubes, ∃ cube', simplifyAll cube = .ok cube' ∧
      (.bool false ∈ cube' ∨ b.checkCube vars cube' = .ok .unsat) := by
  induction cubes generalizing sure with
  | nil => cases sure <;> simp [Bounds.checkCubes] at h ⊢
  | cons cube cubes ih =>
      simp only [Bounds.checkCubes, bind_eq_ok] at h
      obtain ⟨cube', hcube', h⟩ := h
      split at h
      · next hfalse =>
        obtain ⟨hsure, hrest⟩ := ih h
        exact ⟨hsure, List.forall_mem_cons.mpr ⟨⟨cube', hcube', .inl hfalse⟩, hrest⟩⟩
      · obtain ⟨answer, hanswer, h⟩ := bind_eq_ok.mp h
        cases answer with
        | sat m => simp at h
        | unsat =>
            obtain ⟨hsure, hrest⟩ := ih h
            exact ⟨hsure, List.forall_mem_cons.mpr ⟨⟨cube', hcube', .inr hanswer⟩, hrest⟩⟩
        | unknown => simpa using (ih h).1

/-! ## Flat records -/

/-- A leaf over flat records is a variable or a field of one. -/
theorem leafPath_flat {leaf : Formula} {t : SmtSort} {name : String} {path : List Nat}
    (hs : leaf.HasSort t) (hflat : leaf.Every fun p => p.nodeIsFlat = true)
    (h : leafPath? leaf = some (name, path)) : path.length ≤ 1 := by
  match path with
  | [] => exact Nat.zero_le 1
  | [_] => exact Nat.le_refl 1
  | i :: j :: path =>
      obtain ⟨r, e, rfl, he⟩ := leafPath?_eq_cons.mp h
      obtain ⟨r', e', rfl, -⟩ := leafPath?_eq_cons.mp he
      obtain ⟨u, hu, hget⟩ := hasSort_unary.mp hs
      obtain ⟨rfl, -⟩ := result?_get.mp hget
      -- A field of a flat record has no fields.
      obtain ⟨v, -, hget'⟩ := hasSort_unary.mp hu
      obtain ⟨-, hj⟩ := result?_get.mp hget'
      obtain ⟨field, hfield, hsort⟩ := Option.map_eq_some_iff.mp hj
      have hr' : r'.sort.isFlat = true := (every_unary.mp (every_unary.mp hflat).2).1
      have := List.all_eq_true.mp hr' field (List.mem_of_getElem? hfield)
      simp [hsort, Record.sort, SmtSort.record?] at this

theorem mirrored_of_flat {leaf : Formula} {t : SmtSort} (hs : leaf.HasSort t)
    (hflat : leaf.Every fun p => p.nodeIsFlat = true) : leaf.Mirrored := by
  intro name path hpath
  have := leafPath_flat hs hflat hpath
  match path with
  | [] => rfl
  | [i] => rfl

/-! ## Unsatisfiable assertions -/

/-- The literals of a query without reals are without reals. -/
theorem literals_realFree {e e' : Formula} (hnnf : e.nnf false = .ok e') (hsort : e.HasSort .bool)
    (he : e.Every realFree) : ∀ l ∈ e'.literals, l.Every realFree := by
  refine fun l hl => (nnf_literals_of_hasSort Every.part (fun {e} hcontrary he => ?_)
    hsort he hnnf l hl).2.1
  -- No contrary of a truth value is a real number.
  have hreal : ¬ (negateAtom e).HasSort .real := fun h => by simpa using hcontrary.unique h
  revert hreal
  unfold negateAtom
  split <;> intro hreal
  · next c a b => exact every_binary.mpr ⟨⟨hreal, by simp⟩, (every_binary.mp he).2⟩
  · exact absurd rfl (he.self.2 _ _ _)
  · exact every_unary.mpr ⟨⟨hreal, by simp⟩, he⟩

/-- A query that evaluates to true has a cube all of whose literals do. -/
theorem exists_true_cube {formula normal : Formula} (limit : Nat) (hquery : Query vars formula)
    (hfree : formula.Every realFree) (hnnf : formula.nnf false = .ok normal)
    (htrue : formula.eval σ = .ok (.bool true)) :
    ∃ cube ∈ (normal.cubes? limit).getD [[formula]],
      ∀ l ∈ cube, Query vars l ∧ l.Every realFree ∧ l.eval σ = .ok (.bool true) := by
  cases hc : normal.cubes? limit with
  | none => exact ⟨[formula], by simp, by simpa using ⟨hquery, hfree, htrue⟩⟩
  | some cubes =>
      have hnormal := nnf_of_eval hnnf (fun c a b hp => absurd rfl ((hfree _ hp).2 c a b)) htrue
      obtain ⟨cube, hcube, hall⟩ := (truth_cubes? hc).mp hnormal
      refine ⟨cube, hcube, fun l hl => ?_⟩
      have hmem := mem_literals_of_cubes? hc cube hcube l hl
      obtain ⟨hl', hliteral⟩ := hquery.literals hnnf l hmem
      exact ⟨hl', literals_realFree hnnf hquery.hasSort hfree l hmem, hliteral.eval (hall l hl)⟩

/-- **Refutations are sound.** If the bounds solver answers that well-sorted assertions without
reals, comparisons of numbers and nested records are unsatisfiable, each name of one sort, then no
assignment of values to their variables makes all of them evaluate to true. -/
theorem refutation_sound {b : Bounds} {assertions : List Formula}
    (hsort : ∀ a ∈ assertions, a.HasSort .bool) (hrange : ∀ a ∈ assertions, a.InRange)
    (hvars : Functional (assertions.flatMap occurrences))
    (hreal : ∀ a ∈ assertions, a.Every realFree)
    (hflat : ∀ a ∈ assertions, a.Every fun p => p.nodeIsFlat = true)
    (h : b.check assertions = .ok .unsat) {σ : Assignment}
    (hσ : Assigns σ (assertions.flatMap occurrences)) :
    ¬ ∀ a ∈ assertions, a.eval σ = .ok (.bool true) := by
  intro htrue
  obtain ⟨formula, normal, hsimplify, hnnf, h⟩ := check_eq_ok h
  have hand : (Formula.and assertions).HasSort .bool := hasSort_and.mpr ⟨rfl, hsort⟩
  have hformula : formula.eval σ = .ok (.bool true) :=
    simplify_refines hand hsimplify (eval_and_true.mpr htrue)
  have hfree : formula.Every realFree := by
    refine simplify_every stable_realFree hand hsimplify (every_nary.mpr ⟨?_, hreal⟩)
    exact stable_realFree.connective (.inl rfl)
  have hflat : formula.Every fun p => p.nodeIsFlat = true :=
    simplify_every stable_nodeIsFlat hand hsimplify (every_nary.mpr ⟨rfl, hflat⟩)
  have hformulaSort := simplify_hasSort hand hsimplify
  obtain ⟨hsub, hfunctional, hquery⟩ := query_of_assertions hsort hrange hvars hsimplify <| by
    intro l hl
    obtain ⟨hp, -⟩ := mem_leaves hl
    obtain ⟨t, ht⟩ := hformulaSort.part hp
    exact mirrored_of_flat ht (hflat.part hp)
  obtain ⟨hvars, hrange⟩ := hquery.freeVariables hfunctional
  have hσ : Assigns σ formula.freeVariables.toList := fun name s hs =>
    hσ name s (hsub _ (mem_occurrences.mpr ((mem_freeVariables hfunctional).mp hs)))
  obtain ⟨cube, hcube, hliterals⟩ := exists_true_cube b.maxCubes hquery hfree hnnf hformula
  obtain ⟨-, hall⟩ := checkCubes_unsat h
  obtain ⟨cube', hsimp, hrefuted⟩ := hall cube hcube
  obtain rfl : cube = cube' := Except.ok.inj
    ((Query.simplifyAll_eq fun l hl => (hliterals l hl).1).symm.trans hsimp)
  rcases hrefuted with hfalse | hunsat
  · simpa using (hliterals _ hfalse).2.2
  · obtain ⟨plan, hplan, g, hg, hnone⟩ := checkCube_unsat hunsat
    obtain ⟨t, ht, htrange, hrecord⟩ := hplan.leafOf (fun l hl => (hliterals l hl).1) hg
    have habout : ∀ l ∈ g.2, l ∈ cube ∧ AboutLeaf g.1 l := fun l hl => by
      obtain ⟨hmem, hsimple⟩ := hplan.about g hg l hl
      exact ⟨hmem, (simpleLeaf?_eq_some hsimple).2.1⟩
    have hreal : t ≠ .real := by
      rintro rfl
      obtain ⟨l, hl⟩ := List.exists_mem_of_ne_nil _ (hplan.nonempty g hg)
      obtain ⟨hmem, hlabout⟩ := habout l hl
      have hp := (mem_leaves (hlabout.mem_leaves ht.isLeaf)).1
      exact ((hliterals l hmem).2.1.part hp).self.1 ht.hasSort
    refine decideLeaf?_ne_none hvars hrange ht htrange hreal hrecord (fun l hl => ?_) hσ
      (fun l hl => (hliterals l (habout l hl).1).2.2) hnone
    obtain ⟨hmem, hlabout⟩ := habout l hl
    exact ⟨(hliterals l hmem).1, hlabout, (hliterals l hmem).2.1⟩

/-- A computed answer is a refutation. -/
theorem eq_unsat {answer : Result Answer}
    (h : (match answer with
      | .ok answer => answer.isUnsat
      | _ => false) = true) : answer = .ok .unsat := by
  split at h
  case h_1 answer =>
    cases answer with
    | unsat => rfl
    | sat m => simp [Answer.isUnsat] at h
    | unknown => simp [Answer.isUnsat] at h
  case h_2 => simp at h

/-- A field of a record is above the largest value of its sort. -/
def overflowQuery : Formula :=
  let point : Record := ⟨"Point", [("x", .bool), ("y", .bitVec 8)]⟩
  .binary (.compareBits .sgt) (.unary (.get point 1) (.var "p" point.sort)) (.bits 127 8)

theorem overflowQuery_refuted :
    boundsSolver [overflowQuery] = .ok .unsat ∧ ∀ σ, Assigns σ overflowQuery.occurrences →
      overflowQuery.eval σ ≠ .ok (.bool true) := by
  have hunsat : boundsSolver [overflowQuery] = .ok .unsat := eq_unsat (by decide +kernel)
  refine ⟨hunsat, fun σ hσ htrue => ?_⟩
  refine refutation_sound (b := {}) (by decide) (by decide) (by decide +kernel) (by decide)
    (by decide) hunsat (by simpa using hσ) ?_
  simpa using htrue

end PlayerPaths
