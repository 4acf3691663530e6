import Mathlib.Algebra.Order.BigOperators.GroupWithZero.List
import Mathlib.Algebra.Order.Ring.Nat
import PlayerPaths.Proofs.Solve.Soundness

/-!
# The search is exhaustive

The combinations of candidates are numbered, the candidate of the first leaf counting fastest
(`combinationAt`). Advancing the positions leads from each number to the next
(`nextPositions?_positionsAt`), so a search tries the combinations one after the other, none twice,
and stops at the first that makes all literals true (`search_eq_tryAll`). With enough attempts there
is no combination that it has not tried.
-/

namespace PlayerPaths

open Formula

/-! ## Numbered positions -/

/-- The positions with a number, the first position fastest. -/
def positionsAt : List Nat → Nat → List Nat
  | [], _ => []
  | n :: ns, k => k % n :: positionsAt ns (k / n)

theorem positionsAt_zero (ns : List Nat) : positionsAt ns 0 = ns.map fun _ => 0 := by
  induction ns with
  | nil => rfl
  | cons n ns ih => simp [positionsAt, ih]

/-- The next number is carried over exactly when the last remainder is reached. -/
theorem succ_div_mod {n k : Nat} (hn : 0 < n) :
    if k % n + 1 < n then (k + 1) % n = k % n + 1 ∧ (k + 1) / n = k / n
    else (k + 1) % n = 0 ∧ (k + 1) / n = k / n + 1 := by
  have hk := Nat.div_add_mod k n
  have hlt := Nat.mod_lt k hn
  split
  · next hsmall =>
    have hsucc : k + 1 = (k % n + 1) + n * (k / n) := by omega
    rw [hsucc, Nat.add_mul_mod_self_left, Nat.mod_eq_of_lt hsmall, Nat.add_mul_div_left _ _ hn,
      Nat.div_eq_of_lt hsmall]
    omega
  · have hsucc : k + 1 = n * (k / n + 1) := by
      rw [Nat.mul_add]
      omega
    rw [hsucc, Nat.mul_mod_right, Nat.mul_div_cancel_left _ hn]
    exact ⟨rfl, rfl⟩

/-- Advancing leads to the positions with the next number, until there are no more. -/
theorem nextPositions?_positionsAt {ns : List Nat} (hns : ∀ n ∈ ns, 0 < n) {k : Nat}
    (hk : k < ns.prod) : nextPositions? (positionsAt ns k) ns =
      if k + 1 < ns.prod then some (positionsAt ns (k + 1)) else none := by
  induction ns generalizing k with
  | nil =>
      obtain rfl : k = 0 := by simpa using hk
      rfl
  | cons n ns ih =>
      obtain ⟨hn, hns⟩ := List.forall_mem_cons.mp hns
      rw [List.prod_cons] at hk ⊢
      have hrest : k / n < ns.prod := Nat.div_lt_of_lt_mul hk
      have hstep := succ_div_mod (k := k) hn
      have hbound : k + 1 < n * ns.prod ↔ (k + 1) / n < ns.prod := by
        rw [Nat.div_lt_iff_lt_mul hn, Nat.mul_comm n]
      simp only [positionsAt, nextPositions?, hbound]
      split
      · next hsmall =>
        rw [if_pos hsmall] at hstep
        rw [hstep.1, hstep.2, if_pos hrest]
      · next hlast =>
        rw [if_neg hlast] at hstep
        rw [hstep.1, hstep.2, ih hns hrest]
        split <;> rfl

/-! ## Numbered combinations -/

/-- The candidates that are chosen at some positions. -/
def chosenAt (options : List (Formula × List Formula)) (positions : List Nat) : LeafValues :=
  (options.zip positions).filterMap fun ((leaf, values), i) =>
    values[i]?.map fun value => (leaf, value)

def counts (options : List (Formula × List Formula)) : List Nat :=
  options.map fun (_, values) => values.length

/-- The combination of candidates with a number. -/
def combinationAt (options : List (Formula × List Formula)) (k : Nat) : LeafValues :=
  chosenAt options (positionsAt (counts options) k)

/-- How many combinations there are. -/
def combinations (options : List (Formula × List Formula)) : Nat := (counts options).prod

/-- One candidate for every leaf, in the order of the leaves. -/
def Combines (options : List (Formula × List Formula)) (chosen : LeafValues) : Prop :=
  List.Forall₂ (fun option entry => entry.1 = option.1 ∧ entry.2 ∈ option.2) options chosen

/-- Every leaf has candidates, none of them twice. -/
def Choosable (options : List (Formula × List Formula)) : Prop :=
  ∀ option ∈ options, option.2 ≠ [] ∧ option.2.Nodup

section

variable {options : List (Formula × List Formula)} {leaf : Formula} {values : List Formula}
  {k k' : Nat}

theorem combinationAt_cons (hvalues : 0 < values.length) :
    combinationAt ((leaf, values) :: options) k =
      (leaf, values.get ⟨k % values.length, Nat.mod_lt k hvalues⟩) ::
        combinationAt options (k / values.length) := by
  have hget : values[k % values.length]? =
      some (values.get ⟨k % values.length, Nat.mod_lt k hvalues⟩) :=
    List.getElem?_eq_getElem _
  simp [combinationAt, chosenAt, counts, positionsAt, hget]

theorem Choosable.counts_pos (h : Choosable options) : ∀ n ∈ counts options, 0 < n := by
  intro n hn
  obtain ⟨option, hoption, rfl⟩ := List.mem_map.mp hn
  exact List.length_pos_iff.mpr (h option hoption).1

theorem Choosable.combinations_pos (h : Choosable options) : 0 < combinations options :=
  List.prod_pos h.counts_pos

/-- The leaves of a combination are those that there are candidates for. -/
theorem Choosable.leaves_combinationAt (h : Choosable options) :
    (combinationAt options k).map Prod.fst = options.map Prod.fst := by
  induction options generalizing k with
  | nil => rfl
  | cons option options ih =>
      obtain ⟨leaf, values⟩ := option
      obtain ⟨⟨hne, -⟩, hrest⟩ := List.forall_mem_cons.mp h
      rw [combinationAt_cons (List.length_pos_iff.mpr hne), List.map_cons, List.map_cons, ih hrest]

/-- Different numbers stand for different combinations. -/
theorem Choosable.combinationAt_injective (h : Choosable options) (hk : k < combinations options)
    (hk' : k' < combinations options) (heq : combinationAt options k = combinationAt options k') :
    k = k' := by
  induction options generalizing k k' with
  | nil =>
      simp only [combinations, counts, List.map_nil, List.prod_nil] at hk hk'
      omega
  | cons option options ih =>
      obtain ⟨leaf, values⟩ := option
      obtain ⟨⟨hne, hnodup⟩, hrest⟩ := List.forall_mem_cons.mp h
      have hpos := List.length_pos_iff.mpr hne
      rw [combinationAt_cons hpos, combinationAt_cons hpos] at heq
      obtain ⟨hfirst, htail⟩ := List.cons.inj heq
      have hmod : k % values.length = k' % values.length :=
        hnodup.getElem_inj_iff.mp (Prod.mk.inj hfirst).2
      have hdiv : k / values.length = k' / values.length :=
        ih hrest (Nat.div_lt_of_lt_mul hk) (Nat.div_lt_of_lt_mul hk') htail
      rw [← Nat.div_add_mod k values.length, ← Nat.div_add_mod k' values.length, hmod, hdiv]

/-- Every combination has a number. -/
theorem Choosable.exists_combinationAt (h : Choosable options) {chosen : LeafValues}
    (hchosen : Combines options chosen) :
    ∃ k < combinations options, combinationAt options k = chosen := by
  induction hchosen with
  | nil => exact ⟨0, by simp [combinations, counts], rfl⟩
  | @cons option entry options chosen hentry _ ih =>
      obtain ⟨leaf, values⟩ := option
      obtain ⟨leaf', value⟩ := entry
      obtain rfl : leaf' = leaf := hentry.1
      obtain ⟨i, hi, rfl⟩ : ∃ i, ∃ hi : i < values.length, values[i] = value :=
        List.getElem_of_mem hentry.2
      obtain ⟨⟨hne, -⟩, hrest⟩ := List.forall_mem_cons.mp h
      have hpos := List.length_pos_iff.mpr hne
      obtain ⟨k, hk, rfl⟩ := ih hrest
      have hdiv : (i + values.length * k) / values.length = k := by
        rw [Nat.add_mul_div_left _ _ hpos, Nat.div_eq_of_lt hi, Nat.zero_add]
      have hmod : (i + values.length * k) % values.length = i := by
        rw [Nat.add_mul_mod_self_left, Nat.mod_eq_of_lt hi]
      refine ⟨i + values.length * k, ?_, ?_⟩
      · show _ < values.length * combinations options
        calc i + values.length * k < values.length + values.length * k := by omega
          _ = values.length * (k + 1) := by rw [Nat.mul_add]; omega
          _ ≤ values.length * combinations options := Nat.mul_le_mul_left _ hk
      · simp only [combinationAt_cons hpos, hdiv, hmod, List.get_eq_getElem]

end

/-! ## The search -/

/-- The first model in which all literals hold. -/
def tryAll (searched : List Formula) : List Model → Result Answer
  | [] => return .unknown
  | model :: models => do
    if ← allHold searched model then return .sat model
    tryAll searched models

/-- Without an answer, no model has made the literals true. -/
theorem tryAll_eq_unknown {searched : List Formula} {models : List Model} :
    tryAll searched models = .ok .unknown ↔
      ∀ model ∈ models, allHold searched model = .ok false := by
  induction models with
  | nil => simp [tryAll]
  | cons model models ih =>
      rw [tryAll, bind_eq_ok, List.forall_mem_cons, ← ih]
      constructor
      · rintro ⟨hold, hhold, h⟩
        cases hold with
        | true => simp at h
        | false => exact ⟨hhold, h⟩
      · rintro ⟨hmodel, hmodels⟩
        exact ⟨false, hmodel, hmodels⟩

/-- The assignment of leaves with a number: what is fixed, and a combination of candidates. -/
def assignmentAt (fixed : LeafValues) (options : List (Formula × List Formula)) (k : Nat) :
    LeafValues :=
  sortLeafValues (fixed ++ combinationAt options k)

/-- From some number on, a search tries one assignment after the other. -/
theorem search_eq_tryAll {vars : List (String × SmtSort)} {fixed : LeafValues}
    {options : List (Formula × List Formula)} {searched : List Formula}
    (hoptions : Choosable options) {attempts k : Nat} (hk : k < combinations options) :
    search vars fixed options searched attempts (positionsAt (counts options) k) =
      tryAll searched ((List.range' k (min attempts (combinations options - k))).map fun k =>
        compose vars (assignmentAt fixed options k)) := by
  induction attempts generalizing k with
  | zero => simp [search, tryAll]
  | succ attempts ih =>
      have hcount : min (attempts + 1) (combinations options - k) =
          min attempts (combinations options - (k + 1)) + 1 := by omega
      have hnext : nextPositions? (positionsAt (counts options) k) (counts options) =
          if k + 1 < combinations options then some (positionsAt (counts options) (k + 1))
          else none :=
        nextPositions?_positionsAt hoptions.counts_pos hk
      rw [hcount, List.range'_succ, List.map_cons, tryAll, search]
      refine bind_congr_of_ok fun hold _ => ?_
      cases hold with
      | true => rfl
      | false =>
          simp only [Bool.false_eq_true, if_false]
          by_cases hmore : k + 1 < combinations options
          · rw [if_pos hmore] at hnext
            split
            · next positions hpositions =>
              obtain rfl := Option.some.inj (hnext.symm.trans hpositions)
              exact ih hmore
            · next hpositions => cases hnext.symm.trans hpositions
          · rw [if_neg hmore] at hnext
            have hnone : min attempts (combinations options - (k + 1)) = 0 := by omega
            rw [hnone]
            split
            · next positions hpositions => cases hnext.symm.trans hpositions
            · rfl

/-! ## The search for a cube -/

/-- The leaves that a plan leaves open, with the candidates for them. -/
def CubePlan.options (plan : CubePlan) : Result (List (Formula × List Formula)) :=
  plan.open.mapM fun leaf => do
    return (leaf, ← candidates (← leaf.sort) (setOf (constantsAll plan.searched)))

theorem nodup_setOf (es : List Formula) : (setOf es).Nodup :=
  (Sorted.increasing_ofList es).nodup

theorem setOf_choosable {e : Formula} {es : List Formula} (h : e ∈ es) :
    setOf es ≠ [] ∧ (setOf es).Nodup :=
  ⟨List.ne_nil_of_mem (mem_setOf.mpr h), nodup_setOf es⟩

/-- There are candidates for every sort, none of them twice. -/
theorem candidates_choosable {s : SmtSort} {constants values : List Formula}
    (h : candidates s constants = .ok values) : values ≠ [] ∧ values.Nodup := by
  cases s with
  | bool =>
      obtain rfl : [.bool false, .bool true] = values := by simpa [candidates] using h
      decide
  | bitVec width =>
      obtain ⟨points, hpoints, h⟩ := bind_eq_ok.mp h
      obtain rfl := pure_eq_ok.mp h
      rw [bitCandidates_eq_ok hpoints]
      exact setOf_choosable (List.mem_map_of_mem (List.mem_append_left _ List.mem_cons_self))
  | int =>
      obtain rfl := pure_eq_ok.mp h
      exact setOf_choosable List.mem_cons_self
  | real =>
      obtain rfl := pure_eq_ok.mp h
      exact setOf_choosable (List.mem_map_of_mem List.mem_cons_self)
  | string =>
      obtain rfl := pure_eq_ok.mp h
      exact setOf_choosable List.mem_cons_self
  | record name fields =>
      obtain ⟨records, hrecords, h⟩ := bind_eq_ok.mp h
      obtain rfl := pure_eq_ok.mp h
      obtain ⟨others, -, rfl⟩ := map_eq_ok.mp hrecords
      exact setOf_choosable List.mem_cons_self

section

variable {plan : CubePlan} {cube : List Formula} {options : List (Formula × List Formula)}
  {vars : List (String × SmtSort)} {fixed : LeafValues}

/-- The open leaves of a plan have candidates. -/
theorem options_choosable (h : plan.options = .ok options) :
    Choosable options ∧ options.map Prod.fst = plan.open := by
  have hmatched := mapM_eq_ok.mp h
  constructor
  · intro option hoption
    obtain ⟨leaf, -, hleaf⟩ := forall₂_exists_of_mem_right hmatched hoption
    simp only [bind_eq_ok, pure_eq_ok] at hleaf
    obtain ⟨t, -, values, hvalues, rfl⟩ := hleaf
    exact candidates_choosable hvalues
  · rw [← List.forall₂_eq_eq_eq, List.forall₂_map_left_iff]
    refine hmatched.flip.imp fun option leaf hleaf => ?_
    simp only [bind_eq_ok, pure_eq_ok] at hleaf
    obtain ⟨t, -, values, -, rfl⟩ := hleaf
    rfl

theorem ofCube_open_nodup (h : CubePlan.ofCube cube = .ok plan) : plan.open.Nodup := by
  obtain ⟨⟨simple, rest⟩, -, h⟩ := bind_eq_ok.mp h
  obtain rfl := pure_eq_ok.mp h
  exact nodup_setOf _

/-- Values of the same leaves in another order are the same values in the same order. -/
theorem leafValues_eq_of_perm {l l' : LeafValues} (hperm : l.Perm l')
    (hleaves : l.map Prod.fst = l'.map Prod.fst) (hnodup : (l.map Prod.fst).Nodup) : l = l' := by
  induction l generalizing l' with
  | nil => exact hperm.nil_eq
  | cons e l ih =>
      cases l' with
      | nil => exact hperm.eq_nil
      | cons e' l' =>
          rw [List.map_cons, List.map_cons, List.cons.injEq] at hleaves
          rw [List.map_cons, List.nodup_cons] at hnodup
          obtain ⟨hleaf, hleaves⟩ := hleaves
          rcases List.mem_cons.mp (hperm.mem_iff.mp List.mem_cons_self) with rfl | hmem
          · rw [ih ((List.perm_cons e).mp hperm) hleaves hnodup.2]
          · -- The first leaf would stand behind itself.
            have hbehind := List.mem_map_of_mem (f := Prod.fst) hmem
            rw [← hleaves] at hbehind
            exact absurd hbehind hnodup.1

theorem assignmentAt_perm (fixed : LeafValues) (options : List (Formula × List Formula)) (k : Nat) :
    (assignmentAt fixed options k).Perm (fixed ++ combinationAt options k) :=
  sortLeafValues_perm _

/-- The assignments that a search tries. -/
def tried (attempts : Nat) (fixed : LeafValues) (options : List (Formula × List Formula)) :
    List LeafValues :=
  (List.range (min attempts (combinations options))).map (assignmentAt fixed options)

/-- No assignment is tried twice. -/
theorem tried_nodup (hoptions : Choosable options) (hleaves : (options.map Prod.fst).Nodup)
    (attempts : Nat) : (tried attempts fixed options).Nodup := by
  refine List.Nodup.map_on (fun k hk k' hk' heq => ?_) List.nodup_range
  rw [List.mem_range] at hk hk'
  have hperm : (fixed ++ combinationAt options k).Perm (fixed ++ combinationAt options k') :=
    (assignmentAt_perm fixed options k).symm.trans (heq ▸ assignmentAt_perm fixed options k')
  refine hoptions.combinationAt_injective (by omega) (by omega) ?_
  refine leafValues_eq_of_perm ((List.perm_append_left_iff _).mp hperm) ?_ ?_
  · rw [hoptions.leaves_combinationAt, hoptions.leaves_combinationAt]
  · rwa [hoptions.leaves_combinationAt]

/-- An assignment gives every leaf one value. -/
theorem assignmentAt_nodup (hplan : CubePlan.ofCube cube = .ok plan)
    (hfixed : decideLeaves? vars plan.exact = .ok (some fixed))
    (hoptions : plan.options = .ok options) (k : Nat) :
    ((assignmentAt fixed options k).map Prod.fst).Nodup := by
  have hspec := ofCube_spec hplan
  obtain ⟨hchoosable, hopen⟩ := options_choosable hoptions
  rw [((assignmentAt_perm _ _ k).map _).nodup_iff, List.map_append, decideLeaves?_leaves hfixed,
    hchoosable.leaves_combinationAt, hopen]
  refine List.nodup_append.mpr ⟨hspec.nodup, ofCube_open_nodup hplan, ?_⟩
  rintro leaf hleaf _ hleaf' rfl
  obtain ⟨g, hg, rfl⟩ := List.mem_map.mp hleaf
  exact hspec.apart g hg hleaf'

/-- The answer for a cube with values for the decided leaves is that of the search. -/
theorem checkCube_eq_tryAll {b : Bounds} (hplan : CubePlan.ofCube cube = .ok plan)
    (hfixed : decideLeaves? vars plan.exact = .ok (some fixed))
    (hoptions : plan.options = .ok options) : b.checkCube vars cube =
      tryAll plan.searched ((tried b.maxAttempts fixed options).map (compose vars)) := by
  have hchoosable := (options_choosable hoptions).1
  have hsearch : b.checkCube vars cube = search vars fixed options plan.searched b.maxAttempts
      (positionsAt (counts options) 0) := by
    rw [Bounds.checkCube, hplan]
    change decideLeaves? vars plan.exact >>= _ = _
    rw [hfixed]
    change plan.options >>= _ = _
    rw [hoptions, positionsAt_zero, counts, List.map_map]
    rfl
  rw [hsearch, search_eq_tryAll hchoosable hchoosable.combinations_pos, tried, List.map_map,
    List.range_eq_range']
  rfl

/-- **The search for a cube is exhaustive.** It tries assignments of one value to each leaf, the
fixed values among them, and none of them twice; the first that makes all searched literals true is
the answer. When there are no more combinations of candidates than attempts, the answer is unknown
only if no combination makes all searched literals true. -/
theorem checkCube_exhausts {b : Bounds} (hplan : CubePlan.ofCube cube = .ok plan)
    (hfixed : decideLeaves? vars plan.exact = .ok (some fixed))
    (hoptions : plan.options = .ok options) :
    b.checkCube vars cube =
        tryAll plan.searched ((tried b.maxAttempts fixed options).map (compose vars)) ∧
      (tried b.maxAttempts fixed options).Nodup ∧
      (∀ assignment ∈ tried b.maxAttempts fixed options, (assignment.map Prod.fst).Nodup) ∧
      ((options.map fun option => option.2.length).prod ≤ b.maxAttempts →
        b.checkCube vars cube = .ok .unknown → ∀ chosen, Combines options chosen →
          ¬ ∀ l ∈ plan.searched,
            (compose vars (sortLeafValues (fixed ++ chosen))).eval l = .ok (.bool true)) := by
  obtain ⟨hchoosable, hopen⟩ := options_choosable hoptions
  have hsearch := checkCube_eq_tryAll (b := b) hplan hfixed hoptions
  refine ⟨hsearch, tried_nodup hchoosable (hopen ▸ ofCube_open_nodup hplan) _, ?_, ?_⟩
  · intro assignment hassignment
    obtain ⟨k, -, rfl⟩ := List.mem_map.mp hassignment
    exact assignmentAt_nodup hplan hfixed hoptions k
  · intro henough hunknown chosen hchosen hall
    obtain ⟨k, hk, rfl⟩ := hchoosable.exists_combinationAt hchosen
    have hmem : assignmentAt fixed options k ∈ tried b.maxAttempts fixed options :=
      List.mem_map_of_mem (List.mem_range.mpr (lt_min (hk.trans_le henough) hk))
    have hfalse := tryAll_eq_unknown.mp (hsearch ▸ hunknown) _ (List.mem_map_of_mem hmem)
    rw [assignmentAt, allHold_eq_true.mpr hall] at hfalse
    cases hfalse

end

/-- Two variables with the same value and with different ones, and a third that has to hold. -/
def clash : List Formula :=
  [.eq (.var "a" .bool) (.var "b" .bool), .not (.eq (.var "a" .bool) (.var "b" .bool)),
    .var "c" .bool]

def clashVars : List (String × SmtSort) := [("a", .bool), ("b", .bool), ("c", .bool)]

/-- The third variable is decided, and the others are searched for. -/
def clashPlan : CubePlan where
  exact := [(.var "c" .bool, [.var "c" .bool])]
  «open» := [.var "a" .bool, .var "b" .bool]
  searched := [.eq (.var "a" .bool) (.var "b" .bool), .not (.eq (.var "a" .bool) (.var "b" .bool))]

theorem allHold_clash (m : Model) : allHold clashPlan.searched m = .ok false := by
  have heq : m.eval (.eq (.var "a" .bool) (.var "b" .bool)) = .error .undefined ∨
      ∃ t, m.eval (.eq (.var "a" .bool) (.var "b" .bool)) = .ok (.bool t) := by
    simp only [Model.eval, eval]
    cases m.assignment "a" with
    | none => exact .inl rfl
    | some x =>
        cases m.assignment "b" with
        | none => exact .inl rfl
        | some y => exact .inr ⟨_, rfl⟩
  have hnot : m.eval (.not (.eq (.var "a" .bool) (.var "b" .bool))) =
      m.eval (.eq (.var "a" .bool) (.var "b" .bool)) >>= UnaryFunction.not.apply := by
    simp only [Model.eval, eval]
  simp only [clashPlan, allHold, hnot]
  rcases heq with h | ⟨t, h⟩
  · rw [h]
    rfl
  · rw [h]
    cases t <;> rfl

theorem checkCube_exhausts_clash : ∃ fixed options, CubePlan.ofCube clash = .ok clashPlan ∧
    decideLeaves? clashVars clashPlan.exact = .ok (some fixed) ∧
    clashPlan.options = .ok options ∧ (options.map fun option => option.2.length).prod = 4 ∧
    (tried 4096 fixed options).Nodup ∧ Bounds.checkCube {} clashVars clash = .ok .unknown ∧
    ∀ chosen, Combines options chosen → ¬ ∀ l ∈ clashPlan.searched,
      (compose clashVars (sortLeafValues (fixed ++ chosen))).eval l = .ok (.bool true) := by
  have hplan : CubePlan.ofCube clash = .ok clashPlan := rfl
  have hfixed : decideLeaves? clashVars clashPlan.exact =
      .ok (some [(.var "c" .bool, .bool true)]) := by
    decide +kernel
  have hoptions : clashPlan.options = .ok [(.var "a" .bool, [.bool false, .bool true]),
      (.var "b" .bool, [.bool false, .bool true])] := rfl
  obtain ⟨hsearch, hnodup, -, hexhausts⟩ := checkCube_exhausts (b := {}) hplan hfixed hoptions
  have hunknown : Bounds.checkCube {} clashVars clash = .ok .unknown := by
    rw [hsearch, tryAll_eq_unknown]
    exact fun m _ => allHold_clash m
  exact ⟨_, _, hplan, hfixed, hoptions, rfl, hnodup, hunknown, hexhausts (by decide) hunknown⟩

end PlayerPaths
