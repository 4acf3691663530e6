import PlayerPaths.Proofs.Execution.Steps
import PlayerPaths.Proofs.Formula.Truth

/-!
# Branches

The cases of a branch exclude each other (`branchCases_contrary`): the condition and its negation,
or the constants of a switch and everything else. When all conditions have truth values, one of them
is true (`branchCases_exhaustive`). What a branch makes of a state is said once (`branch_into`): a
state forks into one state per case that is kept, each of which assumes the condition of its case
(`branch_cases`).
-/

namespace PlayerPaths

open IL Formula

variable {D : Type} {σ : Assignment}

/-- Two conditions are never both true once they are simplified. -/
def Formula.Contrary (σ : Assignment) (a b : Formula) : Prop :=
  a.verdict σ = some true → b.verdict σ ≠ some true

theorem Formula.Contrary.symm {a b : Formula} (h : Contrary σ a b) : Contrary σ b a :=
  fun hb ha => h ha hb

namespace Machine

variable {m : Machine D} {s t : State D} {cases : List BranchCase}

/-! ## Switches -/

/-- The condition of a value being one of some constants. -/
def hit (value : Formula) (constants : List Formula) : Formula := .or (constants.map (.eq value))

/-- The condition of a value being none of some constants. -/
def miss (value : Formula) (constants : List Formula) : Formula :=
  .and (constants.map fun k => .not (.eq value k))

theorem caseConditions_eq_ok {value hit' : Formula} {misses : List Formula} {values : List Int}
    (h : caseConditions value values = .ok (hit', misses)) :
    ∃ t constants, value.sort = .ok t ∧ values.mapM t.numeral = .ok constants ∧
      hit' = hit value constants ∧ misses = constants.map fun k => .not (.eq value k) := by
  simp only [caseConditions, bind_eq_ok, pure_eq_ok, Prod.mk.injEq] at h
  obtain ⟨t, ht, tests, htests, f, hf, rfl, rfl⟩ := h
  obtain ⟨-, rfl⟩ := Build.or_eq_ok.mp hf
  obtain ⟨constants, hconstants, hmap⟩ : ∃ constants, values.mapM t.numeral = .ok constants ∧
      tests = constants.map fun k => (Formula.eq value k, Formula.not (.eq value k)) := by
    rw [mapM_eq_ok] at htests
    clear hf
    induction htests with
    | nil => exact ⟨[], rfl, rfl⟩
    | @cons i test values tests hi _ ih =>
        simp only [bind_eq_ok, pure_eq_ok] at hi
        obtain ⟨k, hk, e, he, n, hn, rfl⟩ := hi
        obtain ⟨-, rfl⟩ := Build.eq_eq_ok.mp he
        obtain ⟨-, rfl⟩ := Build.ne_eq_ok.mp hn
        obtain ⟨constants, hconstants, rfl⟩ := ih
        refine ⟨k :: constants, ?_, rfl⟩
        rw [mapM_eq_ok] at hconstants ⊢
        exact .cons hk hconstants
  refine ⟨t, constants, ht, hconstants, ?_, ?_⟩
  · simp [hit, hmap, Function.comp_def]
  · simp [hmap, Function.comp_def]

/-- The conditions of a switch: one hit per case, and the miss of all constants. -/
theorem switchCases_eq_ok {b : Body} {value : Formula} {switch : List SwitchCase} {default : Nat}
    (h : switchCases b value switch default = .ok cases) :
    ∃ groups, List.Forall₂ (fun case group => ∃ t, value.sort = .ok t ∧
        case.values.mapM t.numeral = .ok group) switch groups ∧
      cases.map BranchCase.condition = groups.map (hit value) ++ [miss value groups.flatten] := by
  simp only [switchCases, bind_eq_ok, pure_eq_ok] at h
  obtain ⟨tests, htests, missed, hmissed, rfl⟩ := h
  obtain ⟨-, rfl⟩ := Build.and_eq_ok.mp hmissed
  obtain ⟨groups, hgroups, hhits, hmisses⟩ : ∃ groups,
      List.Forall₂ (fun case group => ∃ t, value.sort = .ok t ∧
        case.values.mapM t.numeral = .ok group) switch groups ∧
      (tests.map Prod.fst).map BranchCase.condition = groups.map (hit value) ∧
      tests.flatMap Prod.snd = groups.flatten.map fun k => .not (.eq value k) := by
    rw [mapM_eq_ok] at htests
    clear hmissed
    induction htests with
    | nil => exact ⟨[], .nil, rfl, rfl⟩
    | cons htest _ ih =>
        simp only [bind_eq_ok, pure_eq_ok] at htest
        obtain ⟨⟨hit', misses⟩, hconditions, rfl⟩ := htest
        obtain ⟨t, group, ht, hgroup, rfl, rfl⟩ := caseConditions_eq_ok hconditions
        obtain ⟨groups, hgroups, hhits, hmisses⟩ := ih
        refine ⟨group :: groups, .cons ⟨t, ht, hgroup⟩ hgroups, ?_, ?_⟩
        · simp only [List.map_cons, hhits]
        · simp only [List.flatMap_cons, hmisses, List.flatten_cons, List.map_append]
  refine ⟨groups, hgroups, ?_⟩
  rw [List.map_append, hhits, List.map_singleton, hmisses]
  rfl

/-- The constants of all cases are those that the switch compares with. -/
theorem mapM_numeral_flatten {value : Formula} {t : SmtSort} {switch : List SwitchCase}
    {groups : List (List Formula)} (ht : value.sort = .ok t)
    (h : List.Forall₂ (fun case group => ∃ t, value.sort = .ok t ∧
      case.values.mapM t.numeral = .ok group) switch groups) :
    (switch.flatMap SwitchCase.values).mapM t.numeral = .ok groups.flatten := by
  rw [mapM_eq_ok]
  induction h with
  | nil => exact .nil
  | cons hgroup _ ih =>
      obtain ⟨u, hu, hgroup⟩ := hgroup
      obtain rfl : t = u := Except.ok.inj (ht.symm.trans hu)
      exact List.rel_append (mapM_eq_ok.mp hgroup) ih

/-- Different constants are hit under different conditions. -/
theorem hit_contrary {value : Formula} {group group' : List Formula}
    (hlit : ∀ k ∈ group ++ group', ∃ l, k = .lit l) (hdisjoint : List.Disjoint group group') :
    Contrary σ (hit value group) (hit value group') := by
  intro h h'
  obtain ⟨_, hmem, hk⟩ := verdict_or h
  obtain ⟨_, hmem', hk'⟩ := verdict_or h'
  obtain ⟨k, hkg, rfl⟩ := List.mem_map.mp hmem
  obtain ⟨k', hkg', rfl⟩ := List.mem_map.mp hmem'
  obtain ⟨l, rfl⟩ := hlit k (List.mem_append_left _ hkg)
  obtain ⟨l', rfl⟩ := hlit k' (List.mem_append_right _ hkg')
  obtain rfl := verdict_eq_unique hk hk'
  exact hdisjoint hkg hkg'

theorem hit_miss_contrary {value : Formula} {group constants : List Formula}
    (hsub : group ⊆ constants) : Contrary σ (hit value group) (miss value constants) := by
  intro h h'
  obtain ⟨_, hmem, hk⟩ := verdict_or h
  obtain ⟨k, hkg, rfl⟩ := List.mem_map.mp hmem
  have hnot := verdict_and h' _ (List.mem_map.mpr ⟨k, hsub hkg, rfl⟩)
  rw [verdict_not hnot] at hk
  simp at hk

/-- The conditions of a switch with distinct constants exclude each other. -/
theorem switch_contrary {value : Formula} {groups : List (List Formula)}
    (hlit : ∀ k ∈ groups.flatten, ∃ l, k = .lit l) (hnodup : groups.flatten.Nodup) :
    (groups.map (hit value) ++ [miss value groups.flatten]).Pairwise (Contrary σ) := by
  refine List.pairwise_append.mpr ⟨?_, List.pairwise_singleton _ _, ?_⟩
  · rw [List.pairwise_map]
    have hdisjoint := (List.pairwise_flatten.mp hnodup).2
    refine hdisjoint.imp_of_mem fun {g g'} hg hg' hd =>
      hit_contrary ?_ fun k hk hk' => hd k hk k hk' rfl
    intro k hk
    rcases List.mem_append.mp hk with hk | hk
    · exact hlit k (List.mem_flatten_of_mem hg hk)
    · exact hlit k (List.mem_flatten_of_mem hg' hk)
  · intro a ha b hb
    obtain ⟨g, hg, rfl⟩ := List.mem_map.mp ha
    obtain rfl := List.mem_singleton.mp hb
    exact hit_miss_contrary fun k hk => List.mem_flatten_of_mem hg hk

/-- When every test of a switch has a truth value, one of its conditions is true. -/
theorem switch_exhaustive {value : Formula} {groups : List (List Formula)}
    (hbool : ∀ c ∈ groups.map (hit value) ++ [miss value groups.flatten],
      ∃ b, c.eval σ = .ok (.bool b)) :
    ∃ c ∈ groups.map (hit value) ++ [miss value groups.flatten], c.eval σ = .ok (.bool true) := by
  by_cases hall : ∀ g ∈ groups, (hit value g).eval σ = .ok (.bool false)
  · -- Nothing is hit, so every test of the miss is true.
    refine ⟨miss value groups.flatten, by simp, ?_⟩
    obtain ⟨b, hb⟩ := hbool (miss value groups.flatten) (by simp)
    cases b with
    | true => exact hb
    | false =>
        exfalso
        obtain ⟨_, ⟨⟩, hjunction⟩ := (eval_junction_eq_ok (.inl rfl)).mp hb
        obtain ⟨_, hmem, hfalse⟩ := hjunction.exists_decided
        obtain ⟨k, hk, rfl⟩ := List.mem_map.mp hmem
        obtain ⟨c, hc, heq⟩ := eval_not_eq_ok.mp hfalse
        obtain rfl : true = c := by simpa [neutral] using heq
        obtain ⟨g, hg, hkg⟩ := List.mem_flatten.mp hk
        obtain ⟨_, ⟨⟩, hjunction⟩ := (eval_junction_eq_ok (.inr rfl)).mp (hall g hg)
        have hmiss := hjunction.2.mp rfl (.eq value k) (List.mem_map.mpr ⟨k, hkg, rfl⟩)
        rw [hc] at hmiss
        simp [neutral] at hmiss
  · push Not at hall
    obtain ⟨g, hg, hne⟩ := hall
    have hmem : hit value g ∈ groups.map (hit value) ++ [miss value groups.flatten] :=
      List.mem_append_left _ (List.mem_map_of_mem hg)
    obtain ⟨b, hb⟩ := hbool _ hmem
    cases b with
    | true => exact ⟨_, hmem, hb⟩
    | false => exact absurd hb hne

/-! ## The cases of a branch -/

/-- A branch is made on a condition, or on the constants of a switch. -/
theorem branchCases_cases (h : m.branchCases s = .ok cases) :
    cases = [] ∨
    (∃ c n target next, (s.WellSorted → c.HasSort .bool) ∧ Build.not c = .ok n ∧
      cases = [⟨c, target⟩, ⟨n, next⟩]) ∨
    ∃ b value switch default, (s.WellSorted → value.WellSorted) ∧
      switchCases b value switch default = .ok cases ∧
      ∀ t, value.sort = .ok t →
        m.switchConstants s = (switch.flatMap SwitchCase.values).mapM t.numeral := by
  simp only [branchCases, bind_eq_ok] at h
  obtain ⟨ready, hready, h⟩ := h
  cases ready with
  | none => exact .inl (Except.ok.inj h).symm
  | some ready =>
      obtain ⟨f, o⟩ := ready
      simp only [bind_eq_ok] at h
      obtain ⟨b, hb, v, hv, h⟩ := h
      cases o with
      | branchIf e target =>
          simp only [bind_eq_ok, pure_eq_ok] at h
          obtain ⟨c, hc, n, hn, rfl⟩ := h
          refine .inr (.inl ⟨c, n, _, _, fun hs => ?_, hn, rfl⟩)
          exact Evaluator.condition_hasSort (hs.evaluator hv) hc
      | switch e switch default =>
          simp only [bind_eq_ok] at h
          obtain ⟨value, hvalue, h⟩ := h
          refine .inr (.inr ⟨b, value, switch, default, fun hs => ?_, h, fun t ht => ?_⟩)
          · exact Evaluator.value_wellSorted (hs.evaluator hv) 0 e hvalue
          · simp [switchConstants, hready, hv, hvalue, ht, Bind.bind, Except.bind]
      | _ => exact .inl (Except.ok.inj h).symm

/-- The constants of a switch are literals, and distinct when the switch says so. -/
theorem groups_nodup {value : Formula} {switch : List SwitchCase} {groups : List (List Formula)}
    (hswitch : ∀ constants, m.switchConstants s = .ok constants → constants.Nodup)
    (hconstants : ∀ t, value.sort = .ok t →
      m.switchConstants s = (switch.flatMap SwitchCase.values).mapM t.numeral)
    (hgroups : List.Forall₂ (fun case group => ∃ t, value.sort = .ok t ∧
      case.values.mapM t.numeral = .ok group) switch groups) :
    (∀ k ∈ groups.flatten, ∃ l, k = .lit l) ∧ groups.flatten.Nodup := by
  cases hgroups with
  | nil => simp
  | @cons case group switch groups hgroup hrest =>
      obtain ⟨t, ht, hgroup⟩ := hgroup
      have hall := mapM_numeral_flatten ht (.cons ⟨t, ht, hgroup⟩ hrest)
      refine ⟨fun k hk => ?_, hswitch _ ((hconstants t ht).trans hall)⟩
      obtain ⟨i, -, hi⟩ := mem_of_mapM_eq_ok hall hk
      exact (SmtSort.numeral_eq_ok hi).2

/-- **The cases of a branch exclude each other.** -/
theorem branchCases_contrary (h : m.branchCases s = .ok cases)
    (hswitch : ∀ constants, m.switchConstants s = .ok constants → constants.Nodup) :
    cases.Pairwise fun a b => Contrary σ a.condition b.condition := by
  rw [← List.pairwise_map]
  rcases branchCases_cases h with rfl | ⟨c, n, target, next, -, hn, rfl⟩ |
    ⟨b, value, switch, default, -, hcases, hconstants⟩
  · exact .nil
  · obtain ⟨-, rfl⟩ := Build.not_eq_ok.mp hn
    refine List.pairwise_pair.mpr fun hc hnot => ?_
    rw [verdict_not hnot] at hc
    simp at hc
  · obtain ⟨groups, hgroups, heq⟩ := switchCases_eq_ok hcases
    obtain ⟨hlit, hnodup⟩ := groups_nodup hswitch hconstants hgroups
    rw [heq]
    exact switch_contrary hlit hnodup

/-- **The cases of a branch leave nothing out**: when each condition has a truth value, one of them
is true. -/
theorem branchCases_exhaustive (h : m.branchCases s = .ok cases) (hne : cases ≠ [])
    (hbool : ∀ case ∈ cases, ∃ b, case.condition.eval σ = .ok (.bool b)) :
    ∃ case ∈ cases, case.condition.eval σ = .ok (.bool true) := by
  rcases branchCases_cases h with rfl | ⟨c, n, target, next, -, hn, rfl⟩ |
    ⟨b, value, switch, default, -, hcases, -⟩
  · exact absurd rfl hne
  · obtain ⟨-, rfl⟩ := Build.not_eq_ok.mp hn
    obtain ⟨b, hb⟩ := hbool ⟨c, target⟩ (by simp)
    cases b with
    | true => exact ⟨_, by simp, hb⟩
    | false => exact ⟨⟨.not c, next⟩, by simp, eval_not_eq_ok.mpr ⟨false, hb, rfl⟩⟩
  · obtain ⟨groups, -, heq⟩ := switchCases_eq_ok hcases
    have hbool : ∀ c ∈ cases.map BranchCase.condition, ∃ b, c.eval σ = .ok (.bool b) := by
      rw [List.forall_mem_map]
      exact hbool
    rw [heq] at hbool
    obtain ⟨c, hc, htrue⟩ := switch_exhaustive hbool
    rw [← heq] at hc
    obtain ⟨case, hcase, rfl⟩ := List.mem_map.mp hc
    exact ⟨case, hcase, htrue⟩

/-- The conditions of a branch are truth values. -/
theorem branchCases_hasSort (hs : s.WellSorted) (h : m.branchCases s = .ok cases) :
    ∀ case ∈ cases, case.condition.HasSort .bool := by
  rcases branchCases_cases h with rfl | ⟨c, n, target, next, hc, hn, rfl⟩ |
    ⟨b, value, switch, default, hvalue, hcases, -⟩
  · simp
  · refine List.forall_mem_cons.mpr ⟨hc hs, List.forall_mem_singleton.mpr ?_⟩
    exact Build.not_hasSort (hc hs).wellSorted hn
  · obtain ⟨groups, hgroups, heq⟩ := switchCases_eq_ok hcases
    have htest : ∀ g ∈ groups, ∀ k ∈ g, (Formula.eq value k).HasSort .bool := by
      intro g hg k hk
      obtain ⟨case, -, t, ht, hgroup⟩ := forall₂_exists_of_mem_right hgroups hg
      obtain ⟨i, -, hi⟩ := mem_of_mapM_eq_ok hgroup hk
      exact hasSort_binary.mpr
        ⟨t, t, (hvalue hs).hasSort ht, (SmtSort.numeral_eq_ok hi).1, by simp⟩
    suffices hall : ∀ c ∈ cases.map BranchCase.condition, c.HasSort .bool by
      intro case hcase
      exact hall _ (List.mem_map_of_mem hcase)
    rw [heq]
    intro c hc
    rcases List.mem_append.mp hc with hc | hc
    · obtain ⟨g, hg, rfl⟩ := List.mem_map.mp hc
      refine hasSort_or.mpr ⟨rfl, ?_⟩
      rw [List.forall_mem_map]
      exact htest g hg
    · obtain rfl := List.mem_singleton.mp hc
      refine hasSort_and.mpr ⟨rfl, ?_⟩
      rw [List.forall_mem_map]
      intro k hk
      obtain ⟨g, hg, hk⟩ := List.mem_flatten.mp hk
      exact hasSort_unary.mpr ⟨.bool, htest g hg k hk, by simp⟩

end Machine

/-! ## Assumptions -/

namespace State

variable {s t : State D} {c : Formula}

/-- An assignment makes everything true that a state assumes. -/
def Holds (σ : Assignment) (s : State D) : Prop := ∀ c ∈ s.condition, c.eval σ = .ok (.bool true)

instance (σ : Assignment) (s : State D) : Decidable (s.Holds σ) :=
  inferInstanceAs (Decidable (∀ c ∈ s.condition, c.eval σ = .ok (.bool true)))

theorem Holds.of_subset (h : t.Holds σ) (hsub : s.condition ⊆ t.condition) : s.Holds σ :=
  fun c hc => h c (hsub hc)

theorem Quiet.holds (h : s.Quiet t) : t.Holds σ ↔ s.Holds σ := by
  rw [Holds, Holds, h.condition]

/-- What is trivially true is not kept. -/
theorem assume_eq_ok (h : s.assume c = .ok t) :
    ∃ c', c.simplify = .ok c' ∧
      (c' = .bool true ∧ t = s ∨ t = { s with condition := s.condition ++ [c'] }) := by
  simp only [assume, bind_eq_ok] at h
  obtain ⟨c', hc', h⟩ := h
  refine ⟨c', hc', ?_⟩
  by_cases htrue : c' = .bool true
  · obtain rfl : s = t := by simpa [htrue] using h
    exact .inl ⟨htrue, rfl⟩
  · obtain rfl : { s with condition := s.condition ++ [c'] } = t := by simpa [htrue] using h
    exact .inr rfl

theorem assume_subset (h : s.assume c = .ok t) : s.condition ⊆ t.condition := by
  obtain ⟨c', -, ⟨-, rfl⟩ | rfl⟩ := assume_eq_ok h
  · exact List.Subset.refl _
  · exact List.subset_append_left _ _

/-- Assuming a condition restricts a state to where the simplified condition is true. -/
theorem holds_assume (h : s.assume c = .ok t) {c' : Formula} (hc' : c.simplify = .ok c') :
    t.Holds σ ↔ s.Holds σ ∧ c'.eval σ = .ok (.bool true) := by
  obtain ⟨d, hd, ht⟩ := assume_eq_ok h
  obtain rfl : d = c' := Except.ok.inj (hd.symm.trans hc')
  rcases ht with ⟨rfl, rfl⟩ | rfl
  · simp
  · simp only [Holds, List.forall_mem_append, List.forall_mem_singleton]

/-- A state that assumes a condition holds only if the verdict on the condition is true. -/
theorem verdict_of_assume (h : s.assume c = .ok t) (ht : t.Holds σ) : c.verdict σ = some true := by
  obtain ⟨c', hc', -⟩ := assume_eq_ok h
  exact verdict_of_eval hc' ((holds_assume h hc').mp ht).2

end State

/-! ## Forks -/

namespace Machine

open State

variable {m : Machine D} {s : State D} {cases kept : List BranchCase} {ts : List (State D)}

/-- The solver does not refute a condition beside what a state assumes. -/
def Admits (m : Machine D) (s : State D) (c : Formula) : Prop :=
  ∃ answer, m.context.solver (s.condition ++ [c]) = .ok answer ∧ answer.isUnsat = false

/-- What becomes of a case of a branch: it is kept with its condition simplified, unless the
condition is false or the solver refutes it. -/
def Retains (m : Machine D) (s : State D) (case : BranchCase) (o : Option BranchCase) : Prop :=
  ∃ c, case.condition.simplify = .ok c ∧
    (o = some ⟨c, case.target⟩ ∧ (c = .bool true ∨ m.Admits s c) ∨
      o = none ∧ (c = .bool false ∨ m.context.solver (s.condition ++ [c]) = .ok .unsat))

theorem feasibleCases_eq_ok (h : m.feasibleCases s cases = .ok kept) :
    ∃ options, List.Forall₂ (m.Retains s) cases options ∧ kept = options.filterMap id := by
  simp only [feasibleCases, bind_eq_ok, pure_eq_ok] at h
  obtain ⟨options, hoptions, rfl⟩ := h
  refine ⟨options, (mapM_eq_ok.mp hoptions).imp fun case o ho => ?_, rfl⟩
  simp only [bind_eq_ok] at ho
  obtain ⟨c, hc, ho⟩ := ho
  refine ⟨c, hc, ?_⟩
  by_cases hfalse : c = .bool false
  · obtain rfl : none = o := by simpa [hfalse] using ho
    exact .inr ⟨rfl, .inl hfalse⟩
  · by_cases htrue : c = .bool true
    · obtain rfl : some ⟨c, case.target⟩ = o := by simpa [htrue] using ho
      exact .inl ⟨rfl, .inl htrue⟩
    · simp only [hfalse, htrue, if_false, Context.feasible, bind_eq_ok, pure_eq_ok] at ho
      obtain ⟨b, ⟨answer, hanswer, rfl⟩, rfl⟩ := ho
      cases answer with
      | unsat => exact .inr ⟨rfl, .inr hanswer⟩
      | sat | unknown => exact .inl ⟨rfl, .inr ⟨_, hanswer, rfl⟩⟩

/-- A case that is kept has a simplified condition, which is true or not refuted. -/
theorem mem_kept {k : BranchCase} (h : m.feasibleCases s cases = .ok kept) (hk : k ∈ kept) :
    ∃ case ∈ cases, case.condition.simplify = .ok k.condition ∧ k.target = case.target ∧
      (k.condition = .bool true ∨ m.Admits s k.condition) := by
  obtain ⟨options, hoptions, rfl⟩ := feasibleCases_eq_ok h
  obtain ⟨o, ho, rfl⟩ := List.mem_filterMap.mp hk
  obtain ⟨case, hcase, c, hc, ⟨hretained, hadmits⟩ | ⟨hnone, -⟩⟩ :=
    forall₂_exists_of_mem_right hoptions ho
  · obtain rfl := Option.some.inj hretained
    exact ⟨case, hcase, hc, rfl, hadmits⟩
  · cases hnone

/-- What a branch makes of a state, given the cases that are kept: it aborts the state where there
are none, goes to the first of them where all are vetoed, and otherwise assumes each, and goes to
those that are not vetoed. -/
inductive BranchesInto (m : Machine D) (s : State D) (l : Location) :
    List BranchCase → List (State D) → Prop
  | dead : BranchesInto m s l [] [s.abort]
  | pruned {first : BranchCase} {rest : List BranchCase} {t : State D}
      (hvetoed : ∀ case ∈ first :: rest, m.policy.vetoes s l case.target = true)
      (ht : goTo s first.target = .ok t) : BranchesInto m s l (first :: rest) [t]
  | fork {kept : List BranchCase} {followed dropped : List (State D)}
      (hkept : ∃ case ∈ kept, m.policy.vetoes s l case.target = false)
      (hfollowed : List.Forall₂ (fun case t => ∃ u, s.assume case.condition = .ok u ∧
        goTo u case.target = .ok t)
        (kept.filter fun case => !m.policy.vetoes s l case.target) followed)
      (hdropped : List.Forall₂ (fun case t => ∃ u, s.assume case.condition = .ok u ∧ u.abort = t)
        (kept.filter fun case => m.policy.vetoes s l case.target) dropped) :
      BranchesInto m s l kept (followed ++ dropped)

theorem branch_into {l : Location} (h : m.branch s l cases = .ok ts) :
    ∃ kept, m.feasibleCases s cases = .ok kept ∧ m.BranchesInto s l kept ts := by
  simp only [branch, bind_eq_ok] at h
  obtain ⟨kept, hkept, h⟩ := h
  refine ⟨kept, hkept, ?_⟩
  split at h
  · obtain rfl := Except.ok.inj h
    exact .dead
  · split at h
    · next hvetoed =>
      simp only [bind_eq_ok, pure_eq_ok] at h
      obtain ⟨t, ht, rfl⟩ := h
      exact .pruned (List.all_eq_true.mp hvetoed) ht
    · next hnot =>
      simp only [Bool.not_eq_true, List.all_eq_false] at hnot
      simp only [bind_eq_ok, pure_eq_ok, mapM_eq_ok] at h
      obtain ⟨followed, hfollowed, dropped, hdropped, rfl⟩ := h
      exact .fork hnot hfollowed hdropped

/-- A state follows a case: it assumes the condition and changes quietly. -/
def Follows (s : State D) (case : BranchCase) (t : State D) : Prop :=
  ∃ u, s.assume case.condition = .ok u ∧ u.Quiet t

/-- **What a branch can do**: it goes on quietly, or forks into one state per case that is kept. -/
theorem branch_cases {l : Location} (h : m.branch s l cases = .ok ts) :
    ∃ kept, m.feasibleCases s cases = .ok kept ∧
      ((∃ t, ts = [t] ∧ s.Quiet t) ∨
        ∃ order, order.Perm kept ∧ order ≠ [] ∧ List.Forall₂ (Follows s) order ts) := by
  obtain ⟨kept, hkept, hinto⟩ := branch_into h
  refine ⟨kept, hkept, ?_⟩
  cases hinto with
  | dead => exact .inl ⟨_, rfl, (Quiet.refl s).abort⟩
  | @pruned first rest t _ ht => exact .inl ⟨t, rfl, quiet_goTo (Quiet.refl s) ht⟩
  | fork hsome hfollowed hdropped =>
      have hperm := List.filter_append_perm
        (fun case => !m.policy.vetoes s l case.target) kept
      simp only [Bool.not_not] at hperm
      refine .inr ⟨_, hperm, fun hnil => ?_, List.rel_append ?_ ?_⟩
      · obtain ⟨case, hcase, -⟩ := hsome
        rw [hnil] at hperm
        exact List.not_mem_nil (hperm.mem_iff.mpr hcase)
      · refine hfollowed.imp fun case t ht => ?_
        obtain ⟨u, hu, ht⟩ := ht
        exact ⟨u, hu, quiet_goTo (Quiet.refl u) ht⟩
      · refine hdropped.imp fun case t ht => ?_
        obtain ⟨u, hu, rfl⟩ := ht
        exact ⟨u, hu, (Quiet.refl u).abort⟩

/-- Cases that are kept exclude each other as the cases of the branch do. -/
theorem kept_contrary (hkept : m.feasibleCases s cases = .ok kept)
    (h : cases.Pairwise fun a b => Contrary σ a.condition b.condition) :
    kept.Pairwise fun a b => Contrary σ a.condition b.condition := by
  obtain ⟨options, hoptions, rfl⟩ := feasibleCases_eq_ok hkept
  have hverdict : ∀ {case o k}, m.Retains s case o → o = some k →
      k.condition.verdict σ = case.condition.verdict σ := by
    rintro case o k ⟨c, hc, ⟨ho, -⟩ | ⟨ho, -⟩⟩ rfl
    · obtain rfl := Option.some.inj ho
      exact verdict_simplified hc
    · cases ho
  rw [List.pairwise_filterMap]
  refine forall₂_pairwise hoptions h fun hcase hcase' hcontrary a ha b hb => ?_
  rw [Contrary, hverdict hcase ha, hverdict hcase' hb]
  exact hcontrary

/-- The states that a branch forks into exclude each other. -/
theorem follows_exclusive {order : List BranchCase} (hfollows : List.Forall₂ (Follows s) order ts)
    (h : order.Pairwise fun a b => Contrary σ a.condition b.condition) :
    ts.Pairwise fun t u => ¬ (t.Holds σ ∧ u.Holds σ) := by
  have hverdict : ∀ {case t}, Follows s case t → t.Holds σ →
      case.condition.verdict σ = some true := by
    rintro case t ⟨u, hu, hquiet⟩ ht
    exact verdict_of_assume hu (hquiet.holds.mp ht)
  refine forall₂_pairwise hfollows h fun ht hu hcontrary ⟨htholds, huholds⟩ => ?_
  exact hcontrary (hverdict ht htholds) (hverdict hu huholds)

end Machine

end PlayerPaths
