import PlayerPaths.Proofs.Execution.Exclusion

/-!
# A run partitions the inputs

Under the default policy nothing is lost: a state that is true under an assignment goes on in a
state that is (`step_covers`), because the cases of a branch leave nothing out and a sound solver
does not refute the case that the assignment takes. Together with `run_apart`, every assignment that
decides the branches of a run makes exactly one of its states true (`run_partitions`).
-/

namespace PlayerPaths

open IL Formula

/-- A solver refutes only what no assignment of values makes true. -/
def SoundSolver (solver : Solver) : Prop :=
  ∀ assertions, solver assertions = .ok .unsat → ∀ σ, Assigns σ (assertions.flatMap occurrences) →
    ¬ ∀ a ∈ assertions, a.eval σ = .ok (.bool true)

/-- Exactly one element satisfies a predicate that some element satisfies and no two do. -/
theorem countP_eq_one {α : Type} {p : α → Prop} [DecidablePred p] {l : List α}
    (hex : ∃ a ∈ l, p a) (h : l.Pairwise fun a b => ¬ (p a ∧ p b)) : l.countP (p ·) = 1 := by
  induction l with
  | nil => simp at hex
  | cons a l ih =>
      obtain ⟨hfirst, hrest⟩ := List.pairwise_cons.mp h
      by_cases ha : p a
      · have hnone : l.countP (p ·) = 0 := by
          rw [List.countP_eq_zero]
          intro b hb hpb
          exact hfirst b hb ⟨ha, by simpa using hpb⟩
        rw [List.countP_cons_of_pos (by simpa using ha), hnone]
      · rw [List.countP_cons_of_neg (by simpa using ha)]
        refine ih ?_ hrest
        obtain ⟨b, hb, hpb⟩ := hex
        rcases List.mem_cons.mp hb with rfl | hb
        · exact absurd hpb ha
        · exact ⟨b, hb, hpb⟩

def Machine.default (c : Context) : Machine Unit := ⟨c, .default c⟩

namespace Machine

open State

variable {D : Type} {m : Machine D} {c : Context} {σ : Assignment}

/-- An assignment gives the variables of every condition that a branch of an execution is made on
values of their sorts, and the condition a truth value. -/
def Decides (m : Machine D) (σ : Assignment) : Prop :=
  ∀ s cases, m.Reached s → s.isRunning = true → m.branchCases s = .ok cases → ∀ case ∈ cases,
    Assigns σ case.condition.occurrences ∧ ∃ b, case.condition.eval σ = .ok (.bool b)

/-! ## Summarized calls -/

/-- A call with an unknown value is a quiet step of a state that has noted it. -/
theorem default_quiet {s : State Unit} {ts : List (State Unit)}
    (h : (Machine.default c).Summarizes s ts) :
    ∃ calls callCount t, ts = [t] ∧ State.Quiet { s with calls, callCount } t := by
  obtain ⟨method, arguments, forks, call, -, hforks, hresults⟩ := h
  have hforks : c.unknownCall s method arguments = .ok forks := hforks
  obtain ⟨value, hvalue, rfl⟩ := Context.unknownCall_eq_ok.mp hforks
  obtain ⟨u, _, hu, hnil, rfl⟩ := List.forall₂_cons_left_iff.mp hresults
  obtain rfl := List.forall₂_nil_left_iff.mp hnil
  refine ⟨_, _, u, rfl, (Quiet.refl _).setResult (fun _ v hv => ?_) hu⟩
  obtain rfl : value = some v := hv
  obtain ⟨name, t, rfl⟩ := freshValue_eq_ok hvalue
  exact ⟨t, rfl⟩

/-- Under the default policy only branches fork. -/
theorem default_step_cases {s : State Unit} {ts : List (State Unit)}
    (h : (Machine.default c).step s = .ok ts) :
    (∃ calls callCount t, ts = [t] ∧ State.Quiet { s.tick with calls, callCount } t) ∨
    ∃ cases kept order, (Machine.default c).branchCases s = .ok cases ∧
      (Machine.default c).feasibleCases s.tick cases = .ok kept ∧
      order.Perm kept ∧ order ≠ [] ∧ List.Forall₂ (Follows s.tick) order ts := by
  obtain ⟨-, hquiet | hsummarizes | ⟨l, cases, hcases, hbranch⟩⟩ := step_cases h
  · exact .inl ⟨_, _, hquiet⟩
  · exact .inl (default_quiet hsummarizes)
  · obtain ⟨kept, hkept, hquiet | ⟨order, hperm, hne, hfollows⟩⟩ := branch_cases hbranch
    · exact .inl ⟨_, _, hquiet⟩
    · exact .inr ⟨cases, kept, order, hcases, hkept, hperm, hne, hfollows⟩

/-! ## What states assume -/

/-- A well-sorted state whose variables have values of their sorts. -/
structure Supports (σ : Assignment) (s : State D) : Prop where
  wellSorted : s.WellSorted
  assigns : ∀ e ∈ s.condition, Assigns σ e.occurrences

/-- Neither steps nor calls that are noted matter. -/
theorem Supports.congr {s t : State D} (hs : Supports σ s) (hcondition : t.condition = s.condition)
    (hmemory : t.memory = s.memory) (hframes : t.frames = s.frames) : Supports σ t := by
  refine ⟨⟨?_, ?_, ?_⟩, ?_⟩
  · exact hcondition ▸ hs.wellSorted.condition
  · exact hmemory ▸ hs.wellSorted.memory
  · exact hframes ▸ hs.wellSorted.frames
  · exact hcondition ▸ hs.assigns

theorem Supports.tick {s : State D} (hs : Supports σ s) : Supports σ s.tick := hs.congr rfl rfl rfl

theorem Supports.quiet {s t : State D} (hs : Supports σ s) (h : s.Quiet t) : Supports σ t := by
  refine ⟨h.wellSorted hs.wellSorted, ?_⟩
  rw [h.condition]
  exact hs.assigns

theorem Supports.follows {s t : State D} {case : BranchCase} (hs : Supports σ s)
    (hsort : case.condition.HasSort .bool) (hassigns : Assigns σ case.condition.occurrences)
    (h : Follows s case t) : Supports σ t := by
  obtain ⟨u, hu, hquiet⟩ := h
  refine Supports.quiet ?_ hquiet
  obtain ⟨e, he, ⟨-, rfl⟩ | rfl⟩ := assume_eq_ok hu
  · exact hs
  · have hesort := simplify_hasSort hsort he
    have heassigns : Assigns σ e.occurrences := fun name t ht =>
      hassigns name t (occurrences_simplify hsort he ht)
    exact ⟨⟨List.forall_mem_append.mpr ⟨hs.wellSorted.condition, by simpa using hesort⟩,
      hs.wellSorted.memory, hs.wellSorted.frames⟩,
      List.forall_mem_append.mpr ⟨hs.assigns, by simpa using heassigns⟩⟩

theorem start_wellSorted (entry : Method) (l : Location) (data : D) :
    (State.start entry l data).WellSorted := by
  refine ⟨by simp [start], .empty, fun f hf => ?_⟩
  obtain rfl := List.mem_singleton.mp hf
  exact ⟨by simp, by simp⟩

theorem initialState_eq_ok {s : State D} (h : m.initialState = .ok s) :
    s.condition = [] ∧ s.steps = 0 ∧ s.WellSorted := by
  obtain ⟨b, -, ⟨first, -, rfl⟩ | rfl⟩ := initialState_cases h
  · exact ⟨rfl, rfl, start_wellSorted _ _ _⟩
  · exact ⟨rfl, rfl, (Quiet.refl _).halt.wellSorted (start_wellSorted _ _ _)⟩

/-- The states of an execution are well sorted, and an assignment that decides its branches gives
values to the variables of what they assume. -/
theorem reached_supports {s : State Unit} (hσ : (Machine.default c).Decides σ)
    (h : (Machine.default c).Reached s) : Supports σ s := by
  induction h with
  | start hs hts ht =>
      obtain rfl := Except.ok.inj hts
      obtain rfl := List.mem_singleton.mp ht
      obtain ⟨hcondition, -, hsorted⟩ := initialState_eq_ok hs
      exact ⟨hsorted, by simp [hcondition]⟩
  | @step s t ts hs hrunning hts ht ih =>
      rcases default_step_cases hts with ⟨calls, callCount, u, rfl, hquiet⟩ |
        ⟨cases, kept, order, hcases, hkept, hperm, -, hfollows⟩
      · obtain rfl := List.mem_singleton.mp ht
        have hnoted : Supports σ { s.tick with calls, callCount } := ih.congr rfl rfl rfl
        exact hnoted.quiet hquiet
      · obtain ⟨k, hk, hfollows⟩ := forall₂_exists_of_mem_right hfollows ht
        obtain ⟨case, hcase, hsimplify, -⟩ := mem_kept hkept (hperm.mem_iff.mp hk)
        have hsort := branchCases_hasSort ih.wellSorted hcases case hcase
        obtain ⟨hassigns, -⟩ := hσ s cases hs hrunning hcases case hcase
        refine ih.tick.follows (simplify_hasSort hsort hsimplify) ?_ hfollows
        exact fun name t ht => hassigns name t (occurrences_simplify hsort hsimplify ht)

/-! ## Coverage -/

/-- A case whose condition is true is kept by a sound solver. -/
theorem kept_of_true {s : State D} (hsolver : SoundSolver m.context.solver)
    (hs : Supports σ s) (hholds : s.Holds σ) {cases kept : List BranchCase} {case : BranchCase}
    (hkept : m.feasibleCases s cases = .ok kept) (hcase : case ∈ cases)
    (hsort : case.condition.HasSort .bool) (hassigns : Assigns σ case.condition.occurrences)
    (htrue : case.condition.eval σ = .ok (.bool true)) :
    ∃ k ∈ kept, case.condition.simplify = .ok k.condition ∧
      k.condition.eval σ = .ok (.bool true) := by
  obtain ⟨options, hoptions, rfl⟩ := feasibleCases_eq_ok hkept
  obtain ⟨o, ho, e, he, hretained⟩ := forall₂_exists_of_mem_left hoptions hcase
  have hetrue : e.eval σ = .ok (.bool true) := simplify_refines hsort he htrue
  rcases hretained with ⟨rfl, -⟩ | ⟨-, rfl | hunsat⟩
  · exact ⟨⟨e, case.target⟩, List.mem_filterMap.mpr ⟨_, ho, rfl⟩, he, hetrue⟩
  · simp at hetrue
  · exfalso
    refine hsolver _ hunsat σ ?_ (List.forall_mem_append.mpr ⟨hholds, by simpa using hetrue⟩)
    intro name t hmem
    obtain ⟨d, hd, ht⟩ := List.mem_flatMap.mp hmem
    rcases List.mem_append.mp hd with hd | hd
    · exact hs.assigns d hd name t ht
    · obtain rfl := List.mem_singleton.mp hd
      exact hassigns name t (occurrences_simplify hsort he ht)

/-- **A true state goes on in a true state.** -/
theorem step_covers {s : State Unit} {ts : List (State Unit)} (hsolver : SoundSolver c.solver)
    (hσ : (Machine.default c).Decides σ) (hs : (Machine.default c).Reached s)
    (hrunning : s.isRunning = true) (h : (Machine.default c).step s = .ok ts)
    (hholds : s.Holds σ) : ∃ t ∈ ts, t.Holds σ := by
  have hsupports := reached_supports hσ hs
  rcases default_step_cases h with ⟨calls, callCount, t, rfl, hquiet⟩ |
    ⟨cases, kept, order, hcases, hkept, hperm, hne, hfollows⟩
  · exact ⟨t, List.mem_singleton_self t, hquiet.holds.mpr hholds⟩
  · have hcasesne : cases ≠ [] := by
      rintro rfl
      obtain ⟨k, hk⟩ := List.exists_mem_of_ne_nil order hne
      obtain ⟨case, hcase, -⟩ := mem_kept hkept (hperm.mem_iff.mp hk)
      simp at hcase
    obtain ⟨case, hcase, htrue⟩ := branchCases_exhaustive hcases hcasesne fun case hcase =>
      (hσ s cases hs hrunning hcases case hcase).2
    have hsort := branchCases_hasSort hsupports.wellSorted hcases case hcase
    obtain ⟨k, hk, hsimplify, hktrue⟩ := kept_of_true (m := .default c) hsolver hsupports.tick hholds
      hkept hcase hsort (hσ s cases hs hrunning hcases case hcase).1 htrue
    obtain ⟨t, ht, u, hu, hquiet⟩ := forall₂_exists_of_mem_left hfollows (hperm.mem_iff.mpr hk)
    refine ⟨t, ht, hquiet.holds.mpr ?_⟩
    exact (holds_assume hu (simplify_normal hsimplify).simplify_eq).mpr ⟨hholds, hktrue⟩

theorem default_productive (c : Context) : (Policy.default c).Productive where
  start h := by
    obtain rfl := Except.ok.inj h
    simp
  summarize {s method arguments forks} h := by
    have h : c.unknownCall s method arguments = .ok forks := h
    obtain ⟨value, -, rfl⟩ := Context.unknownCall_eq_ok.mp h
    exact ⟨by simp, List.forall_mem_singleton.mpr rfl⟩

theorem default_advances (c : Context) : (Machine.default c).Advances :=
  advances (default_productive c)

theorem default_exclusive (c : Context) (σ : Assignment) :
    (Policy.default c).Exclusive σ fun _ => true := by
  refine ⟨fun {s ts} h => ?_, fun {s method arguments forks} h => ?_⟩
  · obtain rfl := Except.ok.inj h
    exact List.pairwise_singleton _ _
  · have h : c.unknownCall s method arguments = .ok forks := h
    obtain ⟨value, -, rfl⟩ := Context.unknownCall_eq_ok.mp h
    exact ⟨List.pairwise_singleton _ _, List.forall_mem_singleton.mpr (List.Subset.refl _)⟩

/-- **A run partitions the inputs.** If a run under the default policy with a sound solver succeeds,
and the constants of every switch are distinct, then no state that it gives is running, and under
every assignment that decides the branches of the run exactly one of the states has a condition all
of whose members are true. -/
theorem run_partitions {states : List (State Unit)} (hsolver : SoundSolver c.solver)
    (hswitch : (Machine.default c).DistinctSwitches) (h : (Machine.default c).run = .ok states)
    (hσ : (Machine.default c).Decides σ) :
    (∀ s ∈ states, s.status = .halted ∨ s.status = .aborted) ∧
      states.countP (fun s => s.Holds σ) = 1 := by
  obtain ⟨a, ha, rfl⟩ := run_eq_ok.mp h
  have hpending : a.pending = [] := by
    refine run_complete (default_advances c) (fun hs hts t ht => ?_) ha
    obtain rfl := Except.ok.inj hts
    obtain rfl := List.mem_singleton.mp ht
    exact (initialState_eq_ok hs).2.1
  have hapart : a.states.Pairwise (Apart σ fun _ => true) :=
    run_apart rfl (default_exclusive c σ) hswitch ha
  have hcovers : ∃ t ∈ a.states, t.Holds σ := by
    refine run_invariant (P := fun l => ∃ t ∈ l, t.Holds σ) ?_ ?_ ?_ ha
    · rintro l l' hperm ⟨t, ht, hholds⟩
      exact ⟨t, hperm.mem_iff.mp ht, hholds⟩
    · intro s ts hs hts
      obtain rfl := Except.ok.inj hts
      refine ⟨s, List.mem_singleton_self s, ?_⟩
      rw [Holds, (initialState_eq_ok hs).1]
      simp
    · rintro s ts rest hs hrunning hts ⟨t, ht, hholds⟩
      rcases List.mem_cons.mp ht with rfl | ht
      · obtain ⟨u, hu, hholds⟩ := step_covers hsolver hσ hs hrunning hts hholds
        exact ⟨u, List.mem_append_left _ hu, hholds⟩
      · exact ⟨t, List.mem_append_right _ ht, hholds⟩
  rw [Agenda.states, hpending, List.nil_append] at hapart hcovers
  constructor
  · intro s hs
    have hstopped := lastAgenda_stopped ha s (List.mem_reverse.mp hs)
    cases hstatus : s.status with
    | running => simp [isRunning, hstatus] at hstopped
    | halted => exact .inl rfl
    | aborted => exact .inr rfl
  · rw [List.countP_reverse]
    exact countP_eq_one hcovers (hapart.imp fun hst => hst rfl rfl)

/-- A solver that refutes a formula beside its negation, and nothing else. -/
def oppositesSolver : Solver := fun assertions =>
  .ok (if ∃ a ∈ assertions, Formula.not a ∈ assertions then .unsat else .unknown)

theorem oppositesSolver_sound : SoundSolver oppositesSolver := by
  intro assertions h σ _ htrue
  simp only [oppositesSolver, Except.ok.injEq] at h
  split at h
  · next hopposites =>
    obtain ⟨a, ha, hnot⟩ := hopposites
    obtain ⟨b, hb, heq⟩ := eval_not_eq_ok.mp (htrue _ hnot)
    rw [htrue a ha] at hb
    cases hb
    simp at heq
  · cases h

/-- A method that switches on its parameter twice. -/
def twiceMethod : Method :=
  let x : Variable := ⟨"x", .parameter 0, .int32⟩
  let switch (default : Nat) : Instruction := ⟨.switch (.load x) [⟨[1], 2⟩] default, []⟩
  ⟨.static "Player" "Update" [.int32] .void, [⟨"x", .int32⟩], "Game",
    some { blocks := [⟨0, [switch 1]⟩, ⟨1, [switch 2]⟩] }⟩

def twiceContext : Context where
  program := .empty "Game"
  entry := twiceMethod
  options := {}
  solver := oppositesSolver
  sorts := {}

def twiceState (block steps : Nat) (condition : List Formula) : State Unit :=
  { State.start twiceMethod ⟨block, 0⟩ () with condition, steps }

theorem twice_reached {s : State Unit} (h : (Machine.default twiceContext).Reached s)
    (hrunning : s.isRunning = true) :
    s = twiceState 0 0 [] ∨
      s = twiceState 1 1 [.not (.eq (.var "frame:0:arg:0" (.bitVec 32)) (.bits 1 32))] := by
  induction h with
  | start hs hts ht =>
      obtain rfl := Except.ok.inj hts
      obtain rfl := List.mem_singleton.mp ht
      exact .inl (Except.ok.inj hs).symm
  | step _ hsrunning hts ht ih =>
      rcases ih hsrunning with rfl | rfl
      · obtain rfl := Except.ok.inj hts
        rcases List.mem_cons.mp ht with rfl | ht
        · cases hrunning
        · obtain rfl := List.mem_singleton.mp ht
          exact .inr rfl
      · obtain rfl := Except.ok.inj hts
        obtain rfl := List.mem_singleton.mp ht
        cases hrunning

theorem twice_partitioned :
    ∃ states, (Machine.default twiceContext).run = .ok states ∧ states.length = 2 ∧
      states.countP (fun s => s.Holds fun _ => some (.bits 2 32)) = 1 := by
  have hswitch : (Machine.default twiceContext).DistinctSwitches := by
    intro s constants hs hrunning hconstants
    rcases twice_reached hs hrunning with rfl | rfl <;> obtain rfl := Except.ok.inj hconstants <;>
      decide +kernel
  have hσ : (Machine.default twiceContext).Decides fun _ => some (.bits 2 32) := by
    intro s cases hs hrunning hcases
    rcases twice_reached hs hrunning with rfl | rfl <;> obtain rfl := Except.ok.inj hcases <;>
      decide +kernel
  have hrun : ∃ states, (Machine.default twiceContext).run = .ok states ∧ states.length = 2 := by
    exact ⟨_, rfl, rfl⟩
  obtain ⟨states, hstates, hlength⟩ := hrun
  exact ⟨states, hstates, hlength, (run_partitions oppositesSolver_sound hswitch hstates hσ).2⟩

end Machine

end PlayerPaths
