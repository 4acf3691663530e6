import PlayerPaths.Proofs.Execution.Completion
import PlayerPaths.Proofs.Execution.Starts

/-!
# Runs and what a player can bring about

With an exact solver an execution starts in playable states, and it keeps them playable, except that
a branch looks only at what a state assumes and not at what is known about its polls. So a branch may
keep a case that no player can bring about (`Machine.Misjudges`), and this is the only way in which a
run gives a halted state that is not playable (`Machine.halted_playable`). What a halted state assumes
is satisfiable in any case. The run of `overdriven` is one that misjudges a branch.
-/

namespace PlayerPaths

open IL Formula

namespace Machine

open State

variable {m : Machine Polls} {c : Context} {leads : LeadsResult} {s t u : InputState}
  {ts : List InputState}

/-- A branch misjudges a case: it turns a playable state into one that no player can bring about,
although what that state assumes is satisfiable. -/
structure Misjudges (m : Machine Polls) (s t : InputState) : Prop where
  reached : m.Reached s
  isRunning : s.isRunning = true
  branches : ∃ cases, m.branchCases s = .ok cases ∧ cases ≠ []
  steps : ∃ ts, m.step s = .ok ts ∧ t ∈ ts
  playable : m.context.Playable s
  satisfiable : Satisfiable t.condition
  unplayable : ¬ m.context.Playable t

/-! ## Steps -/

/-- What a step does to what a state assumes and to its polls: it keeps them, or they go on as a call
makes them, or a case of a branch is followed. -/
inductive Turns (m : Machine Polls) (s : InputState) : InputState → Prop
  | kept {t : InputState} (hcondition : t.condition = s.condition) (hcalls : t.calls = s.calls) :
      Turns m s t
  | called {t u : InputState} (hgoes : m.context.Goes s.tick u) (hstatus : t.status = u.status)
      (hcondition : t.condition = u.condition) (hcalls : t.calls = u.calls) : Turns m s t
  | branched {t : InputState} {cases kept : List BranchCase} {case : BranchCase}
      (hcases : m.branchCases s = .ok cases) (hkept : m.feasibleCases s.tick cases = .ok kept)
      (hcase : case ∈ kept) (hfollows : Follows s.tick case t) : Turns m s t

theorem step_turns (hts : (Machine.input c leads).step s = .ok ts) (ht : t ∈ ts) :
    (Machine.input c leads).Turns s t := by
  obtain ⟨-, ⟨u, rfl, hquiet⟩ | hsummarizes | ⟨l, cases, hcases, hbranch⟩⟩ := step_cases hts
  · obtain rfl := List.mem_singleton.mp ht
    exact .kept hquiet.condition hquiet.calls
  · obtain ⟨method, arguments, forks, call, -, hforks, hresults⟩ := hsummarizes
    obtain ⟨fork, hfork, ht⟩ := forall₂_exists_of_mem_right hresults ht
    obtain ⟨-, hgoes⟩ := Context.summarizeInput_goesOn forks hforks
    obtain ⟨f, callers, -, rfl⟩ := modifyFrame_eq_ok.mp ht
    exact .called (hgoes fork hfork) rfl rfl rfl
  · obtain ⟨kept, hkept, ⟨u, rfl, hquiet⟩ | ⟨order, hperm, -, hfollows⟩⟩ := branch_cases hbranch
    · obtain rfl := List.mem_singleton.mp ht
      exact .kept hquiet.condition hquiet.calls
    · obtain ⟨case, hcase, hfollow⟩ := forall₂_exists_of_mem_right hfollows ht
      exact .branched hcases hkept (hperm.mem_iff.mp hcase) hfollow

/-- With an exact solver, what is assumed stays satisfiable. -/
theorem Turns.satisfiable (hsolver : ExactSolver m.context.solver) (hs : Satisfiable s.condition)
    (h : m.Turns s t) : t.status = .aborted ∨ Satisfiable t.condition := by
  have hticked : Satisfiable s.tick.condition := hs
  cases h with
  | kept hcondition _ => exact .inr (hcondition ▸ hs)
  | called hgoes hstatus hcondition _ =>
      rw [hstatus, hcondition]
      exact hgoes.satisfiable hsolver hticked
  | branched _ hkept hcase hfollows =>
      exact .inr (follows_satisfiable hsolver hticked hkept hcase hfollows)

/-- **A step keeps a state playable**, unless a branch misjudges a case. -/
theorem step_playable {leads : LeadsResult} (hsolver : ExactSolver c.solver)
    (hs : (Machine.input c leads).Reached s) (hrunning : s.isRunning = true) (hplayable : c.Playable s)
    (hts : (Machine.input c leads).step s = .ok ts) (ht : t ∈ ts) :
    t.status = .aborted ∨ c.Playable t ∨ (Machine.input c leads).Misjudges s t := by
  have hturns := step_turns hts ht
  have hsatisfiable := hturns.satisfiable hsolver hplayable.satisfiable
  cases hturns with
  | kept hcondition hcalls => exact .inr (.inl (hplayable.congr hcondition hcalls))
  | called hgoes hstatus hcondition hcalls =>
      have hticked : c.Playable s.tick := hplayable.congr rfl rfl
      rcases hgoes.playable hsolver hticked with haborted | hu
      · exact .inl (hstatus.trans haborted)
      · exact .inr (.inl (hu.congr hcondition hcalls))
  | branched hcases hkept hcase hfollows =>
      refine hsatisfiable.imp_right fun hsatisfiable => ?_
      by_cases hu : c.Playable t
      · exact .inl hu
      · obtain ⟨original, horiginal, -⟩ := mem_kept hkept hcase
        exact .inr ⟨hs, hrunning, ⟨_, hcases, List.ne_nil_of_mem horiginal⟩, ⟨ts, hts, ht⟩, hplayable,
          hsatisfiable, hu⟩

/-! ## Runs -/

/-- A state is playable, or comes from where a branch misjudged a case. -/
def PlayableUpTo (m : Machine Polls) (s : InputState) : Prop :=
  m.context.Playable s ∨ ∃ t u, m.Misjudges t u ∧ m.Descends u s

/-- **What a run keeps**: states that are not aborted have satisfiable conditions, and they are
playable unless a branch misjudged a case on the way. -/
theorem Reached.playable (hsolver : ExactSolver c.solver) (hsorts : c.sorts.InRange)
    (hdown : c.entry.name = "OnMouseDown" → c.api.inputType ≠ c.api.previousInputType)
    (h : (Machine.input c leads).Reached s) : s.status = .aborted ∨
      Satisfiable s.condition ∧ (Machine.input c leads).PlayableUpTo s := by
  induction h with
  | start hs hts ht =>
      have hstart := Context.startStatesOf_playable (initialState_blank hs) hsorts hdown _ hts _ ht
      exact hstart.imp_right fun hplayable => ⟨hplayable.satisfiable, .inl hplayable⟩
  | step hs hrunning hts ht ih =>
      rcases ih with haborted | ⟨hsatisfiable, hupTo⟩
      · simp [State.isRunning, haborted] at hrunning
      rcases (step_turns hts ht).satisfiable hsolver hsatisfiable with haborted | hsatisfiable
      · exact .inl haborted
      rcases hupTo with hplayable | ⟨v, w, hmisjudges, hdescends⟩
      · rcases step_playable hsolver hs hrunning hplayable hts ht with haborted | ht' | hmisjudges
        · exact .inl haborted
        · exact .inr ⟨hsatisfiable, .inl ht'⟩
        · exact .inr ⟨hsatisfiable, .inr ⟨_, _, hmisjudges, .refl⟩⟩
      · exact .inr ⟨hsatisfiable, .inr ⟨v, w, hmisjudges, hdescends.step hrunning hts ht⟩⟩

/-- **Halted states are playable, up to misjudged branches.** With an exact solver, whatever leads to
input: what a halted state of a run assumes is satisfiable, and it is so together with all that is
known about its polls, unless the state comes from a branch that kept a case which no player can bring
about. -/
theorem halted_playable {program : Program} {entry : Method} {options : AnalysisOptions}
    {solver : Solver} (hc : Context.make program entry options solver = .ok c)
    (hsolver : ExactSolver solver) (hdown : entry.name = "OnMouseDown" →
      options.inputApi.inputType ≠ options.inputApi.previousInputType)
    {states : List InputState} (h : (Machine.input c leads).run = .ok states) :
    ∀ s ∈ states, s.status = .halted → Satisfiable s.condition ∧
      (c.Playable s ∨ ∃ t u, (Machine.input c leads).Misjudges t u ∧
        (Machine.input c leads).Descends u s) := by
  intro s hs hhalted
  simp only [Context.make, bind_eq_ok, pure_eq_ok] at hc
  obtain ⟨sorts, hsorts, rfl⟩ := hc
  obtain ⟨-, -, -, hmem⟩ := (run_ends (.input _ leads)).2 states h
  rcases Reached.playable hsolver (Sorts.ofProgram_inRange hsorts) hdown ((hmem s).mp hs).1
    with haborted | hplayable
  · cases hhalted.symm.trans haborted
  · exact hplayable

/-! ## An axis that is asked for too much -/

/-- A condition that asks for more than an axis gives. -/
def overdrive : Expression :=
  .compare .greater .none (.call (.static "UnityEngine.Input" "GetAxis" [.string] .single)
    [.constant (.string "Horizontal")]) (.constant (.single 2.0))

def beyond (x : Float) : Formula :=
  .binary (.compareArith .gt) (.var (Address.symcall 0).text .real) (.real x)

/-- What is known about the value of the axis. -/
def onAxis : Formula :=
  let axis := .var (Address.symcall 0).text .real
  .nary .and [.binary (.compareArith .ge) axis (.real (-1.0)),
    .binary (.compareArith .le) axis (.real 1.0)]

/-- An exact solver that knows some satisfiable formulas beforehand. -/
noncomputable def exactSolver (known : List (List Formula)) : Solver := fun es =>
  open Classical in
  if es ∈ known ∨ Satisfiable es then .ok (.sat {}) else .ok .unsat

theorem exactSolver_exact {known : List (List Formula)} (h : ∀ es ∈ known, Satisfiable es) :
    ExactSolver (exactSolver known) := by
  intro es answer hanswer
  unfold exactSolver at hanswer
  split at hanswer
  · next hfound =>
    obtain rfl := Except.ok.inj hanswer
    exact hfound.elim (h es) id
  · next hnot =>
    obtain rfl := Except.ok.inj hanswer
    exact fun hsatisfiable => hnot (.inr hsatisfiable)

def axisQueries : List (List Formula) :=
  [[beyond 0.0, onAxis], [beyond 0.0, beyond 2.0], [beyond 0.0, .unary .not (beyond 2.0)]]

theorem axisQueries_satisfiable : ∀ es ∈ axisQueries, Satisfiable es := by
  refine List.forall_mem_cons.mpr ⟨?_, forall_mem_pair ?_ ?_⟩
  · exact satisfiable_of_number 1.0 (by decide +kernel) (by decide +kernel)
  · exact satisfiable_of_number 3.0 (by decide +kernel) (by decide +kernel)
  · exact satisfiable_of_number 1.0 (by decide +kernel) (by decide +kernel)

/-- A callback that asks the axis for too much, of which only positive values are looked at. -/
noncomputable def overdriven : Context :=
  let entry := branching [overdrive]
  { callback ((Program.empty "Game").addMethod entry) entry with
    options := { axisPartition := [.positive] }
    solver := exactSolver axisQueries }

/-- A run gives a halted state with a condition and with facts about its polls. -/
def haltsWith (c : Context) (leads : LeadsResult) (condition facts : List Formula) : Bool :=
  match (Machine.input c leads).run with
  | .error _ => false
  | .ok states => states.any fun s =>
    decide (s.status = .halted ∧ s.condition = condition ∧ c.assumptions s = .ok facts)

theorem overdriven_halts : ∃ taint leads states s, overdriven.scope.taint = .ok taint ∧
    overdriven.scope.leadsToInput taint = .ok leads ∧
    (Machine.input overdriven leads).run = .ok states ∧ s ∈ states ∧ s.status = .halted ∧
    s.condition = [beyond 0.0, beyond 2.0] ∧ overdriven.assumptions s = .ok [onAxis] := by
  have hcheck : leadsCheck overdriven (fun leads =>
      haltsWith overdriven leads [beyond 0.0, beyond 2.0] [onAxis]) = true := by
    decide +kernel
  obtain ⟨taint, leads, htaint, hleads, hcheck⟩ := exists_of_leadsCheck hcheck
  unfold haltsWith at hcheck
  split at hcheck
  · cases hcheck
  · next states hstates =>
    obtain ⟨s, hs, hcheck⟩ := List.any_eq_true.mp hcheck
    obtain ⟨hhalted, hcondition, hfacts⟩ := of_decide_eq_true hcheck
    exact ⟨taint, leads, states, s, htaint, hleads, hstates, hs, hhalted, hcondition, hfacts⟩

/-- The axis is not beyond its end. -/
theorem beyond_onAxis_unsatisfiable : ¬ Satisfiable ([beyond 0.0, beyond 2.0] ++ [onAxis]) := by
  rintro ⟨σ, htrue⟩
  have hupper : (Formula.binary (.compareArith .le) (.var (Address.symcall 0).text .real)
      (.real 1.0)).eval σ = .ok (.bool true) :=
    eval_and_true.mp (htrue onAxis (by simp)).2 _ (List.mem_cons_of_mem _ List.mem_cons_self)
  have hnumbers : (Formula.real 2.0).number? = some 2.0 ∧ (Formula.real 1.0).number? = some 1.0 := by
    decide +kernel
  obtain ⟨v, x, hv, hx, hbeyond⟩ :=
    holds_of_compareArith hnumbers.1 (htrue (beyond 2.0) (by simp)).2
  obtain ⟨w, y, hw, hy, hwithin⟩ := holds_of_compareArith hnumbers.2 hupper
  obtain rfl := Option.some.inj (hv.symm.trans hw)
  obtain rfl := Option.some.inj (hx.symm.trans hy)
  have htwo : (2.0 : Float) < x := of_decide_eq_true hbeyond
  have hone : x ≤ 1.0 := of_decide_eq_true hwithin
  exact absurd (Double.lt_of_lt_of_le htwo hone) (by decide +kernel)

theorem overdriven_misjudges : ∃ leads states s,
    Context.make overdriven.program overdriven.entry overdriven.options overdriven.solver =
      .ok overdriven ∧ ExactSolver overdriven.solver ∧
    (overdriven.entry.name = "OnMouseDown" →
      overdriven.options.inputApi.inputType ≠ overdriven.options.inputApi.previousInputType) ∧
    (Machine.input overdriven leads).run = .ok states ∧ s ∈ states ∧ s.status = .halted ∧
    Satisfiable s.condition ∧ ∃ t u, (Machine.input overdriven leads).Misjudges t u ∧
      (Machine.input overdriven leads).Descends u s := by
  obtain ⟨-, leads, states, s, -, -, hrun, hs, hhalted, hcondition, hfacts⟩ := overdriven_halts
  have hmake : Context.make overdriven.program overdriven.entry overdriven.options
      overdriven.solver = .ok overdriven := rfl
  have hsolver : ExactSolver overdriven.solver := exactSolver_exact axisQueries_satisfiable
  have hdown : overdriven.entry.name = "OnMouseDown" →
      overdriven.options.inputApi.inputType ≠ overdriven.options.inputApi.previousInputType := by
    decide +kernel
  obtain ⟨hsatisfiable, hplayable | hmisjudges⟩ :=
    halted_playable hmake hsolver hdown hrun s hs hhalted
  · obtain ⟨facts, hfacts', hsatisfiable⟩ := hplayable
    obtain rfl := Except.ok.inj (hfacts.symm.trans hfacts')
    exact absurd (hcondition ▸ hsatisfiable) beyond_onAxis_unsatisfiable
  · exact ⟨leads, states, s, hmake, hsolver, hdown, hrun, hs, hhalted, hsatisfiable, hmisjudges⟩

/-- **A halted state need not be playable.** The callback asks the axis for more than it can give, and
the branch does not look at what is known about the axis. So a run ends in a state that no player can
bring about. -/
theorem overdriven_unplayable :
    Context.make overdriven.program overdriven.entry overdriven.options overdriven.solver =
      .ok overdriven ∧ ExactSolver overdriven.solver ∧
    ∃ taint leads states s, overdriven.scope.taint = .ok taint ∧
      overdriven.scope.leadsToInput taint = .ok leads ∧
      (Machine.input overdriven leads).run = .ok states ∧ s ∈ states ∧ s.status = .halted ∧
      ¬ overdriven.Playable s := by
  obtain ⟨taint, leads, states, s, htaint, hleads, hrun, hs, hhalted, hcondition, hfacts⟩ :=
    overdriven_halts
  refine ⟨rfl, exactSolver_exact axisQueries_satisfiable, taint, leads, states, s, htaint, hleads,
    hrun, hs, hhalted, ?_⟩
  rintro ⟨facts, hfacts', hsatisfiable⟩
  obtain rfl := Except.ok.inj (hfacts.symm.trans hfacts')
  exact absurd (hcondition ▸ hsatisfiable) beyond_onAxis_unsatisfiable

end Machine

end PlayerPaths
