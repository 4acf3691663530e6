import PlayerPaths.Proofs.Execution.Polls
import PlayerPaths.Proofs.Formula.Valuation

/-!
# States that a player can bring about

A state is *playable* when its condition can be true together with all that is known about its polls
(`Context.Playable`): with axes between -1 and 1, and with the mouse on the screen. A state that is
forked at a call stays playable when the solver is exact, because forks are checked with all that is
known (`Context.Goes.playable`). A branch only asks whether the condition can be true
(`Machine.follows_satisfiable`).
-/

namespace PlayerPaths

open IL Formula

/-- A solver whose answers are right, and which never gives up. -/
def ExactSolver (solver : Solver) : Prop :=
  ∀ es answer, solver es = .ok answer →
    match answer with
    | .sat _ => Satisfiable es
    | .unsat => ¬ Satisfiable es
    | .unknown => False

variable {D : Type} {σ : Assignment} {solver : Solver}

/-- An exact solver only finds satisfiable what is. -/
theorem ExactSolver.satisfiable (hsolver : ExactSolver solver) {es : List Formula} {answer : Answer}
    (h : solver es = .ok answer) (hnot : answer.isUnsat = false) : Satisfiable es := by
  have hanswer := hsolver es answer h
  cases answer with
  | sat m => exact hanswer
  | unsat => cases hnot
  | unknown => exact hanswer.elim

namespace State

variable {s t : State D} {e : Formula} {conditions : List Formula}

/-- What a state assumes is true where the state was and the condition is. -/
theorem isTrue_of_assume (hs : ∀ c ∈ s.condition, c.IsTrue σ) (hsort : e.HasSort .bool)
    (he : e.IsTrue σ) (h : s.assume e = .ok t) : ∀ c ∈ t.condition, c.IsTrue σ := by
  obtain ⟨e', he', ⟨-, rfl⟩ | rfl⟩ := assume_eq_ok h
  · exact hs
  · exact List.forall_mem_append.mpr ⟨hs, List.forall_mem_singleton.mpr (he.simplify hsort he')⟩

theorem isTrue_of_assumeAll (hs : ∀ c ∈ s.condition, c.IsTrue σ)
    (hsort : ∀ e ∈ conditions, e.HasSort .bool) (hconditions : ∀ e ∈ conditions, e.IsTrue σ)
    (h : s.assumeAll conditions = .ok t) : ∀ c ∈ t.condition, c.IsTrue σ :=
  foldlM_induction (P := fun u => ∀ c ∈ u.condition, c.IsTrue σ)
    (fun _ e he hu _ hu' => isTrue_of_assume hu (hsort e he) (hconditions e he) hu') hs h

theorem assume_calls (h : s.assume e = .ok t) : t.calls = s.calls := by
  obtain ⟨e', -, ⟨-, rfl⟩ | rfl⟩ := assume_eq_ok h <;> rfl

theorem assumeAll_calls (h : s.assumeAll conditions = .ok t) : t.calls = s.calls :=
  foldlM_induction (P := fun u => u.calls = s.calls)
    (fun _ _ _ hu _ hu' => (assume_calls hu').trans hu) rfl h

end State

namespace Context

variable {c : Context} {s t u : InputState} {conditions : List Formula}

/-! ## Playable states -/

/-- A player can bring a state about: its condition and all that is known about its polls are true of
some values. -/
def Playable (c : Context) (s : InputState) : Prop :=
  ∃ facts, c.assumptions s = .ok facts ∧ Satisfiable (s.condition ++ facts)

/-- All that is known about the value of a call is true. -/
def Allows (c : Context) (σ : Assignment) (id : Nat) (m : MethodRef) : Prop :=
  ∃ facts, c.callAssumptions id m = .ok facts ∧ ∀ e ∈ facts, e.IsTrue σ

/-- All that is known about the calls of a state is true. -/
def AllowsCalls (c : Context) (σ : Assignment) (s : InputState) : Prop :=
  ∀ (id : Nat) (call : SymbolicCall), s.calls[id]? = some call → c.Allows σ id call.method

theorem Free.allows {id : Nat} {m : MethodRef} (h : c.Free id m) : c.Allows σ id m :=
  ⟨[], h, by simp⟩

/-- What is known about the polls of a state is known about each of its calls. -/
theorem assumptions_eq_ok {facts : List Formula} (h : c.assumptions s = .ok facts) {id : Nat}
    {call : SymbolicCall} (hcall : s.calls[id]? = some call) :
    ∃ known ⊆ facts, c.callAssumptions id call.method = .ok known := by
  simp only [assumptions, bind_eq_ok, pure_eq_ok, mapM_eq_ok] at h
  obtain ⟨known, hknown, rfl⟩ := h
  have hmem : (id, call) ∈ s.calls.toList := Std.TreeMap.mem_toList_iff_getElem?_eq_some.mpr hcall
  obtain ⟨first, hfirst, hcalls⟩ := forall₂_exists_of_mem_left hknown hmem
  exact ⟨first, fun e he => List.mem_flatten_of_mem hfirst he, hcalls⟩

/-- A state is playable when its condition is true and every call of it allowed. -/
theorem playable_iff : c.Playable s ↔
    ∃ σ : Assignment, (∀ e ∈ s.condition, e.IsTrue σ) ∧ c.AllowsCalls σ s := by
  constructor
  · rintro ⟨facts, hfacts, σ, htrue⟩
    obtain ⟨hcondition, htrue⟩ := List.forall_mem_append.mp htrue
    refine ⟨σ, hcondition, fun id call hcall => ?_⟩
    obtain ⟨known, hsub, hknown⟩ := assumptions_eq_ok hfacts hcall
    exact ⟨known, hknown, fun e he => htrue e (hsub he)⟩
  · rintro ⟨σ, hcondition, hallows⟩
    obtain ⟨known, hknown, htrue⟩ : ∃ known,
        (s.calls.toList.mapM fun entry => c.callAssumptions entry.1 entry.2.method) = .ok known ∧
          List.Forall₂ (fun facts _ => ∀ e ∈ facts, e.IsTrue σ) known
            (s.calls.toList.map id) := by
      refine exists_mapM_eq_ok fun entry hentry => ?_
      obtain ⟨facts, hfacts, htrue⟩ :=
        hallows entry.1 entry.2 (Std.TreeMap.mem_toList_iff_getElem?_eq_some.mp hentry)
      exact ⟨facts, hfacts, htrue⟩
    have hfacts : c.assumptions s = .ok known.flatten :=
      bind_eq_ok.mpr ⟨known, hknown, rfl⟩
    refine ⟨known.flatten, hfacts, σ, List.forall_mem_append.mpr ⟨hcondition, fun e he => ?_⟩⟩
    obtain ⟨facts, hfacts, he⟩ := List.mem_flatten.mp he
    obtain ⟨_, -, hall⟩ := forall₂_exists_of_mem_left htrue hfacts
    exact hall e he

theorem Playable.satisfiable (h : c.Playable s) : Satisfiable s.condition := by
  obtain ⟨σ, hcondition, -⟩ := playable_iff.mp h
  exact ⟨σ, hcondition⟩

/-- Noting calls that nothing is known about does not matter. -/
theorem Playable.notes (h : c.Playable s) (ht : s.Notes c.Free t) : c.Playable t := by
  obtain ⟨σ, hcondition, hallows⟩ := playable_iff.mp h
  refine playable_iff.mpr ⟨σ, ht.condition ▸ hcondition, fun id call hcall => ?_⟩
  rcases ht.calls id call hcall with hold | hfree
  · exact hallows id call hold
  · exact Free.allows hfree

theorem Playable.congr (h : c.Playable s) (hcondition : t.condition = s.condition)
    (hcalls : t.calls = s.calls) : c.Playable t := by
  obtain ⟨facts, hfacts, hsatisfiable⟩ := h
  refine ⟨facts, ?_, hcondition ▸ hsatisfiable⟩
  rw [← hfacts, assumptions, assumptions, hcalls]

/-- **A check makes a state playable**: conditions that an exact solver finds possible are so
together with all that is known about the polls of the state. -/
theorem playable_of_possible (hsolver : ExactSolver c.solver)
    (hconditions : ∀ e ∈ conditions, e.HasSort .bool) (h : c.possible t conditions = .ok true)
    (hu : t.assumeAll conditions = .ok u) : c.Playable u := by
  simp only [possible, feasible, bind_eq_ok, pure_eq_ok, Bool.not_eq_true'] at h
  obtain ⟨facts, hfacts, answer, hanswer, hnot⟩ := h
  obtain ⟨σ, htrue⟩ := hsolver.satisfiable hanswer hnot
  obtain ⟨hcondition, hextra⟩ := List.forall_mem_append.mp htrue
  obtain ⟨hassumed, hknown⟩ := List.forall_mem_append.mp hextra
  have hcalls := State.assumeAll_calls hu
  refine ⟨facts, ?_, σ, List.forall_mem_append.mpr ⟨?_, hknown⟩⟩
  · rw [← hfacts, assumptions, assumptions, hcalls]
  · exact State.isTrue_of_assumeAll hcondition hconditions hassumed hu

/-! ## Calls -/

/-- **A state that goes on at a call stays playable.** -/
theorem Goes.playable (hsolver : ExactSolver c.solver) (hs : c.Playable s) (h : c.Goes s t) :
    t.status = .aborted ∨ c.Playable t := by
  cases h with
  | noted ht => exact .inr (hs.notes ht)
  | checked _ hconditions hpossible hu =>
      exact .inr (playable_of_possible hsolver hconditions hpossible hu)
  | aborted => exact .inl rfl

theorem Goes.satisfiable (hsolver : ExactSolver c.solver) (hs : Satisfiable s.condition)
    (h : c.Goes s t) : t.status = .aborted ∨ Satisfiable t.condition := by
  cases h with
  | noted ht => exact .inr (ht.condition ▸ hs)
  | checked _ hconditions hpossible hu =>
      exact .inr (playable_of_possible hsolver hconditions hpossible hu).satisfiable
  | aborted => exact .inl rfl

end Context

/-! ## Branches -/

namespace Machine

open State

variable {m : Machine D} {s t : State D} {cases kept : List BranchCase} {case : BranchCase}

/-- **A case that is kept can be followed**: what a state assumes then is satisfiable. -/
theorem follows_satisfiable (hsolver : ExactSolver m.context.solver)
    (hs : Satisfiable s.condition) (hkept : m.feasibleCases s cases = .ok kept)
    (hcase : case ∈ kept) (h : Follows s case t) : Satisfiable t.condition := by
  obtain ⟨u, hu, hquiet⟩ := h
  obtain ⟨original, -, hsimplify, -, hadmits⟩ := mem_kept hkept hcase
  rw [hquiet.condition]
  obtain ⟨c, hc, ⟨-, rfl⟩ | rfl⟩ := assume_eq_ok hu
  · exact hs
  · -- What was asked about is simplified already.
    obtain rfl : case.condition = c :=
      Except.ok.inj ((simplify_normal hsimplify).simplify_eq.symm.trans hc)
    rcases hadmits with htrue | ⟨answer, hanswer, hnot⟩
    · obtain ⟨σ, hσ⟩ := hs
      refine ⟨σ, List.forall_mem_append.mpr ⟨hσ, List.forall_mem_singleton.mpr ?_⟩⟩
      rw [htrue]
      exact ⟨by simp [Assigns, occurrences, parts], rfl⟩
    · exact hsolver.satisfiable hanswer hnot

end Machine

end PlayerPaths
