import PlayerPaths.Proofs.Execution.Runs

/-!
# States that exclude each other

States that separate at a branch assume conditions that are never both true, and they only assume
more from then on. So when a policy starts and summarizes into states that exclude each other, all
states of a run do (`run_apart`). A policy may give up states that overlap with others; which states
count is a matter of their status.
-/

namespace PlayerPaths

open Formula

variable {D : Type} {σ : Assignment} {counts : Status → Bool}

/-- Two states that count are not both true. -/
def State.Apart (σ : Assignment) (counts : Status → Bool) (s t : State D) : Prop :=
  counts s.status = true → counts t.status = true → ¬ (s.Holds σ ∧ t.Holds σ)

theorem State.Apart.symm {s t : State D} (h : s.Apart σ counts t) : t.Apart σ counts s :=
  fun ht hs hholds => h hs ht hholds.symm

/-- A state that assumes more is apart from everything that it was apart from. -/
theorem State.Apart.mono {s t u : State D} (h : s.Apart σ counts u) (hs : counts s.status = true)
    (hsub : s.condition ⊆ t.condition) : t.Apart σ counts u :=
  fun _ hu ⟨ht, huholds⟩ => h hs hu ⟨ht.of_subset hsub, huholds⟩

/-- The value of a call that is not executed is unknown, and noting it assumes nothing. -/
theorem Context.symbolicCall_eq_ok {c : Context} {s t : State D} {m : IL.MethodRef}
    {arguments : List Formula} {id : Nat} {first : Bool} {value : Option Formula}
    (h : c.symbolicCall s m arguments id first = .ok (value, t)) :
    t.condition = s.condition ∧ ∀ v, value = some v → ∃ name sort, v = .var name sort := by
  simp only [symbolicCall, bind_eq_ok] at h
  obtain ⟨fresh, hfresh, h⟩ := h
  have hvalue : value = fresh ∧ t.condition = s.condition := by
    cases first with
    | true =>
        obtain ⟨rfl, rfl⟩ := Prod.mk.inj (Except.ok.inj h)
        exact ⟨rfl, rfl⟩
    | false =>
        by_cases hcontains : s.calls.contains id = true
        · obtain ⟨rfl, rfl⟩ : fresh = value ∧ s = t := by simpa [hcontains] using h
          exact ⟨rfl, rfl⟩
        · simp [hcontains] at h
  obtain ⟨rfl, hcondition⟩ := hvalue
  refine ⟨hcondition, ?_⟩
  rintro v rfl
  exact freshValue_eq_ok hfresh

/-- A call of its own is noted under the next number, and does not fork. -/
theorem Context.unknownCall_eq_ok {c : Context} {s : State D} {m : IL.MethodRef}
    {arguments : List Formula} {forks : List (State D × Option Formula)} :
    c.unknownCall s m arguments = .ok forks ↔
      ∃ value, freshValue c.sorts (.symcall s.callCount) (c.callType m) = .ok value ∧
        forks = [({ s with
          callCount := s.callCount + 1
          calls := s.calls.insert s.callCount ⟨m, arguments⟩ }, value)] := by
  simp [unknownCall, symbolicCall, State.nextCall, @eq_comm _ forks]

/-- A policy starts and summarizes into states that are apart. -/
structure Policy.Exclusive (p : Policy D) (σ : Assignment) (counts : Status → Bool) : Prop where
  start : ∀ {s ts}, p.start s = .ok ts → ts.Pairwise (State.Apart σ counts)
  summarize : ∀ {s method arguments forks}, p.summarize s method arguments = .ok forks →
    forks.Pairwise (fun a b => a.1.Apart σ counts b.1) ∧
      ∀ fork ∈ forks, s.condition ⊆ fork.1.condition

namespace Machine

open State

variable {m : Machine D} {s : State D} {ts : List (State D)}

/-- Every switch that an execution makes has distinct constants. -/
def DistinctSwitches (m : Machine D) : Prop :=
  ∀ s constants, m.Reached s → s.isRunning = true → m.switchConstants s = .ok constants →
    constants.Nodup

theorem follows_subset {case : BranchCase} {t : State D} (h : Follows s case t) :
    s.condition ⊆ t.condition := by
  obtain ⟨u, hu, hquiet⟩ := h
  rw [hquiet.condition]
  exact assume_subset hu

/-- Noting a result changes neither what a state assumes nor its status. -/
theorem setResult_eq_ok {call : Nat} {result : Option Formula} {t : State D}
    (h : s.setResult call result = .ok t) : t.condition = s.condition ∧ t.status = s.status := by
  obtain ⟨f, callers, -, rfl⟩ := modifyFrame_eq_ok.mp h
  exact ⟨rfl, rfl⟩

theorem summarizes_apart (hpolicy : m.policy.Exclusive σ counts) (h : m.Summarizes s ts) :
    ts.Pairwise (Apart σ counts) ∧ ∀ t ∈ ts, s.condition ⊆ t.condition := by
  obtain ⟨method, arguments, forks, call, -, hforks, hresults⟩ := h
  obtain ⟨hapart, hsub⟩ := hpolicy.summarize hforks
  constructor
  · refine forall₂_pairwise hresults hapart fun ht hu hforks => ?_
    obtain ⟨hcondition, hstatus⟩ := setResult_eq_ok ht
    obtain ⟨hcondition', hstatus'⟩ := setResult_eq_ok hu
    rw [Apart, Holds, Holds, hstatus, hstatus', hcondition, hcondition']
    exact hforks
  · intro t ht
    obtain ⟨fork, hfork, ht⟩ := forall₂_exists_of_mem_right hresults ht
    rw [(setResult_eq_ok ht).1]
    exact hsub fork hfork

/-- The states that a step gives are apart, and assume what the state before it does. -/
theorem step_apart (hpolicy : m.policy.Exclusive σ counts)
    (hswitch : ∀ constants, m.switchConstants s = .ok constants → constants.Nodup)
    (h : m.step s = .ok ts) :
    ts.Pairwise (Apart σ counts) ∧ ∀ t ∈ ts, s.condition ⊆ t.condition := by
  obtain ⟨-, ⟨t, rfl, hquiet⟩ | hsummarizes | ⟨l, cases, hcases, hbranch⟩⟩ := step_cases h
  · refine ⟨List.pairwise_singleton _ _, List.forall_mem_singleton.mpr ?_⟩
    rw [hquiet.condition]
    exact List.Subset.refl _
  · exact summarizes_apart (s := s.tick) hpolicy hsummarizes
  · obtain ⟨kept, hkept, ⟨t, rfl, hquiet⟩ | ⟨order, hperm, -, hfollows⟩⟩ := branch_cases hbranch
    · refine ⟨List.pairwise_singleton _ _, List.forall_mem_singleton.mpr ?_⟩
      rw [hquiet.condition]
      exact List.Subset.refl _
    · have hcontrary := kept_contrary hkept (branchCases_contrary (σ := σ) hcases hswitch)
      have horder := (hperm.pairwise_iff fun hab => hab.symm).mpr hcontrary
      refine ⟨(follows_exclusive hfollows horder).imp fun hne _ _ => hne, fun t ht => ?_⟩
      obtain ⟨case, -, hcase⟩ := forall₂_exists_of_mem_right hfollows ht
      exact follows_subset (s := s.tick) hcase

/-- **The states of a run are apart.** -/
theorem run_apart (hrunning : counts .running = true) (hpolicy : m.policy.Exclusive σ counts)
    (hswitch : m.DistinctSwitches) {a : Agenda D} (h : m.lastAgenda = .ok a) :
    a.states.Pairwise (Apart σ counts) := by
  refine run_invariant (fun hperm => (hperm.pairwise_iff fun hst => hst.symm).mp)
    (fun _ hts => hpolicy.start hts) ?_ h
  intro s ts rest hs hsrunning hts hapart
  obtain ⟨hfirst, hrest⟩ := List.pairwise_cons.mp hapart
  obtain ⟨hts, hsub⟩ := step_apart hpolicy (fun constants => hswitch s constants hs hsrunning) hts
  have hcounts : counts s.status = true := by
    have : s.status = .running := by simpa [isRunning] using hsrunning
    rw [this]
    exact hrunning
  refine List.pairwise_append.mpr ⟨hts, hrest, fun t ht u hu => ?_⟩
  exact (hfirst u hu).mono hcounts (hsub t ht)

end Machine

end PlayerPaths
