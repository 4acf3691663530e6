import Mathlib.Algebra.GroupWithZero.Nat
import PlayerPaths.Proofs.Execution.Branches

/-!
# Runs

A run steps states until none is running. What one step keeps of all states together, a run keeps
(`run_invariant`), whatever the order of the states is. The loop ends (`work_loops`): there are at
most `maxStates` states, none of them takes more than `maxSteps` steps, and a step always leaves
something behind. So a run that succeeds has stepped every state that it reached to its end
(`run_complete`).
-/

namespace PlayerPaths

variable {D : Type}

/-- A policy goes on in at least one state, and takes no steps itself. -/
structure Policy.Productive (p : Policy D) : Prop where
  start : ∀ {s ts}, p.start s = .ok ts → ts ≠ [] ∧ ∀ t ∈ ts, t.steps = s.steps
  summarize : ∀ {s method arguments forks}, p.summarize s method arguments = .ok forks →
    forks ≠ [] ∧ ∀ fork ∈ forks, fork.1.steps = s.steps

namespace Machine

open State

variable {m : Machine D}

/-- The states that an execution comes by. -/
inductive Reached (m : Machine D) : State D → Prop
  | start {s t : State D} {ts : List (State D)} (hs : m.initialState = .ok s)
      (hts : m.policy.start s = .ok ts) (ht : t ∈ ts) : Reached m t
  | step {s t : State D} {ts : List (State D)} (hs : Reached m s) (hrunning : s.isRunning = true)
      (hts : m.step s = .ok ts) (ht : t ∈ ts) : Reached m t

/-- An execution begins at the first instruction of the entry point, or it has halted if there is
none. -/
theorem initialState_cases {s : State D} (h : m.initialState = .ok s) :
    ∃ b, m.context.entry.requireBody = .ok b ∧
      ((∃ first, b.resolve (.start 0) = some first ∧
          s = .start m.context.entry first m.policy.initial) ∨
        s = { State.start m.context.entry (.start 0) m.policy.initial with
          status := .halted }) := by
  simp only [initialState, bind_eq_ok] at h
  obtain ⟨b, hb, h⟩ := h
  refine ⟨b, hb, ?_⟩
  split at h
  · next first hfirst => exact .inl ⟨first, hfirst, (Except.ok.inj h).symm⟩
  · exact .inr (Except.ok.inj h).symm

/-! ## Invariants -/

def Agenda.states (a : Agenda D) : List (State D) := a.pending ++ a.stopped

theorem accept_eq_ok {a a' : Agenda D} {ts : List (State D)} (h : m.accept a ts = .ok a') :
    a'.pending = ts.filter State.isRunning ++ a.pending ∧
    a'.states.Perm (ts ++ a.states) ∧ a'.states.length ≤ m.context.options.maxStates := by
  simp only [accept, exceeded] at h
  split at h
  · simp at h
  · next hlimit =>
    obtain rfl := Except.ok.inj h
    refine ⟨rfl, ?_, ?_⟩
    · have hsplit := List.filter_append_perm State.isRunning ts
      have hswap := List.perm_append_comm_assoc a.pending (ts.filter fun s => !s.isRunning)
        a.stopped
      show (ts.filter State.isRunning ++ a.pending ++
        (ts.filter (fun s => !s.isRunning) ++ a.stopped)).Perm (ts ++ a.states)
      rw [List.append_assoc]
      refine (hswap.append_left _).trans ?_
      rw [← List.append_assoc]
      exact hsplit.append_right _
    · simp only [Agenda.states, List.length_append] at hlimit ⊢
      omega

theorem accept_stopped {a a' : Agenda D} {ts : List (State D)} (h : m.accept a ts = .ok a')
    (hstopped : ∀ s ∈ a.stopped, s.isRunning = false) :
    ∀ s ∈ a'.stopped, s.isRunning = false := by
  simp only [accept, exceeded] at h
  split at h
  · simp at h
  · obtain rfl := Except.ok.inj h
    refine List.forall_mem_append.mpr ⟨fun s hs => ?_, hstopped⟩
    simpa using (List.mem_filter.mp hs).2

variable {P : List (State D) → Prop}

theorem work_invariant (hperm : ∀ {l l'}, l.Perm l' → P l → P l')
    (hstep : ∀ {s ts rest}, m.Reached s → s.isRunning = true → m.step s = .ok ts →
      P (s :: rest) → P (ts ++ rest))
    {fuel : Nat} {a a' : Agenda D} (hreached : ∀ s ∈ a.pending, m.Reached s ∧ s.isRunning = true)
    (hP : P a.states) (h : m.work fuel a = .ok a') : P a'.states := by
  induction fuel generalizing a with
  | zero =>
      obtain rfl : a = a' := Except.ok.inj h
      exact hP
  | succ fuel ih =>
      unfold work at h
      cases hpending : a.pending with
      | nil =>
          simp only [hpending] at h
          obtain rfl : a = a' := Except.ok.inj h
          exact hP
      | cons s pending =>
          simp only [hpending, bind_eq_ok] at h
          obtain ⟨ts, hts, b, hb, h⟩ := h
          rw [hpending] at hreached
          obtain ⟨⟨hs, hrunning⟩, hothers⟩ := List.forall_mem_cons.mp hreached
          obtain ⟨hbpending, hbstates, -⟩ := accept_eq_ok hb
          refine ih ?_ ?_ h
          · intro t ht
            rw [hbpending] at ht
            rcases List.mem_append.mp ht with ht | ht
            · obtain ⟨ht, htrunning⟩ := List.mem_filter.mp ht
              exact ⟨.step hs hrunning hts ht, htrunning⟩
            · exact hothers t ht
          · refine hperm hbstates.symm (hstep hs hrunning hts ?_)
            have hstates : a.states = s :: (pending ++ a.stopped) := by
              rw [Agenda.states, hpending, List.cons_append]
            exact hstates ▸ hP

/-- The agenda at the end of a run. -/
def lastAgenda (m : Machine D) : Result (Agenda D) := do
  let states ← m.policy.start (← m.initialState)
  m.work m.stepBound (← m.accept {} states)

theorem run_eq_ok {states : List (State D)} :
    m.run = .ok states ↔ ∃ a, m.lastAgenda = .ok a ∧ states = a.stopped.reverse := by
  simp only [run, lastAgenda, bind_eq_ok, pure_eq_ok]
  constructor
  · rintro ⟨s, hs, ts, hts, a, ha, b, hb, rfl⟩
    exact ⟨b, ⟨s, hs, ts, hts, a, ha, hb⟩, rfl⟩
  · rintro ⟨b, ⟨s, hs, ts, hts, a, ha, hb⟩, rfl⟩
    exact ⟨s, hs, ts, hts, a, ha, b, hb, rfl⟩

/-- **What a step keeps, a run keeps.** -/
theorem run_invariant (hperm : ∀ {l l'}, l.Perm l' → P l → P l')
    (hstart : ∀ {s ts}, m.initialState = .ok s → m.policy.start s = .ok ts → P ts)
    (hstep : ∀ {s ts rest}, m.Reached s → s.isRunning = true → m.step s = .ok ts →
      P (s :: rest) → P (ts ++ rest))
    {a : Agenda D} (h : m.lastAgenda = .ok a) : P a.states := by
  simp only [lastAgenda, bind_eq_ok] at h
  obtain ⟨s, hs, ts, hts, b, hb, h⟩ := h
  obtain ⟨hpending, hstates, -⟩ := accept_eq_ok hb
  have hstates : b.states.Perm ts := by simpa [Agenda.states] using hstates
  refine work_invariant hperm hstep ?_ (hperm hstates.symm (hstart hs hts)) h
  intro t ht
  rw [hpending, List.append_nil] at ht
  obtain ⟨ht, hrunning⟩ := List.mem_filter.mp ht
  exact ⟨.start hs hts ht, hrunning⟩

/-! ## Completion -/

theorem work_stopped {fuel : Nat} {a a' : Agenda D}
    (hstopped : ∀ s ∈ a.stopped, s.isRunning = false) (h : m.work fuel a = .ok a') :
    ∀ s ∈ a'.stopped, s.isRunning = false := by
  induction fuel generalizing a with
  | zero =>
      obtain rfl : a = a' := Except.ok.inj h
      exact hstopped
  | succ fuel ih =>
      unfold work at h
      cases hpending : a.pending with
      | nil =>
          simp only [hpending] at h
          obtain rfl : a = a' := Except.ok.inj h
          exact hstopped
      | cons s pending =>
          simp only [hpending, bind_eq_ok] at h
          obtain ⟨ts, -, b, hb, h⟩ := h
          exact ih (accept_stopped hb hstopped) h

/-- No state that a run gives is running. -/
theorem lastAgenda_stopped {a : Agenda D} (h : m.lastAgenda = .ok a) :
    ∀ s ∈ a.stopped, s.isRunning = false := by
  simp only [lastAgenda, bind_eq_ok] at h
  obtain ⟨s, -, ts, -, b, hb, h⟩ := h
  exact work_stopped (accept_stopped hb (by simp)) h

def totalSteps (l : List (State D)) : Nat := (l.map State.steps).sum

theorem totalSteps_le {l : List (State D)} {n : Nat} (h : ∀ s ∈ l, s.steps ≤ n) :
    totalSteps l ≤ l.length * n := by
  induction l with
  | nil => simp [totalSteps]
  | cons s l ih =>
      obtain ⟨hs, hl⟩ := List.forall_mem_cons.mp h
      have hrest := ih hl
      simp only [totalSteps, List.map_cons, List.sum_cons, List.length_cons,
        Nat.succ_mul] at hrest ⊢
      omega

/-- All states together have taken more steps when one of them has made way for others that have
taken one more step. -/
theorem totalSteps_lt {s : State D} {ts rest l : List (State D)} (hne : ts ≠ [])
    (hts : ∀ t ∈ ts, t.steps = s.steps + 1) (hl : l.Perm (ts ++ rest)) :
    totalSteps (s :: rest) < totalSteps l := by
  have htotal : totalSteps l = totalSteps ts + totalSteps rest := by
    rw [totalSteps, (hl.map State.steps).sum_nat]
    simp [totalSteps]
  have hchild : s.steps + 1 ≤ totalSteps ts := by
    obtain ⟨t, others, rfl⟩ := List.exists_cons_of_ne_nil hne
    rw [← hts t List.mem_cons_self, totalSteps, List.map_cons, List.sum_cons]
    exact Nat.le_add_right _ _
  simp only [totalSteps, List.map_cons, List.sum_cons] at htotal hchild ⊢
  omega

/-- A step leaves states behind that have taken one more step. -/
def Advances (m : Machine D) : Prop :=
  ∀ s ts, m.step s = .ok ts → ts ≠ [] ∧ ∀ t ∈ ts, t.steps = s.steps + 1

/-- A step leaves states behind that have taken one more step. -/
theorem advances (hpolicy : m.policy.Productive) : m.Advances := by
  intro s ts h
  obtain ⟨-, ⟨t, rfl, hquiet⟩ | hsummarizes | ⟨l, cases, -, hbranch⟩⟩ := step_cases h
  · exact ⟨by simp, List.forall_mem_singleton.mpr hquiet.steps⟩
  · obtain ⟨method, arguments, forks, call, -, hforks, hresults⟩ := hsummarizes
    obtain ⟨hne, hsteps⟩ := hpolicy.summarize hforks
    refine ⟨?_, fun t ht => ?_⟩
    · rintro rfl
      exact hne (List.forall₂_nil_right_iff.mp hresults)
    · obtain ⟨fork, hfork, ht⟩ := forall₂_exists_of_mem_right hresults ht
      obtain ⟨f, callers, -, rfl⟩ := modifyFrame_eq_ok.mp ht
      exact hsteps fork hfork
  · obtain ⟨kept, -, ⟨t, rfl, hquiet⟩ | ⟨order, -, hne, hfollows⟩⟩ := branch_cases hbranch
    · exact ⟨by simp, List.forall_mem_singleton.mpr hquiet.steps⟩
    · refine ⟨?_, fun t ht => ?_⟩
      · rintro rfl
        exact hne (List.forall₂_nil_right_iff.mp hfollows)
      · obtain ⟨case, -, u, hu, hquiet⟩ := forall₂_exists_of_mem_right hfollows ht
        rw [hquiet.steps]
        obtain ⟨e, -, ⟨-, rfl⟩ | rfl⟩ := assume_eq_ok hu <;> rfl

/-! ## The loop -/

/-- One round of the loop of a run: the next state makes a step. -/
def round (m : Machine D) (a : Agenda D) : Option (Result (Agenda D)) :=
  match a.pending with
  | [] => none
  | s :: pending => some do m.accept { a with pending } (← m.step s)

/-- The loop of a run, which has no bound of its own. It ends after a number of rounds: when no state
is left to step, or in the error of a step, or when there are too many states. -/
inductive Loops (m : Machine D) : Nat → Agenda D → Result (Agenda D) → Prop
  | done {a : Agenda D} (h : m.round a = none) : Loops m 0 a (.ok a)
  | fail {a : Agenda D} {e : Error} (h : m.round a = some (.error e)) : Loops m 1 a (.error e)
  | next {a b : Agenda D} {rounds : Nat} {result : Result (Agenda D)}
      (h : m.round a = some (.ok b)) (hb : Loops m rounds b result) :
      Loops m (rounds + 1) a result

theorem round_eq_none {a : Agenda D} : m.round a = none ↔ a.pending = [] := by
  unfold round
  cases a.pending <;> simp

theorem work_succ (fuel : Nat) (a : Agenda D) :
    m.work (fuel + 1) a = match m.round a with
      | none => .ok a
      | some r => r >>= m.work fuel := by
  rw [work, round]
  cases hpending : a.pending with
  | nil => rfl
  | cons s pending =>
      dsimp only
      cases m.step s <;> rfl

theorem Loops.pending_eq_nil {rounds : Nat} {a a' : Agenda D} (h : m.Loops rounds a (.ok a')) :
    a'.pending = [] := by
  generalize hresult : Except.ok a' = result at h
  induction h with
  | done h =>
      obtain rfl := Except.ok.inj hresult
      exact round_eq_none.mp h
  | fail h => cases hresult
  | next _ _ ih => exact ih hresult

/-- There are as many states and have been as many steps as the limits allow. -/
structure Agenda.Within (m : Machine D) (a : Agenda D) : Prop where
  length : a.states.length ≤ m.context.options.maxStates
  steps : ∀ s ∈ a.states, s.steps ≤ m.context.options.maxSteps

theorem Agenda.Within.totalSteps_le {a : Agenda D} (h : a.Within m) :
    totalSteps a.states ≤ m.context.options.maxStates * m.context.options.maxSteps :=
  Nat.le_trans (Machine.totalSteps_le h.steps) (Nat.mul_le_mul_right _ h.length)

/-- A round stays within the limits, and there are more steps after it. -/
theorem round_within (hsteps : m.Advances) {a b : Agenda D} (ha : a.Within m)
    (h : m.round a = some (.ok b)) :
    b.Within m ∧ totalSteps a.states < totalSteps b.states := by
  unfold round at h
  cases hpending : a.pending with
  | nil => simp [hpending] at h
  | cons s pending =>
      simp only [hpending, Option.some.injEq, bind_eq_ok] at h
      obtain ⟨ts, hts, hb⟩ := h
      obtain ⟨-, hstates, hlength⟩ := accept_eq_ok hb
      obtain ⟨hne, hts'⟩ := hsteps s ts hts
      obtain ⟨hlimit, -⟩ := step_cases hts
      have hold : a.states = s :: (pending ++ a.stopped) := by
        rw [Agenda.states, hpending, List.cons_append]
      have hmax := ha.steps
      rw [hold] at hmax ⊢
      refine ⟨⟨hlength, fun t ht => ?_⟩, totalSteps_lt hne hts' hstates⟩
      rcases List.mem_append.mp (hstates.mem_iff.mp ht) with ht | ht
      · have := hts' t ht
        omega
      · exact hmax t (List.mem_cons_of_mem _ ht)

/-- **The loop ends**, in what it gives when its rounds are bounded: no more rounds are made than the
limits leave steps to take. -/
theorem work_loops (hsteps : m.Advances) {fuel : Nat} {a : Agenda D} (ha : a.Within m)
    (hfuel : m.context.options.maxStates * m.context.options.maxSteps
      < fuel + totalSteps a.states) :
    ∃ rounds, m.Loops rounds a (m.work fuel a) ∧ rounds + totalSteps a.states ≤
      m.context.options.maxStates * m.context.options.maxSteps + 1 := by
  induction fuel generalizing a with
  | zero =>
      -- All steps that the limits allow have been taken.
      have htotal := ha.totalSteps_le
      omega
  | succ fuel ih =>
      rw [work_succ]
      cases hround : m.round a with
      | none =>
          have htotal := ha.totalSteps_le
          exact ⟨0, .done hround, by omega⟩
      | some r =>
          cases r with
          | error e =>
              have htotal := ha.totalSteps_le
              exact ⟨1, .fail hround, by omega⟩
          | ok b =>
              obtain ⟨hb, hmore⟩ := round_within hsteps ha hround
              obtain ⟨rounds, hloops, hrounds⟩ := ih hb (by omega)
              exact ⟨rounds + 1, .next hround hloops, by omega⟩

def firstAgenda (m : Machine D) : Result (Agenda D) := do
  m.accept {} (← m.policy.start (← m.initialState))

theorem firstAgenda_eq_ok {a : Agenda D} (h : m.firstAgenda = .ok a) :
    ∃ s ts, m.initialState = .ok s ∧ m.policy.start s = .ok ts ∧ a.states.Perm ts ∧
      a.states.length ≤ m.context.options.maxStates := by
  simp only [firstAgenda, bind_eq_ok] at h
  obtain ⟨s, hs, ts, hts, ha⟩ := h
  obtain ⟨-, hstates, hlength⟩ := accept_eq_ok ha
  exact ⟨s, ts, hs, hts, by simpa [Agenda.states] using hstates, hlength⟩

/-- The loop of a run ends. -/
theorem firstAgenda_loops (hsteps : m.Advances)
    (hstart : ∀ {s ts}, m.initialState = .ok s → m.policy.start s = .ok ts →
      ∀ t ∈ ts, t.steps = 0)
    {a : Agenda D} (h : m.firstAgenda = .ok a) :
    a.Within m ∧ ∃ rounds, m.Loops rounds a (m.work m.stepBound a) ∧
      rounds ≤ m.context.options.maxStates * m.context.options.maxSteps + 1 := by
  obtain ⟨s, ts, hs, hts, hstates, hlength⟩ := firstAgenda_eq_ok h
  have hwithin : a.Within m := by
    refine ⟨hlength, fun t ht => ?_⟩
    rw [hstart hs hts t (hstates.mem_iff.mp ht)]
    exact Nat.zero_le _
  have hbound : m.context.options.maxStates * m.context.options.maxSteps
      < m.stepBound + totalSteps a.states := by
    rw [stepBound, Nat.mul_succ]
    omega
  obtain ⟨rounds, hloops, hrounds⟩ := work_loops hsteps hwithin hbound
  exact ⟨hwithin, rounds, hloops, by omega⟩

theorem lastAgenda_eq : m.lastAgenda = m.firstAgenda >>= m.work m.stepBound := by
  simp [lastAgenda, firstAgenda]

/-- **A run that succeeds is complete**: no state is left to step. -/
theorem run_complete (hsteps : m.Advances)
    (hstart : ∀ {s ts}, m.initialState = .ok s → m.policy.start s = .ok ts →
      ∀ t ∈ ts, t.steps = 0)
    {a : Agenda D} (h : m.lastAgenda = .ok a) : a.pending = [] := by
  rw [lastAgenda_eq, bind_eq_ok] at h
  obtain ⟨b, hb, h⟩ := h
  obtain ⟨-, rounds, hloops, -⟩ := firstAgenda_loops hsteps hstart hb
  rw [h] at hloops
  exact hloops.pending_eq_nil

end Machine

end PlayerPaths
