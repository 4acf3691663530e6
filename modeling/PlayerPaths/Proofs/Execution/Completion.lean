import PlayerPaths.Proofs.Execution.CallStack
import PlayerPaths.Proofs.Execution.Polls
import PlayerPaths.Proofs.Execution.Pruning

/-!
# Every run ends

The loop of a run has no bound of its own: it goes on until no state is left to step
(`Machine.Loops`). It ends because a step leaves states behind that have taken one more step, so all
states together have taken more steps after every round, and the limits allow only so many. The
result is that of `Machine.run` (`Machine.run_ends`): the states that were reached and have stopped,
within the limits.
-/

namespace PlayerPaths

open IL

variable {D : Type}

theorem Policy.input_productive (c : Context) (leads : LeadsResult) :
    (Policy.input c leads).Productive where
  start h := Context.startStatesOf_starts _ h
  summarize h := by
    obtain ⟨hne, hgoes⟩ := Context.summarizeInput_goesOn _ h
    exact ⟨hne, fun fork hfork => (hgoes fork hfork).steps⟩

namespace Machine

open State

variable {m : Machine D}

theorem Standard.productive (hm : m.Standard) : m.policy.Productive := by
  cases hm with
  | default c => exact default_productive c
  | input c leads => exact Policy.input_productive c leads

/-! ## The whole run -/

/-- A run ends after a number of rounds of its loop, in an error or with the states in the order in
which they stopped. -/
inductive Ends (m : Machine D) : Nat → Result (List (State D)) → Prop
  | fail {e : Error} (h : m.firstAgenda = .error e) : Ends m 0 (.error e)
  | loop {a : Agenda D} {rounds : Nat} {result : Result (Agenda D)} (h : m.firstAgenda = .ok a)
      (hloop : m.Loops rounds a result) : Ends m rounds (result.map fun a => a.stopped.reverse)

theorem Loops.unique {rounds rounds' : Nat} {a : Agenda D} {result result' : Result (Agenda D)}
    (h : m.Loops rounds a result) (h' : m.Loops rounds' a result') :
    rounds = rounds' ∧ result = result' := by
  induction h generalizing rounds' with
  | done h =>
      cases h' with
      | done _ => exact ⟨rfl, rfl⟩
      | fail h' | next h' _ => simp [h] at h'
  | fail h =>
      cases h' with
      | fail h' =>
          rw [h] at h'
          cases h'
          exact ⟨rfl, rfl⟩
      | done h' | next h' _ => simp [h] at h'
  | next h _ ih =>
      cases h' with
      | next h' hb' =>
          rw [h] at h'
          cases h'
          obtain ⟨rfl, rfl⟩ := ih hb'
          exact ⟨rfl, rfl⟩
      | done h' | fail h' => simp [h] at h'

theorem Ends.unique {rounds rounds' : Nat} {result result' : Result (List (State D))}
    (h : m.Ends rounds result) (h' : m.Ends rounds' result') :
    rounds = rounds' ∧ result = result' := by
  cases h with
  | fail h =>
      cases h' with
      | fail h' =>
          rw [h] at h'
          cases h'
          exact ⟨rfl, rfl⟩
      | loop h' _ => simp [h] at h'
  | loop h hloop =>
      cases h' with
      | fail h' => simp [h] at h'
      | loop h' hloop' =>
          rw [h] at h'
          cases h'
          obtain ⟨rfl, rfl⟩ := hloop.unique hloop'
          exact ⟨rfl, rfl⟩

theorem start_steps (hpolicy : m.policy.Productive) {s : State D} {ts : List (State D)}
    (hs : m.initialState = .ok s) (hts : m.policy.start s = .ok ts) : ∀ t ∈ ts, t.steps = 0 := by
  intro t ht
  rw [(hpolicy.start hts).2 t ht]
  exact (initialState_eq_ok hs).2.1

theorem run_eq : m.run = (m.firstAgenda >>= m.work m.stepBound).map fun a => a.stopped.reverse := by
  show m.run = (fun a => a.stopped.reverse) <$> (m.firstAgenda >>= m.work m.stepBound)
  simp [run, firstAgenda]

/-- A run ends in what the loop gives when its rounds are bounded. -/
theorem exists_ends (hpolicy : m.policy.Productive) :
    ∃ rounds ≤ m.context.options.maxStates * m.context.options.maxSteps + 1,
      m.Ends rounds m.run := by
  rw [run_eq]
  cases hfirst : m.firstAgenda with
  | error e => exact ⟨0, Nat.zero_le _, .fail hfirst⟩
  | ok a =>
      obtain ⟨-, rounds, hloops, hrounds⟩ :=
        firstAgenda_loops (advances hpolicy) (start_steps hpolicy) hfirst
      exact ⟨rounds, hrounds, .loop hfirst hloops⟩

/-! ## Its states -/

theorem Loops.within (hsteps : m.Advances) {rounds : Nat} {a a' : Agenda D} (ha : a.Within m)
    (h : m.Loops rounds a (.ok a')) : a'.Within m := by
  generalize hresult : Except.ok a' = result at h
  induction h with
  | done h =>
      obtain rfl := Except.ok.inj hresult
      exact ha
  | fail h => cases hresult
  | next h _ ih => exact ih (round_within hsteps ha h).1 hresult

theorem lastAgenda_within (hpolicy : m.policy.Productive) {a : Agenda D}
    (h : m.lastAgenda = .ok a) : a.Within m := by
  rw [lastAgenda_eq, bind_eq_ok] at h
  obtain ⟨b, hb, h⟩ := h
  obtain ⟨hwithin, rounds, hloops, -⟩ :=
    firstAgenda_loops (advances hpolicy) (start_steps hpolicy) hb
  rw [h] at hloops
  exact hloops.within (advances hpolicy) hwithin

/-- Some state is left, because a step always leaves one behind. -/
theorem lastAgenda_nonempty (hpolicy : m.policy.Productive) {a : Agenda D}
    (h : m.lastAgenda = .ok a) : a.states ≠ [] := by
  refine run_invariant (P := fun l => l ≠ []) ?_ ?_ ?_ h
  · rintro l l' hperm hl rfl
    exact hl hperm.eq_nil
  · exact fun _ hts => (hpolicy.start hts).1
  · intro s ts rest _ _ hts _ hnil
    exact (advances hpolicy s ts hts).1 (List.append_eq_nil_iff.mp hnil).1

theorem lastAgenda_reached {a : Agenda D} (h : m.lastAgenda = .ok a) :
    ∀ s ∈ a.states, m.Reached s := by
  refine run_invariant (P := fun l => ∀ s ∈ l, m.Reached s) ?_ ?_ ?_ h
  · exact fun hperm hl s hs => hl s (hperm.mem_iff.mpr hs)
  · exact fun hs hts t ht => .start hs hts ht
  · intro s ts rest hs hrunning hts hall
    exact List.forall_mem_append.mpr
      ⟨fun t ht => .step hs hrunning hts ht, (List.forall_mem_cons.mp hall).2⟩

/-- A state turns into others by its steps. -/
theorem Descends.head {s t : State D} {ts : List (State D)} (h : m.Descends s t)
    (hrunning : s.isRunning = true) (hts : m.step s = .ok ts) :
    t = s ∨ ∃ u ∈ ts, m.Descends u t := by
  induction h with
  | refl => exact .inl rfl
  | step _ hrunning' hts' hu ih =>
      rcases ih with rfl | ⟨v, hv, hdescends⟩
      · obtain rfl := Except.ok.inj (hts.symm.trans hts')
        exact .inr ⟨_, hu, .refl⟩
      · exact .inr ⟨v, hv, hdescends.step hrunning' hts' hu⟩

/-- Every state that is reached comes from one that the execution starts with. -/
theorem Reached.exists_descends {s t : State D} {ts : List (State D)}
    (hs : m.initialState = .ok s) (hts : m.policy.start s = .ok ts) (h : m.Reached t) :
    ∃ u ∈ ts, m.Descends u t := by
  induction h with
  | start hs' hts' ht =>
      obtain rfl := Except.ok.inj (hs.symm.trans hs')
      obtain rfl := Except.ok.inj (hts.symm.trans hts')
      exact ⟨_, ht, .refl⟩
  | step _ hrunning hts' ht ih =>
      obtain ⟨u, hu, hdescends⟩ := ih
      exact ⟨u, hu, hdescends.step hrunning hts' ht⟩

/-- **No state is lost**: what was reached and has stopped comes from a state that is still there. -/
theorem lastAgenda_descends {a : Agenda D} (h : m.lastAgenda = .ok a) {t : State D}
    (ht : m.Reached t) (hstopped : t.isRunning = false) : ∃ s ∈ a.states, m.Descends s t := by
  refine run_invariant (P := fun l => ∃ s ∈ l, m.Descends s t) ?_ ?_ ?_ h
  · rintro l l' hperm ⟨s, hs, hdescends⟩
    exact ⟨s, hperm.mem_iff.mp hs, hdescends⟩
  · exact fun hs hts => ht.exists_descends hs hts
  · rintro s ts rest _ hrunning hts ⟨u, hu, hdescends⟩
    rcases List.mem_cons.mp hu with rfl | hu
    · rcases hdescends.head hrunning hts with rfl | ⟨v, hv, hdescends⟩
      · simp [hrunning] at hstopped
      · exact ⟨v, List.mem_append_left _ hv, hdescends⟩
    · exact ⟨u, List.mem_append_right _ hu, hdescends⟩

/-- A state that has stopped turns into no other one. -/
theorem Descends.eq_of_stopped {s t : State D} (h : m.Descends s t) (hs : s.isRunning = false) :
    t = s := by
  induction h with
  | refl => rfl
  | step _ hrunning _ _ ih =>
      rw [ih, hs] at hrunning
      cases hrunning

/-- **Every run ends**, after no more rounds than the limits leave steps to take, and what it gives
is the only outcome of the loop. If it succeeds, it gives at least one state and at most `maxStates`,
each of them has returned or was aborted after at most `maxSteps` steps, and these are all the states
that were reached and have stopped. -/
theorem run_ends (hm : m.Standard) :
    (∃ rounds ≤ m.context.options.maxStates * m.context.options.maxSteps + 1,
      ∀ rounds' result, m.Ends rounds' result ↔ rounds' = rounds ∧ result = m.run) ∧
    ∀ states, m.run = .ok states →
      states ≠ [] ∧ states.length ≤ m.context.options.maxStates ∧
      (∀ s ∈ states, (s.status = .halted ∨ s.status = .aborted) ∧
        s.steps ≤ m.context.options.maxSteps) ∧
      ∀ s, s ∈ states ↔ m.Reached s ∧ s.isRunning = false := by
  have hpolicy := hm.productive
  constructor
  · obtain ⟨rounds, hrounds, hends⟩ := exists_ends hpolicy
    refine ⟨rounds, hrounds, fun rounds' result => ⟨fun h => h.unique hends, ?_⟩⟩
    rintro ⟨rfl, rfl⟩
    exact hends
  · intro states h
    obtain ⟨a, ha, rfl⟩ := run_eq_ok.mp h
    have hpending := run_complete (advances hpolicy) (start_steps hpolicy) ha
    have hstates : a.states = a.stopped := by rw [Agenda.states, hpending, List.nil_append]
    have hwithin := lastAgenda_within hpolicy ha
    have hnonempty := lastAgenda_nonempty hpolicy ha
    have hreached := lastAgenda_reached ha
    have hstopped := lastAgenda_stopped ha
    have hlimit := hwithin.steps
    rw [hstates] at hnonempty hreached hlimit
    refine ⟨by simpa using hnonempty, ?_, fun s hs => ?_, fun s => ⟨fun hs => ?_, ?_⟩⟩
    · rw [List.length_reverse, ← hstates]
      exact hwithin.length
    · rw [List.mem_reverse] at hs
      refine ⟨?_, hlimit s hs⟩
      have hnot := hstopped s hs
      cases hstatus : s.status with
      | running => simp [isRunning, hstatus] at hnot
      | halted => exact .inl rfl
      | aborted => exact .inr rfl
    · rw [List.mem_reverse] at hs
      exact ⟨hreached s hs, hstopped s hs⟩
    · rintro ⟨hs, hnot⟩
      obtain ⟨t, ht, hdescends⟩ := lastAgenda_descends ha hs hnot
      rw [hstates] at ht
      rw [hdescends.eq_of_stopped (hstopped t ht)]
      exact List.mem_reverse.mpr ht

/-- A method that never returns. -/
def spinning : Method :=
  ⟨.static "Player" "Update" [] .void, [], "Game",
    some { blocks := [⟨0, [⟨.branch 0, [⟨0, 4⟩]⟩]⟩] }⟩

/-- The execution of the method, with a limit of three steps. -/
def spinningMachine : Machine Unit :=
  .default { program := .empty "Game", entry := spinning, options := { maxSteps := 3 }
             solver := fun _ => .ok .unknown, sorts := {} }

theorem spinning_ends :
    (∃ rounds ≤ 4096 * 3 + 1, spinningMachine.Ends rounds
      (.error (.unsupported "more than 3 steps in Player.Update()"))) ∧
    ∃ states, keyMachine.run = .ok states ∧ 0 < states.length ∧ states.length ≤ 4096 ∧
      ∀ s, s ∈ states ↔ keyMachine.Reached s ∧ s.isRunning = false := by
  have hspinning : (match spinningMachine.run with
      | .error e => decide (e = .unsupported "more than 3 steps in Player.Update()")
      | .ok _ => false) = true := by decide +kernel
  have hkey : keyMachine.run.isOk = true := by decide +kernel
  constructor
  · obtain ⟨⟨rounds, hrounds, hends⟩, -⟩ := run_ends (m := spinningMachine) (.default _)
    refine ⟨rounds, hrounds, (hends _ _).mpr ⟨rfl, ?_⟩⟩
    cases hrun : spinningMachine.run with
    | ok states => simp [hrun] at hspinning
    | error e =>
        rw [hrun] at hspinning
        rw [of_decide_eq_true hspinning]
  · cases hrun : keyMachine.run with
    | error e => simp [hrun, Except.isOk, Except.toBool] at hkey
    | ok states =>
        obtain ⟨hne, hlength, -, hmem⟩ := (run_ends (m := keyMachine) (.input _ _)).2 states hrun
        exact ⟨states, rfl, List.length_pos_iff.mpr hne, hlength, hmem⟩

end Machine

end PlayerPaths
