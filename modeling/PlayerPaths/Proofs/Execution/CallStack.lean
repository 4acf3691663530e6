import PlayerPaths.Proofs.Execution.FormedPolls
import PlayerPaths.Proofs.Execution.Partition

/-!
# The call stack stays in order

Counted from the entry point, every frame of a running state is as deep as it has callers, stands at
an instruction and has the results of the first calls of it; the next frame returns the result of the
call behind these (`State.InOrder`). The machine never misses a frame, a return slot, a result or an
instruction then: a run ends in an error about them only if the solver raises it
(`Machine.stack_inOrder`).
-/

namespace PlayerPaths

open IL

variable {D : Type}

/-- The two ways of executing an entry point. -/
inductive Machine.Standard : {D : Type} → Machine D → Prop
  | default (c : Context) : Standard (Machine.default c)
  | input (c : Context) (leads : LeadsResult) : Standard (Machine.input c leads)

theorem Machine.Standard.lawful {m : Machine D} (hm : m.Standard) :
    ∃ I, m.policy.Lawful m.context I := by
  cases hm with
  | default c => exact ⟨_, Policy.default_lawful c⟩
  | input c leads => exact ⟨_, Policy.input_lawful c leads⟩

/-- A frame above some callers and below the frame that it calls, if there is one. -/
structure Frame.InOrder (f : Frame) (callers : List Frame) (next : Option Frame) : Prop where
  depth : f.depth = callers.length
  returnSlot : f.returnSlot.isSome = true ↔ callers ≠ []
  /-- The frame stands at an instruction, which is no glue, and has the results of the first calls of
  it. The next frame returns the result of the call behind these. -/
  results : ∃ i, f.method.instruction f.location = .ok i ∧ i.isGlue = false ∧
    ∃ made ≤ i.operation.sites.length, (∀ call, call ∈ f.results ↔ call < made) ∧
      ∀ g ∈ next, g.returnSlot.map ReturnSlot.call = some made

/-- There is a current frame, and all frames are in order. The current frame is the first one, so the
position of a frame is the number of its callers. -/
structure State.InOrder (s : State D) : Prop where
  nonempty : s.frames ≠ []
  frames : ∀ above f callers, s.frames = above ++ f :: callers → f.InOrder callers above.getLast?

namespace Stacked

variable {made : Nat} {i : Instruction} {f : Frame} {frames callers : List Frame}

theorem isSome_returnSlot (h : Stacked made i (f :: callers)) :
    f.returnSlot.isSome = true ↔ callers ≠ [] := by
  cases h with
  | entry _ hslot => simp [hslot]
  | call _ hslot hcallers _ =>
      obtain ⟨g, others, rfl, -⟩ := hcallers.exists_cons
      simp [hslot]

/-- The current frame of a stack is in order below a frame that returns the next result. -/
theorem inOrder_current (h : Stacked made i (f :: callers)) {next : Option Frame}
    (hnext : ∀ g ∈ next, g.returnSlot.map ReturnSlot.call = some made) :
    f.InOrder callers next where
  depth := h.placed.depth
  returnSlot := h.isSome_returnSlot
  results := ⟨i, h.placed.instruction, h.placed.real, made, h.placed.made_le, h.placed.results, hnext⟩

theorem inOrder (h : Stacked made i frames) {above : List Frame}
    (hframes : frames = above ++ f :: callers) : f.InOrder callers above.getLast? := by
  induction h generalizing above with
  | @entry g made i h hslot =>
      obtain ⟨rfl, hcons⟩ : above = [] ∧ [g] = f :: callers := by
        cases above with
        | nil => exact ⟨rfl, hframes⟩
        | cons g' above => simp at hframes
      obtain ⟨rfl, rfl⟩ := List.cons.inj hcons
      exact (Stacked.entry h hslot).inOrder_current (by simp)
  | @call g made i j waiting slot h hslot hcallers hwaits ih =>
      cases above with
      | nil =>
          obtain ⟨rfl, rfl⟩ := List.cons.inj hframes
          exact (Stacked.call h hslot hcallers hwaits).inOrder_current (by simp)
      | cons g' above =>
          obtain ⟨rfl, hwaiting⟩ := List.cons.inj hframes
          cases above with
          | nil =>
              -- The frame is the one that the current frame returns to.
              obtain rfl : waiting = f :: callers := hwaiting
              exact hcallers.inOrder_current (by simp [hslot])
          | cons g'' above =>
              rw [List.getLast?_cons_cons]
              exact ih hwaiting

end Stacked

namespace Machine

/-- **The call stack stays in order** in every running state, so no run ends in an error about the
stack unless the solver raises it. -/
theorem stack_inOrder {m : Machine D} (hm : m.Standard) :
    (∀ s, m.Reached s → s.isRunning = true → s.InOrder) ∧
      ∀ e, m.run = .error e → StackError e → ∃ query, m.context.solver query = .error e := by
  obtain ⟨I, hpolicy⟩ := hm.lawful
  refine ⟨fun s hs hrunning => ?_, fun e he => (run_meets hpolicy).error he⟩
  obtain ⟨made, i, hstack⟩ := (hs.formed hpolicy).stack hrunning
  obtain ⟨f, callers, hframes, -⟩ := hstack.exists_cons
  exact ⟨by simp [hframes], fun above f callers hframes => hstack.inOrder hframes⟩

end Machine

/-! ## A method that is entered -/

namespace Machine

/-- The first state after a number of steps, if it gets there. -/
def firstAfter? (m : Machine D) : Nat → Option (State D)
  | 0 =>
    match (do m.policy.start (← m.initialState) : Result (List (State D))) with
    | .ok states => states.head?
    | .error _ => none
  | n + 1 => do
    let s ← m.firstAfter? n
    if s.isRunning then
      match m.step s with
      | .ok states => states.head?
      | .error _ => none
    else none

theorem reached_of_firstAfter? {m : Machine D} {n : Nat} {s : State D}
    (h : m.firstAfter? n = some s) : m.Reached s := by
  induction n generalizing s with
  | zero =>
      unfold firstAfter? at h
      split at h
      · next states hstates =>
        obtain ⟨t, ht, hstates⟩ := bind_eq_ok.mp hstates
        exact .start ht hstates (List.mem_of_mem_head? h)
      · cases h
  | succ n ih =>
      simp only [firstAfter?, Option.bind_eq_bind, Option.bind_eq_some_iff] at h
      obtain ⟨t, ht, h⟩ := h
      split at h
      · next hrunning =>
        split at h
        · next states hstates => exact .step (ih ht) hrunning hstates (List.mem_of_mem_head? h)
        · cases h
      · cases h

/-- A check that the first state after some steps passes finds a state that is reached. -/
theorem exists_reached {m : Machine D} {n : Nat} {p : State D → Bool}
    (h : (m.firstAfter? n).any p = true) : ∃ s, m.Reached s ∧ p s = true := by
  cases hs : m.firstAfter? n with
  | none => simp [hs] at h
  | some s => exact ⟨s, reached_of_firstAfter? hs, by simpa [hs] using h⟩

/-- A method that passes a value that nobody knows on to another one. -/
def passing : Method :=
  let reading : Expression := .call (.static "Sensor" "Read" [] .int32) []
  ⟨.static "Player" "Update" [] .void, [], "Game", some { blocks := [⟨0,
    [⟨.call ⟨.static "Player" "Show" [.int32] .void, [reading]⟩, [⟨0, 4⟩]⟩]⟩] }⟩

/-- The method that it is passed on to, which looks at something else about it. -/
def passedOn : Method :=
  let x : Variable := ⟨"x", .parameter 0, .int32⟩
  let scaled : Expression := .call (.static "Sensor" "Scale" [.int32] .int32) [.load x]
  let test : Expression := .compare .equal .none scaled (.constant (.int32 3))
  ⟨.static "Player" "Show" [.int32] .void, [⟨"x", .int32⟩], "Game",
    some { blocks := [⟨0, [⟨.branchIf test 1, [⟨0, 4⟩]⟩]⟩, ⟨1, [⟨.leave none, [⟨5, 5⟩]⟩]⟩] }⟩

def passingMachine : Machine Unit :=
  .default { program := ((Program.empty "Game").addMethod passing).addMethod passedOn
             entry := passing, options := {}, solver := fun _ => .ok .unknown, sorts := {} }

theorem passing_stack_inOrder :
    ∃ s, passingMachine.Reached s ∧ s.isRunning = true ∧ s.frames.length = 2 ∧ s.InOrder := by
  obtain ⟨s, hs, hcheck⟩ := exists_reached (m := passingMachine) (n := 2)
    (p := fun s => decide (s.isRunning = true ∧ s.frames.length = 2)) (by decide +kernel)
  obtain ⟨hrunning, hlength⟩ := of_decide_eq_true hcheck
  exact ⟨s, hs, hrunning, hlength, (stack_inOrder (.default _)).1 s hs hrunning⟩

end Machine

end PlayerPaths
