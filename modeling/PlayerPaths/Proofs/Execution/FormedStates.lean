import PlayerPaths.Proofs.Execution.LegalValues
import PlayerPaths.Proofs.Execution.Stack

/-!
# Formed states

What holds of every state of an execution: its formulas are legal, the calls that it has noted are
numbered without gaps and mention earlier calls only, and while it runs its call stack is in order
(`Stacked`): every frame stands at an instruction and has the results of the first calls of it, and
every frame but the current one waits for the next one. The operations on states keep this.
-/

namespace PlayerPaths

open IL Formula

variable {D : Type} {c : Context} {I : D → Std.TreeMap Nat SymbolicCall → Prop}

/-- A map whose keys are the numbers below another one, with this one added. -/
theorem mem_insert_iff_lt_succ {α : Type} {t : Std.TreeMap Nat α} {n : Nat}
    (h : ∀ k, k ∈ t ↔ k < n) (a : α) (k : Nat) : k ∈ t.insert n a ↔ k < n + 1 := by
  rw [Std.TreeMap.mem_insert, h, Nat.compare_eq_eq, Nat.lt_succ_iff_lt_or_eq, or_comm, @eq_comm _ n]

/-! ## Frames -/

/-- A frame over legal formulas, of a method that belongs to the program. -/
structure Frame.Legal (c : Context) (n : Nat) (f : Frame) : Prop where
  results : ∀ (call : Nat) (value : Formula), f.results[call]? = some (some value) →
    value.Legal c n
  constructed : ∀ slot ∈ f.returnSlot, ∀ value ∈ slot.constructed, value.Legal c n
  words : c.Typed → f.method.WordCases

theorem Frame.Legal.mono {f : Frame} {n k : Nat} (h : f.Legal c n) (hle : n ≤ k) : f.Legal c k where
  results call value hvalue := (h.results call value hvalue).mono hle
  constructed slot hslot value hvalue := (h.constructed slot hslot value hvalue).mono hle
  words := h.words

/-- A frame at a depth that stands at an instruction, which is no glue and whose first calls were
made. -/
structure Frame.Placed (f : Frame) (depth made : Nat) (i : Instruction) : Prop where
  depth : f.depth = depth
  instruction : f.method.instruction f.location = .ok i
  real : i.isGlue = false
  results : ∀ call, call ∈ f.results ↔ call < made
  made_le : made ≤ i.operation.sites.length

theorem Frame.Placed.setResult {f : Frame} {depth made : Nat} {i : Instruction}
    (h : f.Placed depth made i) (hmade : made < i.operation.sites.length)
    (value : Option Formula) :
    Frame.Placed { f with results := f.results.insert made value } depth (made + 1) i where
  depth := h.depth
  instruction := h.instruction
  real := h.real
  results := mem_insert_iff_lt_succ h.results value
  made_le := hmade

/-- A frame at a location without results. -/
theorem Frame.placed_empty {f : Frame} {b : Body} {l : Location} (hb : f.method.body = some b)
    (hl : b.Real l) (hlocation : f.location = l) (hresults : f.results = ∅) :
    ∃ i, f.Placed f.depth 0 i := by
  obtain ⟨i, hi, hreal⟩ := hl
  refine ⟨i, rfl, ?_, hreal, ?_, Nat.zero_le _⟩
  · rw [hlocation]
    exact Method.instruction_eq_ok.mpr ⟨b, hb, hi⟩
  · simp [hresults]

/-! ## Stacks -/

/-- A call stack in order, the current frame first: some calls of the instruction of the current
frame were made, and all other frames wait for the next one of theirs. -/
inductive Stacked : (made : Nat) → (i : Instruction) → List Frame → Prop
  | entry {f : Frame} {made : Nat} {i : Instruction} (h : f.Placed 0 made i)
      (hslot : f.returnSlot = none) : Stacked made i [f]
  | call {f : Frame} {made : Nat} {i j : Instruction} {callers : List Frame} {slot : ReturnSlot}
      (h : f.Placed callers.length made i) (hslot : f.returnSlot = some slot)
      (hcallers : Stacked slot.call j callers) (hwaits : slot.call < j.operation.sites.length) :
      Stacked made i (f :: callers)

namespace Stacked

variable {made : Nat} {i : Instruction} {f g : Frame} {frames callers : List Frame}

theorem exists_cons (h : Stacked made i frames) :
    ∃ f callers, frames = f :: callers ∧ f.Placed callers.length made i := by
  cases h with
  | entry h hslot => exact ⟨_, [], rfl, h⟩
  | call h hslot hcallers hwaits => exact ⟨_, _, rfl, h⟩

theorem placed (h : Stacked made i (f :: callers)) : f.Placed callers.length made i := by
  cases h with
  | entry h hslot => exact h
  | call h hslot hcallers hwaits => exact h

/-- The current frame may change as long as it returns to the same place. -/
theorem replace {k : Nat} {j : Instruction} (h : Stacked made i (f :: callers))
    (hg : g.Placed callers.length k j) (hslot : g.returnSlot = f.returnSlot) :
    Stacked k j (g :: callers) := by
  cases h with
  | entry _ hnone => exact .entry hg (hslot.trans hnone)
  | call _ hsome hcallers hwaits => exact .call hg (hslot.trans hsome) hcallers hwaits

end Stacked

/-! ## States -/

namespace State

/-- A state of an execution. What the policy keeps about it may depend on the calls that were
noted. -/
structure Formed (c : Context) (I : D → Std.TreeMap Nat SymbolicCall → Prop) (s : State D) :
    Prop where
  condition : ∀ e ∈ s.condition, e.Condition c s.callCount
  memory : s.memory.Legal c s.callCount
  frames : ∀ f ∈ s.frames, f.Legal c s.callCount
  calls : ∀ id, id ∈ s.calls ↔ id < s.callCount
  arguments : ∀ (id : Nat) (call : SymbolicCall), s.calls[id]? = some call →
    ∀ e ∈ call.arguments, e.Legal c id
  data : I s.data s.calls
  stack : s.isRunning = true → ∃ made i, Stacked made i s.frames

/-- A state turns into another one that has noted more and assumes more, in the same frames. -/
structure Grown (c : Context) (I : D → Std.TreeMap Nat SymbolicCall → Prop) (s t : State D) :
    Prop where
  formed : t.Formed c I
  count_le : s.callCount ≤ t.callCount
  frames : t.frames = s.frames
  running : t.isRunning = true → s.isRunning = true

variable {s t u : State D} {made : Nat} {i : Instruction} {value : Formula}

theorem Grown.refl (h : s.Formed c I) : s.Grown c I s := ⟨h, Nat.le_refl _, rfl, id⟩

theorem Grown.trans (h : s.Grown c I t) (h' : t.Grown c I u) : s.Grown c I u :=
  ⟨h'.formed, Nat.le_trans h.count_le h'.count_le, h'.frames.trans h.frames,
    fun hu => h.running (h'.running hu)⟩

theorem Formed.abort (h : s.Formed c I) : s.abort.Formed c I where
  condition := h.condition
  memory := h.memory
  frames := h.frames
  calls := h.calls
  arguments := h.arguments
  data := h.data
  stack := by simp [isRunning, State.abort]

theorem Grown.abort (h : s.Grown c I t) : s.Grown c I t.abort where
  formed := h.formed.abort
  count_le := h.count_le
  frames := h.frames
  running := by simp [isRunning, State.abort]

theorem Formed.halt (h : s.Formed c I) : ({ s with status := .halted } : State D).Formed c I where
  condition := h.condition
  memory := h.memory
  frames := h.frames
  calls := h.calls
  arguments := h.arguments
  data := h.data
  stack := by simp [isRunning]

theorem Formed.tick (h : s.Formed c I) : s.tick.Formed c I :=
  ⟨h.condition, h.memory, h.frames, h.calls, h.arguments, h.data, h.stack⟩

theorem Formed.allocate (h : s.Formed c I) : s.allocate.2.Formed c I :=
  ⟨h.condition, h.memory, h.frames, h.calls, h.arguments, h.data, h.stack⟩

theorem Formed.write (h : s.Formed c I) (x : Address) (hvalue : value.Legal c s.callCount) :
    (s.write x value).Formed c I :=
  ⟨h.condition, h.memory.write x hvalue, h.frames, h.calls, h.arguments, h.data, h.stack⟩

/-- Other frames of a state. -/
theorem Formed.withFrames (h : s.Formed c I) {frames : List Frame}
    (hlegal : ∀ f ∈ frames, f.Legal c s.callCount) (hstack : Stacked made i frames) :
    ({ s with frames } : State D).Formed c I :=
  ⟨h.condition, h.memory, hlegal, h.calls, h.arguments, h.data, fun _ => ⟨made, i, hstack⟩⟩

/-- The identity of a new object is a word. -/
theorem allocate_legal (s : State D) {n : Nat} : s.allocate.1.Legal c n := by
  refine .int fun _ => ?_
  have hlimit : Word.limit = 2 ^ 64 := by decide
  have hmin : Word.minInt = -2 ^ 63 := by decide
  have hmax : Word.maxInt = 2 ^ 63 - 1 := by decide
  have hword : pow2 63 = 2 ^ 63 := by decide
  have hlt := Nat.mod_lt (s.heapCount + 1) (show 0 < Word.limit by decide)
  generalize (s.heapCount + 1) % Word.limit = id at hlt ⊢
  simp only [Word.inRange, Word.toInt, hlimit, hmin, hmax, hword, Bool.and_eq_true,
    decide_eq_true_eq] at hlt ⊢
  split <;> omega

/-! ## Conditions -/

theorem Formed.assume_meets (h : s.Formed c I) (hvalue : value.Condition c s.callCount) :
    Meets c.Harmless (s.Grown c I) (s.assume value) := by
  refine hvalue.1.simplify_meets.bind fun e he => ?_
  split
  · exact .pure (.refl h)
  · refine .pure ⟨?_, Nat.le_refl _, rfl, id⟩
    have hcondition : ∀ e' ∈ s.condition ++ [e], e'.Condition c s.callCount :=
      List.forall_mem_append.mpr
        ⟨h.condition, List.forall_mem_singleton.mpr ⟨he.1, he.2 hvalue.2⟩⟩
    exact ⟨hcondition, h.memory, h.frames, h.calls, h.arguments, h.data, h.stack⟩

theorem Formed.assumeAll_meets (h : s.Formed c I) {conditions : List Formula}
    (hconditions : ∀ e ∈ conditions, e.Condition c s.callCount) :
    Meets c.Harmless (s.Grown c I) (s.assumeAll conditions) := by
  refine Meets.foldlM (Grown.refl h) fun t ht e he => ?_
  exact (ht.formed.assume_meets ((hconditions e he).mono ht.count_le)).imp fun u hu => ht.trans hu

/-! ## The stack -/

/-- The evaluator of the current instruction. -/
theorem Formed.evaluator_meets (h : s.Formed c I) (hstack : Stacked made i s.frames) :
    Meets c.Harmless (Evaluator.Legal c s.callCount made)
      (s.evaluator c.sorts i.operation.sites.length) := by
  obtain ⟨f, callers, hframes, hf⟩ := hstack.exists_cons
  have hframe : s.frame = .ok f := frame_eq_ok.mpr ⟨callers, hframes⟩
  have hlegal := h.frames f (by simp [hframes])
  unfold State.evaluator
  rw [hframe]
  refine .pure ⟨rfl, h.memory, hlegal.results, fun call hcall => ?_⟩
  exact ⟨Nat.lt_of_lt_of_le hcall hf.made_le, (hf.results call).mpr hcall⟩

/-- The call that the current frame is at gets a result. -/
theorem Formed.setResult_meets (h : s.Formed c I) (hstack : Stacked made i s.frames)
    (hmade : made < i.operation.sites.length) {result : Option Formula}
    (hresult : ∀ value ∈ result, value.Legal c s.callCount) :
    Meets c.Harmless (Formed c I) (s.setResult made result) := by
  obtain ⟨f, callers, hframes, hf⟩ := hstack.exists_cons
  unfold setResult modifyFrame
  rw [hframes]
  have hlegal := h.frames
  rw [hframes] at hlegal hstack
  obtain ⟨hflegal, hcallers⟩ := List.forall_mem_cons.mp hlegal
  refine .pure (h.withFrames (List.forall_mem_cons.mpr ⟨⟨?_, ?_, hflegal.words⟩, hcallers⟩)
    (hstack.replace (hf.setResult hmade result) rfl))
  · intro call value hvalue
    rw [Std.TreeMap.getElem?_insert] at hvalue
    split at hvalue
    · exact hresult value (Option.some.inj hvalue)
    · exact hflegal.results call value hvalue
  · exact hflegal.constructed

/-- The current frame belongs to a method with a body. -/
def In (s : State D) (b : Body) : Prop :=
  ∃ f callers, s.frames = f :: callers ∧ f.method.body = some b

theorem Grown.stays (h : s.Grown c I t) {b : Body} (hb : s.In b) : t.In b := by
  unfold State.In
  rw [h.frames]
  exact hb

theorem Formed.jump_meets (h : s.Formed c I) (hstack : Stacked made i s.frames) {b : Body}
    (hb : s.In b) {l : Location} (hl : b.Real l) :
    Meets c.Harmless (Formed c I) (s.jump l) := by
  obtain ⟨f, callers, hframes, hbody⟩ := hb
  unfold jump modifyFrame
  rw [hframes]
  have hlegal := h.frames
  rw [hframes] at hlegal hstack
  obtain ⟨hflegal, hcallers⟩ := List.forall_mem_cons.mp hlegal
  let g : Frame := { f with location := l, results := ∅ }
  have hg : g.Legal c s.callCount := ⟨by simp [g], hflegal.constructed, hflegal.words⟩
  obtain ⟨j, hj⟩ := Frame.placed_empty (f := g) hbody hl rfl rfl
  have hdepth : g.depth = callers.length := hstack.placed.depth
  exact .pure (h.withFrames (List.forall_mem_cons.mpr ⟨hg, hcallers⟩)
    (hstack.replace (hdepth ▸ hj) rfl))

end State

namespace Machine

open State

variable {s : State D} {made : Nat} {i : Instruction}

theorem leave_meets (h : s.Formed c I) (hstack : Stacked made i s.frames)
    {result : Option Formula} (hresult : ∀ value ∈ result, value.Legal c s.callCount) :
    Meets c.Harmless (Formed c I) (leave s result) := by
  unfold leave
  split
  · exact .pure h.halt
  · next hsingle =>
    have hlegal := h.frames
    unfold State.pop?
    generalize hframes : s.frames = frames at hstack hlegal hsingle
    cases hstack with
    | entry _ _ => exact absurd rfl (hsingle _)
    | @call f _ _ j callers slot _ hslot hcallers hwaits =>
        dsimp only
        rw [hslot]
        obtain ⟨hf, hothers⟩ := List.forall_mem_cons.mp hlegal
        have hpopped : ({ s with frames := callers, memory := s.memory.dropFrame f.depth } :
            State D).Formed c I :=
          ⟨h.condition, h.memory.dropFrame _, hothers, h.calls, h.arguments, h.data,
            fun _ => ⟨_, _, hcallers⟩⟩
        refine hpopped.setResult_meets hcallers hwaits fun value hvalue => ?_
        rcases Option.or_eq_some_iff.mp hvalue with hconstructed | ⟨-, hvalue⟩
        · exact hf.constructed slot hslot value hconstructed
        · exact hresult value hvalue

/-- Control goes to an instruction, or leaves the method. -/
theorem goTo_meets (h : s.Formed c I) (hstack : Stacked made i s.frames) {b : Body} (hb : s.In b)
    {way : Option Location} (hway : ∀ l ∈ way, b.Real l) :
    Meets c.Harmless (Formed c I) (goTo s way) := by
  cases way with
  | some l => exact h.jump_meets hstack hb (hway l rfl)
  | none => exact leave_meets h hstack (by simp)

theorem formed_bind (h : s.Formed c I) {depth : Nat} {receiver : Option Formula}
    {arguments : List Formula} (hreceiver : ∀ value ∈ receiver, value.Legal c s.callCount)
    (harguments : ∀ value ∈ arguments, value.Legal c s.callCount) :
    (Machine.bind s depth receiver arguments).Formed c I := by
  have hfoldl : ∀ (slots : List (Formula × Nat)) (s : State D), s.Formed c I →
      (∀ slot ∈ slots, slot.1.Legal c s.callCount) →
      (slots.foldl (fun s slot => s.write (.argument depth slot.2) slot.1) s).Formed c I := by
    intro slots
    induction slots with
    | nil => exact fun s h _ => h
    | cons slot slots ih =>
        intro s h hslots
        obtain ⟨hslot, hrest⟩ := List.forall_mem_cons.mp hslots
        exact ih _ (h.write _ hslot) hrest
  have hvalues : ∀ slot ∈ arguments.zipIdx, slot.1.Legal c s.callCount :=
    fun slot hslot => harguments _ (List.fst_mem_of_mem_zipIdx hslot)
  cases receiver with
  | none => exact hfoldl _ s h hvalues
  | some value => exact hfoldl _ _ (h.write _ (hreceiver value rfl)) hvalues

end Machine

end PlayerPaths
