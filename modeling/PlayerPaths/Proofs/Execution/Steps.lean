import PlayerPaths.Execution.Machine
import PlayerPaths.Proofs.Execution.Values

/-!
# What a step can do

Most instructions change memory, frames and results and leave what a state assumes alone: they are
*quiet*. Only two things fork a state, a summarized call and a branch. `Machine.step_cases` says
this once for all instructions, and everything about runs is derived from it.

The functions of the machine are inverted once each: what a return (`Machine.leave_cases`), the
start of a method (`Machine.enter_cases`), a call (`Machine.call_into`) and a step
(`Machine.step_into`) have done when they succeed.
-/

namespace PlayerPaths

open IL Formula

variable {D : Type}

/-! ## Well-sorted states -/

/-- A frame whose results are well sorted. -/
structure Frame.WellSorted (f : Frame) : Prop where
  results : ∀ (i : Nat) (value : Formula), f.results[i]? = some (some value) → value.WellSorted
  constructed : ∀ slot ∈ f.returnSlot, ∀ value ∈ slot.constructed, value.WellSorted

/-- A state all of whose formulas are well sorted, and which assumes truth values. -/
structure State.WellSorted (s : State D) : Prop where
  condition : ∀ c ∈ s.condition, c.HasSort .bool
  memory : s.memory.WellSorted
  frames : ∀ f ∈ s.frames, f.WellSorted

theorem State.WellSorted.evaluator {s : State D} (hs : s.WellSorted) {sorts : Sorts} {n : Nat}
    {v : Evaluator} (h : s.evaluator sorts n = .ok v) : v.WellSorted := by
  simp only [State.evaluator, bind_eq_ok, pure_eq_ok] at h
  obtain ⟨f, hf, rfl⟩ := h
  cases hframes : s.frames with
  | nil => simp [State.frame, hframes] at hf
  | cons g callers =>
      obtain rfl : g = f := by simpa [State.frame, hframes] using hf
      exact ⟨hs.memory, (hs.frames g (by simp [hframes])).results⟩

/-! ## Quiet changes -/

/-- A state turns into another one without assuming anything or noting calls. -/
structure State.Quiet (s t : State D) : Prop where
  condition : t.condition = s.condition
  steps : t.steps = s.steps
  calls : t.calls = s.calls
  wellSorted : s.WellSorted → t.WellSorted

namespace State

variable {o s t : State D} {value : Formula}

/-! In the following lemmas a state `o` has quietly become the state `s`. What is written has to be
well sorted when `o` is. -/

theorem Quiet.refl (s : State D) : s.Quiet s := ⟨rfl, rfl, rfl, id⟩

/-- A state that differs in neither its formulas nor its steps nor its calls is as quiet. -/
theorem Quiet.congr (h : o.Quiet s) (hcondition : t.condition = s.condition)
    (hsteps : t.steps = s.steps) (hcalls : t.calls = s.calls) (hmemory : t.memory = s.memory)
    (hframes : t.frames = s.frames) : o.Quiet t := by
  refine ⟨hcondition.trans h.condition, hsteps.trans h.steps, hcalls.trans h.calls, fun ho => ?_⟩
  have hs := h.wellSorted ho
  exact ⟨hcondition ▸ hs.condition, hmemory ▸ hs.memory, hframes ▸ hs.frames⟩

theorem Quiet.abort (h : o.Quiet s) : o.Quiet s.abort := h.congr rfl rfl rfl rfl rfl

theorem Quiet.halt (h : o.Quiet s) : o.Quiet { s with status := .halted } :=
  h.congr rfl rfl rfl rfl rfl

theorem Quiet.allocate (h : o.Quiet s) : o.Quiet s.allocate.2 := h.congr rfl rfl rfl rfl rfl

theorem Quiet.write (h : o.Quiet s) (x : Address) (hvalue : o.WellSorted → value.WellSorted) :
    o.Quiet (s.write x value) := by
  refine ⟨h.condition, h.steps, h.calls, fun ho => ?_⟩
  have hs := h.wellSorted ho
  exact ⟨hs.condition, hs.memory.write x (hvalue ho), hs.frames⟩

theorem modifyFrame_eq_ok {change : Frame → Frame} :
    s.modifyFrame change = .ok t ↔
      ∃ f callers, s.frames = f :: callers ∧ t = { s with frames := change f :: callers } := by
  cases hframes : s.frames with
  | nil => simp [modifyFrame, hframes]
  | cons f callers => simp [modifyFrame, hframes, @eq_comm _ t]

theorem Quiet.modifyFrame (h : o.Quiet s) {change : Frame → Frame}
    (ht : s.modifyFrame change = .ok t)
    (hchange : o.WellSorted → ∀ f : Frame, f.WellSorted → (change f).WellSorted) : o.Quiet t := by
  obtain ⟨f, callers, hframes, rfl⟩ := modifyFrame_eq_ok.mp ht
  refine ⟨h.condition, h.steps, h.calls, fun ho => ?_⟩
  have hs := h.wellSorted ho
  have hall := hs.frames
  rw [hframes] at hall
  obtain ⟨hf, hcallers⟩ := List.forall_mem_cons.mp hall
  exact ⟨hs.condition, hs.memory, List.forall_mem_cons.mpr ⟨hchange ho f hf, hcallers⟩⟩

theorem Quiet.setResult (h : o.Quiet s) {call : Nat} {result : Option Formula}
    (hresult : o.WellSorted → ∀ value ∈ result, value.WellSorted)
    (ht : s.setResult call result = .ok t) : o.Quiet t := by
  refine h.modifyFrame ht fun ho f hf => ⟨fun i v hv => ?_, hf.constructed⟩
  rw [Std.TreeMap.getElem?_insert] at hv
  split at hv
  · exact hresult ho v (Option.some.inj hv)
  · exact hf.results i v hv

theorem Quiet.jump (h : o.Quiet s) {l : Location} (ht : s.jump l = .ok t) : o.Quiet t :=
  h.modifyFrame ht fun _ f hf => ⟨by simp, hf.constructed⟩

theorem Quiet.push (h : o.Quiet s) {method : Method} {l : Location} {slot : ReturnSlot}
    (hslot : o.WellSorted → ∀ value ∈ slot.constructed, value.WellSorted) :
    o.Quiet (s.push method l slot) := by
  refine ⟨h.condition, h.steps, h.calls, fun ho => ?_⟩
  have hs := h.wellSorted ho
  refine ⟨hs.condition, hs.memory, List.forall_mem_cons.mpr ⟨⟨by simp, ?_⟩, hs.frames⟩⟩
  intro slot' hslot'
  obtain rfl : slot = slot' := by simpa using hslot'
  exact hslot ho

theorem Quiet.pop (h : o.Quiet s) {f : Frame} {callers : List Frame}
    (hframes : s.frames = f :: callers) :
    o.Quiet { s with frames := callers, memory := s.memory.dropFrame f.depth } ∧
      (o.WellSorted → f.WellSorted) := by
  have hall := fun ho => (h.wellSorted ho).frames
  rw [hframes] at hall
  refine ⟨⟨h.condition, h.steps, h.calls, fun ho => ?_⟩, fun ho => hall ho f List.mem_cons_self⟩
  have hs := h.wellSorted ho
  exact ⟨hs.condition, hs.memory.dropFrame _, (List.forall_mem_cons.mp (hall ho)).2⟩

end State

namespace Machine

open State

variable {m : Machine D} {o s t : State D}

/-- How a method is left: the state halts in its only frame, or the frame goes away with its slots
and the caller gets the result. -/
theorem leave_cases {result : Option Formula} (h : leave s result = .ok t) :
    t = { s with status := .halted } ∨ ∃ f callers slot, s.frames = f :: callers ∧
      f.returnSlot = some slot ∧
      setResult { s with frames := callers, memory := s.memory.dropFrame f.depth } slot.call
        (slot.constructed.or result) = .ok t := by
  unfold leave at h
  split at h
  · exact .inl (Except.ok.inj h).symm
  · cases hframes : s.frames with
    | nil => simp [pop?, hframes] at h
    | cons f callers =>
        simp only [pop?, hframes] at h
        split at h
        · simp at h
        · next slot hslot => exact .inr ⟨f, callers, slot, rfl, hslot, h⟩

theorem quiet_leave (h : o.Quiet s) {result : Option Formula}
    (hresult : o.WellSorted → ∀ value ∈ result, value.WellSorted)
    (ht : leave s result = .ok t) : o.Quiet t := by
  rcases leave_cases ht with rfl | ⟨f, callers, slot, hframes, hslot, ht⟩
  · exact h.halt
  · obtain ⟨hpopped, hf⟩ := h.pop hframes
    refine hpopped.setResult (fun ho value hvalue => ?_) ht
    rcases Option.or_eq_some_iff.mp hvalue with hconstructed | ⟨-, hvalue⟩
    · exact (hf ho).constructed slot hslot value hconstructed
    · exact hresult ho value hvalue

theorem quiet_goTo (h : o.Quiet s) {target : Option Location} (ht : goTo s target = .ok t) :
    o.Quiet t := by
  cases target with
  | some l => exact h.jump ht
  | none => exact quiet_leave h (by simp) ht

/-- The arguments of a call are well sorted. -/
theorem arguments_wellSorted {v : Evaluator} (hv : v.WellSorted) {before : Nat}
    {es : List Expression} {formals : List (Option Ty)} {values : List Formula}
    (h : arguments v before es formals = .ok values) : ∀ value ∈ values, value.WellSorted := by
  induction es generalizing before formals values with
  | nil =>
      obtain rfl : [] = values := by simpa [arguments] using h
      simp
  | cons e es ih =>
      simp only [arguments, bind_eq_ok] at h
      obtain ⟨value, hvalue, h⟩ := h
      have hvalue := Evaluator.value_wellSorted hv before e hvalue
      split at h
      · simp only [bind_eq_ok, pure_eq_ok] at h
        obtain ⟨fitted, hfitted, rest, hrest, rfl⟩ := h
        exact List.forall_mem_cons.mpr ⟨coerce_wellSorted hvalue hfitted, ih hrest⟩
      · simp only [bind_eq_ok, pure_eq_ok] at h
        obtain ⟨_, rfl, rest, hrest, rfl⟩ := h
        exact List.forall_mem_cons.mpr ⟨hvalue, ih hrest⟩

theorem quiet_foldl_write {depth : Nat} {slots : List (Formula × Nat)} (h : o.Quiet s)
    (hslots : ∀ slot ∈ slots, o.WellSorted → slot.1.WellSorted) :
    o.Quiet (slots.foldl (fun s slot => s.write (.argument depth slot.2) slot.1) s) := by
  induction slots generalizing s with
  | nil => exact h
  | cons slot slots ih =>
      obtain ⟨hslot, hrest⟩ := List.forall_mem_cons.mp hslots
      exact ih (h.write _ hslot) hrest

theorem quiet_bind (h : o.Quiet s) {depth : Nat} {receiver : Option Formula}
    {arguments : List Formula} (hreceiver : o.WellSorted → ∀ value ∈ receiver, value.WellSorted)
    (harguments : o.WellSorted → ∀ value ∈ arguments, value.WellSorted) :
    o.Quiet (Machine.bind s depth receiver arguments) := by
  refine quiet_foldl_write ?_ fun slot hslot ho =>
    harguments ho _ (List.fst_mem_of_mem_zipIdx hslot)
  cases receiver with
  | none => exact h
  | some value => exact h.write _ fun ho => hreceiver ho value rfl

/-- How a method is entered: in a new frame, or, when it has no instructions, its call has its result
at once. -/
theorem enter_cases {method : MethodRef} {receiver : Option Formula} {arguments : List Formula}
    {slot : ReturnSlot} (h : m.enter s method receiver arguments slot = .ok t) :
    ∃ callee body, m.context.program.resolve? method = some callee ∧
      callee.requireBody = .ok body ∧
      ((body.resolve (.start 0) = none ∧ s.setResult slot.call slot.constructed = .ok t) ∨
        ∃ first, body.resolve (.start 0) = some first ∧
          t = Machine.bind (s.push callee first slot) s.nextDepth receiver arguments) := by
  unfold enter at h
  split at h
  · simp at h
  · next callee hcallee =>
    obtain ⟨body, hbody, h⟩ := bind_eq_ok.mp h
    refine ⟨callee, body, hcallee, hbody, ?_⟩
    split at h
    · next hnone => exact .inl ⟨hnone, h⟩
    · next first hfirst => exact .inr ⟨first, hfirst, (Except.ok.inj h).symm⟩

theorem quiet_enter (h : o.Quiet s) {method : MethodRef} {receiver : Option Formula}
    {arguments : List Formula} {slot : ReturnSlot}
    (hreceiver : o.WellSorted → ∀ value ∈ receiver, value.WellSorted)
    (harguments : o.WellSorted → ∀ value ∈ arguments, value.WellSorted)
    (hslot : o.WellSorted → ∀ value ∈ slot.constructed, value.WellSorted)
    (ht : m.enter s method receiver arguments slot = .ok t) : o.Quiet t := by
  obtain ⟨callee, body, -, -, ⟨-, ht⟩ | ⟨first, -, rfl⟩⟩ := enter_cases ht
  · exact h.setResult hslot ht
  · exact quiet_bind (h.push hslot) hreceiver harguments

/-! ## Steps -/

/-- A summarized call turns a state into others. -/
def Summarizes (m : Machine D) (s : State D) (ts : List (State D)) : Prop :=
  ∃ method arguments forks call, m.policy.summarizes method = true ∧
    m.policy.summarize s method arguments = .ok forks ∧
    List.Forall₂ (fun fork t => fork.1.setResult call fork.2 = .ok t) forks ts

/-- How a call with some values is made: the policy gives it results, or its method is entered for a
new object, for the first value, or for no receiver. -/
inductive CallsInto (m : Machine D) (s : State D) (index : Nat) (site : CallSite)
    (values : List Formula) : List (State D) → Prop
  | summarize {forks : List (State D × Option Formula)} {ts : List (State D)}
      (hsummarizes : m.policy.summarizes site.call.method = true)
      (hforks : m.policy.summarize s site.call.method values = .ok forks)
      (hts : List.Forall₂ (fun fork t => fork.1.setResult index fork.2 = .ok t) forks ts) :
      CallsInto m s index site values ts
  | construct {t : State D} (hexecutes : m.policy.summarizes site.call.method = false)
      (hnew : site.isNew = true)
      (ht : m.enter s.allocate.2 site.call.method (some s.allocate.1) values
        ⟨index, some s.allocate.1⟩ = .ok t) : CallsInto m s index site values [t]
  | receive {receiver : Formula} {rest : List Formula} {t : State D}
      (hexecutes : m.policy.summarizes site.call.method = false)
      (hreceiver : (!site.call.method.isStatic && !site.isNew) = true)
      (hvalues : values = receiver :: rest)
      (ht : m.enter s site.call.method (some receiver) rest ⟨index, none⟩ = .ok t) :
      CallsInto m s index site values [t]
  | static {t : State D} (hexecutes : m.policy.summarizes site.call.method = false)
      (hstatic : (!site.call.method.isStatic && !site.isNew) = false)
      (ht : m.enter s site.call.method none values ⟨index, none⟩ = .ok t) :
      CallsInto m s index site values [t]

/-- A call evaluates its arguments, and is made with their values. -/
theorem call_into {sites : List CallSite} {index : Nat} {site : CallSite} {ts : List (State D)}
    (h : m.call s sites index site = .ok ts) :
    ∃ v values, s.evaluator m.sorts sites.length = .ok v ∧
      arguments v (index - (Expression.postOrderAll site.call.arguments).countP fun e =>
          e.asSite?.isSome) site.call.arguments
        (if !site.call.method.isStatic && !site.isNew
          then none :: site.call.method.parameterTypes.map some
          else site.call.method.parameterTypes.map some) = .ok values ∧
      m.CallsInto s index site values ts := by
  simp only [call, bind_eq_ok] at h
  obtain ⟨v, hv, values, hvalues, h⟩ := h
  refine ⟨v, values, hv, hvalues, ?_⟩
  split at h
  · next hsummarizes =>
    obtain ⟨forks, hforks, h⟩ := bind_eq_ok.mp h
    exact .summarize hsummarizes hforks (mapM_eq_ok.mp h)
  · next hexecutes =>
    rw [Bool.not_eq_true] at hexecutes
    split at h
    · next hnew =>
      split at h
      · simp at h
      · simp only [bind_eq_ok, pure_eq_ok] at h
        obtain ⟨t, ht, rfl⟩ := h
        exact .construct hexecutes hnew ht
    · split at h
      · next hreceiver =>
        cases values with
        | nil => simp at h
        | cons receiver rest =>
            simp only [bind_eq_ok, pure_eq_ok] at h
            obtain ⟨t, ht, rfl⟩ := h
            exact .receive hexecutes hreceiver rfl ht
      · next hstatic =>
        simp only [bind_eq_ok, pure_eq_ok] at h
        obtain ⟨t, ht, rfl⟩ := h
        exact .static hexecutes (by simpa only [Bool.not_eq_true] using hstatic) ht

theorem call_cases {sites : List CallSite} {index : Nat} {site : CallSite} {ts : List (State D)}
    (h : m.call s sites index site = .ok ts) :
    (∃ t, ts = [t] ∧ s.Quiet t) ∨ m.Summarizes s ts := by
  obtain ⟨v, values, hv, hvalues, hinto⟩ := call_into h
  have hvalues : s.WellSorted → ∀ value ∈ values, value.WellSorted := fun hs =>
    arguments_wellSorted (hs.evaluator hv) hvalues
  cases hinto with
  | summarize hsummarizes hforks hts => exact .inr ⟨_, values, _, index, hsummarizes, hforks, hts⟩
  | @construct t _ _ ht =>
      have hobject : s.WellSorted → ∀ value ∈ some s.allocate.1, value.WellSorted := by
        rintro - value ⟨⟩
        exact wellSorted_lit _
      exact .inl ⟨t, rfl, quiet_enter (Quiet.refl s).allocate hobject hvalues hobject ht⟩
  | @receive receiver rest t _ _ heq ht =>
      subst heq
      refine .inl ⟨t, rfl, quiet_enter (Quiet.refl s) ?_ ?_ (by simp) ht⟩
      · rintro hs value ⟨⟩
        exact hvalues hs receiver List.mem_cons_self
      · intro hs
        exact (List.forall_mem_cons.mp (hvalues hs)).2
  | @static t _ _ ht =>
      exact .inl ⟨t, rfl, quiet_enter (Quiet.refl s) (by simp) hvalues (by simp) ht⟩

/-- The current frame and its instruction, when all calls of the instruction were made. -/
def ready? (s : State D) : Result (Option (Frame × Operation)) := do
  let frame ← s.frame
  let operation := (← frame.method.instruction frame.location).operation
  match operation.sites.zipIdx.find? fun (_, i) => !frame.results.contains i with
  | some _ => return none
  | none => return some (frame, operation)

/-- The cases of the branch that a state makes next; none when it makes no branch. -/
def branchCases (m : Machine D) (s : State D) : Result (List BranchCase) := do
  match ← ready? s with
  | some (f, o) =>
    let b ← f.method.requireBody
    let v ← s.evaluator m.sorts o.sites.length
    match o with
    | .branchIf e target =>
      let condition ← v.condition 0 e
      return [⟨condition, b.resolve (.start target)⟩,
        ⟨← Build.not condition, b.resolve f.location.next⟩]
    | .switch e cases default => switchCases b (← v.value 0 e) cases default
    | _ => return []
  | none => return []

/-- The constants of the switch that a state makes next, as numerals of the sort of its value. -/
def switchConstants (m : Machine D) (s : State D) : Result (List Formula) := do
  match ← ready? s with
  | some (_, o) =>
    let v ← s.evaluator m.sorts o.sites.length
    match o with
    | .switch e cases _ =>
      let t ← (← v.value 0 e).sort
      (cases.flatMap SwitchCase.values).mapM t.numeral
    | _ => return []
  | none => return []

theorem ready?_eq_ok {f : Frame} {o : Operation} (h : ready? s = .ok (some (f, o))) :
    ∃ i, s.frame = .ok f ∧ f.method.instruction f.location = .ok i ∧ i.operation = o := by
  simp only [ready?, bind_eq_ok] at h
  obtain ⟨g, hg, i, hi, h⟩ := h
  split at h
  · cases h
  · obtain ⟨rfl, rfl⟩ := Prod.mk.inj (Option.some.inj (Except.ok.inj h))
    exact ⟨i, hg, hi, rfl⟩

/-- An instruction that is no branch over a condition or a value has no cases. -/
theorem branchCases_eq_nil {f : Frame} {o : Operation} {b : Body} {v : Evaluator}
    (hready : ready? s = .ok (some (f, o))) (hb : f.method.requireBody = .ok b)
    (hv : s.evaluator m.sorts o.sites.length = .ok v) (hif : ∀ e target, o ≠ .branchIf e target)
    (hswitch : ∀ e cases default, o ≠ .switch e cases default) : m.branchCases s = .ok [] := by
  unfold branchCases
  simp only [hready, bind_eq_ok]
  refine ⟨_, rfl, ?_⟩
  simp only [bind_eq_ok]
  -- The last two hypotheses leave the last case of the match.
  exact ⟨b, hb, v, hv, rfl⟩

/-- An instruction goes on quietly and has no cases, or branches over its cases. -/
theorem execute_cases {f : Frame} {o : Operation} {ts : List (State D)}
    (hready : ready? s = .ok (some (f, o))) (h : m.execute s f.method f.location o = .ok ts) :
    (∃ t, ts = [t] ∧ s.Quiet t ∧ m.branchCases s = .ok []) ∨
      ∃ cases, m.branchCases s = .ok cases ∧ m.branch s f.location cases = .ok ts := by
  simp only [execute, bind_eq_ok] at h
  obtain ⟨b, hb, v, hv, h⟩ := h
  have value : s.WellSorted → ∀ {before e value}, v.value before e = .ok value →
      value.WellSorted := fun hs => Evaluator.value_wellSorted (hs.evaluator hv) _ _
  cases o with
  | nop | call c =>
      simp only [bind_eq_ok, pure_eq_ok] at h
      obtain ⟨t, ht, rfl⟩ := h
      exact .inl ⟨t, rfl, quiet_goTo (Quiet.refl s) ht,
        branchCases_eq_nil hready hb hv (by simp) (by simp)⟩
  | store x e =>
      simp only [bind_eq_ok, pure_eq_ok] at h
      obtain ⟨raw, hraw, w, hw, t, ht, rfl⟩ := h
      refine .inl ⟨t, rfl, quiet_goTo ((Quiet.refl s).write _ fun hs => ?_) ht,
        branchCases_eq_nil hready hb hv (by simp) (by simp)⟩
      exact coerce_wellSorted (value hs hraw) hw
  | storeField target field e =>
      simp only [bind_eq_ok, pure_eq_ok] at h
      obtain ⟨raw, hraw, w, hw, place, -, p, hp, t, ht, rfl⟩ := h
      refine .inl ⟨t, rfl, quiet_goTo ((Quiet.refl s).write _ fun hs => ?_) ht,
        branchCases_eq_nil hready hb hv (by simp) (by simp)⟩
      exact (hs.evaluator hv).assign (coerce_wellSorted (value hs hraw) hw) hp
  | storeStatic field e =>
      simp only [bind_eq_ok, pure_eq_ok] at h
      obtain ⟨raw, hraw, w, hw, t, ht, rfl⟩ := h
      refine .inl ⟨t, rfl, quiet_goTo ((Quiet.refl s).write _ fun hs => ?_) ht,
        branchCases_eq_nil hready hb hv (by simp) (by simp)⟩
      exact coerce_wellSorted (value hs hraw) hw
  | branchIf e target =>
      simp only [bind_eq_ok] at h
      obtain ⟨c, hc, n, hn, h⟩ := h
      refine .inr ⟨_, ?_, h⟩
      unfold branchCases
      simp only [hready, bind_eq_ok]
      refine ⟨_, rfl, ?_⟩
      simp only [bind_eq_ok, pure_eq_ok]
      exact ⟨b, hb, v, hv, c, hc, n, hn, rfl⟩
  | branch target =>
      simp only [bind_eq_ok, pure_eq_ok] at h
      obtain ⟨t, ht, rfl⟩ := h
      exact .inl ⟨t, rfl, quiet_goTo (Quiet.refl s) ht,
        branchCases_eq_nil hready hb hv (by simp) (by simp)⟩
  | switch e cases default =>
      simp only [bind_eq_ok] at h
      obtain ⟨w, hw, branches, hbranches, h⟩ := h
      refine .inr ⟨branches, ?_, h⟩
      unfold branchCases
      simp only [hready, bind_eq_ok]
      refine ⟨_, rfl, ?_⟩
      simp only [bind_eq_ok]
      exact ⟨b, hb, v, hv, w, hw, hbranches⟩
  | leave result =>
      have hnil : m.branchCases s = .ok [] := branchCases_eq_nil hready hb hv (by simp) (by simp)
      left
      cases result with
      | none =>
          simp only [bind_eq_ok, pure_eq_ok] at h
          obtain ⟨t, ht, rfl⟩ := h
          exact ⟨t, rfl, quiet_leave (Quiet.refl s) (by simp) ht, hnil⟩
      | some e =>
          dsimp only at h
          split at h
          · simp only [bind_eq_ok, pure_eq_ok] at h
            obtain ⟨t, ht, rfl⟩ := h
            exact ⟨t, rfl, quiet_leave (Quiet.refl s) (by simp) ht, hnil⟩
          · simp only [bind_eq_ok, pure_eq_ok] at h
            obtain ⟨raw, hraw, w, hw, t, ht, rfl⟩ := h
            refine ⟨t, rfl, quiet_leave (Quiet.refl s) ?_ ht, hnil⟩
            rintro hs _ ⟨⟩
            exact coerce_wellSorted (value hs hraw) hw
  | throw e =>
      obtain rfl : [s.abort] = ts := by simpa using h
      exact .inl ⟨_, rfl, (Quiet.refl s).abort,
        branchCases_eq_nil hready hb hv (by simp) (by simp)⟩
  | endFinally => simp at h

end Machine

def State.tick (s : State D) : State D := { s with steps := s.steps + 1 }

namespace Machine

variable {m : Machine D} {s : State D}

/-- A step within the limit makes a call of the current instruction, or executes the instruction when
all its calls were made. -/
theorem step_into {ts : List (State D)} (h : m.step s = .ok ts) :
    s.steps < m.context.options.maxSteps ∧ ∃ f i, s.frame = .ok f ∧
      f.method.instruction f.location = .ok i ∧
      ((∃ site index, (site, index) ∈ i.operation.sites.zipIdx ∧ ready? s = .ok none ∧
          m.call s.tick i.operation.sites index site = .ok ts) ∨
        ready? s = .ok (some (f, i.operation)) ∧
          m.execute s.tick f.method f.location i.operation = .ok ts) := by
  unfold step at h
  dsimp only at h
  split at h
  · simp [exceeded] at h
  · next hlimit =>
    simp only [bind_eq_ok] at h
    obtain ⟨f, hf, i, hi, h⟩ := h
    have hf : s.frame = .ok f := hf
    refine ⟨by omega, f, i, hf, hi, ?_⟩
    split at h
    · next site index hfind =>
      refine .inl ⟨site, index, List.mem_of_find?_eq_some hfind, ?_, h⟩
      simp only [ready?, bind_eq_ok]
      exact ⟨f, hf, i, hi, by rw [hfind]; rfl⟩
    · next hfind =>
      refine .inr ⟨?_, h⟩
      simp only [ready?, bind_eq_ok]
      exact ⟨f, hf, i, hi, by rw [hfind]; rfl⟩

/-- **What a step can do.** It stays within the limit of steps, and it either changes one state
quietly, or makes a call that is summarized, or branches. -/
theorem step_cases {ts : List (State D)} (h : m.step s = .ok ts) :
    s.steps < m.context.options.maxSteps ∧
    ((∃ t, ts = [t] ∧ s.tick.Quiet t) ∨ m.Summarizes s.tick ts ∨
      ∃ l cases, m.branchCases s = .ok cases ∧ m.branch s.tick l cases = .ok ts) := by
  obtain ⟨hlimit, f, i, -, -, ⟨site, index, -, -, h⟩ | ⟨hready, h⟩⟩ := step_into h
  · refine ⟨hlimit, ?_⟩
    rcases call_cases h with hquiet | hsummarizes
    · exact .inl hquiet
    · exact .inr (.inl hsummarizes)
  · have hready : ready? s.tick = .ok (some (f, i.operation)) := hready
    refine ⟨hlimit, ?_⟩
    rcases execute_cases hready h with ⟨t, hts, hquiet, -⟩ | ⟨cases, hcases, hbranch⟩
    · exact .inl ⟨t, hts, hquiet⟩
    · exact .inr (.inr ⟨f.location, cases, hcases, hbranch⟩)

end Machine

end PlayerPaths
