import PlayerPaths.Proofs.Execution.InputForks
import PlayerPaths.Proofs.Execution.Stack

/-!
# Polling in place

A poll gives a state a value, makes it assume something or splits it, and never touches the call
stack. So the policy for input leaves the stack alone (`Policy.input_inPlace`), at the start of a
callback and at every call that it gives a value to.
-/

namespace PlayerPaths

open IL

namespace Context

variable {c : Context} {s t : InputState} {m : MethodRef} {arguments : List Formula}

/-- All states are in the place of another one. -/
def AllInPlace (s : InputState) (ts : List InputState) : Prop := ∀ t ∈ ts, s.InPlace t

/-- All forks are in the place of a state. -/
def ForksInPlace (s : InputState) (forks : List (InputState × Option Formula)) : Prop :=
  ∀ fork ∈ forks, s.InPlace fork.1

theorem ForksInPlace.trans {forks : List (InputState × Option Formula)} (ht : ForksInPlace t forks)
    (h : s.InPlace t) : ForksInPlace s forks :=
  fun fork hfork => h.trans (ht fork hfork)

theorem symbolicCall_inPlace {id : Nat} {first : Bool} :
    Yields (fun r => s.InPlace r.2) (c.symbolicCall s m arguments id first) := by
  unfold symbolicCall
  refine .bind fun value => ?_
  cases first with
  | true => exact .pure ⟨rfl, fun h => h⟩
  | false =>
      by_cases hcontains : s.calls.contains id = true
      · simp only [Bool.false_eq_true, if_false, hcontains, Bool.not_true]
        exact .pure (.refl s)
      · simp only [Bool.false_eq_true, if_false, hcontains, Bool.not_false, if_true]
        exact .throw_bind

theorem poll_inPlace : Yields (fun r => s.InPlace r.2.2) (c.poll s m arguments) := by
  intro r h
  simp only [poll, bind_eq_ok] at h
  obtain ⟨texts, -, ⟨value, t⟩, hcall, h⟩ := h
  have ht := symbolicCall_inPlace _ hcall
  cases value with
  | none => simp at h
  | some value =>
      obtain rfl := Except.ok.inj h
      refine State.InPlace.trans ?_ ht
      split
      · exact .refl s
      · exact ⟨rfl, fun h => h⟩

theorem split_inPlace {cases : List Formula} {value : Formula} :
    Yields (ForksInPlace s) (c.split s cases value) := by
  unfold split
  refine .bind fun kept => ?_
  split
  · exact .pure (List.forall_mem_singleton.mpr (State.InPlace.refl s).abort)
  · intro forks hforks fork hfork
    obtain ⟨case, -, h⟩ := mem_of_mapM_eq_ok hforks hfork
    simp only [bind_eq_ok, pure_eq_ok] at h
    obtain ⟨t, ht, rfl⟩ := h
    exact State.assume_inPlace ht

theorem fork?_inPlace {conditions : List Formula}
    {finish : InputState → InputState × Option Formula}
    (hfinish : ∀ t, s.InPlace t → s.InPlace (finish t).1) :
    Yields (ForksInPlace s) (c.fork? s conditions finish) := by
  intro forks h fork hfork
  obtain ⟨t, ht, rfl⟩ := (fork?_eq_ok h).2 fork hfork
  exact hfinish t (State.assumeAll_inPlace ht)

theorem pollEdge_inPlace {edge : Edge} {pressed wasPressed : Formula} {width : Nat} :
    Yields (ForksInPlace s) (c.pollEdge s edge pressed wasPressed width) := by
  unfold pollEdge
  refine .bind fun _ => .bind fun _ => .bind fun _ => .bind fun _ => ?_
  cases edge
  all_goals
    refine .bind fun _ => .bind fun _ => ?_
    refine (fork?_inPlace fun t ht => ht).bind_of fun no hno => ?_
    refine (fork?_inPlace fun t ht => ht).bind_of fun yes hyes => ?_
    refine (fork?_inPlace fun t ht => ht.abort).bind_of fun aborted haborted => ?_
    split
    · exact .pure (List.forall_mem_singleton.mpr (State.InPlace.refl s).abort)
    · exact .pure (List.forall_mem_append.mpr ⟨List.forall_mem_append.mpr ⟨hno, hyes⟩, haborted⟩)

/-- A poll that is not the first one of its kind goes on in place, and so do the forks of the first
one. -/
theorem pollAxis_inPlace : Yields (ForksInPlace s) (c.pollAxis s m arguments) := by
  unfold pollAxis
  refine poll_inPlace.bind_of fun r hr => ?_
  obtain ⟨value, first, t⟩ := r
  cases first with
  | false => exact .pure (List.forall_mem_singleton.mpr hr)
  | true => exact .bind fun _ => split_inPlace.imp fun forks hforks => hforks.trans hr

theorem pollMousePosition_inPlace :
    Yields (ForksInPlace s) (c.pollMousePosition s m arguments) := by
  unfold pollMousePosition
  refine poll_inPlace.bind_of fun r hr => ?_
  obtain ⟨value, first, t⟩ := r
  cases first with
  | false => exact .pure (List.forall_mem_singleton.mpr hr)
  | true =>
      exact .bind fun _ => .bind fun _ => .bind fun _ =>
        split_inPlace.imp fun forks hforks => hforks.trans hr

theorem pollButton_inPlace : Yields (ForksInPlace s) (c.pollButton s m arguments) := by
  unfold pollButton
  split
  · exact .throw
  · next base edge _ =>
    refine poll_inPlace.bind_of fun r hr => ?_
    obtain ⟨pressed, first, t⟩ := r
    refine poll_inPlace.bind_of fun r' hr' => ?_
    obtain ⟨wasPressed, again, u⟩ := r'
    have hu : s.InPlace u := State.InPlace.trans hr hr'
    refine .bind fun _ => ?_
    split
    · cases edge with
      | some edge => exact pollEdge_inPlace.imp fun forks hforks => hforks.trans hu
      | none =>
          cases first with
          | false => exact .pure (List.forall_mem_singleton.mpr hu)
          | true =>
              exact .bind fun _ => .bind fun _ =>
                split_inPlace.imp fun forks hforks => hforks.trans hu
    · exact .throw

theorem summarizeInput_inPlace : Yields (ForksInPlace s) (c.summarizeInput s m arguments) := by
  unfold summarizeInput
  split
  · refine symbolicCall_inPlace.bind_of fun r hr => ?_
    exact .pure (List.forall_mem_singleton.mpr ⟨hr.positions, hr.running⟩)
  · split
    · exact pollAxis_inPlace
    · split
      · exact pollMousePosition_inPlace
      · exact pollButton_inPlace

theorem Polled.inPlace (h : c.Polled s t) : s.InPlace t := by
  induction h with
  | refl => exact .refl s
  | poll _ hpoll ih => exact ih.trans (poll_inPlace _ hpoll)

theorem startStatesOf_inPlace : Yields (AllInPlace s) (c.startStatesOf s) := by
  intro ts h
  cases startStatesOf_startsIn ts h with
  | stay => exact List.forall_mem_singleton.mpr (.refl s)
  | split ht hinside houtside =>
      refine List.forall_mem_cons.mpr ⟨?_, List.forall_mem_singleton.mpr ?_⟩
      · exact ht.inPlace.trans (State.assumeAll_inPlace hinside)
      · exact (ht.inPlace.trans (State.assumeAll_inPlace houtside)).abort

end Context

/-- **The policy for input leaves the call stack alone.** -/
theorem Policy.input_inPlace (c : Context) (leads : LeadsResult) : (Policy.input c leads).InPlace :=
  ⟨fun h => Context.startStatesOf_inPlace _ h, fun h => Context.summarizeInput_inPlace _ h⟩

end PlayerPaths
