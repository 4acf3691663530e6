import PlayerPaths.Proofs.Execution.InputForks

/-!
# What a poll can do

A call that the policy for input gives a value to may be noted (`State.Notes`). After that a state
goes on as it is, or with conditions that were checked together with all that is known about its
polls, or it is aborted (`Context.Goes`). `Context.summarizeInput_goesOn` says this once for all
calls.
-/

namespace PlayerPaths

open IL Formula

variable {D : Type}

/-! ## Noting calls -/

/-- A state notes calls, with numbers and methods as given, and assumes nothing. -/
structure State.Notes (new : Nat → MethodRef → Prop) (s t : State D) : Prop where
  condition : t.condition = s.condition
  steps : t.steps = s.steps
  status : t.status = s.status
  calls : ∀ (id : Nat) (call : SymbolicCall), t.calls[id]? = some call →
    s.calls[id]? = some call ∨ new id call.method

namespace State.Notes

variable {new : Nat → MethodRef → Prop} {s t u : State D}

theorem refl (s : State D) : s.Notes new s := ⟨rfl, rfl, rfl, fun _ _ h => .inl h⟩

theorem trans (h : s.Notes new t) (h' : t.Notes new u) : s.Notes new u where
  condition := h'.condition.trans h.condition
  steps := h'.steps.trans h.steps
  status := h'.status.trans h.status
  calls id call hcall := by
    rcases h'.calls id call hcall with hcall | hnew
    · exact h.calls id call hcall
    · exact .inr hnew

theorem mono {new' : Nat → MethodRef → Prop} (h : s.Notes new t)
    (himp : ∀ id m, new id m → new' id m) : s.Notes new' t :=
  ⟨h.condition, h.steps, h.status, fun id call hcall => (h.calls id call hcall).imp_right
    (himp id call.method)⟩

end State.Notes

theorem State.assumeAll_steps {s t : State D} {conditions : List Formula}
    (h : s.assumeAll conditions = .ok t) : t.steps = s.steps := by
  refine foldlM_induction (P := fun u => u.steps = s.steps) ?_ rfl h
  intro u e _ hu u' hu'
  obtain ⟨e', -, ⟨-, rfl⟩ | rfl⟩ := State.assume_eq_ok hu' <;> exact hu

namespace Context

variable {c : Context} {s t : InputState} {m : MethodRef} {arguments : List Formula}

/-- The value of a call has been made up. -/
def Valued (c : Context) (id : Nat) (m : MethodRef) : Prop :=
  ∃ value, freshValue c.sorts (.symcall id) (c.callType m) = .ok value

/-- Nothing is known about the value of a call. -/
def Free (c : Context) (id : Nat) (m : MethodRef) : Prop := c.callAssumptions id m = .ok []

/-- What becomes of a state at a call. Calls that something is known about are not noted without a
check. -/
inductive Goes (c : Context) (s : InputState) : InputState → Prop
  | noted {t : InputState} (ht : s.Notes c.Free t) : Goes c s t
  | checked {t u : InputState} {conditions : List Formula} (ht : s.Notes c.Valued t)
      (hconditions : ∀ e ∈ conditions, e.HasSort .bool)
      (hpossible : c.possible t conditions = .ok true) (hu : t.assumeAll conditions = .ok u) :
      Goes c s u
  | aborted {t u : InputState} {conditions : List Formula} (ht : s.Notes c.Valued t)
      (hu : t.assumeAll conditions = .ok u) : Goes c s u.abort

/-- A state goes on in at least one way. -/
def GoesOn (c : Context) (s : InputState) (forks : List (InputState × Option Formula)) : Prop :=
  forks ≠ [] ∧ ∀ fork ∈ forks, c.Goes s fork.1

theorem Goes.steps {u : InputState} (h : c.Goes s u) : u.steps = s.steps := by
  cases h with
  | noted ht => exact ht.steps
  | checked ht _ _ hu => exact (State.assumeAll_steps hu).trans ht.steps
  | aborted ht hu => exact (State.assumeAll_steps hu).trans ht.steps

theorem goesOn_noted {value : Option Formula} (h : s.Notes c.Free t) : c.GoesOn s [(t, value)] :=
  ⟨by simp, List.forall_mem_singleton.mpr (.noted h)⟩

theorem goesOn_aborted {value : Option Formula} (h : s.Notes c.Valued t) :
    c.GoesOn s [(t.abort, value)] :=
  ⟨by simp, List.forall_mem_singleton.mpr (.aborted h (show t.assumeAll [] = .ok t from rfl))⟩

/-! ## Polls -/

/-- Nothing is known about calls that do not poll. -/
theorem free_of_not_isInput (h : c.api.isInput m = false) (id : Nat) : c.Free id m := by
  unfold Free callAssumptions
  by_cases htype : m.declaringType = c.api.inputType
  · obtain hvoid : m.returnType.isVoid = true := by simpa [InputApi.isInput, htype] using h
    simp [htype, freshValue, hvoid]
  · simp [htype]

/-- Nothing is known about the polls of a flag. -/
theorem free_of_valued {id : Nat} (hm : c.Valued id m) (hplain : m.isConstructor = false)
    (haxis : isAxis m = false) (hposition : isMousePosition m = false) : c.Free id m := by
  obtain ⟨value, hvalue⟩ := hm
  rw [callType, if_neg (by simp [hplain])] at hvalue
  unfold Free callAssumptions
  rw [hvalue]
  split
  · rfl
  · cases value with
    | none => rfl
    | some value => simp [haxis, hposition, Bind.bind, Except.bind, Pure.pure, Except.pure]

theorem symbolicCall_reused {id : Nat} :
    Yields (fun r => r.2 = s) (c.symbolicCall s m arguments id false) := by
  unfold symbolicCall
  refine .bind fun value => ?_
  by_cases hcontains : s.calls.contains id = true
  · simp only [Bool.false_eq_true, if_false, hcontains, Bool.not_true]
    exact .pure rfl
  · simp only [Bool.false_eq_true, if_false, hcontains, Bool.not_false, if_true]
    exact .throw_bind

theorem symbolicCall_notes {id : Nat} :
    Yields (fun r => s.Notes (fun id m' => m' = m ∧ c.Valued id m') r.2)
      (c.symbolicCall s m arguments id true) := by
  intro r h
  simp only [symbolicCall, bind_eq_ok, if_true, pure_eq_ok] at h
  obtain ⟨value, hvalue, rfl⟩ := h
  refine ⟨rfl, rfl, rfl, fun id' call hcall => ?_⟩
  rw [Std.TreeMap.getElem?_insert] at hcall
  split at hcall
  · next heq =>
    obtain rfl := Nat.compare_eq_eq.mp heq
    obtain rfl := Option.some.inj hcall
    exact .inr ⟨rfl, value, hvalue⟩
  · exact .inl hcall

theorem poll_wellSorted : Yields (fun r => r.1.WellSorted) (c.poll s m arguments) := by
  intro r h
  obtain ⟨⟨name, sort, hvar⟩, -⟩ := poll_eq_ok h
  exact hvar ▸ ⟨sort, hasSort_var.mpr rfl⟩

/-- A poll notes its call, unless it is not the first one of its kind. -/
theorem poll_notes : Yields (fun r => s.Notes (fun id m' => m' = m ∧ c.Valued id m') r.2.2 ∧
    (r.2.1 = false → r.2.2 = s)) (c.poll s m arguments) := by
  unfold poll
  refine .bind fun texts => ?_
  dsimp only
  split
  · refine symbolicCall_reused.bind_of fun r hr => ?_
    obtain ⟨value, t⟩ := r
    obtain rfl : t = s := hr
    cases value with
    | none => exact .throw
    | some value => exact .pure ⟨.refl t, fun _ => rfl⟩
  · refine symbolicCall_notes.bind_of fun r hr => ?_
    obtain ⟨value, t⟩ := r
    cases value with
    | none => exact .throw
    | some value => exact .pure ⟨⟨hr.condition, hr.steps, hr.status, hr.calls⟩, by simp⟩

/-! ## Conditions -/

variable {value : Formula}

theorem axisCondition_hasSort (h : value.WellSorted) {a : AxisCase} :
    Yields (·.HasSort .bool) (axisCondition value a) := by
  intro e he
  cases a with
  | positive | negative => exact Build.compareArith_hasSort h (wellSorted_lit _) he
  | zero => exact Build.eq_hasSort h (wellSorted_lit _) he

/-- A conjunction of well-sorted formulas is a truth value. -/
theorem and_hasSort {es : List Formula} (h : ∀ e ∈ es, e.WellSorted) :
    Yields (·.HasSort .bool) (Build.and es) := by
  intro e he
  obtain ⟨hsorts, rfl⟩ := Build.and_eq_ok.mp he
  exact hasSort_and.mpr ⟨rfl, fun a ha => (h a ha).hasSort (hsorts a ha)⟩

theorem cellCondition_hasSort {x y : Formula} (hx : x.WellSorted) (hy : y.WellSorted)
    {column row : Nat} : Yields (·.HasSort .bool) (c.cellCondition x y column row) := by
  have hbound : ∀ {z op i n}, z.WellSorted →
      Yields (·.WellSorted) (Build.compareArith op z (fraction i n)) := fun hz e he =>
    (Build.compareArith_hasSort hz (wellSorted_lit _) he).wellSorted
  unfold cellCondition
  refine (hbound hx).bind_of fun left hleft => (hbound hx).bind_of fun right hright => ?_
  refine (hbound hy).bind_of fun low hlow => (hbound hy).bind_of fun high hhigh => and_hasSort ?_
  simp [hleft, hright, hlow, hhigh]

/-! ## Checks -/

theorem split_goesOn {cases : List Formula} (h : s.Notes c.Valued t)
    (hcases : ∀ e ∈ cases, e.HasSort .bool) : Yields (c.GoesOn s) (c.split t cases value) := by
  intro forks hforks
  simp only [split, bind_eq_ok] at hforks
  obtain ⟨kept, hkept, hforks⟩ := hforks
  obtain ⟨hsub, hpossible⟩ := filterM_eq_ok hkept
  cases kept with
  | nil =>
      obtain rfl := Except.ok.inj hforks
      exact goesOn_aborted h
  | cons case kept =>
      refine ⟨?_, fun fork hfork => ?_⟩
      · rintro rfl
        exact absurd (mapM_eq_ok.mp hforks) (by simp)
      · obtain ⟨case', hcase, hfork⟩ := mem_of_mapM_eq_ok hforks hfork
        simp only [bind_eq_ok, pure_eq_ok] at hfork
        obtain ⟨u, hu, rfl⟩ := hfork
        refine .checked h ?_ (hpossible case' hcase) ?_
        · exact List.forall_mem_singleton.mpr (hcases case' (hsub.subset hcase))
        · simpa [State.assumeAll] using hu

theorem fork?_goes {conditions : List Formula} {finish : InputState → InputState × Option Formula}
    (h : s.Notes c.Valued t) (hconditions : ∀ e ∈ conditions, e.HasSort .bool)
    (hfinish : ∀ u, (finish u).1 = u ∨ (finish u).1 = u.abort) :
    Yields (fun forks => ∀ fork ∈ forks, c.Goes s fork.1) (c.fork? t conditions finish) := by
  intro forks hforks
  simp only [fork?, bind_eq_ok] at hforks
  obtain ⟨possible, hpossible, hforks⟩ := hforks
  cases possible with
  | false =>
      obtain rfl := Except.ok.inj hforks
      simp
  | true =>
      simp only [if_true, bind_eq_ok, pure_eq_ok] at hforks
      obtain ⟨u, hu, rfl⟩ := hforks
      refine List.forall_mem_singleton.mpr ?_
      rcases hfinish u with heq | heq
      · rw [heq]
        exact .checked h hconditions hpossible hu
      · rw [heq]
        exact .aborted h hu

theorem pollEdge_goesOn {edge : Edge} {pressed wasPressed : Formula} {width : Nat}
    (h : s.Notes c.Valued t) (hpressed : pressed.WellSorted) (hwasPressed : wasPressed.WellSorted) :
    Yields (c.GoesOn s) (c.pollEdge t edge pressed wasPressed width) := by
  have hzero : (Formula.bits 0 width).WellSorted := wellSorted_lit _
  have heq : ∀ {value}, value.WellSorted →
      Yields (·.HasSort .bool) (Build.eq value (.bits 0 width)) := fun hvalue _ he =>
    Build.eq_hasSort hvalue hzero he
  have hne : ∀ {value}, value.WellSorted →
      Yields (·.HasSort .bool) (Build.ne value (.bits 0 width)) := fun hvalue _ he =>
    Build.ne_hasSort hvalue hzero he
  unfold pollEdge
  refine (heq hwasPressed).bind_of fun wasClear hwasClear => ?_
  refine (hne hpressed).bind_of fun isSet hisSet => ?_
  refine (hne hwasPressed).bind_of fun wasSet hwasSet => ?_
  refine (heq hpressed).bind_of fun isClear hisClear => ?_
  have hdown : ∀ e ∈ [wasClear, isSet], e.HasSort .bool := forall_mem_pair hwasClear hisSet
  have hup : ∀ e ∈ [wasSet, isClear], e.HasSort .bool := forall_mem_pair hwasSet hisClear
  -- The edge that is asked for and the contrary one; the rest is the same for both.
  cases edge
  case' down => have hasked := hdown; have hcontrary := hup
  case' up => have hasked := hup; have hcontrary := hdown
  all_goals
    refine (and_hasSort fun e he => (hasked e he).wellSorted).bind_of fun all hall => ?_
    have hnot : Yields (·.HasSort .bool) (Build.not all) := fun _ he =>
      Build.not_hasSort hall.wellSorted he
    refine hnot.bind_of fun other hother => ?_
    refine (fork?_goes h (List.forall_mem_singleton.mpr hother) fun _ => .inl rfl).bind_of
      fun no hno => ?_
    refine (fork?_goes h hasked fun _ => .inl rfl).bind_of fun yes hyes => ?_
    refine (fork?_goes h hcontrary fun _ => .inr rfl).bind_of fun aborted haborted => ?_
    split
    · exact .pure (goesOn_aborted h)
    · next hne =>
      exact .pure ⟨hne, List.forall_mem_append.mpr
        ⟨List.forall_mem_append.mpr ⟨hno, hyes⟩, haborted⟩⟩

/-! ## Calls -/

theorem pollAxis_goesOn : Yields (c.GoesOn s) (c.pollAxis s m arguments) := by
  unfold pollAxis
  refine (poll_notes.and poll_wellSorted).bind_of fun r hr => ?_
  obtain ⟨value, first, t⟩ := r
  obtain ⟨⟨ht, hsame⟩, hvalue⟩ := hr
  cases first with
  | false =>
      obtain rfl : t = s := hsame rfl
      exact .pure (goesOn_noted (.refl t))
  | true =>
      refine (Yields.mapM fun a _ => axisCondition_hasSort hvalue).bind_of fun cases hcases => ?_
      exact split_goesOn (ht.mono fun _ _ h => h.2) hcases

theorem pollMousePosition_goesOn : Yields (c.GoesOn s) (c.pollMousePosition s m arguments) := by
  unfold pollMousePosition
  refine (poll_notes.and poll_wellSorted).bind_of fun r hr => ?_
  obtain ⟨value, first, t⟩ := r
  obtain ⟨⟨ht, hsame⟩, hvalue⟩ := hr
  cases first with
  | false =>
      obtain rfl : t = s := hsame rfl
      exact .pure (goesOn_noted (.refl t))
  | true =>
      have hget : ∀ {field}, Yields (·.WellSorted) (Build.get value field) := fun _ he =>
        Build.get_wellSorted hvalue he
      refine hget.bind_of fun x hx => hget.bind_of fun y hy => ?_
      have hcells : Yields (fun cases => ∀ e ∈ cases, e.HasSort .bool) (c.cellConditions x y) :=
        Yields.mapM fun cell _ => cellCondition_hasSort hx hy
      exact hcells.bind_of fun cases hcases => split_goesOn (ht.mono fun _ _ h => h.2) hcases

/-- The polls of buttons are of neither an axis nor the mouse position. -/
theorem free_button {id : Nat} {declaringType : String} {name base : String} {edge : Option Edge}
    {parameterTypes : List Ty} {returnType : Ty}
    (hname : buttonMethods.lookup name = some (base, edge))
    (h : c.Valued id (.static declaringType base parameterTypes returnType)) :
    c.Free id (.static declaringType base parameterTypes returnType) := by
  have hbases : ∀ entry ∈ buttonMethods, isAxis (.static "" entry.2.1 [] .void) = false ∧
      isMousePosition (.static "" entry.2.1 [] .void) = false := by decide +kernel
  obtain ⟨before, behind, hmethods, -⟩ := List.lookup_eq_some_iff.mp hname
  obtain ⟨haxis, hposition⟩ := hbases (name, base, edge) (by simp [hmethods])
  exact free_of_valued h (show Nat.testBit 1 1 = false by decide) haxis hposition

theorem pollButton_goesOn : Yields (c.GoesOn s) (c.pollButton s m arguments) := by
  unfold pollButton
  split
  · exact .throw
  · next base edge hname =>
    refine (poll_notes.and poll_wellSorted).bind_of fun r hr => ?_
    obtain ⟨pressed, first, t⟩ := r
    obtain ⟨⟨ht, -⟩, hpressed⟩ := hr
    refine (poll_notes.and poll_wellSorted).bind_of fun r' hr' => ?_
    obtain ⟨wasPressed, again, u⟩ := r'
    obtain ⟨⟨hu, -⟩, hwasPressed⟩ := hr'
    have hfree : s.Notes c.Free u := by
      refine .trans (ht.mono ?_) (hu.mono ?_)
      all_goals
        rintro id _ ⟨rfl, hvalued⟩
        exact free_button hname hvalued
    have hvalued : s.Notes c.Valued u :=
      .trans (ht.mono fun _ _ h => h.2) (hu.mono fun _ _ h => h.2)
    refine .bind fun _ => ?_
    split
    · cases edge with
      | some edge => exact pollEdge_goesOn hvalued hpressed hwasPressed
      | none =>
          cases first with
          | false => exact .pure (goesOn_noted hfree)
          | true =>
              refine Yields.bind_of (fun _ he => Build.eq_hasSort hpressed (wellSorted_lit _) he)
                fun isClear hisClear => ?_
              refine Yields.bind_of (fun _ he => Build.ne_hasSort hpressed (wellSorted_lit _) he)
                fun isSet hisSet => ?_
              exact split_goesOn hvalued (forall_mem_pair hisClear hisSet)
    · exact .throw

theorem unknownCall_goesOn (h : c.api.isInput m = false) :
    Yields (c.GoesOn s) (c.unknownCall s m arguments) := by
  unfold unknownCall
  refine symbolicCall_notes.bind_of fun r hr => .pure (goesOn_noted ?_)
  have hfree : State.Notes c.Free _ r.2 := hr.mono fun id m' hm' => hm'.1 ▸ free_of_not_isInput h id
  exact ⟨hfree.condition, hfree.steps, hfree.status, hfree.calls⟩

/-- **What the policy for input does at a call.** -/
theorem summarizeInput_goesOn : Yields (c.GoesOn s) (c.summarizeInput s m arguments) := by
  unfold summarizeInput
  cases hinput : c.api.isInput m with
  | false => exact unknownCall_goesOn hinput
  | true =>
      simp only [Bool.not_true, Bool.false_eq_true, if_false]
      split
      · exact pollAxis_goesOn
      · split
        · exact pollMousePosition_goesOn
        · exact pollButton_goesOn

/-! ## Starts -/

/-- The execution goes on in at least one state, without having taken a step. -/
def Starts (s : InputState) (ts : List InputState) : Prop :=
  ts ≠ [] ∧ ∀ t ∈ ts, t.steps = s.steps

theorem Polled.steps (h : c.Polled s t) : t.steps = s.steps := by
  induction h with
  | refl => rfl
  | poll _ hpoll ih => exact (poll_notes _ hpoll).1.steps.trans ih

theorem startStatesOf_starts : Yields (Starts s) (c.startStatesOf s) := by
  intro ts h
  cases startStatesOf_startsIn ts h with
  | stay => exact ⟨by simp, List.forall_mem_singleton.mpr rfl⟩
  | @split t inside outside _ _ ht hinside houtside =>
      refine ⟨by simp, List.forall_mem_cons.mpr ⟨?_, List.forall_mem_singleton.mpr ?_⟩⟩
      · exact (State.assumeAll_steps hinside).trans ht.steps
      · exact (State.assumeAll_steps (t := outside) houtside).trans ht.steps

end Context

end PlayerPaths
