import PlayerPaths.Proofs.Execution.FormedStates

/-!
# Steps keep states formed

A step makes the next call of the current instruction or, when all were made, executes it. Both
keep states formed and raise no error about the call stack (`Machine.step_meets`), when the policy
does so at the start of an execution and in summarized calls (`Policy.Lawful`). So every state that
an execution comes by is formed (`Machine.Reached.formed`), and a run reports a broken call stack
only when the solver does (`Machine.run_meets`).
-/

namespace PlayerPaths

open IL Formula

variable {D : Type} {c : Context} {I : D → Std.TreeMap Nat SymbolicCall → Prop}

/-! ## Policies -/

/-- All forks of a state at a call have grown out of it, and the values of the call are legal. -/
def State.Forks (c : Context) (I : D → Std.TreeMap Nat SymbolicCall → Prop) (s : State D)
    (forks : List (State D × Option Formula)) : Prop :=
  ∀ fork ∈ forks, s.Grown c I fork.1 ∧ ∀ value ∈ fork.2, value.Legal c fork.1.callCount

/-- A policy that keeps states formed, with what it keeps about its own data. -/
structure Policy.Lawful (c : Context) (I : D → Std.TreeMap Nat SymbolicCall → Prop)
    (p : Policy D) : Prop where
  initial : I p.initial ∅
  start : ∀ {s : State D}, s.Formed c I →
    Meets c.Harmless (fun ts => ∀ t ∈ ts, t.Formed c I) (p.start s)
  summarize : ∀ {s : State D} {method : MethodRef} {arguments : List Formula}, s.Formed c I →
    (∀ e ∈ arguments, e.Legal c s.callCount) →
    Meets c.Harmless (s.Forks c I) (p.summarize s method arguments)

theorem Context.feasible_meets {s : State D} {extra : List Formula} :
    Meets c.Harmless (fun _ => True) (c.feasible s extra) := by
  have hsolver : Meets c.Harmless (fun _ => True) (c.solver (s.condition ++ extra)) := by
    cases hanswer : c.solver (s.condition ++ extra) with
    | ok a => exact trivial
    | error e => exact fun _ => ⟨_, hanswer⟩
  exact hsolver.bind fun _ _ => .pure trivial

theorem IL.Method.requireBody_meets {method : Method} :
    Meets c.Harmless (fun b => method.body = some b) method.requireBody := by
  have hsafe : c.Safe method.requireBody := by
    unfold Method.requireBody
    split
    · exact trivial
    · exact c.harmless rfl
  exact hsafe.and_value fun b hb => Method.requireBody_eq_ok.mp hb

/-! ## The next call -/

/-- The next call is the first one without a result. -/
theorem Frame.Placed.next {f : Frame} {depth made : Nat} {i : Instruction} {site : CallSite}
    {index : Nat} (h : f.Placed depth made i)
    (hfind : i.operation.sites.zipIdx.find? (fun (_, i) => !f.results.contains i) =
      some (site, index)) :
    index = made ∧ i.operation.sites[index]? = some site := by
  obtain ⟨hfirst, k, hk, hat, hearlier⟩ := List.find?_eq_some_iff_getElem.mp hfind
  rw [List.getElem_zipIdx, Nat.zero_add] at hat
  obtain ⟨rfl, rfl⟩ := Prod.mk.inj hat
  have hlength : k < i.operation.sites.length := by simpa using hk
  refine ⟨Nat.le_antisymm (Nat.not_lt.mp fun hlt => ?_) (Nat.not_lt.mp fun hlt => ?_),
    List.getElem?_eq_getElem hlength⟩
  · have hmissing := hearlier made hlt
    rw [List.getElem_zipIdx, Nat.zero_add] at hmissing
    have hmade : made ∈ f.results := by simpa using hmissing
    exact absurd ((h.results made).mp hmade) (Nat.lt_irrefl made)
  · have hmade : k ∈ f.results := (h.results k).mpr hlt
    rw [Std.TreeMap.mem_iff_contains] at hmade
    simp [hmade] at hfirst

/-- When every call has a result, all calls were made. -/
theorem Frame.Placed.complete {f : Frame} {depth made : Nat} {i : Instruction}
    (h : f.Placed depth made i)
    (hfind : i.operation.sites.zipIdx.find? (fun (_, i) => !f.results.contains i) = none) :
    made = i.operation.sites.length := by
  refine Nat.le_antisymm h.made_le (Nat.not_lt.mp fun hlt => ?_)
  have hmem : (i.operation.sites[made], made) ∈ i.operation.sites.zipIdx :=
    List.mem_zipIdx_iff_getElem?.mpr (List.getElem?_eq_getElem hlt)
  have hmade : made ∈ f.results := by simpa using List.find?_eq_none.mp hfind _ hmem
  exact absurd ((h.results made).mp hmade) (Nat.lt_irrefl made)

namespace Machine

open State

variable {m : Machine D} {s : State D} {made : Nat} {i : Instruction}

/-! ## Calls -/

theorem enter_meets (h : s.Formed m.context I) (hstack : Stacked made i s.frames)
    (hmade : made < i.operation.sites.length) {method : MethodRef} {receiver : Option Formula}
    {arguments : List Formula} {slot : ReturnSlot} (hslot : slot.call = made)
    (hreceiver : ∀ value ∈ receiver, value.Legal m.context s.callCount)
    (harguments : ∀ value ∈ arguments, value.Legal m.context s.callCount)
    (hconstructed : ∀ value ∈ slot.constructed, value.Legal m.context s.callCount) :
    Meets m.context.Harmless (Formed m.context I) (m.enter s method receiver arguments slot) := by
  obtain rfl := hslot
  unfold enter
  split
  · exact .throw (m.context.harmless rfl)
  · next callee hcallee =>
    refine Method.requireBody_meets.bind fun body hbody => ?_
    split
    · exact h.setResult_meets hstack hmade hconstructed
    · next first hfirst =>
      refine .pure (formed_bind ?_ hreceiver harguments)
      obtain ⟨f, callers, hframes, hf⟩ := hstack.exists_cons
      -- The new frame stands at its first instruction, and the current one waits for it.
      let g : Frame := { method := callee, depth := s.nextDepth, location := first,
                         returnSlot := some slot }
      have hg : g.Legal m.context s.callCount := by
        refine ⟨by simp [g], ?_, fun ht => ht.methods hcallee⟩
        rintro _ ⟨⟩
        exact hconstructed
      obtain ⟨j, hj⟩ := Frame.placed_empty (f := g) hbody (Body.resolve_real hfirst) rfl rfl
      have hdepth : g.depth = s.frames.length := by
        show s.nextDepth = s.frames.length
        unfold nextDepth
        rw [hframes, List.length_cons, ← hf.depth]
      exact h.withFrames (List.forall_mem_cons.mpr ⟨hg, h.frames⟩)
        (.call (hdepth ▸ hj) rfl hstack hmade)

/-- **The next call keeps the state formed.** -/
theorem call_meets (hpolicy : m.policy.Lawful m.context I) (h : s.Formed m.context I)
    (hstack : Stacked made i s.frames) {site : CallSite}
    (hsite : i.operation.sites[made]? = some site) :
    Meets m.context.Harmless (fun ts => ∀ t ∈ ts, t.Formed m.context I)
      (m.call s i.operation.sites made site) := by
  have hmade : made < i.operation.sites.length := (List.getElem?_eq_some_iff.mp hsite).1
  have hbefore := Operation.ordered_sites i.operation made site hsite
  unfold call
  refine (h.evaluator_meets hstack).bind fun v hv => ?_
  dsimp only
  refine (arguments_meets hv (Nat.le_of_eq (Nat.sub_add_cancel hbefore))).bind fun values hvalues =>
    ?_
  split
  · refine (hpolicy.summarize h hvalues).bind fun forks hforks => ?_
    refine Meets.mapM fun fork hfork => ?_
    obtain ⟨hgrown, hvalue⟩ := hforks fork hfork
    exact hgrown.formed.setResult_meets (hgrown.frames ▸ hstack) hmade hvalue
  · split
    · refine .guard (fun _ => m.context.harmless rfl) fun _ => ?_
      refine (enter_meets h.allocate hstack hmade rfl ?_ hvalues ?_).singleton
      · rintro _ ⟨⟩
        exact allocate_legal s
      · rintro _ ⟨⟩
        exact allocate_legal s
    · split
      · cases values with
        | nil => exact .throw (Context.harmless_receiver _)
        | cons receiver rest =>
            obtain ⟨hreceiver, hrest⟩ := List.forall_mem_cons.mp hvalues
            refine (enter_meets h hstack hmade rfl ?_ hrest (by simp)).singleton
            rintro _ ⟨⟩
            exact hreceiver
      · exact (enter_meets h hstack hmade rfl (by simp) hvalues (by simp)).singleton

/-! ## Branches -/

/-- A case with a condition that a state may assume, and a real way on. -/
structure Allowed (c : Context) (n : Nat) (b : Body) (case : BranchCase) : Prop where
  condition : case.condition.Condition c n
  target : ∀ l ∈ case.target, b.Real l

variable {b : Body} {cases : List BranchCase}

theorem feasibleCases_meets (hcases : ∀ case ∈ cases, Allowed m.context s.callCount b case) :
    Meets m.context.Harmless (fun kept => ∀ case ∈ kept, Allowed m.context s.callCount b case)
      (m.feasibleCases s cases) := by
  refine (Meets.mapM (R := fun o => ∀ case ∈ o, Allowed m.context s.callCount b case) ?_).bind
    fun options hoptions => .pure fun case hcase => ?_
  · intro case hcase
    obtain ⟨⟨hlegal, hbool⟩, htarget⟩ := hcases case hcase
    refine hlegal.simplify_meets.bind fun e he => ?_
    have hallowed : Allowed m.context s.callCount b { case with condition := e } :=
      ⟨⟨he.1, he.2 hbool⟩, htarget⟩
    split
    · exact .pure (by simp)
    · split
      · refine .pure ?_
        rintro _ ⟨⟩
        exact hallowed
      · refine Context.feasible_meets.bind fun feasible _ => .pure ?_
        split
        · rintro _ ⟨⟩
          exact hallowed
        · simp
  · obtain ⟨o, ho, hid⟩ := List.mem_filterMap.mp hcase
    exact hoptions o ho case hid

theorem branch_meets (h : s.Formed m.context I) (hstack : Stacked made i s.frames) (hb : s.In b)
    (hcases : ∀ case ∈ cases, Allowed m.context s.callCount b case) {l : Location} :
    Meets m.context.Harmless (fun ts => ∀ t ∈ ts, t.Formed m.context I) (m.branch s l cases) := by
  refine (feasibleCases_meets hcases).bind fun kept hkept => ?_
  split
  · exact .pure (List.forall_mem_singleton.mpr h.abort)
  · next _ first others =>
    dsimp only
    split
    · exact (goTo_meets h hstack hb (hkept first List.mem_cons_self).target).singleton
    · have hfollowed : ∀ case ∈ first :: others, Meets m.context.Harmless (Formed m.context I)
          (do goTo (← s.assume case.condition) case.target) := by
        intro case hcase
        refine (h.assume_meets (hkept case hcase).condition).bind fun t ht => ?_
        exact goTo_meets ht.formed (ht.frames ▸ hstack) (ht.stays hb) (hkept case hcase).target
      have hdropped : ∀ case ∈ first :: others, Meets m.context.Harmless (Formed m.context I)
          (do return (← s.assume case.condition).abort) := by
        intro case hcase
        refine (h.assume_meets (hkept case hcase).condition).bind fun t ht => ?_
        exact .pure ht.formed.abort
      refine (Meets.mapM fun case hcase => hfollowed case (List.mem_of_mem_filter hcase)).bind
        fun followed hfollowed => ?_
      refine (Meets.mapM fun case hcase => hdropped case (List.mem_of_mem_filter hcase)).bind
        fun dropped hdropped => ?_
      exact .pure (List.forall_mem_append.mpr ⟨hfollowed, hdropped⟩)

/-! ## Switches -/

variable {n : Nat} {value : Formula}

theorem numeral_meets {t : SmtSort} {k : Int} (ht : c.Typed → t.inRange = true)
    (hk : c.Typed → Word.inRange k = true) :
    Meets c.Harmless (Formula.Legal c n) (t.numeral k) := by
  cases t with
  | bitVec width => exact .pure (.bits ht)
  | int => exact .pure (.int hk)
  | real => exact .pure (.real _)
  | _ => exact .throw (c.harmless rfl)

theorem caseConditions_meets (hvalue : value.Legal c n) {values : List Int}
    (hvalues : c.Typed → ∀ k ∈ values, Word.inRange k = true) :
    Meets c.Harmless (fun p => p.1.Condition c n ∧ ∀ e ∈ p.2, e.Condition c n)
      (caseConditions value values) := by
  refine hvalue.sort_meets.bind fun t ht => ?_
  refine (Meets.mapM (R := fun test => test.1.Condition c n ∧ test.2.Condition c n) ?_).bind
    fun tests htests => ?_
  · intro k hk
    have hconstant : Meets c.Harmless (Formula.Legal c n) (t.numeral k) :=
      numeral_meets (hvalue.sort_inRange ht) fun hc => hvalues hc k hk
    refine hconstant.bind fun constant hconstant => ?_
    refine (Build.eq_meets hvalue hconstant).bind fun equal hequal => ?_
    exact (Build.ne_meets hvalue hconstant).bind fun other hother => .pure ⟨hequal, hother⟩
  · refine (Build.or_meets (List.forall_mem_map.mpr fun test htest => (htests test htest).1)).bind
      fun hit hhit => ?_
    exact .pure ⟨hhit, List.forall_mem_map.mpr fun test htest => (htests test htest).2⟩

theorem switchCases_meets (hvalue : value.Legal c n) {cases : List SwitchCase} {default : Nat}
    (hcases : c.Typed → ∀ case ∈ cases, ∀ k ∈ case.values, Word.inRange k = true) :
    Meets c.Harmless (fun branches => ∀ case ∈ branches, Allowed c n b case)
      (switchCases b value cases default) := by
  refine (Meets.mapM
    (R := fun test => Allowed c n b test.1 ∧ ∀ e ∈ test.2, e.Condition c n) ?_).bind
    fun tests htests => ?_
  · intro case hcase
    refine (caseConditions_meets hvalue fun hc => hcases hc case hcase).bind fun p hp => ?_
    exact .pure ⟨⟨hp.1, fun l hl => Body.resolve_real hl⟩, hp.2⟩
  · have hmisses : ∀ e ∈ tests.flatMap Prod.snd, e.Condition c n := by
      intro e he
      obtain ⟨test, htest, he⟩ := List.mem_flatMap.mp he
      exact (htests test htest).2 e he
    refine (Build.and_meets hmisses).bind fun missed hmissed => .pure ?_
    refine List.forall_mem_append.mpr ⟨?_, List.forall_mem_singleton.mpr ?_⟩
    · exact List.forall_mem_map.mpr fun test htest => (htests test htest).1
    · exact ⟨hmissed, fun l hl => Body.resolve_real hl⟩

/-! ## Instructions -/

/-- **Executing an instruction keeps the state formed** when all calls of it were made. -/
theorem execute_meets (h : s.Formed m.context I) {f : Frame} {callers : List Frame}
    (hframes : s.frames = f :: callers) (hstack : Stacked i.operation.sites.length i s.frames) :
    Meets m.context.Harmless (fun ts => ∀ t ∈ ts, t.Formed m.context I)
      (m.execute s f.method f.location i.operation) := by
  have hplaced := (hframes ▸ hstack).placed
  have hflegal := h.frames f (by simp [hframes])
  unfold execute
  refine Method.requireBody_meets.bind fun b hb => ?_
  refine (h.evaluator_meets hstack).bind fun v hv => ?_
  have hin : s.In b := ⟨f, callers, hframes, hb⟩
  have hreal : ∀ {l : Location}, ∀ l' ∈ b.resolve l, b.Real l' :=
    fun l' hl' => Body.resolve_real hl'
  -- Most instructions end by going on, in a state with the same frames.
  have hgoTo : ∀ {t : State D} {l : Location}, t.Formed m.context I → t.frames = s.frames →
      Meets m.context.Harmless (fun ts => ∀ t ∈ ts, t.Formed m.context I)
        (do return [← goTo t (b.resolve l)]) := by
    intro t l ht hsame
    have htin : t.In b := ⟨f, callers, hsame.trans hframes, hb⟩
    exact (goTo_meets ht (hsame ▸ hstack) htin hreal).singleton
  have hleave : ∀ {result : Option Formula},
      (∀ value ∈ result, value.Legal m.context s.callCount) →
      Meets m.context.Harmless (fun ts => ∀ t ∈ ts, t.Formed m.context I)
        (do return [← leave s result]) :=
    fun hresult => (leave_meets h hstack hresult).singleton
  have hvalue : ∀ (before : Nat) {e : Expression},
      before + e.siteCount ≤ i.operation.sites.length →
      Meets m.context.Harmless (Formula.Legal m.context s.callCount) (v.value before e) :=
    fun before e hmade => Evaluator.value_meets hv before e hmade
  have hmade := i.operation.siteCounts_le
  have hinstruction := hplaced.instruction
  generalize i.operation.sites.length = made at hv hvalue hmade
  generalize hoperation : i.operation = o at hmade ⊢
  cases o with
  | nop | call k => exact hgoTo h rfl
  | store x e =>
      have hmade : e.siteCount ≤ made := by simpa [Operation.expressions] using hmade
      refine (hvalue 0 (by omega)).bind fun w hw => (coerce_meets hw).bind fun fitted hfitted => ?_
      exact hgoTo (h.write _ hfitted) rfl
  | storeField target field e =>
      have hmade : target.siteCount + e.siteCount ≤ made := by
        simpa [Operation.expressions] using hmade
      refine (hvalue _ hmade).bind fun w hw => (coerce_meets hw).bind fun fitted hfitted => ?_
      refine (Evaluator.fieldPlace_meets hv (by omega)).bind fun place hplace => ?_
      refine (hv.assign_meets hplace hfitted).bind fun p hp => ?_
      exact hgoTo (h.write _ hp) rfl
  | storeStatic field e =>
      have hmade : e.siteCount ≤ made := by simpa [Operation.expressions] using hmade
      refine (hvalue 0 (by omega)).bind fun w hw => (coerce_meets hw).bind fun fitted hfitted => ?_
      exact hgoTo (h.write _ hfitted) rfl
  | branchIf e target =>
      have hmade : 0 + e.siteCount ≤ made := by simpa [Operation.expressions] using hmade
      refine (Evaluator.condition_meets hv hmade).bind fun k hk => ?_
      refine (Build.not_meets hk.1).bind fun other hother => branch_meets h hstack hin ?_
      exact forall_mem_pair ⟨hk, hreal⟩ ⟨hother, hreal⟩
  | branch target => exact hgoTo h rfl
  | switch e cases default =>
      have hmade : e.siteCount ≤ made := by simpa [Operation.expressions] using hmade
      refine (hvalue 0 (by omega)).bind fun w hw => ?_
      have hwords : m.context.Typed → ∀ case ∈ cases, ∀ k ∈ case.values, Word.inRange k = true := by
        intro ht case hcase k hk
        obtain ⟨b', hb', hi⟩ := Method.instruction_eq_ok.mp hinstruction
        obtain ⟨block, hblock, hi⟩ := Option.bind_eq_some_iff.mp hi
        refine hflegal.words ht b' hb' block (List.mem_of_getElem? hblock) i
          (List.mem_of_getElem? hi) k ?_
        rw [hoperation]
        exact List.mem_flatMap.mpr ⟨case, hcase, hk⟩
      refine (switchCases_meets hw hwords).bind fun branches hbranches => ?_
      exact branch_meets h hstack hin hbranches
  | leave result =>
      cases result with
      | none => exact hleave (by simp)
      | some e =>
          have hmade : e.siteCount ≤ made := by simpa [Operation.expressions] using hmade
          dsimp only
          split
          · exact hleave (by simp)
          · refine (hvalue 0 (by omega)).bind fun w hw => ?_
            refine (coerce_meets hw).bind fun fitted hfitted => hleave ?_
            rintro _ ⟨⟩
            exact hfitted
  | throw e => exact .pure (List.forall_mem_singleton.mpr h.abort)
  | endFinally => exact .throw (m.context.harmless rfl)

/-! ## Steps -/

/-- **A step keeps the state formed** and raises no error about the stack. -/
theorem step_meets (hpolicy : m.policy.Lawful m.context I) (h : s.Formed m.context I)
    (hrunning : s.isRunning = true) :
    Meets m.context.Harmless (fun ts => ∀ t ∈ ts, t.Formed m.context I) (m.step s) := by
  obtain ⟨made, i, hstack⟩ := h.stack hrunning
  obtain ⟨f, callers, hframes, hplaced⟩ := hstack.exists_cons
  unfold step
  refine .guard (fun _ => m.context.harmless rfl) fun _ => ?_
  have hframe : s.tick.frame = .ok f := frame_eq_ok.mpr ⟨callers, hframes⟩
  have hinstruction := hplaced.instruction
  show Meets _ _ (s.tick.frame >>= fun f => _)
  rw [hframe]
  show Meets _ _ (f.method.instruction f.location >>= fun i => _)
  rw [hinstruction]
  show Meets _ _ (match i.operation.sites.zipIdx.find? fun (_, i) => !f.results.contains i with
    | some (site, i') => m.call s.tick i.operation.sites i' site
    | none => m.execute s.tick f.method f.location i.operation)
  split
  · next site index hfind =>
    obtain ⟨rfl, hsite⟩ := hplaced.next hfind
    exact call_meets hpolicy h.tick hstack hsite
  · next hfind =>
    obtain rfl := hplaced.complete hfind
    exact execute_meets h.tick hframes hstack

/-! ## Runs -/

/-- A state before the first instruction. -/
theorem formed_start {l : Location} {data : D} {status : Status} (hdata : I data ∅)
    (hl : status = .running → ∃ b, c.entry.body = some b ∧ b.Real l) :
    ({ State.start c.entry l data with status } : State D).Formed c I where
  condition := by simp [State.start]
  memory := .empty
  frames := List.forall_mem_singleton.mpr ⟨by simp, by simp, fun ht => ht.entry⟩
  calls id := by simp [State.start]
  arguments id call hcall := by simp [State.start] at hcall
  data := hdata
  stack hrunning := by
    obtain ⟨b, hb, hl⟩ := hl (of_decide_eq_true hrunning)
    let f : Frame := { method := c.entry, depth := 0, location := l }
    obtain ⟨i, hi⟩ := Frame.placed_empty (f := f) hb hl rfl rfl
    exact ⟨0, i, .entry hi rfl⟩

theorem initialState_meets (hpolicy : m.policy.Lawful m.context I) :
    Meets m.context.Harmless (Formed m.context I) m.initialState := by
  refine Method.requireBody_meets.bind fun b hb => ?_
  split
  · next first hfirst =>
    exact .pure (formed_start hpolicy.initial fun _ => ⟨b, hb, Body.resolve_real hfirst⟩)
  · exact .pure (formed_start hpolicy.initial (by simp))

/-- **Every state of an execution is formed.** -/
theorem Reached.formed (hpolicy : m.policy.Lawful m.context I) (h : m.Reached s) :
    s.Formed m.context I := by
  induction h with
  | start hs hts ht =>
      exact (hpolicy.start ((initialState_meets hpolicy).value hs)).value hts _ ht
  | step _ hrunning hts ht ih => exact (step_meets hpolicy ih hrunning).value hts _ ht

/-- An agenda of formed states, of which the pending ones run. -/
structure Agenda.Formed (c : Context) (I : D → Std.TreeMap Nat SymbolicCall → Prop)
    (a : Agenda D) : Prop where
  pending : ∀ s ∈ a.pending, s.Formed c I ∧ s.isRunning = true
  stopped : ∀ s ∈ a.stopped, s.Formed c I

theorem accept_meets {a : Agenda D} (ha : a.Formed m.context I) {ts : List (State D)}
    (hts : ∀ t ∈ ts, t.Formed m.context I) :
    Meets m.context.Harmless (Agenda.Formed m.context I) (m.accept a ts) := by
  refine .guard (fun _ => m.context.harmless rfl) fun _ => .pure ⟨?_, ?_⟩
  · refine List.forall_mem_append.mpr ⟨fun s hs => ?_, ha.pending⟩
    obtain ⟨hs, hrunning⟩ := List.mem_filter.mp hs
    exact ⟨hts s hs, hrunning⟩
  · exact List.forall_mem_append.mpr ⟨fun s hs => hts s (List.mem_of_mem_filter hs), ha.stopped⟩

theorem work_meets (hpolicy : m.policy.Lawful m.context I) {fuel : Nat} {a : Agenda D}
    (ha : a.Formed m.context I) :
    Meets m.context.Harmless (Agenda.Formed m.context I) (m.work fuel a) := by
  induction fuel generalizing a with
  | zero => exact .pure ha
  | succ fuel ih =>
      unfold work
      split
      · exact .pure ha
      · next s pending hpending =>
        have hall := ha.pending
        rw [hpending] at hall
        obtain ⟨⟨hs, hrunning⟩, hothers⟩ := List.forall_mem_cons.mp hall
        have hrest : Agenda.Formed m.context I { a with pending } := ⟨hothers, ha.stopped⟩
        refine (step_meets hpolicy hs hrunning).bind fun ts hts => ?_
        exact (accept_meets hrest hts).bind fun b hb => ih hb

/-- **A run gives formed states**, or an error that does not say that the stack is broken. -/
theorem run_meets (hpolicy : m.policy.Lawful m.context I) :
    Meets m.context.Harmless (fun states => ∀ s ∈ states, s.Formed m.context I) m.run := by
  refine (initialState_meets hpolicy).bind fun s hs => ?_
  refine (hpolicy.start hs).bind fun ts hts => ?_
  have hempty : Agenda.Formed m.context I ({} : Agenda D) := ⟨by simp, by simp⟩
  refine (accept_meets hempty hts).bind fun a ha => ?_
  refine (work_meets hpolicy ha).bind fun b hb => .pure fun t ht => ?_
  exact hb.stopped t (List.mem_reverse.mp ht)

end Machine

/-! ## Calls that are noted -/

namespace Context

variable {s : State D} {method : MethodRef} {arguments : List Formula}

/-- Noting a call of its own, with a change to the data of the policy. -/
theorem symbolicCall_meets (h : s.Formed c I) (harguments : ∀ e ∈ arguments, e.Legal c s.callCount)
    {data : D} (hdata : I data (s.calls.insert s.callCount ⟨method, arguments⟩)) :
    Meets c.Harmless (fun r => s.Grown c I r.2 ∧ ∀ value ∈ r.1, value.Legal c r.2.callCount)
      (c.symbolicCall { s with callCount := s.callCount + 1, data } method arguments s.callCount
        true) := by
  have hbelow : (Address.symcall s.callCount).Below (s.callCount + 1) :=
    Address.below_symcall (Nat.lt_succ_self _)
  refine (freshValue_meets hbelow).bind fun value hvalue => .pure ⟨⟨?_, ?_, rfl, id⟩, hvalue⟩
  · have hle : s.callCount ≤ s.callCount + 1 := Nat.le_succ _
    refine ⟨fun e he => (h.condition e he).mono hle, h.memory.mono hle,
      fun f hf => (h.frames f hf).mono hle, mem_insert_iff_lt_succ h.calls _,
      fun id call hcall => ?_, hdata, h.stack⟩
    rw [Std.TreeMap.getElem?_insert] at hcall
    split at hcall
    · next heq =>
      obtain rfl := Option.some.inj hcall
      rwa [← Nat.compare_eq_eq.mp heq]
    · exact h.arguments id call hcall
  · exact Nat.le_succ _

/-- A call with an unknown value, under a policy that lets calls be noted. -/
theorem unknownCall_meets (h : s.Formed c I)
    (harguments : ∀ e ∈ arguments, e.Legal c s.callCount)
    (hdata : I s.data (s.calls.insert s.callCount ⟨method, arguments⟩)) :
    Meets c.Harmless (s.Forks c I) (c.unknownCall s method arguments) :=
  (symbolicCall_meets h harguments hdata).bind fun _ hr => .pure (List.forall_mem_singleton.mpr hr)

end Context

/-- **The default policy keeps states formed.** -/
theorem Policy.default_lawful (c : Context) : (Policy.default c).Lawful c fun _ _ => True where
  initial := trivial
  start h := .pure (List.forall_mem_singleton.mpr h)
  summarize h harguments := Context.unknownCall_meets h harguments trivial

end PlayerPaths
