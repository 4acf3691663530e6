import PlayerPaths.Proofs.Execution.Runs
import PlayerPaths.Proofs.Flow.Resolve

/-!
# The call stack

Where control can go depends on the positions of the frames only, a method and a location each. A
step does one of four things to them (`Machine.Moves`): it leaves them alone, goes on to a successor
of the current instruction, enters a method that the instruction calls, or returns to the caller.
`Machine.step_moves` says this once for all instructions, for policies that leave the stack alone.
-/

namespace PlayerPaths

open IL

variable {D : Type}

/-- Where a frame stands. -/
structure Position where
  method : Method
  location : Location

def Frame.position (f : Frame) : Position := ⟨f.method, f.location⟩

namespace State

variable {o s t : State D}

/-- The positions of the frames, the current one first. -/
def positions (s : State D) : List Position := s.frames.map Frame.position

theorem frame_eq_ok {f : Frame} : s.frame = .ok f ↔ ∃ callers, s.frames = f :: callers := by
  cases hframes : s.frames with
  | nil => simp [frame, hframes]
  | cons g callers => simp [frame, hframes]

theorem head?_positions {f : Frame} (h : s.frame = .ok f) :
    s.positions.head? = some f.position := by
  obtain ⟨callers, hframes⟩ := frame_eq_ok.mp h
  rw [positions, hframes]
  rfl

/-! ## States in place -/

/-- A state turns into another one with the same positions, which only runs if it did before. -/
structure InPlace (s t : State D) : Prop where
  positions : t.positions = s.positions
  running : t.isRunning = true → s.isRunning = true

theorem InPlace.refl (s : State D) : s.InPlace s := ⟨rfl, id⟩

theorem InPlace.trans (h : o.InPlace s) (h' : s.InPlace t) : o.InPlace t :=
  ⟨h'.positions.trans h.positions, fun ht => h.running (h'.running ht)⟩

theorem InPlace.abort (h : o.InPlace s) : o.InPlace s.abort :=
  ⟨h.positions, by simp [isRunning, State.abort]⟩

theorem assume_inPlace {c : Formula} (h : s.assume c = .ok t) : s.InPlace t := by
  obtain ⟨c', -, ⟨-, rfl⟩ | rfl⟩ := assume_eq_ok h
  · exact .refl t
  · exact ⟨rfl, id⟩

theorem status_assume {c : Formula} (h : s.assume c = .ok t) : t.status = s.status := by
  obtain ⟨c', -, ⟨-, rfl⟩ | rfl⟩ := assume_eq_ok h <;> rfl

theorem assumeAll_inPlace {cs : List Formula} (h : s.assumeAll cs = .ok t) : s.InPlace t := by
  refine foldlM_induction (P := s.InPlace) ?_ (.refl s) h
  intro u c _ hu u' hu'
  exact hu.trans (assume_inPlace hu')

theorem positions_modifyFrame {change : Frame → Frame} (h : s.modifyFrame change = .ok t)
    (hchange : ∀ f, (change f).position = f.position) : t.positions = s.positions := by
  obtain ⟨f, callers, hframes, rfl⟩ := modifyFrame_eq_ok.mp h
  simp [positions, hframes, hchange]

theorem positions_setResult {call : Nat} {value : Option Formula}
    (h : s.setResult call value = .ok t) : t.positions = s.positions :=
  positions_modifyFrame h fun _ => rfl

end State

/-- Neither the start of an execution nor a summarized call changes the stack. -/
structure Policy.InPlace (p : Policy D) : Prop where
  start : ∀ {s ts}, p.start s = .ok ts → ∀ t ∈ ts, s.InPlace t
  summarize : ∀ {s method arguments forks}, p.summarize s method arguments = .ok forks →
    ∀ fork ∈ forks, s.InPlace fork.1

/-! ## Moves -/

namespace Machine

/-- What a step can do to the positions of a stack. -/
inductive Moves (m : Machine D) : List Position → List Position → Prop
  | stay (positions : List Position) : Moves m positions positions
  | jump {p : Position} {b : Body} {i : Instruction} {l : Location} {callers : List Position}
      (hb : p.method.body = some b) (hi : b.instruction? p.location = some i)
      (hl : l ∈ b.successorsOf p.location i.operation) :
      Moves m (p :: callers) (⟨p.method, l⟩ :: callers)
  | enter {p : Position} {b : Body} {i : Instruction} {callers : List Position} {site : CallSite}
      {callee : Method} {body : Body} {first : Location}
      (hb : p.method.body = some b) (hi : b.instruction? p.location = some i)
      (hsite : site ∈ i.operation.sites)
      (hexecuted : m.policy.summarizes site.call.method = false)
      (hcallee : m.context.program.resolve? site.call.method = some callee)
      (hbody : callee.body = some body) (hfirst : body.resolve (.start 0) = some first) :
      Moves m (p :: callers) (⟨callee, first⟩ :: p :: callers)
  | leave (p caller : Position) (callers : List Position) :
      Moves m (p :: caller :: callers) (caller :: callers)

variable {m : Machine D} {s t : State D} {ts : List (State D)} {p : Position} {b : Body}
  {i : Instruction}

theorem Moves.of_eq (h : t.positions = s.positions) : m.Moves s.positions t.positions := by
  rw [h]
  exact .stay _

/-- A step with a single outcome has no other one. -/
theorem eq_ok_of_mem {x : Result (State D)} (h : ∃ u, x = .ok u ∧ [u] = ts) (ht : t ∈ ts) :
    x = .ok t := by
  obtain ⟨u, hu, rfl⟩ := h
  rwa [List.mem_singleton.mp ht]

/-- The instruction at the current position of a state. -/
structure At (s : State D) (p : Position) (b : Body) (i : Instruction) : Prop where
  current : s.positions.head? = some p
  body : p.method.body = some b
  instruction : b.instruction? p.location = some i

theorem leave_moves {value : Option Formula} (h : leave s value = .ok t) :
    m.Moves s.positions t.positions := by
  rcases leave_cases h with rfl | ⟨f, callers, slot, hframes, -, h⟩
  · exact .stay _
  · obtain ⟨caller, rest, hcallers, rfl⟩ := State.modifyFrame_eq_ok.mp h
    obtain rfl : callers = caller :: rest := hcallers
    rw [State.positions, State.positions, hframes]
    exact .leave f.position caller.position _

theorem jump_moves {l : Location} (hs : At s p b i)
    (hl : l ∈ b.successorsOf p.location i.operation) (h : s.jump l = .ok t) :
    m.Moves s.positions t.positions := by
  obtain ⟨f, callers, hframes, rfl⟩ := State.modifyFrame_eq_ok.mp h
  have hcurrent := hs.current
  rw [State.positions, hframes] at hcurrent
  obtain rfl := Option.some.inj hcurrent
  rw [State.positions, State.positions, hframes]
  exact .jump hs.body hs.instruction hl

theorem positions_bind {depth : Nat} {receiver : Option Formula} {arguments : List Formula} :
    (Machine.bind s depth receiver arguments).positions = s.positions := by
  have hfoldl : ∀ (slots : List (Formula × Nat)) (s : State D), (slots.foldl (fun s slot =>
      s.write (.argument depth slot.2) slot.1) s).positions = s.positions := by
    intro slots
    induction slots with
    | nil => exact fun _ => rfl
    | cons slot slots ih => exact fun s => ih _
  refine (hfoldl _ _).trans ?_
  cases receiver <;> rfl

/-- A method is entered at its first instruction, if it has one. -/
theorem enter_moves {site : CallSite} {receiver : Option Formula} {arguments : List Formula}
    {slot : ReturnSlot} (hs : At s p b i) (hsite : site ∈ i.operation.sites)
    (hexecuted : m.policy.summarizes site.call.method = false)
    (h : m.enter s site.call.method receiver arguments slot = .ok t) :
    m.Moves s.positions t.positions := by
  obtain ⟨callee, body, hcallee, hbody, ⟨-, h⟩ | ⟨first, hfirst, rfl⟩⟩ := enter_cases h
  · exact .of_eq (State.positions_setResult h)
  · obtain ⟨callers, hpositions⟩ := List.head?_eq_some_iff.mp hs.current
    have hpush : (s.push callee first slot).positions = ⟨callee, first⟩ :: s.positions := rfl
    rw [positions_bind, hpush, hpositions]
    exact .enter hs.body hs.instruction hsite hexecuted hcallee
      (Method.requireBody_eq_ok.mp hbody) hfirst

theorem call_moves {sites : List CallSite} {index : Nat} {site : CallSite}
    (hpolicy : m.policy.InPlace) (hs : At s p b i) (hsite : site ∈ i.operation.sites)
    (h : m.call s sites index site = .ok ts) (ht : t ∈ ts) : m.Moves s.positions t.positions := by
  obtain ⟨v, values, -, -, hinto⟩ := call_into h
  cases hinto with
  | summarize _ hforks hts =>
      obtain ⟨fork, hfork, ht⟩ := forall₂_exists_of_mem_right hts ht
      refine .of_eq ((State.positions_setResult ht).trans ?_)
      exact (hpolicy.summarize hforks fork hfork).positions
  | construct hexecuted _ henter =>
      obtain rfl := List.mem_singleton.mp ht
      have hs : At s.allocate.2 p b i := ⟨hs.current, hs.body, hs.instruction⟩
      have hmoves := enter_moves hs hsite hexecuted henter
      exact hmoves
  | receive hexecuted _ _ henter | static hexecuted _ henter =>
      obtain rfl := List.mem_singleton.mp ht
      exact enter_moves hs hsite hexecuted henter

/-! ## How an instruction ends -/

/-- A state takes one of the ways out of its statement, returns from its method by the statement, or
stops. -/
inductive Goes (b : Body) (l : Location) (o : Operation) (s t : State D) : Prop
  | way {s' : State D} {way : Option Location} (place : s.InPlace s')
      (status : s'.status = s.status) (hway : way ∈ b.ways l o) (h : goTo s' way = .ok t)
  | unwind {value : Option Formula} (ho : o.isUnwind = true) (h : leave s value = .ok t)
  | stop (place : s.InPlace t) (stopped : t.status = .aborted)

/-- Every case of a branch continues along one of the ways. -/
def Continue (cases : List BranchCase) (b : Body) (l : Location) (o : Operation) : Prop :=
  ∀ case ∈ cases, case.target ∈ b.ways l o

variable {l : Location} {o : Operation}

theorem feasibleCases_continue {cases kept : List BranchCase} (hcases : Continue cases b l o)
    (h : m.feasibleCases s cases = .ok kept) : Continue kept b l o := by
  intro case hcase
  obtain ⟨original, horiginal, -, htarget, -⟩ := mem_kept h hcase
  exact htarget ▸ hcases original horiginal

theorem branch_goes {cases : List BranchCase} (hcases : Continue cases b l o)
    (h : m.branch s l cases = .ok ts) (ht : t ∈ ts) : Goes b l o s t := by
  obtain ⟨kept, hkept, hinto⟩ := branch_into h
  have hkept := feasibleCases_continue hcases hkept
  cases hinto with
  | dead =>
      obtain rfl := List.mem_singleton.mp ht
      exact .stop (State.InPlace.refl s).abort rfl
  | @pruned first rest t' _ hgo =>
      obtain rfl := List.mem_singleton.mp ht
      exact .way (.refl s) rfl (hkept first List.mem_cons_self) hgo
  | fork _ hfollowed hdropped =>
      rcases List.mem_append.mp ht with ht | ht
      · obtain ⟨case, hcase, u, hu, hgo⟩ := forall₂_exists_of_mem_right hfollowed ht
        exact .way (State.assume_inPlace hu) (State.status_assume hu)
          (hkept case (List.mem_of_mem_filter hcase)) hgo
      · obtain ⟨case, -, u, hu, rfl⟩ := forall₂_exists_of_mem_right hdropped ht
        exact .stop (State.assume_inPlace hu).abort rfl

theorem switchCases_continue {value : Formula} {cases : List SwitchCase} {default : Nat}
    {branches : List BranchCase} {e : Expression}
    (h : switchCases b value cases default = .ok branches) :
    Continue branches b l (.switch e cases default) := by
  simp only [switchCases, bind_eq_ok, pure_eq_ok] at h
  obtain ⟨tests, htests, missed, -, rfl⟩ := h
  intro branch hbranch
  rcases List.mem_append.mp hbranch with hbranch | hbranch
  · obtain ⟨test, htest, rfl⟩ := List.mem_map.mp hbranch
    obtain ⟨case, hcase, htest⟩ := mem_of_mapM_eq_ok htests htest
    simp only [bind_eq_ok, pure_eq_ok] at htest
    obtain ⟨conditions, -, rfl⟩ := htest
    exact Body.mem_ways_target (List.mem_append_left _ (List.mem_map_of_mem hcase))
  · obtain rfl := List.mem_singleton.mp hbranch
    refine Body.mem_ways_target ?_
    simp [Operation.targets]

/-- **How an instruction ends.** -/
theorem execute_goes {method : Method} (hb : method.body = some b)
    (h : m.execute s method l o = .ok ts) (ht : t ∈ ts) : Goes b l o s t := by
  simp only [execute, bind_eq_ok, Method.requireBody_eq_ok] at h
  obtain ⟨body, hbody, v, -, h⟩ := h
  obtain rfl := Option.some.inj (hb.symm.trans hbody)
  have hstore : ∀ {x value}, o.isTerminator = false →
      goTo (s.write x value) (b.resolve l.next) = .ok t → Goes b l o s t :=
    fun {x value} hfalls h => by
      have place : s.InPlace (s.write x value) := ⟨rfl, id⟩
      exact .way place rfl (Body.mem_ways_next hfalls) h
  cases o with
  | nop | call c =>
      simp only [bind_eq_ok, pure_eq_ok] at h
      exact .way (.refl s) rfl (Body.mem_ways_next rfl) (eq_ok_of_mem h ht)
  | store x e =>
      simp only [bind_eq_ok, pure_eq_ok] at h
      obtain ⟨_, -, _, -, h⟩ := h
      exact hstore rfl (eq_ok_of_mem h ht)
  | storeField target field e =>
      simp only [bind_eq_ok, pure_eq_ok] at h
      obtain ⟨_, -, _, -, _, -, _, -, h⟩ := h
      exact hstore rfl (eq_ok_of_mem h ht)
  | storeStatic field e =>
      simp only [bind_eq_ok, pure_eq_ok] at h
      obtain ⟨_, -, _, -, h⟩ := h
      exact hstore rfl (eq_ok_of_mem h ht)
  | branchIf e target =>
      simp only [bind_eq_ok] at h
      obtain ⟨_, -, _, -, h⟩ := h
      refine branch_goes (List.forall_mem_cons.mpr ⟨?_, List.forall_mem_singleton.mpr ?_⟩) h ht
      · exact Body.mem_ways_target List.mem_cons_self
      · exact Body.mem_ways_next rfl
  | branch target =>
      simp only [bind_eq_ok, pure_eq_ok] at h
      exact .way (.refl s) rfl (Body.mem_ways_target List.mem_cons_self) (eq_ok_of_mem h ht)
  | switch e cases default =>
      simp only [bind_eq_ok] at h
      obtain ⟨_, -, branches, hbranches, h⟩ := h
      exact branch_goes (switchCases_continue hbranches) h ht
  | leave result =>
      cases result with
      | none =>
          simp only [bind_eq_ok, pure_eq_ok] at h
          exact .unwind rfl (eq_ok_of_mem h ht)
      | some e =>
          dsimp only at h
          split at h
          · simp only [bind_eq_ok, pure_eq_ok] at h
            exact .unwind rfl (eq_ok_of_mem h ht)
          · simp only [bind_eq_ok, pure_eq_ok] at h
            obtain ⟨_, -, _, -, h⟩ := h
            exact .unwind rfl (eq_ok_of_mem h ht)
  | throw e =>
      obtain rfl := Except.ok.inj h
      obtain rfl := List.mem_singleton.mp ht
      exact .stop (State.InPlace.refl s).abort rfl
  | endFinally => simp at h

theorem execute_moves (hs : At s p b i)
    (h : m.execute s p.method p.location i.operation = .ok ts) (ht : t ∈ ts) :
    m.Moves s.positions t.positions := by
  cases execute_goes hs.body h ht with
  | @way s' way place _ hway h =>
      rw [← place.positions]
      cases way with
      | none => exact leave_moves h
      | some l =>
          refine jump_moves ⟨place.positions ▸ hs.current, hs.body, hs.instruction⟩ ?_ h
          exact Body.mem_successorsOf_iff_ways.mpr hway
  | unwind ho h => exact leave_moves h
  | stop place stopped => exact .of_eq place.positions

/-- **How a step moves on the stack**, under a policy that leaves the stack alone. -/
theorem step_moves (hpolicy : m.policy.InPlace) (h : m.step s = .ok ts) (ht : t ∈ ts) :
    m.Moves s.positions t.positions := by
  obtain ⟨-, f, i, hf, hi, hcases⟩ := step_into h
  obtain ⟨b, hb, hbi⟩ := Method.instruction_eq_ok.mp hi
  have hs : At s.tick f.position b i := ⟨State.head?_positions hf, hb, hbi⟩
  rcases hcases with ⟨site, index, hmem, -, h⟩ | ⟨-, h⟩
  · exact call_moves (s := s.tick) hpolicy hs (List.fst_mem_of_mem_zipIdx hmem) h ht
  · exact execute_moves (s := s.tick) hs h ht

end Machine

end PlayerPaths
