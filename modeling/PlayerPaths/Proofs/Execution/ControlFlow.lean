import PlayerPaths.Proofs.Execution.Stack
import PlayerPaths.Proofs.Flow.Paths

/-!
# The graph of a method follows its executions

An execution takes one of the ways out of an instruction, and the graph has an edge for every way
that leads to another instruction. It has an edge to the exit only where no way leads to an
instruction: where one of several ways leaves the method, the graph does not show it.
-/

namespace PlayerPaths

open IL

/-! ## Graphs of numbered bodies -/

/-- The instructions of a numbered body have their successors. -/
theorem InstructionGraph.exists_ofBody {b : Body} (hb : b.Numbered) :
    ∃ g, InstructionGraph.ofBody b = .ok g := by
  simp only [InstructionGraph.ofBody, bind_eq_ok]
  rw [exists_comm]
  refine (exists_mapM_ok ?_).imp fun steps hsteps => ⟨_, hsteps, rfl⟩
  rintro ⟨l, i⟩ hmem
  have hi := hb.mem_locations.mp (List.mem_filter.mp hmem).1
  refine ⟨(l, b.successorsOf l i.operation), ?_⟩
  rw [bind_eq_ok]
  exact ⟨_, Body.successors_eq_ok.mpr ⟨i, hi, rfl⟩, rfl⟩

namespace Cfg

variable {m : Method} {b : Body} {c : Cfg} {l : Location} {i : Instruction} {n : FlowNode}

/-- The node of an instruction of a method. -/
def nodeAt (m : Method) (l : Location) (i : Instruction) : FlowNode :=
  .instruction ⟨m.signature, l, i.text⟩

theorem instructionNode_nodeAt (hi : b.instruction? l = some i) :
    instructionNode m b l = .ok (nodeAt m l i) :=
  instructionNode_eq_ok.mpr ⟨i, hi, rfl⟩

theorem exists_instructionNode (h : b.Real l) : ∃ n, instructionNode m b l = .ok n := by
  obtain ⟨i, hi, -⟩ := h
  exact ⟨_, instructionNode_nodeAt hi⟩

/-- A method with a numbered body has a graph. -/
theorem exists_ofMethod (hbody : m.body = some b) (hb : b.Numbered) : ∃ c, ofMethod m = .ok c := by
  obtain ⟨g, hg⟩ := InstructionGraph.exists_ofBody hb
  obtain ⟨hfirst, hsteps⟩ := InstructionGraph.ofBody_eq_ok hb hg
  simp only [ofMethod, bind_eq_ok, Method.requireBody_eq_ok, hbody, Option.some.injEq,
    exists_eq_left', hg, Except.ok.injEq]
  cases hentry : g.first with
  | none => exact ⟨_, rfl⟩
  | some first =>
      rw [hfirst] at hentry
      obtain ⟨node, hnode⟩ := exists_instructionNode (m := m) (Body.resolve_real hentry)
      obtain ⟨c, hc⟩ := exists_foldlM_eq_ok (f := addStep m b) (l := g.steps)
        (b := empty.addEdge .entry node) (by
          rintro c ⟨l, ls⟩ hmem
          obtain ⟨i, hi, -, rfl⟩ := (hsteps l ls).mp hmem
          obtain ⟨targets, htargets⟩ := exists_mapM_ok (f := instructionNode m b)
            (l := b.successorsOf l i.operation)
            fun l' hl' => exists_instructionNode (Body.successorsOf_real hl')
          simp [addStep, instructionNode_nodeAt hi, htargets])
      refine ⟨c, ?_⟩
      dsimp only
      rw [bind_eq_ok]
      exact ⟨node, hnode, hc⟩

/-- The edges out of an instruction. -/
theorem hasEdge_nodeAt_iff (hbody : m.body = some b) (hb : b.Numbered) {first : Location}
    (hfirst : b.resolve (.start 0) = some first) (hc : ofMethod m = .ok c)
    (hi : b.instruction? l = some i) (hreal : i.isGlue = false) :
    c.HasEdge (nodeAt m l i) n ↔
      (∃ l' ∈ b.successorsOf l i.operation, instructionNode m b l' = .ok n ∧ n ≠ nodeAt m l i) ∨
        b.successorsOf l i.operation = [] ∧ n = .exit := by
  obtain ⟨-, -, hedges⟩ := ofMethod_edges hbody hb hfirst hc
  rw [hedges]
  constructor
  · rintro (⟨heq, -⟩ | ⟨l', i', hi', -, hnode, hstep⟩)
    · cases heq
    · obtain ⟨j, -, heq⟩ := instructionNode_eq_ok.mp hnode
      obtain ⟨-, rfl, -⟩ := InstructionNode.mk.inj (FlowNode.instruction.inj heq)
      obtain rfl := Option.some.inj (hi.symm.trans hi')
      exact hstep
  · intro hstep
    exact .inr ⟨l, i, hi, hreal, instructionNode_nodeAt hi, hstep⟩

/-- The graph has an edge for every way to another instruction. -/
theorem hasEdge_of_way (hbody : m.body = some b) (hb : b.Numbered) {first l' : Location}
    (hfirst : b.resolve (.start 0) = some first) (hc : ofMethod m = .ok c)
    (hi : b.instruction? l = some i) (hreal : i.isGlue = false)
    (hway : some l' ∈ b.ways l i.operation) (hne : l' ≠ l) :
    ∃ i', b.instruction? l' = some i' ∧ c.HasEdge (nodeAt m l i) (nodeAt m l' i') := by
  have hsuccessor := Body.mem_successorsOf_iff_ways.mpr hway
  obtain ⟨i', hi', -⟩ := Body.successorsOf_real hsuccessor
  refine ⟨i', hi', (hasEdge_nodeAt_iff hbody hb hfirst hc hi hreal).mpr
    (.inl ⟨l', hsuccessor, instructionNode_nodeAt hi', fun heq => ?_⟩)⟩
  exact hne (InstructionNode.mk.inj (FlowNode.instruction.inj heq)).2.1

end Cfg

namespace Machine

variable {D : Type} {m : Machine D} {s t : State D} {ts : List (State D)} {p : Position} {b : Body}
  {i : Instruction}

/-- A state with the same positions has as many frames, and the current one at the same place. -/
theorem frames_of_positions {s' : State D} (h : s'.positions = s.positions) :
    s'.frames.length = s.frames.length ∧
      ∀ f, s'.frame = .ok f → s.positions.head? = some f.position := by
  constructor
  · have hlength := congrArg List.length h
    simpa [State.positions] using hlength
  · intro f hf
    rw [← h]
    exact State.head?_positions hf

/-- A statement that unwinds has no successors. -/
theorem successorsOf_of_isUnwind {l : Location} {o : Operation} (h : o.isUnwind = true) :
    b.successorsOf l o = [] := by
  rw [List.eq_nil_iff_forall_not_mem]
  intro l' hl'
  rw [Body.mem_successorsOf] at hl'
  cases o <;> simp [Operation.isUnwind, Operation.isTerminator, Operation.targets] at h hl'

/-- Leaving a method takes its frame away, or halts the state in place. -/
theorem leave_leaves {value : Option Formula} (h : leave s value = .ok t) :
    t.frames.length < s.frames.length ∨ t.positions = s.positions ∧ t.status = .halted := by
  rcases leave_cases h with rfl | ⟨f, callers, slot, hframes, -, h⟩
  · exact .inr ⟨rfl, rfl⟩
  · obtain ⟨caller, rest, hcallers, rfl⟩ := State.modifyFrame_eq_ok.mp h
    obtain rfl : callers = caller :: rest := hcallers
    exact .inl (by simp [hframes])

/-- Jumping keeps the frames and the status, and puts the current frame at the location. -/
theorem jump_keeps {l : Location} (h : s.jump l = .ok t) :
    t.frames.length = s.frames.length ∧ t.status = s.status ∧
      ∀ f, t.frame = .ok f → f.location = l := by
  obtain ⟨f, callers, hframes, rfl⟩ := State.modifyFrame_eq_ok.mp h
  refine ⟨by simp [hframes], rfl, ?_⟩
  intro g hg
  obtain ⟨_, heq⟩ := State.frame_eq_ok.mp hg
  obtain ⟨rfl, -⟩ := List.cons.inj heq
  rfl

variable {l : Location} {o : Operation}

/-- A frame that moves goes along a way. -/
theorem Goes.mem_ways (h : Goes b l o s t) {f : Frame} (hf : t.frame = .ok f)
    (hlength : t.frames.length = s.frames.length)
    (hmoved : s.positions.head? ≠ some f.position) : some f.location ∈ b.ways l o := by
  have hstays : t.positions ≠ s.positions := fun hpositions =>
    hmoved ((frames_of_positions hpositions).2 f hf)
  cases h with
  | @way s' way place _ hway h =>
      cases way with
      | none =>
          rcases leave_leaves h with hlt | ⟨hpositions, -⟩
          · have hcount := (frames_of_positions place.positions).1
            omega
          · exact absurd (hpositions.trans place.positions) hstays
      | some l' =>
          rw [(jump_keeps h).2.2 f hf]
          exact hway
  | unwind _ h =>
      rcases leave_leaves h with hlt | ⟨hpositions, -⟩
      · omega
      · exact absurd hpositions hstays
  | stop place _ => exact absurd place.positions hstays

/-- A frame is left by a statement that unwinds, or by a way out of the method. -/
theorem Goes.leaves (h : Goes b l o s t) (hrunning : s.isRunning = true)
    (hleft : t.frames.length < s.frames.length ∨ t.status = .halted) :
    o.isUnwind = true ∨ none ∈ b.ways l o := by
  cases h with
  | @way s' way place hstatus hway h =>
      cases way with
      | none => exact .inr hway
      | some l' =>
          -- A jump keeps the frame, and the state runs on.
          have hcount := (frames_of_positions place.positions).1
          obtain ⟨hlength, hsame, -⟩ := jump_keeps h
          rcases hleft with hlt | hhalted
          · omega
          · rw [hsame, hstatus] at hhalted
            simp [State.isRunning, hhalted] at hrunning
  | unwind hunwind _ => exact .inl hunwind
  | stop place hstopped =>
      have hcount := (frames_of_positions place.positions).1
      rcases hleft with hlt | hhalted
      · omega
      · rw [hhalted] at hstopped
        cases hstopped

/-- **The graph of a method follows its executions.** The method has a graph. When an execution
moves the frame to another instruction, the graph has the edge. When it leaves the frame, the graph
has the edge to the exit, unless some other way out of the instruction stays in the method. -/
theorem execute_follows_graph (hs : At s p b i) (hrunning : s.isRunning = true)
    (hnumbered : b.Numbered) (hreal : i.isGlue = false) {first : Location}
    (hfirst : b.resolve (.start 0) = some first)
    (h : m.execute s p.method p.location i.operation = .ok ts) (ht : t ∈ ts) :
    ∃ c, Cfg.ofMethod p.method = .ok c ∧
      (∀ f, t.frame = .ok f → t.frames.length = s.frames.length → f.location ≠ p.location →
        ∃ i', b.instruction? f.location = some i' ∧
          c.HasEdge (Cfg.nodeAt p.method p.location i) (Cfg.nodeAt p.method f.location i')) ∧
      (t.frames.length < s.frames.length ∨ t.status = .halted ∨ i.operation.isUnwind = true →
        c.HasEdge (Cfg.nodeAt p.method p.location i) .exit ∨
          none ∈ b.ways p.location i.operation ∧
            ∃ l', some l' ∈ b.ways p.location i.operation) := by
  obtain ⟨c, hc⟩ := Cfg.exists_ofMethod hs.body hnumbered
  have hgoes := execute_goes hs.body h ht
  refine ⟨c, hc, ?_, ?_⟩
  · intro f hf hlength hne
    refine Cfg.hasEdge_of_way hs.body hnumbered hfirst hc hs.instruction hreal
      (hgoes.mem_ways hf hlength fun hsame => hne ?_) hne
    rw [hs.current] at hsame
    exact congrArg Position.location (Option.some.inj hsame).symm
  · intro hleft
    have hwayOut : i.operation.isUnwind = true ∨ none ∈ b.ways p.location i.operation := by
      rcases hleft with hlt | hhalted | hunwind
      · exact hgoes.leaves hrunning (.inl hlt)
      · exact hgoes.leaves hrunning (.inr hhalted)
      · exact .inl hunwind
    -- The way out shows in the graph unless another way stays in the method.
    rcases hsuccessors : b.successorsOf p.location i.operation with - | ⟨l', rest⟩
    · exact .inl ((Cfg.hasEdge_nodeAt_iff hs.body hnumbered hfirst hc hs.instruction hreal).mpr
        (.inr ⟨hsuccessors, rfl⟩))
    · rcases hwayOut with hunwind | hnone
      · rw [successorsOf_of_isUnwind hunwind] at hsuccessors
        cases hsuccessors
      · refine .inr ⟨hnone, l', Body.mem_successorsOf_iff_ways.mp ?_⟩
        rw [hsuccessors]
        exact List.mem_cons_self

/-! ## A branch past the end -/

/-- A callback that returns when the game is over, by a branch past its last block, and returns
otherwise as well. -/
def openEnded : Method :=
  ⟨⟨"Player", "Update", [], .void, 0⟩, [], "Game", some { blocks := [⟨0,
    [⟨.branchIf (.staticField ⟨"Player", "gameOver", .bool, true⟩) 5, []⟩, ⟨.leave none, []⟩]⟩] }⟩

def openBranch : Instruction :=
  ⟨.branchIf (.staticField ⟨"Player", "gameOver", .bool, true⟩) 5, []⟩

/-- The machine of the callback, with a solver that rules nothing out. -/
def openMachine : Machine Unit :=
  let context : Context :=
    { program := (Program.empty "Game").addMethod openEnded, entry := openEnded, options := {},
      solver := fun _ => .ok .unknown, sorts := {} }
  ⟨context, .default context⟩

def openStart : State Unit := .start openEnded (.start 0) ()

def openCheck (check : State Unit → Bool) : Bool :=
  match openMachine.execute openStart openEnded (.start 0) openBranch.operation with
  | .ok ts => ts.any check
  | .error _ => false

theorem exists_of_openCheck {check : State Unit → Bool} (h : openCheck check = true) :
    ∃ ts, openMachine.execute openStart openEnded (.start 0) openBranch.operation = .ok ts ∧
      ∃ t ∈ ts, check t = true := by
  unfold openCheck at h
  split at h
  · next ts hts => exact ⟨ts, hts, List.any_eq_true.mp h⟩
  · cases h

theorem openEnded_numbered : ∀ b ∈ openEnded.body, b.Numbered := by
  rintro _ ⟨⟩
  unfold Body.Numbered
  decide

theorem execute_follows_graph_openEnded : ∃ ts t c,
    openMachine.execute openStart openEnded (.start 0) openBranch.operation = .ok ts ∧ t ∈ ts ∧
      Cfg.ofMethod openEnded = .ok c ∧
      ∃ i', c.HasEdge (Cfg.nodeAt openEnded (.start 0) openBranch)
        (Cfg.nodeAt openEnded ⟨0, 1⟩ i') := by
  have hcheck : openCheck (fun t => t.frames.map Frame.location = [⟨0, 1⟩]) = true := by
    decide +kernel
  obtain ⟨ts, hts, t, ht, hlocation⟩ := exists_of_openCheck hcheck
  have hlocation := of_decide_eq_true hlocation
  obtain ⟨f, callers, hframes⟩ : ∃ f callers, t.frames = f :: callers := by
    cases hframes : t.frames with
    | nil => simp [hframes] at hlocation
    | cons f callers => exact ⟨f, callers, rfl⟩
  have hs : At openStart ⟨openEnded, .start 0⟩ _ openBranch := ⟨rfl, rfl, rfl⟩
  obtain ⟨c, hc, hmoves, -⟩ :=
    execute_follows_graph hs rfl (openEnded_numbered _ rfl) rfl rfl hts ht
  rw [hframes, List.map_cons, List.cons.injEq, List.map_eq_nil_iff] at hlocation
  obtain ⟨hf, rfl⟩ := hlocation
  obtain ⟨i', -, hedge⟩ := hmoves f (State.frame_eq_ok.mpr ⟨_, hframes⟩) (by rw [hframes]; rfl) (by
    rw [hf]
    decide)
  rw [hf] at hedge
  exact ⟨ts, t, c, hts, ht, hc, i', hedge⟩

/-- **The graph misses a way out.** The branch past the end returns from the callback, and the graph
has no edge from the branch to the exit. -/
theorem branch_past_end_misses_exit : (∀ b ∈ openEnded.body, b.Numbered) ∧
    ∃ ts t c, openMachine.execute openStart openEnded (.start 0) openBranch.operation = .ok ts ∧
      t ∈ ts ∧ t.status = .halted ∧ Cfg.ofMethod openEnded = .ok c ∧
      ¬ c.HasEdge (Cfg.nodeAt openEnded (.start 0) openBranch) .exit := by
  have hcheck : openCheck (fun t => t.status = .halted) = true := by
    decide +kernel
  obtain ⟨ts, hts, t, ht, hhalted⟩ := exists_of_openCheck hcheck
  obtain ⟨c, hc⟩ := Cfg.exists_ofMethod (m := openEnded) rfl (openEnded_numbered _ rfl)
  have hmissing : (match Cfg.ofMethod openEnded with
      | .ok c => decide ((Cfg.nodeAt openEnded (.start 0) openBranch, FlowNode.exit) ∉ c.edges)
      | .error _ => false) = true := by
    decide +kernel
  rw [hc] at hmissing
  refine ⟨openEnded_numbered, ts, t, c, hts, ht, of_decide_eq_true hhalted, hc, ?_⟩
  rw [← Cfg.mem_edges]
  exact of_decide_eq_true hmissing

end Machine

end PlayerPaths
