import PlayerPaths.Dependence.Slice
import PlayerPaths.Proofs.Execution.ControlFlow
import PlayerPaths.Proofs.Flow.Scope
import PlayerPaths.Transform.Masking

/-!
# What masking does to control flow

Masking changes no location, and glue stays glue, so control resolves as before. What changes is
where a masked instruction leads: to the next instruction. A statement that falls through leads
there anyway, so a path through such statements is a path of the method itself. A jump, return or
throw does not, so where one is masked control goes on where it did not before.
-/

namespace PlayerPaths.IL

variable {live : Nat → Bool} {isEntry : Bool} {i : Instruction} {b : Body} {l : Location}

/-! ## Masked bodies -/

/-- The body with everything outside a slice masked. -/
def Body.masked (b : Body) (live : Nat → Bool) (isEntry : Bool) : Body :=
  { b with blocks := b.blocks.map fun block =>
      { block with instructions := block.instructions.map (Instruction.masked live isEntry) } }

theorem Method.masked_eq_ok {m m' : Method} : m.masked live isEntry = .ok m' ↔
    ∃ b, m.body = some b ∧ m' = { m with body := some (b.masked live isEntry) } := by
  simp only [Method.masked, bind_eq_ok, Method.requireBody_eq_ok, pure_eq_ok]
  constructor
  · rintro ⟨b, hb, rfl⟩
    exact ⟨b, hb, rfl⟩
  · rintro ⟨b, hb, rfl⟩
    exact ⟨b, hb, rfl⟩

theorem Body.getElem?_masked {k : Nat} : (b.masked live isEntry).blocks[k]? =
    b.blocks[k]?.map fun block =>
      { block with instructions := block.instructions.map (Instruction.masked live isEntry) } :=
  List.getElem?_map

theorem Body.instruction?_masked : (b.masked live isEntry).instruction? l =
    (b.instruction? l).map (Instruction.masked live isEntry) := by
  unfold Body.instruction?
  rw [Body.getElem?_masked]
  cases b.blocks[l.block]? with
  | none => rfl
  | some block =>
      show (block.instructions.map _)[l.index]? = _
      rw [List.getElem?_map]
      rfl

theorem Body.Numbered.masked (h : b.Numbered) : (b.masked live isEntry).Numbered := by
  intro k hk
  have hk' : k < b.blocks.length := by simpa [Body.masked] using hk
  have hindex := h k hk'
  simpa [Body.masked] using hindex

/-- An instruction without offsets is live. -/
theorem Instruction.isLive_of_isSynthetic (h : i.isSynthetic = true) :
    i.isLive live isEntry = true := by
  have hranges : i.ranges = [] := List.isEmpty_iff.mp h
  simp [Instruction.isLive, Instruction.offsets, hranges]

theorem Instruction.masked_of_isLive (h : i.isLive live isEntry = true) :
    i.masked live isEntry = i := by
  rw [Instruction.masked, if_pos h]

theorem Instruction.masked_of_not_isLive (h : ¬ i.isLive live isEntry = true) :
    i.masked live isEntry = { i with operation := .nop } := by
  rw [Instruction.masked, if_neg h]

/-- Masking leaves alone what is in the slice, and what does nothing anyway. -/
theorem Instruction.masked_eq_self : i.masked live isEntry = i ↔
    i.isLive live isEntry = true ∨ i.operation = .nop := by
  by_cases h : i.isLive live isEntry = true
  · simp [Instruction.masked_of_isLive h, h]
  · rw [Instruction.masked_of_not_isLive h]
    constructor
    · intro hsame
      exact .inr (congrArg Instruction.operation hsame).symm
    · rintro (hlive | hnop)
      · exact absurd hlive h
      · rw [← hnop]

theorem Instruction.isGlue_masked : (i.masked live isEntry).isGlue = i.isGlue := by
  by_cases h : i.isLive live isEntry = true
  · rw [Instruction.masked_of_isLive h]
  · have hreal : i.isSynthetic = false := by
      by_contra hsynthetic
      exact h (Instruction.isLive_of_isSynthetic (Bool.not_eq_false _ ▸ hsynthetic))
    rw [Instruction.masked_of_not_isLive h, Instruction.isGlue, Instruction.isGlue, hreal]
    show (i.isSynthetic && _) = _
    rw [hreal]
    rfl

/-- Glue is not masked. -/
theorem Instruction.masked_of_isGlue (h : i.isGlue = true) : i.masked live isEntry = i := by
  rw [Instruction.isGlue, Bool.and_eq_true] at h
  exact Instruction.masked_of_isLive (Instruction.isLive_of_isSynthetic h.1)

theorem Body.resolveWithin_masked {steps : Nat} :
    (b.masked live isEntry).resolveWithin steps l = b.resolveWithin steps l := by
  induction steps generalizing l with
  | zero => rfl
  | succ steps ih =>
      unfold Body.resolveWithin
      rw [Body.getElem?_masked]
      cases b.blocks[l.block]? with
      | none => rfl
      | some block =>
          simp only [Option.map_some, List.getElem?_map]
          cases block.instructions[l.index]? with
          | none => exact ih
          | some i =>
              simp only [Option.map_some]
              by_cases hglue : i.isGlue = true
              · rw [Instruction.masked_of_isGlue hglue, hglue]
                cases i.operation <;> first | rfl | exact ih
              · rw [Instruction.isGlue_masked, Bool.not_eq_true _ |>.mp hglue]

/-- **Masking leaves alone where control resolves to.** -/
theorem Body.resolve_masked : (b.masked live isEntry).resolve l = b.resolve l := by
  -- The walk takes one step per block, and masking keeps the blocks.
  unfold Body.resolve
  rw [Body.resolveWithin_masked]
  simp [Body.masked]

theorem Body.successorsOf_masked {o : Operation} :
    (b.masked live isEntry).successorsOf l o = b.successorsOf l o := by
  unfold Body.successorsOf
  simp only [Body.resolve_masked]

/-- A masked statement leads to the next instruction only, which the statement leads to as well
unless it never falls through. -/
theorem Body.mem_successorsOf_masked {l' : Location}
    (h : l' ∈ b.successorsOf l (i.masked live isEntry).operation)
    (hfalls : i.masked live isEntry = i ∨ i.operation.isTerminator = false) :
    l' ∈ b.successorsOf l i.operation := by
  by_cases hlive : i.isLive live isEntry = true
  · rwa [Instruction.masked_of_isLive hlive] at h
  · rcases hfalls with hsame | hfalls
    · rwa [hsame] at h
    · rw [Instruction.masked_of_not_isLive hlive, Body.mem_successorsOf] at h
      rcases h with ⟨-, h⟩ | ⟨_, htarget, -⟩
      · exact Body.mem_successorsOf.mpr (.inl ⟨hfalls, h⟩)
      · exact absurd htarget List.not_mem_nil

end PlayerPaths.IL

namespace PlayerPaths

open IL

/-! ## Masked graphs -/

namespace Cfg

variable {m m' : Method} {b : Body} {live : Nat → Bool} {isEntry : Bool} {c c' : Cfg}
  {x y z a : FlowNode} {ns : List FlowNode} {l : Location} {i : Instruction}

/-- Masking leaves the instruction of a node unchanged. -/
def Kept (b : Body) (live : Nat → Bool) (isEntry : Bool) (n : FlowNode) : Prop :=
  ∃ l i, n.location? = some l ∧ b.instruction? l = some i ∧ i.masked live isEntry = i

theorem kept_nodeAt {method : Method} {j : Instruction} (hi : b.instruction? l = some i) :
    Kept b live isEntry (nodeAt method l j) ↔
      i.isLive live isEntry = true ∨ i.operation = .nop := by
  rw [← Instruction.masked_eq_self]
  constructor
  · rintro ⟨l', i', hl, hi', hsame⟩
    obtain rfl := Option.some.inj hl
    obtain rfl := Option.some.inj (hi.symm.trans hi')
    exact hsame
  · exact fun hsame => ⟨l, i, rfl, hi, hsame⟩

/-- A node whose statement, if it is masked, falls through. -/
def Falls (b : Body) (live : Nat → Bool) (isEntry : Bool) (n : FlowNode) : Prop :=
  ∀ l i, n.location? = some l → b.instruction? l = some i →
    i.masked live isEntry = i ∨ i.operation.isTerminator = false

/-- The node of the method at the location of a node of the masked method. -/
def unmasked (m : Method) (b : Body) (n : FlowNode) : FlowNode :=
  (n.location?.bind fun l => (b.instruction? l).map (nodeAt m l)).getD n

theorem unmasked_nodeAt {method : Method} {j : Instruction} (hi : b.instruction? l = some i) :
    unmasked m b (nodeAt method l j) = nodeAt m l i := by
  show (((b.instruction? l).map (nodeAt m l))).getD _ = _
  rw [hi]
  rfl

/-- The node of an instruction of the masked method. -/
theorem exists_nodeAt_of_masked (h : instructionNode m' (b.masked live isEntry) l = .ok x) :
    ∃ i, b.instruction? l = some i ∧ x = nodeAt m' l (i.masked live isEntry) := by
  obtain ⟨j, hj, rfl⟩ := instructionNode_eq_ok.mp h
  rw [Body.instruction?_masked, Option.map_eq_some_iff] at hj
  obtain ⟨i, hi, rfl⟩ := hj
  exact ⟨i, hi, rfl⟩

/-- A method with a graph, and its masked form. -/
structure Masked (m : Method) (b : Body) (live : Nat → Bool) (isEntry : Bool) (c c' : Cfg) :
    Prop where
  body : m.body = some b
  numbered : b.Numbered
  graph : ofMethod m = .ok c
  masked : ofMethod { m with body := some (b.masked live isEntry) } = .ok c'

/-- The edges of the masked graph, the exit apart, are edges of the graph at the same locations,
where they leave a node that falls through. -/
theorem Masked.hasEdge (h : Masked m b live isEntry c c') (edge : c'.HasEdge x y) (hy : y ≠ .exit)
    (hx : Falls b live isEntry x) : c.HasEdge (unmasked m b x) (unmasked m b y) := by
  have hresolve : (b.masked live isEntry).resolve (.start 0) = b.resolve (.start 0) :=
    Body.resolve_masked
  cases hfirst : b.resolve (.start 0) with
  | none =>
      rw [hfirst] at hresolve
      rw [ofMethod_empty rfl hresolve h.masked, (valid_empty.addEdge _ _).edges] at edge
      rcases edge with ⟨-, rfl⟩ | ⟨k, _, hk, -⟩
      · exact absurd rfl hy
      · simp [empty, Graph.empty] at hk
  | some first =>
      rw [hfirst] at hresolve
      obtain ⟨-, -, hedges⟩ := ofMethod_edges h.body h.numbered hfirst h.graph
      obtain ⟨-, -, hedges'⟩ := ofMethod_edges rfl h.numbered.masked hresolve h.masked
      rcases (hedges' x y).mp edge with ⟨rfl, l, hl, hnode⟩ | ⟨l, j, hj, hglue, hnode, hstep⟩
      · rw [Body.resolve_masked] at hl
        obtain ⟨i, hi, rfl⟩ := exists_nodeAt_of_masked hnode
        rw [unmasked_nodeAt hi]
        exact (hedges _ _).mpr (.inl ⟨rfl, l, hl, instructionNode_nodeAt hi⟩)
      · obtain ⟨i, hi, rfl⟩ := exists_nodeAt_of_masked hnode
        rw [Body.instruction?_masked, hi, Option.map_some, Option.some.injEq] at hj
        subst hj
        rcases hstep with ⟨l', hl', hnode', hne⟩ | ⟨-, rfl⟩
        · obtain ⟨i', hi', rfl⟩ := exists_nodeAt_of_masked hnode'
          rw [unmasked_nodeAt hi, unmasked_nodeAt hi']
          refine (hedges _ _).mpr (.inr ⟨l, i, hi, ?_, instructionNode_nodeAt hi, .inl
            ⟨l', ?_, instructionNode_nodeAt hi', ?_⟩⟩)
          · rw [← hglue, Instruction.isGlue_masked]
          · rw [Body.successorsOf_masked] at hl'
            exact Body.mem_successorsOf_masked hl' (hx l i rfl hi)
          · -- An edge does not stay at its location.
            intro heq
            obtain ⟨-, rfl, -⟩ := InstructionNode.mk.inj (FlowNode.instruction.inj heq)
            rw [hi] at hi'
            rw [Option.some.inj hi'] at hne
            exact hne rfl
        · exact absurd rfl hy

/-- Behind an edge, a path of the masked graph whose nodes fall through is a path of the graph. -/
theorem Masked.path (h : Masked m b live isEntry c c') (edge : c'.HasEdge x y)
    (hpath : c'.Path y ns z) (hz : z ≠ .exit) (hx : Falls b live isEntry x)
    (hns : ∀ n ∈ ns, Falls b live isEntry n) :
    c.Path (unmasked m b x) (unmasked m b x :: ns.map (unmasked m b)) (unmasked m b z) := by
  induction hpath generalizing x with
  | here =>
      have edge := h.hasEdge edge hz hx
      exact .step edge (.here edge.target)
  | @step y w z ns edge' rest ih =>
      obtain ⟨hy, hrest⟩ := List.forall_mem_cons.mp hns
      have hyexit : y ≠ .exit := by
        -- Nothing follows the exit.
        rintro rfl
        exact (ofMethod_graphOf h.masked).exit_last _ edge'
      exact .step (h.hasEdge edge hyexit hx) (ih edge' hz hy hrest)

theorem location?_unmasked : (unmasked m b x).location? = x.location? := by
  unfold unmasked
  cases hl : x.location? with
  | none => exact hl
  | some l =>
      show (((b.instruction? l).map (nodeAt m l)).getD x).location? = _
      cases b.instruction? l with
      | none => exact hl
      | some i => rfl

theorem kept_unmasked_iff :
    Kept b live isEntry (unmasked m b x) ↔ Kept b live isEntry x := by
  unfold Kept
  rw [location?_unmasked]

theorem falls_of_kept (h : x = .entry ∨ Kept b live isEntry x) : Falls b live isEntry x := by
  intro l i hl hi
  rcases h with rfl | ⟨l', i', hl', hi', hsame⟩
  · cases hl
  · obtain rfl := Option.some.inj (hl.symm.trans hl')
    obtain rfl := Option.some.inj (hi.symm.trans hi')
    exact .inl hsame

/-- A node of the masked graph that is kept is the same without masking. -/
theorem Masked.unmasked_of_kept (h : Masked m b live isEntry c c') (hx : c'.Has x)
    (hkept : x = .entry ∨ Kept b live isEntry x) : unmasked m b x = x := by
  rcases hkept with rfl | ⟨l, i, hl, hi, hsame⟩
  · rfl
  · have hvalid : FlowMethod.Valid
        ⟨{ m with body := some (b.masked live isEntry) }, b.masked live isEntry, c'⟩ :=
      ⟨rfl, h.numbered.masked, h.masked⟩
    obtain ⟨i', hi', rfl⟩ := exists_nodeAt_of_masked (hvalid.node hx hl).1
    obtain rfl := Option.some.inj (hi.symm.trans hi')
    rw [unmasked_nodeAt hi, hsame]
    rfl

/-- **Masking keeps the order of what it keeps**, as far as it masks statements that fall through. A
path of the masked graph from the entry or a kept node to a kept node, through masked nodes none of
which stood for a terminator, is a path of the graph through masked nodes, at the same locations. -/
theorem path_of_masked_path (hbody : m.body = some b) (hnumbered : b.Numbered)
    (hmasked : m.masked live isEntry = .ok m') (hc : ofMethod m = .ok c)
    (hc' : ofMethod m' = .ok c') (hx : x = .entry ∨ Kept b live isEntry x)
    (hz : Kept b live isEntry z) {middle : List FlowNode}
    (hpath : c'.Path x (x :: (middle ++ [z])) z) (hmiddle : ∀ n ∈ middle, ¬ Kept b live isEntry n)
    (hfalls : ∀ n ∈ middle, ∀ l i, n.location? = some l → b.instruction? l = some i →
      i.operation.isTerminator = false) :
    ∃ middle', c.Path x (x :: (middle' ++ [z])) z ∧
      (∀ n ∈ middle', ¬ Kept b live isEntry n) ∧
        middle'.map FlowNode.location? = middle.map FlowNode.location? := by
  obtain ⟨_, hb, rfl⟩ := Method.masked_eq_ok.mp hmasked
  obtain rfl := Option.some.inj (hbody.symm.trans hb)
  have h : Masked m b live isEntry c c' := ⟨hbody, hnumbered, hc, hc'⟩
  have hxsame := h.unmasked_of_kept hpath.source hx
  have hzsame := h.unmasked_of_kept hpath.target (.inr hz)
  have hzexit : z ≠ .exit := by
    rintro rfl
    obtain ⟨l, -, hl, -⟩ := hz
    cases hl
  have hall : ∀ n ∈ middle ++ [z], Falls b live isEntry n := by
    refine List.forall_mem_append.mpr ⟨?_, List.forall_mem_singleton.mpr (falls_of_kept (.inr hz))⟩
    intro n hn l i hl hi
    exact .inr (hfalls n hn l i hl hi)
  generalize hns : x :: (middle ++ [z]) = ns at hpath
  cases hpath with
  | here => simp at hns
  | step edge rest =>
      obtain rfl := (List.cons.inj hns).2
      have hpath := h.path edge rest hzexit (falls_of_kept hx) hall
      rw [hxsame, hzsame, List.map_append, List.map_singleton, hzsame] at hpath
      refine ⟨middle.map (unmasked m b), hpath, ?_, ?_⟩
      · intro n' hn'
        obtain ⟨n, hn, rfl⟩ := List.mem_map.mp hn'
        rw [kept_unmasked_iff]
        exact hmiddle n hn
      · rw [List.map_map]
        exact List.map_congr_left fun n _ => location?_unmasked

/-! ## Two callbacks -/

/-- A callback in the main module whose statements stand for one bytecode offset each. -/
def callbackOf (blocks : List (List (Nat × Operation))) : Method :=
  ⟨⟨"Player", "Update", [], .void, 0⟩, [], "Game",
    some { blocks := blocks.mapIdx fun k os =>
      ⟨k, os.map fun (offset, o) => ⟨o, [⟨offset, offset⟩]⟩⟩ }⟩

def nodeOf (m : Method) (l : Location) (offset : Nat) (o : Operation) : FlowNode :=
  nodeAt m l ⟨o, [⟨offset, offset⟩]⟩

def readAxis : Operation :=
  .store ⟨"x", .local, .single⟩ (.call (.static "UnityEngine.Input" "GetAxis" [.string] .single)
    [.constant (.string "Horizontal")])

/-- A callback that reads an axis, stores something else, and returns. -/
def straight : Method :=
  callbackOf [[(0, readAxis), (1, .store ⟨"y", .local, .int32⟩ (.constant (.int32 1))),
    (2, .leave none)]]

/-- A callback that throws when the game is over, and otherwise reads an axis and jumps over the
throw to its end. -/
def jumping : Method :=
  callbackOf [[(0, .branchIf (.staticField ⟨"Player", "gameOver", .bool, true⟩) 2)],
    [(1, readAxis), (2, .branch 3)], [(3, .throw (.constant .null))], [(4, .leave none)]]

def afterAxis : List FlowNode :=
  [nodeOf jumping ⟨1, 0⟩ 1 readAxis, nodeOf jumping ⟨1, 1⟩ 2 (.branch 3),
    nodeOf jumping ⟨3, 0⟩ 4 (.leave none), .exit]

/-- The analysis of a callback on its own. -/
def alone (m : Method) : Scope := ⟨(Program.empty "Game").addMethod m, m, {}⟩

/-- The graphs of a callback and of its computed slice, whose offsets and graphs pass a check. -/
def slicedCheck (m : Method) (check : List Nat → Cfg → Cfg → Bool) : Bool :=
  match (do
    let slice ← (alone m).slice
    let offsets := (slice.offsets? m.signature).getD []
    return check offsets (← ofMethod m) (← ofMethod (← m.masked (offsets.contains ·) true)) :
      Result Bool) with
  | .ok checked => checked
  | .error _ => false

theorem exists_of_slicedCheck {check : List Nat → Cfg → Cfg → Bool}
    (h : slicedCheck m check = true) : ∃ slice offsets m' c c', (alone m).slice = .ok slice ∧
      (slice.offsets? m.signature).getD [] = offsets ∧
        m.masked (offsets.contains ·) true = .ok m' ∧ ofMethod m = .ok c ∧ ofMethod m' = .ok c' ∧
          check offsets c c' = true := by
  unfold slicedCheck at h
  split at h
  · next checked hchecked =>
    subst h
    simp only [bind_eq_ok, pure_eq_ok] at hchecked
    obtain ⟨slice, hslice, c, hc, m', hmasked, c', hc', hcheck⟩ := hchecked
    exact ⟨slice, _, m', c, c', hslice, rfl, hmasked, hc, hc', hcheck⟩
  · cases h

theorem path_of_masked_path_straight : ∃ slice offsets m' c c' middle',
    (alone straight).slice = .ok slice ∧ (slice.offsets? straight.signature).getD [] = offsets ∧
      straight.masked (offsets.contains ·) true = .ok m' ∧ ofMethod straight = .ok c ∧
      ofMethod m' = .ok c' ∧
      c.Path (nodeOf straight (.start 0) 0 readAxis) (nodeOf straight (.start 0) 0 readAxis ::
        (middle' ++ [nodeOf straight ⟨0, 2⟩ 2 (.leave none)]))
        (nodeOf straight ⟨0, 2⟩ 2 (.leave none)) ∧
      middle'.map FlowNode.location? = [some ⟨0, 1⟩] := by
  have hcheck : slicedCheck straight (fun offsets _ c' => decide (offsets = [0]) &&
      decide ((nodeOf straight (.start 0) 0 readAxis, nodeOf straight ⟨0, 1⟩ 1 .nop) ∈ c'.edges) &&
      decide ((nodeOf straight ⟨0, 1⟩ 1 .nop, nodeOf straight ⟨0, 2⟩ 2 (.leave none)) ∈ c'.edges)) =
        true := by
    decide +kernel
  obtain ⟨slice, offsets, m', c, c', hslice, hoffsets, hmasked, hc, hc', hcheck⟩ :=
    exists_of_slicedCheck hcheck
  simp only [Bool.and_eq_true, decide_eq_true_eq, mem_edges] at hcheck
  obtain ⟨⟨rfl, hfirst⟩, hsecond⟩ := hcheck
  have hpath : c'.Path _ (_ :: ([nodeOf straight ⟨0, 1⟩ 1 .nop] ++ [_])) _ :=
    .step hfirst (.step hsecond (.here hsecond.target))
  obtain ⟨middle', hpath, -, hlocations⟩ := path_of_masked_path rfl
    (by unfold Body.Numbered; decide) hmasked hc hc'
    (.inr ((kept_nodeAt rfl).mpr (.inl rfl))) ((kept_nodeAt rfl).mpr (.inl rfl)) hpath
    (by
      rw [List.forall_mem_singleton, nodeOf, kept_nodeAt rfl]
      rintro (hlive | hnop)
      · cases hlive
      · cases hnop)
    (by
      rw [List.forall_mem_singleton]
      intro l i hl hi
      cases hl
      cases hi
      rfl)
  exact ⟨slice, [0], m', c, c', middle', hslice, hoffsets, hmasked, hc, hc', hpath, hlocations⟩

/-- **A masked jump lets control through.** The jump over the throw is outside the slice, as it
always leads to the same place, and the throw is kept: in the masked callback control goes from the
axis to the throw, and in the callback it never does. -/
theorem masked_jump_falls_through : ∃ b slice offsets m' c c',
    jumping.body = some b ∧ b.Numbered ∧ (alone jumping).slice = .ok slice ∧
      (slice.offsets? jumping.signature).getD [] = offsets ∧
      jumping.masked (offsets.contains ·) true = .ok m' ∧ ofMethod jumping = .ok c ∧
      ofMethod m' = .ok c' ∧ ∃ x z n, Kept b (offsets.contains ·) true x ∧
        Kept b (offsets.contains ·) true z ∧ ¬ Kept b (offsets.contains ·) true n ∧
        c'.Path x [x, n, z] z ∧ ¬ c.Reaches x z := by
  have hcheck : slicedCheck jumping (fun offsets c c' => decide (offsets = [0, 1]) &&
      decide ((nodeOf jumping ⟨1, 0⟩ 1 readAxis, nodeOf jumping ⟨1, 1⟩ 2 .nop) ∈ c'.edges) &&
      decide ((nodeOf jumping ⟨1, 1⟩ 2 .nop, nodeOf jumping ⟨2, 0⟩ 3 (.throw (.constant .null)))
        ∈ c'.edges) &&
      c.edges.all fun edge => decide (edge.1 ∈ afterAxis → edge.2 ∈ afterAxis)) = true := by
    decide +kernel
  obtain ⟨slice, offsets, m', c, c', hslice, hoffsets, hmasked, hc, hc', hcheck⟩ :=
    exists_of_slicedCheck hcheck
  simp only [Bool.and_eq_true, decide_eq_true_eq, List.all_eq_true, Prod.forall,
    mem_edges] at hcheck
  obtain ⟨⟨⟨rfl, hfirst⟩, hsecond⟩, hclosed⟩ := hcheck
  refine ⟨_, slice, [0, 1], m', c, c', rfl, by unfold Body.Numbered; decide, hslice, hoffsets,
    hmasked, hc, hc', _, _, _, (kept_nodeAt rfl).mpr (.inl rfl), (kept_nodeAt rfl).mpr (.inl rfl), ?_,
    .step hfirst (.step hsecond (.here hsecond.target)), ?_⟩
  · rw [nodeOf, kept_nodeAt rfl]
    rintro (hlive | hjump)
    · cases hlive
    · cases hjump
  · -- After the axis, control goes to the jump and over the throw to the end.
    rintro ⟨ns, hpath⟩
    have hafter := hpath.stays (p := (· ∈ afterAxis)) List.mem_cons_self hclosed
    exact absurd hafter (by decide +kernel)

end Cfg

end PlayerPaths
