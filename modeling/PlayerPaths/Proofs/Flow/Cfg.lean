import PlayerPaths.Flow.Cfg
import PlayerPaths.Proofs.Flow.Resolve
import PlayerPaths.Proofs.Graph.Labels

/-!
# What a control flow graph has

Nodes and edges of a graph that is built up from nothing are exactly those that were added. The
graph of a method has the edges that `Flows` lists: from the entry to the first instruction, from
every real instruction to its other successors, and to the exit from one that has none.
-/

namespace PlayerPaths

open IL Std

namespace Cfg

variable {c c' : Cfg} {a b n : FlowNode}

/-- The graph is well formed, and its nodes are numbered one after another, each once. -/
abbrev Valid (c : Cfg) : Prop := c.graph.Labelled

def Has (c : Cfg) (n : FlowNode) : Prop := ∃ i : Nat, c.graph.vertices[i]? = some n

def HasEdge (c : Cfg) (a b : FlowNode) : Prop :=
  ∃ i j : Nat, c.graph.vertices[i]? = some a ∧ c.graph.vertices[j]? = some b ∧ (i, j) ∈ c.graph.edges

theorem HasEdge.source (h : c.HasEdge a b) : c.Has a := by
  obtain ⟨i, -, hi, -⟩ := h
  exact ⟨i, hi⟩

theorem HasEdge.target (h : c.HasEdge a b) : c.Has b := by
  obtain ⟨-, j, -, hj, -⟩ := h
  exact ⟨j, hj⟩

theorem valid_empty : empty.Valid := Graph.labelled_empty

theorem Valid.index?_eq_some (h : c.Valid) {i : Nat} :
    c.index? n = some i ↔ c.graph.vertices[i]? = some n :=
  h.find?_eq_some

theorem Valid.index?_eq_none (h : c.Valid) : c.index? n = none ↔ ¬ c.Has n := by
  simp only [Option.eq_none_iff_forall_ne_some, ne_eq, h.index?_eq_some, Has, not_exists]

/-! ## Adding nodes and edges -/

theorem Valid.addNode (h : c.Valid) (n : FlowNode) :
    c.graph.Given n (c.addNode n).1 (c.addNode n).2.graph := by
  unfold Cfg.addNode
  cases hindex : c.index? n with
  | some i => exact h.given_self (h.index?_eq_some.mp hindex)
  | none =>
      refine h.given_addVertex fun i hi => ?_
      exact h.index?_eq_none.mp hindex ⟨i, hi⟩

theorem given_has {i : Nat} (h : c.graph.Given n i c'.graph) {m : FlowNode} :
    c'.Has m ↔ m = n ∨ c.Has m := by
  constructor
  · rintro ⟨j, hj⟩
    exact (h.labels hj).imp id fun hm => ⟨j, hm⟩
  · rintro (rfl | ⟨j, hj⟩)
    · exact ⟨i, h.index⟩
    · exact ⟨j, h.keeps hj⟩

theorem given_hasEdge {i : Nat} (h : c.graph.Given n i c'.graph) (hc : c.Valid) :
    c'.HasEdge a b ↔ c.HasEdge a b := by
  unfold HasEdge
  rw [h.edges]
  exact h.edge_iff hc fun _ => id

/-- What it means that a graph has been given an edge. -/
structure Joined (c : Cfg) (a b : FlowNode) (c' : Cfg) : Prop where
  valid : c'.Valid
  nodes : ∀ m, c'.Has m ↔ (m = a ∨ m = b) ∨ c.Has m
  edges : ∀ x y, c'.HasEdge x y ↔ (x = a ∧ y = b) ∨ c.HasEdge x y

theorem Valid.addEdge (h : c.Valid) (a b : FlowNode) : c.Joined a b (c.addEdge a b) := by
  have hsource := h.addNode a
  have hmiddle : (c.addNode a).2.Valid := hsource.labelled
  have htarget := hmiddle.addNode b
  have hhead := htarget.keeps hsource.index
  have hnodes : ∀ m, ((c.addNode a).2.addNode b).2.Has m ↔ (m = a ∨ m = b) ∨ c.Has m := by
    intro m
    rw [given_has htarget, given_has hsource]
    tauto
  have hedges : ∀ x y, ((c.addNode a).2.addNode b).2.HasEdge x y ↔ c.HasEdge x y := by
    intro x y
    rw [given_hasEdge htarget hmiddle, given_hasEdge hsource h]
  unfold Cfg.addEdge
  dsimp only
  generalize hi : (c.addNode a).1 = i at *
  generalize hj : ((c.addNode a).2.addNode b).1 = j at *
  generalize hd : ((c.addNode a).2.addNode b).2 = d at *
  split
  · next hedge =>
    refine ⟨htarget.labelled, hnodes, fun x y => ?_⟩
    rw [hedges]
    constructor
    · exact .inr
    · rintro (⟨rfl, rfl⟩ | hxy)
      · rw [← hedges]
        exact ⟨i, j, hhead, htarget.index, TreeMap.contains_iff_mem.mp hedge⟩
      · exact hxy
  · have hvalid : Valid ⟨d.graph.addEdge i j ()⟩ := by
      refine ⟨htarget.labelled.wellFormed.addEdge ?_ ?_ (), htarget.labelled.numbered,
        htarget.labelled.distinct⟩
      · exact mem_iff_exists_getElem?.mpr ⟨a, hhead⟩
      · exact mem_iff_exists_getElem?.mpr ⟨b, htarget.index⟩
    refine ⟨hvalid, hnodes, fun x y => ?_⟩
    rw [← hedges]
    constructor
    · rintro ⟨k, l, hk, hl, hkl⟩
      rcases Graph.mem_edges_addEdge.mp hkl with ⟨rfl, rfl⟩ | hkl
      · refine .inl ⟨?_, ?_⟩
        · exact Option.some.inj (hk.symm.trans hhead)
        · exact Option.some.inj (hl.symm.trans htarget.index)
      · exact .inr ⟨k, l, hk, hl, hkl⟩
    · rintro (⟨rfl, rfl⟩ | ⟨k, l, hk, hl, hkl⟩)
      · exact ⟨i, j, hhead, htarget.index, Graph.mem_edges_addEdge.mpr (.inl ⟨rfl, rfl⟩)⟩
      · exact ⟨k, l, hk, hl, Graph.mem_edges_addEdge.mpr (.inr hkl)⟩

theorem Valid.addEdges (h : c.Valid) (a : FlowNode) (bs : List FlowNode) :
    (bs.foldl (fun c b => c.addEdge a b) c).Valid ∧
      (∀ m, (bs.foldl (fun c b => c.addEdge a b) c).Has m ↔ (m = a ∧ bs ≠ []) ∨ m ∈ bs ∨ c.Has m) ∧
      ∀ x y, (bs.foldl (fun c b => c.addEdge a b) c).HasEdge x y ↔
        (x = a ∧ y ∈ bs) ∨ c.HasEdge x y := by
  induction bs generalizing c with
  | nil => simp [h]
  | cons b bs ih =>
      have hadd := h.addEdge a b
      obtain ⟨hvalid, hnodes, hedges⟩ := ih hadd.valid
      rw [List.foldl_cons]
      refine ⟨hvalid, fun m => ?_, fun x y => ?_⟩
      · rw [hnodes, hadd.nodes, List.mem_cons]
        simp only [ne_eq, reduceCtorEq, not_false_eq_true, and_true]
        tauto
      · rw [hedges, hadd.edges, List.mem_cons]
        tauto

/-! ## Graphs of methods -/

variable {m : Method} {body : Body}

theorem instructionNode_eq_ok {l : Location} : instructionNode m body l = .ok n ↔
    ∃ i, body.instruction? l = some i ∧ n = .instruction ⟨m.signature, l, i.text⟩ := by
  simp only [instructionNode, bind_eq_ok, Body.block_eq_ok, Body.instruction?,
    Option.bind_eq_some_iff]
  constructor
  · rintro ⟨block, hblock, h⟩
    split at h
    · next i hi => exact ⟨i, ⟨block, hblock, hi⟩, (pure_eq_ok.mp h).symm⟩
    · simp at h
  · rintro ⟨i, ⟨block, hblock, hi⟩, rfl⟩
    exact ⟨block, hblock, by simp [hi]⟩

/-- The node of an instruction has its location. -/
theorem location?_of_instructionNode {l : Location} (h : instructionNode m body l = .ok n) :
    n.location? = some l := by
  obtain ⟨i, -, rfl⟩ := instructionNode_eq_ok.mp h
  rfl

/-- An edge that an instruction with some successors has. An instruction that only leads to itself
leads nowhere. -/
def StepEdge (m : Method) (body : Body) (l : Location) (ls : List Location) (a b : FlowNode) :
    Prop :=
  instructionNode m body l = .ok a ∧
    ((∃ l' ∈ ls, instructionNode m body l' = .ok b ∧ b ≠ a) ∨ ls = [] ∧ b = .exit)

/-- Every node of the graph is an end of an edge. -/
def Spanned (c : Cfg) : Prop := ∀ n, c.Has n → ∃ a, c.HasEdge n a ∨ c.HasEdge a n

theorem Joined.spanned (h : c.Joined a b c') (hc : c.Spanned) : c'.Spanned := by
  intro n hn
  rcases (h.nodes n).mp hn with (rfl | rfl) | hn
  · exact ⟨b, .inl ((h.edges _ _).mpr (.inl ⟨rfl, rfl⟩))⟩
  · exact ⟨a, .inr ((h.edges _ _).mpr (.inl ⟨rfl, rfl⟩))⟩
  · obtain ⟨o, ho⟩ := hc n hn
    exact ⟨o, ho.imp (fun he => (h.edges _ _).mpr (.inr he)) fun he => (h.edges _ _).mpr (.inr he)⟩

def addStep (m : Method) (body : Body) (c : Cfg) (step : Location × List Location) : Result Cfg := do
  let source ← instructionNode m body step.1
  let targets ← step.2.mapM (instructionNode m body)
  let c := (targets.filter (· ≠ source)).foldl (fun c target => c.addEdge source target) c
  return if step.2.isEmpty then c.addEdge source .exit else c

/-- What it means that a graph has been given further edges. -/
structure Grown (c : Cfg) (edges : FlowNode → FlowNode → Prop) (c' : Cfg) : Prop where
  valid : c'.Valid
  spanned : c'.Spanned
  edges : ∀ x y, c'.HasEdge x y ↔ edges x y ∨ c.HasEdge x y

theorem addStep_grown (h : c.Valid) (hc : c.Spanned) {step : Location × List Location}
    (hstep : addStep m body c step = .ok c') :
    c.Grown (StepEdge m body step.1 step.2) c' := by
  simp only [addStep, bind_eq_ok, pure_eq_ok] at hstep
  obtain ⟨source, hsource, targets, htargets, rfl⟩ := hstep
  rw [mapM_eq_ok] at htargets
  obtain ⟨hvalid, hnodes, hedges⟩ := h.addEdges source (targets.filter (· ≠ source))
  have hspanned : Spanned ((targets.filter (· ≠ source)).foldl (fun c b => c.addEdge source b) c) := by
    intro n hn
    rcases (hnodes n).mp hn with ⟨rfl, hne⟩ | hn | hn
    · obtain ⟨b, hb⟩ := List.exists_mem_of_ne_nil _ hne
      exact ⟨b, .inl ((hedges _ _).mpr (.inl ⟨rfl, hb⟩))⟩
    · exact ⟨source, .inr ((hedges _ _).mpr (.inl ⟨rfl, hn⟩))⟩
    · obtain ⟨o, ho⟩ := hc n hn
      exact ⟨o, ho.imp (fun he => (hedges _ _).mpr (.inr he)) fun he => (hedges _ _).mpr (.inr he)⟩
  have htarget : ∀ b, b ∈ targets.filter (· ≠ source) ↔
      ∃ l' ∈ step.2, instructionNode m body l' = .ok b ∧ b ≠ source := by
    intro b
    rw [List.mem_filter, decide_eq_true_eq]
    constructor
    · rintro ⟨hb, hne⟩
      obtain ⟨l', hl', hb⟩ := forall₂_exists_of_mem_right htargets hb
      exact ⟨l', hl', hb, hne⟩
    · rintro ⟨l', hl', hb, hne⟩
      obtain ⟨b', hb', heq⟩ := forall₂_exists_of_mem_left htargets hl'
      obtain rfl := Except.ok.inj (heq.symm.trans hb)
      exact ⟨hb', hne⟩
  have hsource' : ∀ x, instructionNode m body step.1 = .ok x ↔ x = source := by
    intro x
    rw [hsource, Except.ok.injEq, eq_comm]
  simp only [List.isEmpty_iff]
  split
  · next hempty =>
    have hexit := hvalid.addEdge source .exit
    refine ⟨hexit.valid, hexit.spanned hspanned, fun x y => ?_⟩
    rw [hexit.edges, hedges, StepEdge, hsource']
    simp only [htarget, hempty]
    simp
  · next hne =>
    refine ⟨hvalid, hspanned, fun x y => ?_⟩
    rw [hedges, StepEdge, hsource', htarget]
    constructor
    · rintro (⟨rfl, hy⟩ | hxy)
      · exact .inl ⟨rfl, .inl hy⟩
      · exact .inr hxy
    · rintro (⟨rfl, hy | ⟨hnil, -⟩⟩ | hxy)
      · exact .inl ⟨rfl, hy⟩
      · exact absurd hnil hne
      · exact .inr hxy

theorem addSteps_grown (h : c.Valid) (hc : c.Spanned) {steps : List (Location × List Location)}
    (hsteps : steps.foldlM (addStep m body) c = .ok c') :
    c.Grown (fun x y => ∃ step ∈ steps, StepEdge m body step.1 step.2 x y) c' := by
  induction steps generalizing c with
  | nil =>
      obtain rfl := Except.ok.inj hsteps
      exact ⟨h, hc, by simp⟩
  | cons step steps ih =>
      simp only [List.foldlM_cons, bind_eq_ok] at hsteps
      obtain ⟨d, hd, hsteps⟩ := hsteps
      have hfirst := addStep_grown h hc hd
      have hrest := ih hfirst.valid hfirst.spanned hsteps
      refine ⟨hrest.valid, hrest.spanned, fun x y => ?_⟩
      rw [hrest.edges, hfirst.edges]
      simp only [List.mem_cons, exists_eq_or_imp]
      rw [or_left_comm, or_assoc]

/-- The edges of the graph of a method: from the entry to the first instruction, and from every real
instruction to its successors. -/
def Flows (m : Method) (body : Body) (a b : FlowNode) : Prop :=
  (a = .entry ∧ ∃ first, body.resolve (.start 0) = some first ∧
    instructionNode m body first = .ok b) ∨
  ∃ l i, body.instruction? l = some i ∧ i.isGlue = false ∧
    StepEdge m body l (body.successorsOf l i.operation) a b

/-- The graph of a method is an edge to the exit, or the steps of its instructions are added to an
edge to the first one. -/
theorem ofMethod_cases (h : ofMethod m = .ok c) :
    ∃ body g, m.body = some body ∧ InstructionGraph.ofBody body = .ok g ∧
      ((body.resolve (.start 0) = none ∧ c = empty.addEdge .entry .exit) ∨
        ∃ first node, body.resolve (.start 0) = some first ∧
          instructionNode m body first = .ok node ∧
          g.steps.foldlM (addStep m body) (empty.addEdge .entry node) = .ok c) := by
  simp only [ofMethod, bind_eq_ok, Method.requireBody_eq_ok] at h
  obtain ⟨body, hb, g, hg, h⟩ := h
  refine ⟨body, g, hb, hg, ?_⟩
  simp only [InstructionGraph.ofBody, bind_eq_ok, pure_eq_ok] at hg
  obtain ⟨steps, -, rfl⟩ := hg
  split at h
  · next hfirst => exact .inl ⟨hfirst, (Except.ok.inj h).symm⟩
  · next first hfirst =>
    obtain ⟨node, hnode, h⟩ := bind_eq_ok.mp h
    exact .inr ⟨first, node, hfirst, hnode, h⟩

/-- **The graph of a method has the edges of its control flow**, and no other nodes than their
ends. -/
theorem ofMethod_edges (hbody : m.body = some body) (hnumbered : body.Numbered) {first : Location}
    (hfirst : body.resolve (.start 0) = some first) (h : ofMethod m = .ok c) :
    c.Valid ∧ c.Spanned ∧ ∀ a b, c.HasEdge a b ↔ Flows m body a b := by
  obtain ⟨_, g, hb, hg, ⟨hnone, -⟩ | ⟨_, node, hsome, hnode, hsteps⟩⟩ := ofMethod_cases h
  all_goals obtain rfl := Option.some.inj (hbody.symm.trans hb)
  · simp [hfirst] at hnone
  obtain rfl := Option.some.inj (hfirst.symm.trans hsome)
  obtain ⟨-, hgsteps⟩ := InstructionGraph.ofBody_eq_ok hnumbered hg
  have hentry := valid_empty.addEdge .entry node
  have hempty : empty.Spanned := by simp [Spanned, Has, empty, Graph.empty]
  have hnone : ∀ a b, ¬ empty.HasEdge a b := by simp [HasEdge, empty, Graph.empty]
  have hgrown := addSteps_grown hentry.valid (hentry.spanned hempty) hsteps
  refine ⟨hgrown.valid, hgrown.spanned, fun a b => ?_⟩
  rw [hgrown.edges, hentry.edges, Flows]
  constructor
  · rintro (⟨⟨l, ls⟩, hmem, hedge⟩ | ⟨rfl, rfl⟩ | hedge)
    · obtain ⟨i, hi, hglue, rfl⟩ := (hgsteps l ls).mp hmem
      exact .inr ⟨l, i, hi, hglue, hedge⟩
    · exact .inl ⟨rfl, first, hfirst, hnode⟩
    · exact absurd hedge (hnone a b)
  · rintro (⟨rfl, l, hl, hb⟩ | ⟨l, i, hi, hglue, hedge⟩)
    · obtain rfl := Option.some.inj (hfirst.symm.trans hl)
      obtain rfl := Except.ok.inj (hnode.symm.trans hb)
      exact .inr (.inl ⟨rfl, rfl⟩)
    · exact .inl ⟨(l, _), (hgsteps l _).mpr ⟨i, hi, hglue, rfl⟩, hedge⟩

/-- A body without a first instruction has an edge from the entry to the exit. -/
theorem ofMethod_empty (hbody : m.body = some body) (hfirst : body.resolve (.start 0) = none)
    (h : ofMethod m = .ok c) : c = empty.addEdge .entry .exit := by
  obtain ⟨_, g, hb, -, ⟨-, rfl⟩ | ⟨_, node, hsome, -, -⟩⟩ := ofMethod_cases h
  · rfl
  · obtain rfl := Option.some.inj (hbody.symm.trans hb)
    simp [hfirst] at hsome

/-- Every node of the graph is an end of an edge, and every edge leads from the entry or an
instruction to the exit or an instruction. -/
theorem ofMethod_ends (hbody : m.body = some body) (h : ofMethod m = .ok c) :
    c.Spanned ∧ ∀ a b, c.HasEdge a b →
      (a = .entry ∨ ∃ l, instructionNode m body l = .ok a) ∧
        (b = .exit ∨ ∃ l, instructionNode m body l = .ok b) := by
  have hempty : empty.Spanned := by simp [Spanned, Has, empty, Graph.empty]
  have hnone : ∀ a b, ¬ empty.HasEdge a b := by simp [HasEdge, empty, Graph.empty]
  obtain ⟨_, g, hb, -, ⟨-, rfl⟩ | ⟨first, node, -, hnode, hsteps⟩⟩ := ofMethod_cases h
  all_goals obtain rfl := Option.some.inj (hbody.symm.trans hb)
  · have hadd := valid_empty.addEdge .entry .exit
    refine ⟨hadd.spanned hempty, fun a b hedge => ?_⟩
    rcases (hadd.edges a b).mp hedge with ⟨rfl, rfl⟩ | hedge
    · exact ⟨.inl rfl, .inl rfl⟩
    · exact absurd hedge (hnone a b)
  · have hadd := valid_empty.addEdge .entry node
    have hgrown := addSteps_grown hadd.valid (hadd.spanned hempty) hsteps
    refine ⟨hgrown.spanned, fun a b hedge => ?_⟩
    rcases (hgrown.edges a b).mp hedge with ⟨step, -, hsource, htarget⟩ | hedge
    · refine ⟨.inr ⟨_, hsource⟩, ?_⟩
      rcases htarget with ⟨l, -, hl, -⟩ | ⟨-, rfl⟩
      · exact .inr ⟨l, hl⟩
      · exact .inl rfl
    · rcases (hadd.edges a b).mp hedge with ⟨rfl, rfl⟩ | hedge
      · exact ⟨.inl rfl, .inr ⟨first, hnode⟩⟩
      · exact absurd hedge (hnone a b)

/-- A node with a location is the instruction there. -/
theorem ofMethod_node (hbody : m.body = some body) (h : ofMethod m = .ok c) (hn : c.Has n)
    {l : Location} (hl : n.location? = some l) : instructionNode m body l = .ok n := by
  have hlocated : (∃ l', instructionNode m body l' = .ok n) →
      instructionNode m body l = .ok n := by
    rintro ⟨l', hl'⟩
    obtain rfl := Option.some.inj ((location?_of_instructionNode hl').symm.trans hl)
    exact hl'
  obtain ⟨hspanned, hends⟩ := ofMethod_ends hbody h
  obtain ⟨o, hedge | hedge⟩ := hspanned n hn
  · rcases (hends _ _ hedge).1 with rfl | hnode
    · cases hl
    · exact hlocated hnode
  · rcases (hends _ _ hedge).2 with rfl | hnode
    · cases hl
    · exact hlocated hnode

end Cfg

end PlayerPaths
