import PlayerPaths.Proofs.Flow.Cfg
import PlayerPaths.Proofs.Graph.Traversal

/-!
# Paths of a control flow graph

A path is known by the list of the nodes on it, both ends included. It may be cut at any node on it,
in particular where it first and where it last meets one of several. The graphs that can be built
are those that come from nothing by adding edges and turning all of them around; there, the
pre-order of a root lists what paths from the root lead to. In the graph of a method, paths begin at
the entry at the earliest and end in the exit at the latest (`GraphOf`).
-/

namespace PlayerPaths

open IL Std Relation

namespace Cfg

variable {c c' : Cfg} {a b d n x : FlowNode} {ns ms : List FlowNode}

/-! ## Paths -/

/-- The nodes on a way along the edges, both ends included. A path may meet a node more than
once. -/
inductive Path (c : Cfg) : FlowNode → List FlowNode → FlowNode → Prop where
  | here {a : FlowNode} (node : c.Has a) : Path c a [a] a
  | step {a b d : FlowNode} {ns : List FlowNode} (edge : c.HasEdge a b) (rest : Path c b ns d) :
      Path c a (a :: ns) d

def Reaches (c : Cfg) (a b : FlowNode) : Prop := ∃ ns, c.Path a ns b

namespace Path

theorem source (h : c.Path a ns b) : c.Has a := by
  cases h with
  | here node => exact node
  | step edge _ => exact edge.source

theorem target (h : c.Path a ns b) : c.Has b := by
  induction h with
  | here node => exact node
  | step _ _ ih => exact ih

theorem exists_tail (h : c.Path a ns b) : ∃ ms, ns = a :: ms := by
  cases h with
  | here => exact ⟨[], rfl⟩
  | step => exact ⟨_, rfl⟩

theorem source_mem (h : c.Path a ns b) : a ∈ ns := by
  obtain ⟨ms, rfl⟩ := h.exists_tail
  exact List.mem_cons_self

theorem target_mem (h : c.Path a ns b) : b ∈ ns := by
  induction h with
  | here => exact List.mem_singleton_self _
  | step _ _ ih => exact List.mem_cons_of_mem _ ih

theorem append (h : c.Path a ns b) (h' : c.Path b (b :: ms) d) : c.Path a (ns ++ ms) d := by
  induction h with
  | here => exact h'
  | step edge _ ih => exact .step edge (ih h')

theorem snoc (h : c.Path a ns b) (edge : c.HasEdge b d) : c.Path a (ns ++ [d]) d :=
  h.append (.step edge (.here edge.target))

/-- A path may be cut where it first meets one of several nodes. -/
theorem first_visit {p : FlowNode → Prop} (h : c.Path a ns b) (hp : ∃ x ∈ ns, p x) :
    ∃ y before after, p y ∧ ns = before ++ y :: after ∧ c.Path a (before ++ [y]) y ∧
      ∀ z ∈ before, ¬ p z := by
  induction h with
  | @here a node =>
      obtain ⟨x, hx, hpx⟩ := hp
      obtain rfl := List.mem_singleton.mp hx
      exact ⟨x, [], [], hpx, rfl, .here node, by simp⟩
  | @step a b d ns edge rest ih =>
      by_cases ha : p a
      · exact ⟨a, [], ns, ha, rfl, .here edge.source, by simp⟩
      · obtain ⟨x, hx, hpx⟩ := hp
        have hns : ∃ x ∈ ns, p x := by
          rcases List.mem_cons.mp hx with rfl | hx
          · exact absurd hpx ha
          · exact ⟨x, hx, hpx⟩
        obtain ⟨y, before, after, hpy, rfl, hto, hnone⟩ := ih hns
        exact ⟨y, a :: before, after, hpy, rfl, .step edge hto, List.forall_mem_cons.mpr ⟨ha, hnone⟩⟩

/-- A path may be cut where it last meets one of several nodes. -/
theorem last_visit {p : FlowNode → Prop} (h : c.Path a ns b) (hp : ∃ x ∈ ns, p x) :
    ∃ y after, p y ∧ c.Path y (y :: after) b ∧ ∀ z ∈ after, ¬ p z := by
  induction h with
  | @here a node =>
      obtain ⟨x, hx, hpx⟩ := hp
      obtain rfl := List.mem_singleton.mp hx
      exact ⟨x, [], hpx, .here node, by simp⟩
  | @step a b d ns edge rest ih =>
      by_cases hrest : ∃ x ∈ ns, p x
      · exact ih hrest
      · obtain ⟨x, hx, hpx⟩ := hp
        have hns : ∀ z ∈ ns, ¬ p z := fun z hz hpz => hrest ⟨z, hz, hpz⟩
        rcases List.mem_cons.mp hx with rfl | hx
        · exact ⟨x, ns, hpx, .step edge rest, hns⟩
        · exact absurd hpx (hns x hx)

/-- A path does not leave what no edge leaves. -/
theorem stays {p : FlowNode → Prop} (h : c.Path a ns b) (hp : p a)
    (hedge : ∀ x y, c.HasEdge x y → p x → p y) : p b := by
  induction h with
  | here => exact hp
  | step edge _ ih => exact ih (hedge _ _ edge hp)

/-- Between graphs, a path goes along with its edges. -/
theorem map_edges (h : c.Path a ns b) (hnode : c'.Has b)
    (hedge : ∀ x ∈ ns, ∀ y ∈ ns, c.HasEdge x y → c'.HasEdge x y) : c'.Path a ns b := by
  induction h with
  | here => exact .here hnode
  | step edge rest ih =>
      refine .step ?_ (ih hnode ?_)
      · exact hedge _ List.mem_cons_self _ (List.mem_cons_of_mem _ rest.source_mem) edge
      · intro x hx y hy
        exact hedge x (List.mem_cons_of_mem _ hx) y (List.mem_cons_of_mem _ hy)

end Path

namespace Reaches

theorem source (h : c.Reaches a b) : c.Has a := by
  obtain ⟨ns, h⟩ := h
  exact h.source

theorem refl (h : c.Has a) : c.Reaches a a := ⟨[a], .here h⟩

theorem tail (h : c.Reaches a b) (edge : c.HasEdge b d) : c.Reaches a d := by
  obtain ⟨ns, h⟩ := h
  exact ⟨ns ++ [d], h.snoc edge⟩

/-- What is reached, and is not the start, has a predecessor that is reached. -/
theorem exists_predecessor (h : c.Reaches a b) (hne : b ≠ a) :
    ∃ p, c.Reaches a p ∧ c.HasEdge p b := by
  obtain ⟨ns, h⟩ := h
  induction h with
  | here => exact absurd rfl hne
  | @step a b d ns edge rest ih =>
      by_cases heq : d = b
      · subst heq
        exact ⟨a, .refl edge.source, edge⟩
      · obtain ⟨p, ⟨ms, hp⟩, hedge⟩ := ih heq
        exact ⟨p, ⟨a :: ms, .step edge hp⟩, hedge⟩

end Reaches

/-! ## Turning edges around -/

theorem has_reverse : c.reverse.Has n ↔ c.Has n := Iff.rfl

theorem hasEdge_reverse : c.reverse.HasEdge a b ↔ c.HasEdge b a := by
  constructor
  · rintro ⟨i, j, hi, hj, hedge⟩
    exact ⟨j, i, hj, hi, Graph.mem_edges_reverse.mp hedge⟩
  · rintro ⟨i, j, hi, hj, hedge⟩
    exact ⟨j, i, hj, hi, Graph.mem_edges_reverse.mpr hedge⟩

theorem Valid.reverse (h : c.Valid) : c.reverse.Valid where
  wellFormed := h.wellFormed.reverse
  numbered := h.numbered
  distinct := h.distinct

theorem Path.reverse (h : c.Path a ns b) : c.reverse.Path b ns.reverse a := by
  induction h with
  | here node => exact .here node
  | step edge _ ih =>
      rw [List.reverse_cons]
      exact ih.snoc (hasEdge_reverse.mpr edge)

/-- Paths against the edges are paths along them, back to front. -/
theorem path_reverse_iff : c.reverse.Path b ns a ↔ c.Path a ns.reverse b := by
  constructor
  · intro h
    refine h.reverse.map_edges h.source ?_
    intro x _ y _ hedge
    exact hasEdge_reverse.mp (hasEdge_reverse.mp hedge)
  · intro h
    rw [← List.reverse_reverse ns]
    exact h.reverse

/-! ## Graphs that can be built -/

/-- The graphs that come from nothing by adding edges and turning all of them around. -/
inductive Built : Cfg → Prop where
  | empty : Built empty
  | addEdge {c : Cfg} (h : Built c) (a b : FlowNode) : Built (c.addEdge a b)
  | reverse {c : Cfg} (h : Built c) : Built c.reverse

theorem Built.valid (h : c.Built) : c.Valid := by
  induction h with
  | empty => exact valid_empty
  | addEdge _ a b ih => exact (ih.addEdge a b).valid
  | reverse _ ih => exact ih.reverse

theorem Built.addEdges (h : c.Built) (a : FlowNode) (bs : List FlowNode) :
    (bs.foldl (fun c b => c.addEdge a b) c).Built := by
  induction bs generalizing c with
  | nil => exact h
  | cons b bs ih => exact ih (h.addEdge a b)

theorem addStep_built {m : Method} {body : Body} {step : Location × List Location} (h : c.Built)
    (hstep : addStep m body c step = .ok c') : c'.Built := by
  simp only [addStep, bind_eq_ok, pure_eq_ok] at hstep
  obtain ⟨source, -, targets, -, rfl⟩ := hstep
  split
  · exact (h.addEdges _ _).addEdge _ _
  · exact h.addEdges _ _

/-- The graph of a method can be built. -/
theorem ofMethod_built {m : Method} (h : ofMethod m = .ok c) : c.Built := by
  obtain ⟨body, g, -, -, ⟨-, rfl⟩ | ⟨first, node, -, -, h⟩⟩ := ofMethod_cases h
  · exact .addEdge .empty _ _
  · refine foldlM_induction (f := addStep m body) ?_ (Built.addEdge .empty .entry node) h
    intro c step _ hc c' hstep
    exact addStep_built hc hstep

/-! ## What the graph lists -/

theorem mem_nodesAt {indices : List Nat} :
    a ∈ c.nodesAt indices ↔ ∃ i ∈ indices, c.graph.vertices[i]? = some a := by
  rw [nodesAt, List.mem_filterMap]

theorem Valid.mem_predecessors (h : c.Valid) : a ∈ c.predecessors b ↔ c.HasEdge a b := by
  unfold predecessors
  rw [mem_nodesAt]
  constructor
  · rintro ⟨i, hi, ha⟩
    cases hindex : c.index? b with
    | none =>
        rw [hindex] at hi
        exact absurd hi List.not_mem_nil
    | some j =>
        rw [hindex] at hi
        exact ⟨i, j, ha, h.index?_eq_some.mp hindex, (h.wellFormed.predecessors_iff i j).mp hi⟩
  · rintro ⟨i, j, hi, hj, hedge⟩
    refine ⟨i, ?_, hi⟩
    rw [h.index?_eq_some.mpr hj]
    exact (h.wellFormed.predecessors_iff i j).mpr hedge

theorem mem_edges : (a, b) ∈ c.edges ↔ c.HasEdge a b := by
  unfold edges
  rw [List.mem_filterMap]
  constructor
  · rintro ⟨⟨i, j, label⟩, hmem, h⟩
    obtain ⟨entry, hentry, heq⟩ := List.mem_map.mp hmem
    obtain ⟨⟨i', j'⟩, label'⟩ := entry
    obtain ⟨rfl, rfl, -⟩ : i' = i ∧ j' = j ∧ label' = label := by simpa using heq
    simp only [Option.bind_eq_bind, Option.bind_eq_some_iff, Option.pure_def, Option.some.injEq,
      Prod.mk.injEq] at h
    obtain ⟨x, hx, y, hy, rfl, rfl⟩ := h
    have hedge := TreeMap.mem_toList_iff_getElem?_eq_some.mp hentry
    exact ⟨i', j', hx, hy, mem_iff_exists_getElem?.mpr ⟨_, hedge⟩⟩
  · rintro ⟨i, j, hi, hj, hedge⟩
    obtain ⟨label, hlabel⟩ := mem_iff_exists_getElem?.mp hedge
    refine ⟨(i, j, label), List.mem_map.mpr ⟨((i, j), label), ?_, rfl⟩, ?_⟩
    · exact TreeMap.mem_toList_iff_getElem?_eq_some.mpr hlabel
    · simp [hi, hj]

/-- The heads are the nodes that no edge enters. -/
theorem Valid.mem_heads (h : c.Valid) :
    n ∈ c.graph.heads.map Prod.snd ↔ c.Has n ∧ ∀ a, ¬ c.HasEdge a n := by
  rw [List.mem_map]
  constructor
  · rintro ⟨⟨j, n⟩, hmem, rfl⟩
    obtain ⟨hj, hempty⟩ := List.mem_filter.mp hmem
    have hj := TreeMap.mem_toList_iff_getElem?_eq_some.mp hj
    refine ⟨⟨j, hj⟩, ?_⟩
    rintro a ⟨i, j', -, hj', hedge⟩
    obtain rfl := h.distinct hj hj'
    have hpredecessor := (h.wellFormed.predecessors_iff i j).mpr hedge
    rw [List.isEmpty_iff.mp hempty] at hpredecessor
    exact absurd hpredecessor List.not_mem_nil
  · rintro ⟨⟨j, hj⟩, hnone⟩
    refine ⟨(j, n), List.mem_filter.mpr ⟨TreeMap.mem_toList_iff_getElem?_eq_some.mpr hj, ?_⟩, rfl⟩
    rw [List.isEmpty_iff, List.eq_nil_iff_forall_not_mem]
    intro i hi
    have hedge := (h.wellFormed.predecessors_iff i j).mp hi
    obtain ⟨a, -, ha, -⟩ := h.wellFormed.exists_labels hedge
    exact hnone a ⟨i, j, ha, hj, hedge⟩

/-- The only sentinel that no edge enters is the head. -/
theorem Valid.head_eq_ok (h : c.Valid) (hn : c.Has n) (hsentinel : n.isSentinel = true)
    (hfirst : ∀ a, ¬ c.HasEdge a n)
    (honly : ∀ k, k.isSentinel = true → c.Has k → (∀ a, ¬ c.HasEdge a k) → k = n) :
    c.head = .ok n := by
  have hfind : (c.graph.heads.map Prod.snd).find? FlowNode.isSentinel = some n := by
    cases hfind : (c.graph.heads.map Prod.snd).find? FlowNode.isSentinel with
    | none =>
        have hnone := List.find?_eq_none.mp hfind n (h.mem_heads.mpr ⟨hn, hfirst⟩)
        exact absurd hsentinel hnone
    | some k =>
        obtain ⟨hk, hentered⟩ := h.mem_heads.mp (List.mem_of_find?_eq_some hfind)
        rw [honly k (List.find?_some hfind) hk hentered]
  unfold head
  dsimp only
  rw [hfind]
  rfl

/-- Chains of neighbours are paths. -/
theorem Valid.reaches_iff (h : c.Valid) {i : Nat} (hi : c.graph.vertices[i]? = some a) :
    c.Reaches a b ↔ ∃ j, ReflTransGen (fun i j => j ∈ Graph.neighbours c.graph.successorsOf i) i j ∧
      c.graph.vertices[j]? = some b := by
  constructor
  · rintro ⟨ns, hpath⟩
    induction hpath generalizing i with
    | here => exact ⟨i, .refl, hi⟩
    | step edge _ ih =>
        obtain ⟨k, l, hk, hl, hedge⟩ := edge
        obtain rfl := h.distinct hi hk
        obtain ⟨j, hreach, hj⟩ := ih hl
        exact ⟨j, .head ((h.wellFormed.successors_iff i l).mpr hedge) hreach, hj⟩
  · rintro ⟨j, hreach, hj⟩
    induction hreach generalizing b with
    | refl =>
        obtain rfl := Option.some.inj (hi.symm.trans hj)
        exact .refl ⟨i, hi⟩
    | @tail j k _ hstep ih =>
        have hedge := (h.wellFormed.successors_iff j k).mp hstep
        obtain ⟨d, hd⟩ := mem_iff_exists_getElem?.mp (h.wellFormed.head_mem j k hedge)
        exact (ih hd).tail ⟨j, k, hd, hj, hedge⟩

/-- The nodes that a root reaches, each once and the root first. -/
structure Listing (c : Cfg) (root : FlowNode) (nodes : List FlowNode) : Prop where
  first : nodes.head? = some root
  nodup : nodes.Nodup
  reached : ∀ n, n ∈ nodes ↔ c.Reaches root n

/-- **The pre-order of a root lists what the root reaches.** -/
theorem Valid.preOrder_eq_ok (h : c.Valid) {root : FlowNode} (hroot : c.Has root) :
    ∃ nodes, c.preOrder root = .ok nodes ∧ c.Listing root nodes := by
  obtain ⟨i, hi⟩ := hroot
  have hkey : i ∈ c.graph.vertices.keys :=
    TreeMap.mem_keys.mpr (mem_iff_exists_getElem?.mpr ⟨root, hi⟩)
  let next := Graph.neighbours c.graph.successorsOf
  have horder : c.preOrder root =
      .ok (c.nodesAt (depthFirst id next c.graph.vertices.keys [i])) := by
    have hvertex : c.graph.hasVertex i = true :=
      TreeMap.contains_iff_mem.mpr (TreeMap.mem_keys.mp hkey)
    simp only [preOrder, h.index?_eq_some.mpr hi, Graph.preOrder, hvertex, if_true]
    rfl
  have hmem : ∀ n, n ∈ c.nodesAt (depthFirst id next c.graph.vertices.keys [i]) ↔
      c.Reaches root n := by
    intro n
    rw [mem_nodesAt, h.reaches_iff hi]
    apply exists_congr
    intro j
    rw [mem_depthFirst_iff hkey]
    intro j _ k hk
    exact TreeMap.mem_keys.mpr (h.wellFormed.tail_mem j k ((h.wellFormed.successors_iff j k).mp hk))
  have hnodup : (c.nodesAt (depthFirst id next c.graph.vertices.keys [i])).Nodup := by
    have hindices := (depthFirst_nodup id next (TreeMap.nodup_keys (t := c.graph.vertices)) [i]).1
    rw [List.map_id] at hindices
    exact hindices.filterMap fun j k n hj hk => h.distinct hj hk
  refine ⟨_, horder, ?_, hnodup, hmem⟩
  rw [depthFirst_cons, if_pos (show id i ∈ _ from hkey), nodesAt, List.filterMap_cons_some hi]
  rfl

/-! ## Graphs of methods -/

section

variable {m : Method} {body : Body}

def NodeOf (m : Method) (n : FlowNode) : Prop :=
  n = .entry ∨ n = .exit ∨ ∃ node, n = .instruction node ∧ node.method = m.signature

/-- What the graph of a method is like: it has nodes of the method only, the entry leads somewhere,
and the exit leads nowhere. -/
structure GraphOf (m : Method) (c : Cfg) : Prop where
  valid : c.Valid
  nodes : ∀ n, c.Has n → NodeOf m n
  entry_leads : ∃ n, c.HasEdge .entry n
  exit_last : ∀ n, ¬ c.HasEdge .exit n

theorem nodeOf_instructionNode {l : Location} (h : instructionNode m body l = .ok n) :
    NodeOf m n ∧ n ≠ .exit := by
  obtain ⟨i, -, rfl⟩ := instructionNode_eq_ok.mp h
  refine ⟨.inr (.inr ⟨_, rfl, rfl⟩), ?_⟩
  rintro ⟨⟩

theorem graphOf_start (hn : NodeOf m n) : GraphOf m (empty.addEdge .entry n) := by
  obtain ⟨hvalid, hnodes, hedges⟩ := valid_empty.addEdge .entry n
  have hempty : ∀ a, ¬ empty.Has a := by simp [Has, empty, Graph.empty]
  refine ⟨hvalid, ?_, ⟨n, (hedges _ _).mpr (.inl ⟨rfl, rfl⟩)⟩, ?_⟩
  · intro a ha
    rcases (hnodes a).mp ha with (rfl | rfl) | ha
    · exact .inl rfl
    · exact hn
    · exact absurd ha (hempty a)
  · intro b hb
    rcases (hedges _ _).mp hb with ⟨hexit, -⟩ | hb
    · cases hexit
    · exact hempty _ hb.source

theorem GraphOf.addEdges (h : GraphOf m c) (ha : NodeOf m a) (hne : a ≠ .exit)
    (bs : List FlowNode) (hbs : ∀ b ∈ bs, NodeOf m b) :
    GraphOf m (bs.foldl (fun c b => c.addEdge a b) c) := by
  obtain ⟨hvalid, hnodes, hedges⟩ := h.valid.addEdges a bs
  refine ⟨hvalid, ?_, ?_, ?_⟩
  · intro n hn
    rcases (hnodes n).mp hn with ⟨rfl, -⟩ | hn | hn
    · exact ha
    · exact hbs n hn
    · exact h.nodes n hn
  · obtain ⟨n, hn⟩ := h.entry_leads
    exact ⟨n, (hedges _ _).mpr (.inr hn)⟩
  · intro n hn
    rcases (hedges _ _).mp hn with ⟨hexit, -⟩ | hn
    · exact hne hexit.symm
    · exact h.exit_last n hn

theorem GraphOf.addStep (h : GraphOf m c) {step : Location × List Location}
    (hstep : Cfg.addStep m body c step = .ok c') : GraphOf m c' := by
  simp only [Cfg.addStep, bind_eq_ok, pure_eq_ok] at hstep
  obtain ⟨source, hsource, targets, htargets, rfl⟩ := hstep
  obtain ⟨hnode, hne⟩ := nodeOf_instructionNode hsource
  have hadded := h.addEdges hnode hne (targets.filter (· ≠ source)) (by
    intro b hb
    obtain ⟨l, -, hl⟩ := mem_of_mapM_eq_ok htargets (List.mem_filter.mp hb).1
    exact (nodeOf_instructionNode hl).1)
  split
  · exact hadded.addEdges hnode hne [.exit] (by
      intro b hb
      exact .inr (.inl (List.mem_singleton.mp hb)))
  · exact hadded

theorem ofMethod_graphOf (h : ofMethod m = .ok c) : GraphOf m c := by
  obtain ⟨body, g, -, -, ⟨-, rfl⟩ | ⟨first, node, -, hnode, h⟩⟩ := ofMethod_cases h
  · exact graphOf_start (.inr (.inl rfl))
  · refine foldlM_induction (f := Cfg.addStep m body) ?_
      (graphOf_start (nodeOf_instructionNode hnode).1) h
    intro c step _ hc c' hstep
    exact hc.addStep hstep

/-- The head of the graph of a method is the entry. -/
theorem ofMethod_head (hbody : m.body = some body) (h : ofMethod m = .ok c) :
    c.head = .ok .entry := by
  have hof := ofMethod_graphOf h
  obtain ⟨hspanned, hends⟩ := ofMethod_ends hbody h
  obtain ⟨first, hfirst⟩ := hof.entry_leads
  refine hof.valid.head_eq_ok hfirst.source rfl ?_ ?_
  · intro a ha
    rcases (hends _ _ ha).2 with heq | ⟨l, hl⟩
    · cases heq
    · cases location?_of_instructionNode hl
  · -- The exit is the end of an edge, and no edge leaves it.
    intro k hsentinel hk hlast
    rcases hof.nodes k hk with rfl | rfl | ⟨node, rfl, -⟩
    · rfl
    · obtain ⟨o, hedge | hedge⟩ := hspanned _ hk
      · exact absurd hedge (hof.exit_last o)
      · exact absurd hedge (hlast o)
    · cases hsentinel

end

end Cfg

end PlayerPaths
