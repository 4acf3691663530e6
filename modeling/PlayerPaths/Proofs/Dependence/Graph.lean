import PlayerPaths.Dependence.Graph
import PlayerPaths.Proofs.Graph.Labels

/-!
# What a dependence graph records

A dependence graph that is built up from nothing records, between any two nodes, the kinds of
dependence that were added between them and no others. Every edge lists a kind, so the edges into a
node come from what it was said to depend on (`mem_incoming_addEdges`).
-/

namespace PlayerPaths

open Std

instance : LawfulEqCmp DependenceKind.order where
  compare_self {a} := by cases a <;> rfl
  eq_of_compare {a b} h := by cases a <;> cases b <;> first | rfl | cases h

/-- A new label of an edge changes nothing about who is joined. -/
theorem Graph.Labelled.relabel {V E : Type} {g : Graph V E} (h : g.Labelled) {e : Nat × Nat}
    (he : e ∈ g.edges) (label : E) : Labelled { g with edges := g.edges.insert e label } := by
  have hmem : ∀ e', e' ∈ g.edges.insert e label ↔ e' ∈ g.edges := by
    intro e'
    rw [TreeMap.mem_insert, edgeOrder_eq_iff]
    constructor
    · rintro (rfl | he')
      · exact he
      · exact he'
    · exact .inr
  obtain ⟨⟨⟨hs, hp, hsuccessors, hpredecessors, hhead, htail⟩, hsi, hpi⟩, hnumbered, hdistinct⟩ := h
  refine ⟨⟨⟨hs, hp, ?_, ?_, ?_, ?_⟩, hsi, hpi⟩, hnumbered, hdistinct⟩
  · intro i j
    rw [hmem]
    exact hsuccessors i j
  · intro i j
    rw [hmem]
    exact hpredecessors i j
  · intro i j hij
    exact hhead i j ((hmem _).mp hij)
  · intro i j hij
    exact htail i j ((hmem _).mp hij)

namespace DependenceGraph

variable {g : DependenceGraph} {a b x y n : DependenceNode} {kind k : DependenceKind}

/-- The graph is well formed, and its nodes are numbered one after another, each once. -/
abbrev Valid (g : DependenceGraph) : Prop := g.graph.Labelled

theorem valid_empty : empty.Valid := Graph.labelled_empty

theorem Valid.index?_eq_some (h : g.Valid) {i : Nat} :
    g.index? n = some i ↔ g.graph.vertices[i]? = some n :=
  h.find?_eq_some

theorem Valid.addNode (h : g.Valid) (n : DependenceNode) :
    g.graph.Given n (g.addNode n).1 (g.addNode n).2.graph := by
  unfold DependenceGraph.addNode
  cases hindex : g.index? n with
  | some i => exact h.given_self (h.index?_eq_some.mp hindex)
  | none =>
      refine h.given_addVertex fun i hi => ?_
      rw [h.index?_eq_some.mpr hi] at hindex
      cases hindex

/-- The label of an edge lists a kind. -/
def Lists (g : DependenceGraph) (kind : DependenceKind) (e : Nat × Nat) : Prop :=
  kind ∈ g.graph.edges.getD e []

theorem Lists.mem {e : Nat × Nat} (h : g.Lists kind e) : e ∈ g.graph.edges := by
  by_contra hnot
  rw [Lists, TreeMap.getD_eq_fallback hnot] at h
  exact absurd h List.not_mem_nil

theorem Valid.mem_kinds (h : g.Valid) : kind ∈ g.kinds x y ↔ ∃ i j : Nat,
    g.graph.vertices[i]? = some x ∧ g.graph.vertices[j]? = some y ∧ g.Lists kind (i, j) := by
  unfold kinds
  constructor
  · intro hkind
    split at hkind
    · next i j hi hj =>
      exact ⟨i, j, h.index?_eq_some.mp hi, h.index?_eq_some.mp hj, hkind⟩
    · exact absurd hkind List.not_mem_nil
  · rintro ⟨i, j, hi, hj, hkind⟩
    rw [h.index?_eq_some.mpr hi, h.index?_eq_some.mpr hj]
    exact hkind

/-- Between two vertices, a kind is put to the kinds that are there. -/
theorem valid_join (h : g.Valid) {i j : Nat} (hi : g.graph.vertices[i]? = some a)
    (hj : g.graph.vertices[j]? = some b) (k : DependenceKind) (g' : DependenceGraph)
    (hg' : g' = match g.graph.edges[(i, j)]? with
      | some kinds =>
        ⟨{ g.graph with
            edges := g.graph.edges.insert (i, j) (Sorted.insert DependenceKind.order k kinds) }⟩
      | none => ⟨g.graph.addEdge i j [k]⟩) :
    g'.Valid ∧ g'.graph.vertices = g.graph.vertices ∧
      ∀ kind e, g'.Lists kind e ↔ (e = (i, j) ∧ kind = k) ∨ g.Lists kind e := by
  have hinsert : ∀ kinds, g.graph.edges.getD (i, j) [] = kinds → ∀ kind e,
      kind ∈ (g.graph.edges.insert (i, j) (Sorted.insert DependenceKind.order k kinds)).getD e [] ↔
        (e = (i, j) ∧ kind = k) ∨ g.Lists kind e := by
    intro kinds hkinds kind e
    rw [TreeMap.getD_insert]
    split
    · next heq =>
      obtain rfl := edgeOrder_eq_iff.mp heq
      rw [Sorted.mem_insert, Lists, hkinds]
      simp
    · next hne =>
      have hne : e ≠ (i, j) := fun heq => hne (edgeOrder_eq_iff.mpr heq.symm)
      simp [hne, Lists]
  cases hedge : g.graph.edges[(i, j)]? with
  | some kinds =>
      rw [hedge] at hg'
      subst hg'
      refine ⟨h.relabel (mem_iff_exists_getElem?.mpr ⟨kinds, hedge⟩) _, rfl, hinsert kinds ?_⟩
      rw [TreeMap.getD_eq_getD_getElem?, hedge]
      rfl
  | none =>
      rw [hedge] at hg'
      subst hg'
      refine ⟨⟨h.wellFormed.addEdge ?_ ?_ _, h.numbered, h.distinct⟩, rfl, hinsert [] ?_⟩
      · exact mem_iff_exists_getElem?.mpr ⟨a, hi⟩
      · exact mem_iff_exists_getElem?.mpr ⟨b, hj⟩
      · rw [TreeMap.getD_eq_getD_getElem?, hedge]
        rfl

theorem Valid.addEdge (h : g.Valid) (a b : DependenceNode) (k : DependenceKind) :
    (g.addEdge a b k).Valid ∧
      ∀ x y kind, kind ∈ (g.addEdge a b k).kinds x y ↔
        (x, y, kind) = (a, b, k) ∨ kind ∈ g.kinds x y := by
  have hsource := h.addNode a
  have hmiddle : (g.addNode a).2.Valid := hsource.labelled
  have htarget := hmiddle.addNode b
  have hboth : ((g.addNode a).2.addNode b).2.Valid := htarget.labelled
  obtain ⟨hvalid, hvertices, hlists⟩ := valid_join hboth (htarget.keeps hsource.index)
    htarget.index k (g.addEdge a b k) rfl
  refine ⟨hvalid, fun x y kind => ?_⟩
  have hold : kind ∈ ((g.addNode a).2.addNode b).2.kinds x y ↔ kind ∈ g.kinds x y := by
    have hsame : ∀ e, ((g.addNode a).2.addNode b).2.Lists kind e ↔ g.Lists kind e := by
      intro e
      rw [Lists, Lists, htarget.edges, hsource.edges]
    have hmid : ∀ e, (g.addNode a).2.Lists kind e ↔ g.Lists kind e := by
      intro e
      rw [Lists, Lists, hsource.edges]
    rw [hboth.mem_kinds, h.mem_kinds]
    simp only [hsame]
    rw [htarget.edge_iff hmiddle fun e he => Lists.mem ((hmid e).mpr he)]
    exact hsource.edge_iff h fun e he => Lists.mem he
  rw [← hold, hvalid.mem_kinds, hboth.mem_kinds, hvertices]
  simp only [hlists]
  constructor
  · rintro ⟨i, j, hi, hj, ⟨heq, rfl⟩ | hlisted⟩
    · obtain ⟨rfl, rfl⟩ := Prod.mk.inj heq
      obtain rfl := Option.some.inj ((htarget.keeps hsource.index).symm.trans hi)
      obtain rfl := Option.some.inj (htarget.index.symm.trans hj)
      exact .inl rfl
    · exact .inr ⟨i, j, hi, hj, hlisted⟩
  · rintro (heq | ⟨i, j, hi, hj, hlisted⟩)
    · obtain ⟨rfl, rfl, rfl⟩ : x = a ∧ y = b ∧ kind = k := by simpa using heq
      exact ⟨_, _, htarget.keeps hsource.index, htarget.index, .inl ⟨rfl, rfl⟩⟩
    · exact ⟨i, j, hi, hj, .inr hlisted⟩

/-- **The graph records what was added**, and what it had. -/
theorem Valid.addEdges (h : g.Valid)
    (edges : List (DependenceNode × DependenceNode × DependenceKind)) :
    (g.addEdges edges).Valid ∧
      ∀ x y kind, kind ∈ (g.addEdges edges).kinds x y ↔
        (x, y, kind) ∈ edges ∨ kind ∈ g.kinds x y := by
  induction edges generalizing g with
  | nil => exact ⟨h, by simp [DependenceGraph.addEdges]⟩
  | cons edge edges ih =>
      obtain ⟨a, b, k⟩ := edge
      obtain ⟨hvalid, hkinds⟩ := h.addEdge a b k
      obtain ⟨hvalid', hkinds'⟩ := ih hvalid
      refine ⟨hvalid', fun x y kind => ?_⟩
      rw [List.mem_cons, or_assoc, or_left_comm, ← hkinds]
      exact hkinds' x y kind

theorem kinds_empty : empty.kinds x y = [] := rfl

/-! ## Edges into a node -/

theorem mem_nodes : n ∈ g.nodes ↔ ∃ i : Nat, g.graph.vertices[i]? = some n := by
  rw [nodes, mem_values]

theorem Valid.mem_incoming (h : g.Valid) : a ∈ g.incoming b ↔ ∃ i j : Nat,
    g.graph.vertices[i]? = some a ∧ g.graph.vertices[j]? = some b ∧ (i, j) ∈ g.graph.edges := by
  simp only [incoming, List.mem_filterMap]
  constructor
  · rintro ⟨i, hi, ha⟩
    cases hindex : g.index? b with
    | none =>
        rw [hindex] at hi
        exact absurd hi List.not_mem_nil
    | some j =>
        rw [hindex] at hi
        exact ⟨i, j, ha, h.index?_eq_some.mp hindex, (h.wellFormed.predecessors_iff i j).mp hi⟩
  · rintro ⟨i, j, ha, hb, hedge⟩
    refine ⟨i, ?_, ha⟩
    rw [h.index?_eq_some.mpr hb]
    exact (h.wellFormed.predecessors_iff i j).mpr hedge

/-- Every edge lists some kind. -/
def Reasoned (g : DependenceGraph) : Prop := ∀ e ∈ g.graph.edges, ∃ kind, g.Lists kind e

theorem reasoned_empty : empty.Reasoned := fun _ he => absurd he TreeMap.not_mem_emptyc

theorem Reasoned.addEdge (h : g.Reasoned) (hg : g.Valid) (a b : DependenceNode)
    (k : DependenceKind) : (g.addEdge a b k).Reasoned := by
  have hsource := hg.addNode a
  have htarget := Valid.addNode (g := (g.addNode a).2) hsource.labelled b
  have hsame : ((g.addNode a).2.addNode b).2.graph.edges = g.graph.edges :=
    htarget.edges.trans hsource.edges
  obtain ⟨-, -, hlists⟩ := valid_join (g := ((g.addNode a).2.addNode b).2) htarget.labelled
    (htarget.keeps hsource.index) htarget.index k (g.addEdge a b k) rfl
  -- The only edge that may be new is the one between the two.
  have hnew : ∀ e ∈ (g.addEdge a b k).graph.edges,
      e = ((g.addNode a).1, ((g.addNode a).2.addNode b).1) ∨ e ∈ g.graph.edges := by
    intro e he
    rw [← hsame]
    unfold DependenceGraph.addEdge at he
    dsimp only at he
    split at he
    · exact (TreeMap.mem_insert.mp he).imp_left fun heq => (edgeOrder_eq_iff.mp heq).symm
    · exact (Graph.mem_edges_addEdge.mp he).imp_left fun heq => Prod.ext heq.1.symm heq.2.symm
  intro e he
  rcases hnew e he with rfl | hold
  · exact ⟨k, (hlists k _).mpr (.inl ⟨rfl, rfl⟩)⟩
  · obtain ⟨kind, hkind⟩ := h e hold
    refine ⟨kind, (hlists kind e).mpr (.inr ?_)⟩
    rwa [Lists, hsame]

theorem Reasoned.addEdges (h : g.Reasoned) (hg : g.Valid)
    (edges : List (DependenceNode × DependenceNode × DependenceKind)) :
    (g.addEdges edges).Reasoned := by
  induction edges generalizing g with
  | nil => exact h
  | cons edge edges ih =>
      obtain ⟨a, b, k⟩ := edge
      exact ih (h.addEdge hg a b k) (hg.addEdge a b k).1

/-- **What a node depends on directly** is what it was said to depend on. -/
theorem mem_incoming_addEdges {edges : List (DependenceNode × DependenceNode × DependenceKind)} :
    a ∈ (empty.addEdges edges).incoming b ↔ ∃ kind, (a, b, kind) ∈ edges := by
  obtain ⟨hvalid, hkinds⟩ := valid_empty.addEdges edges
  have hrecorded : ∀ kind, kind ∈ (empty.addEdges edges).kinds a b ↔ (a, b, kind) ∈ edges := by
    intro kind
    rw [hkinds, kinds_empty]
    exact or_iff_left List.not_mem_nil
  simp only [hvalid.mem_incoming, ← hrecorded, hvalid.mem_kinds]
  constructor
  · rintro ⟨i, j, ha, hb, hedge⟩
    obtain ⟨kind, hkind⟩ := reasoned_empty.addEdges valid_empty edges _ hedge
    exact ⟨kind, i, j, ha, hb, hkind⟩
  · rintro ⟨kind, i, j, ha, hb, hkind⟩
    exact ⟨i, j, ha, hb, hkind.mem⟩

end DependenceGraph

end PlayerPaths
