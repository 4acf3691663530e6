import Mathlib.Algebra.BigOperators.Ring.List
import Mathlib.Algebra.Ring.Nat
import Mathlib.Data.List.Nodup
import Mathlib.Data.List.Perm.Subperm
import PlayerPaths.Graph.Basic
import PlayerPaths.Proofs.Collections

/-!
# Graphs stay consistent

Adding a new vertex, or an edge between vertices of the graph, and turning all edges around keep the
edges and the two neighbour maps in agreement, and the neighbours in order.
-/

namespace PlayerPaths

open Std

theorem edgeOrder_eq_iff {a b : Nat × Nat} : edgeOrder a b = .eq ↔ a = b := by
  simp [edgeOrder, compareLex, compareOn, Ordering.then_eq_eq, Prod.ext_iff]

instance : LawfulEqCmp edgeOrder where
  compare_self := edgeOrder_eq_iff.mpr rfl
  eq_of_compare := edgeOrder_eq_iff.mp

namespace Graph

variable {V E : Type} {g : Graph V E}

theorem neighbours_insert {map : TreeMap Nat (List Nat)} {i j : Nat} {ns : List Nat} :
    neighbours (map.insert i ns) j = if i = j then ns else neighbours map j := by
  simp [neighbours, TreeMap.getD_insert]

theorem neighbours_eq_nil {map : TreeMap Nat (List Nat)} {i : Nat} (h : i ∉ map) :
    neighbours map i = [] :=
  TreeMap.getD_eq_fallback h

/-- A consistent graph whose neighbours are listed in order, each once. -/
structure WellFormed (g : Graph V E) : Prop extends g.Consistent where
  successors_increasing : ∀ i, Sorted.Increasing compare (neighbours g.successorsOf i)
  predecessors_increasing : ∀ i, Sorted.Increasing compare (neighbours g.predecessorsOf i)

theorem wellFormed_empty : (empty : Graph V E).WellFormed where
  successors_keys := by simp [empty]
  predecessors_keys := by simp [empty]
  successors_iff := by simp [empty, neighbours]
  predecessors_iff := by simp [empty, neighbours]
  head_mem := by simp [empty]
  tail_mem := by simp [empty]
  successors_increasing := fun i => by simp [empty, neighbours, Sorted.Increasing]
  predecessors_increasing := fun i => by simp [empty, neighbours, Sorted.Increasing]

theorem WellFormed.addVertex (h : g.WellFormed) {i : Nat} (hi : i ∉ g.vertices) (label : V) :
    (g.addVertex i label).WellFormed := by
  -- The vertex is new, so no neighbours are lost when it starts without any.
  have hsuccessors : ∀ j, neighbours (g.successorsOf.insert i []) j =
      neighbours g.successorsOf j := by
    intro j
    rw [neighbours_insert]
    split
    · next heq => rw [← heq, neighbours_eq_nil (mt (h.successors_keys i).mp hi)]
    · rfl
  have hpredecessors : ∀ j, neighbours (g.predecessorsOf.insert i []) j =
      neighbours g.predecessorsOf j := by
    intro j
    rw [neighbours_insert]
    split
    · next heq => rw [← heq, neighbours_eq_nil (mt (h.predecessors_keys i).mp hi)]
    · rfl
  constructor
  · constructor
    · intro j
      simp [Graph.addVertex, TreeMap.mem_insert, h.successors_keys]
    · intro j
      simp [Graph.addVertex, TreeMap.mem_insert, h.predecessors_keys]
    · intro a b
      show b ∈ neighbours (g.successorsOf.insert i []) a ↔ (a, b) ∈ g.edges
      rw [hsuccessors, h.successors_iff]
    · intro a b
      show a ∈ neighbours (g.predecessorsOf.insert i []) b ↔ (a, b) ∈ g.edges
      rw [hpredecessors, h.predecessors_iff]
    · intro a b hab
      exact TreeMap.mem_insert.mpr (.inr (h.head_mem a b hab))
    · intro a b hab
      exact TreeMap.mem_insert.mpr (.inr (h.tail_mem a b hab))
  · intro j
    simp only [Graph.addVertex, hsuccessors]
    exact h.successors_increasing j
  · intro j
    simp only [Graph.addVertex, hpredecessors]
    exact h.predecessors_increasing j

theorem mem_edges_addEdge {head tail a b : Nat} {label : E} :
    (a, b) ∈ (g.addEdge head tail label).edges ↔ (head = a ∧ tail = b) ∨ (a, b) ∈ g.edges := by
  rw [Graph.addEdge, TreeMap.mem_insert, edgeOrder_eq_iff, Prod.mk.injEq]

theorem WellFormed.addEdge (h : g.WellFormed) {head tail : Nat} (hhead : head ∈ g.vertices)
    (htail : tail ∈ g.vertices) (label : E) : (g.addEdge head tail label).WellFormed := by
  constructor
  · constructor
    · intro j
      simp only [Graph.addEdge, TreeMap.mem_insert, h.successors_keys, Std.compare_eq_iff_eq]
      constructor
      · rintro (rfl | hj)
        · exact hhead
        · exact hj
      · exact .inr
    · intro j
      simp only [Graph.addEdge, TreeMap.mem_insert, h.predecessors_keys, Std.compare_eq_iff_eq]
      constructor
      · rintro (rfl | hj)
        · exact htail
        · exact hj
      · exact .inr
    · intro a b
      rw [mem_edges_addEdge, ← h.successors_iff]
      simp only [Graph.addEdge, neighbours_insert]
      split
      · next heq =>
        subst heq
        simp [Sorted.mem_insert, eq_comm]
      · next hne => simp [hne]
    · intro a b
      rw [mem_edges_addEdge, ← h.predecessors_iff]
      simp only [Graph.addEdge, neighbours_insert]
      split
      · next heq =>
        subst heq
        simp [Sorted.mem_insert, eq_comm]
      · next hne => simp [hne]
    · intro a b hab
      rcases mem_edges_addEdge.mp hab with ⟨rfl, -⟩ | hab
      · exact hhead
      · exact h.head_mem a b hab
    · intro a b hab
      rcases mem_edges_addEdge.mp hab with ⟨-, rfl⟩ | hab
      · exact htail
      · exact h.tail_mem a b hab
  · intro j
    simp only [Graph.addEdge, neighbours_insert]
    split
    · exact (h.successors_increasing head).insert tail
    · exact h.successors_increasing j
  · intro j
    simp only [Graph.addEdge, neighbours_insert]
    split
    · exact (h.predecessors_increasing tail).insert head
    · exact h.predecessors_increasing j

/-- Turning the edges around one after another turns all of them around. -/
theorem mem_foldl_turned {entries : List ((Nat × Nat) × E)} {turned : TreeMap (Nat × Nat) E edgeOrder}
    {a b : Nat} :
    (a, b) ∈ entries.foldl (fun edges entry => edges.insert (entry.1.2, entry.1.1) entry.2) turned ↔
      (b, a) ∈ entries.map Prod.fst ∨ (a, b) ∈ turned := by
  induction entries generalizing turned with
  | nil => simp
  | cons entry entries ih =>
      obtain ⟨⟨head, tail⟩, label⟩ := entry
      rw [List.foldl_cons, ih, TreeMap.mem_insert, edgeOrder_eq_iff, List.map_cons, List.mem_cons]
      simp only [Prod.mk.injEq]
      tauto

theorem mem_edges_reverse {a b : Nat} : (a, b) ∈ g.reverse.edges ↔ (b, a) ∈ g.edges := by
  unfold Graph.reverse
  rw [TreeMap.foldl_eq_foldl_toList, mem_foldl_turned, TreeMap.map_fst_toList_eq_keys,
    TreeMap.mem_keys]
  simp

theorem WellFormed.reverse (h : g.WellFormed) : g.reverse.WellFormed where
  successors_keys := h.predecessors_keys
  predecessors_keys := h.successors_keys
  successors_iff := by
    intro a b
    rw [mem_edges_reverse]
    exact h.predecessors_iff b a
  predecessors_iff := by
    intro a b
    rw [mem_edges_reverse]
    exact h.successors_iff b a
  head_mem := fun a b hab => h.tail_mem b a (mem_edges_reverse.mp hab)
  tail_mem := fun a b hab => h.head_mem b a (mem_edges_reverse.mp hab)
  successors_increasing := h.predecessors_increasing
  predecessors_increasing := h.successors_increasing

/-- There are no more neighbours altogether than edges, when every neighbour stands for an edge. -/
theorem sum_neighbours_le {map : TreeMap Nat (List Nat)} (edge : Nat → Nat → Nat × Nat)
    (hnodup : ∀ i, (neighbours map i).Nodup) (hinjective : Function.Injective2 edge)
    (hedge : ∀ i, ∀ j ∈ neighbours map i, edge i j ∈ g.edges) (vertices : List Nat)
    (hvertices : vertices.Nodup) :
    (vertices.map fun i => (neighbours map i).length).sum ≤ g.edgeCount := by
  have hpairs : (vertices.flatMap fun i => (neighbours map i).map (edge i)).Nodup := by
    refine List.nodup_flatMap.mpr ⟨fun i _ => ?_, ?_⟩
    · exact (hnodup i).map fun j k hjk => (hinjective hjk).2
    · refine hvertices.imp fun {i j} hij => ?_
      intro e hi hj
      obtain ⟨a, -, rfl⟩ := List.mem_map.mp hi
      obtain ⟨b, -, heq⟩ := List.mem_map.mp hj
      exact hij (hinjective heq).1.symm
  have hsub : (vertices.flatMap fun i => (neighbours map i).map (edge i)) ⊆ g.edges.keys := by
    intro e he
    obtain ⟨i, -, he⟩ := List.mem_flatMap.mp he
    obtain ⟨j, hj, rfl⟩ := List.mem_map.mp he
    exact TreeMap.mem_keys.mpr (hedge i j hj)
  have hlength := (List.subperm_of_subset hpairs hsub).length_le
  simpa [List.length_flatMap, edgeCount] using hlength

end Graph

end PlayerPaths
