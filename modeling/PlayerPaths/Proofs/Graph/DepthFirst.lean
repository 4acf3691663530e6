import PlayerPaths.Proofs.Graph.Edits
import PlayerPaths.Proofs.Graph.PreOrder

/-!
# The depth-first order of a graph

A search takes vertices off a stack. A vertex is marked when it leaves the stack, and all its
successors are put there, visited or not; so the stack may hold a vertex more than once, and
vertices that were reached another way in the meantime. What carries the proof is that, above any
rest of the stack, the search does with the vertices what the recursive traversal does with them,
and then has that rest left (`PreOrder.searches`).

Main statement: in a well-formed graph the search from a vertex ends with the pre-order of the
recursive traversal along the edges, smaller vertices first, and that order and `Graph.reachable`
list the vertices that paths lead to (`Graph.WellFormed.preOrder_depthFirst`).
-/

namespace PlayerPaths

open Relation Std

variable {α : Type} [DecidableEq α] {successors : α → List α}

/-! ## Searching with a stack -/

/-- A search on its way: the vertices to look at, those that were visited, and the order so far. -/
structure Search (α : Type) where
  stack : List α
  visited : List α := []
  order : List α := []

namespace Search

/-- One round of a search, unless the stack is empty. The vertex on top of the stack leaves it. If
it was not visited, it is marked and listed, and its successors are put on the stack, the first one
on top. -/
def step? (successors : α → List α) (s : Search α) : Option (Search α) :=
  match s.stack with
  | [] => none
  | v :: stack =>
    if v ∈ s.visited then some { s with stack }
    else some ⟨successors v ++ stack, v :: s.visited, s.order ++ [v]⟩

/-- Some rounds lead from one search to another. -/
def Runs (successors : α → List α) : Search α → Search α → Prop :=
  ReflTransGen fun s t => s.step? successors = some t

/-- A search comes to its end, and has listed an order then. -/
def EndsWith (successors : α → List α) (s : Search α) (order : List α) : Prop :=
  ∃ t, Runs successors s t ∧ t.step? successors = none ∧ t.order = order

variable {v : α} {stack visited order : List α}

theorem step?_of_visited (h : v ∈ visited) :
    (⟨v :: stack, visited, order⟩ : Search α).step? successors =
      some ⟨stack, visited, order⟩ := by
  simp [step?, h]

theorem step?_of_not_visited (h : v ∉ visited) :
    (⟨v :: stack, visited, order⟩ : Search α).step? successors =
      some ⟨successors v ++ stack, v :: visited, order ++ [v]⟩ := by
  simp [step?, h]

/-- A search has one end. -/
theorem EndsWith.unique {s : Search α} {order' : List α} (h : s.EndsWith successors order)
    (h' : s.EndsWith successors order') : order = order' := by
  obtain ⟨t, hrun, hend, rfl⟩ := h
  obtain ⟨t', hrun', hend', rfl⟩ := h'
  have hstep : Relator.RightUnique fun s t : Search α => s.step? successors = some t :=
    fun s t t' ht ht' => Option.some.inj (ht.symm.trans ht')
  have hstays : ∀ {t u : Search α}, t.step? successors = none → Runs successors t u → u = t := by
    intro t u hend hrun
    rcases hrun.cases_head with heq | ⟨_, hnext, _⟩
    · exact heq.symm
    · rw [hend] at hnext
      cases hnext
  rcases ReflTransGen.total_of_right_unique hstep hrun hrun' with h | h
  · rw [hstays hend h]
  · rw [hstays hend' h]

end Search

open Search in
/-- A search works off the vertices on top of its stack as the recursive traversal does, and then
has the rest of its stack left. -/
theorem PreOrder.searches {visited after vs listed : List α}
    (h : PreOrder id successors visited vs listed after) (rest order : List α) :
    Runs successors ⟨vs ++ rest, visited, order⟩ ⟨rest, after, order ++ listed⟩ := by
  induction h generalizing rest order with
  | nil =>
      rw [List.append_nil]
      exact .refl
  | skip hv _ ih => exact .head (step?_of_visited hv) (ih rest order)
  | @visit visited between after v vs below listed hv _ _ ihbelow ih =>
      -- The successors come on top of the vertices that are left.
      have hbelow := ihbelow (vs ++ rest) (order ++ [v])
      have hlisted := ih rest (order ++ [v] ++ below)
      have horder : order ++ v :: (below ++ listed) = order ++ [v] ++ below ++ listed := by simp
      rw [horder]
      exact .head (step?_of_not_visited hv) (hbelow.trans hlisted)

/-- The search from a root ends with the order of the recursive traversal. -/
theorem PreOrder.endsWith {root : α} {after listed : List α}
    (h : PreOrder id successors [] [root] listed after) :
    Search.EndsWith successors { stack := [root] } listed :=
  ⟨⟨[], after, listed⟩, h.searches [] [], rfl, rfl⟩

/-! ## Along the edges of a graph -/

namespace Graph

variable {V E : Type} {g : Graph V E} {i j root : Nat}

/-- The vertices that edges from a vertex lead to, increasing. -/
def targets (g : Graph V E) (i : Nat) : List Nat :=
  (g.edges.keys.filter fun ends => ends.1 = i).map Prod.snd

def Leads (g : Graph V E) (i j : Nat) : Prop := (i, j) ∈ g.edges

theorem mem_targets : j ∈ g.targets i ↔ g.Leads i j := by
  simp [targets, Leads, TreeMap.mem_keys]

theorem targets_increasing (g : Graph V E) (i : Nat) :
    Sorted.Increasing compare (g.targets i) := by
  refine List.pairwise_map.mpr (List.pairwise_filter.mpr ?_)
  refine (TreeMap.ordered_keys (t := g.edges)).imp fun {a b} hlt ha hb => ?_
  -- Edges with one head are ordered by their tails.
  have hhead : a.1 = b.1 := (of_decide_eq_true ha).trans (of_decide_eq_true hb).symm
  simpa [edgeOrder, compareLex, compareOn, hhead] using hlt

/-- The neighbours of a vertex are where its edges lead. -/
theorem WellFormed.neighbours_eq_targets (h : g.WellFormed) :
    neighbours g.successorsOf = g.targets := by
  funext i
  have hmem : ∀ j, j ∈ neighbours g.successorsOf i ↔ j ∈ g.targets i :=
    fun j => (h.successors_iff i j).trans mem_targets.symm
  have hlength : (g.targets i).length ≤ (neighbours g.successorsOf i).length :=
    (List.subperm_of_subset (g.targets_increasing i).nodup fun j => (hmem j).mpr).length_le
  exact (h.successors_increasing i).eq_of_subset (g.targets_increasing i)
    (fun j => (hmem j).mp) hlength

theorem WellFormed.preOrder_eq_ok (h : g.WellFormed) (hroot : root ∈ g.vertices) :
    ∃ order after, g.preOrder root = .ok order ∧ PreOrder id g.targets [] [root] order after := by
  have hclosed : ∀ i, id i ∈ g.vertices.keys → ∀ j ∈ g.targets i, id j ∈ g.vertices.keys :=
    fun i _ j hj => TreeMap.mem_keys.mpr (h.tail_mem i j (mem_targets.mp hj))
  have hstart : ∀ i ∈ [root], id i ∈ g.vertices.keys :=
    List.forall_mem_singleton.mpr (TreeMap.mem_keys.mpr hroot)
  obtain ⟨after, hafter⟩ := depthFirst_preOrder TreeMap.nodup_keys hclosed hstart
  refine ⟨_, after, ?_, hafter⟩
  rw [preOrder, hasVertex, if_pos (TreeMap.contains_iff_mem.mpr hroot), h.neighbours_eq_targets]

/-- The start is not fresh for a flood, and a path need not come back to it. -/
theorem WellFormed.flood_reaches_iff (h : g.WellFormed) :
    ReflTransGen (fun i j => j ∈ g.targets i ∧ j ∈ g.vertices.keys.erase root) root i ↔
      ReflTransGen g.Leads root i := by
  constructor
  · exact ReflTransGen.mono (fun _ _ hstep => mem_targets.mp hstep.1) root i
  · intro hpath
    induction hpath with
    | refl => exact .refl
    | @tail i j _ hstep ih =>
        by_cases hj : j = root
        · rw [hj]
        · have hvertex : j ∈ g.vertices.keys := TreeMap.mem_keys.mpr (h.tail_mem i j hstep)
          exact ih.tail ⟨mem_targets.mpr hstep, (List.mem_erase_of_ne hj).mpr hvertex⟩

/-- The reachable vertices are those that paths lead to, each once. -/
theorem WellFormed.reachable_eq_ok (h : g.WellFormed) (hroot : root ∈ g.vertices) :
    ∃ set, g.reachable root = .ok set ∧ set.Nodup ∧
      ∀ i, i ∈ set ↔ ReflTransGen g.Leads root i := by
  have hfresh : (g.vertices.keys.erase root ++ [root]).Nodup := by
    refine List.nodup_append'.mpr ⟨TreeMap.nodup_keys.erase root, List.nodup_singleton root, ?_⟩
    exact List.disjoint_singleton.mpr TreeMap.nodup_keys.not_mem_erase
  refine ⟨_, if_pos (TreeMap.contains_iff_mem.mpr hroot), ?_, fun i => ?_⟩
  · exact (List.mergeSort_perm _ _).nodup_iff.mpr (flood_nodup hfresh)
  · rw [List.mem_mergeSort, h.neighbours_eq_targets, mem_flood_iff, ← h.flood_reaches_iff]
    simp only [List.mem_singleton, exists_eq_left]

/-- **The order of a search is depth-first pre-order.** In a well-formed graph the search from a
vertex ends with the order that `Graph.preOrder` gives. The recursive traversal, which visits the
vertices that edges lead to with smaller ones first, has the same order. The order lists, each
once, the vertices that `Graph.reachable` collects, and these are the ones that a path from the
vertex leads to. -/
theorem WellFormed.preOrder_depthFirst (h : g.WellFormed) (hroot : root ∈ g.vertices) :
    (∀ i, Sorted.Increasing compare (g.targets i) ∧ ∀ j, j ∈ g.targets i ↔ g.Leads i j) ∧
    ∃ order set, g.preOrder root = .ok order ∧ g.reachable root = .ok set ∧
      (∀ listed, Search.EndsWith (neighbours g.successorsOf) { stack := [root] } listed ↔
        listed = order) ∧
      (∀ listed, (∃ after, PreOrder id g.targets [] [root] listed after) ↔ listed = order) ∧
      order.Perm set ∧ ∀ i, i ∈ set ↔ ReflTransGen g.Leads root i := by
  refine ⟨fun i => ⟨g.targets_increasing i, fun j => mem_targets⟩, ?_⟩
  obtain ⟨order, after, horder, hpre⟩ := h.preOrder_eq_ok hroot
  obtain ⟨set, hset, hnodup, hmem⟩ := h.reachable_eq_ok hroot
  have hlisted : ∀ i, i ∈ order ↔ ReflTransGen g.Leads root i := by
    intro i
    have hkeys := hpre.mem_keys_iff_of_agree (fun _ _ _ _ heq => congrArg g.targets heq) (k := i)
    simpa [mem_targets] using hkeys
  have hperm : order.Perm set := by
    have horderNodup : order.Nodup := by simpa using hpre.nodup.1
    exact (List.perm_ext_iff_of_nodup horderNodup hnodup).mpr fun i =>
      (hlisted i).trans (hmem i).symm
  refine ⟨order, set, horder, hset, fun listed => ?_, fun listed => ?_, hperm, hmem⟩
  · rw [h.neighbours_eq_targets]
    constructor
    · exact fun hlisted => hlisted.unique hpre.endsWith
    · rintro rfl
      exact hpre.endsWith
  · constructor
    · rintro ⟨_, hlisted⟩
      exact (hlisted.unique hpre).1
    · rintro rfl
      exact ⟨after, hpre⟩

/-- A graph of numbers, whose edges have no names. -/
def unnamed (vertices : List Nat) (ends : List (Nat × Nat)) : Graph Nat (Nat × Nat × String) :=
  history (vertices.map .insertVertex ++ ends.map fun (i, j) => .insertEdge (i, j, ""))

theorem wellFormed_unnamed (vertices : List Nat) (ends : List (Nat × Nat)) :
    (unnamed vertices ends).WellFormed := by
  refine (intact_history (List.forall_mem_append.mpr ⟨?_, ?_⟩)).toWellFormed
  · exact List.forall_mem_map.mpr fun _ _ => trivial
  · exact List.forall_mem_map.mpr fun _ _ => trivial

/-- Paths meet and go round: 2 puts 6 on the stack, and before it leaves the stack it is reached
through 3. Nothing leads to 7. -/
def looping : Graph Nat (Nat × Nat × String) :=
  unnamed [1, 2, 3, 4, 5, 6, 7]
    [(1, 2), (2, 3), (2, 4), (2, 6), (3, 5), (3, 6), (4, 5), (5, 2), (6, 6), (7, 1)]

theorem looping_depthFirst : looping.WellFormed ∧ 1 ∈ looping.vertices ∧
    looping.preOrder 1 = .ok [1, 2, 3, 5, 6, 4] ∧
    Search.EndsWith (neighbours looping.successorsOf) { stack := [1] } [1, 2, 3, 5, 6, 4] ∧
    (∃ after, PreOrder id looping.targets [] [1] [1, 2, 3, 5, 6, 4] after) ∧
    ¬ ReflTransGen looping.Leads 1 7 := by
  have hgraph : looping.WellFormed := wellFormed_unnamed _ _
  have hroot : 1 ∈ looping.vertices := by decide +kernel
  obtain ⟨-, order, set, horder, -, hends, hlisted, hperm, hreached⟩ :=
    hgraph.preOrder_depthFirst hroot
  have hpre : looping.preOrder 1 = .ok [1, 2, 3, 5, 6, 4] := by decide +kernel
  obtain rfl := Except.ok.inj (hpre.symm.trans horder)
  refine ⟨hgraph, hroot, hpre, (hends _).mpr rfl, (hlisted _).mpr rfl, fun hpath => ?_⟩
  have hseven := hperm.mem_iff.mpr ((hreached 7).mpr hpath)
  revert hseven
  decide

end Graph

end PlayerPaths
