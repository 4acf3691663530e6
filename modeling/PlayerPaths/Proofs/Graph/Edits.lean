import PlayerPaths.Graph.Edit
import PlayerPaths.Proofs.Graph.Consistency

/-!
# Histories of a graph

A graph is *intact* when its maps agree and its labels repeat their keys. On an intact graph the
edits in place do what the operations on graphs as values do (`Intact.exec_eq`): an edit that fails
has changed nothing, because an error after the first change would need maps that do not agree.
One edit keeps a graph intact (`Intact.exec`), so every history of the empty graph is intact, and
the answers of such a graph are complete.
-/

namespace PlayerPaths

open Std HasEnds

namespace Graph

variable {V E : Type} {g : Graph V E}

theorem WellFormed.of_edges (h : g.WellFormed) {edges : TreeMap (Nat × Nat) E edgeOrder}
    (hedges : ∀ k, k ∈ edges ↔ k ∈ g.edges) : WellFormed { g with edges } where
  successors_keys := h.successors_keys
  predecessors_keys := h.predecessors_keys
  successors_iff := fun head tail => (h.successors_iff head tail).trans (hedges _).symm
  predecessors_iff := fun head tail => (h.predecessors_iff head tail).trans (hedges _).symm
  head_mem := fun head tail he => h.head_mem head tail ((hedges _).mp he)
  tail_mem := fun head tail he => h.tail_mem head tail ((hedges _).mp he)
  successors_increasing := h.successors_increasing
  predecessors_increasing := h.predecessors_increasing

/-! ## Edits in place -/

/-- An operation on graphs as values, seen as an update: on an error the graph stays. -/
def settle (g : Graph V E) : Result (Graph V E) → Result Unit × Graph V E
  | .ok g' => (.ok (), g')
  | .error e => (.error e, g)

namespace Update

variable {α β : Type} {next : α → Update V E β} {g : Graph V E}

theorem exec_get_bind {next : Graph V E → Update V E β} :
    exec (get >>= next) g = exec (next g) g := rfl

theorem exec_modify {change : Graph V E → Graph V E} :
    exec (modify change) g = (.ok (), change g) := rfl

theorem exec_modify_bind {change : Graph V E → Graph V E} {next : Unit → Update V E β} :
    exec (modify change >>= next) g = exec (next ()) (change g) := rfl

theorem exec_reject_bind {condition : Bool} {e : Error} {next : Unit → Update V E β} :
    exec (reject condition e >>= next) g =
      if condition then (.error e, g) else exec (next ()) g := by
  cases condition <;> rfl

theorem exec_lift_bind {x : Result α} {a : α} (h : x = .ok a) :
    exec (liftM x >>= next) g = exec (next a) g := by
  rw [h]
  rfl

end Update

open Update

/-- A vertex of the map gets the new neighbour. -/
theorem link_eq {map : TreeMap Nat (List Nat)} {i : Nat} (h : i ∈ map) (neighbour : Nat) :
    link map i neighbour =
      .ok (map.insert i (Sorted.insert compare neighbour (neighbours map i))) := by
  obtain ⟨ns, hns⟩ := mem_iff_exists_getElem?.mp h
  rw [link, neighbours, TreeMap.getD_eq_getD_getElem?, hns]
  rfl

theorem exec_pushVertex [HasIndex V] (v : V) :
    (pushVertex (E := E) v).exec g = g.settle (g.insertVertex (index v) v) := by
  rw [pushVertex, insertVertex, exec_get_bind, exec_reject_bind, apply_ite g.settle]
  rfl

/-- The neighbour maps know the ends of the edge, because the graph does. -/
theorem exec_pushEdge [HasEnds E] (h : g.WellFormed) (e : E) :
    (pushEdge e).exec g = g.settle (g.insertEdge (head e) (tail e) e) := by
  rw [pushEdge, insertEdge, exec_get_bind, exec_reject_bind, exec_reject_bind, exec_reject_bind]
  split
  · rfl
  split
  · rfl
  split
  · rfl
  next hhead htail =>
  have hsuccessors :=
    link_eq ((h.successors_keys (head e)).mpr (by simpa [hasVertex] using hhead)) (tail e)
  have hpredecessors :=
    link_eq ((h.predecessors_keys (tail e)).mpr (by simpa [hasVertex] using htail)) (head e)
  rw [exec_modify_bind, exec_get_bind, exec_lift_bind hsuccessors, exec_modify_bind,
    exec_get_bind, exec_lift_bind hpredecessors, exec_modify]
  rfl

theorem exec_changeEdge (head tail : Nat) (change : E → E) :
    (Graph.changeEdge (V := V) head tail change).exec g =
      g.settle (g.relabelEdge head tail change) := by
  rw [Graph.changeEdge, relabelEdge, exec_get_bind]
  cases g.edges[(head, tail)]? with
  | none => rfl
  | some label => rfl

/-! ## Intact graphs -/

variable [HasIndex V] [HasEnds E]

/-- The maps agree, and what is stored knows where it is stored. -/
structure Intact (g : Graph V E) : Prop extends g.WellFormed where
  index_eq : ∀ i v, g.vertices[i]? = some v → index v = i
  ends_eq : ∀ k e, g.edges[k]? = some e → ends e = k

theorem intact_empty : (empty : Graph V E).Intact where
  toWellFormed := wellFormed_empty
  index_eq := by simp [empty]
  ends_eq := by simp [empty]

/-- The operation on graphs as values that an edit amounts to. -/
def Edit.result (g : Graph V E) : Edit V E → Result (Graph V E)
  | .insertVertex v => g.insertVertex (index v) v
  | .insertEdge e => g.insertEdge (head e) (tail e) e
  | .changeEdge head tail change => g.relabelEdge head tail change
  | .reverse flip => .ok (g.reversed flip)

/-- Edits in place do what the operations on graphs as values do. -/
theorem Intact.exec_eq (h : g.Intact) (edit : Edit V E) :
    edit.update.exec g = g.settle (edit.result g) := by
  cases edit with
  | insertVertex v => exact exec_pushVertex v
  | insertEdge e => exact exec_pushEdge h.toWellFormed e
  | changeEdge head tail change => exact exec_changeEdge head tail change
  | reverse flip => rfl

/-- An edit that keeps the labels in step with their keys: a label change leaves the ends of edges
alone, and turning an edge exchanges them. -/
def Edit.Legal : Edit V E → Prop
  | .insertVertex _ | .insertEdge _ => True
  | .changeEdge _ _ change => ∀ e, ends (change e) = ends e
  | .reverse flip => ∀ e, ends (flip e) = (ends e).swap

theorem Intact.insertVertex (h : g.Intact) {v : V} (hv : index v ∉ g.vertices) :
    (g.addVertex (index v) v).Intact where
  toWellFormed := h.toWellFormed.addVertex hv v
  index_eq i w hw := by
    rw [addVertex, TreeMap.getElem?_insert] at hw
    split at hw
    · next heq =>
      obtain rfl := Option.some.inj hw
      exact LawfulEqCmp.eq_of_compare heq
    · exact h.index_eq i w hw
  ends_eq := h.ends_eq

theorem Intact.insertEdge (h : g.Intact) {e : E} (hhead : head e ∈ g.vertices)
    (htail : tail e ∈ g.vertices) : (g.addEdge (head e) (tail e) e).Intact where
  toWellFormed := h.toWellFormed.addEdge hhead htail e
  index_eq := h.index_eq
  ends_eq k e' he := by
    rw [addEdge, TreeMap.getElem?_insert] at he
    split at he
    · next heq =>
      obtain rfl := Option.some.inj he
      exact edgeOrder_eq_iff.mp heq
    · exact h.ends_eq k e' he

/-- A stored edge may be changed when its ends stay. -/
theorem Intact.changeEdge (h : g.Intact) {key : Nat × Nat} {e : E} (he : key ∈ g.edges)
    (hends : ends e = key) : Intact { g with edges := g.edges.insert key e } where
  toWellFormed := h.toWellFormed.of_edges fun k => by
    rw [TreeMap.mem_insert, edgeOrder_eq_iff]
    constructor
    · rintro (rfl | hk)
      · exact he
      · exact hk
    · exact .inr
  index_eq := h.index_eq
  ends_eq k e' he' := by
    rw [TreeMap.getElem?_insert] at he'
    split at he'
    · next heq =>
      obtain rfl := Option.some.inj he'
      exact hends.trans (edgeOrder_eq_iff.mp heq)
    · exact h.ends_eq k e' he'

/-- Turned edges are found under the turned key. -/
theorem Intact.getElem?_reversed (h : g.Intact) {flip : E → E}
    (hflip : ∀ e, ends (flip e) = (ends e).swap) (key : Nat × Nat) :
    (g.reversed flip).edges[key]? = g.edges[key.swap]?.map flip := by
  have hentries : (g.edges.values.map flip).map (fun e => (ends e, e)) =
      g.edges.toList.map fun entry => (entry.1.swap, flip entry.2) := by
    rw [values_eq_map_snd, List.map_map, List.map_map]
    refine List.map_congr_left fun entry hentry => ?_
    have hends := h.ends_eq entry.1 entry.2 (TreeMap.mem_toList_iff_getElem?_eq_some.mp hentry)
    simp only [Function.comp_apply, hflip, hends]
  rw [reversed, hentries]
  cases he : g.edges[key.swap]? with
  | none =>
      refine TreeMap.getElem?_ofList_of_contains_eq_false (Bool.eq_false_iff.mpr fun hcontains => ?_)
      rw [List.contains_iff_mem, List.map_map, List.mem_map] at hcontains
      obtain ⟨entry, hentry, rfl⟩ := hcontains
      rw [TreeMap.mem_toList_iff_getElem?_eq_some] at hentry
      simp [hentry] at he
  | some e =>
      have hmem := TreeMap.mem_toList_iff_getElem?_eq_some.mpr he
      refine TreeMap.getElem?_ofList_of_mem (edgeOrder_eq_iff.mpr rfl) ?_
        (List.mem_map.mpr ⟨(key.swap, e), hmem, by simp⟩)
      refine List.pairwise_map.mpr (TreeMap.distinct_keys_toList.imp fun {a b} hne heq => hne ?_)
      exact edgeOrder_eq_iff.mpr (Prod.swap_injective (edgeOrder_eq_iff.mp heq))

theorem Intact.mem_edges_reversed (h : g.Intact) {flip : E → E}
    (hflip : ∀ e, ends (flip e) = (ends e).swap) (key : Nat × Nat) :
    key ∈ (g.reversed flip).edges ↔ key ∈ g.reverse.edges := by
  rw [mem_edges_reverse (a := key.1), TreeMap.mem_iff_isSome_getElem?, h.getElem?_reversed hflip,
    Option.isSome_map, ← TreeMap.mem_iff_isSome_getElem?]
  rfl

theorem Intact.reversed (h : g.Intact) {flip : E → E}
    (hflip : ∀ e, ends (flip e) = (ends e).swap) : (g.reversed flip).Intact where
  toWellFormed := h.toWellFormed.reverse.of_edges (h.mem_edges_reversed hflip)
  index_eq := h.index_eq
  ends_eq key e he := by
    rw [h.getElem?_reversed hflip, Option.map_eq_some_iff] at he
    obtain ⟨e, he, rfl⟩ := he
    rw [hflip, h.ends_eq _ _ he, Prod.swap_swap]

/-- **One edit keeps a graph intact**, whether it succeeds or fails. -/
theorem Intact.exec (h : g.Intact) {edit : Edit V E} (hlegal : edit.Legal) :
    (edit.update.exec g).2.Intact := by
  rw [h.exec_eq]
  cases edit with
  | insertVertex v =>
      rw [Edit.result, Graph.insertVertex]
      split
      · exact h
      · next hv => exact h.insertVertex (by simpa [hasVertex] using hv)
  | insertEdge e =>
      rw [Edit.result, Graph.insertEdge]
      split
      · exact h
      split
      · exact h
      split
      · exact h
      · next hhead htail =>
        exact h.insertEdge (by simpa [hasVertex] using hhead) (by simpa [hasVertex] using htail)
  | changeEdge head tail change =>
      rw [Edit.result, relabelEdge]
      split
      · next e he =>
        exact h.changeEdge (mem_iff_exists_getElem?.mpr ⟨e, he⟩)
          ((hlegal e).trans (h.ends_eq _ e he))
      · exact h
  | reverse flip => exact h.reversed hlegal

theorem intact_history {edits : List (Edit V E)} (hlegal : ∀ edit ∈ edits, edit.Legal) :
    (history edits).Intact := by
  suffices hrun : ∀ g : Graph V E, g.Intact →
      (edits.foldl (fun g edit => (edit.update.exec g).2) g).Intact from hrun _ intact_empty
  induction edits with
  | nil => exact fun g hg => hg
  | cons edit edits ih =>
      obtain ⟨hedit, hedits⟩ := List.forall_mem_cons.mp hlegal
      exact fun g hg => ih hedits _ (hg.exec hedit)

/-! ## What an intact graph answers -/

/-- The edges and the neighbours that a graph gives for a vertex. -/
structure Answers (g : Graph V E) (i : Nat) : Prop where
  edgesOut : ∃ es, g.edgesOut i = .ok es ∧
    ∀ h t e, (h, t, e) ∈ es ↔ h = i ∧ g.edges[(h, t)]? = some e
  edgesIn : ∃ es, g.edgesIn i = .ok es ∧
    ∀ h t e, (h, t, e) ∈ es ↔ t = i ∧ g.edges[(h, t)]? = some e
  successors : ∃ ns, g.successors i = .ok ns ∧ ∀ n, n ∈ ns ↔ (i, n) ∈ g.edges
  predecessors : ∃ ns, g.predecessors i = .ok ns ∧ ∀ n, n ∈ ns ↔ (n, i) ∈ g.edges
  successorVertices : ∃ vs, g.successorVertices i = .ok vs ∧
    ∀ v, v ∈ vs ↔ ∃ n, (i, n) ∈ g.edges ∧ g.vertices[n]? = some v
  predecessorVertices : ∃ vs, g.predecessorVertices i = .ok vs ∧
    ∀ v, v ∈ vs ↔ ∃ n, (n, i) ∈ g.edges ∧ g.vertices[n]? = some v

section

omit [HasIndex V] [HasEnds E]

/-- A traversal that looks something up for each element gives what is found. -/
theorem exists_lookups {α β γ : Type} {l : List α} {f : α → Result β} (found : α → γ → Prop)
    (entry : α → γ → β) (hf : ∀ a c, found a c → f a = .ok (entry a c))
    (hfound : ∀ a ∈ l, ∃ c, found a c) :
    ∃ r, l.mapM f = .ok r ∧ ∀ b, b ∈ r ↔ ∃ a ∈ l, ∃ c, found a c ∧ entry a c = b := by
  have hok : ∀ a ∈ l, ∃ b, f a = .ok b := by
    intro a ha
    obtain ⟨c, hc⟩ := hfound a ha
    exact ⟨_, hf a c hc⟩
  obtain ⟨r, hr⟩ := exists_mapM_ok hok
  refine ⟨r, hr, fun b => ⟨fun hb => ?_, ?_⟩⟩
  · obtain ⟨a, ha, hab⟩ := mem_of_mapM_eq_ok hr hb
    obtain ⟨c, hc⟩ := hfound a ha
    exact ⟨a, ha, c, hc, Except.ok.inj ((hf a c hc).symm.trans hab)⟩
  · rintro ⟨a, ha, c, hc, rfl⟩
    obtain ⟨b, hb, hab⟩ := forall₂_exists_of_mem_left (mapM_eq_ok.mp hr) ha
    obtain rfl := Except.ok.inj ((hf a c hc).symm.trans hab)
    exact hb

/-- The edges between a vertex and its neighbours, where `key` gives the ends of each. -/
theorem exists_edges {ns : List Nat} (key : Nat → Nat × Nat)
    (hns : ∀ n, n ∈ ns ↔ key n ∈ g.edges) :
    ∃ es, (ns.mapM fun n => do
        return ((key n).1, (key n).2, ← g.edge (key n).1 (key n).2)) = .ok es ∧
      ∀ h t e, (h, t, e) ∈ es ↔ (∃ n, key n = (h, t)) ∧ g.edges[(h, t)]? = some e := by
  obtain ⟨es, hes, hmem⟩ := exists_lookups (l := ns)
    (f := fun n => do return ((key n).1, (key n).2, ← g.edge (key n).1 (key n).2))
    (fun n e => g.edges[key n]? = some e) (fun n e => ((key n).1, (key n).2, e))
    (fun n e he => by rw [edge, he]; rfl) (fun n hn => mem_iff_exists_getElem?.mp ((hns n).mp hn))
  refine ⟨es, hes, fun head tail e => ?_⟩
  rw [hmem]
  constructor
  · rintro ⟨n, -, e, he, heq⟩
    cases heq
    exact ⟨⟨n, rfl⟩, he⟩
  · rintro ⟨⟨n, hn⟩, he⟩
    refine ⟨n, (hns n).mpr (hn ▸ mem_iff_exists_getElem?.mpr ⟨e, he⟩), e, hn ▸ he, ?_⟩
    rw [hn]

/-- The labels of neighbours that are vertices. -/
theorem exists_vertices {ns : List Nat} (hns : ∀ n ∈ ns, n ∈ g.vertices) :
    ∃ vs, ns.mapM g.vertex = .ok vs ∧ ∀ v, v ∈ vs ↔ ∃ n ∈ ns, g.vertices[n]? = some v := by
  obtain ⟨vs, hvs, hmem⟩ := exists_lookups (f := g.vertex) (fun n v => g.vertices[n]? = some v)
    (fun _ v => v) (fun n v hv => by rw [vertex, hv])
    (fun n hn => mem_iff_exists_getElem?.mp (hns n hn))
  exact ⟨vs, hvs, fun v => (hmem v).trans (by simp)⟩

theorem WellFormed.successors_eq (h : g.WellFormed) {i : Nat} (hi : i ∈ g.vertices) :
    g.successors i = .ok (neighbours g.successorsOf i) := by
  obtain ⟨ns, hns⟩ := mem_iff_exists_getElem?.mp ((h.successors_keys i).mpr hi)
  rw [successors, neighbours, TreeMap.getD_eq_getD_getElem?, hns]
  rfl

theorem WellFormed.predecessors_eq (h : g.WellFormed) {i : Nat} (hi : i ∈ g.vertices) :
    g.predecessors i = .ok (neighbours g.predecessorsOf i) := by
  obtain ⟨ns, hns⟩ := mem_iff_exists_getElem?.mp ((h.predecessors_keys i).mpr hi)
  rw [predecessors, neighbours, TreeMap.getD_eq_getD_getElem?, hns]
  rfl

/-- A well-formed graph answers for each of its vertices. -/
theorem WellFormed.answers (h : g.WellFormed) {i : Nat} (hi : i ∈ g.vertices) : g.Answers i where
  edgesOut := by
    obtain ⟨es, hes, hmem⟩ := exists_edges (fun n => (i, n)) (h.successors_iff i)
    refine ⟨es, by rw [edgesOut, h.successors_eq hi]; exact hes, fun head tail e => ?_⟩
    rw [hmem]
    simp [eq_comm]
  edgesIn := by
    obtain ⟨es, hes, hmem⟩ := exists_edges (fun n => (n, i)) (fun n => h.predecessors_iff n i)
    refine ⟨es, by rw [edgesIn, h.predecessors_eq hi]; exact hes, fun head tail e => ?_⟩
    rw [hmem]
    simp [eq_comm]
  successors := ⟨_, h.successors_eq hi, h.successors_iff i⟩
  predecessors := ⟨_, h.predecessors_eq hi, fun n => h.predecessors_iff n i⟩
  successorVertices := by
    obtain ⟨vs, hvs, hmem⟩ := exists_vertices
      fun n hn => h.tail_mem i n ((h.successors_iff i n).mp hn)
    refine ⟨vs, by rw [successorVertices, h.successors_eq hi]; exact hvs, fun v => ?_⟩
    simp only [hmem, h.successors_iff]
  predecessorVertices := by
    obtain ⟨vs, hvs, hmem⟩ := exists_vertices
      fun n hn => h.head_mem n i ((h.predecessors_iff n i).mp hn)
    refine ⟨vs, by rw [predecessorVertices, h.predecessors_eq hi]; exact hvs, fun v => ?_⟩
    simp only [hmem, h.predecessors_iff]

end

/-- Graphs with the same contents. -/
structure Same (g g' : Graph V E) : Prop where
  vertices : g.vertices.Equiv g'.vertices
  edges : g.edges.Equiv g'.edges
  successors : g.successorsOf.Equiv g'.successorsOf
  predecessors : g.predecessorsOf.Equiv g'.predecessorsOf

/-- Turning all edges twice gives the graph back. -/
theorem Intact.reversed_reversed (h : g.Intact) {flip : E → E}
    (hflip : ∀ e, ends (flip e) = (ends e).swap) (hinvolutive : ∀ e, flip (flip e) = e) :
    ((g.reversed flip).reversed flip).Same g where
  vertices := .rfl
  edges := TreeMap.Equiv.of_forall_constGet?_eq fun key => by
    rw [(h.reversed hflip).getElem?_reversed hflip, h.getElem?_reversed hflip, Option.map_map,
      Prod.swap_swap]
    simp [Function.comp_def, hinvolutive]
  successors := .rfl
  predecessors := .rfl

/-- What can be relied on after any history. -/
structure Reliable (g : Graph V E) : Prop where
  intact : g.Intact
  /-- An edit that fails changes nothing. -/
  atomic : ∀ (edit : Edit V E) (e : Error),
    (edit.update.exec g).1 = .error e → (edit.update.exec g).2 = g
  answers : ∀ i, i ∈ g.vertices → g.Answers i
  reversible : ∀ flip : E → E, (∀ e, ends (flip e) = (ends e).swap) → (∀ e, flip (flip e) = e) →
    ((g.reversed flip).reversed flip).Same g

theorem Intact.atomic (h : g.Intact) {edit : Edit V E} {e : Error}
    (he : (edit.update.exec g).1 = .error e) : (edit.update.exec g).2 = g := by
  rw [h.exec_eq] at he ⊢
  cases hresult : edit.result g with
  | ok g' => rw [hresult] at he; cases he
  | error e => rfl

/-- **Every history leaves a graph that can be relied on.** -/
theorem history_reliable {edits : List (Edit V E)} (hlegal : ∀ edit ∈ edits, edit.Legal) :
    (history edits).Reliable where
  intact := intact_history hlegal
  atomic _ _ := (intact_history hlegal).atomic
  answers _ := (intact_history hlegal).answers
  reversible _ := (intact_history hlegal).reversed_reversed

instance : HasIndex Nat := ⟨id⟩

instance : HasEnds (Nat × Nat × String) := ⟨fun e => e.1, fun e => e.2.1⟩

/-- Two vertices and an edge that is renamed and turned around. Another edge between the same
vertices and an edge to a missing vertex are refused. -/
def renamedEdits : List (Edit Nat (Nat × Nat × String)) :=
  [.insertVertex 1, .insertVertex 2, .insertEdge (1, 2, "up"), .insertEdge (1, 2, "again"),
    .insertEdge (2, 3, "out"), .changeEdge 1 2 fun e => (e.1, e.2.1, "down"),
    .reverse fun e => (e.2.1, e.1, e.2.2)]

theorem renamed_reliable : (history renamedEdits).Reliable ∧
    (history renamedEdits).edgeList = [(2, 1, (2, 1, "down"))] := by
  refine ⟨history_reliable fun edit hedit => ?_, by decide +kernel⟩
  simp only [renamedEdits, List.mem_cons, List.not_mem_nil, or_false] at hedit
  rcases hedit with rfl | rfl | rfl | rfl | rfl | rfl | rfl
  · trivial
  · trivial
  · trivial
  · trivial
  · trivial
  · exact fun e => rfl
  · exact fun e => rfl

end Graph

end PlayerPaths
