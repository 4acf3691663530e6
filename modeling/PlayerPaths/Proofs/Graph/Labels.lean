import PlayerPaths.Proofs.Graph.Consistency

/-!
# Graphs that are known by their labels

Where the vertices are numbered one after another and no two of them have the same label, looking
for a label finds its vertex. Such a graph stays so when it is given a label that it does not have
yet.
-/

namespace PlayerPaths.Graph

open Std

variable {V E : Type} {g g' : Graph V E} {v : V} {i : Nat}

/-- The graph is well formed, and its vertices are numbered one after another, each with a label of
its own. -/
structure Labelled (g : Graph V E) : Prop where
  wellFormed : g.WellFormed
  numbered : ∀ i, i ∈ g.vertices ↔ i < g.vertexCount
  distinct : ∀ {i j : Nat} {v}, g.vertices[i]? = some v → g.vertices[j]? = some v → i = j

theorem labelled_empty : (empty : Graph V E).Labelled where
  wellFormed := wellFormed_empty
  numbered := by simp [empty, vertexCount]
  distinct := by simp [empty]

/-- Looking for a label finds its vertex. -/
theorem Labelled.find?_eq_some [DecidableEq V] (h : g.Labelled) :
    (g.vertexList.find? fun (_, label) => label = v).map Prod.fst = some i ↔
      g.vertices[i]? = some v := by
  simp only [Option.map_eq_some_iff, Prod.exists, exists_and_right, exists_eq_right, vertexList]
  constructor
  · rintro ⟨v', hfind⟩
    obtain rfl : v' = v := by simpa using List.find?_some hfind
    exact TreeMap.mem_toList_iff_getElem?_eq_some.mp (List.mem_of_find?_eq_some hfind)
  · intro hi
    generalize hfind : List.find? _ g.vertices.toList = found
    cases found with
    | none =>
        have hmem := TreeMap.mem_toList_iff_getElem?_eq_some.mpr hi
        simpa using List.find?_eq_none.mp hfind _ hmem
    | some entry =>
        obtain ⟨j, v'⟩ := entry
        obtain rfl : v' = v := by simpa using List.find?_some hfind
        have hj := TreeMap.mem_toList_iff_getElem?_eq_some.mp (List.mem_of_find?_eq_some hfind)
        rw [h.distinct hi hj]
        exact ⟨v', rfl⟩

/-- What it means that a graph has been given a label. -/
structure Given (g : Graph V E) (v : V) (i : Nat) (g' : Graph V E) : Prop where
  labelled : g'.Labelled
  index : g'.vertices[i]? = some v
  keeps : ∀ {j : Nat} {w}, g.vertices[j]? = some w → g'.vertices[j]? = some w
  labels : ∀ {j : Nat} {w}, g'.vertices[j]? = some w → w = v ∨ g.vertices[j]? = some w
  edges : g'.edges = g.edges

theorem Labelled.given_self (h : g.Labelled) (hi : g.vertices[i]? = some v) : g.Given v i g where
  labelled := h
  index := hi
  keeps := id
  labels := .inr
  edges := rfl

theorem Labelled.given_addVertex (h : g.Labelled) (hnew : ∀ i : Nat, g.vertices[i]? ≠ some v) :
    g.Given v g.vertexCount (g.addVertex g.vertexCount v) := by
  have hcount : g.vertexCount ∉ g.vertices := fun hmem =>
    Nat.lt_irrefl _ ((h.numbered _).mp hmem)
  have hget : ∀ j : Nat, (g.addVertex g.vertexCount v).vertices[j]? =
      if g.vertexCount = j then some v else g.vertices[j]? := by
    intro j
    simp [addVertex, TreeMap.getElem?_insert]
  have hold : ∀ {j : Nat} {w}, g.vertices[j]? = some w → g.vertexCount ≠ j := by
    rintro j w hj rfl
    exact hcount (mem_iff_exists_getElem?.mpr ⟨w, hj⟩)
  have hlabels : ∀ {j : Nat} {w}, (g.addVertex g.vertexCount v).vertices[j]? = some w →
      (j = g.vertexCount ∧ w = v) ∨ g.vertices[j]? = some w := by
    intro j w hj
    rw [hget] at hj
    split at hj
    · next heq => exact .inl ⟨heq.symm, (Option.some.inj hj).symm⟩
    · exact .inr hj
  constructor
  · refine ⟨h.wellFormed.addVertex hcount v, ?_, ?_⟩
    · intro i
      have hsize : (g.addVertex g.vertexCount v).vertexCount = g.vertexCount + 1 := by
        rw [vertexCount, addVertex, TreeMap.size_insert,
          if_neg (mt TreeMap.contains_iff_mem.mp hcount)]
        rfl
      rw [hsize, addVertex, TreeMap.mem_insert, h.numbered, Std.compare_eq_iff_eq]
      omega
    · intro i j w hi hj
      rcases hlabels hi with ⟨rfl, rfl⟩ | hi <;> rcases hlabels hj with ⟨rfl, heq⟩ | hj
      · rfl
      · exact absurd hj (hnew j)
      · rw [heq] at hi
        exact absurd hi (hnew i)
      · exact h.distinct hi hj
  · rw [hget, if_pos rfl]
  · intro j w hj
    rw [hget, if_neg (hold hj), hj]
  · intro j w hj
    exact (hlabels hj).imp And.right id
  · rfl

/-- The ends of an edge have labels. -/
theorem WellFormed.exists_labels (h : g.WellFormed) {i j : Nat} (hedge : (i, j) ∈ g.edges) :
    ∃ v w, g.vertices[i]? = some v ∧ g.vertices[j]? = some w := by
  obtain ⟨v, hv⟩ := mem_iff_exists_getElem?.mp (h.head_mem i j hedge)
  obtain ⟨w, hw⟩ := mem_iff_exists_getElem?.mp (h.tail_mem i j hedge)
  exact ⟨v, w, hv, hw⟩

/-- Between the vertices that were there, the edges are the same. -/
theorem Given.edge_iff (h : g.Given v i g') (hg : g.Labelled) {a b : V} {p : Nat × Nat → Prop}
    (hp : ∀ e, p e → e ∈ g.edges) :
    (∃ j k : Nat, g'.vertices[j]? = some a ∧ g'.vertices[k]? = some b ∧ p (j, k)) ↔
      ∃ j k : Nat, g.vertices[j]? = some a ∧ g.vertices[k]? = some b ∧ p (j, k) := by
  constructor
  · rintro ⟨j, k, hj, hk, hedge⟩
    obtain ⟨x, y, hx, hy⟩ := hg.wellFormed.exists_labels (hp _ hedge)
    obtain rfl := Option.some.inj ((h.keeps hx).symm.trans hj)
    obtain rfl := Option.some.inj ((h.keeps hy).symm.trans hk)
    exact ⟨j, k, hx, hy, hedge⟩
  · rintro ⟨j, k, hj, hk, hedge⟩
    exact ⟨j, k, h.keeps hj, h.keeps hk, hedge⟩

end PlayerPaths.Graph
