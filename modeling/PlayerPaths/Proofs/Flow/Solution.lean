import Mathlib.Algebra.BigOperators.Ring.List
import Mathlib.Algebra.Ring.Nat
import PlayerPaths.Flow.Solution
import PlayerPaths.Proofs.Flow.Cfg
import PlayerPaths.Proofs.Graph.Traversal

/-!
# The worklist finds the least solution

A problem is *lawful* when its states are ordered, its joins are least upper bounds and what flows
out of a node grows with what flows in. While the worklist runs, every node outside of it satisfies
its equation, no state is above its equation, and none is above any solution (`Progress`). A state
changes at most once per step of the height, and every change adds the sinks of the node, so the
bound on the steps is enough to empty the worklist (`iterate_settles`).
-/

namespace PlayerPaths

open Std

/-! ## Schedules -/

namespace FlowProblem

variable {S : Type}

theorem head_has {c : Cfg} {n : FlowNode} (h : c.head = .ok n) : c.Has n := by
  simp only [Cfg.head] at h
  split at h
  · next n' hn =>
    obtain rfl := Except.ok.inj h
    have hmem : n' ∈ c.graph.heads.map Prod.snd := by
      rcases Option.or_eq_some_iff.mp hn with hfind | ⟨-, hhead⟩
      · exact List.mem_of_find?_eq_some hfind
      · exact List.mem_of_mem_head? hhead
    obtain ⟨⟨i, label⟩, hi, rfl⟩ := List.mem_map.mp hmem
    exact ⟨i, TreeMap.mem_toList_iff_getElem?_eq_some.mp (List.mem_filter.mp hi).1⟩
  · simp at h

/-- The schedule has every node, and no more entries than there are nodes. -/
theorem schedule_complete {c : Cfg} (hc : c.Valid) {d : Direction} {queue : List Nat}
    (h : schedule c d = .ok queue) :
    queue.length ≤ c.graph.vertexCount ∧ ∀ i ∈ c.graph.vertices, i ∈ queue := by
  simp only [schedule, bind_eq_ok] at h
  obtain ⟨n, hn, h⟩ := h
  split at h
  · next hnone => exact absurd (head_has hn) (hc.index?_eq_none.mp hnone)
  · next i hi =>
    simp only [bind_eq_ok, pure_eq_ok, Graph.preOrder] at h
    obtain ⟨order, horder, rfl⟩ := h
    split at horder
    · obtain rfl := Except.ok.inj horder
      obtain ⟨hnodup, hsub⟩ := depthFirst_nodup id (Graph.neighbours c.graph.successorsOf)
        (TreeMap.nodup_keys (t := c.graph.vertices)) [i]
      generalize depthFirst id _ _ [i] = order at hnodup hsub
      rw [List.map_id] at hnodup
      -- Against the flow, the order is only reversed.
      have hentries : ∀ first : List Nat, first.Perm order →
          (first ++ c.graph.vertices.keys.filter (· ∉ first)).length ≤ c.graph.vertexCount ∧
            ∀ i ∈ c.graph.vertices, i ∈ first ++ c.graph.vertices.keys.filter (· ∉ first) := by
        intro first hperm
        refine ⟨?_, fun i hi => ?_⟩
        · rw [Graph.vertexCount, ← TreeMap.length_keys]
          refine (List.subperm_of_subset ?_ ?_).length_le
          · refine List.nodup_append.mpr ⟨hperm.nodup_iff.mpr hnodup,
              TreeMap.nodup_keys.filter _, ?_⟩
            rintro a ha _ hb rfl
            simpa [ha] using (List.mem_filter.mp hb).2
          · intro a ha
            rcases List.mem_append.mp ha with ha | ha
            · exact hsub a (hperm.mem_iff.mp ha)
            · exact (List.mem_filter.mp ha).1
        · by_cases hfirst : i ∈ first
          · exact List.mem_append_left _ hfirst
          · refine List.mem_append_right _ (List.mem_filter.mpr ⟨TreeMap.mem_keys.mpr hi, ?_⟩)
            simpa using hfirst
      cases d with
      | forward => exact hentries order (List.Perm.refl _)
      | backward => exact hentries order.reverse order.reverse_perm
    · simp at horder

/-- A graph with a head has a schedule. -/
theorem exists_schedule {c : Cfg} (hc : c.Valid) {n : FlowNode} (h : c.head = .ok n)
    (d : Direction) : ∃ queue, schedule c d = .ok queue := by
  obtain ⟨i, hi⟩ := head_has h
  have hvertex : c.graph.hasVertex i = true :=
    TreeMap.contains_iff_mem.mpr (mem_iff_exists_getElem?.mpr ⟨n, hi⟩)
  obtain ⟨order, horder⟩ : ∃ order, c.graph.preOrder i = .ok order :=
    ⟨_, by rw [Graph.preOrder, if_pos hvertex]⟩
  simp only [schedule, h, bind, Except.bind, hc.index?_eq_some.mpr hi, horder]
  exact ⟨_, rfl⟩

theorem exists_solve [DecidableEq S] (p : FlowProblem S) {c : Cfg} (hc : c.Valid) {n : FlowNode}
    (h : c.head = .ok n) (d : Direction) : ∃ states, p.solve c d = .ok states := by
  obtain ⟨queue, hqueue⟩ := exists_schedule hc h d
  rw [solve, hqueue]
  exact ⟨_, rfl⟩

/-! ## Joins -/

/-- What a join has exactly when one of its parts has it, the join of the known states has exactly
when one of them does. -/
theorem joinAt_has {p : FlowProblem S} {P : S → Prop}
    (hjoin : ∀ a b, P (p.join a b) ↔ P a ∨ P b) {states : FlowStates S} {indices : List Nat} :
    (∃ joined ∈ p.joinAt states indices, P joined) ↔
      ∃ i ∈ indices, ∃ a, states[i]? = some a ∧ P a := by
  have hfold (f : Option S → S → Option S)
      (hf : ∀ acc a, (∃ joined ∈ f acc a, P joined) ↔ (∃ b ∈ acc, P b) ∨ P a) (l : List S)
      (acc : Option S) :
      (∃ joined ∈ l.foldl f acc, P joined) ↔ (∃ a ∈ acc, P a) ∨ ∃ a ∈ l, P a := by
    induction l generalizing acc with
    | nil => simp
    | cons a l ih => rw [List.foldl_cons, ih, hf, List.exists_mem_cons_iff, or_assoc]
  refine (hfold _ (fun acc a => ?_) (indices.filterMap fun i => states[i]?) none).trans ?_
  · cases acc with
    | none => simp
    | some b => simp [hjoin]
  simp only [Option.mem_def, reduceCtorEq, false_and, exists_false, false_or, List.mem_filterMap]
  constructor
  · rintro ⟨a, ⟨i, hi, ha⟩, hhas⟩
    exact ⟨i, hi, a, ha, hhas⟩
  · rintro ⟨i, hi, a, ha, hhas⟩
    exact ⟨a, ⟨i, hi, ha⟩, hhas⟩

/-! ## Lawful problems -/

/-- An order on the states for which the problem has least solutions on a graph. Only valid states
need to obey it. -/
structure Lawful (p : FlowProblem S) (c : Cfg) where
  valid : S → Prop
  le : S → S → Prop
  /-- The length of the longest chain below a state. -/
  rank : S → Nat
  refl : ∀ {a}, valid a → le a a
  trans : ∀ {a b c}, le a b → le b c → le a c
  valid_join : ∀ {a b}, valid a → valid b → valid (p.join a b)
  le_join_left : ∀ {a b}, valid a → valid b → le a (p.join a b)
  le_join_right : ∀ {a b}, valid a → valid b → le b (p.join a b)
  join_le : ∀ {a b c}, valid a → valid b → valid c → le a c → le b c → le (p.join a b) c
  valid_transfer : ∀ {n} {s : Option S}, c.Has n → (∀ a ∈ s, valid a) → valid (p.transfer n s)
  /-- Nothing flowing in counts as the least state. -/
  transfer_le : ∀ {n} {s t : Option S}, c.Has n → (∀ a ∈ s, valid a) → (∀ b ∈ t, valid b) →
    (∀ a ∈ s, ∃ b ∈ t, le a b) → le (p.transfer n s) (p.transfer n t)
  rank_le : ∀ {a}, valid a → rank a ≤ p.height
  rank_lt : ∀ {a b}, valid a → valid b → le a b → a ≠ b → rank a < rank b

namespace Lawful

variable {p : FlowProblem S} {c : Cfg} (L : p.Lawful c)

/-- Below another state, if there is a state at all. -/
def Below (s t : Option S) : Prop := ∀ a ∈ s, ∃ b ∈ t, L.le a b

def ValidStates (states : FlowStates S) : Prop := ∀ (i : Nat) a, states[i]? = some a → L.valid a

variable {L}

theorem Below.refl {s : Option S} (h : ∀ a ∈ s, L.valid a) : L.Below s s :=
  fun a ha => ⟨a, ha, L.refl (h a ha)⟩

theorem foldl_join {vs : List S} (hvs : ∀ a ∈ vs, L.valid a) (acc : Option S)
    (hacc : ∀ a ∈ acc, L.valid a) {r : Option S}
    (h : vs.foldl (fun joined s =>
      match joined with
      | none => some s
      | some t => some (p.join t s)) acc = r) :
    (∀ a ∈ r, L.valid a) ∧ L.Below acc r ∧ (∀ a ∈ vs, ∃ b ∈ r, L.le a b) ∧
      ∀ u, L.valid u → (∀ a ∈ acc, L.le a u) → (∀ a ∈ vs, L.le a u) → ∀ b ∈ r, L.le b u := by
  induction vs generalizing acc with
  | nil =>
      obtain rfl : acc = r := h
      exact ⟨hacc, .refl hacc, by simp, fun u _ ha _ => ha⟩
  | cons v vs ih =>
      obtain ⟨hv, hvs⟩ := List.forall_mem_cons.mp hvs
      rw [List.foldl_cons] at h
      cases acc with
      | none =>
          obtain ⟨hvalid, hacc', hall, hleast⟩ := ih hvs (some v) (by simpa using hv) h
          refine ⟨hvalid, by simp [Below], ?_, fun u hu _ hle => ?_⟩
          · exact List.forall_mem_cons.mpr ⟨hacc' v rfl, hall⟩
          · obtain ⟨hvu, hvsu⟩ := List.forall_mem_cons.mp hle
            exact hleast u hu (by simpa using hvu) hvsu
      | some t =>
          have ht : L.valid t := hacc t rfl
          obtain ⟨hvalid, hacc', hall, hleast⟩ :=
            ih hvs (some (p.join t v)) (by simpa using L.valid_join ht hv) h
          obtain ⟨b, hb, hle⟩ := hacc' _ rfl
          refine ⟨hvalid, ?_, ?_, fun u hu htu hle => ?_⟩
          · rintro a ⟨⟩
            exact ⟨b, hb, L.trans (L.le_join_left ht hv) hle⟩
          · exact List.forall_mem_cons.mpr ⟨⟨b, hb, L.trans (L.le_join_right ht hv) hle⟩, hall⟩
          · obtain ⟨hvu, hvsu⟩ := List.forall_mem_cons.mp hle
            refine hleast u hu ?_ hvsu
            rintro a ⟨⟩
            exact L.join_le ht hv hu (htu t rfl) hvu

variable {states states' : FlowStates S} {indices : List Nat}

/-- The join of the known states is their least upper bound. -/
theorem joinAt_lub (h : L.ValidStates states) (indices : List Nat) :
    (∀ a ∈ p.joinAt states indices, L.valid a) ∧
      (∀ i ∈ indices, L.Below states[i]? (p.joinAt states indices)) ∧
      ∀ u, L.valid u → (∀ i ∈ indices, ∀ a, states[i]? = some a → L.le a u) →
        ∀ b ∈ p.joinAt states indices, L.le b u := by
  have hvs : ∀ a ∈ indices.filterMap fun i => states[i]?, L.valid a := by
    intro a ha
    obtain ⟨i, -, hi⟩ := List.mem_filterMap.mp ha
    exact h i a hi
  obtain ⟨hvalid, -, hall, hleast⟩ := foldl_join hvs none (by simp) rfl
  refine ⟨hvalid, fun i hi a ha => ?_, fun u hu hle => ?_⟩
  · exact hall a (List.mem_filterMap.mpr ⟨i, hi, ha⟩)
  · refine hleast u hu (by simp) fun a ha => ?_
    obtain ⟨i, hi, ha⟩ := List.mem_filterMap.mp ha
    exact hle i hi a ha

/-- Something flows in when some source has a state. -/
theorem joinAt_ne_none {b : S} (h : b ∈ p.joinAt states indices) :
    ∃ i ∈ indices, ∃ a, states[i]? = some a := by
  by_contra hnone
  have hempty : indices.filterMap (fun i => states[i]?) = [] := by
    rw [List.filterMap_eq_nil_iff]
    intro i hi
    rw [Option.eq_none_iff_forall_ne_some]
    exact fun a ha => hnone ⟨i, hi, a, ha⟩
  rw [joinAt, hempty] at h
  simp at h

/-- Greater states have a greater join. -/
theorem joinAt_mono (h : L.ValidStates states) (h' : L.ValidStates states')
    (hle : ∀ i ∈ indices, L.Below states[i]? states'[i]?) :
    L.Below (p.joinAt states indices) (p.joinAt states' indices) := by
  intro b hb
  obtain ⟨hvalid', hupper, -⟩ := joinAt_lub h' indices
  obtain ⟨-, -, hleast⟩ := joinAt_lub h indices
  obtain ⟨i, hi, a, ha⟩ := joinAt_ne_none hb
  obtain ⟨a', ha', -⟩ := hle i hi a ha
  obtain ⟨u, hu, -⟩ := hupper i hi a' ha'
  refine ⟨u, hu, hleast u (hvalid' u hu) (fun j hj a ha => ?_) b hb⟩
  obtain ⟨a', ha', hale⟩ := hle j hj a ha
  obtain ⟨u', hu', hle'⟩ := hupper j hj a' ha'
  obtain rfl := Option.some.inj (hu.symm.trans hu')
  exact L.trans hale hle'

end Lawful

/-! ## The worklist -/

section

variable {c : Cfg} {d : Direction} {i j : Nat}

/-- States come from where they go to. -/
theorem mem_sources_iff (hc : c.Valid) : j ∈ sources c d i ↔ i ∈ sinks c d j := by
  cases d with
  | forward => exact (hc.wellFormed.predecessors_iff j i).trans (hc.wellFormed.successors_iff j i).symm
  | backward => exact (hc.wellFormed.successors_iff i j).trans (hc.wellFormed.predecessors_iff i j).symm

/-- There are no more sinks altogether than edges. -/
theorem sum_sinks_le (hc : c.Valid) (d : Direction) :
    (c.graph.vertices.keys.map fun i => (sinks c d i).length).sum ≤ c.graph.edgeCount := by
  cases d with
  | forward =>
      refine Graph.sum_neighbours_le Prod.mk
        (fun i => (hc.wellFormed.successors_increasing i).nodup) ?_ ?_ _ TreeMap.nodup_keys
      · exact fun a b c d h => Prod.mk.inj h
      · exact fun i j hj => (hc.wellFormed.successors_iff i j).mp hj
  | backward =>
      refine Graph.sum_neighbours_le (fun i j => (j, i))
        (fun i => (hc.wellFormed.predecessors_increasing i).nodup) ?_ ?_ _ TreeMap.nodup_keys
      · exact fun a b c d h => (Prod.mk.inj h).symm
      · exact fun i j hj => (hc.wellFormed.predecessors_iff j i).mp hj

end

/-- The state that flows out of a node, given the states of the others. -/
def out (p : FlowProblem S) (c : Cfg) (d : Direction) (states : FlowStates S) (i : Nat)
    (n : FlowNode) : S :=
  p.transfer n (p.joinAt states (sources c d i))

/-- The loop without a bound on its steps: from a queue and states it ends with `final`. -/
inductive Settles (p : FlowProblem S) (c : Cfg) (d : Direction) :
    (queue : List Nat) → (states final : FlowStates S) → Prop where
  | done {states} : Settles p c d [] states states
  | skip {i queue states final} (hi : c.graph.vertices[i]? = none)
      (h : Settles p c d queue states final) : Settles p c d (i :: queue) states final
  | keep {i n queue states final} (hn : c.graph.vertices[i]? = some n)
      (hkeep : states[i]? = some (p.out c d states i n))
      (h : Settles p c d queue states final) : Settles p c d (i :: queue) states final
  | change {i n queue states final} (hn : c.graph.vertices[i]? = some n)
      (hchange : states[i]? ≠ some (p.out c d states i n))
      (h : Settles p c d (queue ++ (sinks c d i).filter (· ∉ queue))
        (states.insert i (p.out c d states i n)) final) :
      Settles p c d (i :: queue) states final

namespace Lawful

variable {p : FlowProblem S} {c : Cfg} (L : p.Lawful c) (d : Direction)

/-- Every node has a state that is not below what flows out of it. -/
structure Closed (X : FlowStates S) : Prop where
  valid : L.ValidStates X
  above : ∀ {i : Nat} {n}, c.graph.vertices[i]? = some n →
    ∃ b, X[i]? = some b ∧ L.le (p.out c d X i n) b

/-- What holds while the worklist runs. -/
structure Progress (queue : List Nat) (states : FlowStates S) : Prop where
  valid : L.ValidStates states
  known : ∀ {i : Nat} {a}, states[i]? = some a → i ∈ c.graph.vertices
  below : ∀ {i : Nat} {a n}, states[i]? = some a → c.graph.vertices[i]? = some n →
    L.le a (p.out c d states i n)
  settled : ∀ {i : Nat} {n}, c.graph.vertices[i]? = some n → i ∉ queue →
    states[i]? = some (p.out c d states i n)
  least : ∀ {X : FlowStates S}, L.Closed d X → ∀ i : Nat, L.Below states[i]? X[i]?

variable {L d} {queue : List Nat} {states : FlowStates S} {i : Nat} {n : FlowNode}

theorem valid_out (hn : c.Has n) (h : L.ValidStates states) : L.valid (p.out c d states i n) :=
  L.valid_transfer hn (joinAt_lub h _).1

theorem out_mono {states' : FlowStates S} (hn : c.Has n) (h : L.ValidStates states)
    (h' : L.ValidStates states') (hle : ∀ j : Nat, L.Below states[j]? states'[j]?) :
    L.le (p.out c d states i n) (p.out c d states' i n) :=
  L.transfer_le hn (joinAt_lub h _).1 (joinAt_lub h' _).1 (joinAt_mono h h' fun j _ => hle j)

/-- What flows out of a node only depends on its sources. -/
theorem out_insert {a : S} (hi : i ∉ sources c d j) :
    p.out c d (states.insert i a) j n = p.out c d states j n := by
  have hfilter : (sources c d j).filterMap (fun k => (states.insert i a)[k]?) =
      (sources c d j).filterMap (fun k => states[k]?) := by
    refine List.filterMap_congr fun k hk => ?_
    have hne : i ≠ k := by
      rintro rfl
      exact hi hk
    simp [TreeMap.getElem?_insert, hne]
  rw [out, out, joinAt, joinAt, hfilter]

theorem progress_empty (hqueue : ∀ i ∈ c.graph.vertices, i ∈ queue) :
    L.Progress d queue ∅ where
  valid := by simp [ValidStates]
  known := by simp
  below := by simp
  settled := fun hn hi => absurd (hqueue _ (mem_iff_exists_getElem?.mpr ⟨_, hn⟩)) hi
  least := by simp [Below]

/-- An entry that is no node is dropped. -/
theorem Progress.skip (h : L.Progress d (i :: queue) states) (hi : c.graph.vertices[i]? = none) :
    L.Progress d queue states := by
  refine { h with settled := fun {j m} hm hj => h.settled hm ?_ }
  rintro (_ | ⟨_, hj'⟩)
  · rw [hi] at hm
    cases hm
  · exact hj hj'

/-- A node whose state satisfies its equation is dropped. -/
theorem Progress.keep (h : L.Progress d (i :: queue) states)
    (hn : c.graph.vertices[i]? = some n) (hi : states[i]? = some (p.out c d states i n)) :
    L.Progress d queue states := by
  refine { h with settled := fun {j m} hm hj => ?_ }
  by_cases hij : j = i
  · subst hij
    obtain rfl := Option.some.inj (hn.symm.trans hm)
    exact hi
  · exact h.settled hm (by simp [hij, hj])

/-- A node gets what flows out of it as its state, and its sinks are looked at again. -/
theorem Progress.change (hc : c.Valid) (h : L.Progress d (i :: queue) states)
    (hn : c.graph.vertices[i]? = some n) :
    L.Progress d (queue ++ (sinks c d i).filter (· ∉ queue))
      (states.insert i (p.out c d states i n)) := by
  have hget : ∀ j : Nat, (states.insert i (p.out c d states i n))[j]? =
      if i = j then some (p.out c d states i n) else states[j]? := by
    intro j
    simp [TreeMap.getElem?_insert]
  have hvalid : L.ValidStates (states.insert i (p.out c d states i n)) := by
    intro j a ha
    rw [hget] at ha
    split at ha
    · obtain rfl := Option.some.inj ha
      exact valid_out ⟨i, hn⟩ h.valid
    · exact h.valid j a ha
  have hle : ∀ j : Nat, L.Below states[j]? (states.insert i (p.out c d states i n))[j]? := by
    intro j a ha
    rw [hget]
    split
    · next hij =>
      subst hij
      exact ⟨_, rfl, h.below ha hn⟩
    · exact Below.refl (fun a ha => h.valid j a ha) a ha
  refine ⟨hvalid, ?_, ?_, ?_, ?_⟩
  · intro j a ha
    rw [hget] at ha
    split at ha
    · next hij => exact hij ▸ mem_iff_exists_getElem?.mpr ⟨n, hn⟩
    · exact h.known ha
  · intro j a m ha hm
    rw [hget] at ha
    split at ha
    · next hij =>
      subst hij
      obtain rfl := Option.some.inj ha
      obtain rfl := Option.some.inj (hn.symm.trans hm)
      exact out_mono ⟨i, hn⟩ h.valid hvalid hle
    · exact L.trans (h.below ha hm) (out_mono ⟨j, hm⟩ h.valid hvalid hle)
  · -- A node outside of the new queue has no source whose state has changed.
    intro j m hm hj
    simp only [List.mem_append, List.mem_filter, decide_eq_true_eq, not_or, not_and,
      not_not] at hj
    have hsource : i ∉ sources c d j := fun hi => hj.1 (hj.2 ((mem_sources_iff hc).mp hi))
    rw [out_insert hsource, hget]
    split
    · next hij =>
      subst hij
      obtain rfl := Option.some.inj (hn.symm.trans hm)
      rfl
    · next hij => exact h.settled hm (by simp [Ne.symm hij, hj.1])
  · intro X hX j a ha
    rw [hget] at ha
    split at ha
    · next hij =>
      subst hij
      obtain rfl := Option.some.inj ha
      obtain ⟨b, hb, hle⟩ := hX.above hn
      exact ⟨b, hb, L.trans (out_mono ⟨i, hn⟩ h.valid hX.valid (h.least hX)) hle⟩
    · exact h.least hX j a ha

/-! ## The number of steps -/

variable (L d)

/-- How far a state has come. -/
def level : Option S → Nat
  | none => 0
  | some a => L.rank a + 1

/-- How often the sinks of a node may still be looked at again. -/
def remainingAt (states : FlowStates S) (i : Nat) : Nat :=
  (p.height + 1 - L.level states[i]?) * (sinks c d i).length

def remaining (states : FlowStates S) : Nat :=
  (c.graph.vertices.keys.map (L.remainingAt d states)).sum

variable {L d}

/-- A change uses up one visit of every sink. -/
theorem remaining_insert {a : S} (h : L.Progress d (i :: queue) states)
    (hn : c.graph.vertices[i]? = some n) (ha : a = p.out c d states i n)
    (hchange : states[i]? ≠ some a) :
    L.remaining d (states.insert i a) + (sinks c d i).length ≤ L.remaining d states := by
  have hmem : i ∈ c.graph.vertices.keys :=
    TreeMap.mem_keys.mpr (mem_iff_exists_getElem?.mpr ⟨n, hn⟩)
  have hvalid : L.valid a := ha ▸ valid_out ⟨i, hn⟩ h.valid
  have hlevel : L.level states[i]? < L.rank a + 1 := by
    cases hi : states[i]? with
    | none => exact Nat.succ_pos _
    | some b =>
        have hne : b ≠ a := fun heq => hchange (by rw [hi, heq])
        exact Nat.succ_lt_succ (L.rank_lt (h.valid i b hi) hvalid (ha ▸ h.below hi hn) hne)
  have hself : L.remainingAt d (states.insert i a) i + (sinks c d i).length ≤
      L.remainingAt d states i := by
    have hrank := L.rank_le hvalid
    have hnew : L.level (some a) = L.rank a + 1 := rfl
    rw [remainingAt, remainingAt, TreeMap.getElem?_insert_self, hnew, ← Nat.succ_mul]
    exact Nat.mul_le_mul_right _ (by omega)
  have hothers : ∀ j ∈ c.graph.vertices.keys.erase i,
      L.remainingAt d (states.insert i a) j = L.remainingAt d states j := by
    intro j hj
    have hne : i ≠ j := by
      rintro rfl
      exact TreeMap.nodup_keys.not_mem_erase hj
    simp [remainingAt, TreeMap.getElem?_insert, hne]
  have hperm := List.perm_cons_erase hmem
  rw [remaining, remaining, (hperm.map _).sum_nat, (hperm.map _).sum_nat, List.map_cons,
    List.map_cons, List.sum_cons, List.sum_cons, List.map_congr_left hothers]
  omega

/-- The bound on the steps does not cut the loop short. -/
theorem iterate_settles [DecidableEq S] (hc : c.Valid) {fuel : Nat}
    (h : L.Progress d queue states) (hfuel : queue.length + L.remaining d states ≤ fuel) :
    p.Settles c d queue states (p.iterate c d fuel queue states) := by
  induction fuel generalizing queue states with
  | zero =>
      obtain rfl : queue = [] := List.length_eq_zero_iff.mp (by omega)
      exact .done
  | succ fuel ih =>
      cases queue with
      | nil => exact .done
      | cons i queue =>
          rw [List.length_cons] at hfuel
          unfold iterate
          split
          · next hi => exact .skip hi (ih (h.skip hi) (by omega))
          · next n hn =>
            dsimp only
            split
            · next hkeep => exact .keep hn hkeep (ih (h.keep hn hkeep) (by omega))
            · next hchange =>
              refine .change hn hchange (ih (h.change hc hn) ?_)
              have hremaining := remaining_insert h hn rfl hchange
              have hnew := List.length_filter_le (· ∉ queue) (sinks c d i)
              rw [List.length_append]
              omega

theorem Progress.settles [DecidableEq S] (hc : c.Valid) {final : FlowStates S}
    (h : L.Progress d queue states) (hrun : p.Settles c d queue states final) :
    L.Progress d [] final := by
  induction hrun with
  | done => exact h
  | skip hi _ ih => exact ih (h.skip hi)
  | keep hn hkeep _ ih => exact ih (h.keep hn hkeep)
  | change hn _ _ ih => exact ih (h.change hc hn)

/-- From its schedule, the loop ends with what the solver gives. -/
theorem solve_settles [DecidableEq S] (L : p.Lawful c) (hc : c.Valid)
    (h : p.solve c d = .ok states) :
    ∃ queue, schedule c d = .ok queue ∧ L.Progress d queue ∅ ∧ p.Settles c d queue ∅ states := by
  simp only [solve, bind_eq_ok, pure_eq_ok] at h
  obtain ⟨queue, hqueue, rfl⟩ := h
  obtain ⟨hlength, hcomplete⟩ := schedule_complete hc hqueue
  have hempty : L.Progress d queue ∅ := progress_empty hcomplete
  refine ⟨queue, hqueue, hempty, iterate_settles hc hempty ?_⟩
  have hremaining : L.remaining d ∅ ≤ (p.height + 1) * c.graph.edgeCount := by
    have hall : c.graph.vertices.keys.map (L.remainingAt d ∅) =
        c.graph.vertices.keys.map fun i => (p.height + 1) * (sinks c d i).length := by
      simp [remainingAt, level]
    rw [remaining, hall, List.sum_map_mul_left]
    exact Nat.mul_le_mul_left _ (sum_sinks_le hc d)
  rw [stepBound]
  omega

/-- **The solver finds the least solution.** When it ends, every node satisfies its equation. -/
theorem solve_progress [DecidableEq S] (L : p.Lawful c) (hc : c.Valid)
    (h : p.solve c d = .ok states) : L.Progress d [] states := by
  obtain ⟨queue, -, hempty, hrun⟩ := L.solve_settles hc h
  exact hempty.settles hc hrun

end Lawful

end FlowProblem

end PlayerPaths
