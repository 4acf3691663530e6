import PlayerPaths.Flow.Reaching
import PlayerPaths.Proofs.Flow.Paths
import PlayerPaths.Proofs.Flow.Solution

/-!
# Reaching definitions are exact

A definition arrives at a node when a path of at least one edge leads there from the store and no
node strictly between the two stores to the variable (`Definition.Arrives`). What flows into a node
is what arrives there: on the one hand a definition flows along such a path from node to node, on
the other hand the sets of what arrives solve the equations, and the worklist finds the least
solution. The sets have no more elements than the graph has nodes, since a node stores to one
variable at most (`reachingLawful`), so the worklist ends for every method that has a graph
(`reachingDefinitions_exact`).
-/

namespace PlayerPaths

open IL Std

/-! ## The order of definitions -/

namespace FlowNode

/-- Everything that tells nodes apart, the more significant first. -/
def parts : FlowNode → Nat × String × Nat × Nat × String
  | instruction n => (3, n.method, n.location.block, n.location.index, n.text)
  | n => (n.rank, "", 0, 0, "")

theorem parts_inj {a b : FlowNode} (h : a.parts = b.parts) : a = b := by
  rcases a with _ | _ | _ | ⟨method, ⟨block, index⟩, text⟩ <;>
    rcases b with _ | _ | _ | ⟨method', ⟨block', index'⟩, text'⟩ <;>
    simp_all [parts, rank]

/-- The order of nodes compares their parts one after another. -/
theorem order_eq : order = compareLex (compareOn fun n => n.parts.1)
    (compareLex (compareOn fun n => n.parts.2.1)
      (compareLex (compareOn fun n => n.parts.2.2.1)
        (compareLex (compareOn fun n => n.parts.2.2.2.1)
          (compareOn fun n => n.parts.2.2.2.2)))) := by
  funext a b
  have hsentinel : ∀ i < 3, compare i 3 = .lt ∧ compare 3 i = .gt := by
    intro i hi
    exact ⟨Nat.compare_eq_lt.mpr hi, Nat.compare_eq_gt.mpr hi⟩
  rcases a with _ | _ | _ | a <;> rcases b with _ | _ | _ | b <;>
    simp [order, InstructionNode.order, Location.order, compareLex, compareOn, parts, rank,
      Ordering.then_assoc, hsentinel]

end FlowNode

namespace Definition

theorem order_eq : order = compareLex (compareOn variableName)
    (compareLex (compareOn fun d => d.node.parts.1)
      (compareLex (compareOn fun d => d.node.parts.2.1)
        (compareLex (compareOn fun d => d.node.parts.2.2.1)
          (compareLex (compareOn fun d => d.node.parts.2.2.2.1)
            (compareOn fun d => d.node.parts.2.2.2.2))))) := by
  funext a b
  simp only [order, FlowNode.order_eq, compareLex, compareOn]

instance : TransCmp order := by
  rw [order_eq]
  infer_instance

instance : LawfulEqCmp order where
  compare_self {d} := by
    rw [order_eq]
    exact ReflCmp.compare_self
  eq_of_compare {a b} h := by
    simp only [order_eq, compareLex, compareOn, Ordering.then_eq_eq, LawfulEqCmp.compare_eq_iff_eq]
      at h
    obtain ⟨hname, hnode⟩ := h
    have hnode : a.node = b.node := FlowNode.parts_inj (by simp [Prod.ext_iff, hnode])
    cases a
    cases b
    simp_all

end Definition

/-! ## What arrives at a node -/

def StoresTo (b : Body) (n : FlowNode) (x : String) : Prop :=
  ∃ v, storedVariable? b n = some v ∧ v.name = x

namespace Cfg

variable {c : Cfg} {a k n : FlowNode} {ns : List FlowNode}

/-- The last edge of a path that has one. -/
theorem Path.last_edge (h : c.Path a (ns ++ [k, n]) n) :
    c.Path a (ns ++ [k]) k ∧ c.HasEdge k n := by
  induction ns generalizing a with
  | nil =>
      cases h with
      | step edge rest =>
          obtain ⟨ms, hms⟩ := rest.exists_tail
          obtain ⟨rfl, -⟩ := List.cons.inj hms
          exact ⟨.here edge.source, edge⟩
  | cons x ns ih =>
      rw [List.cons_append] at h
      generalize hrest : ns ++ [k, n] = rest at h
      cases h with
      | here => simp at hrest
      | step edge rest =>
          obtain ⟨hpath, hedge⟩ := ih (hrest ▸ rest)
          exact ⟨.step edge hpath, hedge⟩

end Cfg

namespace Definition

/-- A definition arrives at a node along a path with at least one edge, on which no node strictly
between the two stores to the variable. -/
structure Arrives (b : Body) (c : Cfg) (d : Definition) (n : FlowNode) : Prop where
  stores : StoresTo b d.node d.variableName
  path : ∃ between, c.Path d.node (d.node :: between ++ [n]) n ∧
    ∀ k ∈ between, ¬ StoresTo b k d.variableName

/-- A definition leaves the node that stores it, and every other one that it arrives at and that
does not store to the variable. -/
def Leaves (b : Body) (c : Cfg) (d : Definition) (n : FlowNode) : Prop :=
  d.node = n ∧ StoresTo b n d.variableName ∨
    d.Arrives b c n ∧ ¬ StoresTo b n d.variableName

variable {b : Body} {c : Cfg} {d : Definition} {k n : FlowNode}

/-- What leaves a node arrives where an edge leads to. -/
theorem Leaves.arrives (h : d.Leaves b c k) (edge : c.HasEdge k n) : d.Arrives b c n := by
  rcases h with ⟨rfl, hstores⟩ | ⟨⟨hstores, between, hpath, hfree⟩, hk⟩
  · exact ⟨hstores, [], .step edge (.here edge.target), by simp⟩
  · refine ⟨hstores, between ++ [k], ?_, fun k' hk' => ?_⟩
    · rw [← List.cons_append]
      exact hpath.snoc edge
    · rcases List.mem_append.mp hk' with hk' | hk'
      · exact hfree k' hk'
      · exact List.mem_singleton.mp hk' ▸ hk

/-- Induction along the path on which a definition arrives. -/
theorem Arrives.along {p : FlowNode → Prop} (h : d.Arrives b c n)
    (first : ∀ n, c.HasEdge d.node n → p n)
    (next : ∀ k n, c.HasEdge k n → ¬ StoresTo b k d.variableName → p k → p n) : p n := by
  obtain ⟨-, between, hpath, hfree⟩ := h
  obtain ⟨back, rfl⟩ : ∃ back : List FlowNode, between = back.reverse :=
    ⟨between.reverse, by rw [List.reverse_reverse]⟩
  -- The path is taken apart at its end, where the definition arrives.
  induction back generalizing n with
  | nil =>
      have hpath : c.Path d.node ([] ++ [d.node, n]) n := hpath
      exact first n hpath.last_edge.2
  | cons k back ih =>
      have hpath : c.Path d.node ((d.node :: back.reverse) ++ [k, n]) n := by simpa using hpath
      obtain ⟨hpath, hedge⟩ := hpath.last_edge
      refine next k n hedge (hfree k (by simp)) (ih hpath fun k' hk' => hfree k' ?_)
      rw [List.reverse_cons]
      exact List.mem_append_left _ hk'

end Definition

/-! ## The problem is lawful -/

def bodyDefinitions (b : Body) (c : Cfg) : List Definition :=
  c.graph.vertexList.filterMap fun (_, n) => (storedVariable? b n).map fun v => ⟨v.name, n⟩

section

variable {b : Body} {c : Cfg} {d : Definition} {n : FlowNode}

theorem length_bodyDefinitions_le : (bodyDefinitions b c).length ≤ c.graph.vertexCount := by
  rw [Graph.vertexCount, ← TreeMap.length_toList]
  exact List.length_filterMap_le _ _

theorem mem_bodyDefinitions :
    d ∈ bodyDefinitions b c ↔ c.Has d.node ∧ StoresTo b d.node d.variableName := by
  simp only [bodyDefinitions, Graph.vertexList, List.mem_filterMap, Option.map_eq_some_iff,
    Prod.exists, TreeMap.mem_toList_iff_getElem?_eq_some]
  constructor
  · rintro ⟨i, n, hn, v, hv, rfl⟩
    exact ⟨⟨i, hn⟩, v, hv, rfl⟩
  · rintro ⟨⟨i, hn⟩, v, hv, hname⟩
    exact ⟨i, d.node, hn, v, hv, by rw [hname]⟩

/-- A store replaces the definitions of its variable, and other nodes leave them alone. -/
theorem mem_transfer_reaching {state : Option (List Definition)} :
    d ∈ (reachingProblem b c).transfer n state ↔
      d.node = n ∧ StoresTo b n d.variableName ∨
        d ∈ state.getD [] ∧ ¬ StoresTo b n d.variableName := by
  simp only [reachingProblem, StoresTo]
  cases hv : storedVariable? b n with
  | none => simp
  | some v =>
      simp only [Sorted.mem_insert, List.mem_filter, decide_eq_true_eq, Option.some.injEq,
        exists_eq_left', ne_comm (a := d.variableName)]
      constructor
      · rintro (rfl | h)
        · exact .inl ⟨rfl, rfl⟩
        · exact .inr h
      · rintro (⟨rfl, hname⟩ | h)
        · exact .inl (by rw [hname])
        · exact .inr h

theorem reaching_increasing {state : Option (List Definition)}
    (h : ∀ ds ∈ state, Sorted.Increasing Definition.order ds) :
    Sorted.Increasing Definition.order ((reachingProblem b c).transfer n state) := by
  have hstate : Sorted.Increasing Definition.order (state.getD []) := by
    cases state with
    | none => exact .nil
    | some ds => exact h ds rfl
  simp only [reachingProblem]
  split
  · exact Sorted.Increasing.insert (hstate.sublist List.filter_sublist) _
  · exact hstate

/-- Sets of definitions are ordered by inclusion. -/
def reachingLawful (b : Body) (c : Cfg) : (reachingProblem b c).Lawful c where
  valid ds := Sorted.Increasing Definition.order ds ∧ ds ⊆ bodyDefinitions b c
  le ds ds' := ds ⊆ ds'
  rank := List.length
  refl := fun _ => List.Subset.refl _
  trans := List.Subset.trans
  valid_join := fun {ds ds'} h h' => by
    refine ⟨h.1.union ds', fun d hd => ?_⟩
    exact (Sorted.mem_union.mp hd).elim (@h.2 d) (@h'.2 d)
  le_join_left := fun _ _ _ hd => Sorted.mem_union.mpr (.inl hd)
  le_join_right := fun _ _ _ hd => Sorted.mem_union.mpr (.inr hd)
  join_le := fun _ _ _ h h' d hd => (Sorted.mem_union.mp hd).elim (@h d) (@h' d)
  valid_transfer := fun {n state} hn hvalid => by
    refine ⟨reaching_increasing fun ds hds => (hvalid ds hds).1, fun d hd => ?_⟩
    rcases mem_transfer_reaching.mp hd with ⟨rfl, hstores⟩ | ⟨hd, -⟩
    · exact mem_bodyDefinitions.mpr ⟨hn, hstores⟩
    · cases state with
      | none => exact absurd hd List.not_mem_nil
      | some ds => exact (hvalid ds rfl).2 hd
  transfer_le := fun {n s t} _ _ _ hle d hd => by
    refine mem_transfer_reaching.mpr ((mem_transfer_reaching.mp hd).imp_right ?_)
    rintro ⟨hd, hn⟩
    cases s with
    | none => exact absurd hd List.not_mem_nil
    | some ds =>
        obtain ⟨ds', hds', hsub⟩ := hle ds rfl
        rw [Option.mem_def.mp hds']
        exact ⟨hsub hd, hn⟩
  rank_le := fun {ds} h =>
    ((List.subperm_of_subset h.1.nodup h.2).length_le).trans length_bodyDefinitions_le
  rank_lt := fun {ds ds'} h h' hle hne => by
    have hlength := (List.subperm_of_subset h.1.nodup hle).length_le
    exact Nat.lt_of_le_of_ne hlength fun hlen => hne (h.1.eq_of_subset h'.1 hle hlen.ge)

theorem mem_joinAt_reaching {states : FlowStates (List Definition)} {indices : List Nat} :
    d ∈ ((reachingProblem b c).joinAt states indices).getD [] ↔
      ∃ i ∈ indices, ∃ ds, states[i]? = some ds ∧ d ∈ ds := by
  rw [← FlowProblem.joinAt_has (p := reachingProblem b c) (P := fun ds => d ∈ ds)
    fun _ _ => Sorted.mem_union]
  cases (reachingProblem b c).joinAt states indices <;> simp

end

/-! ## What flows is what arrives -/

section

variable {b : Body} {c : Cfg} {d : Definition} {n : FlowNode} {i : Nat}
  {states : FlowStates (List Definition)}

/-- What flows out of a source flows into a node. -/
theorem mem_into_of_edge (hc : c.Valid) {j : Nat} {k : FlowNode} {ds : List Definition}
    (hk : c.graph.vertices[j]? = some k) (hn : c.graph.vertices[i]? = some n)
    (hds : states[j]? = some ds) (edge : c.HasEdge k n) (hd : d ∈ ds) :
    d ∈ ((reachingProblem b c).into c states i).getD [] := by
  obtain ⟨j', i', hj', hi', hedge⟩ := edge
  obtain rfl := hc.distinct hk hj'
  obtain rfl := hc.distinct hn hi'
  exact mem_joinAt_reaching.mpr
    ⟨j, (hc.wellFormed.predecessors_iff j i).mpr hedge, ds, hds, hd⟩

/-- A definition flows along the path on which it arrives. -/
theorem mem_into_of_arrives (hc : c.Valid)
    (hstates : (reachingLawful b c).Progress .forward [] states) (h : d.Arrives b c n)
    (hn : c.graph.vertices[i]? = some n) :
    d ∈ ((reachingProblem b c).into c states i).getD [] := by
  have hstores := h.stores
  revert i
  refine h.along (p := fun n => ∀ {i : Nat}, c.graph.vertices[i]? = some n →
    d ∈ ((reachingProblem b c).into c states i).getD []) ?_ ?_
  · intro n edge i hn
    obtain ⟨j, hj⟩ := edge.source
    refine mem_into_of_edge hc hj hn (hstates.settled hj List.not_mem_nil) edge ?_
    exact mem_transfer_reaching.mpr (.inl ⟨rfl, hstores⟩)
  · intro k n edge hfree hk i hn
    obtain ⟨j, hj⟩ := edge.source
    refine mem_into_of_edge hc hj hn (hstates.settled hj List.not_mem_nil) edge ?_
    exact mem_transfer_reaching.mpr (.inr ⟨hk hj, hfree⟩)

open scoped Classical in
noncomputable def leavingDefinitions (b : Body) (c : Cfg) (n : FlowNode) : List Definition :=
  Sorted.ofList Definition.order ((bodyDefinitions b c).filter fun d => d.Leaves b c n)

theorem mem_leavingDefinitions :
    d ∈ leavingDefinitions b c n ↔ d ∈ bodyDefinitions b c ∧ d.Leaves b c n := by
  classical
  rw [leavingDefinitions, Sorted.mem_ofList, List.mem_filter, decide_eq_true_eq]

/-- The definitions that leave the nodes solve the equations. -/
theorem leavingDefinitions_closed (hc : c.Valid) : (reachingLawful b c).Closed .forward
    (c.graph.vertices.map fun _ n => leavingDefinitions b c n) := by
  have hvalid : (reachingLawful b c).ValidStates
      (c.graph.vertices.map fun _ n => leavingDefinitions b c n) := by
    intro i ds hds
    rw [TreeMap.getElem?_map] at hds
    obtain ⟨n, -, rfl⟩ := Option.map_eq_some_iff.mp hds
    exact ⟨Sorted.increasing_ofList _, fun d hd => (mem_leavingDefinitions.mp hd).1⟩
  refine ⟨hvalid, fun {i n} hn => ⟨leavingDefinitions b c n, ?_, fun d hd => ?_⟩⟩
  · rw [TreeMap.getElem?_map, hn, Option.map_some]
  refine mem_leavingDefinitions.mpr ⟨(FlowProblem.Lawful.valid_out ⟨i, hn⟩ hvalid).2 hd, ?_⟩
  refine (mem_transfer_reaching.mp hd).imp_right (And.imp_left fun hd => ?_)
  obtain ⟨j, hj, ds, hds, hd⟩ := mem_joinAt_reaching.mp hd
  rw [TreeMap.getElem?_map] at hds
  obtain ⟨k, hk, rfl⟩ := Option.map_eq_some_iff.mp hds
  exact (mem_leavingDefinitions.mp hd).2.arrives
    ⟨j, i, hk, hn, (hc.wellFormed.predecessors_iff j i).mp hj⟩

/-- Only what leaves a source of a node flows into it. -/
theorem arrives_of_mem_into (hc : c.Valid)
    (hstates : (reachingLawful b c).Progress .forward [] states)
    (hn : c.graph.vertices[i]? = some n)
    (hd : d ∈ ((reachingProblem b c).into c states i).getD []) : d.Arrives b c n := by
  obtain ⟨j, hj, ds, hds, hd⟩ := mem_joinAt_reaching.mp hd
  obtain ⟨ds', hds', hle⟩ := hstates.least (leavingDefinitions_closed hc) j ds hds
  rw [TreeMap.getElem?_map] at hds'
  obtain ⟨k, hk, rfl⟩ := Option.map_eq_some_iff.mp hds'
  exact (mem_leavingDefinitions.mp (hle hd)).2.arrives
    ⟨j, i, hk, hn, (hc.wellFormed.predecessors_iff j i).mp hj⟩

end

/-- **Reaching definitions are exact.** For every method that has a graph they list its nodes, each
with precisely the definitions that arrive at it. -/
theorem reachingDefinitions_exact {m : Method} {c : Cfg} (h : Cfg.ofMethod m = .ok c) :
    ∃ b, m.body = some b ∧ ∃ reaching, reachingDefinitions m c = .ok reaching ∧
      reaching.map Prod.fst = c.nodes ∧
        ∀ n ds, (n, ds) ∈ reaching → ∀ d, d ∈ ds ↔ d.Arrives b c n := by
  have hc := (Cfg.ofMethod_graphOf h).valid
  obtain ⟨b, hb, -⟩ := bind_eq_ok.mp h
  have hbody := Method.requireBody_eq_ok.mp hb
  obtain ⟨states, hstates⟩ :=
    (reachingProblem b c).exists_solve hc (Cfg.ofMethod_head hbody h) .forward
  have hprogress := (reachingLawful b c).solve_progress hc hstates
  refine ⟨b, hbody, _, by rw [reachingDefinitions, hb]; simp only [bind, Except.bind, hstates]; rfl,
    ?_, ?_⟩
  · rw [List.map_map, Cfg.nodes, values_eq_map_snd]
    rfl
  · intro n ds hentry d
    obtain ⟨⟨i, n⟩, hn, heq⟩ := List.mem_map.mp hentry
    obtain ⟨rfl, rfl⟩ := Prod.mk.inj heq
    have hn := TreeMap.mem_toList_iff_getElem?_eq_some.mp hn
    exact ⟨fun hd => arrives_of_mem_into hc hprogress hn hd,
      fun hd => mem_into_of_arrives hc hprogress hd hn⟩

/-- A method that counts its rounds. -/
def countingMethod : Method :=
  let rounds : Variable := ⟨"rounds", .local, .int32⟩
  let block (index : Nat) (os : List Operation) : Block := ⟨index, os.map fun o => ⟨o, [⟨0, 0⟩]⟩⟩
  ⟨.static "Player" "Update" [] .void, [], "Game",
    some { blocks := [
      block 0 [.store rounds (.constant (.int32 0)), .branch 1],
      block 1 [.branchIf (.staticField ⟨"Player", "gameOver", .bool, true⟩) 3, .branch 2],
      block 2 [.store rounds (.binary .add .none (.load rounds) (.constant (.int32 1))), .branch 1],
      block 3 [.leave none]] }⟩

def countingStore : FlowNode :=
  .instruction ⟨"Player.Update()", ⟨2, 0⟩, "IL_0000: stloc rounds(add.i4(ldloc rounds, ldc.i4 1))"⟩

/-- The store in the loop arrives at itself. -/
theorem countingStore_arrives : ∃ c b, Cfg.ofMethod countingMethod = .ok c ∧
    countingMethod.body = some b ∧ (⟨"rounds", countingStore⟩ : Definition).Arrives b c countingStore := by
  have hcheck : (match (do
        let c ← Cfg.ofMethod countingMethod
        return (← reachingDefinitions countingMethod c).any fun entry =>
          entry.1 = countingStore ∧ entry.2.contains ⟨"rounds", countingStore⟩ : Result Bool) with
      | .ok listed => listed
      | .error _ => false) = true := by decide +kernel
  split at hcheck
  · next listed hlisted =>
    subst hcheck
    simp only [bind_eq_ok, pure_eq_ok] at hlisted
    obtain ⟨c, hc, reaching, hreaching, hany⟩ := hlisted
    obtain ⟨⟨n, ds⟩, hentry, hfound⟩ := List.any_eq_true.mp hany
    obtain ⟨rfl, hd⟩ := of_decide_eq_true hfound
    obtain ⟨b, hb, reaching', hreaching', -, hexact⟩ := reachingDefinitions_exact hc
    obtain rfl := Except.ok.inj (hreaching.symm.trans hreaching')
    exact ⟨c, b, hc, hb, (hexact _ ds hentry _).mp (List.contains_iff_mem.mp hd)⟩
  · cases hcheck

end PlayerPaths
