import Mathlib
import PlayerPaths.Proofs.Flow.Solution

/-!
# Least solutions over a join-semilattice

A family of states over the nodes of a graph solves a problem when the state of every node is what
its transfer makes of the least upper bound of the states of its sources, where nothing flowing in
is the bottom of `WithBot S` (`Solves`). When the joins of the problem are those of a
join-semilattice of finite height and its transfers are monotone, the problem is lawful
(`Ordered.lawful`), so the worklist empties and leaves the least such family (`solve_isLeast`).
-/

namespace PlayerPaths

open Std (TreeMap)

abbrev Cfg.Node (c : Cfg) := { n : FlowNode // c.Has n }

namespace FlowProblem

variable {S : Type} {c : Cfg} {d : Direction} {p : FlowProblem S} {i j : Nat} {m n : FlowNode}

/-! ## Solutions -/

/-- States flow from a node to another one. -/
def Feeds (c : Cfg) : Direction → (source target : FlowNode) → Prop
  | .forward, source, target => c.HasEdge source target
  | .backward, source, target => c.HasEdge target source

/-- A family of states satisfies the equations of all nodes. -/
def Solves [Preorder S] (p : FlowProblem S) (c : Cfg) (d : Direction) (X : c.Node → S) : Prop :=
  ∀ n : c.Node, ∃ joined : WithBot S,
    IsLUB { s : WithBot S | ∃ m : c.Node, Feeds c d m n ∧ s = X m } joined ∧
      X n = p.transfer n joined

def stateOf (c : Cfg) (states : FlowStates S) (n : FlowNode) : Option S :=
  (c.index? n).bind fun i => states[i]?

theorem stateOf_eq (hc : c.Valid) {states : FlowStates S} (hn : c.graph.vertices[i]? = some n) :
    stateOf c states n = states[i]? := by
  rw [stateOf, hc.index?_eq_some.mpr hn, Option.bind_some]

theorem hasEdge_iff (hc : c.Valid) (hm : c.graph.vertices[j]? = some m)
    (hn : c.graph.vertices[i]? = some n) : c.HasEdge m n ↔ (j, i) ∈ c.graph.edges := by
  constructor
  · rintro ⟨j', i', hm', hn', h⟩
    obtain rfl := hc.distinct hm hm'
    obtain rfl := hc.distinct hn hn'
    exact h
  · intro h
    exact ⟨j, i, hm, hn, h⟩

/-- A source of a node, by its number. -/
theorem feeds_iff (hc : c.Valid) (hm : c.graph.vertices[j]? = some m)
    (hn : c.graph.vertices[i]? = some n) : Feeds c d m n ↔ j ∈ sources c d i := by
  cases d with
  | forward => exact (hasEdge_iff hc hm hn).trans (hc.wellFormed.predecessors_iff j i).symm
  | backward => exact (hasEdge_iff hc hn hm).trans (hc.wellFormed.successors_iff i j).symm

/-- The states that flow into a node, by the numbers of its sources. -/
theorem sources_eq (hc : c.Valid) {states : FlowStates S} {X : c.Node → S}
    (hX : ∀ n : c.Node, stateOf c states n = some (X n))
    (hknown : ∀ i ∈ states, i ∈ c.graph.vertices) (hn : c.graph.vertices[i]? = some n) :
    { s : WithBot S | ∃ m : c.Node, Feeds c d m n ∧ s = X m } =
      { s : WithBot S | ∃ j ∈ sources c d i, ∃ a, states[j]? = some a ∧ s = a } := by
  ext s
  constructor
  · rintro ⟨⟨m, j, hm⟩, hfeeds, rfl⟩
    refine ⟨j, (feeds_iff hc hm hn).mp hfeeds, X ⟨m, j, hm⟩, ?_, rfl⟩
    rw [← stateOf_eq hc hm, hX ⟨m, j, hm⟩]
  · rintro ⟨j, hj, a, ha, rfl⟩
    obtain ⟨m, hm⟩ := mem_iff_exists_getElem?.mp (hknown j (mem_iff_exists_getElem?.mpr ⟨a, ha⟩))
    refine ⟨⟨m, j, hm⟩, (feeds_iff hc hm hn).mpr hj, ?_⟩
    have hstate := (stateOf_eq hc hm).symm.trans (hX ⟨m, j, hm⟩)
    rw [Option.some.inj (ha.symm.trans hstate)]

open Classical in
/-- The states of a family by the numbers of the nodes. -/
noncomputable def statesOf (c : Cfg) (X : c.Node → S) : FlowStates S :=
  c.graph.vertices.filterMap fun _ n => if hn : c.Has n then some (X ⟨n, hn⟩) else none

theorem getElem?_statesOf (X : c.Node → S) (hn : c.graph.vertices[i]? = some n) :
    (statesOf c X)[i]? = some (X ⟨n, i, hn⟩) := by
  have hhas : c.Has n := ⟨i, hn⟩
  rw [statesOf, TreeMap.getElem?_filterMap', hn, Option.bind_some, dif_pos hhas]

/-! ## Problems over a semilattice -/

variable [SemilatticeSup S]

/-- The joins of the problem are those of the semilattice, its transfers on the graph are monotone
with nothing as the bottom, and no increasing chain is longer than the height. -/
structure Ordered (p : FlowProblem S) (c : Cfg) : Prop where
  join : ∀ a b, p.join a b = a ⊔ b
  monotone : ∀ {n}, c.Has n → Monotone fun s : WithBot S => p.transfer n s
  height : ∀ chain : LTSeries S, chain.length ≤ p.height

namespace Ordered

theorem height_le (h : p.Ordered c) (a : S) : Order.height a ≤ p.height :=
  Order.height_le fun chain _ => Nat.cast_le.mpr (h.height chain)

theorem height_ne_top (h : p.Ordered c) (a : S) : Order.height a ≠ ⊤ :=
  ne_top_of_le_ne_top (ENat.natCast_ne_top _) (h.height_le a)

/-- The rank of a state is the length of the longest chain below it. -/
noncomputable def lawful (h : p.Ordered c) : p.Lawful c where
  valid _ := True
  le a b := a ≤ b
  rank a := (Order.height a).toNat
  refl _ := le_rfl
  trans := le_trans
  valid_join _ _ := trivial
  le_join_left _ _ := h.join _ _ ▸ le_sup_left
  le_join_right _ _ := h.join _ _ ▸ le_sup_right
  join_le _ _ _ hac hbc := h.join _ _ ▸ sup_le hac hbc
  valid_transfer _ _ := trivial
  transfer_le hn _ _ hle := h.monotone hn (WithBot.le_iff_forall.mpr hle)
  rank_le _ := ENat.toNat_le_of_le_natCast (h.height_le _)
  rank_lt {a b} _ _ hle hne := by
    have hlt : Order.height a < Order.height b :=
      Order.height_strictMono (lt_of_le_of_ne hle hne) (lt_top_iff_ne_top.mpr (h.height_ne_top a))
    rw [← ENat.natCast_toNat (h.height_ne_top a), ← ENat.natCast_toNat (h.height_ne_top b)] at hlt
    exact Nat.cast_lt.mp hlt

/-- The join of the known states is their least upper bound, and the bottom when there is none. -/
theorem isLUB_joinAt (h : p.Ordered c) (states : FlowStates S) (indices : List Nat) :
    IsLUB { s : WithBot S | ∃ i ∈ indices, ∃ a, states[i]? = some a ∧ s = a }
      (p.joinAt states indices) := by
  have hvalid : h.lawful.ValidStates states := fun _ _ _ => trivial
  obtain ⟨-, hupper, hleast⟩ := Lawful.joinAt_lub hvalid indices
  constructor
  · rintro _ ⟨i, hi, a, ha, rfl⟩
    obtain ⟨b, hb, hle⟩ := hupper i hi a ha
    exact WithBot.coe_le_iff.mpr ⟨b, hb, hle⟩
  · intro u hu
    apply WithBot.le_iff_forall.mpr
    intro b hb
    obtain ⟨i, hi, a, ha⟩ := Lawful.joinAt_ne_none (p := p) hb
    obtain ⟨v, rfl, -⟩ := WithBot.coe_le_iff.mp (hu ⟨i, hi, a, ha, rfl⟩)
    refine ⟨v, rfl, hleast v trivial ?_ b hb⟩
    intro j hj a' ha'
    exact WithBot.coe_le_coe.mp (hu ⟨j, hj, a', ha', rfl⟩)

end Ordered

/-! ## The solver and the solutions -/

/-- Every solution is closed, so the worklist stays below it. -/
theorem Ordered.closed (h : p.Ordered c) (hc : c.Valid) {X : c.Node → S} (hX : p.Solves c d X) :
    h.lawful.Closed d (statesOf c X) where
  valid _ _ _ := trivial
  above {i n} hn := by
    refine ⟨_, getElem?_statesOf X hn, le_of_eq ?_⟩
    obtain ⟨joined, hlub, heq⟩ := hX ⟨n, i, hn⟩
    have hstates (n : c.Node) : stateOf c (statesOf c X) n = some (X n) := by
      obtain ⟨n, i, hn⟩ := n
      rw [stateOf_eq hc hn, getElem?_statesOf X hn]
    have hknown : ∀ i ∈ statesOf c X, i ∈ c.graph.vertices := by
      intro i hi
      exact TreeMap.mem_of_mem_filterMap hi
    rw [sources_eq hc hstates hknown hn] at hlub
    rw [heq, hlub.unique (h.isLUB_joinAt _ _)]
    rfl

/-- **The solver finds the least solution.** On a graph with a head, the loop ends from the nodes
in their schedule, and the solver gives what it ends with. Exactly the nodes of the graph have a
state, whether the head reaches them or not, and their states are the least solution. -/
theorem solve_isLeast [DecidableEq S] (h : p.Ordered c) (hc : c.Valid) {head : FlowNode}
    (hhead : c.head = .ok head) (d : Direction) :
    ∃ queue states, schedule c d = .ok queue ∧ p.Settles c d queue ∅ states ∧
      p.solve c d = .ok states ∧ (∀ i, i ∈ states ↔ i ∈ c.graph.vertices) ∧
      ∃ X : c.Node → S, (∀ n : c.Node, stateOf c states n = some (X n)) ∧
        IsLeast { Y | p.Solves c d Y } X := by
  obtain ⟨states, hsolve⟩ := exists_solve p hc hhead d
  obtain ⟨queue, hqueue, hempty, hsettles⟩ := h.lawful.solve_settles hc hsolve
  have hend : h.lawful.Progress d [] states := hempty.settles hc hsettles
  have hstate {i : Nat} {n : FlowNode} (hn : c.graph.vertices[i]? = some n) :
      states[i]? = some (p.out c d states i n) := hend.settled hn List.not_mem_nil
  have hknown : ∀ i ∈ states, i ∈ c.graph.vertices := by
    intro i hi
    obtain ⟨a, ha⟩ := mem_iff_exists_getElem?.mp hi
    exact hend.known ha
  have hall (n : c.Node) : ∃ s, stateOf c states n = some s := by
    obtain ⟨n, i, hn⟩ := n
    exact ⟨_, (stateOf_eq hc hn).trans (hstate hn)⟩
  choose X hX using hall
  refine ⟨queue, states, hqueue, hsettles, hsolve, fun i => ⟨hknown i, fun hi => ?_⟩, X, hX, ?_, ?_⟩
  · obtain ⟨n, hn⟩ := mem_iff_exists_getElem?.mp hi
    exact mem_iff_exists_getElem?.mpr ⟨_, hstate hn⟩
  · rintro ⟨n, i, hn⟩
    refine ⟨p.joinAt states (sources c d i), ?_, ?_⟩
    · rw [sources_eq hc hX hknown hn]
      exact h.isLUB_joinAt _ _
    · have heq := (hX ⟨n, i, hn⟩).symm.trans ((stateOf_eq hc hn).trans (hstate hn))
      exact Option.some.inj heq
  · rintro Y hY ⟨n, i, hn⟩
    have hXn : states[i]? = some (X ⟨n, i, hn⟩) := (stateOf_eq hc hn).symm.trans (hX ⟨n, i, hn⟩)
    obtain ⟨b, hb, hle⟩ := hend.least (h.closed hc hY) i _ hXn
    rw [Option.some.inj ((getElem?_statesOf Y hn).symm.trans hb)]
    exact hle

/-- Whether states flow from the exit to a node. -/
def fromExit : FlowProblem Bool where
  join a b := a || b
  transfer n s := n = .exit || s.getD false
  height := 1

theorem fromExit_ordered (c : Cfg) : fromExit.Ordered c where
  join := by decide
  monotone {n} _ s t hst := by
    apply Bool.le_iff_imp.mpr
    intro hs
    apply (Bool.or_eq_true _ _).mpr
    rcases (Bool.or_eq_true _ _).mp hs with hn | hs
    · exact .inl hn
    · obtain rfl : s = some true := (Option.getD_eq_iff.mp hs).resolve_right (by simp)
      obtain ⟨b, rfl, hb⟩ := WithBot.coe_le_iff.mp hst
      exact .inr (Bool.le_iff_imp.mp hb rfl)
  height chain := by
    have hlt := chain.length_lt_card
    rw [Fintype.card_bool] at hlt
    exact Nat.le_of_lt_succ hlt

/-- The entry leads to the exit, and an instruction that the entry does not reach leads to itself
by way of the start. -/
def islandGraph : Cfg :=
  let island := FlowNode.instruction ⟨"P.Update()", ⟨0, 0⟩, "nop"⟩
  ((Cfg.empty.addEdge .entry .exit).addEdge .start island).addEdge island .start

theorem solve_isLeast_islandGraph :
    fromExit.Ordered islandGraph ∧ islandGraph.Valid ∧ islandGraph.head = .ok .entry ∧
      ∃ queue states, schedule islandGraph .backward = .ok queue ∧
        fromExit.Settles islandGraph .backward queue ∅ states ∧
        fromExit.solve islandGraph .backward = .ok states ∧
        (∀ i, i ∈ states ↔ i ∈ islandGraph.graph.vertices) ∧
        ∃ X : islandGraph.Node → Bool,
          (∀ n : islandGraph.Node, stateOf islandGraph states n = some (X n)) ∧
            IsLeast { Y | fromExit.Solves islandGraph .backward Y } X := by
  have hordered : fromExit.Ordered islandGraph := fromExit_ordered _
  have hvalid : islandGraph.Valid := by
    unfold islandGraph
    iterate 3 refine (Cfg.Valid.addEdge ?_ _ _).valid
    exact Cfg.valid_empty
  have hhead : islandGraph.head = .ok .entry := by decide +kernel
  exact ⟨hordered, hvalid, hhead, solve_isLeast hordered hvalid hhead .backward⟩

end FlowProblem

end PlayerPaths
