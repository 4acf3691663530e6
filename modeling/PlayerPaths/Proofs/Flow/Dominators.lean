import PlayerPaths.Proofs.Flow.Dominance
import PlayerPaths.Proofs.Flow.DominatorSets

/-!
# Dominator trees are exact

The greatest solution of the equations of the dominators holds just what paths say about dominance
(`Placed.mem_setAt`): along a path an element of a set is either met or an element of all sets
before, and what dominates a node belongs to a solution. A strict dominator with one dominator less
than its node is the immediate one, so the parents of the tree are the immediate dominators, and the
chain of a node consists of its dominators (`DominatorTree.Exact`).
-/

namespace PlayerPaths

open Std

variable {c : Cfg} {head a b d n : FlowNode} {nodes : List FlowNode} {dom : DominatorSets}
  {i j x : Nat}

/-! ## The sets hold the dominators -/

theorem Cfg.Listing.place_zero (h : c.Listing head nodes) : nodes[0]? = some head := by
  rw [← List.head?_eq_getElem?]
  exact h.first

/-- A node has one place. -/
theorem Cfg.Listing.place_inj (h : c.Listing head nodes) (hi : nodes[i]? = some a)
    (hj : nodes[j]? = some a) : i = j := by
  rw [← idxOf?_eq_some_iff_getElem? h.nodup] at hi hj
  exact Option.some.inj (hi.symm.trans hj)

theorem Cfg.Listing.reaches (h : c.Listing head nodes) (hi : nodes[i]? = some a) :
    c.Reaches head a :=
  (h.reached a).mp (List.mem_of_getElem? hi)

theorem Cfg.Listing.exists_place (h : c.Listing head nodes) (ha : c.Reaches head a) :
    ∃ i : Nat, nodes[i]? = some a :=
  List.mem_iff_getElem?.mp ((h.reached a).mpr ha)

theorem DominatorTree.length_predecessorPlaces :
    (predecessorPlaces c nodes).length = nodes.length := List.length_map _

theorem DominatorTree.mem_predecessorPlaces (hc : c.Valid) (hnodes : nodes.Nodup)
    (hj : nodes[j]? = some b) : i ∈ (predecessorPlaces c nodes).getD j [] ↔
      ∃ a, nodes[i]? = some a ∧ c.HasEdge a b := by
  rw [predecessorPlaces, List.getD_eq_getElem?_getD, List.getElem?_map, hj, Option.map_some,
    Option.getD_some, List.mem_filterMap]
  apply exists_congr
  intro a
  rw [hc.mem_predecessors, idxOf?_eq_some_iff_getElem? hnodes, and_comm]

/-- The nodes that a head reaches, and the solution of the equations of their dominators. -/
structure Placed (c : Cfg) (head : FlowNode) (nodes : List FlowNode) (dom : DominatorSets) :
    Prop where
  valid : c.Valid
  listing : c.Listing head nodes
  solves : DominatorSets.Solves (DominatorTree.predecessorPlaces c nodes) dom

namespace Placed

theorem length_dom (h : Placed c head nodes dom) : dom.length = nodes.length :=
  h.solves.length.trans DominatorTree.length_predecessorPlaces

theorem lt_length (h : Placed c head nodes dom) (hi : nodes[i]? = some a) : i < dom.length := by
  rw [h.length_dom]
  exact (List.getElem?_eq_some_iff.mp hi).1

theorem setAt_zero (h : Placed c head nodes dom) : dom.setAt 0 = [0] := by
  apply h.solves.head
  rw [← h.solves.length]
  exact h.lt_length h.listing.place_zero

/-- Along a path, an element of the set of the end is met, or belongs to the set of the start. -/
theorem met_or_mem (h : Placed c head nodes dom) {ns : List FlowNode} (hpath : c.Path a ns b)
    (hi : nodes[i]? = some a) (hj : nodes[j]? = some b) (hx : x ∈ dom.setAt j) :
    (∃ n ∈ ns, nodes[x]? = some n) ∨ x ∈ dom.setAt i := by
  induction hpath generalizing i with
  | here =>
      obtain rfl := h.listing.place_inj hi hj
      exact .inr hx
  | @step a b d ns edge rest ih =>
      obtain ⟨k, hk⟩ := h.listing.exists_place ((h.listing.reaches hi).tail edge)
      rcases ih hk hj with ⟨n, hn, hplace⟩ | hmem
      · exact .inl ⟨n, List.mem_cons_of_mem _ hn, hplace⟩
      · -- The element is the second node of the path, or in the sets of all its predecessors.
        rcases Nat.eq_zero_or_pos k with rfl | hpos
        · rw [h.setAt_zero, List.mem_singleton] at hmem
          subst hmem
          exact .inl ⟨b, List.mem_cons_of_mem _ rest.source_mem, hk⟩
        · rw [← h.solves.solved k hpos (h.lt_length hk), DominatorSets.mem_equation] at hmem
          rcases hmem with rfl | ⟨-, hall⟩
          · exact .inl ⟨b, List.mem_cons_of_mem _ rest.source_mem, hk⟩
          · exact .inr (hall i ((DominatorTree.mem_predecessorPlaces h.valid h.listing.nodup hk).mpr
              ⟨a, hi, edge⟩))

theorem dominates_of_mem (h : Placed c head nodes dom) (hj : nodes[j]? = some b)
    (hx : x ∈ dom.setAt j) : ∃ a, nodes[x]? = some a ∧ c.Dominates head a b := by
  have hmet : ∀ ns, c.Path head ns b → ∃ n ∈ ns, nodes[x]? = some n := by
    intro ns hpath
    rcases h.met_or_mem hpath h.listing.place_zero hj hx with hmet | hhead
    · exact hmet
    · rw [h.setAt_zero, List.mem_singleton] at hhead
      subst hhead
      exact ⟨head, hpath.source_mem, h.listing.place_zero⟩
  obtain ⟨ns, hpath⟩ := h.listing.reaches hj
  obtain ⟨a, -, ha⟩ := hmet ns hpath
  refine ⟨a, ha, ?_⟩
  intro ms hms
  obtain ⟨a', hmem, ha'⟩ := hmet ms hms
  obtain rfl := Option.some.inj (ha.symm.trans ha')
  exact hmem

/-- Dominance solves the equations, and the sets are the greatest solution. -/
theorem mem_of_dominates (h : Placed c head nodes dom) (ha : nodes[x]? = some a)
    (hj : nodes[j]? = some b) (hab : c.Dominates head a b) : x ∈ dom.setAt j := by
  refine h.solves.greatest (fun x i => ∃ a b, nodes[x]? = some a ∧ nodes[i]? = some b ∧
    c.Dominates head a b) ?_ ?_ ?_ x j ⟨a, b, ha, hj, hab⟩
  · rintro x i ⟨a, b, ha, hb, -⟩
    rw [← h.solves.length]
    exact ⟨h.lt_length ha, h.lt_length hb⟩
  · rintro x ⟨a, b, ha, hb, hab⟩
    obtain rfl := Option.some.inj (h.listing.place_zero.symm.trans hb)
    obtain rfl := (Cfg.dominates_head_iff (h.listing.reaches hb).source).mp hab
    exact h.listing.place_inj ha h.listing.place_zero
  · rintro x i hpos ⟨a, b, ha, hb, hab⟩
    by_cases heq : a = b
    · subst heq
      exact .inl (h.listing.place_inj ha hb)
    · right
      have hmem : ∀ p, p ∈ (DominatorTree.predecessorPlaces c nodes).getD i [] ↔
          ∃ d, nodes[p]? = some d ∧ c.HasEdge d b := fun p =>
        DominatorTree.mem_predecessorPlaces h.valid h.listing.nodup hb
      constructor
      · -- Only the head may have no predecessor in reach.
        have hne : b ≠ head := by
          rintro rfl
          exact Nat.ne_of_gt hpos (h.listing.place_inj hb h.listing.place_zero)
        obtain ⟨d, hd, edge⟩ := (h.listing.reaches hb).exists_predecessor hne
        obtain ⟨p, hp⟩ := h.listing.exists_place hd
        exact List.ne_nil_of_mem ((hmem p).mpr ⟨d, hp, edge⟩)
      · intro p hp
        obtain ⟨d, hd, edge⟩ := (hmem p).mp hp
        exact ⟨a, d, ha, hd, hab.predecessor heq edge⟩

/-- **The set of a node holds its dominators.** -/
theorem mem_setAt (h : Placed c head nodes dom) (hj : nodes[j]? = some b) :
    x ∈ dom.setAt j ↔ ∃ a, nodes[x]? = some a ∧ c.Dominates head a b := by
  constructor
  · exact h.dominates_of_mem hj
  · rintro ⟨a, ha, hab⟩
    exact h.mem_of_dominates ha hj hab

/-! ## The immediate dominator -/

theorem setAt_nodup (h : Placed c head nodes dom) (i : Nat) : (dom.setAt i).Nodup :=
  (h.solves.increasing i).nodup

theorem length_setAt_pos (h : Placed c head nodes dom) (hi : nodes[i]? = some a) :
    0 < (dom.setAt i).length :=
  List.length_pos_of_mem ((h.mem_setAt hi).mpr ⟨a, hi, .refl⟩)

theorem length_setAt_le (h : Placed c head nodes dom) (hi : nodes[i]? = some a) :
    (dom.setAt i).length ≤ nodes.length := by
  rw [← List.length_range (n := nodes.length)]
  refine (List.subperm_of_subset (h.setAt_nodup i) ?_).length_le
  intro x hx
  obtain ⟨a, ha, -⟩ := (h.mem_setAt hi).mp hx
  exact List.mem_range.mpr (List.getElem?_eq_some_iff.mp ha).1

/-- A strict dominator is the immediate one when it has all other dominators. -/
theorem immediatelyDominates_iff (h : Placed c head nodes dom) (hi : nodes[i]? = some d)
    (hj : nodes[j]? = some b) (hne : d ≠ b) (hd : c.Dominates head d b) :
    c.ImmediatelyDominates head d b ↔ (dom.setAt i).length + 1 = (dom.setAt j).length := by
  have hnot : j ∉ dom.setAt i := by
    intro hmem
    obtain ⟨b', hb', hbd⟩ := (h.mem_setAt hi).mp hmem
    obtain rfl := Option.some.inj (hj.symm.trans hb')
    exact hne (hd.antisymm hbd (h.listing.reaches hj))
  have hnodup : (j :: dom.setAt i).Nodup := List.nodup_cons.mpr ⟨hnot, h.setAt_nodup i⟩
  have hsub : ∀ x ∈ j :: dom.setAt i, x ∈ dom.setAt j := by
    intro x hx
    rw [h.mem_setAt hj]
    rcases List.mem_cons.mp hx with rfl | hx
    · exact ⟨b, hj, .refl⟩
    · obtain ⟨a, ha, had⟩ := (h.mem_setAt hi).mp hx
      exact ⟨a, ha, had.trans hd⟩
  -- The node and the set of its dominator fit into the set of the node, and fill it just when
  -- the counts agree.
  rw [← List.length_cons (a := j)]
  constructor
  · intro himmediate
    refine Nat.le_antisymm (List.subperm_of_subset hnodup hsub).length_le ?_
    refine (List.subperm_of_subset (h.setAt_nodup j) ?_).length_le
    intro x hx
    obtain ⟨a, ha, hab⟩ := (h.mem_setAt hj).mp hx
    rcases himmediate.dominates_iff.mp hab with rfl | had
    · obtain rfl := h.listing.place_inj ha hj
      exact List.mem_cons_self
    · exact List.mem_cons_of_mem _ ((h.mem_setAt hi).mpr ⟨a, ha, had⟩)
  · intro hlength
    have hperm := (List.subperm_of_subset hnodup hsub).perm_of_length_le (Nat.le_of_eq hlength.symm)
    refine ⟨hne, hd, ?_⟩
    intro a hane ha
    obtain ⟨x, hx⟩ := h.listing.exists_place (ha.reaches (h.listing.reaches hj))
    have hmem := hperm.mem_iff.mpr ((h.mem_setAt hj).mpr ⟨a, hx, ha⟩)
    rcases List.mem_cons.mp hmem with rfl | hmem
    · exact absurd (Option.some.inj (hx.symm.trans hj)) hane
    · obtain ⟨a', ha', had⟩ := (h.mem_setAt hi).mp hmem
      obtain rfl := Option.some.inj (hx.symm.trans ha')
      exact had

/-- The immediate dominator is found. -/
theorem immediate?_spec (h : Placed c head nodes dom) (hj : nodes[j]? = some b) (hne : b ≠ head) :
    ∃ i d, dom.immediate? j = some i ∧ nodes[i]? = some d ∧ c.ImmediatelyDominates head d b ∧
      (dom.setAt i).length + 1 = (dom.setAt j).length := by
  have hreached := h.listing.reaches hj
  cases hfind : dom.immediate? j with
  | none =>
      -- The immediate dominator itself would have been found.
      obtain ⟨d, hd⟩ := Cfg.exists_immediate hreached hne
      obtain ⟨i, hi⟩ := h.listing.exists_place (hd.dominates.reaches hreached)
      have hmem := (h.mem_setAt hj).mpr ⟨d, hi, hd.dominates⟩
      have hij : i ≠ j := by
        rintro rfl
        exact hd.ne (Option.some.inj (hi.symm.trans hj))
      have hlength := (h.immediatelyDominates_iff hi hj hd.ne hd.dominates).mp hd
      have hnot := List.find?_eq_none.mp hfind i hmem
      simp [hij, hlength] at hnot
  | some i =>
      obtain ⟨d, hi, hd⟩ := (h.mem_setAt hj).mp (List.mem_of_find?_eq_some hfind)
      have hfound := List.find?_some hfind
      rw [Bool.and_eq_true, decide_eq_true_eq, decide_eq_true_eq] at hfound
      obtain ⟨hij, hlength⟩ := hfound
      have hdb : d ≠ b := by
        rintro rfl
        exact hij (h.listing.place_inj hi hj)
      exact ⟨i, d, rfl, hi, (h.immediatelyDominates_iff hi hj hdb hd).mpr hlength, hlength⟩

end Placed

/-! ## The tree -/

namespace DominatorTree

/-- The parents of a tree are the immediate dominators, and every node stands in front of the chain
of its parent. -/
structure Exact (t : DominatorTree) (c : Cfg) (head : FlowNode) : Prop where
  listing : c.Listing head t.nodes
  parent_head : t.parent? head = none
  chain_head : t.chain head = [head]
  parent : ∀ n, c.Reaches head n → n ≠ head → ∃ d, t.parent? n = some d ∧
    c.ImmediatelyDominates head d n ∧ t.chain n = n :: t.chain d

variable {t : DominatorTree}

theorem parent?_of_place (h : t.nodes.Nodup) (hi : t.nodes[i]? = some n) :
    t.parent? n = (t.parentAt? i).bind fun p => t.nodes[p]? := by
  unfold parent?
  rw [(idxOf?_eq_some_iff_getElem? h).mpr hi]
  rfl

theorem chain_of_place (h : t.nodes.Nodup) (hi : t.nodes[i]? = some n) :
    t.chain n = (t.ancestorsWithin t.nodes.length i).filterMap fun i => t.nodes[i]? := by
  unfold chain
  rw [(idxOf?_eq_some_iff_getElem? h).mpr hi]

/-- The parent of every place but the first is the place of the immediate dominator. -/
def Parented (t : DominatorTree) (dom : DominatorSets) : Prop :=
  ∀ i, t.parentAt? i = if i < t.nodes.length then if i = 0 then none else dom.immediate? i else none

theorem Parented.zero (h : t.Parented dom) : t.parentAt? 0 = none := by
  rw [h 0]
  split <;> rfl

/-- As many steps as a place has dominators lead up to the head. -/
theorem ancestorsWithin_eq (hp : Placed c head t.nodes dom) (h : t.Parented dom)
    (limit limit' : Nat) (hi : t.nodes[i]? = some n) (hlimit : (dom.setAt i).length ≤ limit)
    (hlimit' : (dom.setAt i).length ≤ limit') :
    t.ancestorsWithin limit i = t.ancestorsWithin limit' i := by
  induction limit generalizing i n limit' with
  | zero => exact absurd (hp.length_setAt_pos hi) (Nat.not_lt.mpr hlimit)
  | succ limit ih =>
      cases limit' with
      | zero => exact absurd (hp.length_setAt_pos hi) (Nat.not_lt.mpr hlimit')
      | succ limit' =>
          simp only [ancestorsWithin]
          cases hparent : t.parentAt? i with
          | none => rfl
          | some p =>
              have hne : n ≠ head := by
                rintro rfl
                obtain rfl := hp.listing.place_inj hi hp.listing.place_zero
                rw [h.zero] at hparent
                cases hparent
              -- One step up leaves one dominator less, so the limits still suffice.
              obtain ⟨k, d, himmediate, hk, -, hlength⟩ := hp.immediate?_spec hi hne
              rw [h i, if_pos (List.getElem?_eq_some_iff.mp hi).1] at hparent
              split at hparent
              · cases hparent
              · obtain rfl := Option.some.inj (himmediate.symm.trans hparent)
                dsimp only
                rw [ih limit' hk (by omega) (by omega)]

theorem exact_of_parented (hp : Placed c head t.nodes dom) (h : t.Parented dom) :
    t.Exact c head := by
  have hzero := hp.listing.place_zero
  have hnodup := hp.listing.nodup
  obtain ⟨limit, hlimit⟩ := Nat.exists_eq_succ_of_ne_zero
    (Nat.ne_of_gt (List.getElem?_eq_some_iff.mp hzero).1)
  refine ⟨hp.listing, ?_, ?_, ?_⟩
  · rw [parent?_of_place hnodup hzero, h.zero]
    rfl
  · rw [chain_of_place hnodup hzero, hlimit, ancestorsWithin, h.zero]
    simp [hzero]
  · intro n hn hne
    obtain ⟨i, hi⟩ := hp.listing.exists_place hn
    obtain ⟨k, d, himmediate, hk, hd, hlength⟩ := hp.immediate?_spec hi hne
    have hpos : i ≠ 0 := by
      rintro rfl
      exact hne (Option.some.inj (hi.symm.trans hzero))
    have hparent : t.parentAt? i = some k := by
      rw [h i, if_pos (List.getElem?_eq_some_iff.mp hi).1, if_neg hpos, himmediate]
    refine ⟨d, ?_, hd, ?_⟩
    · rw [parent?_of_place hnodup hi, hparent, Option.bind_some, hk]
    · have hle := hp.length_setAt_le hi
      rw [chain_of_place hnodup hi, chain_of_place hnodup hk, hlimit, ancestorsWithin, hparent,
        List.filterMap_cons_some hi]
      dsimp only
      rw [ancestorsWithin_eq hp h limit (limit + 1) hk (by omega) (by omega)]

/-- **There is a tree for every head, and it is exact.** -/
theorem withHead_eq_ok (hc : c.Valid) (hhead : c.Has head) :
    ∃ t, withHead c head = .ok t ∧ t.Exact c head := by
  obtain ⟨nodes, horder, hlisting⟩ := hc.preOrder_eq_ok hhead
  let dom := DominatorSets.ofPredecessors (predecessorPlaces c nodes)
  have hp : Placed c head nodes dom :=
    ⟨hc, hlisting, DominatorSets.ofPredecessors_solves _⟩
  let parents := (List.range nodes.length).map fun i => if i = 0 then none else dom.immediate? i
  refine ⟨⟨nodes, parents⟩, ?_, ?_⟩
  · have hparents : (List.range nodes.length).mapM (findParent dom) = .ok parents := by
      rw [mapM_eq_ok, List.forall₂_map_right_iff, List.forall₂_same]
      intro i hi
      unfold findParent
      split
      · rfl
      · next hne =>
        -- Every place but the first is reached, so its immediate dominator is found.
        have hlt := List.mem_range.mp hi
        have hplace := List.getElem?_eq_getElem hlt
        have hother : nodes[i] ≠ head := by
          intro heq
          rw [heq] at hplace
          exact hne (hlisting.place_inj hplace hlisting.place_zero)
        obtain ⟨k, d, himmediate, -⟩ := hp.immediate?_spec hplace hother
        rw [himmediate]
    unfold withHead
    rw [bind_eq_ok]
    refine ⟨nodes, horder, ?_⟩
    rw [bind_eq_ok]
    exact ⟨parents, hparents, rfl⟩
  · refine exact_of_parented hp ?_
    intro i
    show parents[i]?.join = _
    rw [List.getElem?_map]
    dsimp only
    by_cases hi : i < nodes.length
    · simp [hi]
    · simp [hi]

/-! ## Chains -/

/-- What holds of the head, and of a node when it holds of its immediate dominator, holds of all
nodes. -/
theorem Exact.induction (h : t.Exact c head) {P : FlowNode → Prop} (root : P head)
    (child : ∀ n d, c.Reaches head n → c.ImmediatelyDominates head d n →
      t.chain n = n :: t.chain d → P d → P n) (hn : c.Reaches head n) : P n := by
  -- The chain of the immediate dominator is shorter.
  induction hlength : (t.chain n).length using Nat.strongRecOn generalizing n with
  | ind length ih =>
      by_cases heq : n = head
      · rw [heq]
        exact root
      · obtain ⟨d, -, hd, hchain⟩ := h.parent n hn heq
        refine child n d hn hd hchain (ih (t.chain d).length ?_ (hd.dominates.reaches hn) rfl)
        rw [← hlength, hchain, List.length_cons]
        exact Nat.lt_succ_self _

/-- The chain of a node consists of its dominators. -/
theorem Exact.mem_chain_iff (h : t.Exact c head) (hn : c.Reaches head n) :
    a ∈ t.chain n ↔ c.Dominates head a n := by
  refine h.induction (P := fun n => a ∈ t.chain n ↔ c.Dominates head a n) ?_ ?_ hn
  · rw [h.chain_head, List.mem_singleton, Cfg.dominates_head_iff hn.source]
  · intro n d _ hd hchain ih
    rw [hchain, List.mem_cons, ih, hd.dominates_iff]

/-- What stands on a chain has the rest of it as its own chain. -/
theorem Exact.exists_chain_append (h : t.Exact c head) (hn : c.Reaches head n)
    (ha : a ∈ t.chain n) : ∃ below, t.chain n = below ++ t.chain a := by
  refine h.induction (P := fun n => a ∈ t.chain n → ∃ below, t.chain n = below ++ t.chain a)
    ?_ ?_ hn ha
  · intro hmem
    rw [h.chain_head, List.mem_singleton] at hmem
    rw [hmem]
    exact ⟨[], rfl⟩
  · intro n d _ _ hchain ih hmem
    rw [hchain] at hmem
    rcases List.mem_cons.mp hmem with rfl | hmem
    · exact ⟨[], rfl⟩
    · obtain ⟨below, heq⟩ := ih hmem
      refine ⟨n :: below, ?_⟩
      rw [hchain, heq, List.cons_append]

theorem Exact.chain_nodup (h : t.Exact c head) (hn : c.Reaches head n) : (t.chain n).Nodup := by
  refine h.induction (P := fun n => (t.chain n).Nodup) ?_ ?_ hn
  · rw [h.chain_head]
    exact List.nodup_singleton _
  · intro n d hn hd hchain ih
    rw [hchain, List.nodup_cons, h.mem_chain_iff (hd.dominates.reaches hn)]
    exact ⟨hd.not_dominates hn, ih⟩

theorem Exact.dominates_iff (h : t.Exact c head) (hb : c.Reaches head b) :
    t.dominates a b = true ↔ c.Dominates head a b := by
  unfold dominates
  rw [decide_eq_true_eq, h.mem_chain_iff hb]

/-- **Dominator trees are exact.** For every graph that can be built and every node of it as head,
the tree exists, its nodes are those that the head reaches, it says that one node dominates another
just when every path from the head to the latter passes through the former, and the parent of every
node but the head is its one immediate dominator. -/
theorem withHead_exact (hc : c.Built) (hhead : c.Has head) :
    ∃ t, withHead c head = .ok t ∧ (∀ n, n ∈ t.nodes ↔ c.Reaches head n) ∧
      (∀ a ∈ t.nodes, ∀ b ∈ t.nodes, t.dominates a b = true ↔ ∀ ns, c.Path head ns b → a ∈ ns) ∧
      t.root? = some head ∧ t.parent? head = none ∧
      ∀ b ∈ t.nodes, b ≠ head → ∃ d ∈ t.nodes, t.parent? b = some d ∧
        c.ImmediatelyDominates head d b ∧ ∀ d', c.ImmediatelyDominates head d' b → d' = d := by
  obtain ⟨t, ht, hexact⟩ := withHead_eq_ok hc.valid hhead
  have hreached := hexact.listing.reached
  refine ⟨t, ht, hreached, ?_, hexact.listing.first, hexact.parent_head, ?_⟩
  · intro a _ b hb
    exact hexact.dominates_iff ((hreached b).mp hb)
  · intro b hb hne
    have hb := (hreached b).mp hb
    obtain ⟨d, hparent, hd, -⟩ := hexact.parent b hb hne
    exact ⟨d, (hreached d).mpr (hd.dominates.reaches hb), hparent, hd, fun d' hd' => hd.eq hd' hb⟩

/-- A loop of two instructions behind the entry. The second one leaves it, the exit leads back to
the entry, and the start leads into the loop though nothing leads to the start. -/
def loopGraph : Cfg :=
  let first := FlowNode.instruction ⟨"P.Update()", ⟨0, 0⟩, "nop"⟩
  let second := FlowNode.instruction ⟨"P.Update()", ⟨0, 1⟩, "nop"⟩
  let inner := ((Cfg.empty.addEdge .entry first).addEdge first second).addEdge second first
  ((inner.addEdge second .exit).addEdge .start second).addEdge .exit .entry

theorem withHead_exact_loopGraph : loopGraph.Built ∧ loopGraph.Has .entry ∧
    ∃ t, withHead loopGraph .entry = .ok t ∧ (∀ n, n ∈ t.nodes ↔ loopGraph.Reaches .entry n) ∧
      (∀ a ∈ t.nodes, ∀ b ∈ t.nodes,
        t.dominates a b = true ↔ ∀ ns, loopGraph.Path .entry ns b → a ∈ ns) ∧
      t.root? = some .entry ∧ t.parent? .entry = none ∧
      ∀ b ∈ t.nodes, b ≠ .entry → ∃ d ∈ t.nodes, t.parent? b = some d ∧
        loopGraph.ImmediatelyDominates .entry d b ∧
          ∀ d', loopGraph.ImmediatelyDominates .entry d' b → d' = d := by
  have hbuilt : loopGraph.Built := by
    unfold loopGraph
    repeat apply Cfg.Built.addEdge
    exact .empty
  have hentry : loopGraph.Has .entry := by
    unfold loopGraph
    refine ((Cfg.Valid.addEdge (Cfg.Built.valid ?_) _ _).nodes _).mpr (.inl (.inr rfl))
    repeat apply Cfg.Built.addEdge
    exact .empty
  exact ⟨hbuilt, hentry, withHead_exact hbuilt hentry⟩

end DominatorTree

end PlayerPaths
