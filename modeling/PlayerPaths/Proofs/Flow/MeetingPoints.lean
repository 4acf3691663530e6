import PlayerPaths.Proofs.Flow.Dominators

/-!
# Meeting points

The chains of two nodes of a dominator tree share a beginning, seen from the head: the chain of the
point where they meet (`DominatorTree.Exact.chain_meeting`). So the lowest common ancestor exists,
and its dominators are what dominates both nodes (`DominatorTree.nearest_common_dominator`); below
it stands what dominates one of the nodes only.
-/

namespace PlayerPaths.DominatorTree

variable {c : Cfg} {head a d m n : FlowNode} {t : DominatorTree}

/-! ## Common beginnings -/

section

variable {α : Type} [DecidableEq α] {as bs : List α}

/-- The longest common beginning of two lists. -/
def commonPrefix : List α → List α → List α
  | a :: as, b :: bs => if a = b then a :: commonPrefix as bs else []
  | _, _ => []

theorem lastCommon_eq_getLast? : lastCommon as bs = (commonPrefix as bs).getLast? := by
  induction as generalizing bs with
  | nil => rfl
  | cons a as ih =>
      cases bs with
      | nil => rfl
      | cons b bs =>
          rw [lastCommon, commonPrefix]
          split
          · rw [ih, List.getLast?_cons]
            cases (commonPrefix as bs).getLast? <;> rfl
          · rfl

theorem commonPrefix_left : commonPrefix as bs <+: as := by
  induction as generalizing bs with
  | nil => exact List.nil_prefix
  | cons a as ih =>
      cases bs with
      | nil => exact List.nil_prefix
      | cons b bs =>
          rw [commonPrefix]
          split
          · exact List.cons_prefix_cons.mpr ⟨rfl, ih⟩
          · exact List.nil_prefix

theorem commonPrefix_comm : commonPrefix as bs = commonPrefix bs as := by
  induction as generalizing bs with
  | nil => cases bs <;> rfl
  | cons a as ih =>
      cases bs with
      | nil => rfl
      | cons b bs =>
          rw [commonPrefix, commonPrefix, ih]
          by_cases heq : a = b
          · rw [if_pos heq, if_pos heq.symm, heq]
          · rw [if_neg heq, if_neg (Ne.symm heq)]

/-- Every common beginning is one of the longest. -/
theorem prefix_commonPrefix {cs : List α} (ha : cs <+: as) (hb : cs <+: bs) :
    cs <+: commonPrefix as bs := by
  induction cs generalizing as bs with
  | nil => exact List.nil_prefix
  | cons c cs ih =>
      obtain ⟨as', rfl⟩ := ha
      obtain ⟨bs', rfl⟩ := hb
      rw [List.cons_append, List.cons_append, commonPrefix, if_pos rfl, List.cons_prefix_cons]
      exact ⟨rfl, ih (List.prefix_append cs as') (List.prefix_append cs bs')⟩

/-- What stands before an element of a list without repetitions. -/
theorem takeWhile_ne_of_nodup {below above : List α} {x : α} (h : (below ++ x :: above).Nodup) :
    (below ++ x :: above).takeWhile (· ≠ x) = below := by
  obtain ⟨-, -, hdisjoint⟩ := List.nodup_append.mp h
  rw [List.takeWhile_append_of_pos]
  · simp
  · intro k hk
    simpa using hdisjoint k hk x List.mem_cons_self

end

/-! ## Where chains meet -/

/-- A node stands in front of its chain. -/
theorem Exact.exists_chain_eq_cons (h : t.Exact c head) (hn : c.Reaches head n) :
    ∃ above, t.chain n = n :: above := by
  by_cases heq : n = head
  · subst heq
    exact ⟨[], h.chain_head⟩
  · obtain ⟨d, -, -, hchain⟩ := h.parent n hn heq
    exact ⟨_, hchain⟩

/-- Seen from the head, a chain begins with the chain of every node on it. -/
theorem Exact.chain_prefix (h : t.Exact c head) (hn : c.Reaches head n) (ha : a ∈ t.chain n) :
    (t.chain a).reverse <+: (t.chain n).reverse := by
  obtain ⟨below, heq⟩ := h.exists_chain_append hn ha
  rw [heq, List.reverse_append]
  exact List.prefix_append _ _

/-- Two chains share, from their tops, exactly what is on both. -/
theorem Exact.mem_commonPrefix_iff (h : t.Exact c head) (hm : c.Reaches head m)
    (hn : c.Reaches head n) :
    a ∈ commonPrefix (t.chain m).reverse (t.chain n).reverse ↔ a ∈ t.chain m ∧ a ∈ t.chain n := by
  constructor
  · intro ha
    refine ⟨List.mem_reverse.mp (commonPrefix_left.mem ha), List.mem_reverse.mp ?_⟩
    rw [commonPrefix_comm] at ha
    exact commonPrefix_left.mem ha
  · rintro ⟨ham, han⟩
    -- The chain of a node on both of them is the top of both.
    have htop := prefix_commonPrefix (h.chain_prefix hm ham) (h.chain_prefix hn han)
    have hself : a ∈ t.chain a :=
      (h.mem_chain_iff (((h.mem_chain_iff hn).mp han).reaches hn)).mpr .refl
    exact htop.mem (List.mem_reverse.mpr hself)

theorem lowestCommonAncestor_eq_ok : t.lowestCommonAncestor m n = .ok a ↔
    (commonPrefix (t.chain m).reverse (t.chain n).reverse).getLast? = some a := by
  unfold lowestCommonAncestor
  rw [lastCommon_eq_getLast?]
  cases (commonPrefix (t.chain m).reverse (t.chain n).reverse).getLast? <;> simp

/-- The meeting point of two chains is on both. -/
theorem Exact.meeting_mem_chains (h : t.Exact c head) (hm : c.Reaches head m)
    (hn : c.Reaches head n) (ha : t.lowestCommonAncestor m n = .ok a) :
    a ∈ t.chain m ∧ a ∈ t.chain n := by
  rw [← h.mem_commonPrefix_iff hm hn]
  exact List.mem_of_getLast? (lowestCommonAncestor_eq_ok.mp ha)

/-- What two chains share is the chain of the point where they meet. -/
theorem Exact.chain_meeting (h : t.Exact c head) (hm : c.Reaches head m) (hn : c.Reaches head n)
    (ha : t.lowestCommonAncestor m n = .ok a) :
    commonPrefix (t.chain m).reverse (t.chain n).reverse = (t.chain a).reverse := by
  obtain ⟨above, hcommon⟩ := List.getLast?_eq_some_iff.mp (lowestCommonAncestor_eq_ok.mp ha)
  have hboth := h.meeting_mem_chains hm hn ha
  obtain ⟨rest, hrest⟩ :=
    prefix_commonPrefix (h.chain_prefix hm hboth.1) (h.chain_prefix hn hboth.2)
  have hnodup : (commonPrefix (t.chain m).reverse (t.chain n).reverse).Nodup :=
    (List.nodup_reverse.mpr (h.chain_nodup hm)).sublist commonPrefix_left.sublist
  obtain ⟨below, hchain⟩ :=
    h.exists_chain_eq_cons (((h.mem_chain_iff hm).mp hboth.1).reaches hm)
  -- The node ends its own chain and what is shared, and it stands in neither of them twice.
  rw [hcommon] at hrest hnodup ⊢
  rw [hchain, List.reverse_cons] at hrest ⊢
  rcases List.eq_nil_or_concat rest with rfl | ⟨before, last, rfl⟩
  · rw [← hrest, List.append_nil]
  · rw [List.concat_eq_append, ← List.append_assoc] at hrest
    obtain ⟨habove, -⟩ := List.append_inj' hrest rfl
    have hmem : a ∈ above := by
      rw [← habove]
      simp
    exact absurd rfl ((List.nodup_append.mp hnodup).2.2 a hmem a (List.mem_singleton.mpr rfl))

theorem Exact.mem_chain_meeting_iff (h : t.Exact c head) (hm : c.Reaches head m)
    (hn : c.Reaches head n) (ha : t.lowestCommonAncestor m n = .ok a) :
    d ∈ t.chain a ↔ d ∈ t.chain m ∧ d ∈ t.chain n := by
  rw [← h.mem_commonPrefix_iff hm hn, h.chain_meeting hm hn ha, List.mem_reverse]

/-- Below the point where two chains meet stands what is on one chain only. -/
theorem Exact.mem_takeWhile_iff (h : t.Exact c head) (hm : c.Reaches head m)
    (hn : c.Reaches head n) {meeting : FlowNode}
    (hmeeting : t.lowestCommonAncestor m n = .ok meeting) :
    a ∈ (t.chain n).takeWhile (· ≠ meeting) ↔ a ∈ t.chain n ∧ a ∉ t.chain m := by
  obtain ⟨hmm, hmn⟩ := h.meeting_mem_chains hm hn hmeeting
  obtain ⟨above, hchain⟩ := h.exists_chain_eq_cons (((h.mem_chain_iff hm).mp hmm).reaches hm)
  -- The chain is what stands below, followed by the chain of the meeting point.
  obtain ⟨below, heq⟩ := h.exists_chain_append hn hmn
  have hnodup := h.chain_nodup hn
  have hbelow : (t.chain n).takeWhile (· ≠ meeting) = below := by
    rw [heq, hchain] at hnodup ⊢
    exact takeWhile_ne_of_nodup hnodup
  rw [heq] at hnodup
  obtain ⟨-, -, hdisjoint⟩ := List.nodup_append.mp hnodup
  rw [hbelow]
  constructor
  · intro ha
    have han : a ∈ t.chain n := heq ▸ List.mem_append_left _ ha
    refine ⟨han, fun ham => hdisjoint a ha a ?_ rfl⟩
    exact (h.mem_chain_meeting_iff hm hn hmeeting).mpr ⟨ham, han⟩
  · rintro ⟨han, ham⟩
    rw [heq, List.mem_append] at han
    rcases han with ha | ha
    · exact ha
    · exact absurd ((h.mem_chain_meeting_iff hm hn hmeeting).mp ha).1 ham

/-- **Two chains meet**, at the node whose dominators are the dominators of both ends. -/
theorem Exact.exists_meeting (h : t.Exact c head) (hm : c.Reaches head m)
    (hn : c.Reaches head n) : ∃ a, t.lowestCommonAncestor m n = .ok a ∧ c.Reaches head a ∧
      ∀ d, c.Dominates head d a ↔ c.Dominates head d m ∧ c.Dominates head d n := by
  have hmem : ∀ d, d ∈ commonPrefix (t.chain m).reverse (t.chain n).reverse ↔
      c.Dominates head d m ∧ c.Dominates head d n := by
    intro d
    rw [h.mem_commonPrefix_iff hm hn, h.mem_chain_iff hm, h.mem_chain_iff hn]
  cases hlast : (commonPrefix (t.chain m).reverse (t.chain n).reverse).getLast? with
  | none =>
      -- The head dominates both.
      have hhead := (hmem head).mpr ⟨Cfg.dominates_of_head, Cfg.dominates_of_head⟩
      rw [List.getLast?_eq_none_iff.mp hlast] at hhead
      exact absurd hhead List.not_mem_nil
  | some a =>
      have ha := lowestCommonAncestor_eq_ok.mpr hlast
      have hreached := ((hmem a).mp (List.mem_of_getLast? hlast)).1.reaches hm
      refine ⟨a, ha, hreached, fun d => ?_⟩
      rw [← hmem, h.chain_meeting hm hn ha, List.mem_reverse, h.mem_chain_iff hreached]

/-- A tree that was made for a head is exact. -/
theorem exact_of_withHead (hc : c.Valid) (ht : withHead c head = .ok t) : t.Exact c head := by
  have hhead : c.Has head := by
    obtain ⟨nodes, horder, -⟩ := bind_eq_ok.mp ht
    unfold Cfg.preOrder at horder
    split at horder
    · next i hi => exact ⟨i, hc.index?_eq_some.mp hi⟩
    · cases horder
  obtain ⟨t', ht', hexact⟩ := withHead_eq_ok hc hhead
  obtain rfl := Except.ok.inj (ht.symm.trans ht')
  exact hexact

/-- **The lowest common ancestor is the nearest common dominator.** For every tree of a graph that
can be built, and all nodes of the tree, it exists and is a node of the tree, it dominates both
nodes, and every node that dominates both of them dominates it. The paths of the graph say the
same. -/
theorem nearest_common_dominator (hc : c.Built) (ht : withHead c head = .ok t) (hm : m ∈ t.nodes)
    (hn : n ∈ t.nodes) : ∃ a ∈ t.nodes, t.lowestCommonAncestor m n = .ok a ∧
      (t.dominates a m = true ∧ t.dominates a n = true ∧
        ∀ d, t.dominates d m = true → t.dominates d n = true → t.dominates d a = true) ∧
      (c.Dominates head a m ∧ c.Dominates head a n ∧
        ∀ d, c.Dominates head d m → c.Dominates head d n → c.Dominates head d a) := by
  have hexact := exact_of_withHead hc.valid ht
  have hreached := hexact.listing.reached
  have hm := (hreached m).mp hm
  have hn := (hreached n).mp hn
  obtain ⟨a, hlowest, ha, hiff⟩ := hexact.exists_meeting hm hn
  obtain ⟨ham, han⟩ := (hiff a).mp .refl
  refine ⟨a, (hreached a).mpr ha, hlowest, ⟨?_, ?_, ?_⟩, ham, han, ?_⟩
  · exact (hexact.dominates_iff hm).mpr ham
  · exact (hexact.dominates_iff hn).mpr han
  · intro d hdm hdn
    rw [hexact.dominates_iff hm] at hdm
    rw [hexact.dominates_iff hn] at hdn
    exact (hexact.dominates_iff ha).mpr ((hiff d).mpr ⟨hdm, hdn⟩)
  · exact fun d hdm hdn => (hiff d).mpr ⟨hdm, hdn⟩

/-- Two ways that fork behind the first instruction and join at the exit. One of them may go back. -/
def forkGraph : Cfg :=
  let first := FlowNode.instruction ⟨"P.Update()", ⟨0, 0⟩, "nop"⟩
  let left := FlowNode.instruction ⟨"P.Update()", ⟨1, 0⟩, "nop"⟩
  let right := FlowNode.instruction ⟨"P.Update()", ⟨2, 0⟩, "nop"⟩
  let forked := ((Cfg.empty.addEdge .entry first).addEdge first left).addEdge first right
  ((forked.addEdge left .exit).addEdge right .exit).addEdge left first

/-- The left way of `forkGraph` and the exit have a nearest common dominator, though the exit has
another way to it. -/
theorem forkGraph_meets :
    let left := FlowNode.instruction ⟨"P.Update()", ⟨1, 0⟩, "nop"⟩
    forkGraph.Built ∧ ∃ t, withHead forkGraph .entry = .ok t ∧ left ∈ t.nodes ∧ .exit ∈ t.nodes ∧
      ∃ a ∈ t.nodes, t.lowestCommonAncestor left .exit = .ok a ∧
        (t.dominates a left = true ∧ t.dominates a .exit = true ∧
          ∀ d, t.dominates d left = true → t.dominates d .exit = true → t.dominates d a = true) ∧
        (forkGraph.Dominates .entry a left ∧ forkGraph.Dominates .entry a .exit ∧
          ∀ d, forkGraph.Dominates .entry d left → forkGraph.Dominates .entry d .exit →
            forkGraph.Dominates .entry d a) := by
  intro left
  have hbuilt : forkGraph.Built := by
    unfold forkGraph
    repeat apply Cfg.Built.addEdge
    exact .empty
  have hcheck : (match withHead forkGraph .entry with
      | .ok t => decide (left ∈ t.nodes ∧ .exit ∈ t.nodes)
      | .error _ => false) = true := by
    decide +kernel
  split at hcheck
  · next t ht =>
    obtain ⟨hleft, hexit⟩ := of_decide_eq_true hcheck
    exact ⟨hbuilt, t, ht, hleft, hexit, nearest_common_dominator hbuilt ht hleft hexit⟩
  · cases hcheck

end PlayerPaths.DominatorTree
