import PlayerPaths.Proofs.Flow.Paths

/-!
# Dominance

A node dominates another one when every path from the head to the latter passes through the former.
Dominance orders the nodes that the head reaches. Cutting a path behind the last strict dominator of
its end shows that every node but the head has an immediate dominator (`exists_immediate`).
-/

namespace PlayerPaths.Cfg

variable {c : Cfg} {head a b d : FlowNode} {ns : List FlowNode}

/-- Every path from the head to `b` passes through `a`. -/
def Dominates (c : Cfg) (head a b : FlowNode) : Prop := ∀ ns, c.Path head ns b → a ∈ ns

/-- `d` dominates `b` and is another node, and every other dominator of `b` dominates `d`. -/
structure ImmediatelyDominates (c : Cfg) (head d b : FlowNode) : Prop where
  ne : d ≠ b
  dominates : c.Dominates head d b
  closest : ∀ a, a ≠ b → c.Dominates head a b → c.Dominates head a d

theorem Dominates.refl : c.Dominates head a a := fun _ h => h.target_mem

theorem dominates_of_head : c.Dominates head head b := fun _ h => h.source_mem

theorem dominates_head_iff (h : c.Has head) : c.Dominates head a head ↔ a = head := by
  constructor
  · intro ha
    exact List.mem_singleton.mp (ha _ (.here h))
  · rintro rfl
    exact .refl

/-- What dominates a node that the head reaches is reached as well. -/
theorem Dominates.reaches (h : c.Dominates head a b) (hb : c.Reaches head b) :
    c.Reaches head a := by
  obtain ⟨ns, hns⟩ := hb
  obtain ⟨x, before, -, rfl, -, hto, -⟩ := hns.first_visit ⟨a, h ns hns, Eq.refl a⟩
  exact ⟨_, hto⟩

theorem Dominates.trans (hab : c.Dominates head a b) (hbd : c.Dominates head b d) :
    c.Dominates head a d := by
  intro ns hns
  obtain ⟨x, before, after, rfl, rfl, hto, -⟩ := hns.first_visit ⟨b, hbd ns hns, Eq.refl b⟩
  have ha := hab _ hto
  rw [List.mem_append, List.mem_singleton] at ha
  rw [List.mem_append, List.mem_cons]
  rcases ha with ha | ha
  · exact .inl ha
  · exact .inr (.inl ha)

/-- On a path from the head, one of two nodes comes first, and the other does not dominate it. -/
theorem Dominates.antisymm (hab : c.Dominates head a b) (hba : c.Dominates head b a)
    (hb : c.Reaches head b) : a = b := by
  obtain ⟨ns, hns⟩ := hb
  obtain ⟨y, before, after, hy, -, hto, hnone⟩ :=
    hns.first_visit (p := fun x => x = a ∨ x = b) ⟨b, hns.target_mem, .inr rfl⟩
  rcases hy with rfl | rfl
  · rcases List.mem_append.mp (hba _ hto) with hmem | hmem
    · exact absurd (.inr rfl) (hnone b hmem)
    · exact (List.mem_singleton.mp hmem).symm
  · rcases List.mem_append.mp (hab _ hto) with hmem | hmem
    · exact absurd (.inl rfl) (hnone a hmem)
    · exact List.mem_singleton.mp hmem

/-- What dominates a node dominates its predecessors, but for the node itself. -/
theorem Dominates.predecessor (h : c.Dominates head a b) (hne : a ≠ b) (edge : c.HasEdge d b) :
    c.Dominates head a d := by
  intro ns hns
  rcases List.mem_append.mp (h _ (hns.snoc edge)) with hmem | hmem
  · exact hmem
  · exact absurd (List.mem_singleton.mp hmem) hne

/-- **Every node in reach of the head, other than the head, has an immediate dominator.** -/
theorem exists_immediate (hb : c.Reaches head b) (hne : b ≠ head) :
    ∃ d, c.ImmediatelyDominates head d b := by
  obtain ⟨ns, hns⟩ := hb
  -- Behind the last strict dominator on the path, there is no further one.
  obtain ⟨d, after, ⟨hdne, hd⟩, hfrom, hnone⟩ :=
    hns.last_visit (p := fun x => x ≠ b ∧ c.Dominates head x b)
      ⟨head, hns.source_mem, hne.symm, dominates_of_head⟩
  refine ⟨d, hdne, hd, ?_⟩
  intro a hane ha ms hms
  -- Any path to it continues to the end, so the dominator lies in front.
  rcases List.mem_append.mp (ha _ (hms.append hfrom)) with hmem | hmem
  · exact hmem
  · exact absurd ⟨hane, ha⟩ (hnone a hmem)

theorem ImmediatelyDominates.eq (h : c.ImmediatelyDominates head d b)
    (ha : c.ImmediatelyDominates head a b) (hb : c.Reaches head b) : a = d :=
  (h.closest a ha.ne ha.dominates).antisymm (ha.closest d h.ne h.dominates)
    (h.dominates.reaches hb)

/-- The dominators of a node are the node itself and those of its immediate dominator. -/
theorem ImmediatelyDominates.dominates_iff (h : c.ImmediatelyDominates head d b) :
    c.Dominates head a b ↔ a = b ∨ c.Dominates head a d := by
  constructor
  · intro ha
    by_cases heq : a = b
    · exact .inl heq
    · exact .inr (h.closest a heq ha)
  · rintro (rfl | ha)
    · exact .refl
    · exact ha.trans h.dominates

/-- No node dominates its immediate dominator. -/
theorem ImmediatelyDominates.not_dominates (h : c.ImmediatelyDominates head d b)
    (hb : c.Reaches head b) : ¬ c.Dominates head b d := fun hbd =>
  h.ne (h.dominates.antisymm hbd hb)

end PlayerPaths.Cfg
