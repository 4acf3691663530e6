import PlayerPaths.Proofs.Execution.ControlFlow

/-!
# Heads of the graphs of methods

The graph of a method begins at its entry. Turned around it begins where control ends: at the exit
when some instruction leaves the method, else at an instruction that control gets to and that only
leads to itself. A method in which control always goes on to another instruction has neither
(`Body.Endless`), and its graph turned around has no head.
-/

namespace PlayerPaths

open IL

namespace IL.Body

/-- Control begins at a location, or comes there from another one. -/
def Entered (b : Body) (l : Location) : Prop :=
  b.resolve (.start 0) = some l ∨
    ∃ l' i, l' ≠ l ∧ b.instruction? l' = some i ∧ i.isGlue = false ∧
      l ∈ b.successorsOf l' i.operation

/-- No instruction follows the one at a location. -/
def LeavesAt (b : Body) (l : Location) : Prop :=
  ∃ i, b.instruction? l = some i ∧ i.isGlue = false ∧ b.successorsOf l i.operation = []

/-- Control comes to an instruction that is followed by itself only. -/
def StaysAt (b : Body) (l : Location) : Prop :=
  b.Entered l ∧
    ∃ i, b.instruction? l = some i ∧ i.isGlue = false ∧ b.successorsOf l i.operation = [l]

/-- Control has a beginning, and always goes on to another instruction. -/
def Endless (b : Body) : Prop :=
  b.resolve (.start 0) ≠ none ∧ ∀ l, ¬ b.LeavesAt l ∧ ¬ b.StaysAt l

/-- The successors of an instruction that are no other location than its own. -/
theorem successorsOf_eq_of_forall {b : Body} {l : Location} {o : Operation}
    (hsome : b.successorsOf l o ≠ []) (hall : ∀ l' ∈ b.successorsOf l o, l' = l) :
    b.successorsOf l o = [l] := by
  have hnodup : (b.successorsOf l o).Nodup := nodup_eraseDups _
  rw [← List.perm_singleton, List.perm_ext_iff_of_nodup hnodup (List.nodup_singleton l)]
  intro l'
  rw [List.mem_singleton]
  refine ⟨hall l', ?_⟩
  rintro rfl
  obtain ⟨l'', hl''⟩ := List.exists_mem_of_ne_nil _ hsome
  rwa [hall l'' hl''] at hl''

end IL.Body

namespace Cfg

variable {m : Method} {b : Body} {c : Cfg} {l first : Location} {i : Instruction} {n : FlowNode}

/-- A graph has a head that nothing leads to, or everything is led to. -/
theorem Valid.head_cases (h : c.Valid) :
    (∃ n, c.head = .ok n ∧ c.Has n ∧ ∀ a, ¬ c.HasEdge a n) ∨
      c.head = .error (.fault .noHead) ∧ ∀ n, c.Has n → ∃ a, c.HasEdge a n := by
  unfold head
  dsimp only
  split
  · next n hn =>
    left
    have hmem : n ∈ c.graph.heads.map Prod.snd := by
      rcases Option.or_eq_some_iff.mp hn with hfind | ⟨-, hhead⟩
      · exact List.mem_of_find?_eq_some hfind
      · exact List.mem_of_mem_head? hhead
    exact ⟨n, rfl, h.mem_heads.mp hmem⟩
  · next hnone =>
    right
    refine ⟨rfl, fun n hn => ?_⟩
    by_contra hfirst
    have hmem := h.mem_heads.mpr ⟨hn, not_exists.mp hfirst⟩
    rw [Option.or_eq_none_iff, List.head?_eq_none_iff] at hnone
    rw [hnone.2] at hmem
    exact absurd hmem List.not_mem_nil

theorem eq_nodeAt (h : instructionNode m b l = .ok n) (hi : b.instruction? l = some i) :
    n = nodeAt m l i :=
  Except.ok.inj (h.symm.trans (instructionNode_nodeAt hi))

theorem nodeAt_ne {l' : Location} {i' : Instruction} (h : l' ≠ l) : nodeAt m l' i' ≠ nodeAt m l i :=
  fun heq => h (InstructionNode.mk.inj (FlowNode.instruction.inj heq)).2.1

section

variable (hbody : m.body = some b) (hb : b.Numbered) (hfirst : b.resolve (.start 0) = some first)
  (hc : ofMethod m = .ok c)
include hbody hb hfirst hc

/-- Nothing follows the node of an instruction that is followed by itself only. -/
theorem last_nodeAt_iff (hi : b.instruction? l = some i) (hreal : i.isGlue = false) :
    (∀ a, ¬ c.HasEdge (nodeAt m l i) a) ↔ b.successorsOf l i.operation = [l] := by
  have hedge := fun a => hasEdge_nodeAt_iff (n := a) hbody hb hfirst hc hi hreal
  constructor
  · intro hnone
    refine Body.successorsOf_eq_of_forall (fun hempty => ?_) (fun l' hl' => ?_)
    · exact hnone .exit ((hedge _).mpr (.inr ⟨hempty, rfl⟩))
    · by_contra hne
      obtain ⟨i', hi', -⟩ := Body.successorsOf_real hl'
      exact hnone _ ((hedge _).mpr (.inl ⟨l', hl', instructionNode_nodeAt hi', nodeAt_ne hne⟩))
  · intro hself a ha
    rcases (hedge a).mp ha with ⟨l', hl', hnode, hne⟩ | ⟨hempty, -⟩
    · rw [hself, List.mem_singleton] at hl'
      subst hl'
      exact hne (eq_nodeAt hnode hi)
    · rw [hself] at hempty
      cases hempty

/-- The instructions that control gets to are led to in the graph. -/
theorem exists_edge_of_entered (h : b.Entered l) (hi : b.instruction? l = some i) :
    ∃ a, c.HasEdge a (nodeAt m l i) := by
  obtain ⟨-, -, hedges⟩ := ofMethod_edges hbody hb hfirst hc
  rcases h with hstart | ⟨l', i', hne, hi', hreal', hmem⟩
  · exact ⟨.entry, (hedges _ _).mpr (.inl ⟨rfl, l, hstart, instructionNode_nodeAt hi⟩)⟩
  · exact ⟨nodeAt m l' i', (hasEdge_nodeAt_iff hbody hb hfirst hc hi' hreal').mpr
      (.inl ⟨l, hmem, instructionNode_nodeAt hi, nodeAt_ne hne.symm⟩)⟩

/-- What is led to is the exit, when an instruction leaves the method, or an instruction that
control gets to. -/
theorem entered_of_hasEdge {a : FlowNode} (h : c.HasEdge a n) :
    (n = .exit ∧ ∃ l, b.LeavesAt l) ∨
      ∃ l i, b.Entered l ∧ b.instruction? l = some i ∧ i.isGlue = false ∧ n = nodeAt m l i := by
  obtain ⟨-, -, hedges⟩ := ofMethod_edges hbody hb hfirst hc
  rcases (hedges _ _).mp h with ⟨-, l, hl, hnode⟩ |
    ⟨l, i, hi, hreal, hsource, ⟨l', hl', hnode, hne⟩ | ⟨hempty, rfl⟩⟩
  · obtain ⟨i, hi, hreal⟩ := Body.resolve_real hl
    exact .inr ⟨l, i, .inl hl, hi, hreal, eq_nodeAt hnode hi⟩
  · obtain ⟨i', hi', hreal'⟩ := Body.successorsOf_real hl'
    refine .inr ⟨l', i', .inr ⟨l, i, ?_, hi, hreal, hl'⟩, hi', hreal', eq_nodeAt hnode hi'⟩
    rintro rfl
    exact hne (Except.ok.inj (hnode.symm.trans hsource))
  · exact .inl ⟨rfl, l, i, hi, hreal, hempty⟩

/-- The nodes that nothing follows are the exit, when an instruction leaves the method, and the
instructions at which control stays. -/
theorem last_iff : (c.Has n ∧ ∀ a, ¬ c.HasEdge n a) ↔
    (n = .exit ∧ ∃ l, b.LeavesAt l) ∨
      ∃ l i, b.StaysAt l ∧ b.instruction? l = some i ∧ n = nodeAt m l i := by
  constructor
  · rintro ⟨hn, hlast⟩
    obtain ⟨-, hspanned, -⟩ := ofMethod_edges hbody hb hfirst hc
    obtain ⟨a, hnext | hedge⟩ := hspanned n hn
    · exact absurd hnext (hlast a)
    · rcases entered_of_hasEdge hbody hb hfirst hc hedge with
        hexit | ⟨l, i, hentered, hi, hreal, rfl⟩
      · exact .inl hexit
      · have hself := (last_nodeAt_iff hbody hb hfirst hc hi hreal).mp hlast
        exact .inr ⟨l, i, ⟨hentered, i, hi, hreal, hself⟩, hi, rfl⟩
  · rintro (⟨rfl, l, i, hi, hreal, hempty⟩ | ⟨l, i, ⟨hentered, i', hi', hreal, hself⟩, hi, rfl⟩)
    · have hedge := (hasEdge_nodeAt_iff hbody hb hfirst hc hi hreal).mpr (.inr ⟨hempty, rfl⟩)
      exact ⟨hedge.target, (ofMethod_graphOf hc).exit_last⟩
    · obtain rfl := Option.some.inj (hi.symm.trans hi')
      obtain ⟨a, hedge⟩ := exists_edge_of_entered hbody hb hfirst hc hentered hi
      exact ⟨hedge.target, (last_nodeAt_iff hbody hb hfirst hc hi hreal).mpr hself⟩

end

/-- The exit is the head of the graph turned around, if it is in the graph. -/
theorem ofMethod_reverse_head (hc : ofMethod m = .ok c) (hexit : c.Has .exit) :
    c.reverse.head = .ok .exit := by
  have hof := ofMethod_graphOf hc
  refine hof.valid.reverse.head_eq_ok hexit rfl (fun a ha => ?_) ?_
  · exact hof.exit_last a (hasEdge_reverse.mp ha)
  · -- The only other sentinel is the entry, which leads somewhere.
    intro k hsentinel hk hlast
    rcases hof.nodes k hk with rfl | rfl | ⟨node, rfl, -⟩
    · obtain ⟨a, ha⟩ := hof.entry_leads
      exact absurd (hasEdge_reverse.mpr ha) (hlast a)
    · rfl
    · cases hsentinel

/-- **Where the graphs of a method begin.** The graph of a method begins at the entry, to which
nothing leads. Turned around it begins at the exit, when the method is empty or an instruction
leaves it, and else at an instruction at which control stays. It has no head exactly when control
does neither. -/
theorem ofMethod_heads (hbody : m.body = some b) (hb : b.Numbered) :
    ∃ c, ofMethod m = .ok c ∧ c.head = .ok .entry ∧ (∀ a, ¬ c.HasEdge a .entry) ∧
      (b.resolve (.start 0) = none ∨ (∃ l, b.LeavesAt l) → c.reverse.head = .ok .exit) ∧
      (b.resolve (.start 0) ≠ none → (∀ l, ¬ b.LeavesAt l) → (∃ l, b.StaysAt l) →
        ∃ l i, b.StaysAt l ∧ b.instruction? l = some i ∧ c.reverse.head = .ok (nodeAt m l i)) ∧
      (c.reverse.head = .error (.fault .noHead) ↔ b.Endless) := by
  obtain ⟨c, hc⟩ := exists_ofMethod hbody hb
  have hof := ofMethod_graphOf hc
  have hcases := hof.valid.reverse.head_cases
  simp only [has_reverse, hasEdge_reverse] at hcases
  have hexits : b.resolve (.start 0) = none ∨ (∃ l, b.LeavesAt l) →
      c.reverse.head = .ok .exit := by
    intro hends
    apply ofMethod_reverse_head hc
    cases hfirst : b.resolve (.start 0) with
    | none =>
        rw [ofMethod_empty hbody hfirst hc]
        exact ((valid_empty.addEdge .entry .exit).nodes _).mpr (.inl (.inr rfl))
    | some first =>
        rw [hfirst] at hends
        have hleaves := hends.resolve_left (by simp)
        exact ((last_iff hbody hb hfirst hc).mpr (.inl ⟨rfl, hleaves⟩)).1
  have hstays : b.resolve (.start 0) ≠ none → (∀ l, ¬ b.LeavesAt l) → (∃ l, b.StaysAt l) →
      ∃ l i, b.StaysAt l ∧ b.instruction? l = some i ∧ c.reverse.head = .ok (nodeAt m l i) := by
    rintro hstart hleaves ⟨l, hl⟩
    obtain ⟨first, hfirst⟩ := Option.ne_none_iff_exists'.mp hstart
    have hlast := fun n => last_iff (n := n) hbody hb hfirst hc
    rcases hcases with ⟨n, hhead, hn⟩ | ⟨-, hall⟩
    · rcases (hlast n).mp hn with ⟨-, l', hl'⟩ | ⟨l', i, hl', hi, rfl⟩
      · exact absurd hl' (hleaves l')
      · exact ⟨l', i, hl', hi, hhead⟩
    · obtain ⟨-, i, hi, -⟩ := id hl
      obtain ⟨hn, hnone⟩ := (hlast (nodeAt m l i)).mpr (.inr ⟨l, i, hl, hi, rfl⟩)
      obtain ⟨a, ha⟩ := hall _ hn
      exact absurd ha (hnone a)
  refine ⟨c, hc, ofMethod_head hbody hc, fun a ha => ?_, hexits, hstays, fun herror => ?_,
    fun ⟨hstart, hgoes⟩ => ?_⟩
  · rcases ((ofMethod_ends hbody hc).2 _ _ ha).2 with heq | ⟨l, hl⟩
    · cases heq
    · cases location?_of_instructionNode hl
  · rw [herror] at hexits hstays
    have hstart : b.resolve (.start 0) ≠ none := fun hnone => by cases hexits (.inl hnone)
    have hleaves : ∀ l, ¬ b.LeavesAt l := fun l hl => by cases hexits (.inr ⟨l, hl⟩)
    refine ⟨hstart, fun l => ⟨hleaves l, fun hl => ?_⟩⟩
    obtain ⟨_, _, -, -, hhead⟩ := hstays hstart hleaves ⟨l, hl⟩
    cases hhead
  · obtain ⟨first, hfirst⟩ := Option.ne_none_iff_exists'.mp hstart
    rcases hcases with ⟨n, -, hn⟩ | ⟨herror, -⟩
    · rcases (last_iff hbody hb hfirst hc).mp hn with ⟨-, l, hl⟩ | ⟨l, i, hl, -⟩
      · exact absurd hl (hgoes l).1
      · exact absurd hl (hgoes l).2
    · exact herror

/-- A callback that saves the game until it is over, and then returns. -/
def autosave : Method :=
  ⟨⟨"Player", "Update", [], .void, 0⟩, [], "Game", some { blocks := [⟨0,
    [⟨.call ⟨⟨"Player", "Save", [], .void, 1⟩, []⟩, [⟨0, 0⟩]⟩,
      ⟨.branchIf (.staticField ⟨"Player", "playing", .bool, true⟩) 0, [⟨1, 1⟩]⟩,
      ⟨.leave none, [⟨2, 2⟩]⟩]⟩] }⟩

theorem ofMethod_heads_autosave : ∃ b c, autosave.body = some b ∧ b.Numbered ∧
    ofMethod autosave = .ok c ∧ c.head = .ok .entry ∧ c.reverse.head = .ok .exit := by
  have hb : ∀ b ∈ autosave.body, b.Numbered := by
    rintro _ ⟨⟩
    unfold Body.Numbered
    decide
  obtain ⟨c, hc, hhead, -, hexits, -⟩ := ofMethod_heads (m := autosave) rfl (hb _ rfl)
  exact ⟨_, c, rfl, hb _ rfl, hc, hhead, hexits (.inr ⟨⟨0, 2⟩, _, rfl, rfl, rfl⟩)⟩

def saveForever : Method :=
  ⟨⟨"Player", "Update", [], .void, 0⟩, [], "Game", some { blocks := [⟨0,
    [⟨.call ⟨⟨"Player", "Save", [], .void, 1⟩, []⟩, [⟨0, 0⟩]⟩, ⟨.branch 0, [⟨1, 1⟩]⟩]⟩] }⟩

/-- **A graph turned around without head.** Control goes round in the callback, so every node of its
graph leads somewhere. -/
theorem saveForever_reverse_headless : (∀ b ∈ saveForever.body, b.Numbered) ∧
    ∃ c, ofMethod saveForever = .ok c ∧ c.head = .ok .entry ∧
      c.reverse.head = .error (.fault .noHead) ∧ ∀ n, c.Has n → ∃ a, c.reverse.HasEdge a n := by
  have hb : ∀ b ∈ saveForever.body, b.Numbered := by
    rintro _ ⟨⟩
    unfold Body.Numbered
    decide
  obtain ⟨c, hc⟩ := exists_ofMethod (m := saveForever) rfl (hb _ rfl)
  have hheads : (match ofMethod saveForever with
      | .ok c => decide (c.head = .ok .entry ∧ c.reverse.head = .error (.fault .noHead))
      | .error _ => false) = true := by
    decide +kernel
  rw [hc] at hheads
  obtain ⟨hhead, hreverse⟩ := of_decide_eq_true hheads
  refine ⟨hb, c, hc, hhead, hreverse, fun n hn => ?_⟩
  rcases (ofMethod_graphOf hc).valid.reverse.head_cases with ⟨_, hsome, -⟩ | ⟨-, hall⟩
  · rw [hreverse] at hsome
    cases hsome
  · exact hall n hn

end Cfg

end PlayerPaths
