import PlayerPaths.Dependence.Build
import PlayerPaths.Proofs.Dependence.Graph
import PlayerPaths.Proofs.Flow.MeetingPoints
import PlayerPaths.Proofs.Flow.Scope

/-!
# Control dependence is exact

The graph of a method ends in the exit only, so its augmented graph, turned around, has the exit as
its head, and what dominates a node there lies on every path from the node to the exit. Walking up
from the target of an edge to the point where the two chains meet gives just the nodes that
post-dominate the target and not the source.
-/

namespace PlayerPaths

open IL Std

namespace Cfg

variable {m : Method} {c : Cfg} {a b n k : FlowNode} {ns : List FlowNode}

/-! ## Post-dominance -/

theorem GraphOf.not_has_start (h : GraphOf m c) : ¬ c.Has .start := by
  intro hstart
  rcases h.nodes _ hstart with heq | heq | ⟨_, heq, -⟩ <;> cases heq

theorem GraphOf.augmented (h : GraphOf m c) : c.augmented.Valid ∧
    (∀ n, c.augmented.Has n ↔ n = .start ∨ n = .entry ∨ n = .exit ∨ c.Has n) ∧
    ∀ a b, c.augmented.HasEdge a b ↔ (a = .start ∧ (b = .entry ∨ b = .exit)) ∨ c.HasEdge a b := by
  obtain ⟨hvalid, hnodes, hedges⟩ := h.valid.addEdge .start .entry
  obtain ⟨hvalid', hnodes', hedges'⟩ := hvalid.addEdge .start .exit
  refine ⟨hvalid', ?_, ?_⟩
  · intro n
    show ((c.addEdge .start .entry).addEdge .start .exit).Has n ↔ _
    rw [hnodes', hnodes]
    tauto
  · intro a b
    show ((c.addEdge .start .entry).addEdge .start .exit).HasEdge a b ↔ _
    rw [hedges', hedges]
    tauto

/-- The start is behind nothing, so paths of the augmented graph from elsewhere are paths. -/
theorem GraphOf.augmented_path_iff (h : GraphOf m c) (ha : c.Has a) :
    c.augmented.Path a ns b ↔ c.Path a ns b := by
  obtain ⟨-, hnodes, hedges⟩ := h.augmented
  constructor
  · intro hpath
    induction hpath with
    | here => exact .here ha
    | step edge _ ih =>
        rcases (hedges _ _).mp edge with ⟨rfl, -⟩ | edge
        · exact absurd ha h.not_has_start
        · exact .step edge (ih edge.target)
  · intro hpath
    refine hpath.map_edges ((hnodes b).mpr (.inr (.inr (.inr hpath.target)))) ?_
    intro x _ y _ edge
    exact (hedges x y).mpr (.inr edge)

theorem GraphOf.reaches_iff (h : GraphOf m c) (ha : c.Has a) :
    c.augmented.reverse.Reaches .exit a ↔ c.Reaches a .exit := by
  constructor
  · rintro ⟨ns, hpath⟩
    exact ⟨ns.reverse, (h.augmented_path_iff ha).mp (path_reverse_iff.mp hpath)⟩
  · rintro ⟨ns, hpath⟩
    exact ⟨ns.reverse, ((h.augmented_path_iff ha).mpr hpath).reverse⟩

/-- Dominance in the augmented graph turned around is post-dominance. -/
theorem GraphOf.dominates_iff (h : GraphOf m c) (ha : c.Has a) :
    c.augmented.reverse.Dominates .exit k a ↔ ∀ ns, c.Path a ns .exit → k ∈ ns := by
  constructor
  · intro hk ns hpath
    exact List.mem_reverse.mp (hk _ ((h.augmented_path_iff ha).mpr hpath).reverse)
  · intro hk ns hpath
    exact List.mem_reverse.mp (hk _ ((h.augmented_path_iff ha).mp (path_reverse_iff.mp hpath)))

theorem GraphOf.head_eq_ok (h : GraphOf m c) : c.augmented.reverse.head = .ok .exit := by
  obtain ⟨hvalid, hnodes, hedges⟩ := h.augmented
  have hexit : c.augmented.reverse.Has .exit :=
    has_reverse.mpr ((hnodes _).mpr (.inr (.inr (.inl rfl))))
  refine hvalid.reverse.head_eq_ok hexit rfl ?_ ?_
  · intro a ha
    rcases (hedges _ _).mp (hasEdge_reverse.mp ha) with ⟨heq, -⟩ | hedge
    · cases heq
    · exact h.exit_last a hedge
  · intro k hsentinel _ hlast
    -- The other sentinels lead somewhere.
    cases k with
    | exit => rfl
    | entry =>
        obtain ⟨n, hn⟩ := h.entry_leads
        exact absurd (hasEdge_reverse.mpr ((hedges _ _).mpr (.inr hn))) (hlast n)
    | start =>
        have hn := (hedges .start .exit).mpr (.inl ⟨rfl, .inr rfl⟩)
        exact absurd (hasEdge_reverse.mpr hn) (hlast .exit)
    | instruction node => cases hsentinel

/-- The tree of the post-dominators of a method is exact. -/
theorem GraphOf.exact (h : GraphOf m c) {post : DominatorTree}
    (hpost : DominatorTree.ofCfg c.augmented.reverse = .ok post) :
    post.Exact c.augmented.reverse .exit := by
  obtain ⟨hvalid, hnodes, -⟩ := h.augmented
  have hexit : c.augmented.reverse.Has .exit :=
    has_reverse.mpr ((hnodes _).mpr (.inr (.inr (.inl rfl))))
  obtain ⟨t, ht, hexact⟩ := DominatorTree.withHead_eq_ok hvalid.reverse hexit
  simp only [DominatorTree.ofCfg, h.head_eq_ok, bind_eq_ok, Except.ok.injEq, exists_eq_left',
    ht] at hpost
  rwa [← hpost]

end Cfg

/-! ## What a branch decides -/

namespace FlowMethod

variable {m : FlowMethod} {a b k : FlowNode} {source target : InstructionNode}

/-- A branch from `a` to `b` decides what dominates `b` and not `a`. -/
theorem mem_decidedBy {post : DominatorTree} {c : Cfg} {head : FlowNode} (hpost : post.Exact c head)
    {decided : List FlowNode} (h : decidedBy post a b = .ok decided) :
    k ∈ decided ↔ c.Reaches head a ∧ c.Reaches head b ∧ c.Dominates head k b ∧
      ¬ c.Dominates head k a := by
  have hcontains : ∀ n, post.contains n = true ↔ c.Reaches head n := by
    intro n
    rw [DominatorTree.contains, decide_eq_true_eq, hpost.listing.reached]
  unfold decidedBy at h
  split at h
  · next hskip =>
    obtain rfl := Except.ok.inj h
    rw [Bool.or_eq_true, Bool.or_eq_true, Bool.not_eq_true', Bool.not_eq_true',
      ← Bool.not_eq_true, ← Bool.not_eq_true, hcontains, hcontains] at hskip
    constructor
    · intro hk
      exact absurd hk List.not_mem_nil
    · rintro ⟨ha, hb, hkb, hka⟩
      rcases hskip with (hna | hnb) | hba
      · exact absurd ha hna
      · exact absurd hb hnb
      · exact absurd (hkb.trans ((hpost.dominates_iff ha).mp hba)) hka
  · next hboth =>
    rw [Bool.or_eq_true, Bool.or_eq_true, not_or, not_or, Bool.not_eq_true', Bool.not_eq_true',
      Bool.not_eq_false, Bool.not_eq_false, hcontains, hcontains] at hboth
    obtain ⟨⟨ha, hb⟩, -⟩ := hboth
    obtain ⟨meeting, hmeeting, h⟩ := bind_eq_ok.mp h
    obtain rfl := Except.ok.inj h
    rw [hpost.mem_takeWhile_iff ha hb hmeeting, hpost.mem_chain_iff hb, hpost.mem_chain_iff ha]
    simp only [ha, hb, true_and]

theorem dependenceNode?_eq_instruction :
    m.dependenceNode? a = some (.instruction source) ↔ a = .instruction source := by
  cases a <;> simp [dependenceNode?]

theorem mem_branchDependences {post : DominatorTree} {edges : List Dependence}
    {decided : List FlowNode} (hdecided : decidedBy post a b = .ok decided)
    (h : m.branchDependences post a b = .ok edges) :
    (.instruction source, .instruction target, .branch) ∈ edges ↔
      a = .instruction source ∧ .instruction target ∈ decided ∧ target ≠ source := by
  rw [branchDependences, hdecided] at h
  obtain rfl := Except.ok.inj h
  rw [← dependenceNode?_eq_instruction (m := m)]
  cases hsource : m.dependenceNode? a with
  | none => simp
  | some x =>
      dsimp only
      rw [List.mem_filterMap]
      constructor
      · rintro ⟨y, hy, heq⟩
        obtain ⟨n, hn, hny⟩ := List.mem_filterMap.mp hy
        split at heq
        · cases heq
        · next hne =>
          obtain ⟨rfl, rfl⟩ : x = .instruction source ∧ y = .instruction target := by
            simpa using heq
          obtain rfl := dependenceNode?_eq_instruction.mp hny
          exact ⟨rfl, hn, fun h => hne (by rw [h])⟩
      · rintro ⟨hx, hmem, hne⟩
        obtain rfl := Option.some.inj hx
        refine ⟨.instruction target, List.mem_filterMap.mpr ⟨_, hmem, rfl⟩, ?_⟩
        rw [if_neg]
        simpa using hne

/-- On an edge of the graph of a method, a branch decides what post-dominates the target and not the
source. -/
theorem mem_decidedBy_postDominators {method : Method} {c : Cfg} (hof : c.GraphOf method)
    {post : DominatorTree} (hpost : DominatorTree.ofCfg c.augmented.reverse = .ok post)
    (edge : c.HasEdge a b) {decided : List FlowNode} (h : decidedBy post a b = .ok decided) :
    k ∈ decided ↔ c.Reaches a .exit ∧ c.Reaches b .exit ∧ (∀ ns, c.Path b ns .exit → k ∈ ns) ∧
      ∃ ns, c.Path a ns .exit ∧ k ∉ ns := by
  rw [mem_decidedBy (hof.exact hpost) h, hof.reaches_iff edge.source, hof.reaches_iff edge.target,
    hof.dominates_iff edge.source, hof.dominates_iff edge.target]
  simp only [not_forall, exists_prop]

/-- A branch decides whether a node runs: some way out of the branch leads to the exit through the
node only, and the branch has a way to the exit around it. -/
def Decides (c : Cfg) (source target : FlowNode) : Prop :=
  ∃ n, c.HasEdge source n ∧ c.Reaches source .exit ∧ c.Reaches n .exit ∧
    (∀ ns, c.Path n ns .exit → target ∈ ns) ∧ ∃ ns, c.Path source ns .exit ∧ target ∉ ns

/-- **The control dependences of a method are exact.** -/
theorem mem_controlDependences (hgraph : Cfg.ofMethod m.method = .ok m.cfg)
    {edges : List Dependence} (h : m.controlDependences = .ok edges) :
    (.instruction source, .instruction target, .branch) ∈ edges ↔
      target ≠ source ∧ Decides m.cfg (.instruction source) (.instruction target) := by
  have hof := Cfg.ofMethod_graphOf hgraph
  simp only [controlDependences, bind_eq_ok, pure_eq_ok] at h
  obtain ⟨post, hpost, lists, hlists, rfl⟩ := h
  obtain ⟨-, -, hedges⟩ := hof.augmented
  rw [mapM_eq_ok] at hlists
  rw [List.mem_flatten]
  constructor
  · rintro ⟨list, hlist, hmem⟩
    obtain ⟨⟨a, b⟩, hab, hbranch⟩ := forall₂_exists_of_mem_right hlists hlist
    obtain ⟨decided, hdecided, -⟩ := bind_eq_ok.mp hbranch
    obtain ⟨rfl, hmem, hne⟩ := (mem_branchDependences hdecided hbranch).mp hmem
    -- Only the edges of the start are not edges of the graph.
    rcases (hedges _ _).mp (Cfg.mem_edges.mp hab) with ⟨heq, -⟩ | edge
    · cases heq
    · exact ⟨hne, b, edge, (mem_decidedBy_postDominators hof hpost edge hdecided).mp hmem⟩
  · rintro ⟨hne, b, edge, hdecides⟩
    obtain ⟨list, hlist, hbranch⟩ := forall₂_exists_of_mem_left hlists
      (Cfg.mem_edges.mpr ((hedges _ _).mpr (.inr edge)))
    obtain ⟨decided, hdecided, -⟩ := bind_eq_ok.mp hbranch
    have hmem := (mem_decidedBy_postDominators hof hpost edge hdecided).mpr hdecides
    exact ⟨list, hlist, (mem_branchDependences hdecided hbranch).mpr ⟨rfl, hmem, hne⟩⟩

/-! ## The other rules -/

theorem not_branch_of_dataDependences {edges : List Dependence} (h : m.dataDependences = .ok edges)
    {x y : DependenceNode} : (x, y, DependenceKind.branch) ∉ edges := by
  intro hmem
  simp only [dataDependences, bind_eq_ok, pure_eq_ok] at h
  obtain ⟨reaching, -, rfl⟩ := h
  obtain ⟨⟨n, definitions⟩, -, hmem⟩ := List.mem_flatMap.mp hmem
  dsimp only at hmem
  split at hmem
  · obtain ⟨source, -, heq⟩ := List.mem_map.mp hmem
    simp at heq
  · exact absurd hmem List.not_mem_nil

theorem not_branch_of_fieldAndCallDependences {leaves : TreeMap String (List DependenceNode)}
    {x y : DependenceNode} : (x, y, DependenceKind.branch) ∉ m.fieldAndCallDependences leaves := by
  intro hmem
  obtain ⟨n, -, hmem⟩ := List.mem_flatMap.mp hmem
  split at hmem
  · next o node _ _ =>
    rw [List.mem_append, List.mem_append] at hmem
    rcases hmem with (hmem | hmem) | hmem
    · split at hmem <;> simp at hmem
    · obtain ⟨f, -, heq⟩ := List.mem_map.mp hmem
      simp at heq
    · obtain ⟨call, -, hmem⟩ := List.mem_flatMap.mp hmem
      split at hmem
      · exact absurd hmem List.not_mem_nil
      · rcases List.mem_cons.mp hmem with heq | hmem
        · simp at heq
        · obtain ⟨leave, -, heq⟩ := List.mem_map.mp hmem
          simp at heq
  · exact absurd hmem List.not_mem_nil

/-- Adding the dependences of a method adds its control dependences, and no other ones of their
kind. -/
theorem addDependences_branch {leaves : TreeMap String (List DependenceNode)}
    {g g' : DependenceGraph} (hg : g.Valid) (h : m.addDependences leaves g = .ok g') :
    g'.Valid ∧ ∃ edges, m.controlDependences = .ok edges ∧ ∀ x y,
      .branch ∈ g'.kinds x y ↔ (x, y, .branch) ∈ edges ∨ .branch ∈ g.kinds x y := by
  simp only [addDependences, bind_eq_ok, pure_eq_ok] at h
  obtain ⟨data, hdata, edges, hedges, rfl⟩ := h
  obtain ⟨hvalid, hkinds⟩ := hg.addEdges data
  obtain ⟨hvalid', hkinds'⟩ := hvalid.addEdges edges
  obtain ⟨hvalid'', hkinds''⟩ := hvalid'.addEdges (m.fieldAndCallDependences leaves)
  refine ⟨hvalid'', edges, hedges, fun x y => ?_⟩
  rw [hkinds'', hkinds', hkinds, or_iff_right not_branch_of_fieldAndCallDependences,
    or_iff_right (not_branch_of_dataDependences hdata)]

end FlowMethod

/-! ## The whole graph -/

namespace Scope

variable {s : Scope} {g : DependenceGraph}

theorem foldlM_addDependences_branch {leaves : TreeMap String (List DependenceNode)}
    {ms : List FlowMethod} {g₀ : DependenceGraph} (hg₀ : g₀.Valid)
    (h : ms.foldlM (fun g m => m.addDependences leaves g) g₀ = .ok g) (x y : DependenceNode) :
    (∀ m ∈ ms, ∃ edges, m.controlDependences = .ok edges) ∧
      (.branch ∈ g.kinds x y ↔ (∃ m ∈ ms, ∃ edges, m.controlDependences = .ok edges ∧
        (x, y, .branch) ∈ edges) ∨ .branch ∈ g₀.kinds x y) := by
  induction ms generalizing g₀ with
  | nil =>
      obtain rfl := Except.ok.inj h
      simp
  | cons m ms ih =>
      simp only [List.foldlM_cons, bind_eq_ok] at h
      obtain ⟨g₁, hg₁, h⟩ := h
      obtain ⟨hvalid, edges, hedges, hkinds⟩ := FlowMethod.addDependences_branch hg₀ hg₁
      obtain ⟨hall, hbranch⟩ := ih hvalid h
      refine ⟨List.forall_mem_cons.mpr ⟨⟨edges, hedges⟩, hall⟩, ?_⟩
      rw [hbranch, hkinds]
      constructor
      · rintro (⟨m', hm', hlisted⟩ | hmem | hmem)
        · exact .inl ⟨m', List.mem_cons_of_mem _ hm', hlisted⟩
        · exact .inl ⟨m, List.mem_cons_self, edges, hedges, hmem⟩
        · exact .inr hmem
      · rintro (⟨m', hm', edges', hedges', hmem⟩ | hmem)
        · rcases List.mem_cons.mp hm' with rfl | hm'
          · obtain rfl := Except.ok.inj (hedges.symm.trans hedges')
            exact .inr (.inl hmem)
          · exact .inl ⟨m', hm', edges', hedges', hmem⟩
        · exact .inr (.inr hmem)

/-- The methods of an analysis come with their graphs, and every method that is entered is among
them. -/
theorem mem_flowMethods {ms : List FlowMethod} (h : s.flowMethods = .ok ms) :
    (∀ m ∈ ms, m.method ∈ s.methods ∧ Cfg.ofMethod m.method = .ok m.cfg) ∧
      ∀ method ∈ s.methods, ∃ m ∈ ms, m.method = method := by
  obtain ⟨hmethods, hgraphed⟩ := flowMethods_graphed h
  rw [← hmethods]
  exact ⟨fun m hm => ⟨List.mem_map_of_mem hm, (hgraphed m hm).graph⟩,
    fun method hmethod => List.mem_map.mp hmethod⟩

/-- **Control dependence is exact.** Between two instructions of a method with a signature of its
own, the graph has a dependence on a branch just when the branch has a successor that leads to the
exit through the other instruction only, and a way to the exit around it. -/
theorem branch_dependence_iff (hg : s.dependences = .ok g) {method : Method}
    (hmethod : method ∈ s.methods)
    (hown : ∀ m ∈ s.methods, m.signature = method.signature → m = method) {c : Cfg}
    (hc : Cfg.ofMethod method = .ok c) {source target : InstructionNode}
    (hsource : c.Has (.instruction source)) (hne : source ≠ target) :
    .branch ∈ g.kinds (.instruction source) (.instruction target) ↔
      ∃ n, c.HasEdge (.instruction source) n ∧ c.Reaches (.instruction source) .exit ∧
        c.Reaches n .exit ∧ (∀ ns, c.Path n ns .exit → .instruction target ∈ ns) ∧
          ∃ ns, c.Path (.instruction source) ns .exit ∧ .instruction target ∉ ns := by
  simp only [dependences, bind_eq_ok] at hg
  obtain ⟨ms, hms, hg⟩ := hg
  obtain ⟨hall, hbranch⟩ := foldlM_addDependences_branch DependenceGraph.valid_empty hg
    (.instruction source) (.instruction target)
  obtain ⟨hflow, hentered⟩ := mem_flowMethods hms
  rw [hbranch, or_iff_left (by simp [DependenceGraph.kinds_empty])]
  constructor
  · rintro ⟨m, hm, edges, hedges, hmem⟩
    obtain ⟨hentered, hgraph⟩ := hflow m hm
    obtain ⟨-, hdecides⟩ := (FlowMethod.mem_controlDependences hgraph hedges).mp hmem
    -- The method that contributes the dependence has the signature, so it is the method.
    have hsignature : m.method.signature = method.signature := by
      obtain ⟨n, edge, -⟩ := hdecides
      rcases (Cfg.ofMethod_graphOf hgraph).nodes _ edge.source with heq | heq | ⟨node, heq, hnode⟩
      · cases heq
      · cases heq
      · rcases (Cfg.ofMethod_graphOf hc).nodes _ hsource with heq' | heq' | ⟨node', heq', hnode'⟩
        · cases heq'
        · cases heq'
        · obtain rfl := FlowNode.instruction.inj (heq.symm.trans heq')
          exact hnode.symm.trans hnode'
    have hsame := hown m.method hentered hsignature
    rw [hsame, hc] at hgraph
    rwa [← Except.ok.inj hgraph] at hdecides
  · intro hdecides
    obtain ⟨m, hm, rfl⟩ := hentered method hmethod
    obtain ⟨-, hgraph⟩ := hflow m hm
    obtain rfl := Except.ok.inj (hgraph.symm.trans hc)
    obtain ⟨edges, hedges⟩ := hall m hm
    exact ⟨m, hm, edges, hedges,
      (FlowMethod.mem_controlDependences hgraph hedges).mpr ⟨hne.symm, hdecides⟩⟩

/-! ## Two callbacks of one name -/

def callbackOf (blocks : List (List Operation)) : Method :=
  ⟨⟨"Player", "Update", [], .void, 0⟩, [], "Game",
    some { blocks := blocks.mapIdx fun i os => ⟨i, os.map fun o => ⟨o, []⟩⟩ }⟩

/-- Skip the next block when the game is over. -/
def unlessOver : Operation := .branchIf (.staticField ⟨"Player", "gameOver", .bool, true⟩) 2

def callHelper : Operation := .call ⟨.static "Player" "Helper" [] .void, []⟩

/-- A callback that calls its helper unless the game is over. -/
def guarded : Method := callbackOf [[unlessOver], [callHelper], [.leave none]]

/-- A callback that takes a detour to its helper when the game is over. -/
def detour : Method := callbackOf [[unlessOver], [callHelper, .leave none], [.nop, .branch 1]]

def branchNode : InstructionNode := ⟨guarded.signature, ⟨0, 0⟩, unlessOver.text⟩

def callNode : InstructionNode := ⟨guarded.signature, ⟨1, 0⟩, callHelper.text⟩

/-- The dependence graph of an analysis and the graph and the post-dominators of a method are found,
and pass a check. -/
def dependenceCheck (s : Scope) (m : Method) (check : DependenceGraph → Cfg → DominatorTree → Bool) :
    Bool :=
  match s.dependences, Cfg.ofMethod m with
  | .ok g, .ok c =>
    match DominatorTree.ofCfg c.augmented.reverse with
    | .ok post => check g c post
    | .error _ => false
  | _, _ => false

theorem exists_of_dependenceCheck {m : Method} {check : DependenceGraph → Cfg → DominatorTree → Bool}
    (h : dependenceCheck s m check = true) : ∃ g c post, s.dependences = .ok g ∧
      Cfg.ofMethod m = .ok c ∧ DominatorTree.ofCfg c.augmented.reverse = .ok post ∧
        check g c post = true := by
  unfold dependenceCheck at h
  split at h
  · next g c hg hc =>
    split at h
    · next post hpost => exact ⟨g, c, post, hg, hc, hpost, h⟩
    · cases h
  · cases h

theorem has_of_contains {c : Cfg} (hc : c.Valid) {n : FlowNode} (h : c.contains n = true) :
    c.Has n := by
  obtain ⟨i, hi⟩ := Option.isSome_iff_exists.mp h
  exact ⟨i, Cfg.Valid.index?_eq_some hc |>.mp hi⟩

def guardedScope : Scope := ⟨(Program.empty "Game").addMethod guarded, guarded, {}⟩

theorem branch_dependence_guarded : ∃ g c, guardedScope.dependences = .ok g ∧
    guarded ∈ guardedScope.methods ∧ Cfg.ofMethod guarded = .ok c ∧
    .branch ∈ g.kinds (.instruction branchNode) (.instruction callNode) ∧
      ∃ n, c.HasEdge (.instruction branchNode) n ∧ c.Reaches (.instruction branchNode) .exit ∧
        c.Reaches n .exit ∧ (∀ ns, c.Path n ns .exit → .instruction callNode ∈ ns) ∧
          ∃ ns, c.Path (.instruction branchNode) ns .exit ∧ .instruction callNode ∉ ns := by
  have hcheck : dependenceCheck guardedScope guarded (fun g c _ =>
      c.contains (.instruction branchNode) &&
        .branch ∈ g.kinds (.instruction branchNode) (.instruction callNode)) = true := by
    decide +kernel
  obtain ⟨g, c, -, hg, hc, -, hcheck⟩ := exists_of_dependenceCheck hcheck
  rw [Bool.and_eq_true, decide_eq_true_eq] at hcheck
  obtain ⟨hcontains, hbranch⟩ := hcheck
  have hmem : guarded ∈ guardedScope.methods :=
    entry_mem Std.TreeMap.getElem?_insert_self rfl (by decide +kernel)
  have hsource := has_of_contains (Cfg.ofMethod_graphOf hc).valid hcontains
  exact ⟨g, c, hg, hmem, hc, hbranch, (branch_dependence_iff hg hmem
    (fun m hm => distinct_of_keyed ((Program.keyed_empty _).addMethod _) m hm _ hmem) hc hsource
      (by decide +kernel)).mp hbranch⟩

/-- The two callbacks, one of them kept under the signature of the helper. -/
def misfiled : Scope where
  program := { Program.empty "Game" with
    methods := ((∅ : TreeMap String Method).insert guarded.signature guarded).insert
      "Player.Helper()" detour }
  entry := guarded
  api := {}

/-- **A wrong key mixes up dependences.** Both callbacks have the same signature, so they share the
nodes of the graph. The call depends on the branch in one of them only, but the graph says so of
both. -/
theorem branch_dependence_misfiled : misfiled.program.Numbered ∧ detour ∈ misfiled.methods ∧
    ∃ g c, misfiled.dependences = .ok g ∧ Cfg.ofMethod detour = .ok c ∧
      c.Has (.instruction branchNode) ∧ c.Has (.instruction callNode) ∧ branchNode ≠ callNode ∧
      .branch ∈ g.kinds (.instruction branchNode) (.instruction callNode) ∧
      ¬ ∃ n, c.HasEdge (.instruction branchNode) n ∧ c.Reaches (.instruction branchNode) .exit ∧
        c.Reaches n .exit ∧ (∀ ns, c.Path n ns .exit → .instruction callNode ∈ ns) ∧
          ∃ ns, c.Path (.instruction branchNode) ns .exit ∧ .instruction callNode ∉ ns := by
  have hnumbered : misfiled.program.Numbered := by
    refine Program.Numbered.insert (Program.Numbered.insert (Program.numbered_empty "Game")
      guarded.signature ?_) "Player.Helper()" ?_
    · rintro _ ⟨⟩
      unfold Body.Numbered
      decide
    · rintro _ ⟨⟩
      unfold Body.Numbered
      decide
  have hmem : detour ∈ misfiled.methods := by
    refine mem_methods.mpr ⟨.static "Player" "Helper" [] .void, by decide +kernel,
      by decide +kernel, ?_⟩
    exact Std.TreeMap.getElem?_insert_self
  have hcheck : dependenceCheck misfiled detour (fun g c post =>
      c.contains (.instruction branchNode) && c.contains (.instruction callNode) &&
        decide (.branch ∈ g.kinds (.instruction branchNode) (.instruction callNode)) &&
          post.dominates (.instruction callNode) (.instruction branchNode)) = true := by
    decide +kernel
  obtain ⟨g, c, post, hg, hc, hpost, hcheck⟩ := exists_of_dependenceCheck hcheck
  simp only [Bool.and_eq_true, decide_eq_true_eq] at hcheck
  obtain ⟨⟨⟨hsource, htarget⟩, hbranch⟩, hdominates⟩ := hcheck
  have hof := Cfg.ofMethod_graphOf hc
  refine ⟨hnumbered, hmem, g, c, hg, hc, has_of_contains hof.valid hsource,
    has_of_contains hof.valid htarget, by decide +kernel, hbranch, ?_⟩
  -- In this callback, the call lies on every way from the branch to the exit.
  rintro ⟨n, edge, hreaches, -, -, ns, hns, hnot⟩
  rw [(hof.exact hpost).dominates_iff ((hof.reaches_iff edge.source).mpr hreaches),
    hof.dominates_iff edge.source] at hdominates
  exact hnot (hdominates ns hns)

end Scope

end PlayerPaths
