import PlayerPaths.Proofs.Flow.Paths
import PlayerPaths.Proofs.Flow.Solution

/-!
# The methods of an analysis

Where methods are kept under their own signatures, an analysis enters every method once, the entry
point among them. The locations of a graph are the real instructions that control may reach, and
they stay so from an instruction to its successors.
-/

namespace PlayerPaths

open IL Std

/-- Every method is kept under its own signature. -/
def IL.Program.Keyed (p : Program) : Prop :=
  ∀ (key : String) m, p.methods[key]? = some m → m.signature = key

/-- Every body numbers its blocks by position. -/
def IL.Program.Numbered (p : Program) : Prop :=
  ∀ (key : String) m b, p.methods[key]? = some m → m.body = some b → b.Numbered

theorem IL.Program.keyed_empty (mainModule : String) : (Program.empty mainModule).Keyed := by
  intro key m hm
  simp [Program.empty] at hm

/-- A program that methods are added to keeps them under their signatures. -/
theorem IL.Program.Keyed.addMethod {p : Program} (hp : p.Keyed) (m : Method) :
    (p.addMethod m).Keyed := by
  intro key m' hm'
  simp only [Program.addMethod, TreeMap.getElem?_insert] at hm'
  split at hm'
  · next heq =>
    obtain rfl := Option.some.inj hm'
    exact LawfulEqCmp.eq_of_compare heq
  · exact hp key m' hm'

theorem IL.Program.numbered_empty (mainModule : String) :
    (Program.empty mainModule).Numbered := by
  intro key m b hm
  simp [Program.empty] at hm

theorem IL.Program.Numbered.insert {p : Program} (hp : p.Numbered) (key : String) {m : Method}
    (hm : ∀ b ∈ m.body, b.Numbered) : { p with methods := p.methods.insert key m }.Numbered := by
  intro key' m' b hm' hb
  rw [TreeMap.getElem?_insert] at hm'
  split at hm'
  · obtain rfl := Option.some.inj hm'
    exact hm b hb
  · exact hp key' m' b hm' hb

namespace Scope

variable {s : Scope} {m : Method}

theorem mem_methods : m ∈ s.methods ↔
    ∃ r ∈ s.reachable, s.enters r = true ∧ s.program.resolve? r = some m := by
  simp only [methods, List.mem_filterMap, List.mem_filter, and_assoc]

theorem method?_of_mem (hkeyed : s.program.Keyed) (h : m ∈ s.methods) :
    s.program.methods[m.signature]? = some m := by
  obtain ⟨r, -, -, hr⟩ := mem_methods.mp h
  have hr : s.program.methods[r.signature]? = some m := hr
  rwa [hkeyed _ m hr]

theorem body_of_mem (h : m ∈ s.methods) : ∃ b, m.body = some b := by
  obtain ⟨r, -, henters, hr⟩ := mem_methods.mp h
  simp only [enters, InputApi.entersBody, hr, Option.any_some, Bool.and_eq_true] at henters
  exact Option.isSome_iff_exists.mp henters.2.1

/-- No method is entered twice. -/
theorem methods_nodup (hkeyed : s.program.Keyed) :
    (s.methods.map Method.signature).Nodup := by
  have hreachable : (s.reachable.map MethodRef.signature).Nodup :=
    (depthFirst_nodup MethodRef.signature s.callees (nodup_eraseDups _)
      [s.entry.reference]).1
  have hsub : (s.methods.map Method.signature).Sublist (s.reachable.map MethodRef.signature) := by
    have hmap : s.methods.map Method.signature = (s.reachable.filter s.enters).filterMap
        fun r => (s.program.resolve? r).map Method.signature := by
      rw [methods, List.map_filterMap]
    have hsignature : ∀ r : MethodRef, (s.program.resolve? r).map Method.signature =
        if (s.program.resolve? r).isSome then some r.signature else none := by
      intro r
      cases hr : s.program.resolve? r with
      | none => rfl
      | some m => simp [hkeyed r.signature m hr]
    have hfilter : (s.reachable.filter s.enters).filterMap
        (fun r => (s.program.resolve? r).map Method.signature) =
        ((s.reachable.filter s.enters).filter fun r => (s.program.resolve? r).isSome).map
          MethodRef.signature := by
      simp only [hsignature, ← List.filterMap_eq_map, List.filterMap_filter]
      rfl
    rw [hmap, hfilter]
    exact (List.filter_sublist.trans List.filter_sublist).map _
  exact hreachable.sublist hsub

/-- No two different methods of the analysis have the same signature. -/
def Distinct (s : Scope) : Prop :=
  ∀ m ∈ s.methods, ∀ m' ∈ s.methods, m.signature = m'.signature → m = m'

/-- Methods that are kept under their own signatures are told apart by them. -/
theorem distinct_of_keyed (hkeyed : s.program.Keyed) : s.Distinct := fun _ hm _ hm' =>
  List.inj_on_of_nodup_map (methods_nodup hkeyed) hm hm'

/-- The analysis enters its entry point. -/
theorem entry_mem (hentry : s.program.methods[s.entry.signature]? = some s.entry)
    (hbody : s.entry.hasBody = true) (hinput : s.api.isInput s.entry.reference = false) :
    s.entry ∈ s.methods := by
  have hresolve : s.program.resolve? s.entry.reference = some s.entry := hentry
  refine mem_methods.mpr ⟨s.entry.reference, ?_, ?_, hresolve⟩
  · have hfresh : s.entry.reference.signature ∈ s.signatures.eraseDups :=
      List.mem_eraseDups.mpr List.mem_cons_self
    rw [reachable, depthFirst_cons, if_pos hfresh]
    exact List.mem_cons_self
  · simp [enters, InputApi.entersBody, hinput, hresolve, hbody]

end Scope

namespace FlowMethod

/-- The body and the graph are those of the method. -/
structure Graphed (m : FlowMethod) : Prop where
  body : m.method.body = some m.body
  graph : Cfg.ofMethod m.method = .ok m.cfg

/-- The graph of the method, whose body is numbered. -/
structure Valid (m : FlowMethod) : Prop where
  body : m.method.body = some m.body
  numbered : m.body.Numbered
  graph : Cfg.ofMethod m.method = .ok m.cfg

/-- Some node of the graph is the instruction at the location. -/
def HasLocation (m : FlowMethod) (l : Location) : Prop :=
  ∃ n, m.cfg.Has n ∧ n.location? = some l

variable {m : FlowMethod} {n : FlowNode} {l l' : Location} {i : Instruction}

theorem Graphed.cfg (h : m.Graphed) : m.cfg.Valid := (Cfg.ofMethod_graphOf h.graph).valid

/-- The statement of a node is the one at its location. -/
theorem operation?_eq_some (hl : n.location? = some l) (hi : m.body.instruction? l = some i) :
    m.operation? n = some i.operation := by
  simp [operation?, hl, hi]

/-- A node with a statement has a location. -/
theorem exists_location {o : Operation} (h : m.operation? n = some o) :
    ∃ l, n.location? = some l := by
  obtain ⟨l, hl, -⟩ := Option.bind_eq_some_iff.mp h
  exact ⟨l, hl⟩

/-- A node with a location has the instruction there. -/
theorem Graphed.instruction (h : m.Graphed) (hn : m.cfg.Has n) (hl : n.location? = some l) :
    ∃ i, m.body.instruction? l = some i ∧ m.operation? n = some i.operation := by
  obtain ⟨i, hi, -⟩ :=
    Cfg.instructionNode_eq_ok.mp (Cfg.ofMethod_node h.body h.graph hn hl)
  exact ⟨i, hi, operation?_eq_some hl hi⟩

/-- A location has one node. -/
theorem Graphed.node_unique (h : m.Graphed) {n' : FlowNode} (hn : m.cfg.Has n)
    (hn' : m.cfg.Has n') (hl : n.location? = some l) (hl' : n'.location? = some l) : n = n' :=
  Except.ok.inj ((Cfg.ofMethod_node h.body h.graph hn hl).symm.trans
    (Cfg.ofMethod_node h.body h.graph hn' hl'))

/-- The instructions are the nodes with a location and a statement. -/
theorem mem_instructions {k : Nat} {o : Operation} : (k, l, o) ∈ m.instructions ↔
    ∃ n, m.cfg.graph.vertices[k]? = some n ∧ n.location? = some l ∧ m.operation? n = some o := by
  simp only [instructions, Graph.vertexList, List.mem_filterMap, Prod.exists,
    TreeMap.mem_toList_iff_getElem?_eq_some]
  constructor
  · rintro ⟨k', n, hn, hentry⟩
    obtain ⟨l', hl', hentry⟩ := Option.bind_eq_some_iff.mp hentry
    obtain ⟨o', ho', hentry⟩ := Option.bind_eq_some_iff.mp hentry
    obtain ⟨rfl, rfl, rfl⟩ : k' = k ∧ l' = l ∧ o' = o := by simpa using hentry
    exact ⟨n, hn, hl', ho'⟩
  · rintro ⟨n, hn, hl, ho⟩
    exact ⟨k, n, hn, by simp [hl, ho]⟩

/-- Every problem on the graph can be solved. -/
theorem Graphed.exists_solve {S : Type} [DecidableEq S] (h : m.Graphed) (p : FlowProblem S)
    (d : Direction) : ∃ states, p.solve m.cfg d = .ok states :=
  p.exists_solve h.cfg (Cfg.ofMethod_head h.body h.graph) d

/-- A node with a location is the instruction there, and no glue. -/
theorem Valid.node (h : m.Valid) (hn : m.cfg.Has n) (hl : n.location? = some l) :
    Cfg.instructionNode m.method m.body l = .ok n ∧ m.body.Real l := by
  have hlocation : ∀ {l'}, Cfg.instructionNode m.method m.body l' = .ok n → m.body.Real l' →
      Cfg.instructionNode m.method m.body l = .ok n ∧ m.body.Real l := by
    intro l' hnode hreal
    obtain rfl := Option.some.inj ((Cfg.location?_of_instructionNode hnode).symm.trans hl)
    exact ⟨hnode, hreal⟩
  cases hfirst : m.body.resolve (.start 0) with
  | none =>
      rw [Cfg.ofMethod_empty h.body hfirst h.graph,
        (Cfg.valid_empty.addEdge .entry .exit).nodes] at hn
      rcases hn with (rfl | rfl) | ⟨k, hk⟩
      · cases hl
      · cases hl
      · simp [Cfg.empty, Graph.empty] at hk
  | some first =>
      obtain ⟨-, hspanned, hedges⟩ := Cfg.ofMethod_edges h.body h.numbered hfirst h.graph
      obtain ⟨o, hedge | hedge⟩ := hspanned n hn
      · rcases (hedges _ _).mp hedge with ⟨rfl, -⟩ | ⟨l', i, hi, hglue, hnode, -⟩
        · cases hl
        · exact hlocation hnode ⟨i, hi, hglue⟩
      · rcases (hedges _ _).mp hedge with ⟨-, l', hl', hnode⟩ | ⟨_, i, hi, hglue, -, hstep⟩
        · exact hlocation hnode (Body.resolve_real hl')
        · rcases hstep with ⟨l', hl', hnode, -⟩ | ⟨-, rfl⟩
          · exact hlocation hnode (Body.successorsOf_real hl')
          · cases hl

/-- Control starts at a node of the graph. -/
theorem Valid.first (h : m.Valid) (hfirst : m.body.resolve (.start 0) = some l) :
    m.HasLocation l := by
  obtain ⟨-, -, hedges⟩ := Cfg.ofMethod_edges h.body h.numbered hfirst h.graph
  obtain ⟨i, hi, -⟩ := Body.resolve_real hfirst
  have hnode : Cfg.instructionNode m.method m.body l = .ok _ :=
    Cfg.instructionNode_eq_ok.mpr ⟨i, hi, rfl⟩
  exact ⟨_, ((hedges .entry _).mpr (.inl ⟨rfl, l, hfirst, hnode⟩)).target,
    Cfg.location?_of_instructionNode hnode⟩

/-- Control goes along the edges of the graph, or stays where it is. -/
theorem Valid.successor (h : m.Valid) (hl : m.HasLocation l)
    (hi : m.body.instruction? l = some i) (hl' : l' ∈ m.body.successorsOf l i.operation) :
    l' = l ∨ ∃ n n', n.location? = some l ∧ n'.location? = some l' ∧ m.cfg.HasEdge n n' := by
  obtain ⟨n, hn, hnl⟩ := hl
  obtain ⟨hnode, j, hj, hglue⟩ := h.node hn hnl
  obtain rfl := Option.some.inj (hi.symm.trans hj)
  obtain ⟨i', hi', -⟩ := Body.successorsOf_real hl'
  have hnode' : Cfg.instructionNode m.method m.body l' = .ok _ :=
    Cfg.instructionNode_eq_ok.mpr ⟨i', hi', rfl⟩
  by_cases hne : l' = l
  · exact .inl hne
  · refine .inr ⟨n, .instruction ⟨m.method.signature, l', i'.text⟩, hnl, rfl, ?_⟩
    have hnodes : FlowNode.instruction ⟨m.method.signature, l', i'.text⟩ ≠ n := by
      rintro rfl
      exact hne (Option.some.inj hnl)
    cases hfirst : m.body.resolve (.start 0) with
    | none =>
        rw [Cfg.ofMethod_empty h.body hfirst h.graph,
          (Cfg.valid_empty.addEdge .entry .exit).nodes] at hn
        rcases hn with (rfl | rfl) | ⟨k, hk⟩
        · cases hnl
        · cases hnl
        · simp [Cfg.empty, Graph.empty] at hk
    | some first =>
        obtain ⟨-, -, hedges⟩ := Cfg.ofMethod_edges h.body h.numbered hfirst h.graph
        exact (hedges _ _).mpr (.inr ⟨l, i, hi, hglue, hnode, .inl ⟨l', hl', hnode', hnodes⟩⟩)

/-- A successor of a location of the graph is one as well. -/
theorem Valid.hasLocation_successor (h : m.Valid) (hl : m.HasLocation l)
    (hi : m.body.instruction? l = some i) (hl' : l' ∈ m.body.successorsOf l i.operation) :
    m.HasLocation l' := by
  rcases h.successor hl hi hl' with rfl | ⟨n, n', -, hn', hedge⟩
  · exact hl
  · exact ⟨n', hedge.target, hn'⟩

end FlowMethod

instance : LawfulEqCmp Location.order where
  compare_self := by simp [Location.order]
  eq_of_compare {a b} h := by
    obtain ⟨hblock, hindex⟩ : compare a.block b.block = .eq ∧ compare a.index b.index = .eq := by
      simpa [Location.order, Ordering.then_eq_eq] using h
    cases a
    cases b
    simp_all

namespace Scope

variable {s : Scope} {m : Method} {b : Body} {l l' : Location} {i : Instruction}

/-- The analysis enters the method, and its graph has a node for the location. -/
def Located (s : Scope) (m : Method) (l : Location) : Prop :=
  m ∈ s.methods ∧ ∃ c n, Cfg.ofMethod m = .ok c ∧ c.Has n ∧ n.location? = some l

theorem Located.hasLocation {m : FlowMethod} (h : s.Located m.method l) (hm : m.Valid) :
    m.HasLocation l := by
  obtain ⟨-, c, n, hc, hn, hnl⟩ := h
  obtain rfl := Except.ok.inj (hm.graph.symm.trans hc)
  exact ⟨n, hn, hnl⟩

/-- The graphs of an analysis are those of its methods. -/
theorem flowMethods_graphed {ms : List FlowMethod} (h : s.flowMethods = .ok ms) :
    ms.map FlowMethod.method = s.methods ∧ ∀ m ∈ ms, m.Graphed := by
  rw [flowMethods, mapM_eq_ok] at h
  have hall : List.Forall₂ (fun method (m : FlowMethod) => m.method = method ∧ m.Graphed)
      s.methods ms := by
    refine h.imp fun method m hm => ?_
    simp only [bind_eq_ok, pure_eq_ok, Method.requireBody_eq_ok] at hm
    obtain ⟨b, hb, c, hc, rfl⟩ := hm
    exact ⟨rfl, hb, hc⟩
  refine ⟨?_, fun m hm => ?_⟩
  · rw [← List.forall₂_eq_eq_eq, List.forall₂_map_left_iff]
    exact hall.flip.imp fun m method hm => hm.1
  · obtain ⟨method, -, -, hgraphed⟩ := forall₂_exists_of_mem_right hall hm
    exact hgraphed

/-- Where bodies are numbered, the body of a method that is entered is. -/
theorem valid_of_graphed {m : FlowMethod} (hnumbered : s.program.Numbered)
    (hm : m.method ∈ s.methods) (hgraphed : m.Graphed) : m.Valid := by
  obtain ⟨r, -, -, hr⟩ := mem_methods.mp hm
  exact ⟨hgraphed.body, hnumbered _ m.method m.body hr hgraphed.body, hgraphed.graph⟩

theorem flowMethods_eq_ok {ms : List FlowMethod} (h : s.flowMethods = .ok ms)
    (hnumbered : s.program.Numbered) :
    ms.map FlowMethod.method = s.methods ∧ ∀ m ∈ ms, m.Valid := by
  obtain ⟨hmethods, hgraphed⟩ := flowMethods_graphed h
  refine ⟨hmethods, fun m hm => ?_⟩
  exact valid_of_graphed hnumbered (hmethods ▸ List.mem_map_of_mem hm) (hgraphed m hm)

/-- The graphs are found exactly when every method has one. -/
theorem exists_flowMethods_iff :
    (∃ ms, s.flowMethods = .ok ms) ↔ ∀ m ∈ s.methods, ∃ c, Cfg.ofMethod m = .ok c := by
  constructor
  · rintro ⟨ms, hms⟩ m hm
    obtain ⟨hmethods, hgraphed⟩ := flowMethods_graphed hms
    obtain ⟨fm, hfm, rfl⟩ := List.mem_map.mp (hmethods ▸ hm)
    exact ⟨fm.cfg, (hgraphed fm hfm).graph⟩
  · intro h
    refine exists_mapM_ok fun m hm => ?_
    obtain ⟨b, hb⟩ := body_of_mem hm
    obtain ⟨c, hc⟩ := h m hm
    refine ⟨⟨m, b, c⟩, ?_⟩
    simp only [bind_eq_ok, pure_eq_ok, Method.requireBody_eq_ok]
    exact ⟨b, hb, c, hc, rfl⟩

theorem flowMethods_distinct {ms : List FlowMethod} (h : s.flowMethods = .ok ms)
    (hdistinct : s.Distinct) : ∀ m ∈ ms, ∀ m' ∈ ms, m.signature = m'.signature → m = m' := by
  obtain ⟨hmethods, hgraphed⟩ := flowMethods_graphed h
  intro m hm m' hm' hsignature
  obtain ⟨hbody, hgraph⟩ := hgraphed m hm
  obtain ⟨hbody', hgraph'⟩ := hgraphed m' hm'
  have hmethod : m.method = m'.method := hdistinct _ (hmethods ▸ List.mem_map_of_mem hm) _
    (hmethods ▸ List.mem_map_of_mem hm') hsignature
  cases m
  cases m'
  subst hmethod
  obtain rfl := Option.some.inj (hbody.symm.trans hbody')
  obtain rfl := Except.ok.inj (hgraph.symm.trans hgraph')
  rfl

end Scope

end PlayerPaths
