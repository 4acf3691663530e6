import PlayerPaths.Proofs.Input.LeadsTo

/-!
# Leading to input is reachability

`Scope.LeadsTo` is the smallest relation that has what depends on input, what calls a method with a
location in it, and whatever comes before. A round that is given methods with a location in the
relation finds nothing outside of it, because the relation solves the equations of every method
(`leadsTo_of_round`). The last round finds all of it, because it was given the methods that it found
(`Settled.leads_of_leadsTo`). So the result is the relation, whatever the order of the rounds and of
the worklist (`leadsToInput_exact`).
-/

namespace PlayerPaths

open IL Std

namespace Scope

/-- **The specification.** A location leads to input when it depends on input, when it calls an
analysed method that has a location leading to input, or when a successor does. -/
inductive LeadsTo (s : Scope) (taint : TaintResult) : Method → Location → Prop where
  | tainted {m : Method} {l : Location} (located : s.Located m l)
      (tainted : taint.isTainted m.signature l = true) : LeadsTo s taint m l
  | call {m : Method} {l : Location} {b : Body} {i : Instruction} {c : Call} {callee : Method}
      {l' : Location} (located : s.Located m l) (body : m.body = some b)
      (statement : b.instruction? l = some i) (call : c ∈ i.operation.calls)
      (analysed : callee ∈ s.methods) (signature : callee.signature = c.method.signature)
      (leads : LeadsTo s taint callee l') : LeadsTo s taint m l
  | successor {m : Method} {l l' : Location} {g : Cfg} {n n' : FlowNode} (analysed : m ∈ s.methods)
      (graph : Cfg.ofMethod m = .ok g) (edge : g.HasEdge n n') (location : n.location? = some l)
      (location' : n'.location? = some l') (leads : LeadsTo s taint m l') : LeadsTo s taint m l

variable {s : Scope} {taint : TaintResult} {ms : List FlowMethod} {leading : List String}
variable {r : LeadsResult} {m : FlowMethod} {l : Location}

/-! ## No round finds more -/

/-- Every one of the methods has a location that leads to input. -/
def Justified (s : Scope) (taint : TaintResult) (leading : List String) : Prop :=
  ∀ signature ∈ leading, ∃ m ∈ s.methods, m.signature = signature ∧ ∃ l, s.LeadsTo taint m l

/-- A node leads to input: the entry may always, the exit never. -/
def NodeLeads (s : Scope) (taint : TaintResult) (m : Method) (n : FlowNode) : Prop :=
  n = .entry ∨ ∃ l, n.location? = some l ∧ s.LeadsTo taint m l

/-- A node that leads to input itself. -/
theorem nodeLeads_of_here (hm : m.method ∈ s.methods) (hgraphed : m.Graphed)
    (hleading : s.Justified taint leading) {n : FlowNode} (hn : m.cfg.Has n)
    (h : leadsHere taint leading m n = true) : s.NodeLeads taint m.method n := by
  unfold leadsHere at h
  split at h
  · next l o hl ho =>
    have hlocated : s.Located m.method l := ⟨hm, m.cfg, n, hgraphed.graph, hn, hl⟩
    obtain ⟨i, hi, hoperation⟩ := hgraphed.instruction hn hl
    obtain rfl := Option.some.inj (hoperation.symm.trans ho)
    refine .inr ⟨l, hl, ?_⟩
    rcases Bool.or_eq_true_iff.mp h with htainted | hcalls
    · exact .tainted hlocated htainted
    · obtain ⟨c, hc, hcontains⟩ := List.any_eq_true.mp hcalls
      obtain ⟨callee, hcallee, hsignature, l', hl'⟩ :=
        hleading _ (List.contains_iff_mem.mp hcontains)
      exact .call hlocated hgraphed.body hi hc hcallee hsignature hl'
  · cases h

/-- A node with a successor that leads to input. -/
theorem nodeLeads_of_edge (hm : m.method ∈ s.methods) (hgraphed : m.Graphed) {n n' : FlowNode}
    (hedge : m.cfg.HasEdge n n') (h : s.NodeLeads taint m.method n') :
    s.NodeLeads taint m.method n := by
  obtain ⟨hsource, htarget⟩ := (Cfg.ofMethod_ends hgraphed.body hgraphed.graph).2 n n' hedge
  rcases hsource with rfl | ⟨l, hl⟩
  · exact .inl rfl
  · rcases h with rfl | ⟨l', hl', hleads⟩
    · -- No edge leads to the entry.
      rcases htarget with heq | ⟨l', hnode⟩
      · cases heq
      · exact absurd (Cfg.location?_of_instructionNode hnode) (by simp [FlowNode.location?])
    · have hlocation := Cfg.location?_of_instructionNode hl
      exact .inr ⟨l, hlocation, .successor hm hgraphed.graph hedge hlocation hl' hleads⟩

open Classical in
/-- The relation as states of the nodes. -/
noncomputable def nodeStates (s : Scope) (taint : TaintResult) (m : FlowMethod) :
    FlowStates Bool :=
  m.cfg.graph.vertices.map fun _ n => decide (s.NodeLeads taint m.method n)

theorem exists_nodeStates (s : Scope) (taint : TaintResult) {k : Nat} {n : FlowNode}
    (hn : m.cfg.graph.vertices[k]? = some n) :
    ∃ b, (s.nodeStates taint m)[k]? = some b ∧ (b = true ↔ s.NodeLeads taint m.method n) := by
  simp [nodeStates, TreeMap.getElem?_map, hn]

theorem getElem?_nodeStates {k : Nat} :
    (s.nodeStates taint m)[k]? = some true ↔
      ∃ n, m.cfg.graph.vertices[k]? = some n ∧ s.NodeLeads taint m.method n := by
  simp [nodeStates, TreeMap.getElem?_map]

/-- The relation solves the equations. -/
theorem nodeStates_closed (hm : m.method ∈ s.methods) (hgraphed : m.Graphed)
    (hleading : s.Justified taint leading) :
    (leadsLawful taint leading m).Closed .backward (s.nodeStates taint m) := by
  refine ⟨fun _ _ _ => trivial, fun {k n} hn => ?_⟩
  obtain ⟨b, hb, htrue⟩ := exists_nodeStates s taint hn
  refine ⟨b, hb, fun hout => htrue.mpr ?_⟩
  rw [FlowProblem.out, leadsProblem_transfer, Bool.or_eq_true] at hout
  rcases hout with hflowed | hhere
  · obtain ⟨k', hk', htrue⟩ := joinAt_eq_true.mp hflowed
    obtain ⟨n', hn', hleads⟩ := getElem?_nodeStates.mp htrue
    have hedge : m.cfg.HasEdge n n' :=
      ⟨k, k', hn, hn', (hgraphed.cfg.wellFormed.successors_iff k k').mp hk'⟩
    exact nodeLeads_of_edge hm hgraphed hedge hleads
  · exact nodeLeads_of_here hm hgraphed hleading ⟨k, hn⟩ hhere

/-- A round finds locations of the relation only. -/
theorem leadsTo_of_round (hm : m ∈ ms) (hmethod : m.method ∈ s.methods) (hgraphed : m.Graphed)
    (hleading : s.Justified taint leading) (hround : Round taint ms leading r)
    (h : r.leads m.signature l = true) : s.LeadsTo taint m.method l := by
  obtain ⟨states, hstates, hleads⟩ := hround.2 m hm
  obtain ⟨k, n, hn, hl, htrue⟩ := (hleads l).mp h
  obtain ⟨b, hb, hle⟩ := hstates.least (nodeStates_closed hmethod hgraphed hleading) k true htrue
  obtain rfl : b = true := hle rfl
  obtain ⟨n', hn', hnode⟩ := getElem?_nodeStates.mp hb
  obtain rfl := Option.some.inj (hn.symm.trans hn')
  rcases hnode with rfl | ⟨l', hl', hleadsTo⟩
  · cases hl
  · obtain rfl := Option.some.inj (hl.symm.trans hl')
    exact hleadsTo

theorem justified_of_round (hmethods : ms.map FlowMethod.method = s.methods)
    (hgraphed : ∀ m ∈ ms, m.Graphed) (hleading : s.Justified taint leading)
    (hround : Round taint ms leading r) : s.Justified taint r.methods := by
  intro signature hmem
  obtain ⟨m, hm, rfl⟩ := hround.1 signature hmem
  rw [LeadsResult.mem_methods, LeadsResult.methodLeads, Bool.not_eq_true',
    List.isEmpty_eq_false_iff_exists_mem] at hmem
  obtain ⟨l, hl⟩ := hmem
  have hmethod : m.method ∈ s.methods := hmethods ▸ List.mem_map_of_mem hm
  exact ⟨m.method, hmethod, rfl, l, leadsTo_of_round hm hmethod (hgraphed m hm) hleading hround
    (List.contains_iff_mem.mpr hl)⟩

/-- What the rounds keep is so of what the last round was given. -/
theorem closeLeads_induction {P : List String → Prop} {fuel : Nat}
    (h : closeLeads taint ms fuel leading = .ok r) (start : P leading)
    (step : ∀ leading r, P leading → leadsRound taint ms leading = .ok r → P r.methods) :
    ∃ last, P last ∧ leadsRound taint ms last = .ok r := by
  induction fuel generalizing leading with
  | zero => exact ⟨leading, start, h⟩
  | succ fuel ih =>
      simp only [closeLeads, bind_eq_ok] at h
      obtain ⟨next, hnext, h⟩ := h
      split at h
      · obtain rfl := Except.ok.inj h
        exact ⟨leading, start, hnext⟩
      · exact ih h (step leading next start hnext)

end Scope

/-! ## The last round finds everything -/

/-- A round that finds the methods that it was given finds all of the relation. -/
theorem Settled.leads_of_leadsTo {s : Scope} {taint : TaintResult} {r : LeadsResult} {m : Method}
    {l : Location} (h : Settled s taint r) (hleads : s.LeadsTo taint m l) :
    r.leads m.signature l = true := by
  induction hleads with
  | @tainted m l hlocated htainted =>
      obtain ⟨hm, g, n, hg, hn, hl⟩ := hlocated
      obtain ⟨fm, rfl, hfm, -⟩ := h.method hm
      obtain rfl := Except.ok.inj (hfm.graph.symm.trans hg)
      obtain ⟨i, hi, -⟩ := hfm.instruction hn hl
      exact h.leads_of_here ⟨hm, fm.cfg, n, hg, hn, hl⟩ hfm.body hi (.inl htainted)
  | @call m l b i c callee l' hlocated hbody hi hc _ hsignature _ ih =>
      have hleads : r.methodLeads c.method.signature = true := by
        rw [LeadsResult.methodLeads, Bool.not_eq_true', List.isEmpty_eq_false_iff_exists_mem,
          ← hsignature]
        exact ⟨l', List.contains_iff_mem.mp ih⟩
      exact h.leads_of_here hlocated hbody hi (.inr ⟨c, hc, hleads⟩)
  | successor hm hg hedge hl hl' _ ih => exact h.leads_of_edge hm hg hedge hl hl' ih

/-! ## Exactness -/

namespace Scope

variable {s : Scope} {taint : TaintResult}

theorem exists_leadsRound {ms : List FlowMethod} (hgraphed : ∀ m ∈ ms, m.Graphed)
    (leading : List String) : ∃ r, leadsRound taint ms leading = .ok r := by
  simp only [leadsRound, bind_eq_ok, pure_eq_ok]
  refine exists_comm.mp ((exists_mapM_ok fun m hm => ?_).imp fun points hpoints =>
    ⟨_, hpoints, rfl⟩)
  obtain ⟨states, hstates⟩ :=
    (hgraphed m hm).exists_solve (leadsProblem taint leading m) .backward
  simp only [bind_eq_ok, pure_eq_ok]
  exact ⟨_, states, hstates, rfl⟩

theorem exists_closeLeads {ms : List FlowMethod} (hgraphed : ∀ m ∈ ms, m.Graphed) (fuel : Nat)
    (leading : List String) : ∃ r, closeLeads taint ms fuel leading = .ok r := by
  induction fuel generalizing leading with
  | zero => exact exists_leadsRound hgraphed leading
  | succ fuel ih =>
      obtain ⟨next, hnext⟩ : ∃ next, leadsRound taint ms leading = .ok next :=
        exists_leadsRound hgraphed leading
      simp only [closeLeads, hnext, bind, Except.bind]
      split
      · exact ⟨next, rfl⟩
      · exact ih next.methods

/-- **What leads to input is exactly what reaches it**, within methods and through calls, where no
two different methods of the analysis have the same signature. There is a result exactly when every
method has a graph. -/
theorem leadsToInput_exact (hdistinct : s.Distinct) :
    ((∃ r, s.leadsToInput taint = .ok r) ↔ ∀ m ∈ s.methods, ∃ g, Cfg.ofMethod m = .ok g) ∧
      ∀ r, s.leadsToInput taint = .ok r → ∀ m ∈ s.methods, ∀ l,
        r.leads m.signature l = true ↔ s.LeadsTo taint m l := by
  constructor
  · rw [← exists_flowMethods_iff]
    simp only [leadsToInput, bind_eq_ok]
    constructor
    · rintro ⟨r, ms, hms, -⟩
      exact ⟨ms, hms⟩
    · rintro ⟨ms, hms⟩
      obtain ⟨r, hr⟩ := exists_closeLeads (flowMethods_graphed hms).2 (ms.length + 1) []
      exact ⟨r, ms, hms, hr⟩
  · intro r h m hm l
    have hsettled := settled_of_leadsToInput hdistinct h
    simp only [leadsToInput, bind_eq_ok] at h
    obtain ⟨ms, hms, h⟩ := h
    obtain ⟨hmethods, hgraphed⟩ := flowMethods_graphed hms
    have hsignatures := flowMethods_distinct hms hdistinct
    obtain ⟨fm, hfm, rfl⟩ := List.mem_map.mp (hmethods ▸ hm)
    constructor
    · intro hleads
      obtain ⟨last, hlast, hround⟩ := closeLeads_induction (P := s.Justified taint) h
        (by simp [Justified]) fun leading r hleading hr =>
          justified_of_round hmethods hgraphed hleading (leadsRound_eq_ok hgraphed hsignatures hr)
      exact leadsTo_of_round hfm hm (hgraphed fm hfm) hlast
        (leadsRound_eq_ok hgraphed hsignatures hround) hleads
    · exact hsettled.leads_of_leadsTo

/-! ## Methods that call each other -/

def playerMethod (name : String) (statements : List Operation) : Method :=
  ⟨.static "Player" name [] .void, [], "Game",
    some { blocks := [⟨0, statements.map fun o => ⟨o, []⟩⟩] }⟩

def callPlayer (name : String) : Operation := .call ⟨.static "Player" name [] .void, []⟩

def pollAxis : Operation :=
  .store ⟨"x", .local, .single⟩ (.call (.static "UnityEngine.Input" "GetAxis" [.string] .single)
    [.constant (.string "Horizontal")])

/-- The analyses of input find results that pass a check. -/
def reachabilityCheck (s : Scope) (check : TaintResult → LeadsResult → Bool) : Bool :=
  match s.taint with
  | .error _ => false
  | .ok taint =>
    match s.leadsToInput taint with
    | .error _ => false
    | .ok r => check taint r

theorem exists_of_reachabilityCheck {check : TaintResult → LeadsResult → Bool}
    (h : s.reachabilityCheck check = true) :
    ∃ taint r, s.taint = .ok taint ∧ s.leadsToInput taint = .ok r ∧ check taint r = true := by
  unfold reachabilityCheck at h
  split at h
  · cases h
  · next taint htaint =>
    split at h
    · cases h
    · next r hr => exact ⟨taint, r, htaint, hr, h⟩

def caller : Method := playerMethod "Update" [callPlayer "Helper", .leave none]

/-- A helper that calls back before it polls. -/
def callingBack : Method := playerMethod "Helper" [callPlayer "Update", pollAxis, .leave none]

/-- A callback and its helper, which call each other. -/
def callingEachOther : Scope :=
  ⟨((Program.empty "Game").addMethod caller).addMethod callingBack, caller, {}⟩

theorem leadsToInput_exact_callingEachOther : callingEachOther.Distinct ∧
    ∃ taint, callingEachOther.taint = .ok taint ∧
    callingEachOther.LeadsTo taint caller ⟨0, 0⟩ ∧ callingEachOther.LeadsTo taint callingBack ⟨0, 0⟩ ∧
      ¬ callingEachOther.LeadsTo taint callingBack ⟨0, 2⟩ := by
  have hdistinct : callingEachOther.Distinct :=
    distinct_of_keyed (((Program.keyed_empty "Game").addMethod caller).addMethod callingBack)
  have hcheck : callingEachOther.reachabilityCheck (fun _ r =>
      r.leads caller.signature ⟨0, 0⟩ && r.leads callingBack.signature ⟨0, 0⟩ &&
        !r.leads callingBack.signature ⟨0, 2⟩) = true := by
    decide +kernel
  obtain ⟨taint, r, htaint, hr, hcheck⟩ := exists_of_reachabilityCheck hcheck
  simp only [Bool.and_eq_true, Bool.not_eq_true', ← Bool.not_eq_true] at hcheck
  obtain ⟨⟨hcaller, hfirst⟩, hlast⟩ := hcheck
  have hexact := (leadsToInput_exact hdistinct).2 r hr
  have hcallerMem : caller ∈ callingEachOther.methods :=
    mem_methods.mpr ⟨caller.reference, by decide +kernel, by decide +kernel, rfl⟩
  have hcalleeMem : callingBack ∈ callingEachOther.methods :=
    mem_methods.mpr ⟨callingBack.reference, by decide +kernel, by decide +kernel, rfl⟩
  refine ⟨hdistinct, taint, htaint, (hexact caller hcallerMem _).mp hcaller,
    (hexact callingBack hcalleeMem _).mp hfirst, fun hleads => ?_⟩
  exact hlast ((hexact callingBack hcalleeMem _).mpr hleads)

/-- A callback that polls at the end. -/
def polling : Method := playerMethod "Update" [callPlayer "Helper", pollAxis, .leave none]

/-- A callback that returns before it polls. -/
def returning : Method := playerMethod "Update" [.leave none, pollAxis, .leave none]

/-- The two callbacks, one of them kept under the signature of the helper. -/
def confused : Scope where
  program := { Program.empty "Game" with
    methods := ((∅ : TreeMap String Method).insert polling.signature polling).insert
      "Player.Helper()" returning }
  entry := polling
  api := {}

def pollingNode (index : Nat) (o : Operation) : FlowNode :=
  .instruction ⟨polling.signature, ⟨0, index⟩, o.text⟩

/-- **A wrong key hides what leads to input.** Both callbacks have the same signature, and what is
found of the second one is kept in place of what is found of the first one. -/
theorem leadsToInput_confused : (∀ m ∈ confused.methods, ∃ g, Cfg.ofMethod m = .ok g) ∧
    ∃ taint r, confused.taint = .ok taint ∧ confused.leadsToInput taint = .ok r ∧
      polling ∈ confused.methods ∧ confused.LeadsTo taint polling ⟨0, 0⟩ ∧
        ¬ r.leads polling.signature ⟨0, 0⟩ = true := by
  have hmem : polling ∈ confused.methods :=
    mem_methods.mpr ⟨polling.reference, by decide +kernel, by decide +kernel, rfl⟩
  have hgraph : ∃ g, Cfg.ofMethod polling = .ok g ∧
      (pollingNode 0 (callPlayer "Helper"), pollingNode 1 pollAxis) ∈ g.edges := by
    have hcheck : (match Cfg.ofMethod polling with
        | .ok g => decide ((pollingNode 0 (callPlayer "Helper"), pollingNode 1 pollAxis) ∈ g.edges)
        | .error _ => false) = true := by
      decide +kernel
    split at hcheck
    · next g hg => exact ⟨g, hg, of_decide_eq_true hcheck⟩
    · cases hcheck
  obtain ⟨g, hg, hedge⟩ := hgraph
  have hedge := Cfg.mem_edges.mp hedge
  have hcheck : confused.reachabilityCheck (fun taint r =>
      taint.isTainted polling.signature ⟨0, 1⟩ && !r.leads polling.signature ⟨0, 0⟩) = true := by
    decide +kernel
  obtain ⟨taint, r, htaint, hr, hcheck⟩ := exists_of_reachabilityCheck hcheck
  simp only [Bool.and_eq_true, Bool.not_eq_true', ← Bool.not_eq_true] at hcheck
  obtain ⟨htainted, hleads⟩ := hcheck
  have hgraphs := hr
  simp only [leadsToInput, bind_eq_ok] at hgraphs
  obtain ⟨ms, hms, -⟩ := hgraphs
  have hpoll : confused.LeadsTo taint polling ⟨0, 1⟩ :=
    .tainted ⟨hmem, g, _, hg, hedge.target, rfl⟩ htainted
  exact ⟨exists_flowMethods_iff.mp ⟨ms, hms⟩, taint, r, htaint, hr, hmem,
    .successor hmem hg hedge rfl rfl hpoll, hleads⟩

end Scope

end PlayerPaths
