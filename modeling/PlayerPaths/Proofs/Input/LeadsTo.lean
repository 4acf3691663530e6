import PlayerPaths.Input.LeadsTo
import PlayerPaths.Proofs.Flow.Scope

/-!
# What leads to input is closed

In every method, the flow of "leads to input" is a lawful problem of height one. One round solves it
for all methods, given which of them lead to input (`Round`); more leading methods make more
instructions lead to input, so the rounds add methods until they have found all of them. The result
is closed (`Settled.leads_of_here`, `Settled.leads_of_edge`): an instruction leads to input when
it depends on input, when it calls a method that leads to input, and when a successor does.
-/

namespace PlayerPaths

open IL Std

namespace Scope

/-- The node depends on input itself, or calls a leading method. -/
def leadsHere (taint : TaintResult) (leading : List String) (m : FlowMethod) (n : FlowNode) : Bool :=
  match n.location?, m.operation? n with
  | some l, some o => taint.isTainted m.signature l ||
      o.calls.any fun c => leading.contains c.method.signature
  | _, _ => false

theorem leadsProblem_transfer {taint : TaintResult} {leading : List String} {m : FlowMethod}
    {n : FlowNode} {s : Option Bool} :
    (leadsProblem taint leading m).transfer n s = (s.getD false || leadsHere taint leading m n) :=
  rfl

/-- What flows into a node is that some source leads to input. -/
theorem joinAt_eq_true {taint : TaintResult} {leading : List String} {m : FlowMethod}
    {states : FlowStates Bool} {indices : List Nat} :
    ((leadsProblem taint leading m).joinAt states indices).getD false = true ↔
      ∃ i ∈ indices, states[i]? = some true := by
  have hjoined : (∃ joined ∈ (leadsProblem taint leading m).joinAt states indices, joined = true) ↔
      ∃ i ∈ indices, ∃ a, states[i]? = some a ∧ a = true :=
    FlowProblem.joinAt_has fun a b => Bool.or_eq_true_iff
  simpa [Option.getD_eq_iff] using hjoined

/-- Leading to input is ordered by implication. -/
def leadsLawful (taint : TaintResult) (leading : List String) (m : FlowMethod) :
    (leadsProblem taint leading m).Lawful m.cfg where
  valid _ := True
  le a b := a = true → b = true
  rank := Bool.toNat
  refl := fun _ => id
  trans := fun hab hbc ha => hbc (hab ha)
  valid_join := fun _ _ => trivial
  le_join_left := fun {a b} _ _ ha => by simp [leadsProblem, ha]
  le_join_right := fun {a b} _ _ hb => by simp [leadsProblem, hb]
  join_le := fun {a b c} _ _ _ ha hb hab => by
    rcases Bool.or_eq_true_iff.mp hab with h | h
    · exact ha h
    · exact hb h
  valid_transfer := fun _ _ => trivial
  transfer_le := fun {n s t} _ _ _ hst h => by
    rw [leadsProblem_transfer, Bool.or_eq_true] at h ⊢
    refine h.imp_left fun hs => ?_
    cases s with
    | none => cases hs
    | some a =>
        obtain ⟨b, hb, hab⟩ := hst a rfl
        rw [Option.mem_def.mp hb]
        exact hab hs
  rank_le := fun {a} _ => Bool.toNat_le a
  rank_lt := fun {a b} _ _ hab hne => by cases a <;> cases b <;> simp_all

/-- More leading methods make more nodes lead to input. -/
theorem leadsHere_mono {taint : TaintResult} {leading leading' : List String}
    (h : leading ⊆ leading') {m : FlowMethod} {n : FlowNode} (hn : leadsHere taint leading m n = true) :
    leadsHere taint leading' m n = true := by
  unfold leadsHere at hn ⊢
  split at hn
  · next l o hl ho =>
    rw [Bool.or_eq_true, List.any_eq_true] at hn ⊢
    refine hn.imp_right ?_
    rintro ⟨c, hc, hmem⟩
    exact ⟨c, hc, List.contains_iff_mem.mpr (h (List.contains_iff_mem.mp hmem))⟩
  · cases hn

end Scope

/-! ## Rounds -/

namespace LeadsResult

variable {r : LeadsResult}

theorem mem_methods {signature : String} :
    signature ∈ r.methods ↔ r.methodLeads signature = true := by
  have hget : r.points.getD signature [] = (r.points[signature]?).getD [] :=
    TreeMap.getD_eq_getD_getElem?
  simp only [methods, methodLeads, hget, List.mem_map, List.mem_filter, Prod.exists,
    TreeMap.mem_toList_iff_getElem?_eq_some, exists_and_right, exists_eq_right]
  cases r.points[signature]? <;> simp

theorem methods_increasing : Sorted.Increasing compare r.methods := by
  have hkeys : r.points.toList.Pairwise fun a b => compare a.1 b.1 = .lt :=
    TreeMap.ordered_keys_toList
  exact List.pairwise_map.mpr (hkeys.sublist List.filter_sublist)

end LeadsResult

/-- What it means that the methods have been solved, given which of them lead to input. -/
def Round (taint : TaintResult) (methods : List FlowMethod) (leading : List String)
    (r : LeadsResult) : Prop :=
  (∀ signature ∈ r.methods, ∃ m ∈ methods, m.signature = signature) ∧
  ∀ m ∈ methods, ∃ states,
    (Scope.leadsLawful taint leading m).Progress .backward [] states ∧
    ∀ l, r.leads m.signature l = true ↔
      ∃ (i : Nat) (n : FlowNode), m.cfg.graph.vertices[i]? = some n ∧ n.location? = some l ∧
        states[i]? = some true

theorem Scope.leadsRound_eq_ok {taint : TaintResult} {methods : List FlowMethod}
    {leading : List String} {r : LeadsResult} (hgraphed : ∀ m ∈ methods, m.Graphed)
    (hdistinct : ∀ m ∈ methods, ∀ m' ∈ methods, m.signature = m'.signature → m = m')
    (h : leadsRound taint methods leading = .ok r) : Round taint methods leading r := by
  simp only [leadsRound, bind_eq_ok, pure_eq_ok] at h
  obtain ⟨points, hpoints, rfl⟩ := h
  have htable := ofList_of_mapM hpoints FlowMethod.signature fun m entry hentry => by
    simp only [bind_eq_ok, pure_eq_ok] at hentry
    obtain ⟨states, -, rfl⟩ := hentry
    rfl
  obtain ⟨hknown, hfound⟩ := htable hdistinct
  refine ⟨fun signature hmem => ?_, fun m hm => ?_⟩
  · simp only [LeadsResult.methods, List.mem_map, List.mem_filter, Prod.exists, exists_and_right,
      exists_eq_right, TreeMap.mem_toList_iff_getElem?_eq_some] at hmem
    obtain ⟨ls, hls, -⟩ := hmem
    exact hknown signature ls hls
  · obtain ⟨ls, hls, hget⟩ := hfound m hm
    simp only [bind_eq_ok, pure_eq_ok, Prod.mk.injEq] at hls
    obtain ⟨states, hstates, -, rfl⟩ := hls
    have hprogress := (leadsLawful taint leading m).solve_progress (hgraphed m hm).cfg hstates
    refine ⟨states, hprogress, fun l => ?_⟩
    have hgetD : ∀ i : Nat, states.getD i false = true ↔ states[i]? = some true := by
      intro i
      rw [TreeMap.getD_eq_getD_getElem?]
      cases states[i]? <;> simp
    rw [LeadsResult.leads, TreeMap.getD_eq_getD_getElem?, hget, Option.getD_some,
      List.contains_iff_mem, Sorted.mem_ofList]
    simp only [List.mem_filterMap, Prod.exists, Graph.vertexList,
      TreeMap.mem_toList_iff_getElem?_eq_some]
    constructor
    · rintro ⟨i, n, hn, hl⟩
      split at hl
      · next htrue => exact ⟨i, n, hn, hl, (hgetD i).mp htrue⟩
      · cases hl
    · rintro ⟨i, n, hn, hl, htrue⟩
      exact ⟨i, n, hn, by rw [if_pos ((hgetD i).mpr htrue), hl]⟩

/-- More leading methods make more instructions lead to input. -/
theorem Round.mono {taint : TaintResult} {methods : List FlowMethod}
    {leading leading' : List String} {r r' : LeadsResult} (h : Round taint methods leading r)
    (h' : Round taint methods leading' r') (hsub : leading ⊆ leading') :
    r.methods ⊆ r'.methods := by
  intro signature hmem
  obtain ⟨m, hm, rfl⟩ := h.1 signature hmem
  obtain ⟨states, hstates, hleads⟩ := h.2 m hm
  obtain ⟨states', hstates', hleads'⟩ := h'.2 m hm
  -- The states of the second round solve the equations of the first one.
  have hclosed : (Scope.leadsLawful taint leading m).Closed .backward states' := by
    refine ⟨fun _ _ _ => trivial, fun {i n} hn => ⟨_, hstates'.settled hn (by simp), ?_⟩⟩
    intro hout
    simp only [FlowProblem.out, Scope.leadsProblem_transfer, Bool.or_eq_true] at hout ⊢
    exact hout.imp_right (Scope.leadsHere_mono hsub)
  rw [LeadsResult.mem_methods, LeadsResult.methodLeads, Bool.not_eq_true',
    List.isEmpty_eq_false_iff_exists_mem] at hmem ⊢
  obtain ⟨l, hl⟩ := hmem
  obtain ⟨i, n, hn, hnl, htrue⟩ := (hleads l).mp (List.contains_iff_mem.mpr hl)
  obtain ⟨b, hb, hle⟩ := hstates.least hclosed i true htrue
  obtain rfl : b = true := hle rfl
  exact ⟨l, List.contains_iff_mem.mp ((hleads' l).mpr ⟨i, n, hn, hnl, hb⟩)⟩

/-- The rounds end with one that finds the methods that it was given. -/
theorem Scope.closeLeads_eq_ok {taint : TaintResult} {methods : List FlowMethod}
    (hgraphed : ∀ m ∈ methods, m.Graphed)
    (hdistinct : ∀ m ∈ methods, ∀ m' ∈ methods, m.signature = m'.signature → m = m')
    {fuel : Nat} {leading : List String} (hincreasing : Sorted.Increasing compare leading)
    (hknown : ∀ signature ∈ leading, ∃ m ∈ methods, m.signature = signature)
    (hgrows : ∀ r, Round taint methods leading r → leading ⊆ r.methods)
    (hfuel : methods.length < fuel + leading.length) {r : LeadsResult}
    (h : closeLeads taint methods fuel leading = .ok r) : Round taint methods r.methods r := by
  have hlength : ∀ {l : List String}, Sorted.Increasing compare l →
      (∀ signature ∈ l, ∃ m ∈ methods, m.signature = signature) → l.length ≤ methods.length := by
    intro l hl hmem
    have hsub : l ⊆ methods.map FlowMethod.signature :=
      fun signature hs => List.mem_map.mpr (hmem signature hs)
    have hle := (List.subperm_of_subset hl.nodup hsub).length_le
    rwa [List.length_map] at hle
  induction fuel generalizing leading with
  | zero =>
      have hle := hlength hincreasing hknown
      omega
  | succ fuel ih =>
      simp only [closeLeads, bind_eq_ok] at h
      obtain ⟨next, hnext, h⟩ := h
      have hround := leadsRound_eq_ok hgraphed hdistinct hnext
      split at h
      · next heq =>
        obtain rfl := Except.ok.inj h
        rwa [heq]
      · next hne =>
        have hsub := hgrows next hround
        refine ih LeadsResult.methods_increasing hround.1
          (fun r hr => hround.mono hr hsub) ?_ h
        -- Another method leads to input, since sets with the same elements are equal.
        have hle := (List.subperm_of_subset hincreasing.nodup hsub).length_le
        have hlt : leading.length < next.methods.length := by
          refine Nat.lt_of_le_of_ne hle fun hlen => hne ?_
          exact (hincreasing.eq_of_subset LeadsResult.methods_increasing hsub hlen.ge).symm
        omega

/-! ## Closure -/

/-- The rounds have ended: the last one found the methods that it was given. -/
def Settled (s : Scope) (taint : TaintResult) (r : LeadsResult) : Prop :=
  ∃ ms, ms.map FlowMethod.method = s.methods ∧ (∀ m ∈ ms, m.Graphed) ∧ Round taint ms r.methods r

theorem Scope.settled_of_leadsToInput {s : Scope} {taint : TaintResult} {r : LeadsResult}
    (hdistinct : s.Distinct) (h : s.leadsToInput taint = .ok r) : Settled s taint r := by
  simp only [Scope.leadsToInput, bind_eq_ok] at h
  obtain ⟨ms, hms, h⟩ := h
  obtain ⟨hmethods, hgraphed⟩ := Scope.flowMethods_graphed hms
  exact ⟨ms, hmethods, hgraphed, Scope.closeLeads_eq_ok hgraphed
    (Scope.flowMethods_distinct hms hdistinct) .nil (by simp) (by simp) (by simp) h⟩

namespace Settled

variable {s : Scope} {taint : TaintResult} {r : LeadsResult} {m : Method} {l l' : Location}

/-- The equations of a method are solved. -/
theorem method (h : Settled s taint r) (hm : m ∈ s.methods) : ∃ fm : FlowMethod, fm.method = m ∧
    fm.Graphed ∧ ∃ states,
      (Scope.leadsLawful taint r.methods fm).Progress .backward [] states ∧
      ∀ l, r.leads m.signature l = true ↔
        ∃ (i : Nat) (n : FlowNode), fm.cfg.graph.vertices[i]? = some n ∧ n.location? = some l ∧
          states[i]? = some true := by
  obtain ⟨ms, hmethods, hgraphed, -, hround⟩ := h
  rw [← hmethods] at hm
  obtain ⟨fm, hfm, rfl⟩ := List.mem_map.mp hm
  exact ⟨fm, rfl, hgraphed fm hfm, hround fm hfm⟩

/-- A node leads to input when it does so itself, or one of its successors does. -/
theorem state_eq_true {leading : List String} {fm : FlowMethod} {states : FlowStates Bool}
    (h : (Scope.leadsLawful taint leading fm).Progress .backward [] states) {k : Nat}
    {n : FlowNode} (hn : fm.cfg.graph.vertices[k]? = some n)
    (hleads : Scope.leadsHere taint leading fm n = true ∨
      ∃ k' ∈ FlowProblem.sources fm.cfg .backward k, states[k']? = some true) :
    states[k]? = some true := by
  rw [h.settled hn (by simp), FlowProblem.out, Scope.leadsProblem_transfer, Option.some.injEq,
    Bool.or_eq_true]
  exact hleads.symm.imp_left Scope.joinAt_eq_true.mpr

/-- An instruction that leads to input itself. -/
theorem leads_of_here (h : Settled s taint r) (hl : s.Located m l) {b : Body} {i : Instruction}
    (hb : m.body = some b) (hi : b.instruction? l = some i)
    (hhere : taint.isTainted m.signature l = true ∨
      ∃ c ∈ i.operation.calls, r.methodLeads c.method.signature = true) :
    r.leads m.signature l = true := by
  obtain ⟨hm, g, n, hg, ⟨k, hk⟩, hnl⟩ := hl
  obtain ⟨fm, rfl, hfm, states, hstates, hleads⟩ := h.method hm
  obtain rfl := Except.ok.inj (hfm.graph.symm.trans hg)
  obtain rfl := Option.some.inj (hfm.body.symm.trans hb)
  refine (hleads l).mpr ⟨k, n, hk, hnl, state_eq_true hstates hk (.inl ?_)⟩
  simp only [Scope.leadsHere, hnl, FlowMethod.operation?_eq_some hnl hi, Bool.or_eq_true,
    List.any_eq_true]
  refine hhere.imp_right ?_
  rintro ⟨c, hc, hmethod⟩
  exact ⟨c, hc, List.contains_iff_mem.mpr (LeadsResult.mem_methods.mpr hmethod)⟩

/-- An instruction leads to input when a successor in the graph does. -/
theorem leads_of_edge (h : Settled s taint r) (hm : m ∈ s.methods) {g : Cfg} {n n' : FlowNode}
    (hg : Cfg.ofMethod m = .ok g) (hedge : g.HasEdge n n') (hl : n.location? = some l)
    (hl' : n'.location? = some l') (hleads' : r.leads m.signature l' = true) :
    r.leads m.signature l = true := by
  obtain ⟨fm, rfl, hfm, states, hstates, hleads⟩ := h.method hm
  obtain rfl := Except.ok.inj (hfm.graph.symm.trans hg)
  obtain ⟨k, k', hk, hk', hkk'⟩ := hedge
  obtain ⟨j, o, ho, hol, htrue⟩ := (hleads l').mp hleads'
  -- There is one node for a location.
  obtain rfl := hfm.node_unique ⟨k', hk'⟩ ⟨j, ho⟩ hl' hol
  obtain rfl := hfm.cfg.distinct hk' ho
  refine (hleads l).mpr ⟨k, n, hk, hl, state_eq_true hstates hk (.inr ⟨k', ?_, htrue⟩)⟩
  exact (hfm.cfg.wellFormed.successors_iff k k').mpr hkk'

end Settled

/-- What leads to input has been found, in a program that can be analysed. -/
structure Leading (s : Scope) (taint : TaintResult) (r : LeadsResult) : Prop where
  keyed : s.program.Keyed
  numbered : s.program.Numbered
  result : s.leadsToInput taint = .ok r

namespace Leading

variable {s : Scope} {taint : TaintResult} {r : LeadsResult}

theorem settled (h : Leading s taint r) : Settled s taint r :=
  Scope.settled_of_leadsToInput (Scope.distinct_of_keyed h.keyed) h.result

variable {m : Method} {b : Body} {l l' : Location} {i : Instruction}

/-- The graph of a method. -/
theorem method (h : Leading s taint r) (hm : m ∈ s.methods) :
    ∃ fm : FlowMethod, fm.method = m ∧ fm.Valid := by
  obtain ⟨fm, rfl, hfm, -⟩ := h.settled.method hm
  exact ⟨fm, rfl, Scope.valid_of_graphed h.numbered hm hfm⟩

/-- Control starts at a location of the graph. -/
theorem located_first (h : Leading s taint r) (hm : m ∈ s.methods) (hb : m.body = some b)
    (hfirst : b.resolve (.start 0) = some l) : s.Located m l := by
  obtain ⟨fm, rfl, hfm⟩ := h.method hm
  obtain rfl := Option.some.inj (hfm.body.symm.trans hb)
  obtain ⟨n, hn, hnl⟩ := hfm.first hfirst
  exact ⟨hm, fm.cfg, n, hfm.graph, hn, hnl⟩

/-- Control stays at locations of the graph. -/
theorem located_successor (h : Leading s taint r) (hl : s.Located m l) (hb : m.body = some b)
    (hi : b.instruction? l = some i) (hl' : l' ∈ b.successorsOf l i.operation) :
    s.Located m l' := by
  obtain ⟨fm, rfl, hfm⟩ := h.method hl.1
  obtain rfl := Option.some.inj (hfm.body.symm.trans hb)
  obtain ⟨n, hn, hnl⟩ := hfm.hasLocation_successor (hl.hasLocation hfm) hi hl'
  exact ⟨hl.1, fm.cfg, n, hfm.graph, hn, hnl⟩

/-- An instruction leads to input when a successor does. -/
theorem leads_of_successor (h : Leading s taint r) (hl : s.Located m l) (hb : m.body = some b)
    (hi : b.instruction? l = some i) (hl' : l' ∈ b.successorsOf l i.operation)
    (hleads' : r.leads m.signature l' = true) : r.leads m.signature l = true := by
  obtain ⟨fm, rfl, hfm⟩ := h.method hl.1
  obtain rfl := Option.some.inj (hfm.body.symm.trans hb)
  rcases hfm.successor (hl.hasLocation hfm) hi hl' with rfl | ⟨n, n', hnl, hnl', hedge⟩
  · exact hleads'
  · exact h.settled.leads_of_edge hl.1 hfm.graph hedge hnl hnl' hleads'

/-- A method that leads to input is one that the analysis enters. -/
theorem mem_of_methodLeads (h : Leading s taint r) {signature : String}
    (hleads : r.methodLeads signature = true) (hm : s.program.methods[signature]? = some m) :
    m ∈ s.methods := by
  obtain ⟨ms, hmethods, -, hknown, -⟩ := h.settled
  obtain ⟨fm, hfm, rfl⟩ := hknown signature (LeadsResult.mem_methods.mpr hleads)
  have hmem : fm.method ∈ s.methods := hmethods ▸ List.mem_map_of_mem hfm
  have hget : s.program.methods[fm.signature]? = some fm.method :=
    Scope.method?_of_mem h.keyed hmem
  obtain rfl := Option.some.inj (hget.symm.trans hm)
  exact hmem

end Leading

end PlayerPaths
