import PlayerPaths.Proofs.Input.Taint

/-!
# Tainted variables

Within a method, tainted variables flow along the edges of the graph, and a store taints its variable
or clears it (`VariableFlow.Solves`). What a store does grows with what is tainted, and every variable
in question is stored to at some node, so the flow is a lawful problem (`taintLawful`). Hence the
worklist finds the least solution of the equations (`exists_taintedBefore`), which is also below
everything that covers them (`below_of_covers`), such as a solution for more shared taint.
-/

namespace PlayerPaths

open IL Std

/-! ## More taint -/

namespace SharedTaint

/-- Everything that is tainted in one is tainted in the other. -/
def Below (t u : SharedTaint) : Prop := ∀ fact, t.has fact = true → u.has fact = true

theorem Below.refl (t : SharedTaint) : t.Below t := fun _ => id

end SharedTaint

/-- A weaker predicate on what the parts of an expression have. -/
theorem IL.Expression.any_mono {α : Type} {part? : Expression → Option α} {p q : α → Bool}
    {e : Expression} (himp : ∀ a, p a = true → q a = true)
    (h : e.any (fun part => (part? part).any p) = true) :
    e.any (fun part => (part? part).any q) = true := by
  obtain ⟨part, hpart, hp⟩ := List.any_eq_true.mp h
  refine List.any_eq_true.mpr ⟨part, hpart, ?_⟩
  obtain ⟨a, ha, hpa⟩ := (Option.any_eq_true _ _).mp hp
  exact (Option.any_eq_true _ _).mpr ⟨a, ha, himp a hpa⟩

namespace Scope

variable {s : Scope} {t u : SharedTaint} {signature : String} {names names' : List String}

/-- More taint makes more expressions depend on input. -/
theorem taints_mono (ht : t.Below u) (hnames : names ⊆ names') {e : Expression}
    (h : s.taints t signature names e = true) : s.taints u signature names' e = true := by
  simp only [taints, Bool.or_eq_true, or_assoc] at h ⊢
  rcases h with hpolls | hmethod | hfield | hparameter | hvariable
  · exact .inl hpolls
  · exact .inr (.inl (Expression.any_mono (fun _ => ht (.method _)) hmethod))
  · exact .inr (.inr (.inl (Expression.any_mono (fun _ => ht (.field _)) hfield)))
  · exact .inr (.inr (.inr (.inl
      (Expression.any_mono (fun _ => ht (.parameter signature _)) hparameter))))
  · refine .inr (.inr (.inr (.inr (Expression.any_mono (fun v hv => ?_) hvariable))))
    exact List.contains_iff_mem.mpr (hnames (List.contains_iff_mem.mp hv))

theorem taintsStore_mono (ht : t.Below u) (hnames : names ⊆ names') {e : Expression}
    (h : s.taintsStore t signature names e = true) :
    s.taintsStore u signature names' e = true := by
  cases e with
  | call method arguments =>
      simp only [taintsStore] at h ⊢
      split at h
      · next henters =>
        rw [if_pos henters]
        exact ht (.method _) h
      · next henters =>
        rw [if_neg henters]
        exact taints_mono ht hnames h
  | _ => exact taints_mono ht hnames h

/-! ## The equations -/

/-- A variable is tainted after a node, given the variables that are tainted before it. -/
def TaintedAfter (s : Scope) (t : SharedTaint) (m : FlowMethod) (n : FlowNode)
    (names : List String) (x : String) : Prop :=
  match m.operation? n with
  | some (.store v value) =>
    if x = v.name then s.taintsStore t m.signature names value = true else x ∈ names
  | _ => x ∈ names

theorem TaintedAfter.mono (ht : t.Below u) (hnames : names ⊆ names') {m : FlowMethod}
    {n : FlowNode} {x : String} (h : s.TaintedAfter t m n names x) :
    s.TaintedAfter u m n names' x := by
  unfold TaintedAfter at h ⊢
  split
  · next v value hstore =>
    simp only [hstore] at h
    split
    · next hx => exact taintsStore_mono ht hnames ((if_pos hx).mp h)
    · next hx => exact hnames ((if_neg hx).mp h)
  · next hother =>
    split at h
    · next v value hstore => exact absurd hstore (hother v value)
    · exact hnames h

end Scope

/-- The variables that are tainted before and after the nodes of a graph. -/
structure VariableFlow where
  before : FlowNode → List String
  after : FlowNode → List String

namespace VariableFlow

/-- **The flow equations** of a method, given the shared taint: what is tainted after some
predecessor is tainted before a node, and a store taints its variable or clears it. -/
structure Solves (f : VariableFlow) (s : Scope) (t : SharedTaint) (m : FlowMethod) : Prop where
  joins : ∀ {n}, m.cfg.Has n → ∀ x, x ∈ f.before n ↔ ∃ n', m.cfg.HasEdge n' n ∧ x ∈ f.after n'
  stores : ∀ {n}, m.cfg.Has n → ∀ x, x ∈ f.after n ↔ s.TaintedAfter t m n (f.before n) x

/-- Nothing is missing from the right sides of the equations. -/
structure Covers (f : VariableFlow) (s : Scope) (t : SharedTaint) (m : FlowMethod) : Prop where
  joins : ∀ {n n' x}, m.cfg.HasEdge n' n → x ∈ f.after n' → x ∈ f.before n
  stores : ∀ {n x}, m.cfg.Has n → s.TaintedAfter t m n (f.before n) x → x ∈ f.after n

/-- No more variables are tainted at any node. -/
def Below (f g : VariableFlow) (m : FlowMethod) : Prop :=
  ∀ n, m.cfg.Has n → f.before n ⊆ g.before n ∧ f.after n ⊆ g.after n

/-- The least solution of the equations. -/
structure IsLeast (f : VariableFlow) (s : Scope) (t : SharedTaint) (m : FlowMethod) : Prop where
  solves : f.Solves s t m
  least : ∀ g : VariableFlow, g.Solves s t m → f.Below g m

variable {f : VariableFlow} {s : Scope} {t u : SharedTaint} {m : FlowMethod}

/-- A solution for more shared taint covers the equations. -/
theorem Solves.covers (h : f.Solves s u m) (ht : t.Below u) : f.Covers s t m where
  joins := fun hedge hx => (h.joins hedge.target _).mpr ⟨_, hedge, hx⟩
  stores := fun hn hx => (h.stores hn _).mpr (hx.mono ht (List.Subset.refl _))

end VariableFlow

/-! ## The problem is lawful -/

def IL.Operation.stored? : Operation → Option String
  | .store v _ => some v.name
  | _ => none

def FlowMethod.storedNames (m : FlowMethod) : List String :=
  m.cfg.graph.vertexList.filterMap fun (_, n) => (m.operation? n).bind Operation.stored?

theorem FlowMethod.length_storedNames_le (m : FlowMethod) :
    m.storedNames.length ≤ m.cfg.graph.vertexCount := by
  rw [Graph.vertexCount, ← TreeMap.length_toList]
  exact List.length_filterMap_le _ _

theorem FlowMethod.mem_storedNames {m : FlowMethod} {n : FlowNode} {v : Variable}
    {value : Expression} (hn : m.cfg.Has n) (hstore : m.operation? n = some (.store v value)) :
    v.name ∈ m.storedNames := by
  obtain ⟨k, hk⟩ := hn
  refine List.mem_filterMap.mpr ⟨(k, n), TreeMap.mem_toList_iff_getElem?_eq_some.mpr hk, ?_⟩
  simp [hstore, Operation.stored?]

namespace Scope

variable {s : Scope} {t : SharedTaint} {m : FlowMethod} {n : FlowNode}

theorem mem_transfer {state : Option (List String)} {x : String} :
    x ∈ (s.taintProblem t m).transfer n state ↔ s.TaintedAfter t m n (state.getD []) x := by
  simp only [taintProblem, TaintedAfter]
  rcases m.operation? n with _ | o
  · exact Iff.rfl
  cases o with
  | store v value =>
      dsimp only
      split
      · next htaints =>
        rw [Sorted.mem_insert, List.mem_filter, decide_eq_true_eq]
        by_cases hx : x = v.name <;> simp [hx, htaints]
      · next htaints =>
        rw [List.mem_filter, decide_eq_true_eq]
        by_cases hx : x = v.name <;> simp [hx, htaints]
  | _ => exact Iff.rfl

theorem transfer_increasing {state : Option (List String)}
    (h : ∀ names ∈ state, Sorted.Increasing compare names) :
    Sorted.Increasing compare ((s.taintProblem t m).transfer n state) := by
  have hstate : Sorted.Increasing compare (state.getD []) := by
    cases state with
    | none => exact .nil
    | some names => exact h names rfl
  simp only [taintProblem]
  split
  · next v value _ =>
    have hrest := hstate.sublist (List.filter_sublist (p := fun x => decide (x ≠ v.name)))
    split
    · exact Sorted.Increasing.insert hrest v.name
    · exact hrest
  · exact hstate

/-- Sets of variables that are stored to are ordered by inclusion. -/
def taintLawful (s : Scope) (t : SharedTaint) (m : FlowMethod) :
    (s.taintProblem t m).Lawful m.cfg where
  valid names := Sorted.Increasing compare names ∧ names ⊆ m.storedNames
  le names names' := names ⊆ names'
  rank := List.length
  refl := fun _ => List.Subset.refl _
  trans := List.Subset.trans
  valid_join := fun {a b} ha hb => by
    refine ⟨ha.1.union b, fun x hx => ?_⟩
    exact (Sorted.mem_union.mp hx).elim (@ha.2 x) (@hb.2 x)
  le_join_left := fun _ _ _ hx => Sorted.mem_union.mpr (.inl hx)
  le_join_right := fun _ _ _ hx => Sorted.mem_union.mpr (.inr hx)
  join_le := fun _ _ _ ha hb x hx => (Sorted.mem_union.mp hx).elim (@ha x) (@hb x)
  valid_transfer := fun {n state} hn hvalid => by
    refine ⟨transfer_increasing fun names hnames => (hvalid names hnames).1, fun x hx => ?_⟩
    have hstate : state.getD [] ⊆ m.storedNames := by
      cases state with
      | none => exact List.nil_subset _
      | some names => exact (hvalid names rfl).2
    have hafter := mem_transfer.mp hx
    unfold TaintedAfter at hafter
    split at hafter
    · next v value hstore =>
      split at hafter
      · next hname => exact hname ▸ FlowMethod.mem_storedNames hn hstore
      · exact hstate hafter
    · exact hstate hafter
  transfer_le := fun {n a b} _ _ _ hle x hx => by
    refine mem_transfer.mpr ((mem_transfer.mp hx).mono (.refl t) ?_)
    cases a with
    | none => exact List.nil_subset _
    | some names =>
        obtain ⟨names', hnames', hsub⟩ := hle names rfl
        rwa [Option.mem_def.mp hnames']
  rank_le := fun {names} h =>
    ((List.subperm_of_subset h.1.nodup h.2).length_le).trans m.length_storedNames_le
  rank_lt := fun {a b} ha hb hle hne => by
    have hlength := (List.subperm_of_subset ha.1.nodup hle).length_le
    exact Nat.lt_of_le_of_ne hlength fun hlen => hne (ha.1.eq_of_subset hb.1 hle hlen.ge)

/-- What flows into a node is what flows out of its sources. -/
theorem mem_joinAt {states : FlowStates (List String)} {indices : List Nat} {x : String} :
    x ∈ ((s.taintProblem t m).joinAt states indices).getD [] ↔
      ∃ i ∈ indices, ∃ names, states[i]? = some names ∧ x ∈ names := by
  rw [← FlowProblem.joinAt_has (p := s.taintProblem t m) (P := fun names => x ∈ names)
    fun _ _ => Sorted.mem_union]
  cases (s.taintProblem t m).joinAt states indices <;> simp

/-! ## The least solution -/

/-- The flow that states of the nodes stand for. -/
def flowOf (s : Scope) (t : SharedTaint) (m : FlowMethod) (states : FlowStates (List String)) :
    VariableFlow where
  before n := match m.cfg.index? n with
    | some i => ((s.taintProblem t m).into m.cfg states i).getD []
    | none => []
  after n := match m.cfg.index? n with
    | some i => states.getD i []
    | none => []

section

variable {states : FlowStates (List String)} {i : Nat} (hm : m.Graphed)

include hm

theorem flowOf_before (hi : m.cfg.graph.vertices[i]? = some n) : (s.flowOf t m states).before n =
    ((s.taintProblem t m).into m.cfg states i).getD [] := by
  simp only [flowOf, hm.cfg.index?_eq_some.mpr hi]

theorem flowOf_after (hi : m.cfg.graph.vertices[i]? = some n) :
    (s.flowOf t m states).after n = (states[i]?).getD [] := by
  simp only [flowOf, hm.cfg.index?_eq_some.mpr hi, TreeMap.getD_eq_getD_getElem?]

/-- What flows into a node is tainted after some predecessor. -/
theorem mem_flowOf_before (hknown : ∀ {j : Nat} {names}, states[j]? = some names →
    j ∈ m.cfg.graph.vertices) (hn : m.cfg.Has n) (x : String) :
    x ∈ (s.flowOf t m states).before n ↔
      ∃ n', m.cfg.HasEdge n' n ∧ x ∈ (s.flowOf t m states).after n' := by
  obtain ⟨i, hi⟩ := hn
  rw [flowOf_before hm hi, FlowProblem.into, mem_joinAt]
  constructor
  · rintro ⟨j, hj, names, hnames, hx⟩
    obtain ⟨n', hn'⟩ := mem_iff_exists_getElem?.mp (hknown hnames)
    refine ⟨n', ⟨j, i, hn', hi, (hm.cfg.wellFormed.predecessors_iff j i).mp hj⟩, ?_⟩
    rwa [flowOf_after hm hn', hnames]
  · rintro ⟨n', ⟨j, i', hj, hi', hedge⟩, hx⟩
    obtain rfl := hm.cfg.distinct hi hi'
    rw [flowOf_after hm hj] at hx
    cases hnames : states[j]? with
    | none => simp [hnames] at hx
    | some names =>
        rw [hnames] at hx
        exact ⟨j, (hm.cfg.wellFormed.predecessors_iff j i).mpr hedge, names, hnames, hx⟩

/-- The states that the worklist ends with solve the equations. -/
theorem flowOf_solves (h : (s.taintLawful t m).Progress .forward [] states) :
    (s.flowOf t m states).Solves s t m where
  joins := mem_flowOf_before hm h.known
  stores := by
    rintro n ⟨i, hi⟩ x
    rw [flowOf_after hm hi, h.settled hi List.not_mem_nil, flowOf_before hm hi, Option.getD_some]
    exact mem_transfer

/-- They are below everything that covers the equations. -/
theorem flowOf_below (h : (s.taintLawful t m).Progress .forward [] states) {g : VariableFlow}
    (hg : g.Covers s t m) : (s.flowOf t m states).Below g m := by
  -- The cover, with no other variables than the states may have.
  let X : FlowStates (List String) := m.cfg.graph.vertices.map fun _ n =>
    Sorted.ofList compare ((g.after n).filter (· ∈ m.storedNames))
  have hX : ∀ {i : Nat} {n}, m.cfg.graph.vertices[i]? = some n → X[i]? = some
      (Sorted.ofList compare ((g.after n).filter (· ∈ m.storedNames))) := by
    intro i n hi
    rw [TreeMap.getElem?_map, hi, Option.map_some]
  have hmem : ∀ {n x}, x ∈ Sorted.ofList compare ((g.after n).filter (· ∈ m.storedNames)) ↔
      x ∈ g.after n ∧ x ∈ m.storedNames := by
    intro n x
    rw [Sorted.mem_ofList, List.mem_filter, decide_eq_true_eq]
  have hclosed : (s.taintLawful t m).Closed .forward X := by
    have hvalid : (s.taintLawful t m).ValidStates X := by
      intro i names hnames
      rw [TreeMap.getElem?_map] at hnames
      obtain ⟨n, -, rfl⟩ := Option.map_eq_some_iff.mp hnames
      exact ⟨Sorted.increasing_ofList _, fun x hx => (hmem.mp hx).2⟩
    refine ⟨hvalid, fun {i n} hi => ⟨_, hX hi, fun x hx => hmem.mpr ⟨?_, ?_⟩⟩⟩
    · refine hg.stores ⟨i, hi⟩ ((mem_transfer.mp hx).mono (.refl t) fun y hy => ?_)
      obtain ⟨j, hj, names, hnames, hy⟩ := mem_joinAt.mp hy
      rw [TreeMap.getElem?_map] at hnames
      obtain ⟨n', hn', rfl⟩ := Option.map_eq_some_iff.mp hnames
      have hedge : m.cfg.HasEdge n' n :=
        ⟨j, i, hn', hi, (hm.cfg.wellFormed.predecessors_iff j i).mp hj⟩
      exact hg.joins hedge (hmem.mp hy).1
    · exact (FlowProblem.Lawful.valid_out ⟨i, hi⟩ hvalid).2 hx
  have hafter : ∀ {n}, m.cfg.Has n → (s.flowOf t m states).after n ⊆ g.after n := by
    rintro n ⟨i, hi⟩ x hx
    rw [flowOf_after hm hi, h.settled hi List.not_mem_nil, Option.getD_some] at hx
    obtain ⟨names, hnames, hle⟩ := h.least hclosed i _ (h.settled hi List.not_mem_nil)
    obtain rfl := Option.some.inj ((hX hi).symm.trans hnames)
    exact (hmem.mp (hle hx)).1
  refine fun n hn => ⟨fun x hx => ?_, hafter hn⟩
  obtain ⟨n', hedge, hx⟩ := (mem_flowOf_before hm h.known hn x).mp hx
  exact hg.joins hedge (hafter hedge.source hx)

/-- **The worklist finds the least solution**, and it lists what is tainted before every
instruction. -/
theorem exists_taintedBefore (s : Scope) (t : SharedTaint) : ∃ f : VariableFlow, f.IsLeast s t m ∧
    ∃ before, s.taintedBefore t m = .ok before ∧ ∀ l o names, (l, o, names) ∈ before ↔
      ∃ n, m.cfg.Has n ∧ n.location? = some l ∧ m.operation? n = some o ∧ names = f.before n := by
  obtain ⟨states, hstates⟩ := hm.exists_solve (s.taintProblem t m) .forward
  have hprogress := (s.taintLawful t m).solve_progress hm.cfg hstates
  refine ⟨s.flowOf t m states, ⟨flowOf_solves hm hprogress, fun g hg =>
    flowOf_below hm hprogress (hg.covers (.refl t))⟩, _, by rw [taintedBefore, hstates]; rfl, ?_⟩
  intro l o names
  simp only [List.mem_map, Prod.exists, FlowMethod.mem_instructions, Prod.mk.injEq]
  constructor
  · rintro ⟨i, l, o, ⟨n, hi, hl, ho⟩, rfl, rfl, rfl⟩
    exact ⟨n, ⟨i, hi⟩, hl, ho, (flowOf_before hm hi).symm⟩
  · rintro ⟨n, ⟨i, hi⟩, hl, ho, rfl⟩
    exact ⟨i, l, o, ⟨n, hi, hl, ho⟩, rfl, rfl, (flowOf_before hm hi).symm⟩

/-- The least solution is below everything that covers the equations. -/
theorem below_of_covers {f g : VariableFlow} (hf : f.IsLeast s t m) (hg : g.Covers s t m) :
    f.Below g m := by
  obtain ⟨states, hstates⟩ := hm.exists_solve (s.taintProblem t m) .forward
  have hprogress := (s.taintLawful t m).solve_progress hm.cfg hstates
  intro n hn
  obtain ⟨hbefore, hafter⟩ := hf.least _ (flowOf_solves hm hprogress) n hn
  obtain ⟨hbefore', hafter'⟩ := flowOf_below hm hprogress hg n hn
  exact ⟨List.Subset.trans hbefore hbefore', List.Subset.trans hafter hafter'⟩

end

end Scope

end PlayerPaths
