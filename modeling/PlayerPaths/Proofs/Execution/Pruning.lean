import PlayerPaths.Proofs.Execution.Polling
import PlayerPaths.Proofs.Input.LeadsTo
import PlayerPaths.Proofs.Input.Taint

/-!
# Pruning

A branch whose feasible cases are all vetoed is pruned: the state follows the first case and assumes
nothing. A state only enters methods that lead to input, so the callers on its stack stand at
instructions that lead to input (`Guarded`), and a vetoed branch has none: the state is at its last
frame, where nothing ahead leads to input any more (`Past`). It stays so, and never polls again
(`Machine.pruned_never_polls`).
-/

namespace PlayerPaths

open IL

variable {D : Type}

/-! ## The next call -/

namespace Machine

/-- The call that a state makes next, the first one of its instruction without a result; none when
all calls of the instruction were made. -/
def nextSite? (s : State D) : Result (Option CallSite) := do
  let frame ← s.frame
  let operation := (← frame.method.instruction frame.location).operation
  let next := operation.sites.zipIdx.find? fun (_, i) => !frame.results.contains i
  return next.map Prod.fst

/-- A machine that gives other values to summarized calls. -/
def summarizing (m : Machine D)
    (summarize : State D → MethodRef → List Formula → Result (List (State D × Option Formula))) :
    Machine D :=
  { m with policy := { m.policy with summarize } }

/-- A step asks the policy for no other value than that of the next call. -/
theorem step_summarizing {m : Machine D} {s : State D}
    {summarize : State D → MethodRef → List Formula → Result (List (State D × Option Formula))}
    (h : ∀ site, nextSite? s = .ok (some site) →
      summarize s.tick site.call.method = m.policy.summarize s.tick site.call.method) :
    (m.summarizing summarize).step s = m.step s := by
  have hcall : ∀ sites index site, nextSite? s = .ok (some site) →
      (m.summarizing summarize).call s.tick sites index site = m.call s.tick sites index site := by
    intro sites index site hsite
    unfold call
    dsimp only [summarizing]
    rw [h site hsite]
    rfl
  unfold step
  dsimp only
  have hcontext : (m.summarizing summarize).context = m.context := rfl
  rw [hcontext]
  split
  · rfl
  · refine bind_congr_of_ok fun f hf => bind_congr_of_ok fun i hi => ?_
    have hf : s.frame = .ok f := hf
    have hnext : nextSite? s = .ok ((i.operation.sites.zipIdx.find? fun (_, i) =>
        !f.results.contains i).map Prod.fst) := by
      simp [nextSite?, hf, hi, Bind.bind, Except.bind, Pure.pure, Except.pure]
    split
    · next site index hfind =>
      rw [hfind] at hnext
      exact hcall i.operation.sites index site hnext
    · rfl

/-! ## Pruned branches -/

/-- The case that a state follows without assuming its condition: the first one that can be taken,
when all of those are vetoed. -/
def prunedCase? (m : Machine D) (s : State D) : Result (Option BranchCase) := do
  match ← ready? s with
  | none => return none
  | some (f, _) =>
    let feasible ← m.feasibleCases s (← m.branchCases s)
    let vetoed := feasible.all fun case => m.policy.vetoes s f.location case.target
    return if vetoed then feasible.head? else none

variable {m : Machine D} {s t : State D} {ts : List (State D)} {first : BranchCase}

theorem prunedCase?_eq_some (h : m.prunedCase? s = .ok (some first)) :
    ∃ f o cases rest, ready? s = .ok (some (f, o)) ∧ m.branchCases s = .ok cases ∧
      m.feasibleCases s cases = .ok (first :: rest) ∧
      ∀ case ∈ first :: rest, m.policy.vetoes s f.location case.target = true := by
  simp only [prunedCase?, bind_eq_ok] at h
  obtain ⟨ready, hready, h⟩ := h
  cases ready with
  | none => cases h
  | some ready =>
      obtain ⟨f, o⟩ := ready
      simp only [bind_eq_ok, pure_eq_ok] at h
      obtain ⟨cases, hcases, feasible, hfeasible, h⟩ := h
      split at h
      · next hvetoed =>
        obtain ⟨rest, rfl⟩ := List.head?_eq_some_iff.mp h
        exact ⟨f, o, cases, rest, hready, hcases, hfeasible, List.all_eq_true.mp hvetoed⟩
      · cases h

/-- A state that has cases makes a branch. -/
theorem step_eq_branch {f : Frame} {o : Operation} {cases : List BranchCase}
    (hready : ready? s = .ok (some (f, o))) (hcases : m.branchCases s = .ok cases)
    (hne : cases ≠ []) (h : m.step s = .ok ts) : m.branch s.tick f.location cases = .ok ts := by
  obtain ⟨-, g, i, -, -, ⟨_, _, -, hnone, -⟩ | ⟨hready', h⟩⟩ := step_into h
  · cases hready.symm.trans hnone
  · obtain ⟨rfl, rfl⟩ := Prod.mk.inj (Option.some.inj (Except.ok.inj (hready.symm.trans hready')))
    have hcases : m.branchCases s.tick = .ok cases := hcases
    rcases execute_cases (s := s.tick) hready h with ⟨-, -, -, hnil⟩ | ⟨cases', hcases', hbranch⟩
    · exact absurd (Except.ok.inj (hcases.symm.trans hnil)) hne
    · obtain rfl := Except.ok.inj (hcases.symm.trans hcases')
      exact hbranch

section Input

variable {c : Context} {leads : LeadsResult} {s t : InputState} {ts : List InputState}

/-- A pruned branch goes to the first case, and assumes nothing. -/
theorem step_of_pruned (h : (Machine.input c leads).prunedCase? s = .ok (some first))
    (hts : (Machine.input c leads).step s = .ok ts) :
    ∃ t, ts = [t] ∧ goTo s.tick first.target = .ok t ∧ t.condition = s.condition := by
  obtain ⟨f, o, cases, rest, hready, hcases, hfeasible, hvetoed⟩ := prunedCase?_eq_some h
  have hne : cases ≠ [] := by
    rintro rfl
    cases hfeasible
  have hbranch := step_eq_branch hready hcases hne hts
  obtain ⟨kept, hkept, hinto⟩ := branch_into hbranch
  obtain rfl := Except.ok.inj (hkept.symm.trans hfeasible)
  cases hinto with
  | @pruned _ _ t _ ht =>
      exact ⟨t, rfl, ht, (quiet_goTo (State.Quiet.refl _) ht).condition⟩
  | fork hsome =>
      obtain ⟨case, hcase, hfollowed⟩ := hsome
      cases hfollowed.symm.trans (hvetoed case hcase)

end Input

/-! ## Descendants -/

/-- The states that a state turns into, itself among them. -/
inductive Descends (m : Machine D) (s : State D) : State D → Prop
  | refl : Descends m s s
  | step {t u : State D} {ts : List (State D)} (ht : Descends m s t)
      (hrunning : t.isRunning = true) (hts : m.step t = .ok ts) (hu : u ∈ ts) : Descends m s u

theorem Reached.descends (hs : m.Reached s) (h : m.Descends s t) : m.Reached t := by
  induction h with
  | refl => exact hs
  | step _ hrunning hts hu ih => exact .step ih hrunning hts hu

/-- Some state that a state turns into within a number of steps passes a check. -/
def finds (m : Machine D) (check : State D → Bool) : Nat → State D → Bool
  | 0, s => check s
  | limit + 1, s => check s || s.isRunning &&
    match m.step s with
    | .ok ts => ts.any (m.finds check limit)
    | .error _ => false

theorem exists_descends_of_finds {check : State D → Bool} {limit : Nat}
    (h : m.finds check limit t = true) (ht : m.Descends s t) :
    ∃ u, m.Descends s u ∧ check u = true := by
  induction limit generalizing t with
  | zero => exact ⟨t, ht, h⟩
  | succ limit ih =>
      simp only [finds, Bool.or_eq_true, Bool.and_eq_true] at h
      rcases h with h | ⟨hrunning, h⟩
      · exact ⟨t, ht, h⟩
      · split at h
        · next ts hts =>
          obtain ⟨u, hu, h⟩ := List.any_eq_true.mp h
          exact ih h (.step ht hrunning hts hu)
        · cases h

end Machine

/-! ## What leads to input -/

/-- What an analysis of the entry point looks at. -/
def Context.scope (c : Context) : Scope := ⟨c.program, c.entry, c.api⟩

/-- The positions of a stack are known to the analysis, and every caller leads to input. -/
structure Guarded (s : Scope) (leads : LeadsResult) (positions : List Position) : Prop where
  located : ∀ p ∈ positions, s.Located p.method p.location
  callers : ∀ p ∈ positions.tail, leads.leads p.method.signature p.location = true

/-- A stack is at its last position, which does not lead to input. -/
def Past (s : Scope) (leads : LeadsResult) (positions : List Position) : Prop :=
  ∃ p, positions = [p] ∧ s.Located p.method p.location ∧
    leads.leads p.method.signature p.location = false

namespace Machine

variable {c : Context} {taint : TaintResult} {leads : LeadsResult} {s t : InputState}
  {positions positions' : List Position}

/-- An instruction that makes a call which is executed leads to input. -/
theorem leads_of_executed (h : Leading c.scope taint leads) {p : Position} {b : Body}
    {i : Instruction} {site : CallSite} (hl : c.scope.Located p.method p.location)
    (hb : p.method.body = some b) (hi : b.instruction? p.location = some i)
    (hsite : site ∈ i.operation.sites)
    (hexecuted : (Policy.input c leads).summarizes site.call.method = false) :
    leads.methodLeads site.call.method.signature = true ∧
      leads.leads p.method.signature p.location = true := by
  have hmethod : leads.methodLeads site.call.method.signature = true := by
    simp only [Policy.input, Bool.or_eq_false_iff, Bool.not_eq_false'] at hexecuted
    exact hexecuted.2
  exact ⟨hmethod, h.settled.leads_of_here hl hb hi (.inr ⟨_, List.mem_map_of_mem hsite, hmethod⟩)⟩

theorem Moves.guarded (h : Leading c.scope taint leads)
    (hmoves : (Machine.input c leads).Moves positions positions')
    (hs : Guarded c.scope leads positions) : Guarded c.scope leads positions' := by
  cases hmoves with
  | stay => exact hs
  | jump hb hi hl =>
      obtain ⟨hp, hcallers⟩ := List.forall_mem_cons.mp hs.located
      exact ⟨List.forall_mem_cons.mpr ⟨h.located_successor hp hb hi hl, hcallers⟩, hs.callers⟩
  | enter hb hi hsite hexecuted hcallee hbody hfirst =>
      obtain ⟨hp, -⟩ := List.forall_mem_cons.mp hs.located
      obtain ⟨hmethod, hleads⟩ := leads_of_executed h hp hb hi hsite hexecuted
      have hmem := h.mem_of_methodLeads hmethod hcallee
      exact ⟨List.forall_mem_cons.mpr ⟨h.located_first hmem hbody hfirst, hs.located⟩,
        List.forall_mem_cons.mpr ⟨hleads, hs.callers⟩⟩
  | leave p caller callers =>
      exact ⟨(List.forall_mem_cons.mp hs.located).2, (List.forall_mem_cons.mp hs.callers).2⟩

/-- What does not lead to input any more stays so. -/
theorem Moves.past (h : Leading c.scope taint leads)
    (hmoves : (Machine.input c leads).Moves positions positions')
    (hs : Past c.scope leads positions) : Past c.scope leads positions' := by
  obtain ⟨p, rfl, hp, hnot⟩ := hs
  cases hmoves with
  | stay => exact ⟨p, rfl, hp, hnot⟩
  | @jump _ b i l _ hb hi hl =>
      refine ⟨⟨p.method, l⟩, rfl, h.located_successor hp hb hi hl, ?_⟩
      by_contra hleads
      have hleads := h.leads_of_successor hp hb hi hl (by simpa using hleads)
      rw [hnot] at hleads
      cases hleads
  | enter hb hi hsite hexecuted =>
      obtain ⟨-, hleads⟩ := leads_of_executed h hp hb hi hsite hexecuted
      rw [hnot] at hleads
      cases hleads

/-- Every running state of an execution is guarded. -/
theorem Reached.guarded (h : Leading c.scope taint leads) (hentry : c.entry ∈ c.scope.methods)
    (hs : (Machine.input c leads).Reached s) (hrunning : s.isRunning = true) :
    Guarded c.scope leads s.positions := by
  induction hs with
  | @start s t ts hs hts ht =>
      have hplace := (Policy.input_inPlace c leads).start hts t ht
      rw [hplace.positions]
      obtain ⟨b, hb, ⟨first, hfirst, rfl⟩ | rfl⟩ := initialState_cases hs
      · refine ⟨List.forall_mem_singleton.mpr ?_, by simp [State.positions, State.start]⟩
        exact h.located_first hentry (Method.requireBody_eq_ok.mp hb) hfirst
      · cases hplace.running hrunning
  | @step s t ts _ hsrunning hts ht ih =>
      exact (step_moves (Policy.input_inPlace c leads) hts ht).guarded h (ih hsrunning)

/-- At a pruned branch, nothing ahead leads to input. -/
theorem past_of_pruned {first : BranchCase} (hs : Guarded c.scope leads s.positions)
    (h : (Machine.input c leads).prunedCase? s = .ok (some first)) :
    Past c.scope leads s.positions := by
  obtain ⟨f, o, cases, rest, hready, -, -, hvetoed⟩ := prunedCase?_eq_some h
  have hvetoed := hvetoed first List.mem_cons_self
  obtain ⟨i, hframe, -⟩ := ready?_eq_ok hready
  obtain ⟨callers, hframes⟩ := State.frame_eq_ok.mp hframe
  have hpositions : s.positions = f.position :: callers.map Frame.position := by
    rw [State.positions, hframes, List.map_cons]
  rw [hpositions] at hs ⊢
  have hvetoed : vetoesCase leads s f.location first.target = true := hvetoed
  simp only [vetoesCase, hframes, Bool.and_eq_true, Bool.not_eq_true'] at hvetoed
  obtain ⟨⟨hbranch, hcallers⟩, -⟩ := hvetoed
  -- A caller would lead to input, and then nothing would have been vetoed.
  cases callers with
  | nil => exact ⟨f.position, rfl, hs.located _ List.mem_cons_self, hbranch⟩
  | cons caller callers =>
      have hleads : leads.leads caller.method.signature caller.location = true :=
        hs.callers caller.position List.mem_cons_self
      rw [List.any_cons, hleads] at hcallers
      cases hcallers

/-- A state whose stack is past all input does not poll next. -/
theorem not_polls_of_past (h : Leading c.scope taint leads) (htaint : c.scope.taint = .ok taint)
    (hs : Past c.scope leads s.positions) {site : CallSite}
    (hsite : nextSite? s = .ok (some site)) : c.api.isInput site.call.method = false := by
  obtain ⟨p, hpositions, hp, hnot⟩ := hs
  simp only [nextSite?, bind_eq_ok, pure_eq_ok] at hsite
  obtain ⟨f, hf, i, hi, hfind⟩ := hsite
  obtain ⟨b, hb, hbi⟩ := Method.instruction_eq_ok.mp hi
  obtain rfl : f.position = p := by
    simpa [hpositions, eq_comm] using State.head?_positions hf
  obtain ⟨⟨site', index⟩, hfound, rfl⟩ := Option.map_eq_some_iff.mp hfind
  have hmem := List.fst_mem_of_mem_zipIdx (List.mem_of_find?_eq_some hfound)
  by_contra hinput
  have hinput : c.api.isInput site'.call.method = true := by simpa using hinput
  have htainted := Scope.isTainted_of_site h.keyed h.numbered htaint hp hb hbi hmem hinput
  rw [h.settled.leads_of_here hp hb hbi (.inl htainted)] at hnot
  cases hnot

/-- Descendants of a state that is past all input are past it as well. -/
theorem Descends.past (h : Leading c.scope taint leads)
    (hs : Past c.scope leads s.positions) (ht : (Machine.input c leads).Descends s t) :
    Past c.scope leads t.positions := by
  induction ht with
  | refl => exact hs
  | step _ _ hts hu ih => exact (step_moves (Policy.input_inPlace c leads) hts hu).past h ih

/-- **Pruning never hides a poll.** In a program that keeps its methods under their own signatures
and whose bodies are numbered by position, let the entry point have a body and be no polling method,
and let the machine know what leads to input. When a state that it reaches passes a branch whose
feasible cases are all vetoed, the state goes to the first of them and assumes nothing, and no
descendant of the state makes a call of a polling method next. So the steps of the descendants are
the same whatever values the policy gives to polls. -/
theorem pruned_never_polls (hkeyed : c.program.Keyed) (hnumbered : c.program.Numbered)
    (hentry : ∃ key : String, c.program.methods[key]? = some c.entry)
    (hbody : c.entry.hasBody = true) (hinput : c.api.isInput c.entry.reference = false)
    (htaint : c.scope.taint = .ok taint) (hleads : c.scope.leadsToInput taint = .ok leads)
    (hs : (Machine.input c leads).Reached s) (hrunning : s.isRunning = true) {first : BranchCase}
    (hpruned : (Machine.input c leads).prunedCase? s = .ok (some first)) :
    (∀ ts, (Machine.input c leads).step s = .ok ts →
      ∃ t, ts = [t] ∧ goTo s.tick first.target = .ok t ∧ t.condition = s.condition) ∧
    ∀ t, (Machine.input c leads).Descends s t →
      (∀ site, nextSite? t = .ok (some site) → c.api.isInput site.call.method = false) ∧
      ∀ summarize, (∀ m, c.api.isInput m = false →
        summarize t.tick m = (Machine.input c leads).policy.summarize t.tick m) →
        ((Machine.input c leads).summarizing summarize).step t = (Machine.input c leads).step t := by
  have h : Leading c.scope taint leads := ⟨hkeyed, hnumbered, hleads⟩
  obtain ⟨key, hkey⟩ := hentry
  obtain rfl := hkeyed key _ hkey
  have hmem : c.entry ∈ c.scope.methods := Scope.entry_mem hkey hbody hinput
  have hpast := past_of_pruned (hs.guarded h hmem hrunning) hpruned
  refine ⟨fun ts hts => step_of_pruned hpruned hts, fun t ht => ?_⟩
  have hnever : ∀ site, nextSite? t = .ok (some site) → c.api.isInput site.call.method = false :=
    fun site hsite => not_polls_of_past h htaint (ht.past h hpast) hsite
  exact ⟨hnever, fun summarize hsame => step_summarizing fun site hsite =>
    hsame site.call.method (hnever site hsite)⟩

/-! ## Two callbacks -/

/-- A callback that branches on conditions, one after another. -/
def branching (conditions : List Expression) : Method :=
  let blocks := conditions.mapIdx fun i e => ⟨i, [⟨.branchIf e (i + 1), []⟩]⟩
  ⟨⟨"Player", "Update", [], .void, 0⟩, [], "Game",
    some { blocks := blocks ++ [⟨conditions.length, [⟨.leave none, []⟩]⟩] }⟩

def keyPressed : Expression :=
  .call (.static "UnityEngine.Input" "GetKey" [.int32] .bool) [.constant (.int32 32)]

def gameOver : Expression := .staticField ⟨"Player", "gameOver", .bool, true⟩

def callback (program : Program) (entry : Method) : Context where
  program
  entry
  options := {}
  solver := fun _ => .ok .unknown
  sorts := {}

def callbackStart (c : Context) : InputState := .start c.entry (.start 0) {}

/-- A callback that polls before it branches on something else. -/
def keyFirst : Context :=
  let entry := branching [keyPressed, gameOver]
  callback ((Program.empty "Game").addMethod entry) entry

/-- A callback that polls after it has branched on something else, kept under another signature than
its own. -/
def keyLast : Context :=
  let entry := branching [gameOver, keyPressed]
  callback { Program.empty "Game" with
    methods := (∅ : Std.TreeMap String Method).insert "Player.Start()" entry } entry

/-- What leads to input is found, and passes a check. -/
def leadsCheck (c : Context) (check : LeadsResult → Bool) : Bool :=
  match c.scope.taint with
  | .error _ => false
  | .ok taint =>
    match c.scope.leadsToInput taint with
    | .error _ => false
    | .ok leads => check leads

theorem exists_of_leadsCheck {check : LeadsResult → Bool} (h : leadsCheck c check = true) :
    ∃ taint leads, c.scope.taint = .ok taint ∧ c.scope.leadsToInput taint = .ok leads ∧
      check leads = true := by
  unfold leadsCheck at h
  split at h
  · cases h
  · next taint htaint =>
    split at h
    · cases h
    · next leads hleads => exact ⟨taint, leads, htaint, hleads, h⟩

/-- The case of a running state that passes a pruned branch. -/
def isPruned (m : Machine D) (s : State D) : Bool :=
  s.isRunning && match m.prunedCase? s with
    | .ok (some _) => true
    | _ => false

theorem isPruned_eq_true {m : Machine D} {s : State D} (h : m.isPruned s = true) :
    s.isRunning = true ∧ ∃ first, m.prunedCase? s = .ok (some first) := by
  simp only [isPruned, Bool.and_eq_true] at h
  obtain ⟨hrunning, h⟩ := h
  split at h
  · next first hfirst => exact ⟨hrunning, first, hfirst⟩
  · cases h

/-- A running state whose next step is a poll. -/
def isPolling (c : Context) (m : Machine D) (s : State D) : Bool :=
  s.isRunning && match nextSite? s, m.step s with
    | .ok (some site), .ok _ => c.api.isInput site.call.method
    | _, _ => false

theorem isPolling_eq_true {m : Machine D} {s : State D} (h : isPolling c m s = true) :
    s.isRunning = true ∧ ∃ site ts, nextSite? s = .ok (some site) ∧ m.step s = .ok ts ∧
      c.api.isInput site.call.method = true := by
  simp only [isPolling, Bool.and_eq_true] at h
  obtain ⟨hrunning, h⟩ := h
  split at h
  · next site ts hsite hts => exact ⟨hrunning, site, ts, hsite, hts, h⟩
  · cases h

theorem keyFirst_pruned : ∃ taint leads s first, keyFirst.scope.taint = .ok taint ∧
    keyFirst.scope.leadsToInput taint = .ok leads ∧
    leads.leads keyFirst.entry.signature (.start 0) = true ∧
    (Machine.input keyFirst leads).Reached s ∧
    (Machine.input keyFirst leads).prunedCase? s = .ok (some first) ∧
    ∀ t, (Machine.input keyFirst leads).Descends s t →
      ∀ site, nextSite? t = .ok (some site) → keyFirst.api.isInput site.call.method = false := by
  have hcheck : leadsCheck keyFirst (fun leads =>
      leads.leads keyFirst.entry.signature (.start 0) && (Machine.input keyFirst leads).finds
        (Machine.input keyFirst leads).isPruned 3 (callbackStart keyFirst)) = true := by
    decide +kernel
  obtain ⟨taint, leads, htaint, hleads, hcheck⟩ := exists_of_leadsCheck hcheck
  rw [Bool.and_eq_true] at hcheck
  obtain ⟨hfirst, hfinds⟩ := hcheck
  have hstart : (Machine.input keyFirst leads).Reached (callbackStart keyFirst) :=
    .start rfl rfl List.mem_cons_self
  obtain ⟨s, hs, hpruned⟩ := exists_descends_of_finds hfinds .refl
  obtain ⟨hrunning, first, hpruned⟩ := isPruned_eq_true hpruned
  have hnumbered : ∀ b ∈ keyFirst.entry.body, b.Numbered := by
    rintro _ ⟨⟩
    unfold Body.Numbered
    decide
  obtain ⟨-, hnever⟩ := pruned_never_polls ((Program.keyed_empty _).addMethod _)
    ((Program.numbered_empty _).insert _ hnumbered) ⟨_, Std.TreeMap.getElem?_insert_self⟩
    rfl (by decide +kernel) htaint hleads (hstart.descends hs) hrunning hpruned
  exact ⟨taint, leads, s, first, htaint, hleads, hfirst, hstart.descends hs, hpruned,
    fun t ht => (hnever t ht).1⟩

/-- **A wrong key hides polls.** The analysis does not find a callback that is kept under another
signature than its own, so nothing leads to input. Its first branch is pruned, and the callback
polls behind it. -/
theorem keyLast_polls_after_pruning : keyLast.program.Numbered ∧
    (∃ key : String, keyLast.program.methods[key]? = some keyLast.entry) ∧
    keyLast.entry.hasBody = true ∧ keyLast.api.isInput keyLast.entry.reference = false ∧
    ∃ taint leads s first t site ts, keyLast.scope.taint = .ok taint ∧
      keyLast.scope.leadsToInput taint = .ok leads ∧
      (Machine.input keyLast leads).Reached s ∧ s.isRunning = true ∧
      (Machine.input keyLast leads).prunedCase? s = .ok (some first) ∧
      (Machine.input keyLast leads).Descends s t ∧ t.isRunning = true ∧
      nextSite? t = .ok (some site) ∧ (Machine.input keyLast leads).step t = .ok ts ∧
      keyLast.api.isInput site.call.method = true := by
  have hnumbered : ∀ b ∈ keyLast.entry.body, b.Numbered := by
    rintro _ ⟨⟩
    unfold Body.Numbered
    decide
  refine ⟨(Program.numbered_empty _).insert _ hnumbered, ⟨_, Std.TreeMap.getElem?_insert_self⟩,
    rfl, by decide +kernel, ?_⟩
  have hcheck : leadsCheck keyLast (fun leads =>
      (Machine.input keyLast leads).isPruned (callbackStart keyLast) &&
        (Machine.input keyLast leads).finds (isPolling keyLast (Machine.input keyLast leads)) 3
          (callbackStart keyLast)) = true := by
    decide +kernel
  obtain ⟨taint, leads, htaint, hleads, hcheck⟩ := exists_of_leadsCheck hcheck
  rw [Bool.and_eq_true] at hcheck
  obtain ⟨hpruned, hfinds⟩ := hcheck
  obtain ⟨hrunning, first, hpruned⟩ := isPruned_eq_true hpruned
  obtain ⟨t, ht, hpolling⟩ := exists_descends_of_finds hfinds .refl
  obtain ⟨htrunning, site, ts, hsite, hts, hinput⟩ := isPolling_eq_true hpolling
  exact ⟨taint, leads, callbackStart keyLast, first, t, site, ts, htaint, hleads,
    .start rfl rfl List.mem_cons_self, hrunning, hpruned, ht, htrunning, hsite, hts, hinput⟩

end Machine

end PlayerPaths
