import PlayerPaths.Proofs.Execution.Pruning

/-!
# Vetoes are all or nothing

A case is vetoed when neither the branch nor a caller leads to input, and the target of the case does
not either. The callers of a state lead to input, since only methods that lead to input are entered,
and a branch leads to input when one of its targets does. So the cases of a branch are vetoed
together, and not before the stack is down to its last frame (`Machine.vetoes_together`). A branch
then goes on in one of three ways, and aborts a state only where no case is feasible (`Branches`).

An entry point that polls is no method that the analysis enters, so nothing leads to input there and
no method is entered (`Reached.alone`).
-/

namespace PlayerPaths

open IL

variable {D : Type}

/-! ## Entry points that are not analysed -/

namespace Scope

variable {s : Scope}

/-- An analysis that does not enter its entry point enters nothing. -/
theorem methods_eq_nil (h : s.enters s.entry.reference = false) : s.methods = [] := by
  have hcallees : s.callees s.entry.reference = [] := by simp [callees, h]
  have hfresh : s.entry.reference.signature ∈ s.signatures.eraseDups :=
    List.mem_eraseDups.mpr List.mem_cons_self
  have hreachable : s.reachable = [s.entry.reference] := by
    rw [reachable, depthFirst_cons, if_pos hfresh, hcallees, List.append_nil]
    congr 1
    unfold depthFirst
    cases List.length _ <;> rfl
  simp [methods, hreachable, h]

/-- Otherwise the entry point is one of its methods. -/
theorem entry_mem_of_enters (hentry : s.program.methods[s.entry.signature]? = some s.entry)
    (h : s.enters s.entry.reference = true) : s.entry ∈ s.methods := by
  have hresolve : s.program.resolve? s.entry.reference = some s.entry := hentry
  simp only [enters, InputApi.entersBody, hresolve, Option.any_some, Bool.and_eq_true,
    Bool.not_eq_true'] at h
  exact entry_mem hentry h.2.1 h.1

end Scope

namespace LeadsResult

variable {r : LeadsResult} {signature : String} {l : Location}

/-- A method with an instruction that leads to input leads to input. -/
theorem methodLeads_of_leads (h : r.leads signature l = true) : r.methodLeads signature = true := by
  rw [methodLeads, Bool.not_eq_true', List.isEmpty_eq_false_iff_exists_mem]
  exact ⟨l, List.contains_iff_mem.mp h⟩

end LeadsResult

/-- Where no method is analysed, none leads to input. -/
theorem Leading.methodLeads_eq_false {s : Scope} {taint : TaintResult} {r : LeadsResult}
    (h : Leading s taint r) (hnone : s.methods = []) (signature : String) :
    r.methodLeads signature = false := by
  by_contra hleads
  obtain ⟨ms, hmethods, -, hknown, -⟩ := h.settled
  obtain ⟨m, hm, -⟩ := hknown signature (LeadsResult.mem_methods.mpr (by simpa using hleads))
  rw [hnone, List.map_eq_nil_iff] at hmethods
  exact absurd hm (hmethods ▸ List.not_mem_nil)

namespace Machine

/-! ## The cases of a branch -/

section

variable {m : Machine D} {s t : State D} {f : Frame} {o : Operation} {cases kept : List BranchCase}
  {l : Location} {ts : List (State D)}

/-- A state that is ready stands at the instruction. -/
theorem ready?_eq_some (h : ready? s = .ok (some (f, o))) : ∃ callers b i,
    s.frames = f :: callers ∧ f.method.body = some b ∧ b.instruction? f.location = some i ∧
      i.operation = o := by
  obtain ⟨i, hf, hi, ho⟩ := ready?_eq_ok h
  obtain ⟨callers, hframes⟩ := State.frame_eq_ok.mp hf
  obtain ⟨b, hb, hi⟩ := Method.instruction_eq_ok.mp hi
  exact ⟨callers, b, i, hframes, hb, hi, ho⟩

/-- The cases of a branch continue along its ways. -/
theorem branchCases_continue {b : Body} (hready : ready? s = .ok (some (f, o)))
    (hb : f.method.body = some b) (h : m.branchCases s = .ok cases) :
    Continue cases b f.location o := by
  simp only [branchCases, hready, bind_eq_ok] at h
  obtain ⟨_, ⟨⟩, h⟩ := h
  simp only [bind_eq_ok, Method.requireBody_eq_ok] at h
  obtain ⟨b', hb', v, -, h⟩ := h
  obtain rfl := Option.some.inj (hb.symm.trans hb')
  cases o with
  | branchIf e target =>
      simp only [bind_eq_ok, pure_eq_ok] at h
      obtain ⟨c, -, n, -, rfl⟩ := h
      refine List.forall_mem_cons.mpr ⟨?_, List.forall_mem_singleton.mpr ?_⟩
      · exact Body.mem_ways_target List.mem_cons_self
      · exact Body.mem_ways_next rfl
  | switch e switch default =>
      simp only [bind_eq_ok] at h
      obtain ⟨value, -, h⟩ := h
      exact switchCases_continue h
  | _ =>
      obtain rfl := Except.ok.inj h
      exact fun case hcase => absurd hcase List.not_mem_nil

/-- How a state goes on at a branch with some feasible cases, all vetoed or none: it is aborted where
there are none, follows the first of those that are vetoed without assuming it, and otherwise
follows and assumes each of them. -/
inductive Branches (s : State D) : (veto : Bool) → List BranchCase → List (State D) → Prop
  | dead {veto : Bool} : Branches s veto [] [s.abort]
  | pass {first : BranchCase} {rest : List BranchCase} {t : State D}
      (ht : goTo s first.target = .ok t) : Branches s true (first :: rest) [t]
  | fork {kept : List BranchCase} {ts : List (State D)} (hkept : kept ≠ [])
      (hts : List.Forall₂ (fun case t => ∃ u, s.assume case.condition = .ok u ∧
        goTo u case.target = .ok t) kept ts) : Branches s false kept ts

/-- A branch whose cases are vetoed together. -/
theorem branches_of_together {veto : Bool}
    (hveto : ∀ case ∈ kept, m.policy.vetoes s l case.target = veto)
    (hkept : m.feasibleCases s cases = .ok kept) (h : m.branch s l cases = .ok ts) :
    Branches s veto kept ts := by
  obtain ⟨kept', hkept', hinto⟩ := branch_into h
  obtain rfl := Except.ok.inj (hkept.symm.trans hkept')
  cases hinto with
  | dead => exact .dead
  | @pruned first _ _ hvetoed ht =>
      obtain rfl : veto = true :=
        (hveto first List.mem_cons_self).symm.trans (hvetoed first List.mem_cons_self)
      exact .pass ht
  | fork hsome hfollowed hdropped =>
      obtain ⟨case, hcase, hnot⟩ := hsome
      obtain rfl : veto = false := (hveto case hcase).symm.trans hnot
      rw [List.filter_eq_self.mpr fun case hcase => by simp [hveto case hcase]] at hfollowed
      rw [List.filter_eq_nil_iff.mpr fun case hcase => by simp [hveto case hcase]] at hdropped
      obtain rfl := List.forall₂_nil_left_iff.mp hdropped
      rw [List.append_nil]
      exact .fork (List.ne_nil_of_mem hcase) hfollowed

/-- Going on does not abort a state. -/
theorem goTo_not_aborted {target : Option Location} (hs : s.isRunning = true)
    (h : goTo s target = .ok t) : t.status ≠ .aborted := by
  have hrunning : s.status ≠ .aborted := by
    intro haborted
    simp [State.isRunning, haborted] at hs
  cases target with
  | some l =>
      obtain ⟨g, callers, -, rfl⟩ := State.modifyFrame_eq_ok.mp h
      exact hrunning
  | none =>
      have h : leave s none = .ok t := h
      rcases leave_cases h with rfl | ⟨f, callers, slot, -, -, h⟩
      · simp
      · obtain ⟨caller, rest, -, rfl⟩ := State.modifyFrame_eq_ok.mp h
        exact hrunning

/-- A branch aborts a running state only where no case is feasible. -/
theorem Branches.not_aborted {veto : Bool} (hs : s.isRunning = true)
    (h : Branches s veto kept ts) (ht : t ∈ ts) (haborted : t.status = .aborted) : kept = [] := by
  cases h with
  | dead => rfl
  | pass hgo =>
      obtain rfl := List.mem_singleton.mp ht
      exact absurd haborted (goTo_not_aborted hs hgo)
  | fork hkept hts =>
      obtain ⟨case, -, u, hu, hgo⟩ := forall₂_exists_of_mem_right hts ht
      have hu : u.isRunning = true := by
        rw [State.isRunning, State.status_assume hu]
        exact hs
      exact absurd haborted (goTo_not_aborted hu hgo)

end

/-! ## Vetoes -/

section

variable {c : Context} {taint : TaintResult} {leads : LeadsResult} {s : InputState}
  {ts : List InputState} {f : Frame} {o : Operation} {cases : List BranchCase}

/-- Where no method leads to input, no method is entered. -/
theorem Moves.alone {positions positions' : List Position}
    (hnone : ∀ signature, leads.methodLeads signature = false)
    (hmoves : (Machine.input c leads).Moves positions positions')
    (h : positions.length ≤ 1) : positions'.length ≤ 1 := by
  cases hmoves with
  | stay => exact h
  | jump => exact h
  | enter _ _ _ hexecuted =>
      simp only [input, Policy.input, Bool.or_eq_false_iff, Bool.not_eq_false'] at hexecuted
      rw [hnone] at hexecuted
      cases hexecuted.2
  | leave => simp at h

theorem Reached.alone (hnone : ∀ signature, leads.methodLeads signature = false)
    (hs : (Machine.input c leads).Reached s) : s.positions.length ≤ 1 := by
  induction hs with
  | @start s t ts hs hts ht =>
      rw [((Policy.input_inPlace c leads).start hts t ht).positions]
      obtain ⟨b, -, ⟨first, -, rfl⟩ | rfl⟩ := initialState_cases hs <;>
        simp [State.positions, State.start]
  | step _ _ hts ht ih => exact (step_moves (Policy.input_inPlace c leads) hts ht).alone hnone ih

/-- What is known of the places around a branch: it leads to input when a target of its cases does,
and so do its callers. -/
structure Foreseen (leads : LeadsResult) (f : Frame) (callers : List Frame)
    (cases : List BranchCase) : Prop where
  targets : ∀ case ∈ cases, ∀ l ∈ case.target,
    leads.leads f.method.signature l = true → leads.leads f.method.signature f.location = true
  callers : ∀ caller ∈ callers, leads.leads caller.method.signature caller.location = true

theorem Reached.foreseen (h : Leading c.scope taint leads)
    (hentry : c.program.methods[c.entry.signature]? = some c.entry)
    (hs : (Machine.input c leads).Reached s) (hrunning : s.isRunning = true) {callers : List Frame}
    (hframes : s.frames = f :: callers) (hready : ready? s = .ok (some (f, o)))
    (hcases : (Machine.input c leads).branchCases s = .ok cases) :
    Foreseen leads f callers cases := by
  have hpositions : s.positions = f.position :: callers.map Frame.position := by
    rw [State.positions, hframes, List.map_cons]
  cases henters : c.scope.enters c.entry.reference with
  | true =>
      have hguarded := hs.guarded h (Scope.entry_mem_of_enters hentry henters) hrunning
      rw [hpositions] at hguarded
      obtain ⟨_, b, i, -, hb, hi, rfl⟩ := ready?_eq_some hready
      constructor
      · intro case hcase l hl htarget
        refine h.leads_of_successor (hguarded.located _ List.mem_cons_self) hb hi ?_ htarget
        rw [Body.mem_successorsOf_iff_ways, ← Option.mem_def.mp hl]
        exact branchCases_continue hready hb hcases case hcase
      · intro caller hcaller
        have hmem : caller.position ∈ callers.map Frame.position := List.mem_map_of_mem hcaller
        exact hguarded.callers caller.position hmem
  | false =>
      have hnone := h.methodLeads_eq_false (Scope.methods_eq_nil henters)
      constructor
      · intro case _ l _ htarget
        have hmethod := LeadsResult.methodLeads_of_leads htarget
        rw [hnone] at hmethod
        cases hmethod
      · have hlength := hs.alone hnone
        rw [hpositions, List.length_cons, List.length_map] at hlength
        obtain rfl : callers = [] := List.length_eq_zero_iff.mp (by omega)
        exact fun caller hcaller => absurd hcaller List.not_mem_nil

/-- The cases are vetoed when the branch does not lead to input and has no callers. -/
theorem Foreseen.vetoesCase_eq {callers : List Frame} (h : Foreseen leads f callers cases)
    (hframes : s.frames = f :: callers) {case : BranchCase} (hcase : case ∈ cases) :
    vetoesCase leads s f.location case.target =
      (!leads.leads f.method.signature f.location && callers.isEmpty) := by
  have hcallers : (callers.any fun g => leads.leads g.method.signature g.location) =
      !callers.isEmpty := by
    cases callers with
    | nil => rfl
    | cons g callers => simp [h.callers g List.mem_cons_self]
  simp only [vetoesCase, hframes, hcallers, Bool.not_not]
  cases hbranch : leads.leads f.method.signature f.location with
  | true => rfl
  | false =>
      have htarget : (case.target.any fun l => leads.leads f.method.signature l) = false := by
        rw [Option.any_eq_false]
        intro l hl
        by_contra hleads
        have hleads := h.targets case hcase l hl (by simpa using hleads)
        rw [hbranch] at hleads
        cases hleads
      simp [htarget]

/-- **Vetoes are all or nothing.** In a program that keeps its methods under their own signatures and
whose bodies are numbered by position, let the machine know what leads to input from one of the
methods. At every branch that a state makes, the cases are vetoed together, and none of them while
the state has callers. So no state is aborted beside one that goes on. -/
theorem vetoes_together (hkeyed : c.program.Keyed) (hnumbered : c.program.Numbered)
    (hentry : ∃ key : String, c.program.methods[key]? = some c.entry)
    (hleads : c.scope.leadsToInput taint = .ok leads)
    (hs : (Machine.input c leads).Reached s) (hrunning : s.isRunning = true)
    (hready : ready? s = .ok (some (f, o)))
    (hcases : (Machine.input c leads).branchCases s = .ok cases) :
    ∃ veto, (∀ case ∈ cases,
        (Machine.input c leads).policy.vetoes s f.location case.target = veto) ∧
      (1 < s.frames.length → veto = false) ∧
      ∀ kept ts, cases ≠ [] → (Machine.input c leads).feasibleCases s.tick cases = .ok kept →
        (Machine.input c leads).step s = .ok ts →
          Branches s.tick veto kept ts ∧ ∀ t ∈ ts, t.status = .aborted → kept = [] := by
  have h : Leading c.scope taint leads := ⟨hkeyed, hnumbered, hleads⟩
  obtain ⟨key, hkey⟩ := hentry
  obtain rfl := hkeyed key _ hkey
  obtain ⟨callers, b, i, hframes, -⟩ := ready?_eq_some hready
  have hveto : ∀ case ∈ cases, vetoesCase leads s f.location case.target =
      (!leads.leads f.method.signature f.location && callers.isEmpty) := fun case hcase =>
    (hs.foreseen h hkey hrunning hframes hready hcases).vetoesCase_eq hframes hcase
  refine ⟨_, hveto, fun hdeep => ?_, fun kept ts hne hkept hts => ?_⟩
  · cases callers with
    | nil => simp [hframes] at hdeep
    | cons g callers => simp
  · have hkeptVeto : ∀ case ∈ kept,
        (Machine.input c leads).policy.vetoes s.tick f.location case.target =
          (!leads.leads f.method.signature f.location && callers.isEmpty) := by
      intro case hcase
      obtain ⟨original, horiginal, -, htarget, -⟩ := mem_kept hkept hcase
      rw [htarget]
      exact hveto original horiginal
    have hbranches := branches_of_together hkeptVeto hkept (step_eq_branch hready hcases hne hts)
    exact ⟨hbranches, fun t ht => hbranches.not_aborted (s := s.tick) hrunning ht⟩

end

/-! ## Two callbacks -/

/-- A running state that is at a branch with a vetoed case. -/
def isVetoing (m : Machine D) (s : State D) : Bool :=
  s.isRunning && match ready? s, m.branchCases s with
    | .ok (some (f, _)), .ok cases => cases.any fun case => m.policy.vetoes s f.location case.target
    | _, _ => false

theorem isVetoing_eq_true {m : Machine D} {s : State D} (h : m.isVetoing s = true) :
    s.isRunning = true ∧ ∃ f o cases, ready? s = .ok (some (f, o)) ∧ m.branchCases s = .ok cases ∧
      ∃ case ∈ cases, m.policy.vetoes s f.location case.target = true := by
  simp only [isVetoing, Bool.and_eq_true] at h
  obtain ⟨hrunning, h⟩ := h
  split at h
  · next f o cases hready hcases =>
    exact ⟨hrunning, f, o, cases, hready, hcases, List.any_eq_true.mp h⟩
  · cases h

/-- Behind the poll of the callback there is a branch with a vetoed case, so all are vetoed. -/
theorem keyFirst_vetoed : ∃ taint leads s f o cases,
    keyFirst.scope.leadsToInput taint = .ok leads ∧ (Machine.input keyFirst leads).Reached s ∧
    ready? s = .ok (some (f, o)) ∧ (Machine.input keyFirst leads).branchCases s = .ok cases ∧
    cases ≠ [] ∧ s.frames.length ≤ 1 ∧
    ∀ case ∈ cases,
      (Machine.input keyFirst leads).policy.vetoes s f.location case.target = true := by
  have hcheck : leadsCheck keyFirst (fun leads => (Machine.input keyFirst leads).finds
      (Machine.input keyFirst leads).isVetoing 3 (callbackStart keyFirst)) = true := by
    decide +kernel
  obtain ⟨taint, leads, -, hleads, hfinds⟩ := exists_of_leadsCheck hcheck
  have hstart : (Machine.input keyFirst leads).Reached (callbackStart keyFirst) :=
    .start rfl rfl List.mem_cons_self
  obtain ⟨s, hs, hvetoing⟩ := exists_descends_of_finds hfinds .refl
  obtain ⟨hrunning, f, o, cases, hready, hcases, case, hcase, hvetoed⟩ := isVetoing_eq_true hvetoing
  have hnumbered : ∀ b ∈ keyFirst.entry.body, b.Numbered := by
    rintro _ ⟨⟩
    unfold Body.Numbered
    decide
  obtain ⟨veto, htogether, hdeep, -⟩ := vetoes_together ((Program.keyed_empty _).addMethod _)
    ((Program.numbered_empty _).insert _ hnumbered) ⟨_, Std.TreeMap.getElem?_insert_self⟩
    hleads (hstart.descends hs) hrunning hready hcases
  obtain rfl : veto = true := (htogether case hcase).symm.trans hvetoed
  refine ⟨taint, leads, s, f, o, cases, hleads, hstart.descends hs, hready, hcases,
    List.ne_nil_of_mem hcase, ?_, htogether⟩
  by_contra hlength
  cases hdeep (by omega)

def statementsOf (blocks : List (List Operation)) : Method :=
  ⟨⟨"Player", "Update", [], .void, 0⟩, [], "Game",
    some { blocks := blocks.mapIdx fun i os => ⟨i, os.map fun o => ⟨o, []⟩⟩ }⟩

/-- A callback that branches, and a method that polls in its second block. They have one signature,
and the callback is kept under another one. -/
def mixedUp : Context :=
  let entry := statementsOf [[.branchIf gameOver 1, .leave none], [.leave none]]
  let other := statementsOf [[.leave none], [.branchIf keyPressed 1, .leave none]]
  callback { Program.empty "Game" with
    methods := ((∅ : Std.TreeMap String Method).insert "Player.Start()" entry).insert
      "Player.Update()" other } entry

/-- Among the feasible cases of the branch of a state, one is vetoed and another one is not, and the
state goes on into an aborted one and another one. -/
def isTorn (m : Machine D) (s : State D) : Bool :=
  match ready? s, m.branchCases s, m.step s with
  | .ok (some (f, _)), .ok cases, .ok ts =>
    match m.feasibleCases s.tick cases with
    | .ok kept => (kept.any fun case => m.policy.vetoes s f.location case.target) &&
        (kept.any fun case => !m.policy.vetoes s f.location case.target) &&
        (ts.any fun t => t.status = .aborted) && ts.any fun t => t.status ≠ .aborted
    | .error _ => false
  | _, _, _ => false

theorem isTorn_eq_true {m : Machine D} {s : State D} (h : m.isTorn s = true) :
    ∃ f o cases kept ts, ready? s = .ok (some (f, o)) ∧ m.branchCases s = .ok cases ∧
      m.feasibleCases s.tick cases = .ok kept ∧ m.step s = .ok ts ∧
      (∃ case ∈ kept, m.policy.vetoes s f.location case.target = true) ∧
      (∃ case ∈ kept, m.policy.vetoes s f.location case.target = false) ∧
      (∃ t ∈ ts, t.status = .aborted) ∧ ∃ t ∈ ts, t.status ≠ .aborted := by
  simp only [isTorn] at h
  split at h
  · next f o cases ts hready hcases hts =>
    split at h
    · next kept hkept =>
      simp only [Bool.and_eq_true, List.any_eq_true, decide_eq_true_eq, Bool.not_eq_true',
        and_assoc] at h
      exact ⟨f, o, cases, kept, ts, hready, hcases, hkept, hts, h⟩
    · cases h
  · cases h

/-- **A wrong key mixes vetoes.** The analysis of a callback that is kept under another signature than
its own looks at the method that is kept under the signature. One case of the branch in the callback
has the location of a poll there, and the other one is aborted beside it. -/
theorem mixedUp_torn : mixedUp.program.Numbered ∧
    (∃ key : String, mixedUp.program.methods[key]? = some mixedUp.entry) ∧
    ∃ taint leads s f o cases kept ts, mixedUp.scope.taint = .ok taint ∧
      mixedUp.scope.leadsToInput taint = .ok leads ∧ (Machine.input mixedUp leads).Reached s ∧
      s.isRunning = true ∧ ready? s = .ok (some (f, o)) ∧
      (Machine.input mixedUp leads).branchCases s = .ok cases ∧
      (Machine.input mixedUp leads).feasibleCases s.tick cases = .ok kept ∧
      (Machine.input mixedUp leads).step s = .ok ts ∧
      (∃ case ∈ kept,
        (Machine.input mixedUp leads).policy.vetoes s f.location case.target = true) ∧
      (∃ case ∈ kept,
        (Machine.input mixedUp leads).policy.vetoes s f.location case.target = false) ∧
      (∃ t ∈ ts, t.status = .aborted) ∧ ∃ t ∈ ts, t.status ≠ .aborted := by
  have hnumbered : ∀ blocks : List (List Operation),
      ∀ b ∈ (statementsOf blocks).body, b.Numbered := by
    rintro blocks _ ⟨⟩ i hi
    simp
  refine ⟨((Program.numbered_empty _).insert _ (hnumbered _)).insert _ (hnumbered _),
    ⟨"Player.Start()", rfl⟩, ?_⟩
  have hcheck : leadsCheck mixedUp (fun leads =>
      (Machine.input mixedUp leads).isTorn (callbackStart mixedUp)) = true := by
    decide +kernel
  obtain ⟨taint, leads, htaint, hleads, htorn⟩ := exists_of_leadsCheck hcheck
  obtain ⟨f, o, cases, kept, ts, hready, hcases, hkept, hts, htorn⟩ := isTorn_eq_true htorn
  exact ⟨taint, leads, _, f, o, cases, kept, ts, htaint, hleads, .start rfl rfl List.mem_cons_self,
    rfl, hready, hcases, hkept, hts, htorn⟩

end Machine

end PlayerPaths
