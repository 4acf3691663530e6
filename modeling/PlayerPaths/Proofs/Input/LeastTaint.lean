import PlayerPaths.Proofs.Input.TaintFlow

/-!
# Taint is a least fixed point

The rules (`Entails`) say what a statement adds to the taint that all methods share, given the
variables that are tainted before it. Every round adds what the rules say of the least flows under
the taint so far. The flows grow with the shared taint, so a round stays below everything that is
closed under the rules (`Derives.has_of_closed`). A round that is not the last adds one of finitely
many facts (`SharedTaint.missing_lt`), so the rounds end, with the least taint that is closed
(`exists_closeTaint`). The analysis finds it, and to start from it changes nothing (`taint_least`).
-/

namespace PlayerPaths

open IL Std

namespace Scope

/-- **The rules.** A statement says something about the shared taint: to return a tainted value
taints the method, to store one taints the field, and to pass one to an analysed method taints the
parameter that it is bound to. -/
inductive Entails (ms : List FlowMethod) (tainted : Expression → Bool) (signature : String) :
    Operation → TaintFact → Prop where
  | leave {value : Expression} (value_tainted : tainted value = true) :
      Entails ms tainted signature (.leave (some value)) (.method signature)
  | storeField {target value : Expression} {f : FieldRef} (value_tainted : tainted value = true) :
      Entails ms tainted signature (.storeField target f value) (.field f.signature)
  | storeStatic {value : Expression} {f : FieldRef} (value_tainted : tainted value = true) :
      Entails ms tainted signature (.storeStatic f value) (.field f.signature)
  | pass {o : Operation} {c : Call} {callee : Method} {i : Nat} {argument : Expression}
      (call : c ∈ o.calls) (callee_analysed : (analysed ms)[c.method.signature]? = some callee)
      (argument_at : c.arguments[i]? = some argument)
      (argument_tainted : tainted argument = true) :
      Entails ms tainted signature o
        (.parameter c.method.signature ((c.parameterName? i (some callee)).getD "this"))

/-- The shared taint is closed under the rules, where variables are tainted as the least solution of
the flow equations of every method says. -/
def TaintClosed (s : Scope) (ms : List FlowMethod) (t : SharedTaint) : Prop :=
  ∀ m ∈ ms, ∃ f : VariableFlow, f.IsLeast s t m ∧
    ∀ n o fact, m.cfg.Has n → m.operation? n = some o →
      Entails ms (s.taints t m.signature (f.before n)) m.signature o fact → t.has fact = true

variable {s : Scope} {ms : List FlowMethod} {t u v : SharedTaint} {fact : TaintFact}

/-! ## Rules -/

theorem Entails.mono {tainted tainted' : Expression → Bool} {signature : String} {o : Operation}
    (himp : ∀ e, tainted e = true → tainted' e = true) (h : Entails ms tainted signature o fact) :
    Entails ms tainted' signature o fact := by
  cases h with
  | leave hvalue => exact .leave (himp _ hvalue)
  | storeField hvalue => exact .storeField (himp _ hvalue)
  | storeStatic hvalue => exact .storeStatic (himp _ hvalue)
  | pass hcall hcallee hat hargument => exact .pass hcall hcallee hat (himp _ hargument)

/-- The rules are what is computed of a statement. -/
theorem mem_consequences {tainted : Expression → Bool} {signature : String} {o : Operation} :
    fact ∈ consequences (analysed ms) tainted signature o ↔ Entails ms tainted signature o fact := by
  unfold consequences
  rw [List.mem_append, List.mem_flatMap]
  constructor
  · rintro (hstored | ⟨c, hc, hpassed⟩)
    · split at hstored
      · split at hstored
        · next hvalue =>
          rw [List.mem_singleton.mp hstored]
          exact .leave hvalue
        · cases hstored
      · split at hstored
        · next hvalue =>
          rw [List.mem_singleton.mp hstored]
          exact .storeField hvalue
        · cases hstored
      · split at hstored
        · next hvalue =>
          rw [List.mem_singleton.mp hstored]
          exact .storeStatic hvalue
        · cases hstored
      · cases hstored
    · split at hpassed
      · cases hpassed
      · next callee hcallee =>
        simp only [List.mem_filterMap, Prod.exists, List.mem_zipIdx_iff_getElem?,
          Option.ite_none_right_eq_some, Option.some.injEq] at hpassed
        obtain ⟨argument, i, hat, hargument, rfl⟩ := hpassed
        exact .pass hc hcallee hat hargument
  · intro h
    cases h with
    | leave hvalue => exact .inl (by simp [hvalue])
    | storeField hvalue => exact .inl (by simp [hvalue])
    | storeStatic hvalue => exact .inl (by simp [hvalue])
    | @pass o c callee i argument hc hcallee hat hargument =>
        refine .inr ⟨c, hc, ?_⟩
        simp only [hcallee, List.mem_filterMap, Prod.exists, List.mem_zipIdx_iff_getElem?]
        exact ⟨argument, i, hat, by rw [if_pos hargument]⟩

/-! ## Rounds -/

/-- The rules say something of some statement of a method, given the least flow. -/
def DerivesIn (s : Scope) (ms : List FlowMethod) (t : SharedTaint) (m : FlowMethod)
    (fact : TaintFact) : Prop :=
  ∃ f : VariableFlow, f.IsLeast s t m ∧ ∃ n o, m.cfg.Has n ∧ m.operation? n = some o ∧
    Entails ms (s.taints t m.signature (f.before n)) m.signature o fact

def Derives (s : Scope) (ms : List FlowMethod) (t : SharedTaint) (fact : TaintFact) : Prop :=
  ∃ m ∈ ms, s.DerivesIn ms t m fact

/-- More taint is derived from more taint. In particular, nothing else is derived from taint that is
closed. -/
theorem Derives.has_of_closed (hgraphed : ∀ m ∈ ms, m.Graphed) (ht : t.Below u)
    (hclosed : s.TaintClosed ms u) (h : s.Derives ms t fact) : u.has fact = true := by
  obtain ⟨m, hm, f, hf, n, o, hn, ho, hentails⟩ := h
  obtain ⟨g, hg, hrules⟩ := hclosed m hm
  obtain ⟨hbefore, -⟩ := below_of_covers (hgraphed m hm) hf (hg.solves.covers ht) n hn
  exact hrules n o fact hn ho (hentails.mono fun _ => taints_mono ht hbefore)

theorem closed_of_derives (hgraphed : ∀ m ∈ ms, m.Graphed)
    (h : ∀ fact, s.Derives ms t fact → t.has fact = true) : s.TaintClosed ms t := by
  intro m hm
  obtain ⟨f, hf, -⟩ := exists_taintedBefore (hgraphed m hm) s t
  exact ⟨f, hf, fun n o fact hn ho hentails => h fact ⟨m, hm, f, hf, n, o, hn, ho, hentails⟩⟩

/-- A round finds what is derived. -/
theorem exists_taintFacts (hgraphed : ∀ m ∈ ms, m.Graphed) (s : Scope) (t : SharedTaint) :
    ∃ facts, s.taintFacts ms t = .ok facts ∧ ∀ fact, fact ∈ facts ↔ s.Derives ms t fact := by
  simp only [taintFacts, bind_eq_ok, pure_eq_ok]
  refine (exists_mapM_eq_ok (g := id) (R := fun facts m => ∀ fact, fact ∈ facts ↔
      s.DerivesIn ms t m fact) fun m hm => ?_).elim fun lists hlists =>
    ⟨lists.flatten, ⟨lists, hlists.1, rfl⟩, fun fact => ?_⟩
  · -- What a method says.
    obtain ⟨f, hf, before, hbefore, hmem⟩ := exists_taintedBefore (hgraphed m hm) s t
    refine ⟨_, by rw [hbefore]; rfl, fun fact => ?_⟩
    simp only [List.mem_flatMap, Prod.exists, mem_consequences]
    constructor
    · rintro ⟨l, o, names, hentry, hentails⟩
      obtain ⟨n, hn, -, ho, rfl⟩ := (hmem l o names).mp hentry
      exact ⟨f, hf, n, o, hn, ho, hentails⟩
    · rintro ⟨g, hg, n, o, hn, ho, hentails⟩
      obtain ⟨l, hl⟩ := FlowMethod.exists_location ho
      obtain ⟨hbefore, -⟩ := hg.least f hf.solves n hn
      exact ⟨l, o, f.before n, (hmem l o _).mpr ⟨n, hn, hl, ho, rfl⟩,
        hentails.mono fun _ => taints_mono (.refl t) hbefore⟩
  · -- What all methods say.
    have hmatch := hlists.2
    rw [List.map_id] at hmatch
    rw [List.mem_flatten]
    constructor
    · rintro ⟨facts, hfacts, hfact⟩
      obtain ⟨m, hm, hmem⟩ := forall₂_exists_of_mem_left hmatch hfacts
      exact ⟨m, hm, (hmem fact).mp hfact⟩
    · rintro ⟨m, hm, hderived⟩
      obtain ⟨facts, hfacts, hmem⟩ := forall₂_exists_of_mem_right hmatch hm
      exact ⟨facts, hfacts, (hmem fact).mpr hderived⟩

/-- What is derived is one of the facts that the rules could ever say. -/
theorem Derives.mem_possibleFacts (h : s.Derives ms t fact) : fact ∈ possibleFacts ms := by
  obtain ⟨m, hm, f, -, n, o, ⟨k, hk⟩, ho, hentails⟩ := h
  obtain ⟨l, hl⟩ := FlowMethod.exists_location ho
  refine List.mem_flatMap.mpr ⟨m, hm, List.mem_flatMap.mpr ⟨(k, l, o), ?_, ?_⟩⟩
  · exact FlowMethod.mem_instructions.mpr ⟨n, hk, hl, ho⟩
  · exact mem_consequences.mpr (hentails.mono fun _ _ => rfl)

end Scope

namespace SharedTaint

variable {t : SharedTaint} {fact other : TaintFact}

@[simp] theorem has_empty : ({} : SharedTaint).has fact = false := by
  cases fact <;> rfl

theorem has_add : (t.add fact).has other = true ↔ other = fact ∨ t.has other = true := by
  cases fact with
  | method signature | field signature =>
      cases other <;> simp [add, has, parametersOf, Sorted.mem_insert]
  | parameter signature name =>
      cases other with
      | method | field => simp [add, has]
      | parameter signature' name' =>
          have hget : (t.add (.parameter signature name)).parametersOf signature' =
              if signature = signature' then
                Sorted.insert compare name (t.parametersOf signature)
              else t.parametersOf signature' := by
            simp [add, parametersOf, TreeMap.getD_insert]
          simp only [has, hget, List.contains_iff_mem, TaintFact.parameter.injEq]
          split
          · next heq => simp [heq, Sorted.mem_insert]
          · next hne => simp [Ne.symm hne]

theorem has_foldl_add {facts : List TaintFact} :
    (facts.foldl add t).has other = true ↔ other ∈ facts ∨ t.has other = true := by
  induction facts generalizing t with
  | nil => simp
  | cons fact facts ih =>
      rw [List.foldl_cons, ih, has_add, List.mem_cons, or_assoc, or_left_comm]

/-- How many of some facts are missing. -/
def missing (t : SharedTaint) (facts : List TaintFact) : Nat :=
  (facts.filter fun fact => !t.has fact).length

theorem missing_le (facts : List TaintFact) : t.missing facts ≤ facts.length :=
  List.length_filter_le _ _

/-- One of the facts is added. -/
theorem missing_lt {u : SharedTaint} {facts : List TaintFact} (ht : t.Below u) (hmem : fact ∈ facts)
    (hmissing : t.has fact = false) (hadded : u.has fact = true) :
    u.missing facts < t.missing facts := by
  have hfilter : facts.filter (fun fact => !u.has fact) =
      (facts.filter fun fact => !t.has fact).filter fun fact => !u.has fact := by
    rw [List.filter_filter]
    refine List.filter_congr fun other _ => ?_
    have himp := ht other
    cases hu : u.has other <;> cases hother : t.has other <;> simp_all
  rw [missing, hfilter]
  refine List.length_filter_lt_length_iff_exists.mpr ⟨fact, ?_, by simp [hadded]⟩
  exact List.mem_filter.mpr ⟨hmem, by simp [hmissing]⟩

end SharedTaint

/-! ## The least closed taint -/

namespace Scope

variable {s : Scope} {ms : List FlowMethod} {t : SharedTaint}

/-- Where nothing new follows, the rounds are over. -/
theorem closeTaint_of_closed (hgraphed : ∀ m ∈ ms, m.Graphed) (h : s.TaintClosed ms t)
    (fuel : Nat) : s.closeTaint ms fuel t = .ok t := by
  cases fuel with
  | zero => rfl
  | succ fuel =>
      obtain ⟨facts, hfacts, hmem⟩ := exists_taintFacts hgraphed s t
      have hall : facts.all t.has = true := List.all_eq_true.mpr fun fact hfact =>
        ((hmem fact).mp hfact).has_of_closed hgraphed (.refl t) h
      simp only [closeTaint, hfacts, bind, Except.bind]
      rw [if_pos hall]
      rfl

/-- **The rounds find the least closed taint** above the one that they start from. -/
theorem exists_closeTaint (hgraphed : ∀ m ∈ ms, m.Graphed) {fuel : Nat}
    (hfuel : t.missing (possibleFacts ms) < fuel) : ∃ u, s.closeTaint ms fuel t = .ok u ∧
      s.TaintClosed ms u ∧ ∀ v, s.TaintClosed ms v → t.Below v → u.Below v := by
  induction fuel generalizing t with
  | zero => omega
  | succ fuel ih =>
      obtain ⟨facts, hfacts, hmem⟩ := exists_taintFacts hgraphed s t
      simp only [closeTaint, hfacts, bind, Except.bind]
      split
      · next hall =>
        rw [List.all_eq_true] at hall
        exact ⟨t, rfl, closed_of_derives hgraphed fun fact h => hall fact ((hmem fact).mpr h),
          fun v _ htv => htv⟩
      · next hnew =>
        have hgrown : t.Below (facts.foldl SharedTaint.add t) :=
          fun fact hfact => SharedTaint.has_foldl_add.mpr (.inr hfact)
        have hfewer : (facts.foldl SharedTaint.add t).missing (possibleFacts ms) <
            t.missing (possibleFacts ms) := by
          simp only [List.all_eq_true, not_forall, Bool.not_eq_true] at hnew
          obtain ⟨fact, hfact, hmissing⟩ := hnew
          exact SharedTaint.missing_lt hgrown ((hmem fact).mp hfact).mem_possibleFacts hmissing
            (SharedTaint.has_foldl_add.mpr (.inl hfact))
        obtain ⟨u, hu, hclosed, hleast⟩ := ih (t := facts.foldl SharedTaint.add t) (by omega)
        refine ⟨u, hu, hclosed, fun v hv htv => hleast v hv fun fact hfact => ?_⟩
        rcases SharedTaint.has_foldl_add.mp hfact with hfact | hfact
        · exact ((hmem fact).mp hfact).has_of_closed hgraphed htv hv
        · exact htv fact hfact

/-- The shared taint that the analysis finds is closed. -/
theorem taint_closed {r : TaintResult} (hms : s.flowMethods = .ok ms) (h : s.taint = .ok r) :
    s.TaintClosed ms r.shared := by
  simp only [taint, taintFrom, bind_eq_ok, pure_eq_ok] at h
  obtain ⟨ms', hms', u, hu, points, -, rfl⟩ := h
  obtain rfl := Except.ok.inj (hms.symm.trans hms')
  have hfuel := Nat.lt_succ_of_le (SharedTaint.missing_le (t := {}) (possibleFacts ms))
  obtain ⟨u', hu', hclosed, -⟩ := exists_closeTaint (s := s) (flowMethods_graphed hms).2 hfuel
  obtain rfl := Except.ok.inj (hu'.symm.trans hu)
  exact hclosed

theorem exists_taintedPoints (hgraphed : ∀ m ∈ ms, m.Graphed) (s : Scope) (t : SharedTaint) :
    ∃ points : List (String × List Location),
      ms.mapM (fun m => return (m.signature, ← s.taintedPoints t m)) = (.ok points : Result _) := by
  refine exists_mapM_ok fun m hm => ?_
  obtain ⟨-, -, before, hbefore, -⟩ := exists_taintedBefore (hgraphed m hm) s t
  simp only [bind_eq_ok, pure_eq_ok, taintedPoints]
  exact ⟨_, _, ⟨before, hbefore, rfl⟩, rfl⟩

/-- **Taint is the least fixed point.** If every method of the analysis has a graph, then the analysis
has a result. Its methods, fields and parameters are closed under the rules, where variables are
tainted as the least solution of the flow equations says, and everything that is closed has them all.
An analysis that starts from the result gives the result. -/
theorem taint_least (hgraphs : ∀ m ∈ s.methods, ∃ g, Cfg.ofMethod m = .ok g) :
    ∃ ms r, s.flowMethods = .ok ms ∧ s.taint = .ok r ∧ s.TaintClosed ms r.shared ∧
      (∀ u, s.TaintClosed ms u → r.shared.Below u) ∧ s.taintFrom r.shared = .ok r := by
  obtain ⟨ms, hms⟩ := exists_flowMethods_iff.mpr hgraphs
  obtain ⟨-, hgraphed⟩ := flowMethods_graphed hms
  have hfuel := Nat.lt_succ_of_le (SharedTaint.missing_le (t := {}) (possibleFacts ms))
  obtain ⟨u, hu, hclosed, hleast⟩ := exists_closeTaint (s := s) hgraphed hfuel
  obtain ⟨points, hpoints⟩ := exists_taintedPoints hgraphed s u
  have hresult : ∀ seed, s.closeTaint ms ((possibleFacts ms).length + 1) seed = .ok u →
      s.taintFrom seed = .ok { points := TreeMap.ofList points, shared := u } := by
    intro seed hseed
    simp only [taintFrom, bind_eq_ok, pure_eq_ok]
    exact ⟨ms, hms, u, hseed, points, hpoints, rfl⟩
  have htaint : s.taint = .ok { points := TreeMap.ofList points, shared := u } := hresult {} hu
  refine ⟨ms, _, hms, htaint, hclosed, fun v hv => ?_, ?_⟩
  · exact hleast v hv fun fact hfact => by simp at hfact
  · exact hresult u (closeTaint_of_closed hgraphed hclosed _)

/-! ## A callback that steers -/

def speed : FieldRef := ⟨"Player", "speed", .single, true⟩

def moveRef : MethodRef := .static "Player" "Move" [.single] .void

/-- Keep the distance as the speed. -/
def move : Method :=
  let statements : List Operation :=
    [.storeStatic speed (.load ⟨"dx", .parameter 0, .single⟩), .leave none]
  ⟨moveRef, [⟨"dx", .single⟩], "Game", some { blocks := [⟨0, statements.map fun o => ⟨o, []⟩⟩] }⟩

/-- Poll an axis, and move by what it gives. -/
def steer : Method :=
  let axis : Expression := .call (.static "UnityEngine.Input" "GetAxis" [.string] .single)
    [.constant (.string "Horizontal")]
  let statements : List Operation := [.store ⟨"x", .local, .single⟩ axis,
    .call ⟨moveRef, [.load ⟨"x", .local, .single⟩]⟩, .leave none]
  ⟨.static "Player" "Update" [] .void, [], "Game",
    some { blocks := [⟨0, statements.map fun o => ⟨o, []⟩⟩] }⟩

def steering : Scope := ⟨((Program.empty "Game").addMethod steer).addMethod move, steer, {}⟩

theorem taint_least_steering : (∀ m ∈ steering.methods, ∃ g, Cfg.ofMethod m = .ok g) ∧
    ∃ ms r, steering.flowMethods = .ok ms ∧ steering.taint = .ok r ∧
      steering.TaintClosed ms r.shared ∧
      r.shared.has (.parameter move.signature "dx") = true ∧
      (∀ u, steering.TaintClosed ms u → u.has (.field speed.signature) = true) ∧
      steering.taintFrom r.shared = .ok r := by
  have hcheck : (match steering.taint with
      | .ok r => r.shared.has (.parameter move.signature "dx") && r.shared.has (.field speed.signature)
      | .error _ => false) = true := by
    decide +kernel
  have hgraphs : ∀ m ∈ steering.methods, ∃ g, Cfg.ofMethod m = .ok g := by
    refine exists_flowMethods_iff.mp ?_
    cases hms : steering.flowMethods with
    | ok ms => exact ⟨ms, rfl⟩
    | error e => simp [taint, taintFrom, hms, bind, Except.bind] at hcheck
  obtain ⟨ms, r, hms, hr, hclosed, hleast, hagain⟩ := taint_least hgraphs
  rw [hr, Bool.and_eq_true] at hcheck
  obtain ⟨hparameter, hfield⟩ := hcheck
  exact ⟨hgraphs, ms, r, hms, hr, hclosed, hparameter, fun u hu => hleast u hu _ hfield, hagain⟩

end Scope

end PlayerPaths
