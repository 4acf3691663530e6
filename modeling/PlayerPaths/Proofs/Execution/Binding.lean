import PlayerPaths.Proofs.Execution.Addresses
import PlayerPaths.Proofs.Execution.Stack
import PlayerPaths.Proofs.Input.LeastTaint
import PlayerPaths.Proofs.Number.Numerals

/-!
# Arguments and parameters

Both the machine and the taint analysis say which parameter of the callee an argument is bound to.
The machine writes the arguments to slots of the new frame (`CallSite.slot`): first the receiver, if
the call has one. It makes the receiver of a constructor itself, so the arguments of a constructor
are its formal parameters from the first one on (`Machine.call_binds`). The analysis takes the first
argument of every method that is not static for the receiver. So the two agree on calls, and a
tainted argument taints the parameter that it is bound to (`Scope.bound_parameter_tainted`), but not
on new objects, where the taint ends up one parameter too early (`Scope.constructor_misses_taint`).
-/

namespace PlayerPaths

open IL Std

/-! ## Slots -/

/-- The slot of the frame of the callee that receives an argument. -/
def IL.CallSite.slot (site : CallSite) (i : Nat) : FrameSlot :=
  if !site.call.method.isStatic && !site.isNew then
    match i with
    | 0 => .this
    | k + 1 => .argument k
  else .argument i

/-- The name of the parameter that a slot holds. -/
def IL.Method.slotName? (m : Method) : FrameSlot → Option String
  | .this => some "this"
  | .argument k => m.parameters[k]?.map Parameter.name
  | _ => none

namespace Address

theorem argument_text_inj {depth i j : Nat}
    (h : (argument depth i).text = (argument depth j).text) : i = j := by
  rw [argument, argument, text_frame, text_frame, String.append_right_inj] at h
  simp only [FrameSlot.segments, List.flatMap_nil, List.append_nil, String.intercalate_cons_cons,
    String.intercalate_singleton, String.append_right_inj] at h
  exact Text.toString_injective h

theorem argument_text_ne_this (depth i : Nat) : (argument depth i).text ≠ (this depth).text := by
  intro h
  rw [argument, this, text_frame, text_frame, String.append_right_inj] at h
  have hchars := congrArg String.toList h
  simp [FrameSlot.segments, String.intercalate_cons_cons] at hchars

end Address

/-! ## What the machine binds -/

namespace Machine

variable {D : Type}

/-- The values that the machine passes. -/
def argumentValues (m : Machine D) (s : State D) (sites : List CallSite) (index : Nat)
    (site : CallSite) : Result (List Formula) := do
  let formals := site.call.method.parameterTypes.map some
  let formals := if !site.call.method.isStatic && !site.isNew then none :: formals else formals
  let v ← s.evaluator m.sorts sites.length
  let before := index - (Expression.postOrderAll site.call.arguments).countP fun e =>
    e.asSite?.isSome
  arguments v before site.call.arguments formals

/-- A call is executed, and its callee has a first instruction. -/
structure Enters (m : Machine D) (s : State D) (sites : List CallSite) (index : Nat)
    (site : CallSite) (callee : Method) (t : State D) : Prop where
  executed : m.policy.summarizes site.call.method = false
  resolved : m.context.program.resolve? site.call.method = some callee
  first : ∃ b l, callee.body = some b ∧ b.resolve (.start 0) = some l
  outcome : ∃ ts, m.call s sites index site = .ok ts ∧ t ∈ ts

/-- The current frame is one of the callee, and each of its slots has the value of the argument that
the slot receives. -/
structure Binds (m : Machine D) (s : State D) (sites : List CallSite) (index : Nat)
    (site : CallSite) (callee : Method) (t : State D) : Prop where
  frame : ∃ f, t.frame = .ok f ∧ f.method = callee ∧ f.depth = s.nextDepth
  slots : ∃ values, m.argumentValues s sites index site = .ok values ∧
    values.length = site.call.arguments.length ∧ ∀ (i : Nat) value, values[i]? = some value →
      t.memory.slots[(Address.mk (.frame s.nextDepth (site.slot i)) []).text]? = some value

variable {m : Machine D} {s t : State D}

theorem length_arguments {v : Evaluator} {before : Nat} {es : List Expression}
    {formals : List (Option Ty)} {values : List Formula}
    (h : arguments v before es formals = .ok values) : values.length = es.length := by
  induction es generalizing before formals values with
  | nil =>
      obtain rfl : [] = values := by simpa [arguments] using h
      rfl
  | cons e es ih =>
      simp only [arguments, bind_eq_ok] at h
      obtain ⟨_, -, h⟩ := h
      split at h
      · simp only [bind_eq_ok, pure_eq_ok] at h
        obtain ⟨_, -, rest, hrest, rfl⟩ := h
        rw [List.length_cons, List.length_cons, ih hrest]
      · simp only [bind_eq_ok, pure_eq_ok] at h
        obtain ⟨_, -, rest, hrest, rfl⟩ := h
        rw [List.length_cons, List.length_cons, ih hrest]

section

variable {depth : Nat}

def writeFrom (depth : Nat) (s : State D) (values : List Formula) (k : Nat) : State D :=
  (values.zipIdx k).foldl (fun s slot => s.write (.argument depth slot.2) slot.1) s

/-- Other slots keep their values. -/
theorem writeFrom_other {text : String} {values : List Formula} {k : Nat}
    (h : ∀ j, k ≤ j → (Address.argument depth j).text ≠ text) :
    (writeFrom depth s values k).memory.slots[text]? = s.memory.slots[text]? := by
  induction values generalizing s k with
  | nil => rfl
  | cons value values ih =>
      have hstep : writeFrom depth s (value :: values) k =
          writeFrom depth (s.write (.argument depth k) value) values (k + 1) := rfl
      rw [hstep, ih fun j hj => h j (by omega), State.write, Memory.write,
        TreeMap.getElem?_insert, if_neg fun heq => h k (Nat.le_refl k)
          (LawfulEqCmp.eq_of_compare heq)]

/-- The slot of an argument gets its value. -/
theorem writeFrom_argument (depth : Nat) {values : List Formula} {k i : Nat} {value : Formula}
    (h : values[i]? = some value) :
    (writeFrom depth s values k).memory.slots[(Address.argument depth (k + i)).text]? =
      some value := by
  induction values generalizing s k i with
  | nil => simp at h
  | cons first values ih =>
      have hstep : writeFrom depth s (first :: values) k =
          writeFrom depth (s.write (.argument depth k) first) values (k + 1) := rfl
      rw [hstep]
      cases i with
      | zero =>
          obtain rfl : first = value := by simpa using h
          have hother : ∀ j, k + 1 ≤ j →
              (Address.argument depth j).text ≠ (Address.argument depth (k + 0)).text := by
            intro j hj heq
            have := Address.argument_text_inj heq
            omega
          rw [writeFrom_other hother]
          exact TreeMap.getElem?_insert_self
      | succ i =>
          have hrest := ih (s := s.write (.argument depth k) first) (k := k + 1) (i := i)
            (by simpa using h)
          rwa [Nat.add_right_comm, Nat.add_assoc] at hrest

theorem bind_argument {receiver : Option Formula} {values : List Formula} {i : Nat}
    {value : Formula} (h : values[i]? = some value) :
    (Machine.bind s depth receiver values).memory.slots[(Address.argument depth i).text]? =
      some value := by
  have hwritten (s : State D) : (writeFrom depth s values 0).memory.slots[
      (Address.argument depth i).text]? = some value := by
    have hslot := writeFrom_argument depth (s := s) (k := 0) h
    rwa [Nat.zero_add] at hslot
  cases receiver with
  | none => exact hwritten s
  | some first => exact hwritten (s.write (.this depth) first)

theorem bind_this {receiver : Formula} {values : List Formula} :
    (Machine.bind s depth (some receiver) values).memory.slots[(Address.this depth).text]? =
      some receiver := by
  refine (writeFrom_other (s := s.write (.this depth) receiver) (k := 0)
    fun j _ => Address.argument_text_ne_this depth j).trans ?_
  exact TreeMap.getElem?_insert_self

theorem frames_bind {receiver : Option Formula} {values : List Formula} :
    (Machine.bind s depth receiver values).frames = s.frames := by
  have hwritten : ∀ (values : List Formula) (k : Nat) (s : State D),
      (writeFrom depth s values k).frames = s.frames := by
    intro values
    induction values with
    | nil => exact fun _ _ => rfl
    | cons value values ih => exact fun k s => ih (k + 1) _
  refine (hwritten values 0 _).trans ?_
  cases receiver <;> rfl

end

/-- What it means to have entered a method. -/
theorem enter_binds {method : MethodRef} {callee : Method} {receiver : Option Formula}
    {values : List Formula} {slot : ReturnSlot}
    (hresolved : m.context.program.resolve? method = some callee)
    (hfirst : ∃ b l, callee.body = some b ∧ b.resolve (.start 0) = some l)
    (h : m.enter s method receiver values slot = .ok t) :
    (∃ f, t.frame = .ok f ∧ f.method = callee ∧ f.depth = s.nextDepth) ∧
      (∀ value ∈ receiver, t.memory.slots[(Address.this s.nextDepth).text]? = some value) ∧
      ∀ (i : Nat) value, values[i]? = some value →
        t.memory.slots[(Address.argument s.nextDepth i).text]? = some value := by
  obtain ⟨b, l, hbody, hl⟩ := hfirst
  obtain ⟨_, b', hcallee, hb', hcases⟩ := enter_cases h
  obtain rfl := Option.some.inj (hresolved.symm.trans hcallee)
  obtain rfl := Option.some.inj (hbody.symm.trans (Method.requireBody_eq_ok.mp hb'))
  obtain ⟨hnone, -⟩ | ⟨l', hl', rfl⟩ := hcases
  · cases hl.symm.trans hnone
  obtain rfl := Option.some.inj (hl.symm.trans hl')
  refine ⟨⟨{ method := callee, depth := s.nextDepth, location := l, returnSlot := some slot },
    State.frame_eq_ok.mpr ⟨s.frames, frames_bind⟩, rfl, rfl⟩, ?_, fun i value => bind_argument⟩
  rintro value ⟨⟩
  exact bind_this

/-- **The machine binds every argument to the slot that receives it.** -/
theorem call_binds {sites : List CallSite} {index : Nat} {site : CallSite} {callee : Method}
    (h : m.Enters s sites index site callee t) : m.Binds s sites index site callee t := by
  obtain ⟨hexecuted, hresolved, hfirst, ts, h, ht⟩ := h
  obtain ⟨v, values, hv, hvalues, hinto⟩ := call_into h
  have hpassed : m.argumentValues s sites index site = .ok values := by
    simp only [argumentValues, bind_eq_ok]
    exact ⟨v, hv, hvalues⟩
  have hlength := length_arguments hvalues
  cases hinto with
  | summarize hsummarizes => cases hsummarizes.symm.trans hexecuted
  | construct _ hnew henter =>
      obtain rfl := List.mem_singleton.mp ht
      obtain ⟨hframe, -, hslots⟩ := enter_binds hresolved hfirst henter
      have hslot : ∀ i, site.slot i = .argument i := by simp [CallSite.slot, hnew]
      refine ⟨hframe, values, hpassed, hlength, fun i value hvalue => ?_⟩
      rw [hslot]
      exact hslots i value hvalue
  | @receive receiver rest _ _ hreceiver heq henter =>
      obtain rfl := List.mem_singleton.mp ht
      subst heq
      obtain ⟨hframe, hthis, hslots⟩ := enter_binds hresolved hfirst henter
      refine ⟨hframe, _, hpassed, hlength, fun i value hvalue => ?_⟩
      unfold CallSite.slot
      rw [if_pos hreceiver]
      cases i with
      | zero =>
          obtain rfl : receiver = value := by simpa using hvalue
          exact hthis receiver rfl
      | succ i => exact hslots i value (by simpa using hvalue)
  | static _ hstatic henter =>
      obtain rfl := List.mem_singleton.mp ht
      obtain ⟨hframe, -, hslots⟩ := enter_binds hresolved hfirst henter
      refine ⟨hframe, values, hpassed, hlength, fun i value hvalue => ?_⟩
      unfold CallSite.slot
      rw [if_neg (by simp [hstatic])]
      exact hslots i value hvalue

end Machine

/-! ## What the analysis taints -/

namespace Scope

variable {s : Scope} {ms : List FlowMethod} {t : SharedTaint} {site : CallSite} {i : Nat}

/-- Some analysed statement passes a tainted argument. -/
def PassesTaint (s : Scope) (ms : List FlowMethod) (t : SharedTaint) (site : CallSite) (i : Nat) :
    Prop :=
  ∃ m ∈ ms, ∃ before, s.taintedBefore t m = .ok before ∧
    ∃ l o names argument, (l, o, names) ∈ before ∧ site ∈ o.sites ∧
      site.call.arguments[i]? = some argument ∧ s.taints t m.signature names argument = true

/-- The parameter that the analysis takes for the one that is bound is tainted. -/
theorem named_parameter_tainted {callee : Method} (hgraphed : ∀ m ∈ ms, m.Graphed)
    (hclosed : s.TaintClosed ms t) (h : s.PassesTaint ms t site i)
    (hcallee : (analysed ms)[site.call.method.signature]? = some callee) :
    (site.call.parameterName? i (some callee)).getD "this" ∈
      t.parametersOf site.call.method.signature := by
  obtain ⟨m, hm, before, hbefore, l, o, names, argument, hmem, hsite, hi, htainted⟩ := h
  obtain ⟨f, hf, hrules⟩ := hclosed m hm
  obtain ⟨g, hg, before', hbefore', hlisted⟩ := exists_taintedBefore (hgraphed m hm) s t
  obtain rfl := Except.ok.inj (hbefore.symm.trans hbefore')
  obtain ⟨n, hn, -, ho, rfl⟩ := (hlisted l o names).mp hmem
  obtain ⟨hsub, -⟩ := hg.least f hf.solves n hn
  have hhas := hrules n o _ hn ho (.pass (List.mem_map_of_mem hsite) hcallee hi
    (taints_mono (.refl t) hsub htainted))
  exact List.contains_iff_mem.mp hhas

/-- Apart from constructors, the analysis and the machine agree. -/
theorem parameterName?_eq_slotName? {callee : Method} {name : String}
    (hreceiver : site.isNew = true → site.call.method.isStatic = true)
    (hname : callee.slotName? (site.slot i) = some name) :
    site.call.parameterName? i (some callee) = some name := by
  unfold CallSite.slot at hname
  unfold Call.parameterName?
  cases hstatic : site.call.method.isStatic with
  | true => simpa [hstatic, Method.slotName?] using hname
  | false =>
      have hnew : site.isNew = false := by
        cases hnew : site.isNew with
        | true => exact absurd (hreceiver hnew) (by simp [hstatic])
        | false => rfl
      cases i with
      | zero => simpa [hstatic, hnew, Method.slotName?] using hname
      | succ k => simpa [hstatic, hnew, Method.slotName?] using hname

/-- **Taint follows the binding of arguments.** Where an analysed statement passes a tainted argument
to an analysed method, the parameter in the slot that receives the argument is tainted, and this is
the slot that every machine writes the argument to. New objects are left out, as their constructors
get a receiver that is no argument. -/
theorem bound_parameter_tainted {r : TaintResult} {callee : Method} {name : String}
    (hms : s.flowMethods = .ok ms) (hr : s.taint = .ok r) (h : s.PassesTaint ms r.shared site i)
    (hcallee : (analysed ms)[site.call.method.signature]? = some callee)
    (hreceiver : site.isNew = true → site.call.method.isStatic = true)
    (hname : callee.slotName? (site.slot i) = some name) :
    name ∈ r.shared.parametersOf site.call.method.signature ∧
      ∀ {D : Type} (m : Machine D) (st st' : State D) (sites : List CallSite) (index : Nat)
        (entered : Method), m.Enters st sites index site entered st' →
          m.Binds st sites index site entered st' := by
  have hnamed := named_parameter_tainted (flowMethods_graphed hms).2 (taint_closed hms hr) h hcallee
  rw [parameterName?_eq_slotName? hreceiver hname, Option.getD_some] at hnamed
  exact ⟨hnamed, fun _ _ _ _ _ _ => Machine.call_binds⟩

/-! ## Shots -/

/-- A method of shots with one parameter, which it stores in a field. The flags tell a constructor
from another method. -/
def shotMethod (name : String) (flags : Nat) : Method :=
  let store : Operation := .storeField (.load ⟨"this", .this, .object "Shot"⟩)
    ⟨"Shot", "speed", .single, false⟩ (.load ⟨"speed", .parameter 0, .single⟩)
  ⟨⟨"Shot", name, [.single], .void, flags⟩, [⟨"speed", .single⟩], "Game",
    some { blocks := [⟨0, [⟨store, []⟩, ⟨.leave none, []⟩]⟩] }⟩

def axis : Expression := .call (.static "UnityEngine.Input" "GetAxis" [.string] .single)
  [.constant (.string "Horizontal")]

def shooter (statement : Operation) : Method :=
  ⟨⟨"Player", "Update", [], .void, 0⟩, [], "Game",
    some { blocks := [⟨0, [⟨statement, []⟩, ⟨.leave none, []⟩]⟩] }⟩

def shooting (statement : Operation) (callee : Method) : Scope :=
  ⟨((Program.empty "Game").addMethod (shooter statement)).addMethod callee, shooter statement, {}⟩

/-- Some analysed statement passes a tainted argument to an analysed method, and the call passes a
check. -/
def passesCheck (s : Scope) (i : Nat) (check : SharedTaint → CallSite → Method → Bool) : Bool :=
  match s.flowMethods, s.taint with
  | .ok ms, .ok r => ms.any fun m =>
    match s.taintedBefore r.shared m with
    | .ok before => before.any fun (_, o, names) => o.sites.any fun site =>
      site.call.arguments[i]?.any (s.taints r.shared m.signature names) &&
        (analysed ms)[site.call.method.signature]?.any (check r.shared site)
    | .error _ => false
  | _, _ => false

theorem exists_of_passesCheck {check : SharedTaint → CallSite → Method → Bool}
    (h : s.passesCheck i check = true) : ∃ ms r site callee, s.flowMethods = .ok ms ∧
      s.taint = .ok r ∧ s.PassesTaint ms r.shared site i ∧
        (analysed ms)[site.call.method.signature]? = some callee ∧
          check r.shared site callee = true := by
  unfold passesCheck at h
  split at h
  · next ms r hms hr =>
    obtain ⟨m, hm, h⟩ := List.any_eq_true.mp h
    split at h
    · next before hbefore =>
      obtain ⟨⟨l, o, names⟩, hmem, h⟩ := List.any_eq_true.mp h
      obtain ⟨site, hsite, h⟩ := List.any_eq_true.mp h
      rw [Bool.and_eq_true, Option.any_eq_true, Option.any_eq_true] at h
      obtain ⟨⟨argument, hi, htainted⟩, callee, hcallee, hcheck⟩ := h
      exact ⟨ms, r, site, callee, hms, hr,
        ⟨m, hm, before, hbefore, l, o, names, argument, hmem, hsite, hi, htainted⟩, hcallee, hcheck⟩
    · cases h
  · cases h

/-- Launch a shot with the polled speed. -/
def launching : Scope :=
  let launch := shotMethod "Launch" 0
  shooting (.call ⟨launch.reference, [.load ⟨"shot", .local, .object "Shot"⟩, axis]⟩) launch

theorem bound_parameter_tainted_launching : ∃ ms r site callee, launching.flowMethods = .ok ms ∧
    launching.taint = .ok r ∧ launching.PassesTaint ms r.shared site 1 ∧
      (analysed ms)[site.call.method.signature]? = some callee ∧
        callee.slotName? (site.slot 1) = some "speed" ∧
          "speed" ∈ r.shared.parametersOf site.call.method.signature := by
  have hcheck : launching.passesCheck 1 (fun _ site callee =>
      !site.isNew && decide (callee.slotName? (site.slot 1) = some "speed")) = true := by
    decide +kernel
  obtain ⟨ms, r, site, callee, hms, hr, hpasses, hcallee, hcheck⟩ := exists_of_passesCheck hcheck
  simp only [Bool.and_eq_true, Bool.not_eq_true', decide_eq_true_eq] at hcheck
  obtain ⟨hnew, hname⟩ := hcheck
  exact ⟨ms, r, site, callee, hms, hr, hpasses, hcallee, hname,
    (bound_parameter_tainted hms hr hpasses hcallee (by simp [hnew]) hname).1⟩

/-- Make a shot with the polled speed. -/
def making : Scope :=
  let constructor := shotMethod ".ctor" 2
  shooting (.store ⟨"shot", .local, .object "Shot"⟩ (.new constructor.reference [axis])) constructor

/-- **Constructors miss taint.** The polled speed is the first argument of a new object, so it is
bound to the parameter of the constructor, which is not tainted. -/
theorem constructor_misses_taint : ∃ ms r site callee, making.flowMethods = .ok ms ∧
    making.taint = .ok r ∧ making.PassesTaint ms r.shared site 0 ∧
      (analysed ms)[site.call.method.signature]? = some callee ∧
        callee.slotName? (site.slot 0) = some "speed" ∧
          (∀ {D : Type} (m : Machine D) (st st' : State D) (sites : List CallSite) (index : Nat)
            (entered : Method), m.Enters st sites index site entered st' →
              m.Binds st sites index site entered st') ∧
          "speed" ∉ r.shared.parametersOf site.call.method.signature := by
  have hcheck : making.passesCheck 0 (fun t site callee =>
      decide (callee.slotName? (site.slot 0) = some "speed") &&
        decide ("speed" ∉ t.parametersOf site.call.method.signature)) = true := by
    decide +kernel
  obtain ⟨ms, r, site, callee, hms, hr, hpasses, hcallee, hcheck⟩ := exists_of_passesCheck hcheck
  rw [Bool.and_eq_true, decide_eq_true_eq, decide_eq_true_eq] at hcheck
  obtain ⟨hname, hmissing⟩ := hcheck
  exact ⟨ms, r, site, callee, hms, hr, hpasses, hcallee, hname,
    fun _ _ _ _ _ _ => Machine.call_binds, hmissing⟩

end Scope

end PlayerPaths
