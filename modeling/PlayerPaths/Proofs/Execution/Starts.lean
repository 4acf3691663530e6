import PlayerPaths.Proofs.Execution.CheckedFormulas
import PlayerPaths.Proofs.Execution.Playable

/-!
# Callbacks can start

A mouse callback starts under conditions on the mouse, on the bounds of the component and on what the
engine has noted before. They are not checked, but they can be met together: with the mouse in the
corner of the screen, bounds that the corner is in or not, and flags that are set or not
(`Context.StartValues`). So every state that a callback starts in is playable, unless the callback
does not run there (`Context.startStatesOf_playable`). The exception is a press of the mouse button
that is looked for in the same place now and in the frame before.
-/

namespace PlayerPaths

open IL Formula

/-- A state that has neither assumed nor polled anything. -/
structure State.Blank (s : InputState) : Prop where
  condition : s.condition = []
  calls : s.calls = ∅
  callCount : s.callCount = 0
  polls : s.data.ids = ∅

theorem Machine.initialState_blank {c : Context} {leads : LeadsResult} {s : InputState}
    (h : (Machine.input c leads).initialState = .ok s) : s.Blank := by
  obtain ⟨b, -, ⟨first, -, rfl⟩ | rfl⟩ := initialState_cases h <;> exact ⟨rfl, rfl, rfl, rfl⟩

/-- The entry of a name that occurs once. -/
theorem lookup_eq_of_mem {entries : List (String × Formula)} (h : (entries.map Prod.fst).Nodup)
    {name : String} {v : Formula} (hmem : (name, v) ∈ entries) : entries.lookup name = some v := by
  induction entries with
  | nil => simp at hmem
  | cons entry entries ih =>
      obtain ⟨hfresh, hnodup⟩ := List.nodup_cons.mp h
      rcases List.mem_cons.mp hmem with rfl | hmem
      · simp
      · have hne : name ≠ entry.1 := by
          rintro rfl
          exact hfresh (List.mem_map.mpr ⟨_, hmem, rfl⟩)
        rw [List.lookup_cons, beq_false_of_ne hne]
        exact ih hnodup hmem

namespace Context

variable {c : Context} {s t : InputState} {m : MethodRef} {arguments : List Formula}
  {σ : Assignment}

/-- A state that has not assumed anything, with calls that are allowed. -/
structure Starting (c : Context) (σ : Assignment) (s : InputState) (calls : Nat) : Prop where
  condition : s.condition = []
  callCount : s.callCount = calls
  allows : c.AllowsCalls σ s

theorem starting_of_blank (hs : s.Blank) : c.Starting σ s 0 :=
  ⟨hs.condition, hs.callCount, by simp [AllowsCalls, hs.calls]⟩

/-! ## First polls -/

/-- A method is polled for the first time, and the poll has a value. -/
structure PollsFirst (c : Context) (s : InputState) (m : MethodRef) (value : Formula)
    (t : InputState) : Prop where
  value : freshValue c.sorts (.symcall s.callCount) m.returnType = .ok (some value)
  condition : t.condition = s.condition
  callCount : t.callCount = s.callCount + 1
  calls : ∀ (id : Nat) (call : SymbolicCall), t.calls[id]? = some call →
    s.calls[id]? = some call ∨ id = s.callCount ∧ call.method = m
  polls : ∀ key ∈ t.data.ids, key ∈ s.data.ids ∨ key.1 = m.signature

theorem poll_first (hm : m.isConstructor = false)
    (hfirst : ∀ key ∈ s.data.ids, key.1 ≠ m.signature) :
    Yields (fun r => c.PollsFirst s m r.1 r.2.2) (c.poll s m arguments) := by
  intro r h
  simp only [poll, bind_eq_ok] at h
  obtain ⟨texts, -, h⟩ := h
  have hnone : s.data.ids[(m.signature, ";".intercalate texts)]? = none :=
    Std.TreeMap.getElem?_eq_none fun hmem => hfirst _ hmem rfl
  simp only [hnone, State.nextCall, symbolicCall, if_true, callType, hm, Bool.false_eq_true,
    if_false] at h
  obtain ⟨⟨value, t⟩, hcall, h⟩ := h
  obtain ⟨fresh, hfresh, heq⟩ := bind_eq_ok.mp hcall
  obtain ⟨rfl, rfl⟩ := Prod.mk.inj (Except.ok.inj heq)
  cases fresh with
  | none => simp at h
  | some value =>
      obtain rfl := Except.ok.inj h
      refine ⟨hfresh, rfl, rfl, fun id call hcall => ?_, fun key hkey => ?_⟩
      · rw [Std.TreeMap.getElem?_insert] at hcall
        split at hcall
        · next heq =>
          obtain rfl := Nat.compare_eq_eq.mp heq
          exact .inr ⟨rfl, Option.some.inj hcall ▸ rfl⟩
        · exact .inl hcall
      · rcases Std.TreeMap.mem_insert.mp hkey with heq | hkey
        · obtain rfl := Std.LawfulEqCmp.eq_of_compare heq
          exact .inr rfl
        · exact .inl hkey

namespace PollsFirst

variable {value : Formula}

theorem starting {n : Nat} (h : c.PollsFirst s m value t) (hs : c.Starting σ s n)
    (hm : c.Allows σ n m) : c.Starting σ t (n + 1) where
  condition := h.condition.trans hs.condition
  callCount := h.callCount.trans (congrArg (· + 1) hs.callCount)
  allows id call hcall := by
    rcases h.calls id call hcall with hold | ⟨rfl, hmethod⟩
    · exact hs.allows id call hold
    · rw [hmethod, hs.callCount]
      exact hm

/-- Other methods stay unpolled. -/
theorem unpolled (h : c.PollsFirst s m value t) {n : MethodRef} (hne : m.signature ≠ n.signature)
    (hs : ∀ key ∈ s.data.ids, key.1 ≠ n.signature) : ∀ key ∈ t.data.ids, key.1 ≠ n.signature := by
  intro key hkey heq
  rcases h.polls key hkey with hold | hkey
  · exact hs key hold heq
  · exact hne (hkey.symm.trans heq)

end PollsFirst

def leftButton (declaringType : String) : MethodRef :=
  .static declaringType "GetMouseButton" [.int32] .bool

theorem leftButton_plain (declaringType : String) :
    (leftButton declaringType).isConstructor = false :=
  show Nat.testBit 1 1 = false by decide

theorem leftButton_free (declaringType : String) (id : Nat) :
    c.Free id (leftButton declaringType) := by
  refine free_of_valued ⟨some (.var (Address.symcall id).text (.bitVec 8)), ?_⟩
    (leftButton_plain declaringType)
    (show "GetAxis".toList.isPrefixOf "GetMouseButton".toList = false by decide +kernel)
    (show ("GetMouseButton" == "get_mousePosition") = false by decide +kernel)
  rw [callType, leftButton_plain]
  rfl

/-- Different types have different buttons. -/
theorem leftButton_signature {a b : String}
    (h : (leftButton a).signature = (leftButton b).signature) : a = b := by
  have hchars := congrArg String.toList h
  simp only [leftButton, MethodRef.static, MethodRef.signature, MethodRef.fullName,
    String.toList_append, List.append_cancel_right_eq] at hchars
  exact String.toList_inj.mp hchars

theorem pollMouseButton_first {declaringType : String} {n : Nat} (hs : c.Starting σ s n)
    (hfirst : ∀ key ∈ s.data.ids, key.1 ≠ (leftButton declaringType).signature) :
    Yields (fun r => r.1 = .var (Address.symcall n).text (.bitVec 8) ∧ c.Starting σ r.2 (n + 1) ∧
      c.PollsFirst s (leftButton declaringType) r.1 r.2) (c.pollMouseButton s declaringType) := by
  unfold pollMouseButton
  refine (poll_first (leftButton_plain declaringType) hfirst).bind_of fun r hr => ?_
  refine .pure ⟨?_, hr.starting hs (leftButton_free _ _).allows, hr⟩
  rw [← hs.callCount]
  exact (Option.some.inj (Except.ok.inj hr.value)).symm

/-! ## Conditions -/

/-- A flag that the engine keeps. -/
theorem special_flag {name : String} :
    Yields (fun e => e = .var (Address.special name).text (.bitVec 8)) (c.special name .bool) :=
  fun _ he => (Except.ok.inj he).symm

theorem isClear_takes {name : String} (hσ : σ name = some (.bits 0 8)) :
    Yields (·.Takes σ (.bool true)) (isClear (.var name (.bitVec 8))) := by
  have hzero : (Formula.bits 0 8).Takes σ (.bits 0 8) := .lit _
  have h := (Takes.var hσ (isValue_bits 0 (by decide))).build_eq hzero
  rwa [decide_eq_true rfl] at h

theorem isSet_takes {name : String} (hσ : σ name = some (.bits 1 8)) :
    Yields (·.Takes σ (.bool true)) (isSet (.var name (.bitVec 8))) := by
  have hzero : (Formula.bits 0 8).Takes σ (.bits 0 8) := .lit _
  have hne : Formula.bits 1 8 ≠ .bits 0 8 := by decide
  have h := (Takes.var hσ (isValue_bits 1 (by decide))).build_eq hzero
  rw [decide_eq_false hne] at h
  exact Yields.bind_of h fun _ he => he.build_not

/-- A coordinate that is zero: it has the default value of its sort. -/
def Origin (σ : Assignment) (x : Formula) : Prop := ∃ s, x.sort = .ok s ∧ x.Takes σ s.zero

/-- A coordinate is compared as zero. -/
theorem origin_takes {x b : Formula} {y : Float} (hx : Origin σ x) (hsort : b.sort = .ok .real)
    (hb : b.Takes σ (.lit (.real y))) {op : ArithComparison} :
    Yields (·.Takes σ (.bool (op.holds 0.0 y))) (Build.compareArith op x b) := by
  obtain ⟨s, hs, hx⟩ := hx
  intro e he
  obtain ⟨⟨t, ht, ht', -⟩, -⟩ := Build.compareArith_eq_ok.mp he
  obtain rfl : .real = t := Except.ok.inj (hsort.symm.trans ht')
  obtain rfl : .real = s := Except.ok.inj (ht.symm.trans hs)
  exact hx.build_compareArith hb (show (Formula.real 0.0).number? = some 0.0 by rw [real_zero]; rfl)
    rfl e he

theorem real_one : Formula.real 1.0 = .lit (.real 1.0) := by
  have hnormal : Double.normal 1.0 = 1.0 := by decide +kernel
  rw [Formula.real, hnormal]

theorem within_takes {x : Formula} (hx : Origin σ x) :
    Yields (·.Takes σ (.bool true)) (within x 0.0 1.0) := by
  unfold within
  rw [real_zero, real_one]
  refine (origin_takes hx rfl (.lit _)).bind_of fun low hlow => ?_
  refine (origin_takes hx rfl (.lit _)).bind_of fun high hhigh => ?_
  have hholds : ArithComparison.ge.holds 0.0 0.0 = true ∧
      ArithComparison.le.holds 0.0 1.0 = true := by decide +kernel
  rw [hholds.1] at hlow
  rw [hholds.2] at hhigh
  exact Takes.build_and (.cons hlow (.cons hhigh .nil))

/-! ## Starts -/

/-- The two states of a start: in the first one the callback runs, and the second one is aborted. -/
theorem startStates_playable {inside outside : List Formula} {n : Nat} (ht : c.Starting σ t n)
    (hinside : ∀ e ∈ inside, e.Takes σ (.bool true)) :
    Yields (fun ts => ∀ u ∈ ts, u.status = .aborted ∨ c.Playable u)
      (startStates t inside outside) := by
  intro ts hts
  simp only [startStates, bind_eq_ok, pure_eq_ok] at hts
  obtain ⟨u, hu, v, hv, rfl⟩ := hts
  refine List.forall_mem_cons.mpr ⟨.inr (playable_iff.mpr ⟨σ, ?_, ?_⟩),
    List.forall_mem_singleton.mpr (.inl rfl)⟩
  · exact State.isTrue_of_assumeAll (by simp [ht.condition]) (fun e he => (hinside e he).hasSort_bool)
      (fun e he => (hinside e he).isTrue) hu
  · simpa only [AllowsCalls, State.assumeAll_calls hu] using ht.allows

/-- The left bound at the start of a callback. The mouse is at zero, so it is in bounds unless it has
just left them. -/
def leftBound (name : String) : Float := if name = "OnMouseExit" then 1.0 else 0.0

def buttonFlag (name : String) : Formula := if name = "OnMouseDown" then .bits 1 8 else .bits 0 8

/-- Whether the mouse has entered the bounds before a callback starts. -/
def enteredFlag (name : String) : Formula := if name = "OnMouseExit" then .bits 1 8 else .bits 0 8

/-- Values for the start of a callback. The first poll has a given value, the second one is of the
left mouse button, and the third one of what it was before. -/
structure StartValues (σ : Assignment) (name : String) (first : Formula) : Prop where
  first : σ (Address.symcall 0).text = some first
  second : σ (Address.symcall 1).text = some (buttonFlag name)
  third : σ (Address.symcall 2).text = some (.bits 0 8)
  minx : σ (Address.special ("instancemousebounds" ++ "minx")).text =
    some (.lit (.real (leftBound name)))
  maxx : σ (Address.special ("instancemousebounds" ++ "maxx")).text = some (.lit (.real 0.0))
  miny : σ (Address.special ("instancemousebounds" ++ "miny")).text = some (.lit (.real 0.0))
  maxy : σ (Address.special ("instancemousebounds" ++ "maxy")).text = some (.lit (.real 0.0))
  entered : σ (Address.special "instancemousedidenter").text = some (enteredFlag name)
  down : σ (Address.special "instancemousewasdown").text = some (.bits 1 8)

def startNames : List String :=
  [(Address.symcall 0).text, (Address.symcall 1).text, (Address.symcall 2).text,
    (Address.special ("instancemousebounds" ++ "minx")).text,
    (Address.special ("instancemousebounds" ++ "maxx")).text,
    (Address.special ("instancemousebounds" ++ "miny")).text,
    (Address.special ("instancemousebounds" ++ "maxy")).text,
    (Address.special "instancemousedidenter").text, (Address.special "instancemousewasdown").text]

theorem exists_startValues (name : String) (first : Formula) : ∃ σ, StartValues σ name first := by
  let values : List Formula := [first, buttonFlag name, .bits 0 8, .lit (.real (leftBound name)),
    .lit (.real 0.0), .lit (.real 0.0), .lit (.real 0.0), enteredFlag name, .bits 1 8]
  have hnodup : ((startNames.zip values).map Prod.fst).Nodup := by
    rw [List.map_fst_zip (by simp [startNames, values])]
    decide +kernel
  have hlookup : ∀ {name v}, (name, v) ∈ startNames.zip values →
      (startNames.zip values).lookup name = some v := lookup_eq_of_mem hnodup
  refine ⟨fun name => (startNames.zip values).lookup name, ?_, ?_, ?_, ?_, ?_, ?_, ?_, ?_, ?_⟩
  all_goals
    refine hlookup ?_
    simp [startNames, values]

theorem startAfterPress_playable (hs : s.Blank) {released : Bool} :
    Yields (fun ts => ∀ t ∈ ts, t.status = .aborted ∨ c.Playable t)
      (c.startAfterPress s released) := by
  obtain ⟨σ, hσ⟩ := exists_startValues c.entry.name (.bits 0 8)
  have hstart : c.Starting σ s 0 := starting_of_blank hs
  refine (pollMouseButton_first hstart (by simp [hs.polls])).bind_of fun r hr => ?_
  obtain ⟨pressed, t⟩ := r
  obtain ⟨rfl, ht, -⟩ := hr
  refine special_flag.bind_of fun _ h => ?_
  subst h
  split
  · refine (isSet_takes hσ.down).bind_of fun down hdown => ?_
    refine (isClear_takes hσ.first).bind_of fun clear hclear => .bind fun set => ?_
    exact startStates_playable ht (forall_mem_pair hdown hclear)
  · refine (isSet_takes hσ.down).bind_of fun down hdown => .bind fun clear => ?_
    exact startStates_playable ht (List.forall_mem_singleton.mpr hdown)

def pointer (c : Context) : MethodRef :=
  .static c.api.inputType "get_mousePosition" [] (c.program.typeOf vectorType)

theorem pointer_plain : c.pointer.isConstructor = false := show Nat.testBit 1 1 = false by decide

theorem pointer_signature {declaringType : String} :
    c.pointer.signature ≠ (leftButton declaringType).signature := by
  intro h
  -- One ends in an empty list of parameters, and the other one does not.
  have hchars := congrArg (fun s => s.toList.reverse) h
  simp [pointer, leftButton, MethodRef.static, MethodRef.signature, MethodRef.fullName,
    Ty.fullName] at hchars

/-- What is known about the mouse position is true when its coordinates are on the screen. -/
theorem pointer_allows {id : Nat} {position x y onScreenX onScreenY : Formula}
    (hvalue : freshValue c.sorts (.symcall id) c.pointer.returnType = .ok (some position))
    (hx : Build.get position "x" = .ok x) (hy : Build.get position "y" = .ok y)
    (hX : within x 0.0 1.0 = .ok onScreenX) (hY : within y 0.0 1.0 = .ok onScreenY)
    (htakesX : onScreenX.Takes σ (.bool true)) (htakesY : onScreenY.Takes σ (.bool true)) :
    c.Allows σ id c.pointer := by
  refine ⟨[onScreenX, onScreenY], ?_, forall_mem_pair htakesX.isTrue htakesY.isTrue⟩
  have haxis : isAxis c.pointer = false :=
    show "GetAxis".toList.isPrefixOf "get_mousePosition".toList = false by decide +kernel
  have hposition : isMousePosition c.pointer = true :=
    show ("get_mousePosition" == "get_mousePosition") = true by decide +kernel
  have htype : c.pointer.declaringType = c.api.inputType := rfl
  simp [callAssumptions, htype, hvalue, haxis, hposition, hx, hy, hX, hY, Bind.bind, Except.bind,
    Pure.pure, Except.pure]

/-- The unknown value of a value type is a variable of its sort. -/
theorem freshValue_struct {sorts : Sorts} {x : Address} {ty : Ty} {v : Formula}
    (hstruct : ty.isStruct = true) (h : freshValue sorts x ty = .ok (some v)) :
    ∃ u, sorts.sort ty = .ok u ∧ v = .var x.text u := by
  cases ty with
  | struct name =>
      simp only [freshValue, Ty.isVoid, Ty.isReference, Bool.false_eq_true, if_false, bind_eq_ok,
        pure_eq_ok, Option.some.injEq] at h
      obtain ⟨u, hu, rfl⟩ := h
      exact ⟨u, hu, rfl⟩
  | _ => cases hstruct

/-- A bound of the component is read, and a coordinate of the mouse compared with it. -/
theorem edge_bind {α : Type} {P : α → Prop} {f : Formula → Result α} {x : Formula} {side : String}
    {v : Float} {op : ArithComparison} (hx : Origin σ x)
    (hσ : σ (Address.special ("instancemousebounds" ++ side)).text = some (.lit (.real v)))
    (h : ∀ e, e.Takes σ (.bool (op.holds 0.0 v)) → Yields P (f e)) :
    Yields P (do
      let b ← c.special ("instancemousebounds" ++ side) .single
      let e ← Build.compareArith op x b
      f e) := by
  have hbound : Yields (fun b => b.sort = .ok .real ∧ b.Takes σ (.lit (.real v)))
      (c.special ("instancemousebounds" ++ side) .single) := by
    intro b hb
    obtain rfl := Except.ok.inj hb
    exact ⟨rfl, .var hσ ⟨rfl, rfl, inRange_lit.mpr rfl⟩⟩
  exact hbound.bind_of fun b hb => (origin_takes hx hb.1 hb.2).bind_of h

/-- The mouse at zero is within bounds, of which only the left one may not be zero. -/
def insideBounds (left : Float) : Bool :=
  [ArithComparison.ge.holds 0.0 left, ArithComparison.le.holds 0.0 0.0,
    ArithComparison.ge.holds 0.0 0.0, ArithComparison.le.holds 0.0 0.0].all (· = true)

theorem insideBounds_leftBound (name : String) :
    insideBounds (leftBound name) = decide (name ≠ "OnMouseExit") := by
  have hinside : insideBounds 0.0 = true ∧ insideBounds 1.0 = false := by decide +kernel
  by_cases hexit : name = "OnMouseExit"
  · simp [leftBound, hexit, hinside.2]
  · simp [leftBound, hexit, hinside.1]

/-- The mouse went down within the bounds: the button was not pressed in the frame before. -/
theorem startPressed_playable {inBounds : Formula} (ht : c.Starting σ t 1)
    (hunpolled : ∀ type, ∀ key ∈ t.data.ids, key.1 ≠ (leftButton type).signature)
    (hne : c.api.inputType ≠ c.api.previousInputType)
    (hpressed : σ (Address.symcall 1).text = some (.bits 1 8))
    (hwasPressed : σ (Address.symcall 2).text = some (.bits 0 8))
    (hinside : inBounds.Takes σ (.bool true)) :
    Yields (fun ts => ∀ t ∈ ts, t.status = .aborted ∨ c.Playable t) (do
      let (pressed, s) ← c.pollMouseButton t c.api.inputType
      let (wasPressed, s) ← c.pollMouseButton s c.api.previousInputType
      startStates s [← isClear wasPressed, ← isSet pressed, inBounds] [← isClear pressed]) := by
  refine (pollMouseButton_first ht (hunpolled _)).bind_of fun r hr => ?_
  obtain ⟨pressed, t'⟩ := r
  obtain ⟨rfl, ht', hfirst⟩ := hr
  have hother := hfirst.unpolled (leftButton_signature.mt hne) (hunpolled _)
  refine (pollMouseButton_first ht' hother).bind_of fun r hr => ?_
  obtain ⟨wasPressed, t''⟩ := r
  obtain ⟨rfl, ht'', -⟩ := hr
  refine (isClear_takes hwasPressed).bind_of fun clear hclear => ?_
  refine (isSet_takes hpressed).bind_of fun set hset => .bind fun outside => ?_
  exact startStates_playable ht'' (List.forall_mem_cons.mpr ⟨hclear, forall_mem_pair hset hinside⟩)

/-- The mouse went up within the bounds: the button is not pressed any more. -/
theorem startReleased_playable {inBounds outOfBounds onScreen : Formula} (ht : c.Starting σ t 1)
    (hunpolled : ∀ type, ∀ key ∈ t.data.ids, key.1 ≠ (leftButton type).signature)
    (hpressed : σ (Address.symcall 1).text = some (.bits 0 8))
    (hwasDown : σ (Address.special "instancemousewasdown").text = some (.bits 1 8))
    (hinside : inBounds.Takes σ (.bool true)) :
    Yields (fun ts => ∀ t ∈ ts, t.status = .aborted ∨ c.Playable t) (do
      let (pressed, s) ← c.pollMouseButton t c.api.inputType
      let wasDown ← c.special "instancemousewasdown" .bool
      startStates s [← isSet wasDown, ← isClear pressed, inBounds] [outOfBounds, onScreen]) := by
  refine (pollMouseButton_first ht (hunpolled _)).bind_of fun r hr => ?_
  obtain ⟨pressed, t'⟩ := r
  obtain ⟨rfl, ht', -⟩ := hr
  refine special_flag.bind_of fun _ h => ?_
  subst h
  refine (isSet_takes hwasDown).bind_of fun set hset => ?_
  refine (isClear_takes hpressed).bind_of fun clear hclear => ?_
  exact startStates_playable ht' (List.forall_mem_cons.mpr ⟨hset, forall_mem_pair hclear hinside⟩)

theorem startOverBounds_playable (hs : s.Blank) (hsorts : c.sorts.InRange) {name : String}
    (hdown : name = "OnMouseDown" → c.api.inputType ≠ c.api.previousInputType) :
    Yields (fun ts => ∀ t ∈ ts, t.status = .aborted ∨ c.Playable t) (c.startOverBounds s name) := by
  unfold startOverBounds
  dsimp only
  by_cases hstruct : (!(c.program.typeOf vectorType).isStruct) = true
  · rw [if_pos hstruct]
    exact .throw_bind
  rw [if_neg hstruct]
  have hvector : (c.program.typeOf vectorType).isStruct = true := by simpa using hstruct
  have hunpolled : ∀ n : MethodRef, ∀ key ∈ s.data.ids, key.1 ≠ n.signature := by simp [hs.polls]
  refine (poll_first pointer_plain (hunpolled _)).bind_of fun r ht => ?_
  obtain ⟨position, first, t⟩ := r
  have hvalue := ht.value
  rw [hs.callCount] at hvalue
  obtain ⟨u, hu, rfl⟩ :=
    freshValue_struct (show c.pointer.returnType.isStruct = true from hvector) hvalue
  obtain ⟨σ, hσ⟩ := exists_startValues name u.zero
  have hposition : (Formula.var (Address.symcall 0).text u).Takes σ u.zero :=
    .var hσ.first (isValue_zero (hsorts.sort hu))
  have hget : ∀ {field}, Yields (fun x => Build.get (.var (Address.symcall 0).text u) field = .ok x ∧
      Origin σ x) (Build.get (.var (Address.symcall 0).text u) field) := fun x hx =>
    ⟨hx, hposition.build_get rfl x hx⟩
  refine hget.bind_of fun x hx => hget.bind_of fun y hy => ?_
  refine edge_bind hx.2 hσ.minx fun e1 he1 => edge_bind hx.2 hσ.maxx fun e2 he2 => ?_
  refine edge_bind hy.2 hσ.miny fun e3 he3 => edge_bind hy.2 hσ.maxy fun e4 he4 => ?_
  refine (Takes.build_and (.cons he1 (.cons he2 (.cons he3 (.cons he4 .nil))))).bind_of
    fun inBounds (hin : inBounds.Takes σ (.bool (insideBounds (leftBound name)))) => ?_
  have hwithin : ∀ {z}, Origin σ z → Yields (fun e => within z 0.0 1.0 = .ok e ∧
      e.Takes σ (.bool true)) (within z 0.0 1.0) := fun hz e he => ⟨he, within_takes hz e he⟩
  refine (hwithin hx.2).bind_of fun onScreenX hX => (hwithin hy.2).bind_of fun onScreenY hY => ?_
  refine (Takes.build_and (.cons hX.2 (.cons hY.2 .nil))).bind_of fun onScreen hon => ?_
  rw [insideBounds_leftBound] at hin
  refine hin.build_not.bind_of fun outOfBounds hout => ?_
  have hstart : c.Starting σ t 1 :=
    ht.starting (starting_of_blank hs) (pointer_allows hvalue hx.1 hy.1 hX.1 hY.1 hX.2 hY.2)
  have hother : ∀ type, ∀ key ∈ t.data.ids, key.1 ≠ (leftButton type).signature :=
    fun _ => ht.unpolled pointer_signature (hunpolled _)
  split
  · exact startStates_playable hstart (List.forall_mem_singleton.mpr hin)
  · exact startPressed_playable hstart hother (hdown rfl) hσ.second hσ.third hin
  · refine special_flag.bind_of fun _ h => ?_
    subst h
    refine (isClear_takes hσ.entered).bind_of fun clear hclear => ?_
    exact startStates_playable hstart (forall_mem_pair hclear hin)
  · refine special_flag.bind_of fun _ h => ?_
    subst h
    refine (isSet_takes hσ.entered).bind_of fun set hset => ?_
    exact startStates_playable hstart (List.forall_mem_cons.mpr ⟨hset, forall_mem_pair hout hon⟩)
  · next hover hdown hnotEnter hexit =>
    have hbutton : buttonFlag name = .bits 0 8 := if_neg hdown
    rw [decide_eq_true (show name ≠ "OnMouseExit" from hexit)] at hin
    exact startReleased_playable hstart hother (hbutton ▸ hσ.second) hσ.down hin

/-- **Callbacks can start**: a state that a callback starts in is playable, or the callback does not
run in it. -/
theorem startStatesOf_playable (hs : s.Blank) (hsorts : c.sorts.InRange)
    (hdown : c.entry.name = "OnMouseDown" → c.api.inputType ≠ c.api.previousInputType) :
    Yields (fun ts => ∀ t ∈ ts, t.status = .aborted ∨ c.Playable t) (c.startStatesOf s) := by
  unfold startStatesOf
  split
  case h_1 | h_2 | h_3 =>
    refine .pure (List.forall_mem_singleton.mpr (.inr (playable_iff.mpr ?_)))
    exact ⟨fun _ => none, by simp [hs.condition], (starting_of_blank hs).allows⟩
  case h_4 | h_5 => exact startAfterPress_playable hs
  case h_7 heq => exact startOverBounds_playable hs hsorts fun _ => hdown heq
  case h_6 | h_8 | h_9 | h_10 =>
    exact startOverBounds_playable hs hsorts fun h => absurd h (by decide)
  case h_11 => exact .throw

end Context

end PlayerPaths
