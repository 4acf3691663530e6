import PlayerPaths.Proofs.Execution.Addresses
import PlayerPaths.Proofs.Execution.InputForks
import PlayerPaths.Proofs.Live.Agreement
import PlayerPaths.Proofs.Live.Signs

/-!
# The input that is reported

Every poll of a path is reported with what the player has to do for the value that a model gives to
it (`InputRead.Reports`): flags and coordinates exactly, an axis by its sign. So the reported input
drives the application down the path when the condition does nothing with axes but compare them with
zero (`CompiledPath.inputs_drive`). It may not when the condition asks for more, as the interior of an
axis (`aiming_misses`).
-/

namespace PlayerPaths

open Formula

/-- Whether a value is set: it is no zero. -/
def Formula.flag? : Formula → Option Bool
  | .lit (.bool b) => some b
  | .lit (.bits value _) => some (value != 0)
  | _ => none

namespace InputRead

variable {r : InputRead} {component : Value} {m : Model} {σ : Assignment}

def name (r : InputRead) : String := (Address.symcall r.id).text

def isAxis (r : InputRead) : Bool := r.method == "GetAxis" || r.method == "GetAxisRaw"

/-- The mouse points to a number along an axis of the screen. -/
def Points (r : InputRead) (σ : Assignment) (axis : ScreenAxis) (x : Float) : Prop :=
  ∃ e v, Build.get r.result axis.name = .ok e ∧ e.eval σ = .ok v ∧ v.number? = some x

/-- What is reported for a poll under an assignment: the arguments that it is called with now, and
the number, the flag or the coordinates that are assigned to it. An axis is held at a function of its
number. -/
inductive Reports (held : Float → Float) (component : Value) (σ : Assignment) (r : InputRead) :
    List InputCondition → Prop
  | axis {arguments : List Value} {name : String} {v : Formula} {x : Float}
      (hr : r.isAxis = true) (harguments : r.values? component = .ok (some arguments))
      (hname : r.textArgument arguments = .ok name) (hv : σ r.name = some v)
      (hx : v.number? = some x) : Reports held component σ r [.axis name (held x)]
  | button {arguments : List Value} {name : String} {v : Formula} {down : Bool}
      (hr : r.method = "GetButton") (harguments : r.values? component = .ok (some arguments))
      (hname : r.textArgument arguments = .ok name) (hv : σ r.name = some v)
      (hdown : v.flag? = some down) : Reports held component σ r [.button name down]
  | key {arguments : List Value} {k : Key} {v : Formula} {down : Bool}
      (hr : r.method = "GetKey" ∧ keyArgument arguments = .ok k ∨
        r.method = "GetMouseButton" ∧ buttonArgument arguments = .ok k)
      (harguments : r.values? component = .ok (some arguments)) (hv : σ r.name = some v)
      (hdown : v.flag? = some down) : Reports held component σ r [.key k down]
  | mousePosition {x y : Float} (hr : r.method = "get_mousePosition") (hx : r.Points σ .x x)
      (hy : r.Points σ .y y) :
      Reports held component σ r [.mousePosition .x x, .mousePosition .y y]

/-! ## Values in a model -/

theorem solved_eq_ok {e v : Formula} (h : solved m e = .ok v) : e.eval m.assignment = .ok v := by
  simp only [solved, Model.eval, bind_eq_ok] at h
  obtain ⟨value, hvalue, h⟩ := h
  cases heval : e.eval m.assignment with
  | error reason =>
      cases reason with
      | undefined =>
          obtain rfl : none = value := by simpa [heval, Evaluation.value?] using hvalue
          simp at h
      | fault => simp [heval, Evaluation.value?] at hvalue
  | ok w =>
      obtain rfl : some w = value := by simpa [heval, Evaluation.value?] using hvalue
      rw [Except.ok.inj h]

theorem solved_result_eq_ok {v : Formula} (h : solved m r.result = .ok v) :
    m.assignment r.name = some v :=
  eval_var_eq_ok.mp (solved_eq_ok h)

theorem flag_eq_ok {down : Bool} (h : flag m r.result = .ok down) :
    ∃ v, m.assignment r.name = some v ∧ v.flag? = some down := by
  simp only [flag, bind_eq_ok] at h
  obtain ⟨v, hv, h⟩ := h
  refine ⟨v, solved_result_eq_ok hv, ?_⟩
  split at h
  · exact congrArg some (Except.ok.inj h)
  · exact congrArg some (Except.ok.inj h)
  · simp at h

theorem coordinate_eq_ok {axis : ScreenAxis} {c : InputCondition}
    (h : r.coordinate m axis = .ok c) :
    ∃ x, c = .mousePosition axis x ∧ r.Points m.assignment axis x := by
  simp only [coordinate, bind_eq_ok] at h
  obtain ⟨e, he, v, hv, h⟩ := h
  cases hx : v.number? with
  | none => simp [hx] at h
  | some x =>
      simp only [hx] at h
      exact ⟨x, (Except.ok.inj h).symm, e, v, he, solved_eq_ok hv, hx⟩

/-- **What is reported** for the value that a model gives to a poll. -/
theorem conditions_report {arguments : List Value} {conditions : List InputCondition}
    (harguments : r.values? component = .ok (some arguments))
    (h : r.conditions m arguments = .ok conditions) :
    r.Reports sign component m.assignment conditions := by
  unfold InputRead.conditions at h
  split at h
  case h_1 hr | h_2 hr =>
    simp only [bind_eq_ok] at h
    obtain ⟨name, hname, v, hv, h⟩ := h
    cases hx : v.number? with
    | none => simp [hx] at h
    | some x =>
        simp only [hx] at h
        obtain rfl := Except.ok.inj h
        exact .axis (by simp [isAxis, hr]) harguments hname (solved_result_eq_ok hv) hx
  case h_3 hr =>
    simp only [bind_eq_ok, pure_eq_ok] at h
    obtain ⟨name, hname, down, hdown, rfl⟩ := h
    obtain ⟨v, hv, hflag⟩ := flag_eq_ok hdown
    exact .button hr harguments hname hv hflag
  case h_4 hr =>
    simp only [bind_eq_ok, pure_eq_ok] at h
    obtain ⟨k, hk, down, hdown, rfl⟩ := h
    obtain ⟨v, hv, hflag⟩ := flag_eq_ok hdown
    exact .key (.inl ⟨hr, hk⟩) harguments hv hflag
  case h_5 hr =>
    simp only [bind_eq_ok, pure_eq_ok] at h
    obtain ⟨k, hk, down, hdown, rfl⟩ := h
    obtain ⟨v, hv, hflag⟩ := flag_eq_ok hdown
    exact .key (.inr ⟨hr, hk⟩) harguments hv hflag
  case h_6 hr =>
    simp only [mapM_eq_ok, List.forall₂_cons_left_iff, List.forall₂_nil_left_iff] at h
    obtain ⟨c, rest, hc, ⟨d, _, hd, rfl, rfl⟩, rfl⟩ := h
    obtain ⟨x, rfl, hx⟩ := coordinate_eq_ok hc
    obtain ⟨y, rfl, hy⟩ := coordinate_eq_ok hd
    exact .mousePosition hr hx hy
  case h_7 => simp at h

theorem allConditions_eq_some {polls : List InputRead} {conditions : List InputCondition}
    (h : allConditions component m polls = .ok (some conditions)) :
    ∃ groups, conditions = groups.flatten ∧
      List.Forall₂ (Reports sign component m.assignment) polls groups := by
  induction polls generalizing conditions with
  | nil =>
      obtain rfl : [] = conditions := by simpa [allConditions] using h
      exact ⟨[], rfl, .nil⟩
  | cons r polls ih =>
      simp only [allConditions, bind_eq_ok] at h
      obtain ⟨values, hvalues, h⟩ := h
      cases values with
      | none => simp at h
      | some values =>
          simp only [bind_eq_ok, pure_eq_ok] at h
          obtain ⟨first, hfirst, rest, hrest, h⟩ := h
          obtain ⟨others, rfl, rfl⟩ := Option.map_eq_some_iff.mp h
          obtain ⟨groups, rfl, hgroups⟩ := ih hrest
          exact ⟨first :: groups, rfl, .cons (conditions_report hvalues hfirst) hgroups⟩

/-! ## Axes held at their signs -/

/-- A report does not change with the values of other variables. -/
theorem Reports.congr {τ : Assignment} {held held' : Float → Float} {group : List InputCondition}
    (haxis : r.isAxis = false) (hname : σ r.name = τ r.name)
    (h : r.Reports held component σ group) : r.Reports held' component τ group := by
  have hpoints : ∀ {axis : ScreenAxis} {x : Float}, r.Points σ axis x → r.Points τ axis x := by
    rintro axis x ⟨e, v, he, hv, hx⟩
    obtain ⟨_, _, -, -, rfl⟩ := Build.get_eq_ok.mp he
    refine ⟨_, v, he, ?_, hx⟩
    rw [← hv]
    refine (eval_congr fun name s hvar => ?_).symm
    obtain ⟨rfl, -⟩ : name = r.name ∧ s = r.sort := by simpa [result, InputRead.name] using hvar
    exact hname
  cases h with
  | axis hr => simp [haxis] at hr
  | button hr harguments htext hv hdown =>
      exact .button hr harguments htext (hname ▸ hv) hdown
  | key hr harguments hv hdown => exact .key hr harguments (hname ▸ hv) hdown
  | mousePosition hr hx hy => exact .mousePosition hr (hpoints hx) (hpoints hy)

/-- What is reported for an axis is the number itself when axes are held at their signs. -/
theorem Reports.signed {axes : List String} {group : List InputCondition}
    (haxes : r.name ∈ axes ↔ r.isAxis = true) (h : r.Reports sign component σ group) :
    r.Reports (fun x => x) component (σ.signed axes) group := by
  cases haxis : r.isAxis with
  | false =>
      have hname : r.name ∉ axes := fun hmem => by simp [haxes.mp hmem] at haxis
      exact h.congr haxis (by simp [Assignment.signed, hname])
  | true =>
      cases h with
      | @axis arguments text v x hr harguments htext hv hx =>
          have hsigned : σ.signed axes r.name = some (.lit (.real (sign x))) := by
            simp [Assignment.signed, haxes.mpr haxis, hv, signOf, hx]
          exact .axis hr harguments htext hsigned rfl
      | button hr => simp [isAxis, hr] at haxis
      | key hr => rcases hr with ⟨hr, -⟩ | ⟨hr, -⟩ <;> simp [isAxis, hr] at haxis
      | mousePosition hr => simp [isAxis, hr] at haxis

/-- An axis has a sign where one of the cases of its split holds. -/
theorem signedValue_of_case {a : AxisCase} {e v : Formula}
    (he : Context.axisCondition r.result a = .ok e) (hv : σ r.name = some v)
    (h : e.eval σ = .ok (.bool true)) : SignedValue v := by
  have hresult : r.result.eval σ = .ok v := eval_var_eq_ok.mpr hv
  have hcompare : ∀ op, (Formula.binary (.compareArith op) r.result (.lit (.real 0.0))).eval σ =
      .ok (.bool true) → ∃ x, v.number? = some x ∧ op.holds x 0.0 = true := by
    intro op h
    obtain ⟨_, zero, hx, hzero, h⟩ := eval_binary_eq_ok.mp h
    obtain rfl := Except.ok.inj (hresult.symm.trans hx)
    obtain rfl := Except.ok.inj hzero
    obtain ⟨x, y, hx, hy, heq⟩ := apply_compareArith_eq_ok.mp h
    obtain rfl : (0.0 : Float) = y := by simpa [number?] using hy
    exact ⟨x, hx, by simpa using heq.symm⟩
  cases a with
  | positive =>
      obtain ⟨-, rfl⟩ := Build.compareArith_eq_ok.mp he
      rw [real_zero] at h
      obtain ⟨x, hx, hholds⟩ := hcompare _ h
      have hpositive : 0.0 < x := of_decide_eq_true hholds
      exact ⟨x, hx, .inl hpositive, fun hzero => absurd (hzero ▸ hpositive) (Double.lt_irrefl _)⟩
  | negative =>
      obtain ⟨-, rfl⟩ := Build.compareArith_eq_ok.mp he
      rw [real_zero] at h
      obtain ⟨x, hx, hholds⟩ := hcompare _ h
      have hnegative : x < 0.0 := of_decide_eq_true hholds
      exact ⟨x, hx, .inr (.inl hnegative),
        fun hzero => absurd (hzero ▸ hnegative) (Double.lt_irrefl _)⟩
  | zero =>
      obtain ⟨-, rfl⟩ := Build.eq_eq_ok.mp he
      rw [real_zero] at h
      obtain ⟨x, y, hx, hy, heq⟩ := eval_eq_eq_ok.mp h
      obtain rfl := Except.ok.inj (hresult.symm.trans hx)
      obtain rfl := Except.ok.inj hy
      obtain rfl : v = .lit (.real 0.0) := by simpa using heq
      exact ⟨0.0, rfl, .inr (.inr rfl), fun _ => rfl⟩

end InputRead

/-! ## Polls of a compiled path -/

namespace Environment

variable {env : Environment} {name : String} {id : Nat} {call : SymbolicCall}

theorem callOf?_eq_some (h : env.callOf? name = some (id, call)) :
    id < Word.limit ∧ env.calls[id]? = some call := by
  simp only [callOf?, Option.bind_eq_bind, Option.bind_eq_some_iff] at h
  obtain ⟨a, ha, h⟩ := h
  split at h
  · next k hroot =>
    simp only [Option.bind_eq_some_iff, Option.pure_def, Option.some.injEq, Prod.mk.injEq] at h
    obtain ⟨_, hcall, rfl, rfl⟩ := h
    exact ⟨Address.lt_limit_of_read? ha hroot, hcall⟩
  · cases h

/-- The result of a call belongs to the call. -/
theorem callOf?_symcall (hid : id < Word.limit) (hcall : env.calls[id]? = some call) :
    env.callOf? (Address.symcall id).text = some (id, call) := by
  unfold callOf?
  rw [Address.read?_symcall hid]
  simp [Address.symcall, hcall]

/-- A poll of a compiled path is of a call of the input type. -/
theorem Compiles.exists_call {condition : List Formula} {path : CompiledPath} {r : InputRead}
    (h : env.Compiles condition path) (hr : r ∈ path.polls) :
    ∃ call, r.id < Word.limit ∧ env.calls[r.id]? = some call ∧ r.method = call.method.name ∧
      env.isInput r.name = true := by
  obtain ⟨name, s, id, call, -, hinput, hcallOf, hasks⟩ := h.adds.mem_polls hr
  obtain ⟨hid, hcall⟩ := callOf?_eq_some hcallOf
  obtain rfl := hasks.id
  refine ⟨call, hid, hcall, hasks.method, ?_⟩
  have hown : env.callOf? r.name = some (r.id, call) := callOf?_symcall hid hcall
  unfold isInput at hinput ⊢
  rw [hown, ← hcallOf]
  exact hinput

/-- Every variable of the condition that the player controls is polled. -/
theorem Compiles.exists_poll {condition : List Formula} {path : CompiledPath}
    (h : env.Compiles condition path) (hname : name ∈ variablesOf condition)
    (hinput : env.isInput name = true) :
    ∃ r ∈ path.polls, ∃ s id call, env.callOf? name = some (id, call) ∧
      r.AsksFor env s id call := by
  obtain ⟨s, hs⟩ := mem_iff_exists_getElem?.mp hname
  have hmem : (name, s) ∈ (variablesOf condition).toList :=
    Std.TreeMap.mem_toList_iff_getElem?_eq_some.mpr hs
  obtain ⟨r, hr, id, call, hcall, hasks⟩ := h.adds.polled hmem hinput
  exact ⟨r, hr, s, id, call, hcall, hasks⟩

end Environment

namespace CompiledPath

variable {env : Environment} {condition : List Formula} {path : CompiledPath} {component : Value}
  {solver : Solver} {conditions : List InputCondition}

/-- The variables of the axes that a path polls. -/
def axes (path : CompiledPath) : List String :=
  (path.polls.filter InputRead.isAxis).map InputRead.name

/-- The condition of a path does nothing with axes but compare them with zero, and it takes one of
the cases of the split for each of them. -/
structure SignTested (path : CompiledPath) : Prop where
  tests : ∀ e ∈ path.condition, OnlySigns path.axes e
  cases : ∀ r ∈ path.polls, r.isAxis = true →
    ∃ a, ∃ e ∈ path.condition, Context.axisCondition r.result a = .ok e

/-- Input drives a path: the condition and the pinned values are true of some values for which the
input is reported, poll by poll. -/
def Drives (path : CompiledPath) (held : Float → Float) (component : Value)
    (groups : List (List InputCondition)) : Prop :=
  ∃ σ : Assignment, (∀ e ∈ path.condition, e.eval σ = .ok (.bool true)) ∧
    path.Pinned component σ ∧ List.Forall₂ (InputRead.Reports held component σ) path.polls groups

theorem mem_axes (hcompiles : env.Compiles condition path) {r : InputRead} (hr : r ∈ path.polls) :
    r.name ∈ path.axes ↔ r.isAxis = true := by
  constructor
  · intro hmem
    obtain ⟨r', hr', hname⟩ := List.mem_map.mp hmem
    obtain ⟨hr', haxis⟩ := List.mem_filter.mp hr'
    obtain ⟨call, hid, hcall, hmethod, -⟩ := hcompiles.exists_call hr
    obtain ⟨call', hid', hcall', hmethod', -⟩ := hcompiles.exists_call hr'
    -- Two polls with one variable are of the same call.
    have hown : env.callOf? r.name = some (r.id, call) := Environment.callOf?_symcall hid hcall
    have hown' : env.callOf? r'.name = some (r'.id, call') :=
      Environment.callOf?_symcall hid' hcall'
    rw [hname, hown] at hown'
    obtain ⟨-, rfl⟩ := Prod.mk.inj (Option.some.inj hown')
    rwa [InputRead.isAxis, hmethod, ← hmethod']
  · intro haxis
    exact List.mem_map.mpr ⟨r, List.mem_filter.mpr ⟨hr, haxis⟩, rfl⟩

/-- A path that only tests signs is driven by the signs of its axes. -/
theorem Drives.signed (hcompiles : env.Compiles condition path) (htested : path.SignTested)
    {groups : List (List InputCondition)} (h : path.Drives InputRead.sign component groups) :
    path.Drives (fun x => x) component groups := by
  obtain ⟨σ, hcondition, hpinned, hreports⟩ := h
  have haxes : ∀ name ∈ path.axes, ∀ v, σ name = some v → SignedValue v := by
    intro name hname v hv
    obtain ⟨r, hr, rfl⟩ := List.mem_map.mp hname
    obtain ⟨hr, haxis⟩ := List.mem_filter.mp hr
    obtain ⟨a, e, he, hcase⟩ := htested.cases r hr haxis
    exact InputRead.signedValue_of_case hcase hv (hcondition e he)
  refine ⟨σ.signed path.axes, fun e he => ?_, fun pin hpin => ?_, ?_⟩
  · rw [(htested.tests e he).eval_signed haxes]
    exact hcondition e he
  · obtain ⟨value, hgives, hvalue⟩ := hpinned pin hpin
    have hpolled : pin.1 ∉ path.axes := by
      intro hmem
      obtain ⟨r, hr, hname⟩ := List.mem_map.mp hmem
      obtain ⟨_, -, -, -, hinput⟩ := hcompiles.exists_call (List.mem_filter.mp hr).1
      rw [hname, (hcompiles.adds.mem_pins hpin).2.1] at hinput
      cases hinput
    exact ⟨value, hgives, by simp [Assignment.signed, hpolled, hvalue]⟩
  · exact forall₂_imp_of_mem hreports fun r hr _ hreport => hreport.signed (mem_axes hcompiles hr)

/-- **Reported input drives the path, up to the numbers of axes.** When a truthful solver finds
input, every variable that the player controls is polled, and some values make the condition and the
pinned values true whose flags and coordinates are the reported ones, and whose axes have the
reported signs. If the condition only tests the signs of axes, then the reported numbers do so
themselves. -/
theorem inputs_drive (hsolver : TruthfulSolver solver) (hpath : env.compile condition = .ok path)
    (h : path.inputs solver component = .ok (some conditions)) :
    (∀ name ∈ variablesOf condition, env.isInput name = true → ∃ r ∈ path.polls, ∃ s id call,
      env.callOf? name = some (id, call) ∧ r.AsksFor env s id call) ∧
    ∃ groups, conditions = groups.flatten ∧ path.Drives InputRead.sign component groups ∧
      (path.SignTested → path.Drives (fun x => x) component groups) := by
  have hcompiles := Environment.compile_compiles hpath
  obtain ⟨m, hcondition, hpinned, hconditions⟩ := inputs_eq_some hsolver h
  obtain ⟨groups, rfl, hreports⟩ := InputRead.allConditions_eq_some hconditions
  have hdrives : path.Drives InputRead.sign component groups :=
    ⟨m.assignment, hcondition, hpinned, hreports⟩
  exact ⟨fun name hname hinput => hcompiles.exists_poll hname hinput, groups, rfl, hdrives,
    fun htested => hdrives.signed hcompiles htested⟩

end CompiledPath

theorem shooting_driven :
    ∃ path conditions groups, shooting.compile shootingCondition = .ok path ∧
      path.inputs (modelSolver shootingModel) .null = .ok (some conditions) ∧
      conditions = groups.flatten ∧ path.Drives (fun x => x) .null groups := by
  have hcheck : compiledCheck shooting (modelSolver shootingModel) shootingCondition
      (fun path _ => path.axes = [(Address.symcall 0).text] ∧
        path.polls.map (fun r => (r.id, r.sort)) = [(0, .real)]) = true := by
    decide +kernel
  obtain ⟨path, conditions, hpath, hinputs, hcheck⟩ := exists_of_compiledCheck hcheck
  obtain ⟨haxes, hpolls⟩ := of_decide_eq_true hcheck
  have hcondition := (Environment.compile_compiles hpath).condition
  obtain ⟨-, groups, hgroups, -, hdrives⟩ :=
    CompiledPath.inputs_drive (modelSolver_truthful _) hpath hinputs
  refine ⟨path, conditions, groups, hpath, hinputs, hgroups, hdrives ⟨?_, ?_⟩⟩
  · rw [hcondition, haxes]
    have hammunition : ammunition ∉ [(Address.symcall 0).text] := by decide +kernel
    refine List.forall_mem_cons.mpr ⟨?_, List.forall_mem_singleton.mpr ?_⟩
    · exact .unary (.binary (.var hammunition) (.lit _))
    · rw [real_zero]
      exact .test (.compare List.mem_cons_self)
  · intro r hr _
    have hmem : (r.id, r.sort) ∈ path.polls.map (fun r => (r.id, r.sort)) :=
      List.mem_map.mpr ⟨r, hr, rfl⟩
    obtain ⟨hid, hsort⟩ : r.id = 0 ∧ r.sort = .real := by simpa [hpolls] using hmem
    refine ⟨.positive, .binary (.compareArith .gt) r.result (.real 0.0), ?_, ?_⟩
    · rw [hcondition, InputRead.result, hid, hsort]
      exact List.mem_cons_of_mem _ List.mem_cons_self
    · rw [InputRead.result, hid, hsort]
      rfl

/-! ## A path that is missed -/

/-- The axis is held, but not further than half the way. -/
def aimingCondition : List Formula :=
  let axis := .var (Address.symcall 0).text .real
  [.binary (.compareArith .gt) axis (.real 0.0), .binary (.compareArith .lt) axis (.real 0.5)]

def aimingModel : Model := Model.empty.insert (Address.symcall 0).text (.real 0.25)

/-- One call was read, and one end of an axis is reported for it. -/
def reportsEnd (path : CompiledPath) (conditions : List InputCondition) : Bool :=
  match path.polls, conditions with
  | [r], [.axis _ x] => decide (r.id = 0 ∧ r.method = "GetAxis" ∧ x = 1.0)
  | _, _ => false

/-- **The sign of an axis need not drive the path.** The condition asks for the interior of the axis.
The solver finds a value there, the end of the axis is reported, and no values make the condition true
with the axis at its end. -/
theorem aiming_misses : TruthfulSolver (modelSolver aimingModel) ∧
    ∃ path conditions, shooting.compile aimingCondition = .ok path ∧
      path.inputs (modelSolver aimingModel) .null = .ok (some conditions) ∧
      ¬ ∃ groups, conditions = groups.flatten ∧ path.Drives (fun x => x) .null groups := by
  have hcheck : compiledCheck shooting (modelSolver aimingModel) aimingCondition reportsEnd =
      true := by
    decide +kernel
  obtain ⟨path, conditions, hpath, hinputs, hcheck⟩ := exists_of_compiledCheck hcheck
  refine ⟨modelSolver_truthful _, path, conditions, hpath, hinputs, ?_⟩
  rintro ⟨groups, rfl, σ, hcondition, -, hreports⟩
  rw [(Environment.compile_compiles hpath).condition] at hcondition
  unfold reportsEnd at hcheck
  split at hcheck
  · next r name x hpolls hflatten =>
    obtain ⟨hid, hmethod, rfl⟩ := of_decide_eq_true hcheck
    rw [hpolls] at hreports
    obtain ⟨group, rest, hreport, hrest, rfl⟩ := List.forall₂_cons_left_iff.mp hreports
    obtain rfl := List.forall₂_nil_left_iff.mp hrest
    obtain rfl : group = [.axis name 1.0] := by simpa using hflatten
    cases hreport with
    | axis _ _ _ hv hx =>
        -- At its end the axis is not below one half.
        have hreal : (Formula.real 0.5).number? = some 0.5 := by decide +kernel
        have hbelow := hcondition _ (List.mem_cons_of_mem _ List.mem_cons_self)
        obtain ⟨v, m, hv', hm, hholds⟩ := holds_of_compareArith hreal hbelow
        rw [InputRead.name, hid] at hv
        obtain rfl := Option.some.inj (hv.symm.trans hv')
        obtain rfl := Option.some.inj (hx.symm.trans hm)
        have hnot : ArithComparison.lt.holds 1.0 0.5 = false := by decide +kernel
        simp [hnot] at hholds
  · cases hcheck

end PlayerPaths
