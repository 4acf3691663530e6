import PlayerPaths.Proofs.Live.Compilation
import PlayerPaths.Proofs.Live.Predicates

/-!
# The two checks of a compiled path agree

A solver that finds input for a path has a model of the whole condition in which every pinned
variable has the value that is read from the running application (`CompiledPath.inputs_eq_some`). The
variables of a conjunct without input are all pinned when its predicate could be compiled, so the
predicate is decided as the conjunct evaluates in the model (`Predicate.decide_of_eval`), and the
path is feasible (`CompiledPath.isFeasible_of_inputs`).
-/

namespace PlayerPaths

open Formula

/-- A solver answers with a model only if the model makes every assertion true. -/
def TruthfulSolver (solver : Solver) : Prop :=
  ∀ assertions m, solver assertions = .ok (.sat m) →
    ∀ a ∈ assertions, m.eval a = .ok (.bool true)

theorem Result.settle_eq_ok {α : Type} {x : Result α} {a : α} :
    Result.settle x = .ok (.ok a) ↔ x = .ok a := by
  cases x with
  | ok b => simp [Result.settle]
  | error e => cases h : e.isFault <;> simp [Result.settle, h]

/-! ## Pinned variables -/

/-- A record of constants is a constant. -/
theorem Build.make_isConstant {r : Record} {fields : List Formula} {e : Formula}
    (hfields : ∀ f ∈ fields, f.isConstant = true) (h : Build.make r fields = .ok e) :
    e.isConstant = true := by
  unfold Build.make at h
  split at h
  · simp at h
  · simp only [bind_eq_ok, pure_eq_ok] at h
    obtain ⟨_, -, rfl⟩ := h
    exact isConstant_make.mpr hfields

/-- A live value as a formula is a constant. -/
theorem Value.toFormula_isConstant {v : Value} {s : SmtSort} {e : Formula}
    (h : v.toFormula s = .ok e) : e.isConstant = true := by
  induction s generalizing v e with
  | record name fields ih =>
      simp only [toFormula, bind_eq_ok] at h
      obtain ⟨es, hes, h⟩ := h
      refine Build.make_isConstant ?_ h
      clear h
      induction fields generalizing es with
      | nil =>
          obtain rfl : [] = es := by simpa [fieldFormulas] using hes
          simp
      | cons field fields ihfields =>
          obtain ⟨hfirst, hrest⟩ := List.forall_mem_cons.mp ih
          simp only [fieldFormulas, bind_eq_ok, pure_eq_ok] at hes
          obtain ⟨w, -, first, hw, rest, hes, rfl⟩ := hes
          exact List.forall_mem_cons.mpr ⟨hfirst hw, ihfields hrest rest hes⟩
  | bool | bitVec w | int | real | string =>
      simp only [toFormula, bind_eq_ok, pure_eq_ok] at h
      obtain ⟨_, -, rfl⟩ := h
      rfl

namespace CompiledPath

variable {component : Value} {path : CompiledPath} {solver : Solver}

/-- An assignment gives every pinned variable the value that is read for it. -/
def Pinned (path : CompiledPath) (component : Value) (σ : Assignment) : Prop :=
  ∀ pin ∈ path.pins, ∃ value, pin.2.2.Gives component pin.2.1 value ∧ σ pin.1 = some value

theorem pinned_eq_some {pins : List (String × SmtSort × Reading)} {equations : List Formula}
    (h : pinned component pins = .ok (some equations)) :
    ∀ pin ∈ pins, ∃ value, pin.2.2.Gives component pin.2.1 value ∧
      .eq (.var pin.1 pin.2.1) value ∈ equations := by
  induction pins generalizing equations with
  | nil => simp
  | cons pin pins ih =>
      obtain ⟨name, s, r⟩ := pin
      simp only [pinned, bind_eq_ok] at h
      obtain ⟨outcome, houtcome, h⟩ := h
      cases outcome with
      | error e => simp at h
      | ok value =>
          simp only [bind_eq_ok, pure_eq_ok] at h
          obtain ⟨equation, hequation, rest, hrest, h⟩ := h
          obtain ⟨others, rfl, rfl⟩ := Option.map_eq_some_iff.mp h
          obtain ⟨-, rfl⟩ := Build.eq_eq_ok.mp hequation
          have hgives := bind_eq_ok.mp (Result.settle_eq_ok.mp houtcome)
          refine List.forall_mem_cons.mpr ⟨⟨value, hgives, List.mem_cons_self⟩, fun pin hpin => ?_⟩
          obtain ⟨v, hv, hmem⟩ := ih hrest pin hpin
          exact ⟨v, hv, List.mem_cons_of_mem _ hmem⟩

/-- **Input that is found comes from a model** of the condition in which the pinned variables have
their values. -/
theorem inputs_eq_some (hsolver : TruthfulSolver solver) {conditions : List InputCondition}
    (h : path.inputs solver component = .ok (some conditions)) :
    ∃ m : Model, (∀ e ∈ path.condition, m.eval e = .ok (.bool true)) ∧
      path.Pinned component m.assignment ∧
      InputRead.allConditions component m path.polls = .ok (some conditions) := by
  simp only [inputs, bind_eq_ok] at h
  obtain ⟨pinned, hpinned, h⟩ := h
  cases pinned with
  | none => simp at h
  | some equations =>
      simp only [bind_eq_ok] at h
      obtain ⟨answer, hanswer, h⟩ := h
      cases answer with
      | unsat | unknown => simp at h
      | sat m =>
          obtain ⟨hcondition, hequations⟩ :=
            List.forall_mem_append.mp (hsolver _ m hanswer)
          refine ⟨m, hcondition, fun pin hpin => ?_, h⟩
          obtain ⟨value, hgives, hmem⟩ := pinned_eq_some hpinned pin hpin
          refine ⟨value, hgives, ?_⟩
          obtain ⟨v, -, hvalue⟩ := hgives
          obtain ⟨x, y, hx, hy, heq⟩ := eval_eq_eq_ok.mp (hequations _ hmem)
          rw [eval_constant (Value.toFormula_isConstant hvalue)] at hy
          obtain rfl := Except.ok.inj hy
          obtain rfl : x = value := by simpa using heq
          exact eval_var_eq_ok.mp hx

end CompiledPath

/-! ## Variables with one sort -/

/-- The variables of a formula have the values that are read for them. -/
def Reads (read : String → Result Reading) (component : Value) (σ : Assignment) (e : Formula) :
    Prop :=
  ∀ name s r, .var name s ∈ e.parts → read name = .ok r →
    ∃ value, r.Gives component s value ∧ σ name = some value

variable {component : Value} {σ : Assignment} {e : Formula}

theorem functional_part {a : Formula} (h : Functional e.occurrences) (ha : a ∈ e.parts) :
    Functional a.occurrences := by
  intro name s t hs ht
  rw [mem_occurrences] at hs ht
  exact h name s t (mem_occurrences.mpr (mem_parts_trans hs ha))
    (mem_occurrences.mpr (mem_parts_trans ht ha))

/-- A predicate is decided as its formula evaluates where the variables have the values that are
read. -/
theorem Predicate.decide_of_eval {env : Environment} {p : Predicate} {b : Bool}
    (h : compile env e = .ok p) (hvars : Functional e.occurrences)
    (hσ : Reads env.reading component σ e) (hb : e.eval σ = .ok (.bool b)) :
    p.decide component = .ok b := by
  refine decide_of_binds h ?_ hb
  rintro a ha ⟨name, s⟩ hentry r hr
  have hvar := (mem_freeVariables (functional_part hvars ha)).mp hentry
  exact hσ name s r (mem_parts_trans hvar ha) hr

/-! ## Agreement -/

theorem allM_eq_true {α : Type} {p : α → Result Bool} {l : List α} (h : ∀ a ∈ l, p a = .ok true) :
    l.allM p = .ok true := by
  induction l with
  | nil => rfl
  | cons a l ih =>
      obtain ⟨ha, hl⟩ := List.forall_mem_cons.mp h
      rw [List.allM, ha]
      exact ih hl

theorem Environment.Compiles.reads {env : Environment} {condition : List Formula}
    {path : CompiledPath} (h : env.Compiles condition path)
    (hvars : Functional (condition.flatMap occurrences)) (hpinned : path.Pinned component σ)
    (he : e ∈ condition) (hinput : env.mentionsInput e = false) :
    Reads env.reading component σ e := by
  intro name s r hvar hreading
  have hmem : (name, s) ∈ (variablesOf condition).toList := by
    rw [variablesOf, mem_toList_ofList hvars]
    exact List.mem_flatMap.mpr ⟨e, he, mem_occurrences.mpr hvar⟩
  have hname : env.isInput name = false := by
    have hkey : name ∈ e.freeVariables.keys := by
      rw [Std.TreeMap.mem_keys, freeVariables, variablesOf, Std.TreeMap.mem_ofList,
        List.contains_iff_mem, List.mem_map]
      exact ⟨(name, s), by simpa using mem_occurrences.mpr hvar, rfl⟩
    simpa using List.any_eq_false.mp hinput name hkey
  exact hpinned _ (h.adds.pinned hmem hname hreading)

/-- **The two checks agree.** If a truthful solver finds input for a compiled path, whose variables
have one sort each, then all conjuncts without input hold in the same context. -/
theorem CompiledPath.isFeasible_of_inputs {env : Environment} {condition : List Formula}
    {path : CompiledPath} {solver : Solver} {conditions : List InputCondition}
    (hvars : Functional (condition.flatMap occurrences)) (hsolver : TruthfulSolver solver)
    (hpath : env.compile condition = .ok path)
    (h : path.inputs solver component = .ok (some conditions)) :
    path.isFeasible component = .ok true := by
  have hcompiles := Environment.compile_compiles hpath
  obtain ⟨m, hcondition, hpinned, -⟩ := inputs_eq_some hsolver h
  rw [hcompiles.condition] at hcondition
  have hall : ∀ p ∈ path.precondition, p.holds component = .ok true := by
    intro p hp
    obtain ⟨e, he, hinput, hcompile⟩ := hcompiles.precondition p hp
    have hfunctional : Functional e.occurrences := fun name s t hs ht =>
      hvars name s t (List.mem_flatMap.mpr ⟨e, he, hs⟩) (List.mem_flatMap.mpr ⟨e, he, ht⟩)
    have hreads := hcompiles.reads hvars hpinned he hinput
    exact Predicate.holds_of_decide
      (Predicate.decide_of_eval hcompile hfunctional hreads (hcondition e he))
  exact allM_eq_true hall

/-! ## A path that is driven -/

/-- A solver that knows one model. -/
def modelSolver (m : Model) : Solver := fun assertions =>
  .ok (if ∀ a ∈ assertions, m.eval a = .ok (.bool true) then .sat m else .unknown)

theorem modelSolver_truthful (m : Model) : TruthfulSolver (modelSolver m) := by
  intro assertions m' h
  simp only [modelSolver, Except.ok.injEq] at h
  split at h
  · next hall =>
    cases h
    exact hall
  · cases h

/-- A player with ammunition left who moves along an axis. -/
def shooting : Environment where
  calls := Std.TreeMap.empty.insert 0
    ⟨.static "UnityEngine.Input" "GetAxis" [.string] .single, [.str "Horizontal"]⟩
  registry := { staticFields :=
    Std.TreeMap.empty.insert "Player.ammo" fun _ => .ok (.integer 3) }
  api := {}

def ammunition : String := (Address.mk (.staticField "Player.ammo") []).text

def shootingCondition : List Formula :=
  [.not (.eq (.var ammunition (.bitVec 32)) (.bits 0 32)),
    .binary (.compareArith .gt) (.var (Address.symcall 0).text .real) (.real 0.0)]

def shootingModel : Model :=
  (Model.empty.insert ammunition (.bits 3 32)).insert (Address.symcall 0).text (.real 0.25)

def compiledCheck (env : Environment) (solver : Solver) (condition : List Formula)
    (check : CompiledPath → List InputCondition → Bool) : Bool :=
  match env.compile condition with
  | .error _ => false
  | .ok path =>
    match path.inputs solver .null with
    | .ok (some conditions) => check path conditions
    | _ => false

theorem exists_of_compiledCheck {env : Environment} {solver : Solver} {condition : List Formula}
    {check : CompiledPath → List InputCondition → Bool}
    (h : compiledCheck env solver condition check = true) :
    ∃ path conditions, env.compile condition = .ok path ∧
      path.inputs solver .null = .ok (some conditions) ∧ check path conditions = true := by
  unfold compiledCheck at h
  split at h
  · cases h
  · next path hpath =>
    split at h
    · next conditions hinputs => exact ⟨path, conditions, hpath, hinputs, h⟩
    · cases h

theorem shooting_feasible :
    ∃ path conditions, shooting.compile shootingCondition = .ok path ∧
      path.precondition.length = 1 ∧
      path.inputs (modelSolver shootingModel) .null = .ok (some conditions) ∧
      path.isFeasible .null = .ok true := by
  have hcheck : compiledCheck shooting (modelSolver shootingModel) shootingCondition
      (fun path _ => path.precondition.length == 1) = true := by
    decide +kernel
  obtain ⟨path, conditions, hpath, hinputs, hlength⟩ := exists_of_compiledCheck hcheck
  exact ⟨path, conditions, hpath, by simpa using hlength, hinputs,
    CompiledPath.isFeasible_of_inputs (by decide +kernel) (modelSolver_truthful _) hpath hinputs⟩

end PlayerPaths
