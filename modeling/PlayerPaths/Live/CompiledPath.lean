import PlayerPaths.Live.InputCondition
import PlayerPaths.Live.Predicate

/-!
# Compiled paths

A path condition mentions variables that the player controls, the results of the input type, and
variables that are fixed when the entry point runs. `Environment.compile` finds out once how to
read the latter. Then `CompiledPath.isFeasible` checks the conjuncts without input, and
`CompiledPath.inputs` pins the fixed variables to their values and asks a solver for the input
that drives the application down the path.

What cannot be resolved when a path is compiled is left out, with a warning. What cannot be read
later makes the path infeasible.
-/

namespace PlayerPaths

/-- A variable that the player controls. -/
structure InputRead where
  /-- The number of its call. -/
  id : Nat
  method : String
  sort : SmtSort
  /-- The arguments of the call, unless one of them cannot be read. -/
  arguments : Option (List Term)

/-- A path condition that can be checked against the running application. -/
structure CompiledPath where
  condition : List Formula
  precondition : List Predicate := []
  /-- The variables with fixed values. -/
  pins : List (String × SmtSort × Reading) := []
  polls : List InputRead := []
  warnings : List String := []

/-- The outcome of a computation, with its error as an outcome only if it is recoverable. -/
def Result.recover {α : Type} : Result α → Result (Except Error α)
  | .ok a => return .ok a
  | .error e => if e.isRecoverable then return .error e else throw e

namespace Environment

/-- Add the predicate of a conjunct without input. -/
def addConjunct (env : Environment) (path : CompiledPath) (e : Formula) :
    Result CompiledPath := do
  if env.mentionsInput e then return path
  match ← Result.recover (Predicate.compile env e) with
  | .ok p => return { path with precondition := path.precondition ++ [p] }
  | .error error =>
    let warning := "failed to compile '" ++ (← e.text) ++ "': " ++ error.message
    return { path with warnings := path.warnings ++ [warning] }

def addPoll (env : Environment) (path : CompiledPath) (s : SmtSort) (id : Nat)
    (call : SymbolicCall) : Result CompiledPath := do
  let poll : InputRead := { id, method := call.method.name, sort := s, arguments := none }
  match ← Result.recover (call.arguments.mapM env.term) with
  | .ok arguments =>
    return { path with polls := path.polls ++ [{ poll with arguments := some arguments }] }
  | .error error =>
    let warning := "arguments of " ++ call.method.signature ++ ": " ++ error.message
    return { path with polls := path.polls ++ [poll], warnings := path.warnings ++ [warning] }

def addVariable (env : Environment) (path : CompiledPath) (name : String) (s : SmtSort) :
    Result CompiledPath := do
  match if env.isInput name then env.callOf? name else none with
  | some (id, call) => env.addPoll path s id call
  | none =>
    match ← Result.recover (env.reading name) with
    | .ok r => return { path with pins := path.pins ++ [(name, s, r)] }
    | .error error =>
      let warning := "failed to resolve " ++ name ++ ": " ++ error.message
      return { path with warnings := path.warnings ++ [warning] }

def compile (env : Environment) (condition : List Formula) : Result CompiledPath := do
  let path ← condition.foldlM env.addConjunct { condition }
  (Formula.variablesOf condition).toList.foldlM (fun path (name, s) => env.addVariable path name s)
    path

end Environment

/-! ## Input that drives a path -/

namespace InputRead

/-- The variable that the player controls. -/
def result (r : InputRead) : Formula := .var (Address.symcall r.id).text r.sort

def solved (model : Model) (e : Formula) : Result Formula := do
  match ← (model.eval e).value? with
  | some value => return value
  | none => throw (.resolution ("no value for " ++ (← e.text) ++ " in the model"))

def flag (model : Model) (e : Formula) : Result Bool := do
  match ← solved model e with
  | .lit (.bool b) => return b
  | .lit (.bits value _) => return value != 0
  | value => throw (.resolution ((← value.text) ++ " is not a flag"))

def sign (x : Float) : Float := if x > 0.0 then 1.0 else if x < 0.0 then -1.0 else 0.0

/-- The text that a polling method is called with. -/
def textArgument (r : InputRead) : List Value → Result String
  | .str s :: _ => return s
  | _ => throw (.resolution (r.method ++ " expects a string argument"))

def keyArgument : List Value → Result Key
  | .str name :: _ => return .named name
  | .integer code :: _ => return .code code
  | _ => throw (.resolution "GetKey expects a key name or a key code")

/-- The number of mouse buttons. They are the keys `Mouse0` to `Mouse6`. -/
def mouseButtons : Nat := 7

def buttonArgument (arguments : List Value) : Result Key := do
  match arguments.head?.bind Value.asInt? with
  | some button =>
    if 0 ≤ button ∧ button < mouseButtons then return .mouse button.toNat
    else throw (.resolution "unexpected mouse button")
  | none => throw (.resolution "unexpected mouse button")

def coordinate (r : InputRead) (model : Model) (axis : ScreenAxis) : Result InputCondition := do
  let value ← solved model (← Build.get r.result axis.name)
  match value.number? with
  | some x => return .mousePosition axis x
  | none => throw (.resolution ((← value.text) ++ " is not a number"))

/-- What the player has to do for the value that a model gives to a poll. -/
def conditions (r : InputRead) (model : Model) (arguments : List Value) :
    Result (List InputCondition) := do
  match r.method with
  | "GetAxis" | "GetAxisRaw" =>
    let name ← r.textArgument arguments
    match (← solved model r.result).number? with
    | some x => return [.axis name (sign x)]
    | none => throw (.resolution ((Address.symcall r.id).text ++ " is not a number"))
  | "GetButton" =>
    let name ← r.textArgument arguments
    return [.button name (← flag model r.result)]
  | "GetKey" =>
    let key ← keyArgument arguments
    return [.key key (← flag model r.result)]
  | "GetMouseButton" =>
    let key ← buttonArgument arguments
    return [.key key (← flag model r.result)]
  | "get_mousePosition" => [ScreenAxis.x, .y].mapM (r.coordinate model)
  | method => throw (.resolution ("unsupported input method " ++ method))

/-- The values of the arguments, if they can be read. -/
def values? (r : InputRead) (component : Value) : Result (Option (List Value)) := do
  match r.arguments with
  | none => return none
  | some arguments =>
    match ← Result.settle (arguments.mapM fun t => t.value component) with
    | .ok values => return some values
    | .error _ => return none

/-- The input for polls in order, unless arguments of one of them cannot be read. -/
def allConditions (component : Value) (model : Model) :
    List InputRead → Result (Option (List InputCondition))
  | [] => return some []
  | r :: rs => do
    match ← r.values? component with
    | none => return none
    | some values =>
      let first ← r.conditions model values
      return (← allConditions component model rs).map (first ++ ·)

end InputRead

namespace CompiledPath

/-- Every conjunct without input holds now. -/
def isFeasible (path : CompiledPath) (component : Value) : Result Bool :=
  path.precondition.allM fun p => p.holds component

/-- The equations of the fixed variables with their values, unless one of them cannot be read. -/
def pinned (component : Value) : List (String × SmtSort × Reading) → Result (Option (List Formula))
  | [] => return some []
  | (name, s, r) :: pins => do
    match ← Result.settle (do (← r.read component).toFormula s) with
    | .error _ => return none
    | .ok value =>
      let equation ← Build.eq (.var name s) value
      return (← pinned component pins).map (equation :: ·)

/-- The input that drives the application down the path now, if a solver finds some. -/
def inputs (path : CompiledPath) (solver : Solver) (component : Value) :
    Result (Option (List InputCondition)) := do
  match ← pinned component path.pins with
  | none => return none
  | some equations =>
    match ← solver (path.condition ++ equations) with
    | .sat model => InputRead.allConditions component model path.polls
    | .unsat | .unknown => return none

end CompiledPath

end PlayerPaths
