import PlayerPaths.Execution.State
import PlayerPaths.Live.Value
import PlayerPaths.Settings

/-!
# Reading variables from the running application

Path conditions name static fields, methods and engine state by text. A `Registry` maps those names
to functions of the component whose entry point runs, once and before any path is compiled.

A variable of a path condition is named by the address of a slot. `Environment.reading` finds out
how to fetch the value that it stands for, and `Environment.term` does so for all variables of a
formula, which can then be evaluated in the running application.
-/

namespace PlayerPaths

/-! ## Accessors -/

/-- Reads a value, given the component whose entry point runs. -/
abbrev Getter := Value → Result Value

/-- Calls a method with arguments, given the component whose entry point runs. The receiver of an
instance method is the first argument. -/
abbrev Invoker := Value → List Value → Result Value

/-- The accessors that are known by name. -/
structure Registry where
  /-- By signature, `T.F`. -/
  staticFields : Std.TreeMap String Getter := ∅
  /-- By signature, `T.M(P1;P2)`. -/
  methods : Std.TreeMap String Invoker := ∅
  specials : Std.TreeMap String Getter := ∅

namespace Registry

/-- The accessor with a name, or an error that says what is missing. -/
def find {α : Type} (accessors : Std.TreeMap String α) (name missing : String) : Result α :=
  match accessors[name]? with
  | some accessor => return accessor
  | none => throw (.resolution (missing ++ " " ++ name))

def staticField (r : Registry) (signature : String) : Result Getter :=
  find r.staticFields signature "no accessor for static field"

def method (r : Registry) (signature : String) : Result Invoker :=
  find r.methods signature "no invoker for method"

def special (r : Registry) (name : String) : Result Getter :=
  find r.specials name "unexpected special variable"

end Registry

/-! ## Readings -/

/-- How to fetch the value of a variable, given the component whose entry point runs. -/
structure Reading where
  /-- What is read, in messages. -/
  text : String
  read : Getter

namespace Reading

def this : Reading := ⟨"this", fun component => return component⟩

/-- Follow a suffix of an address. A reference stands for the object itself. -/
def access (r : Reading) : Suffix → Reading
  | .field name => ⟨r.text ++ "." ++ name, fun component => do (← r.read component).field name⟩
  | .length => ⟨r.text ++ ".Length", fun component => do (← r.read component).length⟩
  | .heapId => r

end Reading

/-- A formula whose variables can be read. -/
structure Term where
  formula : Formula
  /-- The variables, in the order of their names. -/
  readings : List (String × SmtSort × Reading)

namespace Term

/-- A conjunction or disjunction of more than two operands. -/
def isWide : Formula → Bool
  | .nary .and es | .nary .or es => 2 < es.length
  | _ => false

def compile (reading : String → Result Reading) (e : Formula) : Result Term := do
  if e.any isWide then
    throw (.resolution ("more than 2 args not supported in " ++ (← e.text)))
  let readings ← e.freeVariables.toList.mapM fun (name, s) => do return (name, s, ← reading name)
  return { formula := e, readings }

/-- The constants that the variables stand for. -/
def bindings (t : Term) (component : Value) : Result (List (String × Formula)) :=
  t.readings.mapM fun (name, s, r) => do
    return (name, ← (← r.read component).toFormula s)

/-- The constant that the formula evaluates to. -/
def evaluate (t : Term) (component : Value) : Result Formula := do
  let bindings ← t.bindings component
  match ← (t.formula.eval fun name => bindings.lookup name).value? with
  | some value => return value
  | none => throw (.resolution ("cannot evaluate " ++ (← t.formula.text)))

def value (t : Term) (component : Value) : Result Value := do
  Value.ofFormula (← t.evaluate component)

end Term

/-- What the variables of a path refer to. -/
structure Environment where
  calls : Std.TreeMap Nat SymbolicCall
  registry : Registry
  api : InputApi

namespace Environment

/-- The call whose result a variable is part of. -/
def callOf? (env : Environment) (name : String) : Option (Nat × SymbolicCall) := do
  match (← Address.read? name).root with
  | .symcall id => return (id, ← env.calls[id]?)
  | _ => none

/-- A variable that the player controls: the result of a method of the input type. -/
def isInput (env : Environment) (name : String) : Bool :=
  (env.callOf? name).any fun (_, call) => call.method.declaringType == env.api.inputType

def mentionsInput (env : Environment) (e : Formula) : Bool :=
  e.freeVariables.keys.any env.isInput

/-- The environment of the arguments of a call: a call cannot refer to itself. -/
def without (env : Environment) (id : Nat) : Environment :=
  { env with calls := env.calls.erase id }

theorem size_without_lt {env : Environment} {id : Nat} {call : SymbolicCall}
    (h : env.calls[id]? = some call) : (env.without id).calls.size < env.calls.size := by
  have hcontains : env.calls.contains id = true := by
    rw [Std.TreeMap.contains_eq_isSome_getElem?, h]
    rfl
  have hpos : env.calls.size ≠ 0 := by
    intro hzero
    have hempty : env.calls.isEmpty = true := by
      rw [Std.TreeMap.isEmpty_eq_size_eq_zero, hzero]
      rfl
    exact absurd (Std.TreeMap.contains_iff_mem.mp hcontains) (Std.TreeMap.not_mem_of_isEmpty hempty)
  simp only [without, Std.TreeMap.size_erase, hcontains, if_true]
  omega

/-- Call a method with the values of terms. -/
def callReading (signature : String) (invoke : Invoker) (arguments : List Term) : Reading where
  text := signature ++ "[" ++ toString arguments.length ++ " args]"
  read component := do invoke component (← arguments.mapM fun t => t.value component)

/-- How to read a variable. Locals, arguments and objects that were allocated on the path are
gone. -/
def reading (env : Environment) (name : String) : Result Reading := do
  let unknown : Error := .resolution ("cannot resolve variable " ++ name)
  match Address.read? name with
  | none => throw unknown
  | some a =>
    let source ← match a.root with
      | .staticField signature =>
        pure (Reading.mk signature (← env.registry.staticField signature))
      | .frame 0 .this => pure Reading.this
      | .frame .. => throw unknown
      | .symcall id =>
        match _h : env.calls[id]? with
        | none => throw (.resolution s!"no symcall {id} on the path")
        | some call =>
          let signature := call.method.signature
          let invoke ← env.registry.method signature
          let arguments ← call.arguments.mapM
            (Term.compile fun argument => (env.without id).reading argument)
          pure (callReading signature invoke arguments)
      | .special special =>
        pure (Reading.mk ("special " ++ special) (← env.registry.special special))
      | .heap _ => throw (.resolution ("object allocated on the path in " ++ name))
    return a.suffixes.foldl Reading.access source
termination_by env.calls.size
decreasing_by exact size_without_lt ‹_›

def term (env : Environment) (e : Formula) : Result Term := Term.compile env.reading e

end Environment

end PlayerPaths
