import PlayerPaths.Execution.State
import PlayerPaths.Settings

/-!
# Execution policies

A policy decides what happens at the places where an execution has a choice: how it starts, which
calls are summarized instead of executed and what their values are, and which cases of a branch
are not worth following.
-/

namespace PlayerPaths

open IL

/-- What the execution of an entry point depends on. -/
structure Context where
  program : Program
  entry : Method
  options : AnalysisOptions
  solver : Solver
  sorts : Sorts

namespace Context

def make (program : Program) (entry : Method) (options : AnalysisOptions) (solver : Solver) :
    Result Context := do
  return { program, entry, options, solver, sorts := ← Sorts.ofProgram program }

/-- What a state assumes does not contradict further conditions, as far as the solver can tell. -/
def feasible {D : Type} (c : Context) (s : State D) (extra : List Formula) : Result Bool := do
  return !(← c.solver (s.condition ++ extra)).isUnsat

/-- The type of the value that a call gives. A constructor gives an instance of its type. -/
def callType (c : Context) (m : MethodRef) : Ty :=
  if m.isConstructor then c.program.typeOf m.declaringType else m.returnType

/-- Note a call that is not executed, and give its value: the variable of its number. A call that
is not the first one with its number has to be noted already. -/
def symbolicCall {D : Type} (c : Context) (s : State D) (m : MethodRef) (arguments : List Formula)
    (id : Nat) (first : Bool) : Result (Option Formula × State D) := do
  let value ← freshValue c.sorts (.symcall id) (c.callType m)
  if first then return (value, { s with calls := s.calls.insert id ⟨m, arguments⟩ })
  if !s.calls.contains id then throw (.custom ("no symcall " ++ toString id ++ " to reuse"))
  return (value, s)

/-- A call of its own, with an unknown value. -/
def unknownCall {D : Type} (c : Context) (s : State D) (m : MethodRef) (arguments : List Formula) :
    Result (List (State D × Option Formula)) := do
  let (id, s) := s.nextCall
  let (value, s) ← c.symbolicCall s m arguments id true
  return [(s, value)]

/-- A method with a body in the main module. -/
def isExecutable (c : Context) (m : MethodRef) : Bool :=
  (c.program.resolve? m).any fun d => d.hasBody && c.program.isMainModule d

end Context

/-- A policy, with data that it keeps in every state. -/
structure Policy (D : Type) where
  /-- The data of the initial state. -/
  initial : D
  /-- Constrain or fork the initial state. -/
  start : State D → Result (List (State D)) := fun s => return [s]
  /-- Calls of the method get a value instead of being executed. -/
  summarizes : MethodRef → Bool
  /-- The value of a summarized call, in every state that the call forks into. -/
  summarize : State D → MethodRef → List Formula → Result (List (State D × Option Formula))
  /-- Do not follow the case of a branch that continues at a location, or leaves the method. -/
  vetoes : State D → (branch : Location) → (target : Option Location) → Bool := fun _ _ _ => false

/-- Execute what is executable, and summarize the rest. -/
def Policy.default (c : Context) : Policy Unit where
  initial := ()
  summarizes m := !c.isExecutable m
  summarize := c.unknownCall

end PlayerPaths
