import PlayerPaths.Execution.Evaluate
import PlayerPaths.Execution.Policy
import PlayerPaths.Flow.Resolve

/-!
# The machine

`Machine.step` makes one call, or executes one instruction, of a state and gives the states that it
turns into. `Machine.run` steps states until none is running, the last one that was found first.
An instruction with several calls makes them in order, one per step, and executes when every call
has a result.
-/

namespace PlayerPaths

open IL

/-- One way out of a branch. -/
structure BranchCase where
  condition : Formula
  /-- Where control continues; nowhere when it runs off the end of the method. -/
  target : Option Location

/-- An entry point and the policy it is executed under. -/
structure Machine (D : Type) where
  context : Context
  policy : Policy D

namespace Machine

variable {D : Type}

def sorts (m : Machine D) : Sorts := m.context.sorts

def leave (s : State D) (value : Option Formula) : Result (State D) := do
  if let [_] := s.frames then return { s with status := .halted }
  match s.pop? with
  | none => throw (.custom "return without a frame")
  | some (frame, s) =>
    match frame.returnSlot with
    | none => throw (.custom "callee frame without a return slot")
    | some slot => s.setResult slot.call (slot.constructed.or value)

/-- Continue at a location, or return when control leaves the method. -/
def goTo (s : State D) : Option Location → Result (State D)
  | some l => s.jump l
  | none => leave s none

/-- The arguments of a call, fitted to the types of the formal parameters. The receiver has no
formal parameter. The first argument has a number of calls before it. -/
def arguments (v : Evaluator) : (before : Nat) → List Expression → List (Option Ty) →
    Result (List Formula)
  | _, [], _ => return []
  | before, e :: es, formals => do
    let value ← v.value before e
    let value ← match formals.head?.join with
      | some t => coerce v.sorts value e.type t
      | none => pure value
    return value :: (← arguments v (before + e.siteCount) es formals.tail)

/-- Write the receiver and the arguments of a call to the slots of its frame. -/
def bind (s : State D) (depth : Nat) (receiver : Option Formula) (arguments : List Formula) :
    State D :=
  let s := match receiver with
    | some value => s.write (.this depth) value
    | none => s
  arguments.zipIdx.foldl (fun s (value, i) => s.write (.argument depth i) value) s

/-- Enter a method. A method without instructions returns at once. -/
def enter (m : Machine D) (s : State D) (method : MethodRef) (receiver : Option Formula)
    (arguments : List Formula) (slot : ReturnSlot) : Result (State D) := do
  match m.context.program.resolve? method with
  | none => throw (.methodNotFound method.signature)
  | some callee =>
    match (← callee.requireBody).resolve (.start 0) with
    | none => s.setResult slot.call slot.constructed
    | some first => return bind (s.push callee first slot) s.nextDepth receiver arguments

def call (m : Machine D) (s : State D) (sites : List CallSite) (index : Nat) (site : CallSite) :
    Result (List (State D)) := do
  let method := site.call.method
  let hasReceiver := !method.isStatic && !site.isNew
  let formals := method.parameterTypes.map some
  let formals := if hasReceiver then none :: formals else formals
  let v ← s.evaluator m.sorts sites.length
  let before := index - (Expression.postOrderAll site.call.arguments).countP fun e =>
    e.asSite?.isSome
  let values ← arguments v before site.call.arguments formals
  if m.policy.summarizes method then
    (← m.policy.summarize s method values).mapM fun (s, value) => s.setResult index value
  else if site.isNew then
    if (m.context.program.typeOf method.declaringType).isStruct then
      throw (.unsupported ("constructor of value type " ++ method.declaringType))
    let (object, s) := s.allocate
    return [← m.enter s method (some object) values ⟨index, some object⟩]
  else if hasReceiver then
    match values with
    | [] => throw (.custom ("call to " ++ method.signature ++ " without a receiver"))
    | receiver :: values => return [← m.enter s method (some receiver) values ⟨index, none⟩]
  else return [← m.enter s method none values ⟨index, none⟩]

/-- The cases of a branch that can be taken, with simplified conditions. -/
def feasibleCases (m : Machine D) (s : State D) (cases : List BranchCase) :
    Result (List BranchCase) := do
  let kept ← cases.mapM fun case => do
    let condition ← case.condition.simplify
    if condition = .bool false then return none
    if condition = .bool true then return some { case with condition }
    return if ← m.context.feasible s [condition] then some { case with condition } else none
  return kept.filterMap id

/-- Fork a state over the cases of a branch. Vetoed cases are kept as aborted states, unless every
case is vetoed: then the first one is followed without assuming its condition. -/
def branch (m : Machine D) (s : State D) (l : Location) (cases : List BranchCase) :
    Result (List (State D)) := do
  let feasible ← m.feasibleCases s cases
  let vetoed (case : BranchCase) := m.policy.vetoes s l case.target
  match feasible with
  | [] => return [s.abort]
  | first :: _ =>
    if feasible.all vetoed then return [← goTo s first.target]
    let followed ← (feasible.filter fun case => !vetoed case).mapM fun case => do
      goTo (← s.assume case.condition) case.target
    let dropped ← (feasible.filter vetoed).mapM fun case => do
      return (← s.assume case.condition).abort
    return followed ++ dropped

/-- The condition of a switch case, and the conditions of not taking it. -/
def caseConditions (value : Formula) (values : List Int) : Result (Formula × List Formula) := do
  let s ← value.sort
  let tests ← values.mapM fun i => do
    let constant ← s.numeral i
    return (← Build.eq value constant, ← Build.ne value constant)
  return (← Build.or (tests.map Prod.fst), tests.map Prod.snd)

/-- The cases of a switch, the default case last. -/
def switchCases (b : Body) (value : Formula) (cases : List SwitchCase) (default : Nat) :
    Result (List BranchCase) := do
  let tests ← cases.mapM fun case => do
    let (hit, misses) ← caseConditions value case.values
    return (BranchCase.mk hit (b.resolve (.start case.target)), misses)
  let missed ← Build.and (tests.flatMap Prod.snd)
  return tests.map Prod.fst ++ [⟨missed, b.resolve (.start default)⟩]

/-- Execute the instruction of a state whose calls were made. -/
def execute (m : Machine D) (s : State D) (method : Method) (l : Location) (o : Operation) :
    Result (List (State D)) := do
  let b ← method.requireBody
  let next := b.resolve l.next
  let v ← s.evaluator m.sorts o.sites.length
  match o with
  | .nop | .call _ => return [← goTo s next]
  | .store x e =>
    let value ← coerce m.sorts (← v.value 0 e) e.type x.type
    return [← goTo (s.write (.ofVariable v.depth x) value) next]
  | .storeField target f e =>
    let value ← coerce m.sorts (← v.value target.siteCount e) e.type f.type
    let (address, value) ← v.assign (← v.fieldPlace 0 target f) value
    return [← goTo (s.write address value) next]
  | .storeStatic f e =>
    let value ← coerce m.sorts (← v.value 0 e) e.type f.type
    return [← goTo (s.write (.ofStatic f) value) next]
  | .branchIf e target =>
    let condition ← v.condition 0 e
    m.branch s l [⟨condition, b.resolve (.start target)⟩, ⟨← Build.not condition, next⟩]
  | .branch target => return [← goTo s (b.resolve (.start target))]
  | .switch e cases default =>
    m.branch s l (← switchCases b (← v.value 0 e) cases default)
  | .leave none => return [← leave s none]
  | .leave (some e) =>
    if method.returnType.isVoid then return [← leave s none]
    return [← leave s (some (← coerce m.sorts (← v.value 0 e) e.type method.returnType))]
  | .throw _ => return [s.abort]
  | .endFinally => throw (.unsupported ("exception handler in " ++ method.fullName))

def exceeded {α : Type} (m : Machine D) (limit : Nat) (what : String) : Result α :=
  throw (.unsupported s!"more than {limit} {what} in {m.context.entry.signature}")

/-- Make one call, or execute one instruction. -/
def step (m : Machine D) (s : State D) : Result (List (State D)) := do
  let s := { s with steps := s.steps + 1 }
  if m.context.options.maxSteps < s.steps then m.exceeded m.context.options.maxSteps "steps"
  let frame ← s.frame
  let operation := (← frame.method.instruction frame.location).operation
  let sites := operation.sites
  match sites.zipIdx.find? fun (_, i) => !frame.results.contains i with
  | some (site, i) => m.call s sites i site
  | none => m.execute s frame.method frame.location operation

/-- The states of a run: those that are still running, the next one first, and those that have
stopped, the last one first. -/
structure Agenda (D : Type) where
  pending : List (State D) := []
  stopped : List (State D) := []

/-- Take new states in. The first one is stepped first. -/
def accept (m : Machine D) (a : Agenda D) (states : List (State D)) : Result (Agenda D) := do
  let pending := states.filter State.isRunning ++ a.pending
  let stopped := states.filter (fun s => !s.isRunning) ++ a.stopped
  if m.context.options.maxStates < pending.length + stopped.length then
    m.exceeded m.context.options.maxStates "states"
  return { pending, stopped }

/-- Step pending states, at most a number of times. -/
def work (m : Machine D) : Nat → Agenda D → Result (Agenda D)
  | 0, a => return a
  | fuel + 1, a =>
    match a.pending with
    | [] => return a
    | s :: pending => do m.work fuel (← m.accept { a with pending } (← m.step s))

/-- The state before the first instruction. An entry point without instructions has halted. -/
def initialState (m : Machine D) : Result (State D) := do
  let entry := m.context.entry
  match (← entry.requireBody).resolve (.start 0) with
  | some first => return .start entry first m.policy.initial
  | none => return { State.start entry (.start 0) m.policy.initial with status := .halted }

/-- Enough steps: a state takes no more than `maxSteps`, and at any time there are no more than
`maxStates` of them. -/
def stepBound (m : Machine D) : Nat :=
  m.context.options.maxStates * (m.context.options.maxSteps + 1) + 1

/-- Execute an entry point, and give the states in the order in which they stopped. -/
def run (m : Machine D) : Result (List (State D)) := do
  let states ← m.policy.start (← m.initialState)
  let a ← m.work m.stepBound (← m.accept {} states)
  return a.stopped.reverse

/-- The outcomes of the first steps from pending states: the states after each step, or its
error. -/
def trace (m : Machine D) : Nat → List (State D) → List (Result (List (State D)))
  | 0, _ => []
  | limit + 1, pending =>
    match pending.dropWhile fun s => !s.isRunning with
    | [] => []
    | s :: pending =>
      match m.step s with
      | .ok states => .ok states :: m.trace limit (states ++ pending)
      | .error e => .error e :: m.trace limit pending

end Machine

end PlayerPaths
