import PlayerPaths.Execution.Address
import PlayerPaths.Execution.Convert
import PlayerPaths.Formula.Simplify

/-!
# Execution states

A state is one path through an entry point: what was assumed so far, the memory, the call stack
and the calls that were not executed. Forking is copying.
-/

namespace PlayerPaths

open IL

/-- Where a state is in its life. -/
inductive Status where
  | running
  /-- Returned from the entry point. -/
  | halted
  /-- Infeasible, vetoed, or ended by a throw. -/
  | aborted
  deriving DecidableEq, Repr

def Status.name : Status → String
  | running => "Running"
  | halted => "Halted"
  | aborted => "Aborted"

/-- A call that was not executed, with its arguments. -/
structure SymbolicCall where
  method : MethodRef
  arguments : List Formula

/-- The variable for the unknown value of a slot. Void slots have none. -/
def freshValue (sorts : Sorts) (a : Address) (t : Ty) : Result (Option Formula) := do
  if t.isVoid then return none
  let a := if t.isReference then a.heapId else a
  return some (.var a.text (← sorts.sort t))

/-- The slots that were written, by the texts of their addresses. -/
structure Memory where
  slots : Std.TreeMap String Formula := ∅

namespace Memory

def write (m : Memory) (a : Address) (value : Formula) : Memory := ⟨m.slots.insert a.text value⟩

/-- The value of a slot. Slots of objects that were allocated during the execution start out as
zero, and all others with a value that nobody knows. -/
def read (m : Memory) (sorts : Sorts) (a : Address) (t : Ty) : Result Formula := do
  if let some value := m.slots[a.text]? then return value
  if t.isVoid then throw (.unsupported ("read of void value at " ++ a.text))
  if a.isHeap then return (← sorts.sort t).zero
  match ← freshValue sorts a t with
  | some value => return value
  | none => throw (.unsupported ("read of void value at " ++ a.text))

/-- Forget the slots of the frame at a depth. -/
def dropFrame (m : Memory) (depth : Nat) : Memory :=
  ⟨m.slots.filter fun key _ => !(Address.frameStart depth).toList.isPrefixOf key.toList⟩

end Memory

/-- Where the value of a returning frame goes. -/
structure ReturnSlot where
  /-- The call in the caller's instruction, counted in the order of execution. -/
  call : Nat
  /-- The object that a constructor makes, which is the value of its call. -/
  constructed : Option Formula

/-- One activation of a method. -/
structure Frame where
  method : Method
  depth : Nat
  location : Location
  /-- The results of the calls of the current instruction that were made so far. Calls of void
  methods have no value. -/
  results : Std.TreeMap Nat (Option Formula) := ∅
  returnSlot : Option ReturnSlot := none

/-- A state with data of an execution policy. -/
structure State (D : Type) where
  condition : List Formula := []
  memory : Memory := {}
  /-- The call stack, the current frame first. -/
  frames : List Frame
  calls : Std.TreeMap Nat SymbolicCall := ∅
  callCount : Nat := 0
  heapCount : Nat := 0
  status : Status := .running
  steps : Nat := 0
  data : D

namespace State

variable {D : Type}

/-- A running state at a location of the entry point. -/
def start (entry : Method) (l : Location) (data : D) : State D :=
  { frames := [{ method := entry, depth := 0, location := l }], data }

def isRunning (s : State D) : Bool := s.status = .running

/-- Assume a condition. What is trivially true is not kept. -/
def assume (s : State D) (c : Formula) : Result (State D) := do
  let c ← c.simplify
  if c = .bool true then return s
  return { s with condition := s.condition ++ [c] }

def assumeAll (s : State D) (cs : List Formula) : Result (State D) := cs.foldlM assume s

def abort (s : State D) : State D := { s with status := .aborted }

def write (s : State D) (a : Address) (value : Formula) : State D :=
  { s with memory := s.memory.write a value }

def frame (s : State D) : Result Frame :=
  match s.frames with
  | f :: _ => return f
  | [] => throw (.custom "state has no frames")

def modifyFrame (s : State D) (change : Frame → Frame) : Result (State D) :=
  match s.frames with
  | f :: callers => return { s with frames := change f :: callers }
  | [] => throw (.custom "state has no frames")

/-- Note the result of a call of the current instruction. -/
def setResult (s : State D) (call : Nat) (value : Option Formula) : Result (State D) :=
  s.modifyFrame fun f => { f with results := f.results.insert call value }

def jump (s : State D) (l : Location) : Result (State D) :=
  s.modifyFrame fun f => { f with location := l, results := ∅ }

/-- The depth of the next frame, one above the current one. -/
def nextDepth (s : State D) : Nat :=
  match s.frames with
  | f :: _ => f.depth + 1
  | [] => 0

def push (s : State D) (method : Method) (l : Location) (slot : ReturnSlot) : State D :=
  let frame := { method, depth := s.nextDepth, location := l, returnSlot := some slot }
  { s with frames := frame :: s.frames }

/-- Leave the current frame and forget its slots. -/
def pop? (s : State D) : Option (Frame × State D) :=
  match s.frames with
  | f :: callers => some (f, { s with frames := callers, memory := s.memory.dropFrame f.depth })
  | [] => none

/-- The number of the next call that is not executed. -/
def nextCall (s : State D) : Nat × State D :=
  (s.callCount, { s with callCount := s.callCount + 1 })

/-- A new object. Null is zero, so identities start at one. An identity is a 64-bit integer. -/
def allocate (s : State D) : Formula × State D :=
  let id := s.heapCount + 1
  (.int (Word.toInt (id % Word.limit)), { s with heapCount := id })

end State

end PlayerPaths
