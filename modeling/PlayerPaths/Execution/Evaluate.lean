import PlayerPaths.Execution.State
import PlayerPaths.IL.Operation

/-!
# Values of IL expressions

The formula of an expression in a state. The calls of an instruction are made before it executes,
so the value of a call is looked up: calls are counted in the order of execution, and the
evaluator is told how many come before the expression at hand.
-/

namespace PlayerPaths

open IL

def IL.Expression.siteCount (e : Expression) : Nat := e.sites.length

/-- A storage location. -/
inductive Place where
  | slot (address : Address) (type : Ty)
  /-- A field of the value type at a place. -/
  | member (place : Place) (field : String)
  deriving DecidableEq, Repr

/-- What the value of an expression depends on. -/
structure Evaluator where
  memory : Memory
  sorts : Sorts
  depth : Nat
  /-- How many calls the instruction makes. -/
  siteCount : Nat
  results : Std.TreeMap Nat (Option Formula)

def State.evaluator {D : Type} (s : State D) (sorts : Sorts) (siteCount : Nat) :
    Result Evaluator := do
  let f ← s.frame
  return { memory := s.memory, sorts, depth := f.depth, siteCount, results := f.results }

/-- The operator on bit vectors. A sign that is not given counts as signed. -/
def bitOperator? (op : BinaryOp) (signed : Bool) : Option BitOp :=
  match op with
  | .add => some .add
  | .sub => some .sub
  | .mul => some .mul
  | .div => some (if signed then .sdiv else .udiv)
  | .rem => some (if signed then .srem else .urem)
  | .and => some .and
  | .or => some .or
  | .xor => some .xor
  | .shiftLeft | .shiftRight => none

def realOperator? : BinaryOp → Option ArithOp
  | .add => some .add
  | .sub => some .sub
  | .mul => some .mul
  | .div => some .div
  | _ => none

/-- A shift of a bit vector. The amount is taken modulo the width, and only a right shift that is
marked as signed is arithmetic. -/
def shift (op : BinaryOp) (sign : Sign) (a b : Formula) (width : Nat) : Result Formula := do
  let amount ← resize b width false
  if width = 0 then throw (.fault .overflow)
  let amount ← Build.bits .and amount (.bits (width - 1) width)
  let op := if op = .shiftLeft then BitOp.shl else if sign = .signed then .ashr else .lshr
  Build.bits op a amount

def binaryValue (op : BinaryOp) (sign : Sign) (a b : Formula) : Result Formula := do
  let signed := sign ≠ .unsigned
  let isShift := op = .shiftLeft ∨ op = .shiftRight
  let (a, b) ← if isShift then pure (a, b) else unify a b signed
  match ← a.sort with
  | .real =>
    match realOperator? op with
    | some op => Build.arith op a b
    | none => throw (.unsupported ("floating point operator " ++ op.name))
  | .bitVec width =>
    match bitOperator? op signed with
    | some op => Build.bits op a b
    | none => shift op sign a b width
  | s => throw (.unsupported ("arithmetic on " ++ s.text))

def bitOrder (kind : Comparison) (unsigned : Bool) : BitComparison :=
  match kind, unsigned with
  | .less, false => .slt
  | .lessOrEqual, false => .sle
  | .greater, false => .sgt
  | .less, true => .ult
  | .lessOrEqual, true => .ule
  | .greater, true => .ugt
  | _, true => .uge
  | _, false => .sge

def numberOrder : Comparison → ArithComparison
  | .less => .lt
  | .lessOrEqual => .le
  | .greater => .gt
  | _ => .ge

def compareValue (kind : Comparison) (sign : Sign) (a b : Formula) : Result Formula := do
  let unsigned : Bool := sign = .unsigned
  let (a, b) ← unify a b (!unsigned)
  let s ← a.sort
  let t ← b.sort
  if s ≠ t then
    throw (.unsupported ("comparison of " ++ s.text ++ " with " ++ t.text))
  match kind, s with
  | .equal, _ => Build.eq a b
  | .notEqual, _ => Build.ne a b
  | kind, .bitVec _ => Build.compareBits (bitOrder kind unsigned) a b
  | kind, .real | kind, .int => Build.compareArith (numberOrder kind) a b
  | _, s => throw (.unsupported ("ordering of " ++ s.text))

def constantValue : Constant → Formula
  | .int32 i => .bits (Word.ofInt i) 32
  | .int64 i => .bits (Word.ofInt i) 64
  | .single x | .double x => .real x
  | .string s => .str s
  | .null => .int 0

def objectOf (reference : Formula) : Result Address := do
  match reference with
  | .var name .int =>
    match (← Address.read name).object? with
    | some a => return a
    | none => throw (.unsupported (name ++ " is not an object"))
  | .int i =>
    if i = 0 then throw (.unsupported "null dereference")
    else if 0 < i then return .heap i.toNat
    else throw (.unsupported ("dereference of symbolic reference " ++ (← reference.text)))
  | e => throw (.unsupported ("dereference of symbolic reference " ++ (← e.text)))

namespace Evaluator

def read (v : Evaluator) (a : Address) (t : Ty) : Result Formula := v.memory.read v.sorts a t

def callValue (v : Evaluator) (index : Nat) (c : Call) : Result Formula :=
  if v.siteCount ≤ index then
    throw (.custom ("call " ++ c.text ++ " is not part of the instruction"))
  else
    match v.results[index]? with
    | some (some value) => return value
    | some none => throw (.unsupported ("value of void call " ++ c.method.signature))
    | none => throw (.custom ("call " ++ c.text ++ " has not been made"))

def readPlace (v : Evaluator) : Place → Result Formula
  | .slot a t => v.read a t
  | .member place field => do Build.get (← v.readPlace place) field

/-- The slot that a store to a place writes, and what it writes. A store to a field of a value type
writes the whole value again. -/
def assign (v : Evaluator) : Place → Formula → Result (Address × Formula)
  | .slot a t, value => do return (a, ← coerce v.sorts value t t)
  | .member place field, value => do
    v.assign place (← Build.set (← v.readPlace place) field value)

def variableSlot (v : Evaluator) (x : Variable) : Place := .slot (.ofVariable v.depth x) x.type

/-- The place of a field, given the value that has it and the place of that value: a member of a
value type, or a slot of an object. The place of the value is only asked for when it matters. -/
def memberPlace (value : Formula) (place : Unit → Result Place) (f : FieldRef) :
    Result Place := do
  match ← value.sort with
  | .record .. => return .member (← place ()) f.name
  | _ => return .slot ((← objectOf value).field f.name) f.type

mutual

/-- The value of an expression behind a number of calls. -/
def value (v : Evaluator) (before : Nat) : Expression → Result Formula
  | .load x | .loadAddress x => v.readPlace (v.variableSlot x)
  | .constant c => return constantValue c
  | .binary op sign lhs rhs => do
    let a ← v.value before lhs
    let b ← v.value (before + lhs.siteCount) rhs
    binaryValue op sign a b
  | .compare kind sign lhs rhs => do
    let a ← v.value before lhs
    let b ← v.value (before + lhs.siteCount) rhs
    compareValue kind sign a b
  | .not e => do Build.not (← toBool (← v.value before e))
  | .convert e target => do PlayerPaths.convert v.sorts (← v.value before e) e.type target
  | e@(.call method arguments) => v.callValue (before + e.siteCount - 1) ⟨method, arguments⟩
  | e@(.new method arguments) => v.callValue (before + e.siteCount - 1) ⟨method, arguments⟩
  | .field target f => do
    v.readPlace (← memberPlace (← v.value before target) (fun _ => v.place before target) f)
  | .staticField f => v.read (.ofStatic f) f.type
  | .length array => do v.read (← objectOf (← v.value before array)).length .int32

def place (v : Evaluator) (before : Nat) : Expression → Result Place
  | .load x | .loadAddress x => return v.variableSlot x
  | .staticField f => return .slot (.ofStatic f) f.type
  | .field target f => do memberPlace (← v.value before target) (fun _ => v.place before target) f
  | e => throw (.unsupported ("store through " ++ e.text))

end

def fieldPlace (v : Evaluator) (before : Nat) (target : Expression) (f : FieldRef) :
    Result Place := do
  memberPlace (← v.value before target) (fun _ => v.place before target) f

/-- An expression as a truth value. -/
def condition (v : Evaluator) (before : Nat) (e : Expression) : Result Formula := do
  toBool (← v.value before e)

end Evaluator

end PlayerPaths
