import PlayerPaths.IL.Operation
import PlayerPaths.Error

/-!
# Method bodies

A body is a list of blocks. A block has a position in the list and carries a number, and the two
agree in bodies that were built here (`Body.Numbered`); bodies that come from elsewhere may say
otherwise.
-/

namespace PlayerPaths.IL

/-- The place of an instruction: a block, and an index into it. -/
structure Location where
  block : Nat
  index : Nat
  deriving DecidableEq, Repr

namespace Location

def next (l : Location) : Location := ⟨l.block, l.index + 1⟩

def start (block : Nat) : Location := ⟨block, 0⟩

def text (l : Location) : String := s!"B{l.block}[{l.index}]"

/-- Locations are ordered by block, then by index. -/
def order (a b : Location) : Ordering := (compare a.block b.block).then (compare a.index b.index)

end Location

/-- Instructions that are entered at the first one. -/
structure Block where
  index : Nat
  instructions : List Instruction := []

inductive HandlerKind where
  | catch | filter | fault | finally
  deriving DecidableEq, Repr

/-- A protected region and its handler, as inclusive ranges of blocks. -/
structure Handler where
  kind : HandlerKind
  protectedBlocks : Nat × Nat
  handlerBlocks : Nat × Nat
  deriving DecidableEq, Repr

def HandlerKind.name : HandlerKind → String
  | «catch» => "Catch"
  | filter => "Filter"
  | fault => "Fault"
  | «finally» => "Finally"

def Handler.text (h : Handler) : String :=
  let pair (p : Nat × Nat) := "(" ++ toString p.1 ++ ", " ++ toString p.2 ++ ")"
  "ExceptionHandler \x7b kind: " ++ h.kind.name ++ ", try_blocks: " ++ pair h.protectedBlocks
    ++ ", handler_blocks: " ++ pair h.handlerBlocks ++ " \x7d"

structure Body where
  blocks : List Block := []
  handlers : List Handler := []
  nextOffset : Nat := 0

namespace Body

/-- Every block carries its position. -/
def Numbered (b : Body) : Prop := ∀ i (h : i < b.blocks.length), (b.blocks[i]).index = i

def block (b : Body) (i : Nat) : Result Block :=
  match b.blocks[i]? with
  | some block => .ok block
  | none => .error (.blockNotFound i)

def instruction? (b : Body) (l : Location) : Option Instruction :=
  b.blocks[l.block]?.bind fun block => block.instructions[l.index]?

def addBlock (b : Body) : Body := { b with blocks := b.blocks ++ [{ index := b.blocks.length }] }

def push (b : Body) (i : Nat) (instruction : Instruction) : Result Body := do
  let block ← b.block i
  let block := { block with instructions := block.instructions ++ [instruction] }
  return { b with blocks := b.blocks.set i block }

/-- Append a statement to a block, at the next bytecode offset. -/
def emit (b : Body) (i : Nat) (operation : Operation) : Result Body := do
  let b' ← b.push i ⟨operation, [⟨b.nextOffset, b.nextOffset⟩]⟩
  return { b' with nextOffset := b.nextOffset + 1 }

def emitGlue (b : Body) (i target : Nat) : Result Body := b.push i ⟨.branch target, []⟩

/-- The instructions of a block under the number that it carries. -/
def blockLocations (block : Block) : List (Location × Instruction) :=
  block.instructions.zipIdx.map fun (instruction, i) => (⟨block.index, i⟩, instruction)

/-- Every instruction with its location, in block order. -/
def locations (b : Body) : List (Location × Instruction) := b.blocks.flatMap blockLocations

/-- The number that a block gets when the removed blocks are gone: how many kept blocks stand
before it. Numbers past the end count as the end. -/
def renumbered (b : Body) (removed : List Nat) (target : Nat) : Nat :=
  ((List.range (min target b.blocks.length)).filter (· ∉ removed)).length

/-- A block at a new position, with its targets renumbered. -/
def Block.moved (index : Nat) (renumber : Nat → Nat) (block : Block) : Block where
  index
  instructions := block.instructions.map fun i =>
    { i with operation := i.operation.mapTargets renumber }

/-- Remove blocks and renumber what is left. A target that is gone becomes the next kept block. -/
def removeBlocks (b : Body) (removed : List Nat) : Body :=
  let kept := b.blocks.filter fun block => block.index ∉ removed
  { b with blocks := kept.mapIdx fun i block => Block.moved i (b.renumbered removed) block }

def text (b : Body) : String :=
  String.join (b.blocks.map fun block =>
    "  B" ++ toString block.index ++ ":\n" ++
      String.join (block.instructions.map fun i => "    " ++ i.text ++ "\n"))

end Body

structure Parameter where
  name : String
  type : Ty
  deriving DecidableEq, Repr

structure Method where
  reference : MethodRef
  parameters : List Parameter
  moduleName : String
  body : Option Body

namespace Method

def name (m : Method) : String := m.reference.name

def declaringType (m : Method) : String := m.reference.declaringType

def signature (m : Method) : String := m.reference.signature

def fullName (m : Method) : String := m.reference.fullName

def returnType (m : Method) : Ty := m.reference.returnType

def hasBody (m : Method) : Bool := m.body.isSome

/-- A method whose parameters match the types that its reference declares. -/
def make (reference : MethodRef) (parameters : List Parameter) (moduleName : String)
    (body : Option Body) : Result Method :=
  if reference.parameterTypes.length = parameters.length then
    .ok { reference, parameters, moduleName, body }
  else
    .error (.custom (reference.signature ++ " declares " ++
      toString reference.parameterTypes.length ++ " parameter types but " ++
      toString parameters.length ++ " parameters"))

/-- The body, or an error that names the method. -/
def requireBody (m : Method) : Result Body :=
  match m.body with
  | some b => .ok b
  | none => .error (.noBody m.signature)

def parameterVariable? (m : Method) (i : Nat) : Option Variable :=
  m.parameters[i]?.map fun p => ⟨p.name, .parameter i, p.type⟩

def instruction (m : Method) (l : Location) : Result Instruction := do
  let block ← (← m.requireBody).block l.block
  match block.instructions[l.index]? with
  | some i => return i
  | none => throw (.instructionNotFound l.block l.index)

def text (m : Method) : String :=
  "method " ++ m.fullName ++ " \x7b\n" ++ (m.body.map Body.text).getD "" ++ "\x7d"

end Method

/-- The name of the callee's parameter that an argument binds; the receiver binds `this`. -/
def Call.parameterName? (c : Call) (i : Nat) (callee : Option Method) : Option String :=
  let formal (k : Nat) := callee.bind fun m => m.parameters[k]?.map Parameter.name
  if c.method.isStatic then formal i
  else match i with
    | 0 => some "this"
    | k + 1 => formal k

end PlayerPaths.IL
