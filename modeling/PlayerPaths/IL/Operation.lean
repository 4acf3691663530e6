import PlayerPaths.IL.Expression

/-!
# IL instructions

An operation is one statement of a block; branch targets are block numbers. An instruction is an
operation with the bytecode offsets that it stands for. Instructions without offsets are glue
between structured blocks.
-/

namespace PlayerPaths.IL

structure SwitchCase where
  values : List Int
  target : Nat
  deriving DecidableEq, Repr

inductive Operation where
  | nop
  | store (v : Variable) (value : Expression)
  | storeField (target : Expression) (f : FieldRef) (value : Expression)
  | storeStatic (f : FieldRef) (value : Expression)
  | call (c : Call)
  /-- Branch when the condition holds, otherwise fall through. -/
  | branchIf (condition : Expression) (target : Nat)
  | branch (target : Nat)
  | switch (value : Expression) (cases : List SwitchCase) (default : Nat)
  /-- Return, with a value from methods that have one. -/
  | leave (value : Option Expression)
  | throw (value : Expression)
  | endFinally

/-- A call site: the call, and whether it makes a new object. -/
structure CallSite where
  call : Call
  isNew : Bool

def Expression.asSite? : Expression → Option CallSite
  | .call method arguments => some ⟨⟨method, arguments⟩, false⟩
  | .new method arguments => some ⟨⟨method, arguments⟩, true⟩
  | _ => none

/-- The call sites of an expression in the order of execution. -/
def Expression.sites (e : Expression) : List CallSite := e.postOrder.filterMap Expression.asSite?

namespace Operation

/-- The expressions of a statement, in the order of evaluation. -/
def expressions : Operation → List Expression
  | nop | branch _ | endFinally => []
  | store _ value | storeStatic _ value => [value]
  | storeField target _ value => [target, value]
  | call c => c.arguments
  | branchIf condition _ => [condition]
  | switch value .. => [value]
  | leave value => value.toList
  | throw value => [value]

/-- The call sites of a statement in the order of execution. -/
def sites (o : Operation) : List CallSite :=
  o.expressions.flatMap Expression.sites ++
    match o with
    | call c => [⟨c, false⟩]
    | _ => []

def calls (o : Operation) : List Call := o.sites.map CallSite.call

def anyExpression (p : Expression → Bool) (o : Operation) : Bool :=
  o.expressions.any fun e => e.any p

/-- Leaves the method. -/
def isUnwind : Operation → Bool
  | leave _ | throw _ => true
  | _ => false

/-- Never falls through. -/
def isTerminator : Operation → Bool
  | branch _ | switch .. | leave _ | throw _ | endFinally => true
  | _ => false

def isBranch : Operation → Bool
  | branch _ => true
  | _ => false

/-- The blocks that a statement may continue at. -/
def targets : Operation → List Nat
  | branchIf _ target | branch target => [target]
  | switch _ cases default => cases.map SwitchCase.target ++ [default]
  | _ => []

def mapTargets (f : Nat → Nat) : Operation → Operation
  | branchIf condition target => branchIf condition (f target)
  | branch target => branch (f target)
  | switch value cases default =>
    switch value (cases.map fun c => { c with target := f c.target }) (f default)
  | o => o

def caseText (c : SwitchCase) : String :=
  " case " ++ ",".intercalate (c.values.map fun v => toString v) ++ ": br B" ++ toString c.target
    ++ ";"

def text : Operation → String
  | nop => "nop"
  | store v value => "stloc " ++ v.name ++ "(" ++ value.text ++ ")"
  | storeField target f value =>
    "stfld " ++ f.signature ++ "(" ++ target.text ++ ", " ++ value.text ++ ")"
  | storeStatic f value => "stsfld " ++ f.signature ++ "(" ++ value.text ++ ")"
  | call c => "call " ++ c.text
  | branchIf condition target => "if (" ++ condition.text ++ ") br B" ++ toString target
  | branch target => "br B" ++ toString target
  | switch value cases default =>
    "switch (" ++ value.text ++ ") \x7b" ++ String.join (cases.map caseText) ++ " default: br B"
      ++ toString default ++ " \x7d"
  | leave (some value) => "leave(" ++ value.text ++ ")"
  | leave none => "leave"
  | throw value => "throw(" ++ value.text ++ ")"
  | endFinally => "endfinally"

end Operation

/-- A range of bytecode offsets, both ends included. -/
structure OffsetRange where
  first : Nat
  last : Nat
  deriving DecidableEq, Repr

def OffsetRange.offsets (r : OffsetRange) : List Nat := List.range' r.first (r.last + 1 - r.first)

/-- A statement at its place in the bytecode. -/
structure Instruction where
  operation : Operation
  ranges : List OffsetRange

namespace Instruction

/-- An instruction that stands for no bytecode. -/
def isSynthetic (i : Instruction) : Bool := i.ranges.isEmpty

/-- A branch that stands for no bytecode. Graphs and executions skip over it. -/
def isGlue (i : Instruction) : Bool := i.isSynthetic && i.operation.isBranch

def offset? (i : Instruction) : Option Nat := (i.ranges.map OffsetRange.first).min?

def offsets (i : Instruction) : List Nat := i.ranges.flatMap OffsetRange.offsets

def text (i : Instruction) : String :=
  match i.offset? with
  | some offset => "IL_" ++ Text.paddedHex 4 offset ++ ": " ++ i.operation.text
  | none => i.operation.text

end Instruction

end PlayerPaths.IL
