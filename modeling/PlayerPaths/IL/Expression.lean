import PlayerPaths.IL.Type
import PlayerPaths.Number.Decimal
import PlayerPaths.Text.Quoted

/-!
# IL expressions

Expressions compute values and have no effect apart from the calls that they contain. The calls of
an expression happen in post-order: the arguments of a call are made before the call.
-/

namespace PlayerPaths.IL

/-- Where a variable lives in the frame of its method. -/
inductive VariableKind where
  | local
  /-- A formal parameter, counted from zero without the receiver. -/
  | parameter (index : Nat)
  | this
  | stackSlot
  deriving DecidableEq, Repr

structure Variable where
  name : String
  kind : VariableKind
  type : Ty
  deriving DecidableEq, Repr

/-- Parameters, the receiver among them. -/
def Variable.isParameter (v : Variable) : Bool :=
  match v.kind with
  | .parameter _ | .this => true
  | _ => false

structure FieldRef where
  declaringType : String
  name : String
  type : Ty
  isStatic : Bool
  deriving DecidableEq, Repr

/-- The key of a field in taint sets and registries. -/
def FieldRef.signature (f : FieldRef) : String := f.declaringType ++ "." ++ f.name

/-- A reference to a method. The flags are a bit set: static, constructor, virtual, abstract. -/
structure MethodRef where
  declaringType : String
  name : String
  parameterTypes : List Ty
  returnType : Ty
  flags : Nat := 0
  deriving DecidableEq, Repr

namespace MethodRef

def isStatic (m : MethodRef) : Bool := m.flags.testBit 0

def isConstructor (m : MethodRef) : Bool := m.flags.testBit 1

def static (declaringType name : String) (parameterTypes : List Ty) (returnType : Ty) :
    MethodRef :=
  { declaringType, name, parameterTypes, returnType, flags := 1 }

def fullName (m : MethodRef) : String := m.declaringType ++ "." ++ m.name

/-- The key of a method in programs and analysis results. -/
def signature (m : MethodRef) : String :=
  m.fullName ++ "(" ++ ";".intercalate (m.parameterTypes.map Ty.fullName) ++ ")"

end MethodRef

inductive BinaryOp where
  | add | sub | mul | div | rem | and | or | xor | shiftLeft | shiftRight
  deriving DecidableEq, Repr

/-- How an integer operation reads its operands. -/
inductive Sign where
  | none | signed | unsigned
  deriving DecidableEq, Repr

inductive Comparison where
  | equal | notEqual | less | lessOrEqual | greater | greaterOrEqual
  deriving DecidableEq, Repr

inductive Constant where
  | int32 (value : Int)
  | int64 (value : Int)
  | single (value : Float)
  | double (value : Float)
  | string (value : String)
  | null

inductive Expression where
  | load (v : Variable)
  /-- The address of a variable; a value type is passed this way. -/
  | loadAddress (v : Variable)
  | constant (c : Constant)
  | binary (op : BinaryOp) (sign : Sign) (lhs rhs : Expression)
  | compare (kind : Comparison) (sign : Sign) (lhs rhs : Expression)
  | not (operand : Expression)
  | convert (operand : Expression) (target : Ty)
  /-- The receiver of an instance method is the first argument. -/
  | call (method : MethodRef) (arguments : List Expression)
  /-- A new object, made by a constructor. -/
  | new (constructor : MethodRef) (arguments : List Expression)
  | field (target : Expression) (f : FieldRef)
  | staticField (f : FieldRef)
  | length (array : Expression)

/-- A call, of a method or a constructor. -/
structure Call where
  method : MethodRef
  arguments : List Expression

namespace Expression

/-- The direct parts, in the order of evaluation. -/
def children : Expression → List Expression
  | load _ | loadAddress _ | constant _ | staticField _ => []
  | binary _ _ lhs rhs | compare _ _ lhs rhs => [lhs, rhs]
  | not e | convert e _ | field e _ | length e => [e]
  | call _ arguments | new _ arguments => arguments

/-- The call that an expression makes itself. -/
def asCall? : Expression → Option Call
  | call method arguments | new method arguments => some ⟨method, arguments⟩
  | _ => none

def asVariable? : Expression → Option Variable
  | load v | loadAddress v => some v
  | _ => none

def asField? : Expression → Option FieldRef
  | field _ f | staticField f => some f
  | _ => none

def type : Expression → Ty
  | load v | loadAddress v => v.type
  | constant (.int32 _) | length _ => .int32
  | constant (.int64 _) => .int64
  | constant (.single _) => .single
  | constant (.double _) => .double
  | constant (.string _) => .string
  | constant .null => .object "System.Object"
  | binary _ _ lhs _ => lhs.type
  | compare .. | not _ => .bool
  | convert _ target => target
  | call method _ => method.returnType
  | new constructor _ => .object constructor.declaringType
  | field _ f | staticField f => f.type

mutual

/-- An expression and all of its parts, each before its own parts. -/
def preOrder : Expression → List Expression
  | e@(binary _ _ lhs rhs) | e@(compare _ _ lhs rhs) => e :: (lhs.preOrder ++ rhs.preOrder)
  | e@(not a) | e@(convert a _) | e@(field a _) | e@(length a) => e :: a.preOrder
  | e@(call _ arguments) | e@(new _ arguments) => e :: preOrderAll arguments
  | e => [e]

def preOrderAll : List Expression → List Expression
  | [] => []
  | e :: es => e.preOrder ++ preOrderAll es

end

mutual

/-- An expression and all of its parts, each after its own parts. -/
def postOrder : Expression → List Expression
  | e@(binary _ _ lhs rhs) | e@(compare _ _ lhs rhs) => lhs.postOrder ++ rhs.postOrder ++ [e]
  | e@(not a) | e@(convert a _) | e@(field a _) | e@(length a) => a.postOrder ++ [e]
  | e@(call _ arguments) | e@(new _ arguments) => postOrderAll arguments ++ [e]
  | e => [e]

def postOrderAll : List Expression → List Expression
  | [] => []
  | e :: es => e.postOrder ++ postOrderAll es

end

/-- The calls of an expression in the order in which they are made. -/
def calls (e : Expression) : List Call := e.postOrder.filterMap asCall?

/-- The outermost call that is found first. -/
def findCall? (e : Expression) : Option Call := (e.preOrder.filterMap asCall?).head?

def any (p : Expression → Bool) (e : Expression) : Bool := e.preOrder.any p

def variableNames (e : Expression) : List String :=
  ((e.preOrder.filterMap asVariable?).map Variable.name).eraseDups.mergeSort

def readsVariable (names : String → Bool) (e : Expression) : Bool :=
  e.any fun part => part.asVariable?.any fun v => names v.name

def readsField (signatures : String → Bool) (e : Expression) : Bool :=
  e.any fun part => part.asField?.any fun f => signatures f.signature

def callsMethod (signatures : String → Bool) (e : Expression) : Bool :=
  e.any fun part => part.asCall?.any fun c => signatures c.method.signature

end Expression

/-! ## Listings -/

def BinaryOp.text : BinaryOp → String
  | add => "add"
  | sub => "sub"
  | mul => "mul"
  | div => "div"
  | rem => "rem"
  | and => "bit.and"
  | or => "bit.or"
  | xor => "bit.xor"
  | shiftLeft => "bit.shl"
  | shiftRight => "bit.shr"

def BinaryOp.name : BinaryOp → String
  | add => "Add"
  | sub => "Sub"
  | mul => "Mul"
  | div => "Div"
  | rem => "Rem"
  | and => "BitAnd"
  | or => "BitOr"
  | xor => "BitXor"
  | shiftLeft => "ShiftLeft"
  | shiftRight => "ShiftRight"

def Sign.suffix : Sign → String
  | none => ""
  | signed => ".signed"
  | unsigned => ".unsigned"

def Comparison.text : Comparison → String
  | equal => "=="
  | notEqual => "!="
  | less => "<"
  | lessOrEqual => "<="
  | greater => ">"
  | greaterOrEqual => ">="

def Constant.text : Constant → String
  | int32 value => s!"ldc.i4 {value}"
  | int64 value => s!"ldc.i8 {value}"
  | single value => "ldc.f4 " ++ Decimal.exact value
  | double value => "ldc.f8 " ++ Decimal.exact value
  | string value => "ldstr " ++ Text.quoted value
  | null => "ldnull"

def MethodRef.application (m : MethodRef) (arguments : List String) : String :=
  m.fullName ++ "(" ++ ", ".intercalate arguments ++ ")"

mutual

def Expression.text : Expression → String
  | .load v => "ldloc " ++ v.name
  | .loadAddress v => "ldloca " ++ v.name
  | .constant c => c.text
  | .binary op sign lhs rhs =>
    op.text ++ "." ++ lhs.type.text ++ sign.suffix ++ "(" ++ lhs.text ++ ", " ++ rhs.text ++ ")"
  | .compare kind sign lhs rhs =>
    let suffix := if sign = .unsigned then ".unsigned" else ""
    "comp." ++ lhs.type.text ++ suffix ++ "(" ++ lhs.text ++ " " ++ kind.text ++ " " ++ rhs.text
      ++ ")"
  | .not e => "logic.not(" ++ e.text ++ ")"
  | .convert e target => "conv " ++ e.type.text ++ "->" ++ target.text ++ "(" ++ e.text ++ ")"
  | .call method arguments => "call " ++ method.application (Expression.texts arguments)
  | .new method arguments => "newobj " ++ method.application (Expression.texts arguments)
  | .field target f => "ldfld " ++ f.signature ++ "(" ++ target.text ++ ")"
  | .staticField f => "ldsfld " ++ f.signature
  | .length e => "ldlen(" ++ e.text ++ ")"

def Expression.texts : List Expression → List String
  | [] => []
  | e :: es => e.text :: Expression.texts es

end

def Call.text (c : Call) : String := c.method.application (Expression.texts c.arguments)

end PlayerPaths.IL
