import PlayerPaths.IL.Program
import PlayerPaths.Json.Decoder
import PlayerPaths.Json.Reader

/-!
# Programs as JSON

Programs are exchanged as JSON objects. Reading checks the shape and nothing else: a block may
carry any number, and a method may stand under any key. A program that is stored as a text
(`Program.ofText?`) may list the fields of its statements and expressions; how single statements
and expressions are written is up to their reader.
-/

namespace PlayerPaths.IL

open Json

/-- Types that are written as a word. -/
def Ty.words : List (String × Ty) :=
  [("Void", .void), ("Boolean", .bool), ("Char", .char), ("SByte", .int8), ("Byte", .uint8),
    ("Int16", .int16), ("UInt16", .uint16), ("Int32", .int32), ("UInt32", .uint32),
    ("Int64", .int64), ("UInt64", .uint64), ("Single", .single), ("Double", .double),
    ("String", .string)]

def Ty.ofJsonWithin? : Nat → Json → Option Ty
  | 0, _ => none
  | fuel + 1, j =>
    match choice? j with
    | some ("Object", some (.str name)) => some (.object name)
    | some ("Struct", some (.str name)) => some (.struct name)
    | some ("Enum", some (.str name)) => some (.enum name)
    | some ("Array", some element) => (ofJsonWithin? fuel element).map .array
    | _ => word? Ty.words j

def Ty.ofJson? : Json → Option Ty := nested Ty.ofJsonWithin?

def Ty.toJson : Ty → Json
  | .object name => .obj [("Object", .str name)]
  | .struct name => .obj [("Struct", .str name)]
  | .enum name => .obj [("Enum", .str name)]
  | .array element => .obj [("Array", element.toJson)]
  | t => .str (((Ty.words.find? fun w => w.2 == t).map Prod.fst).getD "")

def VariableKind.ofJson? (j : Json) : Option VariableKind :=
  match choice? j with
  | some ("Parameter", some index) => (nat? index).map .parameter
  | _ => word? [("Local", .local), ("This", .this), ("StackSlot", .stackSlot)] j

def Variable.ofJson? (j : Json) : Option Variable := do
  let fields ← fields? ["name", "kind", "type_"] j
  return { name := ← fields.get "name" string?
           kind := ← fields.get "kind" VariableKind.ofJson?
           type := ← fields.get "type_" Ty.ofJson? }

def FieldRef.ofJson? (j : Json) : Option FieldRef := do
  let fields ← fields? ["declaring_type", "name", "type_", "is_static"] j
  return { declaringType := ← fields.get "declaring_type" string?
           name := ← fields.get "name" string?
           type := ← fields.get "type_" Ty.ofJson?
           isStatic := ← fields.get "is_static" bool? }

def flags? (j : Json) : Option Nat := do (← fields? ["bits"] j).get "bits" nat32?

def MethodRef.ofJson? (j : Json) : Option MethodRef := do
  let fields ← fields? ["declaring_type", "name", "parameter_types", "return_type", "flags"] j
  return { declaringType := ← fields.get "declaring_type" string?
           name := ← fields.get "name" string?
           parameterTypes := ← fields.get "parameter_types" (list? Ty.ofJson?)
           returnType := ← fields.get "return_type" Ty.ofJson?
           flags := ← fields.get "flags" flags? }

def BinaryOp.ofJson? : Json → Option BinaryOp :=
  word? ([.add, .sub, .mul, .div, .rem, .and, .or, .xor, .shiftLeft, .shiftRight].map
    fun (op : BinaryOp) => (op.name, op))

def Sign.ofJson? : Json → Option Sign :=
  word? [("None", .none), ("Signed", .signed), ("Unsigned", .unsigned)]

def Comparison.ofJson? : Json → Option Comparison :=
  word? [("Equality", .equal), ("Inequality", .notEqual), ("LessThan", .less),
    ("LessThanOrEqual", .lessOrEqual), ("GreaterThan", .greater),
    ("GreaterThanOrEqual", .greaterOrEqual)]

/-- A call, given a decoder of its arguments. -/
def call? (argument? : Json → Option Expression) (j : Json) : Option Call := do
  let fields ← fields? ["method", "arguments"] j
  return { method := ← fields.get "method" MethodRef.ofJson?
           arguments := ← fields.get "arguments" (list? argument?) }

def Expression.ofJsonWithin? (style : Style) : Nat → Json → Option Expression
  | 0, _ => none
  | fuel + 1, j => do
    let expression? := ofJsonWithin? style fuel
    let (tag, content) ← choice? j
    match tag, content with
    | "LdNull", none | "LdNull", some .null => return .constant .null
    | "LdLoc", some c => return .load (← Variable.ofJson? c)
    | "LdLoca", some c => return .loadAddress (← Variable.ofJson? c)
    | "LdcI4", some c => return .constant (.int32 (← int32? c))
    | "LdcI8", some c => return .constant (.int64 (← int64? c))
    | "LdcF4", some c => return .constant (.single (← double? c))
    | "LdcF8", some c => return .constant (.double (← double? c))
    | "LdStr", some c => return .constant (.string (← string? c))
    | "Binary", some c =>
      let fields ← choiceFields? style ["op", "sign", "lhs", "rhs"] c
      return .binary (← fields.get "op" BinaryOp.ofJson?) (← fields.get "sign" Sign.ofJson?)
        (← fields.get "lhs" expression?) (← fields.get "rhs" expression?)
    | "Comp", some c =>
      let fields ← choiceFields? style ["kind", "sign", "lhs", "rhs"] c
      return .compare (← fields.get "kind" Comparison.ofJson?) (← fields.get "sign" Sign.ofJson?)
        (← fields.get "lhs" expression?) (← fields.get "rhs" expression?)
    | "LogicNot", some c => return .not (← expression? c)
    | "Conv", some c =>
      let fields ← choiceFields? style ["input", "target"] c
      return .convert (← fields.get "input" expression?)
        (← fields.get "target" Ty.ofJson?)
    | "Call", some c =>
      let call ← call? expression? c
      return .call call.method call.arguments
    | "NewObj", some c =>
      let call ← call? expression? c
      return .new call.method call.arguments
    | "LdFld", some c =>
      let fields ← choiceFields? style ["target", "field"] c
      return .field (← fields.get "target" expression?)
        (← fields.get "field" FieldRef.ofJson?)
    | "LdsFld", some c => return .staticField (← FieldRef.ofJson? c)
    | "LdLen", some c => return .length (← expression? c)
    | _, _ => none

def Expression.ofJson? (style : Style) : Json → Option Expression :=
  nested (Expression.ofJsonWithin? style)

def Call.ofJson? (style : Style) : Json → Option Call := call? (Expression.ofJson? style)

def SwitchCase.ofJson? (j : Json) : Option SwitchCase := do
  let fields ← fields? ["values", "target"] j
  return { values := ← fields.get "values" (list? int64?), target := ← fields.get "target" nat? }

def Operation.ofJson? (style : Style) (j : Json) : Option Operation := do
  let expression? := Expression.ofJson? style
  let (tag, content) ← choice? j
  match tag, content with
  | "Nop", none | "Nop", some .null => return .nop
  | "EndFinally", none | "EndFinally", some .null => return .endFinally
  | "StLoc", some c =>
    let fields ← choiceFields? style ["variable", "value"] c
    return .store (← fields.get "variable" Variable.ofJson?)
      (← fields.get "value" expression?)
  | "StFld", some c =>
    let fields ← choiceFields? style ["target", "field", "value"] c
    return .storeField (← fields.get "target" expression?)
      (← fields.get "field" FieldRef.ofJson?) (← fields.get "value" expression?)
  | "StsFld", some c =>
    let fields ← choiceFields? style ["field", "value"] c
    return .storeStatic (← fields.get "field" FieldRef.ofJson?)
      (← fields.get "value" expression?)
  | "Call", some c => return .call (← Call.ofJson? style c)
  | "If", some c =>
    let fields ← choiceFields? style ["condition", "target"] c
    return .branchIf (← fields.get "condition" expression?) (← fields.get "target" nat?)
  | "Branch", some c =>
    return .branch (← (← choiceFields? style ["target"] c).get "target" nat?)
  | "Switch", some c =>
    let fields ← choiceFields? style ["value", "cases", "default"] c
    return .switch (← fields.get "value" expression?)
      (← fields.get "cases" (list? SwitchCase.ofJson?)) (← fields.get "default" nat?)
  | "Leave", some c =>
    return .leave (← (← choiceFields? style ["value"] c).getOptional "value" expression?)
  | "Throw", some c =>
    return .throw (← (← choiceFields? style ["value"] c).get "value" expression?)
  | _, _ => none

def OffsetRange.ofJson? (j : Json) : Option OffsetRange := do
  let fields ← fields? ["start", "end"] j
  return { first := ← fields.get "start" nat32?, last := ← fields.get "end" nat32? }

def Instruction.ofJson? (style : Style) (j : Json) : Option Instruction := do
  let fields ← fields? ["operation", "il_ranges"] j
  return { operation := ← fields.get "operation" (Operation.ofJson? style)
           ranges := ← fields.get "il_ranges" (list? OffsetRange.ofJson?) }

def Block.ofJson? (style : Style) (j : Json) : Option Block := do
  let fields ← fields? ["index", "instructions"] j
  return { index := ← fields.get "index" nat?
           instructions := ← fields.get "instructions" (list? (Instruction.ofJson? style)) }

def HandlerKind.ofJson? : Json → Option HandlerKind :=
  word? ([.catch, .filter, .fault, .finally].map fun (k : HandlerKind) => (k.name, k))

def Handler.ofJson? (j : Json) : Option Handler := do
  let fields ← fields? ["kind", "try_blocks", "handler_blocks"] j
  return { kind := ← fields.get "kind" HandlerKind.ofJson?
           protectedBlocks := ← fields.get "try_blocks" (pair? nat? nat?)
           handlerBlocks := ← fields.get "handler_blocks" (pair? nat? nat?) }

def Handler.toJson (h : Handler) : Json :=
  .obj [("kind", .str h.kind.name),
    ("try_blocks", .numbers [h.protectedBlocks.1, h.protectedBlocks.2]),
    ("handler_blocks", .numbers [h.handlerBlocks.1, h.handlerBlocks.2])]

def Body.ofJson? (style : Style) (j : Json) : Option Body := do
  let fields ← fields? ["blocks", "exception_handlers", "next_offset"] j
  return { blocks := ← fields.get "blocks" (list? (Block.ofJson? style))
           handlers := ← fields.get "exception_handlers" (list? Handler.ofJson?)
           nextOffset := ← fields.get "next_offset" nat32? }

def Parameter.ofJson? (j : Json) : Option Parameter := do
  let fields ← fields? ["name", "type_"] j
  return { name := ← fields.get "name" string?, type := ← fields.get "type_" Ty.ofJson? }

def Method.ofJson? (style : Style) (j : Json) : Option Method := do
  let fields ← fields? ["reference", "parameters", "module", "body"] j
  return { reference := ← fields.get "reference" MethodRef.ofJson?
           parameters := ← fields.get "parameters" (list? Parameter.ofJson?)
           moduleName := ← fields.get "module" string?
           body := ← fields.getOptional "body" (Body.ofJson? style) }

def TypeKind.ofJson? : Json → Option TypeKind :=
  word? ([.object, .struct, .enum, .interface].map fun (k : TypeKind) => (k.name, k))

def FieldDefinition.ofJson? (j : Json) : Option FieldDefinition := do
  let fields ← fields? ["name", "type_", "is_static"] j
  return { name := ← fields.get "name" string?
           type := ← fields.get "type_" Ty.ofJson?
           isStatic := ← fields.get "is_static" bool? }

def TypeDefinition.ofJson? (j : Json) : Option TypeDefinition := do
  let fields ← fields? ["name", "kind", "base_type", "fields"] j
  return { name := ← fields.get "name" string?
           kind := ← fields.get "kind" TypeKind.ofJson?
           baseType := ← fields.getOptional "base_type" string?
           fields := ← fields.get "fields" (list? FieldDefinition.ofJson?) }

def Program.ofJson? (j : Json) : Option Program := do
  let fields ← fields? ["main_module", "methods", "types"] j
  return { mainModule := ← fields.get "main_module" string?
           methods := .ofList (← fields.get "methods" (map? (Method.ofJson? .listed)))
           types := .ofList (← fields.get "types" (map? TypeDefinition.ofJson?)) }

def Program.ofText? (text : String) : Option Program := do ofJson? (← Json.read? text)

end PlayerPaths.IL
