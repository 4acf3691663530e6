import Std.Data.TreeMap
import PlayerPaths.IL.Body

/-!
# Programs

A program is a pool of methods, by signature, and type definitions, by name.
-/

namespace PlayerPaths.IL

inductive TypeKind where
  /-- A type whose values are references to objects. -/
  | object
  | struct | enum | interface
  deriving DecidableEq, Repr

def TypeKind.name : TypeKind → String
  | object => "Class"
  | struct => "Struct"
  | enum => "Enum"
  | interface => "Interface"

structure FieldDefinition where
  name : String
  type : Ty
  isStatic : Bool
  deriving DecidableEq, Repr

structure TypeDefinition where
  name : String
  kind : TypeKind
  baseType : Option String := none
  fields : List FieldDefinition := []
  deriving DecidableEq, Repr

/-- The instance fields in the order of declaration. -/
def TypeDefinition.instanceFields (t : TypeDefinition) : List FieldDefinition :=
  t.fields.filter fun f => !f.isStatic

/-- The methods and types of an application. -/
structure Program where
  mainModule : String
  methods : Std.TreeMap String Method := ∅
  types : Std.TreeMap String TypeDefinition := ∅

namespace Program

def empty (mainModule : String) : Program := { mainModule }

def addMethod (p : Program) (m : Method) : Program :=
  { p with methods := p.methods.insert m.signature m }

def addType (p : Program) (t : TypeDefinition) : Program :=
  { p with types := p.types.insert t.name t }

/-- The methods in the order of their keys. -/
def methodList (p : Program) : List Method := p.methods.values

/-- The types in the order of their keys. -/
def typeList (p : Program) : List TypeDefinition := p.types.values

def method? (p : Program) (signature : String) : Option Method := p.methods[signature]?

def requireMethod (p : Program) (signature : String) : Result Method :=
  match p.method? signature with
  | some m => .ok m
  | none => .error (.methodNotFound signature)

def resolve? (p : Program) (m : MethodRef) : Option Method := p.method? m.signature

/-- The first method with a declaring type and a name. -/
def findMethod? (p : Program) (declaringType name : String) : Option Method :=
  p.methodList.find? fun m => m.declaringType == declaringType && m.name == name

def type? (p : Program) (name : String) : Option TypeDefinition := p.types[name]?

def requireType (p : Program) (name : String) : Result TypeDefinition :=
  match p.type? name with
  | some t => .ok t
  | none => .error (.typeNotFound name)

/-- The type of the values of a named type; a name without definition is a reference type. -/
def typeOf (p : Program) (name : String) : Ty :=
  match (p.type? name).map TypeDefinition.kind with
  | some .struct => .struct name
  | some .enum => .enum name
  | _ => .object name

def field? (p : Program) (declaringType name : String) : Option FieldRef := do
  let f ← (← p.type? declaringType).fields.find? fun f => f.name == name
  return { declaringType, name := f.name, type := f.type, isStatic := f.isStatic }

def isMainModule (p : Program) (m : Method) : Bool := m.moduleName == p.mainModule

def baseOf? (p : Program) (name : String) : Option String := (p.type? name).bind (·.baseType)

/-- Follow base types for a number of steps, looking for a name. -/
def derivesWithin (p : Program) (base : String) : Nat → String → Bool
  | 0, name => name == base
  | steps + 1, name =>
    name == base || match p.baseOf? name with
      | some parent => p.derivesWithin base steps parent
      | none => false

/-- A type is, or derives from, another one. A chain of base types that repeats no type has at
most one step per definition. -/
def derivesFrom (p : Program) (name base : String) : Bool := p.derivesWithin base p.types.size name

end Program

end PlayerPaths.IL
