/-!
# Types of IL values

The type of every variable, field and expression. Type names appear in two spellings: the full
name, which is part of signatures, and a short one for listings.
-/

namespace PlayerPaths.IL

inductive Ty where
  | void
  | bool
  | char
  | int8
  | uint8
  | int16
  | uint16
  | int32
  | uint32
  | int64
  | uint64
  | single
  | double
  | string
  /-- A reference type. -/
  | object (name : String)
  /-- A value type with fields. -/
  | struct (name : String)
  /-- An enumeration, stored as a 32-bit integer. -/
  | enum (name : String)
  | array (element : Ty)
  deriving DecidableEq, Repr

namespace Ty

/-- The name of a type in signatures. -/
def fullName : Ty → String
  | void => "System.Void"
  | bool => "System.Boolean"
  | char => "System.Char"
  | int8 => "System.SByte"
  | uint8 => "System.Byte"
  | int16 => "System.Int16"
  | uint16 => "System.UInt16"
  | int32 => "System.Int32"
  | uint32 => "System.UInt32"
  | int64 => "System.Int64"
  | uint64 => "System.UInt64"
  | single => "System.Single"
  | double => "System.Double"
  | string => "System.String"
  | object name | struct name | enum name => name
  | array element => element.fullName ++ "[]"

/-- The name of a type in listings. -/
def text : Ty → String
  | void => "void"
  | bool => "bool"
  | char => "char"
  | int8 => "i1"
  | uint8 => "u1"
  | int16 => "i2"
  | uint16 => "u2"
  | int32 => "i4"
  | uint32 => "u4"
  | int64 => "i8"
  | uint64 => "u8"
  | single => "f4"
  | double => "f8"
  | string => "string"
  | t => t.fullName

def bits? : Ty → Option Nat
  | bool | int8 | uint8 => some 8
  | char | int16 | uint16 => some 16
  | int32 | uint32 | enum _ => some 32
  | int64 | uint64 => some 64
  | _ => none

/-- Integral types that are read as two's complement. -/
def isSigned : Ty → Bool
  | int8 | int16 | int32 | int64 | enum _ => true
  | _ => false

def isIntegral (t : Ty) : Bool := t.bits?.isSome

def isFloat : Ty → Bool
  | single | double => true
  | _ => false

/-- Types whose values are object identities. -/
def isReference : Ty → Bool
  | object _ | array _ => true
  | _ => false

def isStruct : Ty → Bool
  | struct _ => true
  | _ => false

def isVoid : Ty → Bool
  | void => true
  | _ => false

end Ty

end PlayerPaths.IL
