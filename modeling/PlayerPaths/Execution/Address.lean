import PlayerPaths.IL.Expression
import PlayerPaths.Number.Word

/-!
# Addresses

Every slot of symbolic memory has an address with a textual form, and the value of a slot that
nobody wrote is a variable with that text as its name. So path conditions mention addresses, and
reading them back tells what a variable stands for.

An address is a root and suffixes, separated by colons. The value of a reference slot is the
variable with the suffix `heapid`, and the fields of the object have the suffix `instancefield`.
-/

namespace PlayerPaths

open IL

inductive FrameSlot where
  | local (name : String)
  | argument (index : Nat)
  | this
  | stack (name : String)
  deriving DecidableEq, Repr

/-- What an address starts from. -/
inductive Root where
  | frame (depth : Nat) (slot : FrameSlot)
  | staticField (signature : String)
  /-- The result of a call that was not executed. -/
  | symcall (id : Nat)
  /-- Engine state with a name of its own. -/
  | special (name : String)
  /-- An object that was allocated during the execution. -/
  | heap (id : Nat)
  deriving DecidableEq, Repr

/-- A step from an address to another one. -/
inductive Suffix where
  | field (name : String)
  | length
  | heapId
  deriving DecidableEq, Repr

structure Address where
  root : Root
  suffixes : List Suffix := []
  deriving DecidableEq, Repr

def FrameSlot.ofVariable (v : Variable) : FrameSlot :=
  match v.kind with
  | .local => .local v.name
  | .parameter i => .argument i
  | .this => .this
  | .stackSlot => .stack v.name

namespace Address

def ofVariable (depth : Nat) (v : Variable) : Address := ⟨.frame depth (.ofVariable v), []⟩

def argument (depth index : Nat) : Address := ⟨.frame depth (.argument index), []⟩

def this (depth : Nat) : Address := ⟨.frame depth .this, []⟩

def ofStatic (f : FieldRef) : Address := ⟨.staticField f.signature, []⟩

def symcall (id : Nat) : Address := ⟨.symcall id, []⟩

def special (name : String) : Address := ⟨.special name, []⟩

def heap (id : Nat) : Address := ⟨.heap id, []⟩

def extend (a : Address) (s : Suffix) : Address := { a with suffixes := a.suffixes ++ [s] }

def field (a : Address) (name : String) : Address := a.extend (.field name)

def length (a : Address) : Address := a.extend .length

/-- The identity of the object at an address. -/
def heapId (a : Address) : Address := a.extend .heapId

/-- The object with an identity: the address without its last suffix `heapid`. -/
def object? (a : Address) : Option Address :=
  match a.suffixes.getLast? with
  | some .heapId => some { a with suffixes := a.suffixes.dropLast }
  | _ => none

/-- The address of an object that was allocated. -/
def isHeap (a : Address) : Bool :=
  match a.root with
  | .heap _ => true
  | _ => false

end Address

/-! ## Text -/

def FrameSlot.segments : FrameSlot → List String
  | .local name => ["local", name]
  | .argument index => ["arg", toString index]
  | .this => ["this"]
  | .stack name => ["stack", name]

def Root.segments : Root → List String
  | .frame depth slot => "frame" :: toString depth :: slot.segments
  | .staticField signature => ["staticfield", signature]
  | .symcall id => ["symcall", toString id]
  | .special name => ["special", name]
  | .heap id => ["heap", toString id]

def Suffix.segments : Suffix → List String
  | .field name => ["instancefield", name]
  | .length => ["length"]
  | .heapId => ["heapid"]

namespace Address

def segments (a : Address) : List String := a.root.segments ++ a.suffixes.flatMap Suffix.segments

def text (a : Address) : String := ":".intercalate a.segments

/-- What the texts of all addresses of a frame begin with. -/
def frameStart (depth : Nat) : String := "frame:" ++ toString depth ++ ":"

def number? : String → Option Nat := Text.readNumeral? Word.limit

/-- The root that segments begin with, and the segments behind it. -/
def readRoot? : List String → Option (Root × List String)
  | "frame" :: depth :: rest => do
    let depth ← number? depth
    match rest with
    | "local" :: name :: rest => return (.frame depth (.local name), rest)
    | "stack" :: name :: rest => return (.frame depth (.stack name), rest)
    | "arg" :: index :: rest => return (.frame depth (.argument (← number? index)), rest)
    | "this" :: rest => return (.frame depth .this, rest)
    | _ => none
  | "staticfield" :: signature :: rest => some (.staticField signature, rest)
  | "symcall" :: id :: rest => do return (.symcall (← number? id), rest)
  | "special" :: name :: rest => some (.special name, rest)
  | "heap" :: id :: rest => do return (.heap (← number? id), rest)
  | _ => none

def readSuffixes? : List String → Option (List Suffix)
  | [] => some []
  | "instancefield" :: name :: rest => (readSuffixes? rest).map (.field name :: ·)
  | "length" :: rest => (readSuffixes? rest).map (.length :: ·)
  | "heapid" :: rest => (readSuffixes? rest).map (.heapId :: ·)
  | _ => none

def read? (s : String) : Option Address := do
  let (root, rest) ← readRoot? ((Text.pieces ':' s.toList).map String.ofList)
  return { root, suffixes := ← readSuffixes? rest }

/-- The address that a text spells, or an error that names the text. -/
def read (s : String) : Result Address :=
  match read? s with
  | some a => return a
  | none => throw (.parse ("invalid address " ++ s))

end Address

end PlayerPaths
