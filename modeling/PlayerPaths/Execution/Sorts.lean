import PlayerPaths.Formula.Basic
import PlayerPaths.IL.Program

/-!
# Sorts of IL types

Integral types are bit vectors of their width, floats are reals, strings are strings, references
are object identities, and value types are records of their instance fields.
-/

namespace PlayerPaths

open IL

/-- The records of the value types of a program, by name. -/
structure Sorts where
  records : Std.TreeMap String Record := ∅

namespace Sorts

def sort (s : Sorts) : Ty → Result SmtSort
  | .void => throw (.sort "void has no sort")
  | .single | .double => return .real
  | .string => return .string
  | .object _ | .array _ => return .int
  | .struct name =>
    match s.records[name]? with
    | some r => return r.sort
    | none => throw (.typeNotFound name)
  | t =>
    match t.bits? with
    | some width => return .bitVec width
    | none => throw (.sort ("no sort for " ++ t.text))

/-- Add the record of a value type and of those inside it, with a limit on the nesting. -/
def addRecord (p : Program) : Nat → Sorts → String → Result (Sorts × Record)
  | 0, s, name =>
    match s.records[name]? with
    | some r => return (s, r)
    | none => throw (.unsupported ("recursive value type " ++ name))
  | depth + 1, s, name =>
    match s.records[name]? with
    | some r => return (s, r)
    | none => do
      let definition ← p.requireType name
      let (s, fields) ← definition.instanceFields.foldlM (fun (s, fields) f => do
        match f.type with
        | .struct inner =>
          let (s, r) ← addRecord p depth s inner
          return (s, fields ++ [(f.name, r.sort)])
        | t => return (s, fields ++ [(f.name, ← s.sort t)]))
        ((s, []) : Sorts × List (String × SmtSort))
      let r : Record := ⟨name, fields⟩
      return (⟨s.records.insert name r⟩, r)

/-- The sorts of a program. Value types that contain each other at most once nest no deeper than
there are types. -/
def ofProgram (p : Program) : Result Sorts :=
  let structs := p.typeList.filter fun t => t.kind = .struct
  structs.foldlM (fun s t => do return (← addRecord p (p.types.size + 1) s t.name).1) {}

end Sorts

end PlayerPaths
