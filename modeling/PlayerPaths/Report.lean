import PlayerPaths.Dependence.Slice
import PlayerPaths.Execution.State
import PlayerPaths.Json.Reader
import PlayerPaths.Json.Writer
import PlayerPaths.SmtLib.Printer

/-!
# Reports

The results of a run, as records of plain texts. Formulas are scripts and terms of the solver's
language, so that a report can be read without this library. Reports are stored as JSON, with
`Report.toText` and `Report.ofText?`.
-/

namespace PlayerPaths

open Json

/-- A call on a path that was not executed. -/
structure CallRecord where
  id : Nat
  /-- The signature of the method. -/
  method : String
  arguments : List String
  deriving DecidableEq, Repr

/-- One path through an entry point. -/
structure PathRecord where
  /-- The signature of the entry point. -/
  method : String
  index : Nat
  status : Status
  /-- The path condition as a script. -/
  condition : String
  calls : List CallRecord
  warnings : List String := []
  deriving DecidableEq, Repr

/-- The paths of an entry point. -/
structure EntryPointReport where
  method : String
  paths : List PathRecord := []
  /-- The number of states that were aborted. -/
  aborted : Nat := 0
  warnings : List String := []
  deriving DecidableEq, Repr

/-- An entry point without result. -/
structure SkippedEntryPoint where
  method : String
  reason : String
  deriving DecidableEq, Repr

structure Report where
  entryPoints : List EntryPointReport := []
  skipped : List SkippedEntryPoint := []
  warnings : List String := []
  /-- The union of the input slices. -/
  slice : Option Slice := none

namespace Report

def entryPoint? (r : Report) (method : String) : Option EntryPointReport :=
  r.entryPoints.find? fun e => e.method == method

def paths (r : Report) : List PathRecord := r.entryPoints.flatMap EntryPointReport.paths

end Report

def State.record {D : Type} (s : State D) (method : String) (index : Nat)
    (warnings : List String) : Result PathRecord := do
  let calls ← s.calls.toList.mapM fun (id, call) => do
    return { id, method := call.method.signature, arguments := ← Formula.texts call.arguments }
  let condition ← SmtLib.script s.condition
  return { method, index, status := s.status, condition, calls, warnings }

/-! ## Writing -/

namespace CallRecord

def toJson (c : CallRecord) : Json :=
  .obj [("id", .int c.id), ("method", .str c.method), ("arguments", .strings c.arguments)]

end CallRecord

namespace PathRecord

def toJson (p : PathRecord) : Json :=
  .obj ([("method", .str p.method), ("path_index", .int p.index), ("status", .str p.status.name),
    ("condition", .str p.condition), ("symcalls", .arr (p.calls.map CallRecord.toJson))] ++
    if p.warnings.isEmpty then [] else [("warnings", .strings p.warnings)])

end PathRecord

namespace EntryPointReport

def toJson (e : EntryPointReport) : Json :=
  .obj [("method", .str e.method), ("paths", .arr (e.paths.map PathRecord.toJson)),
    ("aborted", .int e.aborted), ("warnings", .strings e.warnings)]

end EntryPointReport

def SkippedEntryPoint.toJson (s : SkippedEntryPoint) : Json :=
  .obj [("method", .str s.method), ("reason", .str s.reason)]

def Slice.toJson (s : Slice) : Json :=
  .obj [("methods", .obj (s.methods.toList.map fun (m, offsets) => (m, .numbers offsets)))]

namespace Report

def toJson (r : Report) : Json :=
  .obj ([("entry_points", .arr (r.entryPoints.map EntryPointReport.toJson)),
    ("skipped", .arr (r.skipped.map SkippedEntryPoint.toJson)),
    ("warnings", .strings r.warnings)] ++
    match r.slice with
    | some s => [("slice", s.toJson)]
    | none => [])

def toText (r : Report) : String := r.toJson.pretty

end Report

/-! ## Reading -/

def Status.ofJson? : Json → Option Status :=
  word? ([.running, .halted, .aborted].map fun (s : Status) => (s.name, s))

def CallRecord.ofJson? (j : Json) : Option CallRecord := do
  let fields ← fields? ["id", "method", "arguments"] j
  return { id := ← fields.get "id" nat?
           method := ← fields.get "method" string?
           arguments := ← fields.get "arguments" (list? string?) }

def PathRecord.ofJson? (j : Json) : Option PathRecord := do
  let fields ← fieldsOrDefault? ["method", "path_index", "status", "condition", "symcalls",
    "warnings"] j
  return { method := ← fields.get "method" string?
           index := ← fields.get "path_index" nat?
           status := ← fields.get "status" Status.ofJson?
           condition := ← fields.get "condition" string?
           calls := ← fields.get "symcalls" (list? CallRecord.ofJson?)
           warnings := ← fields.getOr "warnings" (list? string?) [] }

def EntryPointReport.ofJson? (j : Json) : Option EntryPointReport := do
  let fields ← fields? ["method", "paths", "aborted", "warnings"] j
  return { method := ← fields.get "method" string?
           paths := ← fields.get "paths" (list? PathRecord.ofJson?)
           aborted := ← fields.get "aborted" nat?
           warnings := ← fields.get "warnings" (list? string?) }

def SkippedEntryPoint.ofJson? (j : Json) : Option SkippedEntryPoint := do
  let fields ← fields? ["method", "reason"] j
  return { method := ← fields.get "method" string?
           reason := ← fields.get "reason" string? }

def Slice.ofJson? (j : Json) : Option Slice := do
  let fields ← fields? ["methods"] j
  let methods ← fields.get "methods" (map? (list? nat32?))
  return ⟨.ofList (methods.map fun (m, offsets) => (m, Sorted.ofList compare offsets))⟩

namespace Report

def ofJson? (j : Json) : Option Report := do
  let fields ← fieldsOrDefault? ["entry_points", "skipped", "warnings", "slice"] j
  return { entryPoints := ← fields.get "entry_points" (list? EntryPointReport.ofJson?)
           skipped := ← fields.get "skipped" (list? SkippedEntryPoint.ofJson?)
           warnings := ← fields.get "warnings" (list? string?)
           slice := ← fields.getOptional "slice" Slice.ofJson? }

def ofText? (text : String) : Option Report := do ofJson? (← Json.read? text)

end Report

end PlayerPaths
