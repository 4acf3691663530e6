import PlayerPaths.Calls.Reachable
import PlayerPaths.Execution.InputPolicy
import PlayerPaths.Execution.Machine
import PlayerPaths.Input.LeadsTo
import PlayerPaths.Live.CompiledPath
import PlayerPaths.Report

/-!
# Analysing an application

An entry point is analysed in three steps: find the instructions that depend on input, execute
the entry point symbolically along the branches that lead to input, and compile the conditions of
the paths that return. A run does that for every entry point.
-/

namespace PlayerPaths

open IL

/-- The application to analyse, and what to analyse it with. -/
structure Analysis where
  program : Program
  settings : Settings := {}
  solver : Solver
  registry : Registry := {}

structure EntryPointAnalysis where
  report : EntryPointReport
  /-- The compiled paths, in the order of their numbers. -/
  paths : List CompiledPath := []

namespace Analysis

def scope (a : Analysis) (entry : Method) : Scope := ⟨a.program, entry, a.settings.inputApi⟩

/-- The states in which the execution of an entry point ends. -/
def states (a : Analysis) (entry : Method) : Result (List InputState) := do
  let s := a.scope entry
  let leads ← s.leadsToInput (← s.taint)
  let c ← Context.make a.program entry a.settings.analysis a.solver
  Machine.run ⟨c, .input c leads⟩

def addPath (a : Analysis) (result : EntryPointAnalysis) (s : InputState) :
    Result EntryPointAnalysis := do
  let index := result.paths.length + 1
  let env : Environment := ⟨s.calls, a.registry, a.settings.inputApi⟩
  let path ← env.compile s.condition
  let record ← s.record result.report.method index path.warnings
  let warnings := path.warnings.map fun w => s!"path {index}: {w}"
  let report := { result.report with
    paths := result.report.paths ++ [record]
    warnings := result.report.warnings ++ warnings }
  return { report, paths := result.paths ++ [path] }

def addState (a : Analysis) (result : EntryPointAnalysis) (s : InputState) :
    Result EntryPointAnalysis :=
  match s.status with
  | .halted => a.addPath result s
  | .aborted =>
    return { result with report.aborted := result.report.aborted + 1 }
  | .running => throw (.custom ("a state of " ++ result.report.method ++ " is still running"))

def analyzeEntryPoint (a : Analysis) (entry : Method) : Result EntryPointAnalysis := do
  let states ← a.states entry
  states.foldlM a.addState { report := { method := entry.signature } }

/-- Add the result of an entry point, or the reason why there is none. -/
def addEntryPoint (a : Analysis) (report : Report) (entry : Method) : Result Report := do
  match ← Result.settle (a.analyzeEntryPoint entry) with
  | .ok result => return { report with entryPoints := report.entryPoints ++ [result.report] }
  | .error e =>
    let skipped := ⟨entry.signature, e.message⟩
    return { report with skipped := report.skipped ++ [skipped] }

def addSlice (a : Analysis) (report : Report) (entry : Method) : Result Report := do
  match ← Result.settle (a.scope entry).slice with
  | .ok slice => return { report with slice := report.slice.map fun s => s.merge slice }
  | .error e =>
    let warning := "no slice for " ++ entry.signature ++ ": " ++ e.message
    return { report with warnings := report.warnings ++ [warning] }

/-- Analyse every entry point, and slice the program if that is asked for. -/
def run (a : Analysis) : Result Report := do
  let entries := entryPoints a.program a.settings
  let report ← entries.foldlM a.addEntryPoint {}
  if a.settings.slicing then
    entries.foldlM a.addSlice { report with slice := some Slice.empty }
  else return report

end Analysis

end PlayerPaths
