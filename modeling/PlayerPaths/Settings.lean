import PlayerPaths.IL.Json

/-!
# Settings

What an analysis run needs to know about the application: the names of the input API, the limits
of the symbolic execution, and what to leave out.
-/

namespace PlayerPaths

open IL Json

/-- The sign cases that a read of an axis is split into. -/
inductive AxisCase where
  | positive | negative | zero
  deriving DecidableEq, Repr

def AxisCase.name : AxisCase → String
  | positive => "Positive"
  | negative => "Negative"
  | zero => "Zero"

def AxisCase.ofJson? : Json → Option AxisCase :=
  word? ([.positive, .negative, .zero].map fun (c : AxisCase) => (c.name, c))

/-- The names of the input polling API. -/
structure InputApi where
  /-- The type that declares the polling methods. -/
  inputType : String := "UnityEngine.Input"
  /-- The type that reports the input of the frame before. -/
  previousInputType : String := "ActionAnalysis.PreviousInput"
  deriving DecidableEq, Repr

namespace InputApi

/-- A polling method: a method of the input type that returns a value. -/
def isInput (api : InputApi) (m : MethodRef) : Bool :=
  m.declaringType == api.inputType && !m.returnType.isVoid

def isPreviousInput (api : InputApi) (m : MethodRef) : Bool :=
  m.declaringType == api.previousInputType

def polls (api : InputApi) (e : Expression) : Bool :=
  e.any fun part => part.asCall?.any fun c => api.isInput c.method

/-- The methods that an analysis of an entry point looks into: those with a body in the module of
the entry point that are no polling methods. -/
def entersBody (api : InputApi) (p : Program) (entry : Method) (m : MethodRef) : Bool :=
  !api.isInput m && (p.resolve? m).any fun d => d.hasBody && d.moduleName == entry.moduleName

end InputApi

structure AnalysisOptions where
  solverTimeout : Option Nat := none
  /-- Columns and rows that the screen is split into for the mouse position. -/
  gridWidth : Nat := 4
  gridHeight : Nat := 4
  axisPartition : List AxisCase := [.positive, .negative, .zero]
  /-- More states than this abort an entry point. -/
  maxStates : Nat := 4096
  /-- More steps than this in one state abort an entry point. -/
  maxSteps : Nat := 100000
  inputApi : InputApi := {}
  deriving DecidableEq, Repr

structure Settings where
  searchDirectories : List String := []
  ignoredNamespaces : List String := []
  ignoredClasses : List String := []
  /-- Also compute the input slice. -/
  slicing : Bool := false
  analysis : AnalysisOptions := {}
  deriving DecidableEq, Repr

namespace Settings

def inputApi (s : Settings) : InputApi := s.analysis.inputApi

/-- A type that is left out, by its name or its namespace. -/
def ignores (s : Settings) (typeName : String) : Bool :=
  s.ignoredClasses.contains typeName ||
    s.ignoredNamespaces.any fun ns => (ns ++ ".").toList.isPrefixOf typeName.toList

end Settings

/-! ## JSON -/

def InputApi.ofJson? (j : Json) : Option InputApi := do
  let fields ← fieldsOrDefault? ["input_type", "previous_input_type"] j
  let d : InputApi := {}
  return { inputType := ← fields.getOr "input_type" string? d.inputType
           previousInputType :=
             ← fields.getOr "previous_input_type" string? d.previousInputType }

def InputApi.toJson (api : InputApi) : Json :=
  .obj [("input_type", .str api.inputType), ("previous_input_type", .str api.previousInputType)]

def AnalysisOptions.ofJson? (j : Json) : Option AnalysisOptions := do
  let fields ← fieldsOrDefault? ["solver_timeout_ms", "grid_width", "grid_height",
    "axis_partition", "max_states", "max_steps_per_state", "input_api"] j
  let d : AnalysisOptions := {}
  return { solverTimeout := ← fields.getOptional "solver_timeout_ms" nat?
           gridWidth := ← fields.getOr "grid_width" nat32? d.gridWidth
           gridHeight := ← fields.getOr "grid_height" nat32? d.gridHeight
           axisPartition := ← fields.getOr "axis_partition" (list? AxisCase.ofJson?) d.axisPartition
           maxStates := ← fields.getOr "max_states" nat? d.maxStates
           maxSteps := ← fields.getOr "max_steps_per_state" nat? d.maxSteps
           inputApi := ← fields.getOr "input_api" InputApi.ofJson? d.inputApi }

def AnalysisOptions.toJson (o : AnalysisOptions) : Json :=
  .obj [("solver_timeout_ms", .ofNat? o.solverTimeout), ("grid_width", .int o.gridWidth),
    ("grid_height", .int o.gridHeight),
    ("axis_partition", .strings (o.axisPartition.map AxisCase.name)),
    ("max_states", .int o.maxStates), ("max_steps_per_state", .int o.maxSteps),
    ("input_api", o.inputApi.toJson)]

def Settings.ofJson? (j : Json) : Option Settings := do
  let fields ← fieldsOrDefault? ["assembly_search_directories", "ignore_namespaces",
    "ignore_classes", "slicing", "analysis"] j
  return { searchDirectories := ← fields.getOr "assembly_search_directories" (list? string?) []
           ignoredNamespaces := ← fields.getOr "ignore_namespaces" set? []
           ignoredClasses := ← fields.getOr "ignore_classes" set? []
           slicing := ← fields.getOr "slicing" bool? false
           analysis := ← fields.getOr "analysis" AnalysisOptions.ofJson? {} }

def Settings.toJson (s : Settings) : Json :=
  .obj [("assembly_search_directories", .strings s.searchDirectories),
    ("ignore_namespaces", .strings s.ignoredNamespaces),
    ("ignore_classes", .strings s.ignoredClasses), ("slicing", .bool s.slicing),
    ("analysis", s.analysis.toJson)]

end PlayerPaths
