import PlayerPaths.Flow.Solution

/-!
# Input taint

Which values depend on the input? Within a method, a set of tainted variables flows along the
control flow graph. Three sets are shared by all methods and only grow: methods that return a
tainted value, fields that a tainted value was stored to, and parameters that a tainted argument
was passed to. The methods are solved again until the shared sets are closed under these rules.
-/

namespace PlayerPaths

open IL

/-- A consequence for the sets that all methods share. -/
inductive TaintFact where
  | method (signature : String)
  | field (signature : String)
  | parameter (signature name : String)
  deriving DecidableEq, Repr

structure SharedTaint where
  methods : List String := []
  fields : List String := []
  parameters : Std.TreeMap String (List String) := ∅

namespace SharedTaint

def parametersOf (t : SharedTaint) (signature : String) : List String :=
  t.parameters.getD signature []

def has (t : SharedTaint) : TaintFact → Bool
  | .method signature => t.methods.contains signature
  | .field signature => t.fields.contains signature
  | .parameter signature name => (t.parametersOf signature).contains name

def add (t : SharedTaint) : TaintFact → SharedTaint
  | .method signature => { t with methods := Sorted.insert compare signature t.methods }
  | .field signature => { t with fields := Sorted.insert compare signature t.fields }
  | .parameter signature name =>
    let names := Sorted.insert compare name (t.parametersOf signature)
    { t with parameters := t.parameters.insert signature names }

end SharedTaint

/-- The instructions that depend on input, by method, and the shared taint. -/
structure TaintResult where
  points : Std.TreeMap String (List Location) := ∅
  shared : SharedTaint := {}

namespace TaintResult

def isTainted (r : TaintResult) (signature : String) (l : Location) : Bool :=
  (r.points.getD signature []).contains l

def same (r s : TaintResult) : Bool :=
  r.points.toList == s.points.toList && r.shared.methods == s.shared.methods &&
    r.shared.fields == s.shared.fields &&
    r.shared.parameters.toList == s.shared.parameters.toList

end TaintResult

namespace Scope

/-- An expression depends on input: it polls, calls a tainted method, or reads a tainted field,
parameter or variable. -/
def taints (s : Scope) (t : SharedTaint) (signature : String) (names : List String)
    (e : Expression) : Bool :=
  s.api.polls e || e.callsMethod t.methods.contains || e.readsField t.fields.contains ||
    e.readsVariable (t.parametersOf signature).contains || e.readsVariable names.contains

/-- A stored value depends on input. A call of an analysed method only does through what it
returns. -/
def taintsStore (s : Scope) (t : SharedTaint) (signature : String) (names : List String) :
    Expression → Bool
  | e@(.call method _) =>
    if s.enters method then t.methods.contains method.signature
    else s.taints t signature names e
  | e => s.taints t signature names e

def taintsOperation (s : Scope) (t : SharedTaint) (signature : String) (names : List String)
    (o : Operation) : Bool :=
  o.expressions.any (s.taints t signature names) ||
    match o with
    | .call c => s.api.isInput c.method || t.methods.contains c.method.signature
    | _ => false

/-- The flow of tainted variables: a store taints its variable, or clears it. -/
def taintProblem (s : Scope) (t : SharedTaint) (m : FlowMethod) : FlowProblem (List String) where
  join := Sorted.union compare
  transfer n state :=
    let state := state.getD []
    match m.operation? n with
    | some (.store v value) =>
      let rest := state.filter (· ≠ v.name)
      if s.taintsStore t m.signature state value then Sorted.insert compare v.name rest else rest
    | _ => state
  height := m.cfg.graph.vertexCount

/-- The instructions of a method with the variables that are tainted before them. -/
def taintedBefore (s : Scope) (t : SharedTaint) (m : FlowMethod) :
    Result (List (Location × Operation × List String)) := do
  let problem := s.taintProblem t m
  let out ← problem.solve m.cfg .forward
  return m.instructions.map fun (i, l, o) => (l, o, (problem.into m.cfg out i).getD [])

/-- What a statement contributes to the shared taint, given which expressions are tainted. -/
def consequences (analysed : Std.TreeMap String Method) (tainted : Expression → Bool)
    (signature : String) (o : Operation) : List TaintFact :=
  let stored := match o with
    | .leave (some value) => if tainted value then [.method signature] else []
    | .storeField _ f value | .storeStatic f value =>
      if tainted value then [.field f.signature] else []
    | _ => []
  let passed := o.calls.flatMap fun c =>
    match analysed[c.method.signature]? with
    | none => []
    | some callee => c.arguments.zipIdx.filterMap fun (argument, i) =>
      if tainted argument then
        some (TaintFact.parameter c.method.signature
          ((c.parameterName? i (some callee)).getD "this"))
      else none
  stored ++ passed

def analysed (methods : List FlowMethod) : Std.TreeMap String Method :=
  .ofList (methods.map fun m => (m.signature, m.method))

/-- What the rules say about the shared taint, when it is as given. -/
def taintFacts (s : Scope) (methods : List FlowMethod) (t : SharedTaint) :
    Result (List TaintFact) := do
  let facts ← methods.mapM fun m => do
    return (← s.taintedBefore t m).flatMap fun (_, o, names) =>
      consequences (analysed methods) (s.taints t m.signature names) m.signature o
  return facts.flatten

/-- Everything that the rules could ever say. -/
def possibleFacts (methods : List FlowMethod) : List TaintFact :=
  methods.flatMap fun m => m.instructions.flatMap fun (_, _, o) =>
    consequences (analysed methods) (fun _ => true) m.signature o

/-- Add what follows from the shared taint until nothing new does. -/
def closeTaint (s : Scope) (methods : List FlowMethod) : Nat → SharedTaint → Result SharedTaint
  | 0, t => return t
  | fuel + 1, t => do
    let facts ← s.taintFacts methods t
    if facts.all t.has then return t
    s.closeTaint methods fuel (facts.foldl SharedTaint.add t)

def taintedPoints (s : Scope) (t : SharedTaint) (m : FlowMethod) : Result (List Location) := do
  let points := (← s.taintedBefore t m).filterMap fun (l, o, names) =>
    if s.taintsOperation t m.signature names o then some l else none
  return Sorted.ofList Location.order points

/-- The taint analysis, from given shared taint on. Every round but the last adds one of the
possible facts. -/
def taintFrom (s : Scope) (seed : SharedTaint) : Result TaintResult := do
  let methods ← s.flowMethods
  let shared ← s.closeTaint methods ((possibleFacts methods).length + 1) seed
  let points ← methods.mapM fun m => return (m.signature, ← s.taintedPoints shared m)
  return { points := .ofList points, shared }

def taint (s : Scope) : Result TaintResult := s.taintFrom {}

end Scope

end PlayerPaths
