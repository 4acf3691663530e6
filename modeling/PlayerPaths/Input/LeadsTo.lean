import PlayerPaths.Input.Taint

/-!
# What leads to input

An instruction leads to input when it depends on input, when it calls a method with an instruction
that leads to input, or when one of its successors leads to input.
-/

namespace PlayerPaths

open IL

/-- The instructions that lead to input, by method. -/
structure LeadsResult where
  points : Std.TreeMap String (List Location) := ∅

namespace LeadsResult

def leads (r : LeadsResult) (signature : String) (l : Location) : Bool :=
  (r.points.getD signature []).contains l

/-- Some instruction of a method leads to input, so calling the method does. -/
def methodLeads (r : LeadsResult) (signature : String) : Bool :=
  !(r.points.getD signature []).isEmpty

def methods (r : LeadsResult) : List String :=
  (r.points.toList.filter fun (_, points) => !points.isEmpty).map Prod.fst

end LeadsResult

namespace Scope

/-- The flow of "leads to input", against the edges. -/
def leadsProblem (taint : TaintResult) (leading : List String) (m : FlowMethod) :
    FlowProblem Bool where
  join := or
  transfer n state :=
    let here := match n.location?, m.operation? n with
      | some l, some o => taint.isTainted m.signature l ||
          o.calls.any fun c => leading.contains c.method.signature
      | _, _ => false
    state.getD false || here
  height := 1

/-- The instructions of every method that lead to input, when the given methods do. -/
def leadsRound (taint : TaintResult) (methods : List FlowMethod) (leading : List String) :
    Result LeadsResult := do
  let points ← methods.mapM fun m => do
    let states ← (leadsProblem taint leading m).solve m.cfg .backward
    let points := m.cfg.graph.vertexList.filterMap fun (i, n) =>
      if states.getD i false then n.location? else none
    return (m.signature, Sorted.ofList Location.order points)
  return ⟨.ofList points⟩

/-- Solve the methods again until the set of methods that lead to input stays the same. -/
def closeLeads (taint : TaintResult) (methods : List FlowMethod) :
    Nat → List String → Result LeadsResult
  | 0, leading => leadsRound taint methods leading
  | fuel + 1, leading => do
    let result ← leadsRound taint methods leading
    if result.methods = leading then return result
    closeLeads taint methods fuel result.methods

/-- What leads to input. Every round but the last adds a method. -/
def leadsToInput (s : Scope) (taint : TaintResult) : Result LeadsResult := do
  let methods ← s.flowMethods
  closeLeads taint methods (methods.length + 1) []

end Scope

end PlayerPaths
