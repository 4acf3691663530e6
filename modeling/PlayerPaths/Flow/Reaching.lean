import PlayerPaths.Flow.Solution

/-!
# Reaching definitions

A definition of a variable is a node that stores to it. It reaches another node when a path leads
there on which no other node stores to the variable.
-/

namespace PlayerPaths

open IL

structure Definition where
  variableName : String
  node : FlowNode
  deriving DecidableEq, Repr

namespace Definition

/-- Definitions are ordered by variable, then by node. -/
def order (a b : Definition) : Ordering :=
  (compare a.variableName b.variableName).then (a.node.order b.node)

def text (d : Definition) : String := "(" ++ d.node.text ++ ", " ++ d.variableName ++ ")"

end Definition

def storedVariable? (b : Body) (n : FlowNode) : Option Variable := do
  match (← b.instruction? (← n.location?)).operation with
  | .store v _ => some v
  | _ => none

/-- The flow of definitions: a store replaces the definitions of its variable. -/
def reachingProblem (b : Body) (c : Cfg) : FlowProblem (List Definition) where
  join := Sorted.union Definition.order
  transfer n state :=
    let state := state.getD []
    match storedVariable? b n with
    | some v =>
      Sorted.insert Definition.order ⟨v.name, n⟩ (state.filter fun d => d.variableName ≠ v.name)
    | none => state
  height := c.graph.vertexCount

/-- The definitions that reach each node of a method's graph, in the order of the nodes. -/
def reachingDefinitions (m : Method) (c : Cfg) : Result (List (FlowNode × List Definition)) := do
  let problem := reachingProblem (← m.requireBody) c
  let out ← problem.solve c .forward
  return c.graph.vertexList.map fun (i, n) => (n, (problem.into c out i).getD [])

end PlayerPaths
