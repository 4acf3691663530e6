import PlayerPaths.Calls.Reachable
import PlayerPaths.Flow.Cfg

/-!
# Data flow equations

A `FlowProblem` says how states are joined and what a node does to the state that flows into it.
`FlowProblem.solve` computes the least states that satisfy the equations
`state n = transfer n (join of the states of n's sources)` with a worklist. An analysis of an entry
point solves such equations on the graphs of all methods that it enters (`Scope.flowMethods`).
-/

namespace PlayerPaths

/-- Which way states flow along the edges. -/
inductive Direction where
  | forward
  | backward
  deriving DecidableEq, Repr

/-- A data flow problem over states of type `S`. -/
structure FlowProblem (S : Type) where
  /-- The least state above both. -/
  join : S → S → S
  /-- The state that flows out of a node. Nothing has flowed in yet for `none`. -/
  transfer : FlowNode → Option S → S
  /-- No increasing chain of states is longer. It bounds the number of steps. -/
  height : Nat

/-- The states found so far, by node number. -/
abbrev FlowStates (S : Type) := Std.TreeMap Nat S

namespace FlowProblem

variable {S : Type}

/-- The numbers that states come from. -/
def sources (c : Cfg) : Direction → Nat → List Nat
  | .forward => Graph.neighbours c.graph.predecessorsOf
  | .backward => Graph.neighbours c.graph.successorsOf

/-- The numbers that states go to. -/
def sinks (c : Cfg) : Direction → Nat → List Nat
  | .forward => Graph.neighbours c.graph.successorsOf
  | .backward => Graph.neighbours c.graph.predecessorsOf

/-- The join of the states that are known at some nodes. -/
def joinAt (p : FlowProblem S) (states : FlowStates S) (indices : List Nat) : Option S :=
  (indices.filterMap fun i => states[i]?).foldl (fun joined s =>
    match joined with
    | none => some s
    | some t => some (p.join t s)) none

/-- Take a node off the worklist, and add its sinks when its state changes. -/
def iterate [DecidableEq S] (p : FlowProblem S) (c : Cfg) (d : Direction) :
    (fuel : Nat) → (queue : List Nat) → FlowStates S → FlowStates S
  | 0, _, states => states
  | _, [], states => states
  | fuel + 1, i :: queue, states =>
    match c.graph.vertices[i]? with
    | none => iterate p c d fuel queue states
    | some n =>
      let out := p.transfer n (p.joinAt states (sources c d i))
      if states[i]? = some out then iterate p c d fuel queue states
      else
        let new := (sinks c d i).filter (· ∉ queue)
        iterate p c d fuel (queue ++ new) (states.insert i out)

/-- The order in which nodes are looked at first: pre-order from the head, reversed against the
flow, then everything that the head does not reach. -/
def schedule (c : Cfg) (d : Direction) : Result (List Nat) := do
  match c.index? (← c.head) with
  | none => return []
  | some i =>
    let order ← c.graph.preOrder i
    let order := match d with
      | .forward => order
      | .backward => order.reverse
    return order ++ c.graph.vertices.keys.filter (· ∉ order)

/-- Enough steps: every node once, and every edge once per change of the state at its source. -/
def stepBound (p : FlowProblem S) (c : Cfg) : Nat :=
  c.graph.vertexCount + (p.height + 1) * c.graph.edgeCount

/-- The least solution: the state that flows out of every node. -/
def solve [DecidableEq S] (p : FlowProblem S) (c : Cfg) (d : Direction) :
    Result (FlowStates S) := do
  return p.iterate c d (p.stepBound c) (← schedule c d) ∅

/-- The state that flows into a node of a solved forward problem. -/
def into (p : FlowProblem S) (c : Cfg) (states : FlowStates S) (i : Nat) : Option S :=
  p.joinAt states (sources c .forward i)

end FlowProblem

/-! ## The graphs of an analysis -/

open IL

structure FlowMethod where
  method : Method
  body : Body
  cfg : Cfg

namespace FlowMethod

def signature (m : FlowMethod) : String := m.method.signature

/-- The statement of a node; sentinels have none. -/
def operation? (m : FlowMethod) (n : FlowNode) : Option Operation := do
  return (← m.body.instruction? (← n.location?)).operation

/-- The nodes that are instructions, with their numbers, locations and statements. -/
def instructions (m : FlowMethod) : List (Nat × Location × Operation) :=
  m.cfg.graph.vertexList.filterMap fun (i, n) => do
    return (i, ← n.location?, ← m.operation? n)

end FlowMethod

def Scope.flowMethods (s : Scope) : Result (List FlowMethod) :=
  s.methods.mapM fun method => do
    return { method, body := ← method.requireBody, cfg := ← Cfg.ofMethod method }

end PlayerPaths
