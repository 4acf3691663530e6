import PlayerPaths.Flow.Resolve
import PlayerPaths.Graph.Traversal
import PlayerPaths.Graph.Dot

/-!
# Control flow graphs

The nodes of a control flow graph are the real instructions of a method and the sentinels `entry`
and `exit`; `start` appears only in graphs that were augmented for control dependence. Nodes are
numbered in the order in which they were added, and the same graph reversed answers questions
about post-dominance.
-/

namespace PlayerPaths

open IL

/-- An instruction, told apart by its method, its location and its listing. -/
structure InstructionNode where
  method : String
  location : Location
  text : String
  deriving DecidableEq, Repr

inductive FlowNode where
  | entry
  | exit
  | start
  | instruction (node : InstructionNode)
  deriving DecidableEq, Repr

def InstructionNode.order (a b : InstructionNode) : Ordering :=
  ((compare a.method b.method).then (a.location.order b.location)).then (compare a.text b.text)

namespace FlowNode

def location? : FlowNode → Option Location
  | instruction node => some node.location
  | _ => none

def isSentinel : FlowNode → Bool
  | instruction _ => false
  | _ => true

def text : FlowNode → String
  | entry => "entry"
  | exit => "exit"
  | start => "start"
  | instruction node => node.text

/-- The sentinels come first, then the instructions. -/
def rank : FlowNode → Nat
  | entry => 0
  | exit => 1
  | start => 2
  | instruction _ => 3

def order : FlowNode → FlowNode → Ordering
  | instruction a, instruction b => a.order b
  | a, b => compare a.rank b.rank

end FlowNode

structure Cfg where
  graph : Graph FlowNode Unit := Graph.empty

namespace Cfg

def empty : Cfg := {}

/-- The nodes in the order in which they were added. -/
def nodes (c : Cfg) : List FlowNode := c.graph.vertices.values

def index? (c : Cfg) (n : FlowNode) : Option Nat :=
  (c.graph.vertexList.find? fun (_, label) => label = n).map Prod.fst

def contains (c : Cfg) (n : FlowNode) : Bool := (c.index? n).isSome

def node (c : Cfg) (i : Nat) : Result FlowNode := c.graph.vertex i

def nodesAt (c : Cfg) (indices : List Nat) : List FlowNode :=
  indices.filterMap fun i => c.graph.vertices[i]?

/-- Add a node unless it is there, and give its number. -/
def addNode (c : Cfg) (n : FlowNode) : Nat × Cfg :=
  match c.index? n with
  | some i => (i, c)
  | none => (c.graph.vertexCount, ⟨c.graph.addVertex c.graph.vertexCount n⟩)

/-- Add an edge and its ends, unless they are there. -/
def addEdge (c : Cfg) (source target : FlowNode) : Cfg :=
  let (head, c) := c.addNode source
  let (tail, c) := c.addNode target
  if c.graph.hasEdge head tail then c else ⟨c.graph.addEdge head tail ()⟩

/-- The edges in the order of the numbers of their ends. -/
def edges (c : Cfg) : List (FlowNode × FlowNode) :=
  c.graph.edgeList.filterMap fun (head, tail, _) => do
    return (← c.graph.vertices[head]?, ← c.graph.vertices[tail]?)

def successors (c : Cfg) (n : FlowNode) : List FlowNode :=
  c.nodesAt (((c.index? n).map (Graph.neighbours c.graph.successorsOf)).getD [])

def predecessors (c : Cfg) (n : FlowNode) : List FlowNode :=
  c.nodesAt (((c.index? n).map (Graph.neighbours c.graph.predecessorsOf)).getD [])

def reverse (c : Cfg) : Cfg := ⟨c.graph.reverse⟩

/-- A node without predecessors. Sentinels win over instructions that nothing reaches. A graph in
which every node has a predecessor has no head. -/
def head (c : Cfg) : Result FlowNode :=
  let heads := c.graph.heads.map Prod.snd
  match (heads.find? FlowNode.isSentinel).or heads.head? with
  | some n => .ok n
  | none => .error (.fault .noHead)

/-- The nodes that a root reaches, in depth-first pre-order. -/
def preOrder (c : Cfg) (root : FlowNode) : Result (List FlowNode) :=
  match c.index? root with
  | some i => do return c.nodesAt (← c.graph.preOrder i)
  | none => .error (.custom (root.text ++ " is not in the graph"))

def dot (c : Cfg) : String :=
  c.graph.dot
    (fun n => { label := n.text, fill := if n.isSentinel then "#ccddff" else "#ffddcc" })
    (fun _ => {})

def instructionNode (m : Method) (b : Body) (l : Location) : Result FlowNode := do
  match (← b.block l.block).instructions[l.index]? with
  | some i => return .instruction ⟨m.signature, l, i.text⟩
  | none => throw (.instructionNotFound l.block l.index)

/-- The control flow graph of a method. The entry leads to the first instruction, an instruction
without successors leads to the exit, and an instruction that only leads to itself leads nowhere.
An empty body is an edge from the entry to the exit. -/
def ofMethod (m : Method) : Result Cfg := do
  let b ← m.requireBody
  let g ← InstructionGraph.ofBody b
  match g.first with
  | none => return empty.addEdge .entry .exit
  | some first =>
    let c := empty.addEdge .entry (← instructionNode m b first)
    g.steps.foldlM (fun c (l, successors) => do
      let source ← instructionNode m b l
      let targets ← successors.mapM (instructionNode m b)
      let c := (targets.filter (· ≠ source)).foldl (fun c target => c.addEdge source target) c
      return if successors.isEmpty then c.addEdge source .exit else c) c

end Cfg

end PlayerPaths
