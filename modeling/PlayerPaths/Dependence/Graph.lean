import PlayerPaths.Flow.Cfg

/-!
# Dependence graphs

Edges point from what is depended upon to what depends on it. One edge joins two nodes and carries
every kind of dependence between them.
-/

namespace PlayerPaths

/-- A node of a dependence graph. A method stands for its entry. -/
inductive DependenceNode where
  | method (signature : String)
  | instruction (node : InstructionNode)
  | field (signature : String)
  deriving DecidableEq, Repr

def DependenceNode.text : DependenceNode → String
  | method signature => "method " ++ signature
  | instruction node => node.method ++ ": " ++ node.text
  | field signature => "field " ++ signature

/-- Why a node depends on another one. -/
inductive DependenceKind where
  /-- A branch decides whether the instruction runs. -/
  | branch
  /-- A call site and its callee, either way. -/
  | call
  /-- A variable or parameter is read. -/
  | variable
  /-- A field is stored or loaded. -/
  | field
  deriving DecidableEq, Repr

namespace DependenceKind

def rank : DependenceKind → Nat
  | branch => 0
  | call => 1
  | «variable» => 2
  | field => 3

def order (a b : DependenceKind) : Ordering := compare a.rank b.rank

def name : DependenceKind → String
  | branch => "ControlDependenceBranch"
  | call => "ControlDependenceMethodCall"
  | «variable» => "DataDependenceVariable"
  | field => "DataDependenceField"

def color : DependenceKind → String
  | branch => "blue"
  | call => "red"
  | «variable» => "green"
  | field => "orange"

end DependenceKind

/-- A dependence graph; the label of an edge lists its kinds in order. -/
structure DependenceGraph where
  graph : Graph DependenceNode (List DependenceKind) := Graph.empty

namespace DependenceGraph

def empty : DependenceGraph := {}

/-- The nodes in the order in which they were added. -/
def nodes (g : DependenceGraph) : List DependenceNode := g.graph.vertices.values

def index? (g : DependenceGraph) (n : DependenceNode) : Option Nat :=
  (g.graph.vertexList.find? fun (_, label) => label = n).map Prod.fst

def contains (g : DependenceGraph) (n : DependenceNode) : Bool := (g.index? n).isSome

/-- Add a node unless it is there, and give its number. -/
def addNode (g : DependenceGraph) (n : DependenceNode) : Nat × DependenceGraph :=
  match g.index? n with
  | some i => (i, g)
  | none => (g.graph.vertexCount, ⟨g.graph.addVertex g.graph.vertexCount n⟩)

/-- Add a dependence of `target` on `source`. -/
def addEdge (g : DependenceGraph) (source target : DependenceNode) (kind : DependenceKind) :
    DependenceGraph :=
  let (head, g) := g.addNode source
  let (tail, g) := g.addNode target
  match g.graph.edges[(head, tail)]? with
  | some kinds =>
    let kinds := Sorted.insert DependenceKind.order kind kinds
    ⟨{ g.graph with edges := g.graph.edges.insert (head, tail) kinds }⟩
  | none => ⟨g.graph.addEdge head tail [kind]⟩

def addEdges (g : DependenceGraph)
    (edges : List (DependenceNode × DependenceNode × DependenceKind)) : DependenceGraph :=
  edges.foldl (fun g (source, target, kind) => g.addEdge source target kind) g

def kinds (g : DependenceGraph) (source target : DependenceNode) : List DependenceKind :=
  match g.index? source, g.index? target with
  | some head, some tail => g.graph.edges.getD (head, tail) []
  | _, _ => []

/-- What a node depends on directly. -/
def incoming (g : DependenceGraph) (n : DependenceNode) : List DependenceNode :=
  let heads := ((g.index? n).map (Graph.neighbours g.graph.predecessorsOf)).getD []
  heads.filterMap fun i => g.graph.vertices[i]?

def dot (g : DependenceGraph) : String :=
  let fill : DependenceNode → String
    | .method _ => "#ccddff"
    | .instruction _ => "#ffddcc"
    | .field _ => "#ddffcc"
  let color : List DependenceKind → String
    | [kind] => kind.color
    | _ => "black"
  g.graph.dot (fun n => { label := n.text, fill := fill n })
    (fun kinds => { color := color kinds })

end DependenceGraph

end PlayerPaths
