import Std.Data.TreeMap
import PlayerPaths.Collections.Sorted
import PlayerPaths.Error

/-!
# Directed graphs

Vertices are numbered, and vertices and edges carry a label. The graph keeps, next to its edges,
the neighbours of every vertex in both directions, so that asking for them costs no search.
`Graph.Consistent` says that the three views agree.
-/

namespace PlayerPaths

/-- Edges are ordered by head, then by tail. -/
abbrev edgeOrder : Nat × Nat → Nat × Nat → Ordering :=
  compareLex (compareOn Prod.fst) (compareOn Prod.snd)

/-- A directed graph with vertex labels in `V` and edge labels in `E`. -/
structure Graph (V E : Type) where
  vertices : Std.TreeMap Nat V := ∅
  edges : Std.TreeMap (Nat × Nat) E edgeOrder := ∅
  successorsOf : Std.TreeMap Nat (List Nat) := ∅
  predecessorsOf : Std.TreeMap Nat (List Nat) := ∅

namespace Graph

variable {V E : Type}

def empty : Graph V E := {}

def hasVertex (g : Graph V E) (i : Nat) : Bool := g.vertices.contains i

def hasEdge (g : Graph V E) (head tail : Nat) : Bool := g.edges.contains (head, tail)

def vertexCount (g : Graph V E) : Nat := g.vertices.size

def edgeCount (g : Graph V E) : Nat := g.edges.size

/-- The neighbours that a map records for a vertex. -/
def neighbours (map : Std.TreeMap Nat (List Nat)) (i : Nat) : List Nat := map.getD i []

/-- Add a vertex that has no neighbours yet. -/
def addVertex (g : Graph V E) (i : Nat) (label : V) : Graph V E :=
  { g with
    vertices := g.vertices.insert i label
    successorsOf := g.successorsOf.insert i []
    predecessorsOf := g.predecessorsOf.insert i [] }

/-- Add an edge, and make its ends neighbours. -/
def addEdge (g : Graph V E) (head tail : Nat) (label : E) : Graph V E :=
  { g with
    edges := g.edges.insert (head, tail) label
    successorsOf :=
      g.successorsOf.insert head (Sorted.insert compare tail (neighbours g.successorsOf head))
    predecessorsOf :=
      g.predecessorsOf.insert tail (Sorted.insert compare head (neighbours g.predecessorsOf tail)) }

/-- Add a vertex with a new number. -/
def insertVertex (g : Graph V E) (i : Nat) (label : V) : Result (Graph V E) :=
  if g.hasVertex i then .error (.duplicateVertex i) else .ok (g.addVertex i label)

/-- Add an edge between two vertices that have none in this direction. -/
def insertEdge (g : Graph V E) (head tail : Nat) (label : E) : Result (Graph V E) :=
  if g.hasEdge head tail then .error (.duplicateEdge head tail)
  else if !g.hasVertex head then .error (.vertexNotFound head)
  else if !g.hasVertex tail then .error (.vertexNotFound tail)
  else .ok (g.addEdge head tail label)

def relabelEdge (g : Graph V E) (head tail : Nat) (change : E → E) : Result (Graph V E) :=
  match g.edges[(head, tail)]? with
  | some label => .ok { g with edges := g.edges.insert (head, tail) (change label) }
  | none => .error (.edgeNotFound head tail)

/-- The graph with every edge turned around. -/
def reverse (g : Graph V E) : Graph V E where
  vertices := g.vertices
  edges := g.edges.foldl (fun edges (head, tail) label => edges.insert (tail, head) label) ∅
  successorsOf := g.predecessorsOf
  predecessorsOf := g.successorsOf

def vertex (g : Graph V E) (i : Nat) : Result V :=
  match g.vertices[i]? with
  | some label => .ok label
  | none => .error (.vertexNotFound i)

def edge (g : Graph V E) (head tail : Nat) : Result E :=
  match g.edges[(head, tail)]? with
  | some label => .ok label
  | none => .error (.edgeNotFound head tail)

/-- The vertices in the order of their numbers. -/
def vertexList (g : Graph V E) : List (Nat × V) := g.vertices.toList

/-- The edges in the order of their heads and tails. -/
def edgeList (g : Graph V E) : List (Nat × Nat × E) :=
  g.edges.toList.map fun ((head, tail), label) => (head, tail, label)

/-- The numbers of the direct successors, increasing. -/
def successors (g : Graph V E) (i : Nat) : Result (List Nat) :=
  match g.successorsOf[i]? with
  | some ns => .ok ns
  | none => .error (.vertexNotFound i)

/-- The numbers of the direct predecessors, increasing. -/
def predecessors (g : Graph V E) (i : Nat) : Result (List Nat) :=
  match g.predecessorsOf[i]? with
  | some ns => .ok ns
  | none => .error (.vertexNotFound i)

def edgesOut (g : Graph V E) (i : Nat) : Result (List (Nat × Nat × E)) := do
  (← g.successors i).mapM fun n => return (i, n, ← g.edge i n)

def edgesIn (g : Graph V E) (i : Nat) : Result (List (Nat × Nat × E)) := do
  (← g.predecessors i).mapM fun n => return (n, i, ← g.edge n i)

/-- The vertices that no edge enters. -/
def heads (g : Graph V E) : List (Nat × V) :=
  g.vertexList.filter fun (i, _) => (neighbours g.predecessorsOf i).isEmpty

/-- The vertices that no edge leaves. -/
def tails (g : Graph V E) : List (Nat × V) :=
  g.vertexList.filter fun (i, _) => (neighbours g.successorsOf i).isEmpty

/-- The edges and the two neighbour maps tell the same story, about vertices of the graph only. -/
structure Consistent (g : Graph V E) : Prop where
  successors_keys : ∀ i, i ∈ g.successorsOf ↔ i ∈ g.vertices
  predecessors_keys : ∀ i, i ∈ g.predecessorsOf ↔ i ∈ g.vertices
  successors_iff : ∀ h t, t ∈ neighbours g.successorsOf h ↔ (h, t) ∈ g.edges
  predecessors_iff : ∀ h t, h ∈ neighbours g.predecessorsOf t ↔ (h, t) ∈ g.edges
  head_mem : ∀ h t, (h, t) ∈ g.edges → h ∈ g.vertices
  tail_mem : ∀ h t, (h, t) ∈ g.edges → t ∈ g.vertices

end Graph

end PlayerPaths
