import PlayerPaths.Graph.Basic

/-!
# Editing graphs in place

Vertices that know their number and edges that know their ends are stored as they are, so that the
keys of a graph are repeated in its labels. An edit changes the maps of the graph one after another
and may stop with an error in between: `Update` keeps what has been changed until then.
-/

namespace PlayerPaths

/-- Vertex labels that know the number of their vertex. -/
class HasIndex (V : Type) where
  index : V → Nat

/-- Edge labels that know the ends of their edge. -/
class HasEnds (E : Type) where
  head : E → Nat
  tail : E → Nat

export HasIndex (index)

def HasEnds.ends {E : Type} [HasEnds E] (e : E) : Nat × Nat := (head e, tail e)

open HasEnds

namespace Graph

variable {V E : Type}

/-- A change of a graph that may fail halfway. -/
abbrev Update (V E : Type) := ExceptT Error (StateM (Graph V E))

/-- What an update returns, and the graph that it leaves. -/
def Update.exec {α : Type} (update : Update V E α) (g : Graph V E) : Result α × Graph V E :=
  (ExceptT.run update).run g

def Update.reject (condition : Bool) (e : Error) : Update V E Unit :=
  if condition then throw e else pure ()

open Update

/-- Add a neighbour to those that a vertex has. -/
def link (map : Std.TreeMap Nat (List Nat)) (i neighbour : Nat) :
    Result (Std.TreeMap Nat (List Nat)) :=
  match map[i]? with
  | some ns => .ok (map.insert i (Sorted.insert compare neighbour ns))
  | none => .error (.vertexNotFound i)

def pushVertex [HasIndex V] (v : V) : Update V E Unit := do
  reject ((← get).hasVertex (index v)) (.duplicateVertex (index v))
  modify fun g => { g with successorsOf := g.successorsOf.insert (index v) [] }
  modify fun g => { g with predecessorsOf := g.predecessorsOf.insert (index v) [] }
  modify fun g => { g with vertices := g.vertices.insert (index v) v }

/-- Store an edge under its ends. The edge is stored before its ends become neighbours. -/
def pushEdge [HasEnds E] (e : E) : Update V E Unit := do
  let g ← get
  reject (g.hasEdge (head e) (tail e)) (.duplicateEdge (head e) (tail e))
  reject (!g.hasVertex (head e)) (.vertexNotFound (head e))
  reject (!g.hasVertex (tail e)) (.vertexNotFound (tail e))
  modify fun g => { g with edges := g.edges.insert (ends e) e }
  let successors ← link (← get).successorsOf (head e) (tail e)
  modify fun g => { g with successorsOf := successors }
  let predecessors ← link (← get).predecessorsOf (tail e) (head e)
  modify fun g => { g with predecessorsOf := predecessors }

def changeEdge (head tail : Nat) (change : E → E) : Update V E Unit := do
  match (← get).edges[(head, tail)]? with
  | some e => modify fun g => { g with edges := g.edges.insert (head, tail) (change e) }
  | none => throw (.edgeNotFound head tail)

/-- The graph with every edge turned around, where `flip` turns a single edge. -/
def reversed [HasEnds E] (flip : E → E) (g : Graph V E) : Graph V E where
  vertices := g.vertices
  edges := .ofList ((g.edges.values.map flip).map fun e => (ends e, e)) edgeOrder
  successorsOf := g.predecessorsOf
  predecessorsOf := g.successorsOf

def successorVertices (g : Graph V E) (i : Nat) : Result (List V) := do
  (← g.successors i).mapM g.vertex

def predecessorVertices (g : Graph V E) (i : Nat) : Result (List V) := do
  (← g.predecessors i).mapM g.vertex

/-- The ways to change a graph. -/
inductive Edit (V E : Type) where
  | insertVertex (v : V)
  | insertEdge (e : E)
  | changeEdge (head tail : Nat) (change : E → E)
  | reverse (flip : E → E)

namespace Edit

variable [HasIndex V] [HasEnds E]

def update : Edit V E → Update V E Unit
  | insertVertex v => pushVertex v
  | insertEdge e => pushEdge e
  | changeEdge head tail change => Graph.changeEdge head tail change
  | reverse flip => modify (·.reversed flip)

end Edit

/-- The graph after some edits of the empty one. Edits that fail do not end the history. -/
def history [HasIndex V] [HasEnds E] (edits : List (Edit V E)) : Graph V E :=
  edits.foldl (fun g edit => (edit.update.exec g).2) empty

end Graph

end PlayerPaths
