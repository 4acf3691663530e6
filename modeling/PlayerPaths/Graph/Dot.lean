import PlayerPaths.Graph.Basic

/-!
# Graphviz text

`Graph.dot` draws a graph for `dot`: boxes for vertices, labelled arrows for edges.
-/

namespace PlayerPaths.Graph

structure VertexStyle where
  label : String
  fill : String := "#ffddcc"
  font : String := "#000000"

structure EdgeStyle where
  label : String := ""
  style : String := "solid"
  color : String := "#000000"

/-- A label between quotes: quotes are escaped and lines end flush left. -/
def dotLabel (s : String) : String := (s.replace "\"" "\\\"").replace "\n" "\\l"

def setting (name value : String) : String := name ++ "=\"" ++ value ++ "\""

def dotVertex (i : Nat) (s : VertexStyle) : String :=
  let attributes := [setting "shape" "box", setting "label" (dotLabel s.label),
    setting "style" "filled", setting "fillcolor" s.fill, setting "fontcolor" s.font]
  toString i ++ " [" ++ ", ".intercalate attributes ++ "];"

def dotEdge (head tail : Nat) (s : EdgeStyle) : String :=
  let attributes := [setting "label" (dotLabel s.label), setting "style" s.style,
    setting "color" s.color]
  s!"{head} -> {tail} [" ++ ", ".intercalate attributes ++ "];"

/-- The fonts and line shapes of every drawing. -/
def dotOptions : List String :=
  ["graph [fontname = \"Courier New\", splines=\"polyline\"]",
    "node [fontname = \"Courier New\"]",
    "edge [fontname = \"Courier New\"]"]

def dot {V E : Type} (vertexStyle : V → VertexStyle) (edgeStyle : E → EdgeStyle)
    (g : Graph V E) : String :=
  let lines := "\n".intercalate
  let vertices := g.vertexList.map fun (i, v) => dotVertex i (vertexStyle v)
  let edges := g.edgeList.map fun (head, tail, e) => dotEdge head tail (edgeStyle e)
  "digraph G \x7b\n" ++ lines dotOptions ++ "\n\n" ++ lines vertices ++ "\n" ++ lines edges
    ++ "\n\x7d"

end PlayerPaths.Graph
