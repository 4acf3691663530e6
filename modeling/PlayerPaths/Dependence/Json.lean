import PlayerPaths.Dependence.Build
import PlayerPaths.Json.Basic

/-!
# Dependence graphs as JSON
-/

namespace PlayerPaths

def DependenceNode.label : DependenceNode → String
  | .method signature => "method " ++ signature
  | .field signature => "field " ++ signature
  | .instruction n => n.method ++ " " ++ n.location.text

/-- The members of a dependence graph: its nodes, and the edges into each of them. -/
def DependenceGraph.members (g : DependenceGraph) : List (String × Json) :=
  let edges := g.nodes.flatMap fun n => (g.incoming n).map fun source =>
    .arr [.str source.label, .str n.label, .strings ((g.kinds source n).map DependenceKind.name)]
  [("counts", .numbers [g.graph.vertexCount, g.graph.edgeCount]),
    ("nodes", .strings (g.nodes.map DependenceNode.label)), ("edges", .arr edges)]

end PlayerPaths
