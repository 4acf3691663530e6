import PlayerPaths.Dependence.Graph
import PlayerPaths.Flow.Dominators
import PlayerPaths.Flow.Reaching

/-!
# Finding dependences

Four rules make the dependence graph of an entry point: a store reaches the reads of its variable,
and a method binds the parameters that are read; a branch decides what runs; a field is stored and
loaded; a call site starts its callee, whose returns come back to the call site.
-/

namespace PlayerPaths

open IL

/-- A dependence of the second node on the first. -/
abbrev Dependence := DependenceNode × DependenceNode × DependenceKind

def Cfg.augmented (c : Cfg) : Cfg := (c.addEdge .start .entry).addEdge .start .exit

namespace FlowMethod

/-- The dependence node of a flow node; the exit has none. -/
def dependenceNode? (m : FlowMethod) : FlowNode → Option DependenceNode
  | .entry | .start => some (.method m.signature)
  | .exit => none
  | .instruction node => some (.instruction node)

def readVariables (o : Operation) : List Variable :=
  o.expressions.flatMap fun e => e.preOrder.filterMap Expression.asVariable?

def loadedFields (o : Operation) : List String :=
  Sorted.words (o.expressions.flatMap fun e =>
    (e.preOrder.filterMap Expression.asField?).map FieldRef.signature)

/-- Reads depend on the definitions that reach them, and on the method for its parameters. -/
def dataDependences (m : FlowMethod) : Result (List Dependence) := do
  let reaching ← reachingDefinitions m.method m.cfg
  return reaching.flatMap fun (n, definitions) =>
    match m.operation? n, m.dependenceNode? n with
    | some o, some target =>
      let read := readVariables o
      let sources := (definitions.filter fun d => read.any fun v => v.name == d.variableName)
        |>.filterMap fun d => m.dependenceNode? d.node
      let parameters :=
        if read.any Variable.isParameter then [DependenceNode.method m.signature] else []
      (sources ++ parameters).map fun source => (source, target, .variable)
    | _, _ => []

/-- What depends on a branch from `m` to `n`, given the post-dominators: the chain from `n` up to
the nearest node that post-dominates both. -/
def decidedBy (post : DominatorTree) (m n : FlowNode) : Result (List FlowNode) := do
  if !post.contains m || !post.contains n || post.dominates n m then return []
  let meeting ← post.lowestCommonAncestor m n
  return (post.chain n).takeWhile (· ≠ meeting)

def branchDependences (m : FlowMethod) (post : DominatorTree) (a b : FlowNode) :
    Result (List Dependence) := do
  let decided ← decidedBy post a b
  return match m.dependenceNode? a with
    | none => []
    | some source => (decided.filterMap m.dependenceNode?).filterMap fun target =>
      if target = source then none else some (source, target, DependenceKind.branch)

/-- Control dependence: the graph is augmented by a start that leads to the entry and the exit, so
that what always runs depends on the method. -/
def controlDependences (m : FlowMethod) : Result (List Dependence) := do
  let post ← DominatorTree.ofCfg m.cfg.augmented.reverse
  let edges ← m.cfg.augmented.edges.mapM fun (a, b) => m.branchDependences post a b
  return edges.flatten

/-- Stores, loads and calls. `leaves` gives the returns of the analysed methods. -/
def fieldAndCallDependences (m : FlowMethod) (leaves : Std.TreeMap String (List DependenceNode)) :
    List Dependence :=
  m.cfg.nodes.flatMap fun n =>
    match m.operation? n, m.dependenceNode? n with
    | some o, some target =>
      let stored := match o with
        | .storeField _ f _ | .storeStatic f _ =>
          [(target, DependenceNode.field f.signature, DependenceKind.field)]
        | _ => []
      let loaded := (loadedFields o).map fun f =>
        (DependenceNode.field f, target, DependenceKind.field)
      let called := o.calls.flatMap fun c =>
        match leaves[c.method.signature]? with
        | none => []
        | some nodes => (target, DependenceNode.method c.method.signature, DependenceKind.call) ::
            nodes.map fun leave => (leave, target, DependenceKind.call)
      stored ++ loaded ++ called
    | _, _ => []

/-- The returns of a method. -/
def leaves (m : FlowMethod) : List DependenceNode :=
  m.body.locations.filterMap fun (l, i) =>
    match i.operation with
    | .leave _ => some (.instruction ⟨m.signature, l, i.text⟩)
    | _ => none

def addDependences (m : FlowMethod) (leaves : Std.TreeMap String (List DependenceNode))
    (g : DependenceGraph) : Result DependenceGraph := do
  let g := g.addEdges (← m.dataDependences)
  let g := g.addEdges (← m.controlDependences)
  return g.addEdges (m.fieldAndCallDependences leaves)

end FlowMethod

def Scope.dependences (s : Scope) : Result DependenceGraph := do
  let methods ← s.flowMethods
  let leaves : Std.TreeMap String (List DependenceNode) :=
    .ofList (methods.map fun m => (m.signature, m.leaves))
  methods.foldlM (fun g m => m.addDependences leaves g) DependenceGraph.empty

end PlayerPaths
