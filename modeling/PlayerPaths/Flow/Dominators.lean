import PlayerPaths.Flow.Cfg

/-!
# Dominators

A node dominates another one when every path from the head to the latter passes through the
former. The sets of dominators are the greatest solution of `dom head = {head}` and
`dom n = {n} ∪ ⋂ dom p` over the predecessors `p` of `n`; sweeps over all nodes find it. The
dominators of a node form a chain up to the head, so the tree keeps the immediate dominator of every
node only. On a reversed graph, the same tree answers questions about post-dominance.
-/

namespace PlayerPaths

/-! ## Sets of dominators -/

/-- A set for every place in a list of nodes. Nodes are known by their places; the head is at place
zero. -/
abbrev DominatorSets := List (List Nat)

namespace DominatorSets

def setAt (dom : DominatorSets) (i : Nat) : List Nat := dom.getD i []

/-- The common elements of some sets. There are none when there is no set. -/
def intersection : List (List Nat) → List Nat
  | [] => []
  | set :: sets => sets.foldl (fun common set => common.filter (· ∈ set)) set

/-- The right-hand side of the equation of a place. -/
def equation (predecessors : List (List Nat)) (dom : DominatorSets) (i : Nat) : List Nat :=
  Sorted.insert compare i (intersection ((predecessors.getD i []).map dom.setAt))

/-- Every node dominates every other one, and only the head dominates the head. -/
def start (count : Nat) : DominatorSets :=
  (List.range count).map fun i => if i = 0 then [0] else List.range count

def solveAt (predecessors : List (List Nat)) (dom : DominatorSets) (i : Nat) : DominatorSets :=
  dom.set i (equation predecessors dom i)

/-- Solve the equations one after another. The head has none. -/
def sweep (predecessors : List (List Nat)) (dom : DominatorSets) : DominatorSets :=
  (List.range' 1 (dom.length - 1)).foldl (solveAt predecessors) dom

/-- Sweep until nothing changes. -/
def settle (predecessors : List (List Nat)) : (fuel : Nat) → DominatorSets → DominatorSets
  | 0, dom => dom
  | fuel + 1, dom =>
    let swept := sweep predecessors dom
    if swept = dom then dom else settle predecessors fuel swept

/-- The dominators of some places. A sweep that changes something takes an element out of a set, so
there are no more sweeps than elements, and one that changes nothing. -/
def ofPredecessors (predecessors : List (List Nat)) : DominatorSets :=
  settle predecessors (predecessors.length * predecessors.length + 1) (start predecessors.length)

/-- The immediate dominator of a place: the strict dominator with as many dominators as the place
has strict ones. -/
def immediate? (dom : DominatorSets) (i : Nat) : Option Nat :=
  (dom.setAt i).find? fun d => d ≠ i && (dom.setAt d).length + 1 = (dom.setAt i).length

end DominatorSets

/-! ## The tree -/

/-- The nodes that a head reaches, in pre-order, and the place of the immediate dominator of each of
them. The head comes first and has none. -/
structure DominatorTree where
  nodes : List FlowNode
  parents : List (Option Nat)

namespace DominatorTree

/-- The places of the predecessors of every node of a list, as far as they are in it. -/
def predecessorPlaces (c : Cfg) (nodes : List FlowNode) : List (List Nat) :=
  nodes.map fun n => (c.predecessors n).filterMap fun p => nodes.idxOf? p

/-- The parent that a place gets. The first place gets none. -/
def findParent (dom : DominatorSets) (i : Nat) : Result (Option Nat) :=
  if i = 0 then .ok none
  else match dom.immediate? i with
    | some d => .ok (some d)
    | none => .error (.fault .noDominator)

def withHead (c : Cfg) (head : FlowNode) : Result DominatorTree := do
  let nodes ← c.preOrder head
  let dom := DominatorSets.ofPredecessors (predecessorPlaces c nodes)
  let parents ← (List.range nodes.length).mapM (findParent dom)
  return { nodes, parents }

def ofCfg (c : Cfg) : Result DominatorTree := do withHead c (← c.head)

def contains (t : DominatorTree) (n : FlowNode) : Bool := n ∈ t.nodes

def parentAt? (t : DominatorTree) (i : Nat) : Option Nat := t.parents[i]?.join

def parent? (t : DominatorTree) (n : FlowNode) : Option FlowNode := do
  t.nodes[← t.parentAt? (← t.nodes.idxOf? n)]?

def root? (t : DominatorTree) : Option FlowNode := t.nodes.head?

def ancestorsWithin (t : DominatorTree) : Nat → Nat → List Nat
  | 0, _ => []
  | limit + 1, i => i :: match t.parentAt? i with
    | some p => t.ancestorsWithin limit p
    | none => []

/-- A node followed by its dominators, up to the head. Nodes outside the tree have none. A chain
meets no node twice. -/
def chain (t : DominatorTree) (n : FlowNode) : List FlowNode :=
  match t.nodes.idxOf? n with
  | some i => (t.ancestorsWithin t.nodes.length i).filterMap fun i => t.nodes[i]?
  | none => []

/-- Every path from the head to `n` passes through `d`. -/
def dominates (t : DominatorTree) (d n : FlowNode) : Bool := d ∈ t.chain n

/-- The last element of the longest common beginning of two lists. -/
def lastCommon {α : Type} [DecidableEq α] : List α → List α → Option α
  | a :: as, b :: bs => if a = b then (lastCommon as bs).or (some a) else none
  | _, _ => none

/-- The deepest node that dominates both. Both have to be in the tree. -/
def lowestCommonAncestor (t : DominatorTree) (m n : FlowNode) : Result FlowNode :=
  match lastCommon (t.chain m).reverse (t.chain n).reverse with
  | some a => .ok a
  | none => .error (.fault .outsideTree)

def dot (t : DominatorTree) : String :=
  let escaped (n : FlowNode) := n.text.replace "\"" "\\\""
  let lines := t.nodes.filterMap fun n => (t.parent? n).map fun p =>
    "  \"" ++ escaped p ++ "\" -> \"" ++ escaped n ++ "\";"
  "\n".intercalate (["digraph domtree \x7b"] ++ lines ++ ["\x7d"])

end DominatorTree

end PlayerPaths
