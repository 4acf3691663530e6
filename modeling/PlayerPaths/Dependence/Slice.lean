import PlayerPaths.Dependence.Build
import PlayerPaths.Input.Taint

/-!
# The input slice

Everything that the instructions that depend on input depend on in turn, as bytecode offsets.
-/

namespace PlayerPaths

open IL

/-- The offsets of a slice, by method. A method that is only reached through its entry has none. -/
structure Slice where
  methods : Std.TreeMap String (List Nat) := ∅

namespace Slice

def empty : Slice := {}

def add (s : Slice) (signature : String) (offsets : List Nat) : Slice :=
  ⟨s.methods.insert signature (Sorted.union compare (s.methods.getD signature []) offsets)⟩

def offsets? (s : Slice) (signature : String) : Option (List Nat) := s.methods[signature]?

def containsMethod (s : Slice) (signature : String) : Bool := s.methods.contains signature

def contains (s : Slice) (signature : String) (offset : Nat) : Bool :=
  (s.methods.getD signature []).contains offset

def merge (s other : Slice) : Slice :=
  other.methods.toList.foldl (fun s (signature, offsets) => s.add signature offsets) s

def combine (slices : List Slice) : Slice := slices.foldl merge empty

/-- The part of a slice that a node stands for. -/
def cover (p : Program) (s : Slice) : DependenceNode → Result Slice
  | .method signature => return s.add signature []
  | .field _ => return s
  | .instruction node => do
    let m ← p.requireMethod node.method
    return s.add node.method (← m.instruction node.location).offsets

end Slice

def taintedNodes (p : Program) (taint : TaintResult) : Result (List DependenceNode) := do
  let nodes ← taint.points.toList.mapM fun (signature, points) => do
    let m ← p.requireMethod signature
    points.mapM fun l => do
      return DependenceNode.instruction ⟨m.signature, l, (← m.instruction l).text⟩
  return nodes.flatten

/-- The nodes that some roots depend on, directly or through others, and the roots. -/
def DependenceGraph.closure (g : DependenceGraph) (roots : List DependenceNode) :
    List DependenceNode :=
  flood (fun n => (g.incoming n).reverse) (without g.nodes roots) roots.reverse

def computeSlice (p : Program) (g : DependenceGraph) (taint : TaintResult) : Result Slice := do
  (g.closure (← taintedNodes p taint)).foldlM (Slice.cover p) Slice.empty

def Scope.slice (s : Scope) : Result Slice := do
  let taint ← s.taint
  computeSlice s.program (← s.dependences) taint

end PlayerPaths
