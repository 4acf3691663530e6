/-!
# Errors

Everything that can go wrong, as causes. `Error.message` is the one place where a cause gets its
wording. Some causes abort only the entry point or the path at hand (`Error.isRecoverable`); a
`Fault` is a broken precondition, and nothing recovers from it (`Result.settle`).
-/

namespace PlayerPaths

/-- A precondition that did not hold: a size outside the 64-bit range, a shift past the width of a
word, a graph or node without what its structure promises, or a question about a node that the
structure at hand does not contain. -/
inductive Fault where
  | overflow
  | noHead
  | noDominator
  | outsideTree
  deriving DecidableEq, Repr

/-- Why an operation gave no result. -/
inductive Error where
  | unsupported (what : String)
  | resolution (what : String)
  | sort (what : String)
  | parse (what : String)
  | solver (what : String)
  | duplicateVertex (index : Nat)
  | duplicateEdge (head tail : Nat)
  | vertexNotFound (index : Nat)
  | edgeNotFound (head tail : Nat)
  | methodNotFound (signature : String)
  | typeNotFound (name : String)
  | blockNotFound (index : Nat)
  | instructionNotFound (block index : Nat)
  | noBody (signature : String)
  /-- Data of another shape than the one that is read. -/
  | malformed
  | custom (text : String)
  | fault (reason : Fault)
  deriving DecidableEq, Repr

abbrev Result := Except Error

namespace Error

def message : Error → String
  | unsupported what => "Unsupported: " ++ what
  | resolution what => "Resolution failed: " ++ what
  | sort what => "Sort error: " ++ what
  | parse what => "Parse error: " ++ what
  | solver what => "Solver error: " ++ what
  | duplicateVertex index => s!"The graph has a duplicate vertex: {index}"
  | duplicateEdge head tail => s!"The graph has a duplicate edge from {head} to {tail}"
  | vertexNotFound index => s!"Vertex {index} does not exist in graph"
  | edgeNotFound head tail => s!"Edge from {head} to {tail} does not exist in graph"
  | methodNotFound signature => "Method not found: " ++ signature
  | typeNotFound name => "Type not found: " ++ name
  | blockNotFound index => s!"Block {index} not found"
  | instructionNotFound block index => s!"Instruction not found at block {block}, index {index}"
  | noBody signature => s!"Method {signature} has no body"
  | malformed => "the data does not have the expected shape"
  | custom text => text
  | fault .overflow => "a size or an integer leaves the range of a 64-bit word"
  | fault .noHead => "every node of the graph has a predecessor"
  | fault .noDominator => "a node has no immediate dominator"
  | fault .outsideTree => "a node lies outside the dominator tree"

def kind : Error → String
  | unsupported _ => "Unsupported"
  | resolution _ => "Resolution"
  | sort _ => "Sort"
  | parse _ => "Parse"
  | solver _ => "Solver"
  | duplicateVertex _ => "DuplicateVertex"
  | duplicateEdge .. => "DuplicateEdge"
  | vertexNotFound _ => "GraphVertexNotFound"
  | edgeNotFound .. => "GraphEdgeNotFound"
  | methodNotFound _ => "MethodNotFound"
  | typeNotFound _ => "TypeNotFound"
  | blockNotFound _ => "BlockNotFound"
  | instructionNotFound .. => "InstructionNotFound"
  | noBody _ => "NoBody"
  | malformed => "Json"
  | custom _ => "Custom"
  | fault _ => "Fault"

/-- Causes that end the entry point or the path at hand, and nothing else. -/
def isRecoverable : Error → Bool
  | unsupported _ | resolution _ | solver _ => true
  | _ => false

def isFault : Error → Bool
  | fault _ => true
  | _ => false

end Error

/-- The outcome of a computation as a value, for callers that go on after an error. Faults are not
outcomes: they pass through. -/
def Result.settle {α : Type} : Result α → Result (Except Error α)
  | .ok a => .ok (.ok a)
  | .error e => if e.isFault then .error e else .ok (.error e)

end PlayerPaths
