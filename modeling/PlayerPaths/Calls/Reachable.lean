import PlayerPaths.Graph.Traversal
import PlayerPaths.Settings

/-!
# Reachable methods and entry points

The methods that an entry point may call, directly or through others. Only the bodies that an
analysis enters are looked into, but every call target on the way counts, polling methods and
methods without definition among them.

The engine calls certain methods of components by name: once per frame, or when the mouse does
something. Those are the methods that an analysis starts from.
-/

namespace PlayerPaths

open IL

/-- What an analysis of one entry point looks at. -/
structure Scope where
  program : Program
  entry : Method
  api : InputApi

namespace Scope

/-- The analysis looks into the body of a method. -/
def enters (s : Scope) (m : MethodRef) : Bool := s.api.entersBody s.program s.entry m

/-- The call targets in a body, in the order of appearance. -/
def bodyCallees (b : Body) : List MethodRef :=
  (b.locations.filter fun (_, i) => !i.isGlue).flatMap fun (_, i) =>
    i.operation.calls.map Call.method

/-- The call targets of a method that the analysis enters. -/
def callees (s : Scope) (m : MethodRef) : List MethodRef :=
  if s.enters m then
    (((s.program.resolve? m).bind Method.body).map bodyCallees).getD []
  else []

/-- Every signature that the entry point could reach. -/
def signatures (s : Scope) : List String :=
  s.entry.signature :: (s.program.methodList.flatMap fun m =>
    ((m.body.map bodyCallees).getD []).map MethodRef.signature)

/-- The reachable methods, in depth-first pre-order with earlier calls first, each once. -/
def reachable (s : Scope) : List MethodRef :=
  depthFirst MethodRef.signature s.callees s.signatures.eraseDups [s.entry.reference]

/-- The definitions of the reachable methods that the analysis enters. -/
def methods (s : Scope) : List Method :=
  (s.reachable.filter s.enters).filterMap s.program.resolve?

/-- Some reachable method polls the input. -/
def reachesInput (s : Scope) : Bool := s.reachable.any s.api.isInput

end Scope

/-! ## Entry points -/

def componentBase : String := "UnityEngine.MonoBehaviour"

def frameCallbacks : List String := ["Update", "FixedUpdate", "LateUpdate"]

def mouseCallbacks : List String :=
  ["OnMouseOver", "OnMouseDown", "OnMouseUp", "OnMouseEnter", "OnMouseExit", "OnMouseDrag",
    "OnMouseUpAsButton"]

/-- A component that is not left out. -/
def isComponent (p : Program) (s : Settings) (typeName : String) : Bool :=
  p.derivesFrom typeName componentBase && !s.ignores typeName

/-- A method that the engine calls. -/
def isCallback (p : Program) (s : Settings) (m : Method) : Bool :=
  m.parameters.isEmpty && m.hasBody && p.isMainModule m &&
    (frameCallbacks.contains m.name || mouseCallbacks.contains m.name) &&
    isComponent p s m.declaringType

/-- The callbacks that input has a part in, in the order of their signatures. Mouse callbacks
always have one, frame callbacks when they reach a polling method. -/
def entryPoints (p : Program) (s : Settings) : List Method :=
  p.methodList.filter fun m =>
    isCallback p s m && (mouseCallbacks.contains m.name || Scope.reachesInput ⟨p, m, s.inputApi⟩)

end PlayerPaths
