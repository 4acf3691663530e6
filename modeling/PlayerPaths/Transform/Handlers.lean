import PlayerPaths.IL.Body

/-!
# Removing exception handlers

The execution that raises no exception survives without handlers. A catch, fault or filter handler
is dropped together with the branch that leaves its protected region, which then falls through to
the code behind the handler. A finally handler stays inline: the protected region falls into it,
and its end becomes the branch that left the region.
-/

namespace PlayerPaths.IL

namespace Body

def mapBlock (b : Body) (i : Nat) (f : List Instruction → List Instruction) : Body :=
  { b with blocks := b.blocks.modify i fun block =>
      { block with instructions := f block.instructions } }

/-- The branch at the end of a block, if there is one. -/
def exit? (block : Block) : Option Instruction :=
  block.instructions.getLast?.filter fun i => i.operation.isBranch

/-- Take the branch at the end of a block away. -/
def takeExit (b : Body) (i : Nat) : Result (Option Instruction × Body) := do
  match exit? (← b.block i) with
  | some exit => return (some exit, b.mapBlock i List.dropLast)
  | none => return (none, b)

end Body

/-- A body on the way to having no handlers, and the blocks that are to go. -/
structure Stripping where
  body : Body
  removed : List Nat := []

def Stripping.strip (signature : String) (s : Stripping) (h : Handler) : Result Stripping := do
  let (first, last) := h.handlerBlocks
  if last < first || first ≤ h.protectedBlocks.2 then
    throw (.custom (signature ++ ": unexpected exception handler shape " ++ h.text))
  let (exit, body) ← s.body.takeExit h.protectedBlocks.2
  match h.kind with
  | .catch | .filter | .fault =>
    return { body, removed := s.removed ++ List.range' first (last + 1 - first) }
  | .finally =>
    match (← body.block last).instructions.getLast?.map Instruction.operation with
    | some .endFinally =>
      return { s with body := body.mapBlock last fun is => is.dropLast ++ exit.toList }
    | _ => throw (.custom (signature ++ ": finally handler does not end in endfinally"))

def Method.withoutHandlers (m : Method) : Result Method := do
  let body ← m.requireBody
  if body.handlers.isEmpty then return m
  let s ← body.handlers.foldlM (Stripping.strip m.signature) { body }
  let stripped : Body := { s.body with handlers := [] }
  return { m with body := some (stripped.removeBlocks s.removed) }

end PlayerPaths.IL
