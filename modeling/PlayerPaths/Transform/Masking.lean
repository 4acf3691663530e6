import PlayerPaths.IL.Body

/-!
# Keeping a slice

Everything outside a slice becomes a no-op. An instruction is live when all of its bytecode offsets
are in the slice, so glue is always live. The returns and throws of an entry point stay, so that it
still ends the way it did.
-/

namespace PlayerPaths.IL

/-- An instruction that keeps its statement. -/
def Instruction.isLive (live : Nat → Bool) (isEntry : Bool) (i : Instruction) : Bool :=
  i.offsets.all live || (isEntry && i.operation.isUnwind)

/-- An instruction outside the slice does nothing. -/
def Instruction.masked (live : Nat → Bool) (isEntry : Bool) (i : Instruction) : Instruction :=
  if i.isLive live isEntry then i else { i with operation := .nop }

def Method.masked (m : Method) (live : Nat → Bool) (isEntry : Bool) : Result Method := do
  let body ← m.requireBody
  let blocks := body.blocks.map fun block =>
    { block with instructions := block.instructions.map (Instruction.masked live isEntry) }
  return { m with body := some { body with blocks } }

end PlayerPaths.IL
