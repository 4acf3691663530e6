import PlayerPaths.IL.Body

/-!
# Where control goes

Structured blocks end in glue, branches that stand for no bytecode. `Body.resolve` follows the fall
through from block to block and the glue from a location to the first real instruction, and
`Body.successors` lists the real instructions that may follow another one.
-/

namespace PlayerPaths.IL.Body

def resolveWithin (b : Body) : Nat → Location → Option Location
  | 0, _ => none
  | steps + 1, l =>
    match b.blocks[l.block]? with
    | none => none
    | some block =>
      match block.instructions[l.index]? with
      | none => b.resolveWithin steps (.start (l.block + 1))
      | some i =>
        match i.isGlue, i.operation with
        | true, .branch target => b.resolveWithin steps (.start target)
        | _, _ => some l

/-- The first real instruction that control reaches from a location: `none` when it runs past the
last block, or goes round in glue. Behind the first step the walk only meets starts of blocks, so
one step per block is enough. -/
def resolve (b : Body) (l : Location) : Option Location := b.resolveWithin (b.blocks.length + 1) l

/-- The real instructions that may follow a statement at a location: the next one, unless the
statement never falls through, and the targets. -/
def successorsOf (b : Body) (l : Location) (o : Operation) : List Location :=
  let next := if o.isTerminator then none else b.resolve l.next
  let targets := o.targets.filterMap fun t => b.resolve (.start t)
  (next.toList ++ targets).eraseDups

def successors (b : Body) (l : Location) : Result (List Location) := do
  match (← b.block l.block).instructions[l.index]? with
  | some i => return b.successorsOf l i.operation
  | none => throw (.instructionNotFound l.block l.index)

end PlayerPaths.IL.Body

namespace PlayerPaths

open IL

/-- The real instructions of a body and their successors, in the order of the body. -/
structure InstructionGraph where
  first : Option Location
  steps : List (Location × List Location)

namespace InstructionGraph

def ofBody (b : Body) : Result InstructionGraph := do
  let real := b.locations.filter fun (_, i) => !i.isGlue
  let steps ← real.mapM fun (l, _) => return (l, ← b.successors l)
  return { first := b.resolve (.start 0), steps }

def successors (g : InstructionGraph) (l : Location) : List Location := (g.steps.lookup l).getD []

def predecessors (g : InstructionGraph) (l : Location) : List Location :=
  ((g.steps.filter fun (_, successors) => l ∈ successors).map Prod.fst).eraseDups

end InstructionGraph

end PlayerPaths
