import PlayerPaths.Formula.Bits

/-!
# Cubes

A formula as a disjunction of cubes, which are conjunctions of literals. Negations are pushed down
to the atoms first (`Formula.nnf`); then conjunctions are multiplied out (`Formula.cubes?`), which
is given up past a number of cubes.
-/

namespace PlayerPaths.Formula

/-- The negation of an atom. Comparisons turn into the contrary comparison. -/
def negateAtom : Formula → Formula
  | .binary (.compareBits c) a b => .binary (.compareBits c.negate) a b
  | .binary (.compareArith c) a b => .binary (.compareArith c.negate) a b
  | e => .not e

/-- A conjunction, or a disjunction when negations were pushed through it. -/
def dual (f : NaryFunction) (negated : Bool) : NaryFunction :=
  match f, negated with
  | .and, true => .or
  | .or, true => .and
  | f, _ => f

mutual

/-- Negation normal form of a formula, or of its negation. A choice between truth values is the
disjunction of its two cases. -/
def nnf (negated : Bool) : Formula → Result Formula
  | .bool b => return .bool (b != negated)
  | .not e => nnf (!negated) e
  | .and es => do return .nary (dual .and negated) (← nnfAll negated es)
  | .or es => do return .nary (dual .or negated) (← nnfAll negated es)
  | .ite c a b => do
    if (← a.sort).isBool then
      let yes := [← nnf negated c, ← nnf negated a]
      let no := [← nnf (!negated) c, ← nnf negated b]
      return .nary (dual .or negated)
        [.nary (dual .and negated) yes, .nary (dual .and negated) no]
    else return if negated then .not (.ite c a b) else .ite c a b
  | e => return if negated then negateAtom e else e

def nnfAll (negated : Bool) : List Formula → Result (List Formula)
  | [] => return []
  | e :: es => do
    let e ← nnf negated e
    return e :: (← nnfAll negated es)

end

/-- Cubes that say what a cube of each list says. -/
def product (cubes others : List (List Formula)) : List (List Formula) :=
  cubes.flatMap fun cube => others.map fun other => cube ++ other

mutual

/-- The cubes of a formula in negation normal form, or `none` past a limit. -/
def cubes? (limit : Nat) : Formula → Option (List (List Formula))
  | .and es => conjunctionCubes? limit [[]] es
  | .or es => disjunctionCubes? limit [] es
  | .bool true => some [[]]
  | .bool false => some []
  | e => some [[e]]

/-- Multiply cubes by those of the members of a conjunction. -/
def conjunctionCubes? (limit : Nat) (cubes : List (List Formula)) :
    List Formula → Option (List (List Formula))
  | [] => some cubes
  | e :: es => do
    let others ← cubes? limit e
    if limit < cubes.length * others.length then none
    else conjunctionCubes? limit (product cubes others) es

/-- Add the cubes of the members of a disjunction. -/
def disjunctionCubes? (limit : Nat) (cubes : List (List Formula)) :
    List Formula → Option (List (List Formula))
  | [] => some cubes
  | e :: es => do
    let cubes := cubes ++ (← cubes? limit e)
    if limit < cubes.length then none else disjunctionCubes? limit cubes es

end

end PlayerPaths.Formula
