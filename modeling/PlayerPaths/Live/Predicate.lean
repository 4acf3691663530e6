import PlayerPaths.Live.Reading

/-!
# Predicates on the running application

A boolean formula whose variables can be read. Connectives stay connectives, so that the second
operand is not read when the first one decides.
-/

namespace PlayerPaths

/-- A compiled boolean formula. -/
inductive Predicate where
  | const (b : Bool)
  | not (p : Predicate)
  | and (p q : Predicate)
  | or (p q : Predicate)
  | atom (t : Term)

namespace Predicate

/-- The predicates of at most two operands, filled up with the neutral one. -/
def pair (neutral : Bool) : List Predicate → Predicate × Predicate
  | [] => (.const neutral, .const neutral)
  | [p] => (p, .const neutral)
  | p :: q :: _ => (p, q)

/-- A connective takes at most two operands. -/
def requireNarrow (connective : String) (es : List Formula) : Result Unit :=
  if 2 < es.length then
    throw (.resolution ("more than 2 args not supported in " ++ connective ++ " expression"))
  else return

mutual

def compile (env : Environment) : Formula → Result Predicate
  | .lit (.bool b) => return .const b
  | .unary .not e => do return .not (← compile env e)
  | .nary .and es => do
    requireNarrow "and" es
    let (p, q) := pair true (← compileAll env es)
    return .and p q
  | .nary .or es => do
    requireNarrow "or" es
    let (p, q) := pair false (← compileAll env es)
    return .or p q
  | e => do return .atom (← env.term e)

def compileAll (env : Environment) : List Formula → Result (List Predicate)
  | [] => return []
  | e :: es => do
    let first ← compile env e
    return first :: (← compileAll env es)

end

/-- Whether a predicate holds, or why that cannot be said. -/
def decide (component : Value) : Predicate → Result Bool
  | .const b => return b
  | .not p => do return !(← p.decide component)
  | .and p q => do
    if ← p.decide component then q.decide component else return false
  | .or p q => do
    if ← p.decide component then return true else q.decide component
  | .atom t => do
    let value ← t.evaluate component
    match value.truth? with
    | some b => return b
    | none => throw (.resolution ((← value.text) ++ " is not a boolean"))

/-- Whether a predicate holds. What cannot be read does not hold. -/
def holds (p : Predicate) (component : Value) : Result Bool := do
  match ← Result.settle (p.decide component) with
  | .ok b => return b
  | .error _ => return false

end Predicate

end PlayerPaths
