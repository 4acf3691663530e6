import PlayerPaths.Formula.Simplify
import PlayerPaths.Solve.Candidates
import PlayerPaths.Solve.Cubes

/-!
# The bounds solver

`boundsSolver` decides the formulas that executions typically produce, which compare inputs with
constants. The conjunction is simplified and expanded into cubes. In a cube, a leaf that only
appears in comparisons with constants is decided on its own; the values of all other leaves are
searched for among the candidates, and a search without success says nothing.
-/

namespace PlayerPaths

open Formula

abbrev LeafValues := List (Formula × Formula)

/-- The variable of a leaf and the positions of the fields, from the outermost to the
innermost. -/
def leafPath? : Formula → Option (String × List Nat)
  | .var name _ => some (name, [])
  | .unary (.get _ i) e => (leafPath? e).map fun (name, path) => (name, i :: path)
  | _ => none

/-- Replace the field at a path. A path that does not exist changes nothing. -/
def setField : (path : List Nat) → (leafValue : Formula) → Formula → Formula
  | [], leafValue, _ => leafValue
  | i :: path, leafValue, .nary (.make r) fields =>
    .nary (.make r) (fields.modify i (setField path leafValue))
  | _, _, e => e

/-- The values of variables for values of leaves: whole variables first, then fields, and default
values for everything else. -/
def compose (vars : List (String × SmtSort)) (leafValues : LeafValues) : Model :=
  let defaults : Model := ⟨.ofList (vars.map fun (name, s) => (name, s.zero))⟩
  let depth (e : Formula) : Nat := ((leafPath? e).map fun p => p.2.length).getD 0
  let ordered := leafValues.mergeSort fun a b => depth a.1 ≤ depth b.1
  ordered.foldl (fun m (leaf, value) =>
    match leafPath? leaf with
    | some (name, path) =>
      match m.values[name]? with
      | some old => m.insert name (setField path value old)
      | none => m
    | none => m) defaults

def allHold (literals : List Formula) (m : Model) : Result Bool :=
  match literals with
  | [] => return true
  | e :: es => do
    match ← (m.eval e).value? with
    | some (.bool true) => allHold es m
    | some (.bool false) => return false
    | _ => do
      let _ ← allHold es m
      return false

/-- The leaf of a comparison with a constant. -/
def comparedLeaf? (a b : Formula) : Option Formula :=
  if a.isLeaf && b.isConstant then some a
  else if b.isLeaf && a.isConstant then some b
  else none

/-- The leaf of a literal that is about one leaf and constants. -/
def simpleLeaf? (literal : Formula) : Result (Option Formula) := do
  let leaf := match literal with
    | .not (.eq a b) => comparedLeaf? a b
    | .not e => if e.isLeaf then some e else none
    | .eq a b | .binary (.compareBits _) a b | .binary (.compareArith _) a b => comparedLeaf? a b
    | e => if e.isLeaf then some e else none
  match leaf with
  | none => return none
  | some leaf =>
    match ← leaf.sort with
    | .record .. => return none
    | _ => return some leaf

/-- A cube, taken apart. -/
structure CubePlan where
  /-- The leaves that are decided on their own, with the literals about them, in order. -/
  exact : List (Formula × List Formula)
  /-- The other leaves, in order. -/
  «open» : List Formula
  /-- The literals about other leaves. -/
  searched : List Formula

/-- Add a literal to the literals about a leaf, which are in the order of the leaves. -/
def addLiteral (leaf literal : Formula) :
    List (Formula × List Formula) → List (Formula × List Formula)
  | [] => [(leaf, [literal])]
  | (other, literals) :: rest =>
    match leaf.order other with
    | .lt => (leaf, [literal]) :: (other, literals) :: rest
    | .eq => (other, literals ++ [literal]) :: rest
    | .gt => (other, literals) :: addLiteral leaf literal rest

/-- Find the leaves that can be decided on their own. -/
def CubePlan.ofCube (cube : List Formula) : Result CubePlan := do
  let (simple, rest) ← cube.foldlM (fun (simple, rest) literal => do
    match ← simpleLeaf? literal with
    | some leaf => return (addLiteral leaf literal simple, rest)
    | none => return (simple, rest ++ [literal]))
    (([], []) : List (Formula × List Formula) × List Formula)
  let leaves := setOf (leavesAll rest)
  let shared := simple.filter fun (leaf, _) => leaves.contains leaf
  return { exact := simple.filter fun (leaf, _) => !leaves.contains leaf
           «open» := leaves
           searched := shared.flatMap Prod.snd ++ rest }

/-- The first value for which the literals about a leaf hold, all other leaves left alone. -/
def decideLeaf? (vars : List (String × SmtSort)) (leaf : Formula) (literals : List Formula) :
    Result (Option Formula) := do
  let values ← candidates (← leaf.sort) (setOf (constantsAll literals))
  values.findM? fun value => allHold literals (compose vars [(leaf, value)])

/-- Values for the leaves that are decided on their own, or `none` when one has no value. -/
def decideLeaves? (vars : List (String × SmtSort)) :
    List (Formula × List Formula) → Result (Option LeafValues)
  | [] => return some []
  | (leaf, literals) :: rest => do
    match ← decideLeaf? vars leaf literals with
    | none => return none
    | some value =>
      match ← decideLeaves? vars rest with
      | none => return none
      | some values => return some ((leaf, value) :: values)

/-- Advance positions into lists of the given lengths, the first position fastest. After the last
combination there is none. -/
def nextPositions? : List Nat → List Nat → Option (List Nat)
  | i :: is, n :: ns =>
    if i + 1 < n then some ((i + 1) :: is) else (nextPositions? is ns).map (0 :: ·)
  | _, _ => none

def sortLeafValues (values : LeafValues) : LeafValues :=
  values.mergeSort fun a b => (a.1.order b.1).isLE

/-- Try combinations of candidates, for a number of attempts. -/
def search (vars : List (String × SmtSort)) (fixed : LeafValues)
    («open» : List (Formula × List Formula)) (searched : List Formula) :
    (attempts : Nat) → (positions : List Nat) → Result Answer
  | 0, _ => return .unknown
  | attempts + 1, positions => do
    let chosen := («open».zip positions).filterMap fun ((leaf, values), i) =>
      values[i]?.map fun value => (leaf, value)
    let model := compose vars (sortLeafValues (fixed ++ chosen))
    if ← allHold searched model then return .sat model
    match nextPositions? positions («open».map fun (_, values) => values.length) with
    | some positions => search vars fixed «open» searched attempts positions
    | none => return .unknown

structure Bounds where
  maxCubes : Nat := 256
  maxAttempts : Nat := 4096

def Bounds.checkCube (b : Bounds) (vars : List (String × SmtSort)) (cube : List Formula) :
    Result Answer := do
  let plan ← CubePlan.ofCube cube
  match ← decideLeaves? vars plan.exact with
  | none => return .unsat
  | some fixed =>
    let constants := setOf (constantsAll plan.searched)
    let «open» ← plan.open.mapM fun leaf => return (leaf, ← candidates (← leaf.sort) constants)
    search vars fixed «open» plan.searched b.maxAttempts («open».map fun _ => 0)

/-- The answer for a disjunction of cubes: the first model, and `unsat` when every cube is. -/
def Bounds.checkCubes (b : Bounds) (vars : List (String × SmtSort)) :
    (sure : Bool) → List (List Formula) → Result Answer
  | sure, [] => return if sure then .unsat else .unknown
  | sure, cube :: cubes => do
    let cube ← simplifyAll cube
    if .bool false ∈ cube then b.checkCubes vars sure cubes
    else
      match ← b.checkCube vars cube with
      | .sat model => return .sat model
      | .unsat => b.checkCubes vars sure cubes
      | .unknown => b.checkCubes vars false cubes

/-- Decide a conjunction. Past the limit of cubes, the formula itself is the only literal. -/
def Bounds.check (b : Bounds) (assertions : List Formula) : Result Answer := do
  let formula ← (Formula.and assertions).simplify
  let cubes := (cubes? b.maxCubes (← nnf false formula)).getD [[formula]]
  b.checkCubes formula.freeVariables.toList true cubes

/-- The solver that every query goes to. -/
def boundsSolver : Solver := Bounds.check {}

end PlayerPaths
