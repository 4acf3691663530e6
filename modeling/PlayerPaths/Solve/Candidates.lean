import PlayerPaths.Collections.Sorted
import PlayerPaths.Formula.Eval
import PlayerPaths.Number.Decimal

/-!
# Candidate values

A leaf is a variable, or a field of one. Whether literals hold only depends on how the values of
their leaves compare with the constants around them, so the constants, their neighbours and the
points between them are the values worth trying.
-/

namespace PlayerPaths

namespace Formula

/-- A variable, or a field of a leaf. -/
def isLeaf : Formula → Bool
  | .var .. => true
  | .unary (.get ..) e => e.isLeaf
  | _ => false

mutual

def leaves : Formula → List Formula
  | e@(.var ..) => [e]
  | .lit _ => []
  | .unary f a => if (Formula.unary f a).isLeaf then [.unary f a] else a.leaves
  | .binary _ a b => a.leaves ++ b.leaves
  | .ite a b c => a.leaves ++ b.leaves ++ c.leaves
  | .nary _ es => leavesAll es

def leavesAll : List Formula → List Formula
  | [] => []
  | e :: es => e.leaves ++ leavesAll es

end

mutual

/-- The outermost constants of a formula. -/
def constants : Formula → List Formula
  | .var .. => []
  | e@(.lit _) => [e]
  | .unary _ a => a.constants
  | .binary _ a b => a.constants ++ b.constants
  | .ite a b c => a.constants ++ b.constants ++ c.constants
  | .nary f es =>
    if (Formula.nary f es).isConstant then [.nary f es] else constantsAll es

def constantsAll : List Formula → List Formula
  | [] => []
  | e :: es => e.constants ++ constantsAll es

end

def setOf (es : List Formula) : List Formula := Sorted.ofList order es

end Formula

open Formula

/-- The word of a constant, for comparison with bit vectors. -/
def wordOf? : Formula → Option Nat
  | .lit (.bits value _) => some value
  | .int i => some (Word.ofInt i)
  | _ => none

/-- The least and greatest values, unsigned and signed, and the neighbours of constants. -/
def bitCandidates (width : Nat) (constants : List Formula) : Result (List Formula) :=
  if 64 < width then throw (.fault .overflow)
  else
    let sign := pow2 (max width 1 - 1)
    let around := (constants.filterMap wordOf?).flatMap fun n => [n, n + 1, n + (Word.limit - 1)]
    return ([0, 1, pow2 width - 1, sign, sign - 1] ++ around).map fun n => Formula.bits n width

/-- Zero, and integer constants and their neighbours. -/
def intCandidates (constants : List Formula) : List Formula :=
  let around : Formula → List Formula
    | .int i => [.int i, .int (Word.clamp (i + 1)), .int (Word.clamp (i - 1))]
    | _ => []
  .int 0 :: constants.flatMap around

/-- The finite real constants in increasing order, each once. -/
def realPoints (constants : List Formula) : List Float :=
  let points := constants.filterMap fun
    | .lit (.real x) => if Double.isFinite x then some x else none
    | _ => none
  let sorted := points.mergeSort fun a b => (Double.order a b).isLE
  sorted.foldr (fun x rest => match rest with
    | y :: _ => if x == y then x :: rest.drop 1 else x :: rest
    | [] => [x]) []

/-- Zero, the real constants, the points between them and a point on either side. -/
def realCandidates (constants : List Formula) : List Formula :=
  let points := realPoints constants
  let between := (points.zip points.tail).map fun (a, b) => (a + b) / 2.0
  let outside := match points.head?, points.getLast? with
    | some first, some last => [first - 1.0, last + 1.0]
    | _, _ => []
  (0.0 :: (points ++ between ++ outside)).map Formula.real

/-- String constants, and a string that is none of them. -/
def stringCandidates (constants : List Formula) : List Formula :=
  let known := constants.filterMap fun
    | .str s => some s
    | _ => none
  .str (String.join ("_" :: known)) :: known.map Formula.str

/-- Record constants of a sort, and its default value. -/
def recordCandidates (s : SmtSort) (constants : List Formula) : Result (List Formula) := do
  return s.zero :: (← constants.filterM fun e => return (← e.sort) = s)

/-- The values worth trying for a leaf of a sort among constants, in order. The constants are a
set. -/
def candidates (s : SmtSort) (constants : List Formula) : Result (List Formula) := do
  match s with
  | .bool => return [.bool false, .bool true]
  | .bitVec width => return setOf (← bitCandidates width constants)
  | .int => return setOf (intCandidates constants)
  | .real => return setOf (realCandidates constants)
  | .string => return setOf (stringCandidates constants)
  | .record .. => return setOf (← recordCandidates s constants)

end PlayerPaths
