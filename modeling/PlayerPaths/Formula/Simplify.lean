import PlayerPaths.Formula.Eval

/-!
# Simplification

Constants are computed and a few identities applied, from the leaves up: a double negation, nested
and repeated members of a conjunction or disjunction, equal operands of an equality, equalities of
records field by field, known conditions, and fields of a record that is spelled out.
-/

namespace PlayerPaths.Formula

/-- The value of an application whose parts are constants, if there is one, and otherwise the
application. -/
def foldOr (constant : Bool) (value : Evaluation Formula) (otherwise : Formula) : Result Formula :=
  if constant then
    match value with
    | .ok v => return v
    | .error .undefined => return otherwise
    | .error (.fault reason) => throw (.fault reason)
  else return otherwise

mutual

/-- The members of nested conjunctions, or of nested disjunctions, from left to right. -/
def members (f : NaryFunction) : Formula → List Formula
  | .nary g es => if f = g then membersAll f es else [.nary g es]
  | e => [e]

def membersAll (f : NaryFunction) : List Formula → List Formula
  | [] => []
  | e :: es => members f e ++ membersAll f es

end

/-- The truth value that has no effect as a member. -/
def neutral : NaryFunction → Bool
  | .or => false
  | _ => true

/-- A conjunction or disjunction without neutral and repeated members. -/
def junction (f : NaryFunction) (es : List Formula) : Formula :=
  let all := membersAll f es
  if .bool (!neutral f) ∈ all then .bool (!neutral f)
  else
    match (all.filter (· ≠ .bool (neutral f))).eraseDups with
    | [] => .bool (neutral f)
    | [e] => e
    | es => .nary f es

mutual

def equate : Formula → Formula → Formula
  | .nary (.make r) as, .nary (.make s) bs =>
    let a : Formula := .nary (.make r) as
    let b : Formula := .nary (.make s) bs
    if areConstant as && areConstant bs then .bool (a = b)
    else if a = b then .bool true
    else junction .and (equateAll as bs)
  | a, b =>
    if a.isConstant && b.isConstant then .bool (a = b)
    else if a = b then .bool true
    else .eq a b

def equateAll : List Formula → List Formula → List Formula
  | a :: as, b :: bs => equate a b :: equateAll as bs
  | _, _ => []

end

def simplifyUnary (f : UnaryFunction) (a : Formula) : Result Formula :=
  foldOr a.isConstant (f.apply a) <|
    match f, a with
    | .not, .not e => e
    | .get r i, .nary (.make s) fields =>
      fields[i]?.getD (.unary (.get r i) (.nary (.make s) fields))
    | f, a => .unary f a

def simplifyBinary (f : BinaryFunction) (a b : Formula) : Result Formula :=
  match f with
  | .eq => return equate a b
  | f => foldOr (a.isConstant && b.isConstant) (f.apply a b) (.binary f a b)

def simplifyIte (c a b : Formula) : Formula :=
  match c with
  | .bool true => a
  | .bool false => b
  | c => if a = b then a else .ite c a b

mutual

/-- A formula with the same values, and usually fewer parts. -/
def simplify : Formula → Result Formula
  | .var name s => return .var name s
  | .lit v => return .lit v
  | .unary f a => do simplifyUnary f (← a.simplify)
  | .binary f a b => do
    let a ← a.simplify
    let b ← b.simplify
    simplifyBinary f a b
  | .ite c a b => do
    let c ← c.simplify
    let a ← a.simplify
    let b ← b.simplify
    return simplifyIte c a b
  | .nary f es => do
    let es ← simplifyAll es
    match f with
    | .make r => return .nary (.make r) es
    | f => return junction f es

def simplifyAll : List Formula → Result (List Formula)
  | [] => return []
  | e :: es => do
    let e ← e.simplify
    return e :: (← simplifyAll es)

end

end PlayerPaths.Formula
