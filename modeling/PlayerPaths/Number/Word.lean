import PlayerPaths.Error

/-!
# Machine words

Sizes, indices and identities are natural numbers below `2 ^ 64`, and object identities and
integer literals are two's complement 64-bit integers. The functions here are the places where a
value could leave that range.
-/

namespace PlayerPaths

abbrev pow2 (n : Nat) : Nat := Nat.pow 2 n

abbrev pow10 (n : Nat) : Nat := Nat.pow 10 n

namespace Word

/-- One past the largest 64-bit size. -/
def limit : Nat := pow2 64

/-- The least and the greatest 64-bit integer. -/
def minInt : Int := -(pow2 63)

@[inherit_doc minInt]
def maxInt : Int := pow2 63 - 1

def inRange (i : Int) : Bool := minInt ≤ i && i ≤ maxInt

/-- A size, or a fault when it leaves the range. -/
def size (n : Nat) : Result Nat :=
  if n < limit then .ok n else .error (.fault .overflow)

/-- A sum of sizes, or a fault when it leaves the range. -/
def add (m n : Nat) : Result Nat := size (m + n)

/-- The nearest 64-bit integer. -/
def clamp (i : Int) : Int := max minInt (min maxInt i)

/-- The word that stands for an integer in two's complement. -/
def ofInt (i : Int) : Nat := (i % limit).toNat

/-- The integer that a word stands for in two's complement. -/
def toInt (n : Nat) : Int := if n < pow2 63 then n else (n : Int) - limit

end Word

end PlayerPaths
