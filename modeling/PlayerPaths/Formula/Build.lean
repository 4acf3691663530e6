import PlayerPaths.SmtLib.Printer

/-!
# Checked construction

One function per kind of formula, which refuses operands of the wrong sorts.
-/

namespace PlayerPaths.Build

open Formula

def requireBool (e : Formula) : Result Unit := do
  match ← e.sort with
  | .bool => return ()
  | s => throw (.sort ("expected Bool, found " ++ s.text ++ " in " ++ (← e.text)))

/-- The sort of two formulas, refused when they differ. -/
def requireSame (a b : Formula) : Result SmtSort := do
  let s ← a.sort
  let t ← b.sort
  if s = t then return s
  throw (.sort ((← a.text) ++ " and " ++ (← b.text) ++ " differ in sort (" ++ s.text ++ " and "
    ++ t.text ++ ")"))

def requireBits (e : Formula) : Result Nat := do
  match (← e.sort).width? with
  | some width => return width
  | none => throw (.sort ("expected a bitvector, found " ++ (← e.text)))

def requireSort (s : SmtSort) (e : Formula) : Result Unit := do
  if (← e.sort) ≠ s then
    throw (.sort ("expected " ++ s.text ++ ", found " ++ (← e.text)))

def requireArithmetic (s : SmtSort) (e : Formula) : Result Unit := do
  if !s.isArithmetic then throw (.sort ((← e.text) ++ " is not arithmetic"))

def not (e : Formula) : Result Formula := do
  requireBool e
  return .not e

def and (es : List Formula) : Result Formula := do
  es.forM requireBool
  return .and es

def or (es : List Formula) : Result Formula := do
  es.forM requireBool
  return .or es

def eq (a b : Formula) : Result Formula := do
  let _ ← requireSame a b
  return .eq a b

def ne (a b : Formula) : Result Formula := do not (← eq a b)

def ite (c a b : Formula) : Result Formula := do
  requireBool c
  let _ ← requireSame a b
  return .ite c a b

def bits (op : BitOp) (a b : Formula) : Result Formula := do
  let _ ← requireBits a
  let _ ← requireSame a b
  return .binary (.bits op) a b

def compareBits (c : BitComparison) (a b : Formula) : Result Formula := do
  let _ ← requireBits a
  let _ ← requireSame a b
  return .binary (.compareBits c) a b

def arith (op : ArithOp) (a b : Formula) : Result Formula := do
  requireArithmetic (← requireSame a b) a
  return .binary (.arith op) a b

def compareArith (c : ArithComparison) (a b : Formula) : Result Formula := do
  requireArithmetic (← requireSame a b) a
  return .binary (.compareArith c) a b

def neg (e : Formula) : Result Formula := do
  requireArithmetic (← e.sort) e
  return .unary .neg e

def concat (high low : Formula) : Result Formula := do
  let m ← requireBits high
  let width ← Word.add m (← requireBits low)
  if 64 < width then throw (.sort (toString width ++ " bit bitvectors are unsupported"))
  return .binary .concat high low

def extract (high low : Nat) (e : Formula) : Result Formula := do
  let width ← requireBits e
  if high < low ∨ width ≤ high then
    throw (.sort s!"cannot extract [{high}:{low}] from {width} bits")
  return .unary (.extract high low) e

/-- Refuse an extension beyond 64 bits. -/
def requireExtensible (extra : Nat) (e : Formula) : Result Unit := do
  if 64 < (← Word.add (← requireBits e) extra) then
    throw (.sort "bitvectors wider than 64 bits")

def zeroExtend (extra : Nat) (e : Formula) : Result Formula := do
  requireExtensible extra e
  return .unary (.zeroExtend extra) e

def signExtend (extra : Nat) (e : Formula) : Result Formula := do
  requireExtensible extra e
  return .unary (.signExtend extra) e

def bitsToInt (e : Formula) : Result Formula := do
  let _ ← requireBits e
  return .unary .bitsToInt e

def intToBits (width : Nat) (e : Formula) : Result Formula := do
  requireSort .int e
  return .unary (.intToBits width) e

def toReal (e : Formula) : Result Formula := do
  requireSort .int e
  return .unary .toReal e

def toInt (e : Formula) : Result Formula := do
  requireSort .real e
  return .unary .toInt e

def make (r : Record) (fields : List Formula) : Result Formula := do
  if fields.length ≠ r.fields.length then
    throw (.sort s!"{r.name} has {r.fields.length} fields, {fields.length} given")
  (fields.zip r.fields).forM fun (e, _, s) => do
    if (← e.sort) ≠ s then throw (.sort ((← e.text) ++ " is not of sort " ++ s.text))
  return .nary (.make r) fields

def requireRecord (e : Formula) : Result Record := do
  let s ← e.sort
  match s.record? with
  | some r => return r
  | none => throw (.sort (s.text ++ " has no fields"))

def get (e : Formula) (field : String) : Result Formula := do
  let r ← requireRecord e
  match r.fieldIndex? field with
  | some i => return .unary (.get r i) e
  | none => throw (.sort s!"{r.name} has no field {field}")

def set (e : Formula) (field : String) (value : Formula) : Result Formula := do
  let r ← requireRecord e
  make r (← r.fields.mapM fun (f, _) => if f == field then return value else get e f)

end PlayerPaths.Build
