import PlayerPaths.Json.Basic

/-!
# Reading JSON

`Json.read?` splits a text into tokens with a character automaton and assembles the tokens with a
stack of open lists and objects. Both passes are structural, so reading ends on every text.

A number with a fraction or an exponent, or outside the 64-bit range, is read in two steps: as
many leading digits as fit a 64-bit word, then one multiplication or division by a power of ten.
-/

namespace PlayerPaths.Json

/-! ## Numbers -/

/-- The decimal digits before the point that fit a word, and the number of those left out. -/
def takeWhole : Nat → List Char → Nat × Nat
  | significand, [] => (significand, 0)
  | significand, c :: cs =>
    let next := 10 * significand + (c.toNat - '0'.toNat)
    if next < Word.limit then takeWhole next cs else (significand, cs.length + 1)

/-- The decimal digits behind the point that fit a word, and their number. -/
def takeFraction : Nat → List Char → Nat × Nat
  | significand, [] => (significand, 0)
  | significand, c :: cs =>
    let next := 10 * significand + (c.toNat - '0'.toNat)
    if next < Word.limit then
      let (s, n) := takeFraction next cs
      (s, n + 1)
    else (significand, 0)

/-- `x · 10 ^ exponent` by one multiplication or division, after as many divisions by `10 ^ 308`
as a very negative exponent needs. `none` when the result is infinite. -/
def scale (exponent : Int) : Nat → Float → Option Float
  | 0, x => some x
  | fuel + 1, x =>
    if exponent.natAbs ≤ 308 then
      let power := Float.ofScientific 1 false exponent.natAbs
      if 0 ≤ exponent then
        let y := x * power
        if y.isInf then none else some y
      else some (x / power)
    else if x == 0.0 then some x
    else if 0 ≤ exponent then none
    else scale (exponent + 308) fuel (x / Float.ofScientific 1 false 308)

/-- The greatest exponent that is read; a greater one overflows or vanishes. -/
def maxExponent : Nat := pow2 31 - 1

def realValue (negative : Bool) (whole fraction : List Char) (negativeExponent : Bool)
    (exponent : Nat) : Option Float :=
  let (significand, dropped) := takeWhole 0 whole
  let (significand, places) := takeFraction significand fraction
  let signed (x : Float) := if negative then -x else x
  if maxExponent < exponent then
    if significand != 0 && !negativeExponent then none else some (signed 0.0)
  else
    let shift : Int := if negativeExponent then -exponent else exponent
    (scale ((dropped : Int) - places + shift) 8 (Float.ofNat significand)).map signed

/-- The value of digits without fraction and exponent: an integer when it fits 64 bits. The
negative zero is a double. -/
def wholeValue (negative : Bool) (digits : List Char) : Option Json :=
  let n := Decimal.digitsValue digits
  if negative then
    if 0 < n ∧ n ≤ pow2 63 then some (.int (-n)) else (realValue true digits [] false 0).map .real
  else if n < Word.limit then some (.int n) else (realValue false digits [] false 0).map .real

/-- Digits, at least one. -/
def someDigits (cs : List Char) : Option (List Char × List Char) :=
  match cs.takeWhile Char.isDigit with
  | [] => none
  | digits => some (digits, cs.dropWhile Char.isDigit)

/-- Digits without a superfluous zero in front. -/
def wholeDigits (cs : List Char) : Option (List Char × List Char) := do
  let (digits, rest) ← someDigits cs
  match digits with
  | '0' :: _ :: _ => none
  | _ => some (digits, rest)

def fractionDigits : List Char → Option (List Char × List Char)
  | '.' :: cs => someDigits cs
  | cs => some ([], cs)

def exponentDigits : List Char → Option (Bool × List Char)
  | '-' :: cs => (someDigits cs).bind fun (digits, rest) =>
    if rest.isEmpty then some (true, digits) else none
  | '+' :: cs => (someDigits cs).bind fun (digits, rest) =>
    if rest.isEmpty then some (false, digits) else none
  | cs => (someDigits cs).bind fun (digits, rest) =>
    if rest.isEmpty then some (false, digits) else none

def number? (cs : List Char) : Option Json := do
  let (negative, cs) := match cs with
    | '-' :: cs => (true, cs)
    | cs => (false, cs)
  let (whole, rest) ← wholeDigits cs
  let (fraction, rest) ← fractionDigits rest
  match rest with
  | [] =>
    if fraction.isEmpty then wholeValue negative whole
    else (realValue negative whole fraction false 0).map .real
  | c :: cs =>
    if c == 'e' || c == 'E' then
      let (negativeExponent, digits) ← exponentDigits cs
      (realValue negative whole fraction negativeExponent (Decimal.digitsValue digits)).map .real
    else none

/-! ## Tokens -/

/-- A token: a punctuation mark, a string, or a word such as `true` or a number. -/
inductive Token where
  | mark (c : Char)
  | text (s : String)
  | word (cs : List Char)

/-- Where the automaton is: between tokens, in a word, in a string, behind a backslash, or in the
digits of a code point. Characters read so far are kept in reverse. -/
inductive Mode where
  | between
  | word (read : List Char)
  | string (read : List Char) (half : Option Nat)
  | escape (read : List Char) (half : Option Nat)
  | code (read : List Char) (half : Option Nat) (digits : List Nat)

/-- The characters of the grammar that stand for themselves. -/
def isMark (c : Char) : Bool :=
  c == '[' || c == ']' || c == ',' || c == ':' || c.toNat == 0x7b || c.toNat == 0x7d

def isSpace (c : Char) : Bool := c == ' ' || c == '\n' || c == '\r' || c == '\t'

def shortEscape? (c : Char) : Option Char :=
  if c == '"' || c == '\\' || c == '/' then some c
  else if c == 'n' then some '\n'
  else if c == 'r' then some '\r'
  else if c == 't' then some '\t'
  else if c == 'b' then some (Char.ofNat 0x08)
  else if c == 'f' then some (Char.ofNat 0x0c)
  else none

def hexDigit? (c : Char) : Option Nat :=
  if c.isDigit then some (c.toNat - '0'.toNat)
  else if 'a' ≤ c ∧ c ≤ 'f' then some (c.toNat - 'a'.toNat + 10)
  else if 'A' ≤ c ∧ c ≤ 'F' then some (c.toNat - 'A'.toNat + 10)
  else none

/-- A code unit behind the pending first half of a pair: a character, or the new first half. -/
def joinUnits (half : Option Nat) (unit : Nat) : Option (Char ⊕ Nat) :=
  match half with
  | some high =>
    if 0xdc00 ≤ unit ∧ unit < 0xe000 then
      some (.inl (Char.ofNat (0x10000 + (high - 0xd800) * 0x400 + (unit - 0xdc00))))
    else none
  | none =>
    if 0xd800 ≤ unit ∧ unit < 0xdc00 then some (.inr unit)
    else if 0xdc00 ≤ unit ∧ unit < 0xe000 then none
    else some (.inl (Char.ofNat unit))

def tokens? : Mode → List Char → Option (List Token)
  | .between, [] => some []
  | .word read, [] => some [.word read.reverse]
  | _, [] => none
  | .between, c :: cs =>
    if isSpace c then tokens? .between cs
    else if isMark c then (tokens? .between cs).map (.mark c :: ·)
    else if c == '"' then tokens? (.string [] none) cs
    else tokens? (.word [c]) cs
  | .word read, c :: cs =>
    if isSpace c then (tokens? .between cs).map (.word read.reverse :: ·)
    else if isMark c then (tokens? .between cs).map (.word read.reverse :: .mark c :: ·)
    else if c == '"' then none
    else tokens? (.word (c :: read)) cs
  | .string read half, c :: cs =>
    if c == '\\' then tokens? (.escape read half) cs
    else if half.isSome || c.toNat < 0x20 then none
    else if c == '"' then (tokens? .between cs).map (.text (String.ofList read.reverse) :: ·)
    else tokens? (.string (c :: read) none) cs
  | .escape read half, c :: cs =>
    if c == 'u' then tokens? (.code read half []) cs
    else if half.isSome then none
    else match shortEscape? c with
      | some e => tokens? (.string (e :: read) none) cs
      | none => none
  | .code read half digits, c :: cs =>
    match hexDigit? c with
    | none => none
    | some d =>
      match digits with
      | [x, y, z] =>
        match joinUnits half (((x * 16 + y) * 16 + z) * 16 + d) with
        | some (.inl e) => tokens? (.string (e :: read) none) cs
        | some (.inr high) => tokens? (.string read (some high)) cs
        | none => none
      | _ => tokens? (.code read half (digits ++ [d])) cs

/-! ## Assembly -/

/-- An open list, or an open object with the name whose value comes next. Finished parts are kept
in reverse. -/
inductive Open where
  | list (items : List Json)
  | object (members : List (String × Json)) (name : String)

/-- What may come next: a value, a value or the end of a list, a name or the end of an object, a
name, the colon behind a name, or what follows a finished value. -/
inductive Expect where
  | value
  | valueOrEnd
  | nameOrEnd
  | name
  | colon
  | next

/-- The open lists and objects, and what they wait for. -/
structure Assembly where
  opened : List Open
  finished : Option Json
  expect : Expect

/-- Nesting beyond this depth is refused. -/
def maxDepth : Nat := 127

/-- Give a finished value to the innermost open list or object. -/
def Assembly.deliver (opened : List Open) (value : Json) : Assembly :=
  match opened with
  | [] => ⟨[], some value, .next⟩
  | .list items :: rest => ⟨.list (value :: items) :: rest, none, .next⟩
  | .object members name :: rest => ⟨.object ((name, value) :: members) name :: rest, none, .next⟩

/-- Open a list or an object, if the nesting allows it. -/
def Assembly.enter (opened : List Open) (inner : Open) (expect : Expect) : Option Assembly :=
  if opened.length < maxDepth then some ⟨inner :: opened, none, expect⟩ else none

def Assembly.close : List Open → Char → Option Assembly
  | .list items :: rest, ']' => some (deliver rest (.arr items.reverse))
  | .object members _ :: rest, c =>
    if c.toNat == 0x7d then some (deliver rest (.obj (sortMembers members.reverse))) else none
  | _, _ => none

def wordValue? (cs : List Char) : Option Json :=
  if cs == "null".toList then some .null
  else if cs == "true".toList then some (.bool true)
  else if cs == "false".toList then some (.bool false)
  else number? cs

def Assembly.value (opened : List Open) : Token → Option Assembly
  | .text s => some (deliver opened (.str s))
  | .word cs => (wordValue? cs).map (deliver opened)
  | .mark c =>
    if c == '[' then enter opened (.list []) .valueOrEnd
    else if c.toNat == 0x7b then enter opened (.object [] "") .nameOrEnd
    else none

def Assembly.step (a : Assembly) (t : Token) : Option Assembly :=
  match a.expect, t with
  | .value, t => value a.opened t
  | .valueOrEnd, .mark ']' => close a.opened ']'
  | .valueOrEnd, t => value a.opened t
  | .nameOrEnd, .text s | .name, .text s =>
    match a.opened with
    | .object members _ :: rest => some ⟨.object members s :: rest, none, .colon⟩
    | _ => none
  | .nameOrEnd, .mark c => close a.opened c
  | .colon, .mark ':' => some { a with expect := .value }
  | .next, .mark ',' =>
    match a.opened with
    | .list _ :: _ => some { a with expect := .value }
    | .object _ _ :: _ => some { a with expect := .name }
    | [] => none
  | .next, .mark c => close a.opened c
  | _, _ => none

def read? (text : String) : Option Json := do
  let tokens ← tokens? .between text.toList
  let a ← tokens.foldlM Assembly.step ⟨[], none, .value⟩
  if a.opened.isEmpty then a.finished else none

end PlayerPaths.Json
