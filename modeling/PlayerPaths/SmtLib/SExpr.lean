import PlayerPaths.Error
import PlayerPaths.Text.Quoted

/-!
# S-expressions

The layer of SMT-LIB below commands and terms: symbols, literals and strings in nested
parentheses. A text is cut into tokens by an automaton that looks at one character at a time, and
the tokens are put together with a stack.
-/

namespace PlayerPaths.SmtLib

inductive SExpr where
  | symbol (name : String)
  /-- What starts with a digit or with `#`. -/
  | literal (text : String)
  | str (s : String)
  | list (items : List SExpr)

mutual

def SExpr.text : SExpr → String
  | .symbol name => "Symbol(" ++ Text.quoted name ++ ")"
  | .literal l => "Literal(" ++ Text.quoted l ++ ")"
  | .str s => "Str(" ++ Text.quoted s ++ ")"
  | .list items => "List(" ++ Text.bracketed (SExpr.texts items) ++ ")"

def SExpr.texts : List SExpr → List String
  | [] => []
  | e :: es => e.text :: SExpr.texts es

end

def SExpr.symbol? : SExpr → Option String
  | .symbol name => some name
  | _ => none

def SExpr.list? : SExpr → Option (List SExpr)
  | .list items => some items
  | _ => none

inductive Token where
  | opening
  | closing
  | leaf (e : SExpr)
  /-- The text ended inside something. -/
  | unterminated (what : String)

/-- What the automaton is inside of, with the characters of it so far, last one first. -/
inductive Mode where
  | between
  | comment
  | quotedSymbol (chars : List Char)
  | string (chars : List Char)
  /-- Behind a quote in a string, which ends it unless another quote follows. -/
  | stringQuote (chars : List Char)
  | atom (chars : List Char)

namespace Mode

def atomToken (chars : List Char) : Token :=
  let atom := String.ofList chars.reverse
  match atom.toList with
  | c :: _ => if c == '#' || c.isDigit then .leaf (.literal atom) else .leaf (.symbol atom)
  | [] => .leaf (.symbol atom)

/-- A character that no token has begun before. -/
def start (c : Char) : List Token × Mode :=
  if c == ';' then ([], comment)
  else if c == '(' then ([.opening], between)
  else if c == ')' then ([.closing], between)
  else if c == '|' then ([], quotedSymbol [])
  else if c == '"' then ([], string [])
  else if Text.isBlank c then ([], between)
  else ([], atom [c])

def endsAtom (c : Char) : Bool := Text.isBlank c || "()|\";".toList.contains c

def step (m : Mode) (c : Char) : List Token × Mode :=
  match m with
  | between => start c
  | comment => if c == '\n' then ([], between) else ([], comment)
  | quotedSymbol chars =>
    if c == '|' then ([.leaf (.symbol (String.ofList chars.reverse))], between)
    else ([], quotedSymbol (c :: chars))
  | string chars => if c == '"' then ([], stringQuote chars) else ([], string (c :: chars))
  | stringQuote chars =>
    if c == '"' then ([], string (c :: chars))
    else
      let (tokens, m) := start c
      (.leaf (.str (String.ofList chars.reverse)) :: tokens, m)
  | atom chars =>
    if endsAtom c then
      let (tokens, m) := start c
      (atomToken chars :: tokens, m)
    else ([], atom (c :: chars))

def finish : Mode → List Token
  | between | comment => []
  | quotedSymbol _ => [.unterminated "quoted symbol"]
  | string _ => [.unterminated "string literal"]
  | stringQuote chars => [.leaf (.str (String.ofList chars.reverse))]
  | atom chars => [atomToken chars]

end Mode

def tokens : Mode → List Char → List Token
  | m, [] => m.finish
  | m, c :: cs => (m.step c).1 ++ tokens (m.step c).2 cs

/-- Put tokens together. The stack has the items of the enclosing lists so far, the innermost list
first, and the last item of every list first. -/
def assemble : (stack : List (List SExpr)) → (items : List SExpr) → List Token →
    Result (List SExpr)
  | [], items, [] => return items.reverse
  | _ :: _, _, [] => throw (.parse "unbalanced (")
  | stack, items, .opening :: ts => assemble (items :: stack) [] ts
  | [], _, .closing :: _ => throw (.parse "unbalanced )")
  | outer :: stack, items, .closing :: ts => assemble stack (.list items.reverse :: outer) ts
  | stack, items, .leaf e :: ts => assemble stack (e :: items) ts
  | _, _, .unterminated what :: _ => throw (.parse ("unterminated " ++ what))

def expressions (text : String) : Result (List SExpr) :=
  assemble [] [] (tokens .between text.toList)

end PlayerPaths.SmtLib
