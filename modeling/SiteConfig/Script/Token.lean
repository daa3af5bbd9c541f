import SiteConfig.Script.Lexeme

/-!
A script cut into tokens without regard to its grammar, so that it can be said where a script that
breaks the grammar does so.
-/

namespace SiteConfig.Script
open Text

inductive TokenKind where
  | opening
  | closing
  | comment
  /-- A string, template or comment that the end of the script cuts off. -/
  | unfinished
  /-- Characters that start no token. -/
  | illegal
  | word
  | value
  | operator
deriving DecidableEq, Repr

structure Token where
  kind : TokenKind
  start : Cursor
  stop : Cursor

namespace Token

def text (t : Token) : String :=
  t.start.slice t.stop

def operators : List (List Char) :=
  [">>>=", "...", "===", "!==", "**=", "<<=", ">>=", ">>>", "&&=", "||=", "??=", "=>", "==", "!=",
    "<=", ">=", "&&", "||", "??", "?.", "++", "--", "+=", "-=", "*=", "/=", "%=", "&=", "|=",
    "^=", "<<", ">>", "**"].map String.toList

def operatorLength (cs : List Char) : Nat :=
  ((operators.find? (·.isPrefixOf cs)).map List.length).getD 1

/-- The length of a template behind its opening quote, up to the next quote. -/
def templateTail : List Char → Option Nat
  | [] => none
  | '`' :: _ => some 1
  | '\\' :: _ :: rest => (templateTail rest).map (2 + ·)
  | _ :: rest => (templateTail rest).map (1 + ·)

def isIllegal (c : Char) : Bool :=
  c = '@' || c = '#' || c = '\\' || (c < ' ' && !isBlank c)

/-- Words behind which a value is still to come. -/
def valueWords : List String :=
  ["return", "typeof", "case", "in", "of", "new", "delete", "void", "throw", "do", "else",
    "instanceof", "await", "yield"]

/-- Whether a slash behind this token starts a regular expression. -/
def awaitsValue (t : Token) : Bool :=
  match t.kind with
  | .opening | .operator | .comment => true
  | .word => valueWords.contains t.text
  | _ => false

/-- The kind and length of a token that ends where `l` says, or else cuts off the script. -/
def finishing (kind : TokenKind) (cs : List Char) (l : Option Nat) : TokenKind × Nat :=
  match l with
  | some n => (kind, n)
  | none => (.unfinished, cs.length)

/-- The kind and length of the token that a text starts with. -/
def classify (valueNext : Bool) (cs : List Char) : TokenKind × Nat :=
  match cs with
  | [] => (.illegal, 0)
  | '/' :: '/' :: _ => finishing .comment cs (Lexeme.comment cs)
  | '/' :: '*' :: _ => finishing .comment cs (Lexeme.comment cs)
  | '`' :: rest => finishing .value cs ((templateTail rest).map (1 + ·))
  | c :: _ =>
    if c = '\'' || c = '"' then finishing .value cs (Lexeme.string cs)
    else if "([\x7b".contains c then (.opening, 1)
    else if ")]\x7d".contains c then (.closing, 1)
    else if let some n := (Lexeme.name cs).or (Lexeme.privateName cs) then (.word, n)
    else if let some n := Lexeme.number cs then (.value, n)
    else if let some n := (if valueNext then Lexeme.regex cs else none) then (.value, n)
    else if isIllegal c then (.illegal, Lexeme.run isIllegal cs)
    else (.operator, operatorLength cs)

/-- The tokens from a place on. -/
def cutFrom (c : Cursor) (valueNext : Bool) : (fuel : Nat) → List Token
  | 0 => []
  | fuel + 1 =>
    let start := c.forward (Lexeme.run isBlank c.rest)
    if start.rest.isEmpty then []
    else
      let (kind, n) := classify valueNext start.rest
      let t : Token := ⟨kind, start, start.forward n⟩
      t :: cutFrom t.stop t.awaitsValue fuel

/-- The tokens of a script. -/
def ofSource (source : String) : List Token :=
  let c := Cursor.ofString source
  cutFrom c true (c.left + 1)

end Token

end SiteConfig.Script
