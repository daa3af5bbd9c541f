import SiteConfig.Script.Operand
import SiteConfig.Script.Semicolon
import SiteConfig.Syntax.Attachment

/-!
What all readers of the grammar share: the way from one token to the next, and the readers for
nested parts, which are given from outside so that each module holds one part of the grammar.
-/

namespace SiteConfig.Script
open Text

/-- Whether a semicolon may be read into the text behind a token. -/
inductive Ending where
  /-- The token stands inside brackets. -/
  | never
  /-- The statement may end here, and its last token ends no value. -/
  | word
  /-- The statement may end here, but a value could also go on. -/
  | value

namespace Ending

/-- Whether a semicolon is inserted right here. -/
def inserts (e : Ending) (c : Cursor) : Bool :=
  match e with
  | never => false
  | word => Semicolon.inserted false (c.left + 1) c.rest
  | value => Semicolon.inserted true (c.left + 1) c.rest

/-- Behind a value of an expression that may end its statement. -/
def ofTail (tail : Bool) : Ending :=
  if tail then value else never

end Ending

/-- Readers for nested parts. `room` bounds the length of lists at this level. -/
structure Grammar where
  room : Nat
  /-- Reads one expression; the flag says that the statement may end behind it. -/
  expression : Bool → Scan Operand
  /-- Reads one statement that starts right here. -/
  statement : Scan (StatementBody Tree)
  /-- Reads one element of markup behind its opening `<`. -/
  markup : Scan Unit

namespace Cursor

/-- The next token, unless a semicolon is inserted before it. -/
def next? (ending : Ending) : (fuel : Nat) → Cursor → Option Cursor
  | 0, _ => none
  | fuel + 1, c =>
    if ending.inserts c then none
    else
      let c := c.forward (Lexeme.run isBlank c.rest)
      match Lexeme.comment c.rest with
      | some k => next? ending fuel (c.forward k)
      | none => some c

/-- The place where a semicolon is inserted, behind comments of the same line if need be. -/
def insertion? (ending : Ending) : (fuel : Nat) → Cursor → Option Cursor
  | 0, _ => none
  | fuel + 1, c =>
    if ending.inserts c then some c
    else
      let c := c.forward (Lexeme.run isBlank c.rest)
      match Lexeme.comment c.rest with
      | some k => insertion? ending fuel (c.forward k)
      | none => none

end Cursor

namespace Scan

/-- Passes blanks and comments. -/
def gap : Scan Unit := do
  let cs ← rest
  skip (Lexeme.gap cs)

/-- Passes blanks, comments and page comments. -/
def wideGap : (fuel : Nat) → Scan Unit
  | 0 => gap
  | fuel + 1 => do
    gap
    match Lexeme.pageComment (← rest) with
    | some k =>
      skip k
      wideGap fuel
    | none => return

/-- To the start of an expression or statement. -/
def opening : Scan Unit := do
  wideGap (← get).left

/-- The text from the next token on; nothing if a semicolon is inserted before it. -/
def upcoming (ending : Ending) : Scan (List Char) := do
  let c ← get
  return match c.next? ending (c.left + 1) with
    | some d => d.rest
    | none => []

/-- Reads `s` behind blanks and comments. -/
def token (s : String) : Scan Unit := do
  gap
  guard (← sees s)
  skip s.length

/-- The word that a text starts with, if it does. -/
def wordOf (cs : List Char) : Option String :=
  (Lexeme.name cs).map fun n => String.ofList (cs.take n)

def name : Scan String := do
  gap
  lexeme Lexeme.name

/-- Reads the word `w` behind blanks and comments. -/
def keyword (w : String) : Scan Unit := do
  guard ((← name) = w)

def stringLiteral : Scan String := do
  gap
  lexeme Lexeme.string

def attempt {α : Type} (s : Scan α) : Scan (Option α) :=
  (some <$> s) <|> pure none

/-- Reads the semicolon of a statement, which may be inserted. Comments before it belong to the
statement. -/
def semicolon (ending : Ending) : Scan Unit := do
  let c ← get
  match c.insertion? ending (c.left + 1) with
  | some d => set d
  | none => token ";"

/-- A closing brace may take an inserted semicolon, and the comments before it, with it. -/
def absorbSemicolon (ending : Ending) : Scan Unit := do
  let c ← get
  match c.insertion? ending (c.left + 1) with
  | some d => set d
  | none => return

/-- The expression that reaches from `start` to here, kept as its text. -/
def verbatimFrom (start : Cursor) : Scan Operand := do
  return .verbatim start.position (start.slice (← get))

/-- An operand used as a value. -/
def asValue (s : Scan Operand) : Scan Operand := do
  let o ← s
  guard (o.isValue && o.kind ≠ .spread)
  return o

end Scan

/-- A bracketed list as read. -/
structure Listing (α : Type) where
  pieces : List (Piece α) := []
  /-- A comma stands where an element was due. -/
  holes : Bool := false
  /-- The list ends behind a comma. -/
  trailing : Bool := false

namespace Listing

variable {α : Type}

def items (l : Listing α) : List α :=
  l.pieces.filterMap fun
    | .item value .. => some value
    | .comment .. => none

/-- Neither an empty slot nor a comma at the end. -/
def isPlain (l : Listing α) : Bool :=
  !l.holes && !l.trailing

def add (p : Piece α) (l : Listing α) : Listing α :=
  { l with pieces := p :: l.pieces }

/-- Reads the rest of a list up to its closing bracket. `due` says that an element may stand here
and `begun` that a comma was read. A page comment counts as an element that needs no comma. -/
def read (close : Char) (element : Scan α) (page : Position → String → α) :
    (fuel : Nat) → (begun due : Bool) → Scan (Listing α)
  | 0, _, _ => failure
  | fuel + 1, begun, due => do
    Scan.skip (Lexeme.run isBlank (← Scan.rest))
    let start ← get
    match Lexeme.comment start.rest with
    | some k =>
      Scan.skip k
      let stop ← get
      let rest ← read close element page fuel begun due
      return rest.add (.comment (start.slice stop) start.position.line stop.position.line)
    | none =>
      match Lexeme.pageComment start.rest with
      | some k =>
        guard due
        Scan.skip k
        let stop ← get
        let rest ← read close element page fuel begun due
        return rest.add (.item (page start.position (start.slice stop)) start.position.line
          stop.position.line)
      | none =>
        match start.rest with
        | [] => failure
        | c :: _ =>
          if c = close then
            Scan.skip 1
            return { trailing := begun && due }
          else if c = ',' then
            Scan.skip 1
            let rest ← read close element page fuel true true
            return { rest with holes := rest.holes || due }
          else
            guard due
            let value ← element
            let stop ← get
            let rest ← read close element page fuel begun false
            return rest.add (.item value start.position.line stop.position.line)

end Listing

namespace Grammar

/-- One or more expressions between commas. -/
def expressionsFrom (g : Grammar) (tail : Bool) (start : Cursor) :
    (fuel : Nat) → Operand → Scan Operand
  | 0, _ => failure
  | fuel + 1, first => do
    if (← Scan.upcoming (.ofTail tail)).head? = some ',' then
      Scan.token ","
      let _ ← Scan.asValue (g.expression tail)
      expressionsFrom g tail start fuel (← Scan.verbatimFrom start)
    else return first

def expressions (g : Grammar) (tail : Bool) : Scan Operand := do
  Scan.opening
  let start ← get
  expressionsFrom g tail start g.room (← Scan.asValue (g.expression tail))

/-- Reads `(`, expressions and `)`. -/
def condition (g : Grammar) : Scan Unit := do
  Scan.token "("
  let _ ← g.expressions false
  Scan.token ")"

/-- An element of an array or argument list. -/
def element (g : Grammar) : Scan Operand := do
  let start ← get
  if ← Scan.sees "..." then
    Scan.skip 3
    let o ← g.expression false
    return { ← Scan.verbatimFrom start with
      kind := .spread, isValue := o.isValue, isTarget := o.isTarget }
  else g.expression false

/-- Reads the elements of a list whose opening bracket is read. -/
def elements (g : Grammar) (close : Char) : Scan (Listing Operand) :=
  Listing.read close g.element .verbatim g.room false true

/-- Reads statements and the comments between them up to the end of the text, a closing brace or
one of the words in `stops`. -/
def statements (g : Grammar) (stops : List String) :
    (fuel : Nat) → Scan (List (Piece (StatementBody Tree)))
  | 0 => failure
  | fuel + 1 => do
    Scan.skip (Lexeme.run isBlank (← Scan.rest))
    let start ← get
    match Lexeme.comment start.rest with
    | some k =>
      Scan.skip k
      let stop ← get
      let rest ← statements g stops fuel
      return .comment (start.slice stop) start.position.line stop.position.line :: rest
    | none =>
      if start.rest.isEmpty || start.rest.head? = some '\x7d' then return []
      else if (Scan.wordOf start.rest).any stops.contains then return []
      else
        let body ← match Lexeme.pageComment start.rest with
          | some k => do
            Scan.skip k
            pure (.verbatim (start.slice (← get)))
          | none => g.statement
        let stop ← get
        let rest ← statements g stops fuel
        return .item body start.position.line stop.position.line :: rest

/-- Reads a block. `ending` says what may stand behind its closing brace; if it is `none`, an
empty block may also end a value. -/
def block (g : Grammar) (ending : Option Ending) : Scan Unit := do
  Scan.token "\x7b"
  let pieces ← g.statements [] g.room
  Scan.token "\x7d"
  let empty := pieces.all fun
    | .comment .. => true
    | .item .. => false
  Scan.absorbSemicolon (ending.getD (if empty then .value else .word))

end Grammar

end SiteConfig.Script
