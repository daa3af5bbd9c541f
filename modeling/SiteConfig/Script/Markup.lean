import SiteConfig.Script.Literal

/-!
Markup elements inside a script, such as `<a b="c">text</a>`.
-/

namespace SiteConfig.Script
open Text

namespace Markup

/-- A name with hyphens, which has ASCII characters only. -/
def hyphenated : Lexeme
  | c :: rest =>
    let n := Lexeme.run isAsciiNamePart rest
    match rest.drop n with
    | '-' :: more =>
      if isAsciiNameStart c then
        some (2 + n + Lexeme.run (fun d => isAsciiNamePart d || d = '-') more)
      else none
    | _ => none
  | [] => none

/-- A word in the name of a tag or attribute. -/
def tagWord : Lexeme := fun cs =>
  (hyphenated cs).or (Lexeme.name cs)

/-- The length of a run of one to `limit` characters that a semicolon ends, with the semicolon. -/
def referred (p : Char → Bool) (limit : Nat) (cs : List Char) : Option Nat :=
  let n := Lexeme.run p (cs.take limit)
  if n ≠ 0 && cs[n]? = some ';' then some (n + 1) else none

/-- A character given by its name or number, such as `&amp;` or `&#38;`. -/
def reference : Lexeme
  | '&' :: '#' :: c :: rest =>
    if c = 'x' || c = 'X' then (referred isHexDigit 6 rest).map (3 + ·)
    else (referred isDigit 5 (c :: rest)).map (2 + ·)
  | '&' :: rest => (referred isAsciiLetter 30 rest).map (1 + ·)
  | _ => none

/-- The characters of text between elements. -/
def isText (c : Char) : Bool :=
  !"<>\x7b\x7d&".contains c

/-- The rest of a quoted text behind its opening quote, of which `taken` characters are read
already. An ampersand before a letter or `#` must start a reference; before anything else it takes
the next character with it. -/
def quotedTail (quote : Char) : (taken : Nat) → List Char → Option Nat
  | _, [] => none
  | taken + 1, _ :: rest => (quotedTail quote taken rest).map (1 + ·)
  | 0, c :: rest =>
    if c = quote then some 1
    else if c = '&' then
      if rest.head?.any fun d => isAsciiLetter d || d = '#' then do
        let n ← reference (c :: rest)
        return 1 + (← quotedTail quote (n - 1) rest)
      else (quotedTail quote 1 rest).map (1 + ·)
    else (quotedTail quote 0 rest).map (1 + ·)

def quoted : Lexeme
  | c :: rest =>
    if c = '"' || c = '\'' then (quotedTail c 0 rest).map (1 + ·) else none
  | [] => none

/-- Reads the names behind the points in the name of a tag. -/
def points : (fuel : Nat) → Scan Unit
  | 0 => return
  | fuel + 1 => do
    if (← Scan.upcoming .never).head? = some '.' then
      Scan.token "."
      let _ ← Scan.name
      points fuel

/-- Reads a word that a second one may follow behind a colon, and tells whether it is a single
name without hyphens. -/
def attributeName : Scan Bool := do
  Scan.gap
  let word ← Scan.lexeme tagWord
  if (← Scan.upcoming .never).head? = some ':' then
    Scan.token ":"
    Scan.gap
    let _ ← Scan.lexeme tagWord
    return false
  else return !word.toList.contains '-'

/-- Reads the name of a tag: like that of an attribute, or names between points. -/
def tagName (g : Grammar) : Scan Unit := do
  if ← attributeName then points g.room

/-- Reads an expression, or nothing, in braces. -/
def embedded (g : Grammar) : Scan Unit := do
  Scan.token "\x7b"
  match ← Scan.upcoming .never with
  | '\x7d' :: _ => Scan.token "\x7d"
  | '.' :: '.' :: '.' :: _ =>
    Scan.token "..."
    let _ ← Scan.asValue (g.expression false)
    Scan.token "\x7d"
  | _ =>
    let _ ← g.expressions false
    Scan.token "\x7d"

def attributeValue (g : Grammar) : Scan Unit := do
  Scan.gap
  match (← Scan.rest).head? with
  | some '<' =>
    Scan.skip 1
    g.markup
  | some '\x7b' => embedded g
  | _ =>
    let _ ← Scan.lexeme quoted

/-- Reads attributes up to `>` or `/>`, and tells whether the element is closed by the latter. -/
def attributes (g : Grammar) : (fuel : Nat) → Scan Bool
  | 0 => failure
  | fuel + 1 => do
    match ← Scan.upcoming .never with
    | '>' :: _ =>
      Scan.token ">"
      return false
    | '/' :: _ =>
      Scan.token "/"
      Scan.token ">"
      return true
    | '\x7b' :: _ =>
      embedded g
      attributes g fuel
    | _ =>
      let _ ← attributeName
      if (← Scan.upcoming .never).head? = some '=' then
        Scan.token "="
        attributeValue g
      attributes g fuel

/-- Reads children up to the closing tag. -/
def children (g : Grammar) : (fuel : Nat) → Scan Unit
  | 0 => failure
  | fuel + 1 => do
    Scan.skip (Lexeme.run isText (← Scan.rest))
    match ← Scan.rest with
    | '\x7b' :: _ =>
      embedded g
      children g fuel
    | '&' :: _ =>
      let _ ← Scan.lexeme reference
      children g fuel
    | '<' :: '!' :: _ =>
      let _ ← Scan.lexeme Lexeme.pageComment
      children g fuel
    | '<' :: _ =>
      Scan.skip 1
      if (← Scan.upcoming .never).head? = some '/' then
        Scan.token "/"
        let _ ← Scan.attempt (tagName g)
        Scan.token ">"
      else
        g.markup
        children g fuel
    | _ => failure

/-- Reads an element behind its opening `<`. -/
def element (g : Grammar) : Scan Unit := do
  if (← Scan.upcoming .never).head? = some '>' then
    Scan.token ">"
    children g g.room
  else
    tagName g
    if ← attributes g g.room then return
    children g g.room

end Markup

end SiteConfig.Script
