import SiteConfig.Script.Lexeme

/-!
Where a statement may end without its semicolon. The answer depends only on the text behind the
last token and on whether that token ends a value, because a value could go on.
-/

namespace SiteConfig.Script.Semicolon
open Text

/-- What a look over blanks and comments tells. -/
inductive Outlook where
  /-- No semicolon can stand here. -/
  | refused
  /-- Nothing yet: no line end was passed. -/
  | undecided
  /-- A comment or line end allows a semicolon. -/
  | allowed
deriving DecidableEq

/-- The text behind a block comment, and whether the comment holds a line end. The comment may
lack its closing mark. -/
def passBlock : List Char → Bool × Option (List Char)
  | [] => (false, none)
  | '*' :: '/' :: rest => (false, some rest)
  | c :: rest =>
    let (broken, after) := passBlock rest
    (broken || isLineEnd c, after)

/-- Passes blanks and comments. Unless `across` is set, the look ends behind the first block
comment that no other comment follows at once. -/
def look (across : Bool) : (fuel : Nat) → List Char → Outlook × List Char
  | 0, cs => (.allowed, cs)
  | fuel + 1, cs =>
    match cs.dropWhile isAsciiSpace with
    | '/' :: '/' :: rest => look across fuel (rest.dropWhile (!isLineEnd ·))
    | '/' :: '*' :: rest =>
      match passBlock rest with
      | (broken, some after) =>
        if after.head? ≠ some '/' && !across then
          (if broken then .allowed else .undecided, after)
        else look across fuel after
      | (_, none) => (.allowed, [])
    | '/' :: rest => (.refused, rest)
    | rest => (.allowed, rest)

/-- Behind `i` at the start of a line: `in` and `instanceof` continue a value. -/
def afterLetterI : List Char → Bool
  | 'n' :: rest =>
    match rest with
    | c :: _ =>
      if isAsciiLetter c then
        let tail := "stanceof".toList
        if tail.isPrefixOf rest then (rest.drop tail.length).head?.any isAsciiLetter else true
      else false
    | [] => false
  | _ => true

/-- Whether the first characters of a later line cannot continue a value. -/
def beginsAnew : List Char → Bool
  | [] => true
  | c :: rest =>
    if "`,:;*%><=[(?^|&/".contains c then false
    else if c = '.' then rest.head?.any isDigit
    else if c = '+' || c = '-' then rest.head? = some c
    else if c = '!' then rest.head? ≠ some '='
    else if c = 'i' then afterLetterI rest
    else true

/-- Whether a semicolon is read into the text that follows a token. -/
def inserted (afterValue : Bool) : (fuel : Nat) → List Char → Bool
  | 0, _ => false
  | fuel + 1, cs =>
    match cs with
    | [] => true
    | '/' :: _ =>
      match look false (fuel + 1) cs with
      | (.refused, _) => false
      | (outlook, rest) =>
        if outlook = .allowed && !afterValue && rest.head? ≠ some ',' && rest.head? ≠ some '=' then
          true
        else step fuel rest
    | _ => step fuel cs
where
  step (fuel : Nat) : List Char → Bool
    | [] => false
    | c :: rest =>
      if c = '\x7d' then true
      else if isLineEnd c then
        match look true (fuel + 1) rest with
        | (.refused, _) => false
        | (_, rest) => beginsAnew rest
      else if isAsciiSpace c then inserted afterValue fuel rest
      else false

end SiteConfig.Script.Semicolon
