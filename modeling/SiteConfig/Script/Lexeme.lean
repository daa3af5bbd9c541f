import SiteConfig.Script.Cursor

namespace SiteConfig.Script.Lexeme
open Text

/-- The number of characters before the first one that fails `p`. -/
def run (p : Char → Bool) (cs : List Char) : Nat :=
  (cs.takeWhile p).length

/-- The length of the rest of a block comment, up to and with its closing mark. -/
def blockCommentTail : List Char → Option Nat
  | [] => none
  | '*' :: '/' :: _ => some 2
  | _ :: rest => (blockCommentTail rest).map (· + 1)

def isCommentEnd (c : Char) : Bool :=
  isLineEnd c || c = '\r'

def comment : Lexeme
  | '/' :: '/' :: rest => some (2 + run (!isCommentEnd ·) rest)
  | '/' :: '*' :: rest => (blockCommentTail rest).map (2 + ·)
  | _ => none

/-- A line that opens or closes a comment of the page around the script. -/
def pageComment : Lexeme
  | '<' :: '!' :: '-' :: '-' :: rest => some (4 + run (!isLineEnd ·) rest)
  | '-' :: '-' :: '>' :: rest => some (3 + run (!isLineEnd ·) rest)
  | _ => none

/-- The first line of a script that names its interpreter. -/
def interpreterLine : Lexeme
  | '#' :: '!' :: rest => some (2 + run (· != '\n') rest)
  | _ => none

/-- The length of an escaped character in a name: four digits, or some in braces. -/
def nameEscape : Lexeme
  | '\\' :: 'u' :: '\x7b' :: rest =>
    let n := run isHexDigit rest
    if n ≠ 0 && rest[n]? = some '\x7d' then some (n + 4) else none
  | '\\' :: 'u' :: rest => if 4 ≤ run isHexDigit (rest.take 4) then some 6 else none
  | _ => none

/-- The length of the rest of a name, of which `taken` characters are read already. -/
def nameTail : (taken : Nat) → List Char → Nat
  | _, [] => 0
  | taken + 1, _ :: rest => 1 + nameTail taken rest
  | 0, c :: rest =>
    if isNamePart c then 1 + nameTail 0 rest
    else match nameEscape (c :: rest) with
      | some n => 1 + nameTail (n - 1) rest
      | none => 0

/-- A name, or a word of the language. -/
def name : Lexeme := fun cs =>
  match cs with
  | [] => none
  | c :: rest =>
    if isNameStart c then some (1 + nameTail 0 rest)
    else (nameEscape cs).map fun n => n + nameTail 0 (cs.drop n)

def privateName : Lexeme
  | '#' :: rest => (name rest).map (1 + ·)
  | _ => none

/-- Digits that may be separated by single underscores. -/
def digits (isDigit : Char → Bool) : List Char → Nat
  | '_' :: _ => 0
  | cs => go cs
where
  go : List Char → Nat
    | '_' :: c :: rest => if isDigit c then 2 + go rest else 0
    | c :: rest => if isDigit c then 1 + go rest else 0
    | [] => 0

def radixNumber (isDigit : Char → Bool) (cs : List Char) : Option Nat :=
  let n := digits isDigit cs
  if n = 0 then none
  else some (2 + n + if cs[n]? = some 'n' then 1 else 0)

/-- The length of an exponent, or zero. -/
def exponent : List Char → Nat
  | e :: rest =>
    if e = 'e' || e = 'E' then
      let sign := match rest with
        | '+' :: _ => 1
        | '-' :: _ => 1
        | _ => 0
      let n := digits isDigit (rest.drop sign)
      if n = 0 then 0 else 1 + sign + n
    else 0
  | [] => 0

/-- Whether digits may be followed by a point: a single zero, or at most one zero before a digit
that is not zero. -/
def takesPoint : List Char → Bool
  | ['0'] => true
  | '0' :: c :: _ => c ≠ '0' && c ≠ '_'
  | _ => true

def fraction (cs : List Char) : Nat :=
  let n := digits isDigit cs
  n + exponent (cs.drop n)

def decimal (cs : List Char) : Option Nat :=
  match cs with
  | '.' :: rest =>
    let n := digits isDigit rest
    if n = 0 then none else some (1 + n + exponent (rest.drop n))
  | _ =>
    let n := digits isDigit cs
    if n = 0 then none
    else
      let rest := cs.drop n
      if rest.head? = some 'n' then some (n + 1)
      else if takesPoint (cs.take n) then
        match rest with
        | '.' :: rest => some (n + 1 + fraction rest)
        | rest => some (n + exponent rest)
      else some n

def number : Lexeme := fun cs =>
  match cs with
  | '0' :: r :: rest =>
    let radix :=
      if r = 'x' || r = 'X' then radixNumber isHexDigit rest
      else if r = 'b' || r = 'B' then radixNumber (fun c => c = '0' || c = '1') rest
      else if r = 'o' || r = 'O' then radixNumber isOctalDigit rest
      else none
    radix.or (decimal cs)
  | _ => decimal cs

/-- The length of one escape in a string or a template. -/
def escape : Lexeme
  | '\\' :: 'x' :: rest => if 2 ≤ run isHexDigit (rest.take 2) then some 4 else none
  | '\\' :: 'u' :: '\x7b' :: rest =>
    let n := run isHexDigit rest
    if n ≠ 0 && rest[n]? = some '\x7d' then some (n + 4) else none
  | '\\' :: 'u' :: rest => if 4 ≤ run isHexDigit (rest.take 4) then some 6 else none
  | '\\' :: c :: rest =>
    if isOctalDigit c then some (1 + run isOctalDigit ((c :: rest).take 3))
    else if (c = '\r' || c = '?') && rest.head?.any isLineEnd then some 3
    else some 2
  | _ => none

/-- The length of blanks and comments, of which `taken` characters are read already. -/
def gapTail : (taken : Nat) → List Char → Nat
  | _, [] => 0
  | taken + 1, _ :: rest => 1 + gapTail taken rest
  | 0, c :: rest =>
    if isBlank c then 1 + gapTail 0 rest
    else match comment (c :: rest) with
      | some n => 1 + gapTail (n - 1) rest
      | none => 0

/-- The length of the blanks and comments that a text starts with. -/
def gap (cs : List Char) : Nat :=
  gapTail 0 cs

/-- The rest of a string after its opening quote, of which `taken` characters are read already. A
string may go on over blanks and comments to a closing quote on a later line. -/
def stringTail (quote : Char) : (taken : Nat) → List Char → Option Nat
  | _, [] => none
  | taken + 1, _ :: rest => (stringTail quote taken rest).map (1 + ·)
  | 0, c :: rest =>
    if c = '\\' then do
      let n ← escape (c :: rest)
      return 1 + (← stringTail quote (n - 1) rest)
    else if c = quote then some 1
    else if c = '\n' || c = '\r' then
      let n := gap (c :: rest)
      if (c :: rest)[n]? = some quote then some (n + 1) else none
    else (stringTail quote 0 rest).map (1 + ·)

def string : Lexeme
  | c :: rest =>
    if c = '"' || c = '\'' then (stringTail c 0 rest).map (1 + ·) else none
  | [] => none

/-- The rest of a bracketed class of a regular expression. -/
def regexClass : List Char → Option Nat
  | ']' :: _ => some 1
  | '\\' :: c :: rest => if c = '\n' then none else (regexClass rest).map (2 + ·)
  | c :: rest => if c = '\n' || c = '\\' then none else (regexClass rest).map (1 + ·)
  | [] => none

/-- The rest of a regular expression up to and with the slash that closes it, of which `taken`
characters are read already. -/
def regexTail : (taken : Nat) → List Char → Option Nat
  | _, [] => none
  | taken + 1, _ :: rest => (regexTail taken rest).map (1 + ·)
  | 0, c :: rest =>
    if c = '/' then some 1
    else if c = '[' then do
      let n ← regexClass rest
      return 1 + (← regexTail n rest)
    else if c = '\\' then
      if rest.head?.any (· ≠ '\n') then (regexTail 1 rest).map (1 + ·) else none
    else if c = '\n' then none
    else (regexTail 0 rest).map (1 + ·)

/-- A regular expression with its flags. The pattern is not empty. -/
def regex : Lexeme
  | '/' :: '/' :: _ => none
  | '/' :: rest => do
    let n ← regexTail 0 rest
    return 1 + n + run (fun c => 'a' ≤ c && c ≤ 'z') (rest.drop n)
  | _ => none

/-- The characters of a template up to its next closing quote, escape or substitution. -/
def templateText : List Char → Nat
  | '`' :: _ => 0
  | '\\' :: _ => 0
  | '$' :: '\x7b' :: _ => 0
  | _ :: rest => 1 + templateText rest
  | [] => 0

end SiteConfig.Script.Lexeme
