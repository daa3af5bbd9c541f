import SiteConfig.Text.Character

/-!
String literals. `encode` writes a text between the quotes that need fewer escapes, `decode` reads
a literal between either quotes.
-/

namespace SiteConfig.Quoted
open Text

/-- Double quotes only if the text holds more single quotes than double quotes. -/
def delimiter (text : List Char) : Char :=
  if text.count '"' < text.count '\'' then '"' else '\''

/-- The `width` low hexadecimal digits of `n`, most significant first. -/
def hexDigits : (width : Nat) → (n : Nat) → List Char
  | 0, _ => []
  | width + 1, n => hexDigits width (n / 16) ++ [Nat.digitChar (n % 16)]

def encodeChar (quote c : Char) : List Char :=
  if c = '\\' then ['\\', '\\']
  else if c = '\n' then ['\\', 'n']
  else if c = '\r' then ['\\', 'r']
  else if c = '\t' then ['\\', 't']
  else if c = quote then ['\\', c]
  else if isControl c then '\\' :: 'u' :: hexDigits 4 c.toNat
  else [c]

def encode (text : List Char) : List Char :=
  let quote := delimiter text
  quote :: text.flatMap (encodeChar quote) ++ [quote]

/-- The value of hexadecimal digits that fit into 32 bits. One plus sign may stand before them. -/
def hexValue? (digits : List Char) : Option Nat := do
  let digits := match digits with
    | '+' :: d :: rest => d :: rest
    | _ => digits
  guard (digits ≠ [])
  let n ← digits.foldlM (fun n c => (hexDigit? c).map (16 * n + ·)) 0
  guard (n < UInt32.size)
  return n

/-- Surrogates and numbers above 0x10FFFF name no character. -/
def charOfCode? (n : Nat) : Option Char :=
  if h : n.isValidChar then some (Char.ofNatAux n h) else none

def simpleEscape? : Char → Option Char
  | 'n' => some '\n'
  | 'r' => some '\r'
  | 't' => some '\t'
  | 'b' => some '\u0008'
  | 'f' => some '\u000c'
  | 'v' => some '\u000b'
  | _ => none

/-- The digits of an escape that starts with `\u`, and what follows it. -/
def unicodeDigits : List Char → List Char × List Char
  | '\x7b' :: rest => (rest.takeWhile (· != '\x7d'), (rest.dropWhile (· != '\x7d')).drop 1)
  | rest => (rest.take 4, rest.drop 4)

theorem length_unicodeDigits (s : List Char) : (unicodeDigits s).2.length ≤ s.length := by
  unfold unicodeDigits
  split
  · rename_i rest
    have h : (rest.dropWhile (· != '\x7d')).length ≤ rest.length :=
      (List.dropWhile_suffix _).length_le
    simp only [List.length_drop, List.length_cons]
    omega
  · simp

/-- Reads the text between the quotes; an escape that names no character makes it unreadable. -/
def decodeBody : List Char → Option (List Char)
  | [] => some []
  | '\\' :: [] => none
  | '\\' :: c :: rest =>
    match simpleEscape? c with
    | some e => (decodeBody rest).map (e :: ·)
    | none =>
      if c = '0' && !(rest.head?.any isDigit) then (decodeBody rest).map ('\x00' :: ·)
      else if c = 'x' then do
        let e ← hexValue? (rest.take 2) >>= charOfCode?
        (decodeBody (rest.drop 2)).map (e :: ·)
      else if c = 'u' then do
        let e ← hexValue? (unicodeDigits rest).1 >>= charOfCode?
        (decodeBody (unicodeDigits rest).2).map (e :: ·)
      else if c = '\n' then decodeBody rest
      else if c = '\r' then
        match rest with
        | '\n' :: rest => decodeBody rest
        | rest => decodeBody rest
      else (decodeBody rest).map (c :: ·)
  | c :: rest => (decodeBody rest).map (c :: ·)
termination_by s => s.length
decreasing_by
  all_goals
    simp only [List.length_cons, List.length_drop]
    have := length_unicodeDigits rest
    omega

/-- Reads a whole literal: the same quote at both ends, and a readable body. -/
def decode : List Char → Option (List Char)
  | quote :: rest =>
    if (quote = '\'' || quote = '"') && rest.getLast? = some quote then decodeBody rest.dropLast
    else none
  | [] => none

/-- The literal that reads back as `text`. -/
def quote (text : String) : String :=
  String.ofList (encode text.toList)

def unquote (literal : String) : Option String :=
  (decode literal.toList).map String.ofList

end SiteConfig.Quoted
