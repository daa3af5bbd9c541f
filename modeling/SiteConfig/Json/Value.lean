import SiteConfig.Text.Character

/-!
Texts in the interchange notation of objects, arrays and strings.
-/

namespace SiteConfig.Json
open Text

/-- A value as read. A string is `none` if an escape in it stands for half a character; only a
value that nothing looks at may hold one. -/
inductive Value where
  | null
  | boolean (value : Bool)
  | number (text : List Char)
  | string (text : Option String)
  | array (items : List Value)
  | object (members : List (Option String × Value))

def isSpace (c : Char) : Bool :=
  c = ' ' || c = '\n' || c = '\t' || c = '\r'

def skipSpace (cs : List Char) : List Char :=
  cs.dropWhile isSpace

/-- The value of the four hexadecimal digits that `cs` starts with. -/
def hexCode? (cs : List Char) : Option Nat := do
  guard (4 ≤ cs.length)
  (cs.take 4).foldlM (fun n c => (hexDigit? c).map (16 * n + ·)) 0

def escaped? : Char → Option Char
  | '"' => some '"'
  | '\\' => some '\\'
  | '/' => some '/'
  | 'b' => some '\u0008'
  | 'f' => some '\u000c'
  | 'n' => some '\n'
  | 'r' => some '\r'
  | 't' => some '\t'
  | _ => none

def isHighHalf (n : Nat) : Bool :=
  0xd800 ≤ n && n < 0xdc00

def isLowHalf (n : Nat) : Bool :=
  0xdc00 ≤ n && n < 0xe000

/-- The second half of a character, escaped at the start of `cs`. -/
def lowHalf? : List Char → Option Nat
  | '\\' :: 'u' :: cs => (hexCode? cs).filter isLowHalf
  | _ => none

/-- Reads a string behind its opening quote: its characters, or `none` for them if it holds half
a character, and the text behind it. -/
def stringTail : (fuel : Nat) → List Char → Option (Option (List Char) × List Char)
  | 0, _ => none
  | fuel + 1, cs =>
    match cs with
    | [] => none
    | '"' :: rest => some (some [], rest)
    | '\\' :: 'u' :: rest => do
      let n ← hexCode? rest
      let rest := rest.drop 4
      if isHighHalf n then
        match lowHalf? rest with
        | some low =>
          let c := Char.ofNat (0x10000 + (n - 0xd800) * 0x400 + (low - 0xdc00))
          let (text, rest) ← stringTail fuel (rest.drop 6)
          return (text.map (c :: ·), rest)
        | none => return (none, (← stringTail fuel rest).2)
      else if isLowHalf n then return (none, (← stringTail fuel rest).2)
      else
        let (text, rest) ← stringTail fuel rest
        return (text.map (Char.ofNat n :: ·), rest)
    | '\\' :: e :: rest => do
      let c ← escaped? e
      let (text, rest) ← stringTail fuel rest
      return (text.map (c :: ·), rest)
    | c :: rest => do
      guard (' ' ≤ c && c ≠ '\\')
      let (text, rest) ← stringTail fuel rest
      return (text.map (c :: ·), rest)

/-- The length of a run of digits that is not empty. -/
def digits? (cs : List Char) : Option Nat :=
  let n := (cs.takeWhile isDigit).length
  if n = 0 then none else some n

def wholeLength? : List Char → Option Nat
  | '0' :: rest => if rest.head?.any isDigit then none else some 1
  | cs => digits? cs

def fractionLength? : List Char → Option Nat
  | '.' :: rest => (digits? rest).map (1 + ·)
  | _ => some 0

def exponentLength? : List Char → Option Nat
  | e :: rest =>
    if e = 'e' || e = 'E' then
      match rest with
      | '+' :: rest => (digits? rest).map (2 + ·)
      | '-' :: rest => (digits? rest).map (2 + ·)
      | rest => (digits? rest).map (1 + ·)
    else some 0
  | [] => some 0

def numberLength? (cs : List Char) : Option Nat := do
  let sign := if cs.head? = some '-' then 1 else 0
  let whole ← wholeLength? (cs.drop sign)
  let fraction ← fractionLength? (cs.drop (sign + whole))
  let exponent ← exponentLength? (cs.drop (sign + whole + fraction))
  return sign + whole + fraction + exponent

def literal? (cs : List Char) : Option (Value × List Char) :=
  if "null".toList.isPrefixOf cs then some (.null, cs.drop 4)
  else if "true".toList.isPrefixOf cs then some (.boolean true, cs.drop 4)
  else if "false".toList.isPrefixOf cs then some (.boolean false, cs.drop 5)
  else none

mutual

/-- Reads one value and the text behind it. -/
def value? : (fuel : Nat) → List Char → Option (Value × List Char)
  | 0, _ => none
  | fuel + 1, cs =>
    match skipSpace cs with
    | '"' :: rest => do
      let (text, rest) ← stringTail (rest.length + 1) rest
      return (.string (text.map String.ofList), rest)
    | '[' :: rest =>
      match skipSpace rest with
      | ']' :: rest => some (.array [], rest)
      | rest => do
        let (items, rest) ← items? fuel rest
        return (.array items, rest)
    | '\x7b' :: rest =>
      match skipSpace rest with
      | '\x7d' :: rest => some (.object [], rest)
      | rest => do
        let (members, rest) ← members? fuel rest
        return (.object members, rest)
    | cs =>
      match numberLength? cs with
      | some n => some (.number (cs.take n), cs.drop n)
      | none => literal? cs

/-- Reads the items of an array up to its closing bracket. -/
def items? : (fuel : Nat) → List Char → Option (List Value × List Char)
  | 0, _ => none
  | fuel + 1, cs => do
    let (v, rest) ← value? fuel cs
    match skipSpace rest with
    | ',' :: rest =>
      let (vs, rest) ← items? fuel rest
      return (v :: vs, rest)
    | ']' :: rest => return ([v], rest)
    | _ => none

/-- Reads the members of an object up to its closing brace. -/
def members? : (fuel : Nat) → List Char → Option (List (Option String × Value) × List Char)
  | 0, _ => none
  | fuel + 1, cs =>
    match skipSpace cs with
    | '"' :: rest => do
      let (key, rest) ← stringTail (rest.length + 1) rest
      let key := key.map String.ofList
      match skipSpace rest with
      | ':' :: rest =>
        let (v, rest) ← value? fuel rest
        match skipSpace rest with
        | ',' :: rest =>
          let (ms, rest) ← members? fuel rest
          return ((key, v) :: ms, rest)
        | '\x7d' :: rest => return ([(key, v)], rest)
        | _ => none
      | _ => none
    | _ => none

end

/-- Reads a text that holds one value and nothing else. -/
def parse? (text : String) : Option Value := do
  let cs := text.toList
  let (v, rest) ← value? (2 * cs.length + 2) cs
  guard (skipSpace rest).isEmpty
  return v

end SiteConfig.Json
