import SiteConfig.Script.Grammar

namespace SiteConfig.Script
open Text

/-- How the name of a property or class member is written. -/
inductive NameForm where
  | word (text : String)
  | string (text : String)
  | number (text : String)
  | privateWord
  | computed

namespace Grammar

/-- Parameters of a function: targets with or without defaults, and no empty slots. -/
def areParameters (l : Listing Operand) : Bool :=
  !l.holes && l.items.all (·.isPattern)

def parameters (g : Grammar) : Scan Unit := do
  Scan.token "("
  let l ← g.elements ')'
  guard (areParameters l)

/-- Reads a function behind its word and tells whether it has a name. -/
def functionTail (g : Grammar) (ending : Ending) : Scan Bool := do
  Scan.gap
  if ← Scan.sees "*" then Scan.skip 1
  let name ← Scan.attempt Scan.name
  g.parameters
  g.block (some ending)
  return name.isSome

def startsName (cs : List Char) : Bool :=
  (Lexeme.name cs).isSome || (Lexeme.number cs).isSome ||
    cs.head?.any fun c => "'\"[#".contains c

def memberName (g : Grammar) : Scan NameForm := do
  Scan.gap
  let cs ← Scan.rest
  match cs.head? with
  | some '[' =>
    Scan.skip 1
    let _ ← Scan.asValue (g.expression false)
    Scan.token "]"
    return .computed
  | some '#' =>
    let _ ← Scan.lexeme Lexeme.privateName
    return .privateWord
  | _ =>
    if (Lexeme.string cs).isSome then return .string (← Scan.lexeme Lexeme.string)
    else if (Lexeme.number cs).isSome then return .number (← Scan.lexeme Lexeme.number)
    else return .word (← Scan.lexeme Lexeme.name)

/-- Reads one of `words` if it modifies the name behind it, or a star where one is allowed. -/
def modifier (words : List String) (star : Bool) (ending : Ending) : Scan Bool := do
  let start ← get
  Scan.gap
  match Scan.wordOf (← Scan.rest) with
  | some w =>
    if words.contains w then
      Scan.skip w.length
      let next ← Scan.upcoming ending
      if startsName next || (star && next.head? = some '*') then return true
      set start
      return false
    else
      set start
      return false
  | none =>
    set start
    return false

/-- Reads the words and the star before the name of a method. -/
def modifiers (ending : Ending) : Scan Bool := do
  let isStatic ← modifier ["static"] true ending
  let isAsync ← modifier ["async"] true ending
  Scan.gap
  if ← Scan.sees "*" then
    Scan.skip 1
    return true
  let isAccessor ← modifier ["get", "set"] false ending
  return isStatic || isAsync || isAccessor

/-- Reads a method behind its name. -/
def methodTail (g : Grammar) : Scan Unit := do
  g.parameters
  g.block (some .word)

def decoratorPath : (fuel : Nat) → Scan Unit
  | 0 => return
  | fuel + 1 => do
    if (← Scan.upcoming .never).head? = some '.' then
      Scan.token "."
      let _ ← Scan.name
      decoratorPath fuel

/-- Reads the decorators of a class or member, if there are any, and tells whether there are. -/
def decorators (g : Grammar) : (fuel : Nat) → Scan Bool
  | 0 => return false
  | fuel + 1 => do
    if (← Scan.upcoming .never).head? = some '@' then
      Scan.token "@"
      let _ ← Scan.name
      decoratorPath g.room
      if (← Scan.upcoming .never).head? = some '(' then
        Scan.token "("
        let _ ← g.elements ')'
      let _ ← decorators g fuel
      return true
    else return false

/-- Reads a field behind its name. -/
def fieldTail (g : Grammar) : Scan Unit := do
  if (← Scan.upcoming .word).head? = some '=' then
    Scan.token "="
    let _ ← Scan.asValue (g.expression true)
    Scan.semicolon .value
  else Scan.semicolon .word

def classMember (g : Grammar) : Scan Unit := do
  let _ ← g.decorators g.room
  Scan.gap
  let start ← get
  let isStatic := Scan.wordOf start.rest = some "static"
  if isStatic then Scan.skip "static".length
  if isStatic && (← Scan.upcoming .word).head? = some '\x7b' then g.block (some .word)
  else
    set start
    let _ ← modifiers .word
    let _ ← g.memberName
    if (← Scan.upcoming .word).head? = some '(' then g.methodTail else g.fieldTail

def classMembers (g : Grammar) : (fuel : Nat) → Scan Unit
  | 0 => failure
  | fuel + 1 => do
    Scan.opening
    match (← Scan.rest).head? with
    | some '\x7d' => Scan.skip 1
    | some ';' =>
      Scan.skip 1
      classMembers g fuel
    | _ =>
      g.classMember
      classMembers g fuel

/-- Reads a class behind its word and tells whether it has a name. -/
def classTail (g : Grammar) : Scan Bool := do
  Scan.gap
  let named ← match Scan.wordOf (← Scan.rest) with
    | some "extends" => pure false
    | some w => do
      Scan.skip w.length
      pure true
    | none => pure false
  Scan.gap
  if Scan.wordOf (← Scan.rest) = some "extends" then
    Scan.keyword "extends"
    let _ ← Scan.asValue (g.expression false)
  Scan.token "\x7b"
  g.classMembers g.room
  return named

end Grammar

end SiteConfig.Script
