import SiteConfig.Script.Markup

namespace SiteConfig.Script
open Text

namespace Expression

/-- Operators between two values. A longer operator stands before its beginnings. -/
def binaryOperators : List String :=
  [">>>", "===", "!==", "&&", "||", "??", "**", "<<", ">>", "<=", ">=", "==", "!=", "*", "/", "%",
    "+", "-", "<", ">", "&", "^", "|"]

def assignmentOperators : List String :=
  [">>>=", "**=", "&&=", "||=", "??=", ">>=", "<<=", "+=", "-=", "*=", "/=", "%=", "^=", "&=", "|="]

def prefixSigns : List String :=
  ["++", "--", "!", "~", "-", "+"]

def prefixWords : List String :=
  ["typeof", "void", "delete", "await"]

/-- The length of the first of `signs` that `cs` starts with. -/
def signLength? (signs : List String) (cs : List Char) : Option Nat :=
  (signs.find? fun s => s.toList.isPrefixOf cs).map String.length

def binaryLength? (cs : List Char) : Option Nat :=
  match Scan.wordOf cs with
  | some "in" => some 2
  | some "instanceof" => some 10
  | some _ => none
  | none => signLength? binaryOperators cs

/-- A single equals sign, neither a comparison nor an arrow. -/
def isPlainEquals : List Char → Bool
  | '=' :: c :: _ => c ≠ '=' && c ≠ '>'
  | ['='] => true
  | _ => false

def isArrow (cs : List Char) : Bool :=
  "=>".toList.isPrefixOf cs

/-- A question mark that starts a choice, neither `??` nor a link such as `?.name`. -/
def isChoice : List Char → Bool
  | '?' :: '?' :: _ => false
  | '?' :: '.' :: rest => rest.head?.any isDigit
  | '?' :: _ => true
  | _ => false

/-- The mark `?.` before a name, bracket or argument list. -/
def isOptionalLink : List Char → Bool
  | '?' :: '.' :: rest => !(rest.head?.any isDigit)
  | _ => false

/-- Reads the body of an arrow function behind the arrow; a block counts as one first. Tells
whether it is a block. -/
def arrowBody (g : Grammar) (tail : Bool) : Scan Bool := do
  Scan.token "=>"
  Scan.opening
  let asBlock ← if ← Scan.sees "\x7b" then Scan.attempt (g.block (some .value)) else pure none
  if asBlock.isSome then return true
  let _ ← Scan.asValue (g.expression tail)
  return false

/-- What has been read of an operand: `closed` says that nothing can be appended to it. -/
structure Part where
  operand : Operand
  closed : Bool := false

def arrowFrom (g : Grammar) (tail : Bool) (start : Cursor) : Scan Part := do
  let isBlock ← arrowBody g tail
  return { operand := ← Scan.verbatimFrom start, closed := !isBlock }

def ofWord (start : Cursor) : Scan Part := do
  return { operand := ← Scan.verbatimFrom start }

/-- Reads a parenthesised expression or the parameters of an arrow function and its body. -/
def parenthesised (g : Grammar) (tail : Bool) : Scan Part := do
  let start ← get
  Scan.skip 1
  let l ← g.elements ')'
  if isArrow (← Scan.upcoming (.ofTail tail)) then
    guard (Grammar.areParameters l)
    arrowFrom g tail start
  else
    let stop ← get
    guard (l.isPlain && l.items.all fun o => o.isValue && o.kind ≠ .spread)
    match l.items with
    | [] => failure
    | [o] => return { operand := o.wrap start.position (start.slice stop) }
    | _ => return { operand := { Operand.verbatim start.position (start.slice stop) with
        wrapped := true } }

/-- A call of `callee` with the arguments in `l`. -/
def callOf (start : Cursor) (callee : Operand) (l : Listing Operand) : Operand :=
  { tree := .node (some start.position) (.call callee.tree (l.items.map (·.tree)))
    kind := .call }

/-- Reads what may follow the word `async`. -/
def asyncTail (g : Grammar) (tail : Bool) (start : Cursor) : Scan Part := do
  let next ← Scan.upcoming (.ofTail tail)
  let plain : Operand := .name start.position "async"
  match next, Scan.wordOf next with
  | _, some "function" =>
    Scan.keyword "function"
    let _ ← g.functionTail .value
    ofWord start
  | _, some w =>
    if w = "in" || w = "instanceof" || w = "of" then return { operand := plain }
    else
      match ← Scan.attempt (do let _ ← Scan.name; arrowFrom g tail start) with
      | some p => return p
      | none => return { operand := plain }
  | '(' :: _, _ =>
    Scan.token "("
    let l ← g.elements ')'
    if isArrow (← Scan.upcoming (.ofTail tail)) then
      guard (Grammar.areParameters l)
      arrowFrom g tail start
    else
      guard (l.items.all (·.isValue))
      return { operand := callOf start plain l }
  | _, none => if isArrow next then arrowFrom g tail start else return { operand := plain }

/-- Reads what follows the word `import` inside an expression. -/
def importTail (tail : Bool) (start : Cursor) : Scan Part := do
  match ← Scan.upcoming (.ofTail tail) with
  | '(' :: _ => ofWord start
  | '.' :: _ =>
    let word ← Scan.verbatimFrom start
    let afterWord ← get
    Scan.token "."
    if (← Scan.name) = "meta" then ofWord start
    else
      set afterWord
      return { operand := word }
  | _ => failure

/-- Reads what follows the word `yield`. -/
def yieldTail (g : Grammar) (tail : Bool) (start : Cursor) : Scan Part := do
  match ← Scan.upcoming (.ofTail tail) with
  | [] => ofWord start
  | '*' :: _ =>
    Scan.token "*"
    let _ ← Scan.asValue (g.expression tail)
    return { operand := ← Scan.verbatimFrom start, closed := true }
  | _ =>
    match ← Scan.attempt (Scan.asValue (g.expression tail)) with
    | some _ => return { operand := ← Scan.verbatimFrom start, closed := true }
    | none => ofWord start

mutual

/-- Reads a constructor call behind its word `new`. -/
def newTail (g : Grammar) (tail : Bool) (start : Cursor) : (fuel : Nat) → Scan Part
  | 0 => failure
  | fuel + 1 => do
    Scan.gap
    if ← Scan.sees "." then
      Scan.token "."
      Scan.keyword "target"
      ofWord start
    else
      let inner ← get
      let callee ← primary g false fuel
      guard (callee.operand.isValue && !callee.closed)
      links g tail false inner g.room callee.operand
      if (← Scan.upcoming (.ofTail tail)).head? = some '(' then
        Scan.token "("
        let l ← g.elements ')'
        guard (l.items.all (·.isValue))
      ofWord start

/-- Reads the links of a constructor: names, brackets and templates, but no calls. -/
def links (g : Grammar) (tail calls : Bool) (start : Cursor) : (fuel : Nat) → Operand → Scan Unit
  | 0, _ => failure
  | fuel + 1, o => do
    match ← Scan.upcoming (.ofTail tail) with
    | '.' :: _ =>
      Scan.token "."
      Scan.gap
      let _ ← Scan.lexeme fun cs => (Lexeme.name cs).or (Lexeme.privateName cs)
      links g tail calls start fuel o
    | '[' :: _ =>
      Scan.token "["
      let _ ← g.expressions false
      Scan.token "]"
      links g tail calls start fuel o
    | '`' :: _ =>
      g.template
      links g tail calls start fuel o
    | _ => return

/-- Reads an operand without what may be appended to it. -/
def primary (g : Grammar) (tail : Bool) : (fuel : Nat) → Scan Part
  | 0 => failure
  | fuel + 1 => do
    let start ← get
    match start.rest with
    | [] => failure
    | c :: _ =>
      if c = '\'' || c = '"' then
        return { operand := .string start.position (← Scan.lexeme Lexeme.string) }
      else if c = '`' then
        g.template
        ofWord start
      else if c = '(' then parenthesised g tail
      else if c = '[' then return { operand := ← g.array }
      else if c = '\x7b' then return { operand := ← g.object }
      else if c = '/' then
        let _ ← Scan.lexeme Lexeme.regex
        ofWord start
      else if c = '<' then
        Scan.skip 1
        g.markup
        ofWord start
      else if c = '@' then
        let _ ← g.decorators g.room
        Scan.keyword "class"
        let _ ← g.classTail
        ofWord start
      else if c = '#' then
        let _ ← Scan.lexeme Lexeme.privateName
        guard (Scan.wordOf (← Scan.upcoming .never) = some "in")
        return { operand := ← Scan.verbatimFrom start, closed := true }
      else if isDigit c || c = '.' then
        let _ ← Scan.lexeme Lexeme.number
        ofWord start
      else
        let word ← Scan.lexeme Lexeme.name
        match word with
        | "true" => return { operand := .boolean start.position true }
        | "false" => return { operand := .boolean start.position false }
        | "undefined" =>
          return { operand := { Operand.verbatim start.position word with
            kind := .undefined, isTarget := true } }
        | "null" | "this" | "super" => ofWord start
        | "function" =>
          let _ ← g.functionTail .value
          ofWord start
        | "class" =>
          let _ ← g.classTail
          ofWord start
        | "async" => asyncTail g tail start
        | "import" => importTail tail start
        | "new" => newTail g tail start fuel
        | "yield" => yieldTail g tail start
        | _ =>
          if isArrow (← Scan.upcoming (.ofTail tail)) then arrowFrom g tail start
          else return { operand := .name start.position word }

end

/-- Reads all that is appended to an operand: names, brackets, arguments, templates and `++`. -/
def appended (g : Grammar) (tail : Bool) (start : Cursor) : (fuel : Nat) → Operand → Scan Operand
  | 0, _ => failure
  | fuel + 1, o => do
    let next ← Scan.upcoming (.ofTail tail)
    match next with
    | '.' :: _ =>
      guard o.isValue
      Scan.token "."
      Scan.gap
      let o' ← if ← Scan.sees "#" then do
          let _ ← Scan.lexeme Lexeme.privateName
          let o' ← Scan.verbatimFrom start
          pure { o' with kind := .member, isTarget := true }
        else do
          let property ← Scan.lexeme Lexeme.name
          pure {
            tree := .node (some start.position) (.member o.tree property)
            kind := .member
            isTarget := true }
      appended g tail start fuel o'
    | '[' :: _ =>
      guard o.isValue
      Scan.token "["
      let _ ← g.expressions false
      Scan.token "]"
      appended g tail start fuel
        { ← Scan.verbatimFrom start with kind := .subscript, isTarget := true }
    | '(' :: _ =>
      guard o.isValue
      Scan.token "("
      let l ← g.elements ')'
      guard (l.items.all (·.isValue))
      appended g tail start fuel (callOf start o l)
    | '`' :: _ =>
      guard o.isValue
      g.template
      appended g tail start fuel { ← Scan.verbatimFrom start with kind := .call }
    | _ =>
      if isOptionalLink next then
        guard o.isValue
        Scan.token "?."
        Scan.gap
        match ← Scan.rest with
        | '(' :: _ =>
          Scan.token "("
          let l ← g.elements ')'
          guard (l.items.all (·.isValue))
          appended g tail start fuel { ← Scan.verbatimFrom start with kind := .call }
        | '[' :: _ =>
          Scan.token "["
          let _ ← g.expressions false
          Scan.token "]"
          appended g tail start fuel
            { ← Scan.verbatimFrom start with kind := .subscript, isTarget := true }
        | _ =>
          let _ ← Scan.lexeme fun cs => (Lexeme.name cs).or (Lexeme.privateName cs)
          appended g tail start fuel
            { ← Scan.verbatimFrom start with kind := .member, isTarget := true }
      else if "++".toList.isPrefixOf next || "--".toList.isPrefixOf next then
        guard o.isValue
        Scan.gap
        Scan.skip 2
        appended g tail start fuel (← Scan.verbatimFrom start)
      else return o

/-- Reads the assignment that `o` may be the left side of. The left side of a destructuring
assignment is kept as its text. -/
def assigned (g : Grammar) (tail : Bool) (start : Cursor) (o : Operand) : Scan Operand := do
  let behind ← get
  let next ← Scan.upcoming (.ofTail tail)
  if isPlainEquals next && o.isAssignable then
    let isPattern := !o.wrapped && (o.kind = .array || o.kind = .object)
    let left := if isPattern then
        Tree.node (some start.position) (.verbatim (start.slice behind))
      else o.tree
    Scan.token "="
    let right ← Scan.asValue (g.expression tail)
    return {
      tree := .node (some start.position) (.assignment left right.tree)
      kind := .assignment
      isDefaulted := o.isTarget && !o.wrapped }
  else
    match if o.isUpdatable then signLength? assignmentOperators next else none with
    | some k =>
      Scan.gap
      Scan.skip k
      let _ ← Scan.asValue (g.expression tail)
      Scan.verbatimFrom start
    | none => return o

/-- The length of a sign or word that stands before an operand. -/
def prefixLength? (cs : List Char) : Option Nat :=
  match Scan.wordOf cs with
  | some w => if prefixWords.contains w then some w.length else none
  | none => signLength? prefixSigns cs

/-- Reads an operand with the signs before it and all that is appended to it. -/
def operand (g : Grammar) (tail : Bool) : (fuel : Nat) → Scan Operand
  | 0 => failure
  | fuel + 1 => do
    Scan.opening
    let start ← get
    match prefixLength? start.rest with
    | some k =>
      Scan.skip k
      let _ ← Scan.asValue (operand g tail fuel)
      Scan.verbatimFrom start
    | none =>
      let p ← primary g tail (fuel + 1)
      if p.closed then return p.operand
      else assigned g tail start (← appended g tail start g.room p.operand)

/-- Reads the operators behind an operand and their other operands. -/
def operators (g : Grammar) (tail : Bool) (start : Cursor) : (fuel : Nat) → Operand → Scan Operand
  | 0, _ => failure
  | fuel + 1, o => do
    let next ← Scan.upcoming (.ofTail tail)
    if isChoice next then
      guard o.isValue
      Scan.token "?"
      let _ ← Scan.asValue (g.expression false)
      Scan.token ":"
      let _ ← Scan.asValue (operand g tail g.room)
      operators g tail start fuel (← Scan.verbatimFrom start)
    else
      match binaryLength? next with
      | some k =>
        guard o.isValue
        Scan.gap
        Scan.skip k
        let _ ← Scan.asValue (operand g tail g.room)
        operators g tail start fuel (← Scan.verbatimFrom start)
      | none => return o

/-- Reads an expression without commas. -/
def read (g : Grammar) (tail : Bool) : Scan Operand := do
  Scan.opening
  let start ← get
  operators g tail start g.room (← operand g tail g.room)

end Expression

end SiteConfig.Script
