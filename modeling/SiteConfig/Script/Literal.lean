import SiteConfig.Script.Function

namespace SiteConfig.Script
open Text

/-- A property as read, with the two readings of the object it stands in. -/
structure Member where
  body : PropertyBody Tree
  position : Position
  isValue : Bool := true
  isTarget : Bool := false

namespace Member

def irregular (shape : IrregularShape) (start stop : Cursor) : Member :=
  { body := .irregular shape (start.slice stop), position := start.position }

/-- The key for a name that is not computed; a string that cannot be read is no key. -/
def key? : NameForm → Option PropertyKey
  | .word text => some ⟨text, .identifier⟩
  | .string text => (Quoted.unquote text).map (⟨·, .string⟩)
  | .number text => some ⟨text, .numeric⟩
  | .privateWord => none
  | .computed => none

def toProperty (m : Member) (trivia : Trivia) : Property Tree :=
  { body := m.body, position := some m.position, trivia }

end Member

namespace Grammar

/-- Reads a pair behind its name. -/
def pairTail (g : Grammar) (start : Cursor) (name : NameForm) : Scan Member := do
  Scan.token ":"
  let o ← g.expression false
  let stop ← get
  let m : Member := match Member.key? name with
    | some key => { body := .assignment key o.tree, position := start.position }
    | none => Member.irregular .computed start stop
  return { m with isValue := o.isValue, isTarget := o.isPattern }

/-- Reads a property behind a name without modifiers. -/
def plainTail (g : Grammar) (start : Cursor) (name : NameForm) : Scan Member := do
  match ← Scan.upcoming .never, name with
  | ':' :: _, _ => g.pairTail start name
  | '(' :: _, _ =>
    g.methodTail
    return .irregular .method start (← get)
  | '=' :: c :: _, .word _ =>
    guard (c ≠ '=' && c ≠ '>')
    Scan.token "="
    let _ ← Scan.asValue (g.expression false)
    return { Member.irregular .unrecognized start (← get) with isValue := false, isTarget := true }
  | _, .word _ => return { Member.irregular .shorthand start (← get) with isTarget := true }
  | _, _ => failure

def property (g : Grammar) : Scan Member := do
  let start ← get
  if ← Scan.sees "..." then
    Scan.skip 3
    let o ← g.expression false
    return { Member.irregular .spread start (← get) with
      isValue := o.isValue, isTarget := o.isTarget }
  else
    let decorated ← g.decorators g.room
    let modified ← modifiers .never
    let name ← g.memberName
    if decorated || modified then
      g.methodTail
      return .irregular .method start (← get)
    else g.plainTail start name

def pageMember (position : Position) (text : String) : Member :=
  { body := .irregular .unrecognized text, position }

/-- Reads an object literal or object pattern. -/
def object (g : Grammar) : Scan Operand := do
  let start ← get
  Scan.skip 1
  let l ← Listing.read '\x7d' g.property pageMember g.room false true
  let (items, dangling) := Piece.attach l.pieces
  let properties := items.map fun (m, trivia) => m.toProperty trivia
  return {
    tree := .node (some start.position) (.object properties dangling)
    kind := .object
    isValue := l.items.all (·.isValue)
    isTarget := l.items.all (·.isTarget) }

/-- Reads an array literal or array pattern. Empty slots leave nothing in the tree. -/
def array (g : Grammar) : Scan Operand := do
  let start ← get
  Scan.skip 1
  let l ← g.elements ']'
  let (items, dangling) := Piece.attach l.pieces
  let elements := items.map fun (o, trivia) => { value := o.tree, trivia : Element Tree }
  return {
    tree := .node (some start.position) (.array elements dangling)
    kind := .array
    isValue := l.items.all (·.isValue)
    isTarget := l.items.all (·.isPattern) }

/-- Reads a template behind its opening quote. -/
def templateTail (g : Grammar) : (fuel : Nat) → Scan Unit
  | 0 => failure
  | fuel + 1 => do
    Scan.skip (Lexeme.templateText (← Scan.rest))
    match ← Scan.rest with
    | '`' :: _ => Scan.skip 1
    | '\\' :: _ =>
      let _ ← Scan.lexeme Lexeme.escape
      templateTail g fuel
    | '$' :: _ =>
      Scan.skip 2
      let _ ← g.expressions false
      Scan.token "\x7d"
      templateTail g fuel
    | _ => failure

def template (g : Grammar) : Scan Unit := do
  Scan.token "`"
  g.templateTail g.room

end Grammar

end SiteConfig.Script
