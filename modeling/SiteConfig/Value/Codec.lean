import SiteConfig.Error
import SiteConfig.Syntax.Expr
import SiteConfig.Value.Basic

/-!
How option values are written as expressions, and which expressions can be read back.
-/

namespace SiteConfig

namespace Value

/-- A path is written `path.resolve(__dirname, '<path>')`. -/
def ofPath (text : String) : Tree :=
  .made (.call
    (.made (.member (.made (.identifier "path")) "resolve"))
    [.made (.identifier "__dirname"), .made (.string text)])

mutual

def encode : Value → Tree
  | string s => .made (.string s)
  | boolean b => .made (.boolean b)
  | path p => ofPath p
  | list items => .made (.array (encodeItems items) [])
  | record entries => .made (.object (encodeEntries entries) [])

def encodeItems : List Value → List (Element Tree)
  | [] => []
  | v :: rest => { value := encode v } :: encodeItems rest

def encodeEntries : List (String × Value) → List (Property Tree)
  | [] => []
  | (key, v) :: rest => .ofKey (.forName key) (encode v) :: encodeEntries rest

end

/-- The path written by a call, if it is the call that writes paths. -/
def pathArgument? (callee : Tree) (arguments : List Tree) : Option String :=
  match callee.expr, arguments with
  | .member object property, [directory, target] =>
    if object.expr.asIdentifier? = some "path" && property = "resolve" &&
        directory.expr.asIdentifier? = some "__dirname" then target.expr.asString?
    else none
  | _, _ => none

def pathProblem : String :=
  "Only path.resolve(__dirname, './path/to/target') allowed"

def kindProblem (e : Expr Tree) : String :=
  e.describe ++ " values are not supported"

def shapeProblem (shape : IrregularShape) : String :=
  "Only object assignments like key: value allowed, found " ++ shape.describe

mutual

/-- Reads a value; fails on the first expression that writes none. -/
def decode (path : String) : Tree → Result Value
  | .node position e => decodeExpr path position e

def decodeExpr (path : String) (position : Option Position) : Expr Tree → Result Value
  | .string s => .ok (.string s)
  | .boolean b => .ok (.boolean b)
  | .array elements _ => (decodeElements path elements).map .list
  | .object properties _ =>
    (decodeProperties path properties).map fun entries => .record (Record.ofEntries entries)
  | .call callee arguments =>
    match pathArgument? callee arguments with
    | some text => .ok (.path text)
    | none => .error (.unsupported ⟨path, position⟩ pathProblem)
  | e => .error (.unsupported ⟨path, position⟩ (kindProblem e))

def decodeElements (path : String) : List (Element Tree) → Result (List Value)
  | [] => .ok []
  | ⟨value, _⟩ :: rest => do
    let v ← decode path value
    return v :: (← decodeElements path rest)

def decodeProperties (path : String) : List (Property Tree) → Result (List (String × Value))
  | [] => .ok []
  | ⟨body, position, _⟩ :: rest => do
    let e ← decodeBody path position body
    return e :: (← decodeProperties path rest)

def decodeBody (path : String) (position : Option Position) :
    PropertyBody Tree → Result (String × Value)
  | .assignment key value => do return (key.name, ← decode path value)
  | .irregular shape _ => .error (.unsupported ⟨path, position⟩ (shapeProblem shape))

end

end Value

namespace Record

def encode (r : Record) : Tree :=
  Value.encode (.record r)

def objectProblem : String :=
  "expected an object literal"

def decodeProperty (path : String) (p : Property Tree) : Result (String × Value) :=
  Value.decodeBody path p.position p.body

/-- Reads the options of an object literal; fails on the first property that is no option. -/
def decode (path : String) (t : Tree) : Result Record :=
  match t.expr.asObject? with
  | some properties => (Value.decodeProperties path properties).map Record.ofEntries
  | none => .error (.structural ⟨path, t.position⟩ objectProblem)

/-- Reads each property that is an option, and reports the others. -/
def decodeAll (path : String) (t : Tree) : Report Record :=
  match t.expr.asObject? with
  | some properties =>
    let results := properties.map (decodeProperty path)
    { value := Record.ofEntries (results.filterMap Except.toOption)
      errors := results.filterMap fun
        | .ok _ => none
        | .error e => some e }
  | none => ⟨[], [.structural ⟨path, t.position⟩ objectProblem]⟩

end Record

end SiteConfig
