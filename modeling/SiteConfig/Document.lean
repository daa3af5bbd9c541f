import SiteConfig.Error
import SiteConfig.Script.Fault
import SiteConfig.Syntax.Forest
import SiteConfig.Syntax.Layout

namespace SiteConfig

/-- A config as edited: the path it is written back to, and its script over a forest of nodes. -/
structure Document where
  path : String
  forest : Forest
  program : Program NodeId

namespace Document

/-- What a config that does not exist yet starts from. -/
def template : String :=
  "module.exports = \x7b\x7d;\n"

def ofProgram (path : String) (p : Program Tree) : Document :=
  let (statements, forest) := Forest.plantStatements {} p.statements
  { path, forest, program := { statements, dangling := p.dangling } }

/-- Reads the text of the config at `path`. -/
def ofSource (source path : String) : Result Document :=
  match Program.ofSource? source with
  | some p => .ok (ofProgram path p)
  | none =>
    let fault := Script.Fault.ofSource source
    .error (.parse ⟨path, some fault.position⟩ fault.problem)

def expr (d : Document) (id : NodeId) : Expr NodeId :=
  d.forest.expr id

def tree (d : Document) (id : NodeId) : Tree :=
  d.forest.tree id

def locationAt (d : Document) (position : Option Position) : SourceLocation :=
  ⟨d.path, position⟩

def location (d : Document) (id : NodeId) : SourceLocation :=
  d.locationAt (d.forest.position id)

def statementTree (d : Document) (s : Statement NodeId) : Statement Tree :=
  { body := match s.body with
      | .expression id => .expression (d.tree id)
      | .verbatim text => .verbatim text
    trivia := s.trivia }

/-- The script as a tree. -/
def toProgram (d : Document) : Program Tree :=
  { statements := d.program.statements.map d.statementTree, dangling := d.program.dangling }

/-- The text of the config as edited. -/
def render (d : Document) : String :=
  d.toProgram.layout

/-- Adds a tree that nothing in the script refers to yet. -/
def plant (d : Document) (t : Tree) : NodeId × Document :=
  let (id, forest) := d.forest.plant t
  (id, { d with forest })

def set (d : Document) (id : NodeId) (e : Expr NodeId) : Document :=
  { d with forest := d.forest.set id e }

/-- The first property of an object that binds `key`; nothing for any other expression. -/
def property? (d : Document) (object : NodeId) (key : String) : Option (Property NodeId) :=
  match d.expr object with
  | .object properties _ => properties.find? (·.binds key)
  | _ => none

/-- The value of `key` on an object, if a property binds it. A property that binds the key but is
no `key: value` is a problem, never a missing key. -/
def value? (d : Document) (object : NodeId) (key problem : String) : Result (Option NodeId) :=
  match d.property? object key with
  | none => .ok none
  | some p =>
    match p.value? with
    | some id => .ok (some id)
    | none => .error (.structural (d.locationAt p.position) problem)

/-- Adds a property at the end of an object. -/
def appendProperty (d : Document) (object : NodeId) (p : Property NodeId) : Document :=
  match d.expr object with
  | .object properties dangling => d.set object (.object (properties ++ [p]) dangling)
  | _ => d

/-- The properties with the value of the first one that binds `key` replaced; one made with
`form` is added if none does. -/
def bind {α : Type} (key : String) (form : KeyForm) (value : α) :
    List (Property α) → List (Property α)
  | [] => [.ofKey ⟨key, form⟩ value]
  | p :: rest => if p.binds key then p.withValue value :: rest else p :: bind key form value rest

/-- Binds `key` on an object to `value`. -/
def bindProperty (d : Document) (object : NodeId) (key : String) (form : KeyForm)
    (value : NodeId) : Document :=
  match d.expr object with
  | .object properties dangling => d.set object (.object (bind key form value properties) dangling)
  | _ => d

end Document

/-- A step on a config: its answer, and the config as the step leaves it, also where it fails. -/
abbrev Change := ExceptT ConfigError (StateM Document)

namespace Change

variable {α : Type}

/-- An answer that is read off the config. -/
def ask (f : Document → Result α) : Change α :=
  ExceptT.mk do return f (← get)

/-- Adds a tree that nothing in the script refers to yet. -/
def plant (t : Tree) : Change NodeId :=
  modifyGet (·.plant t)

end Change

/-- The answer of a step on a config, and the config behind it. -/
def Document.perform {α : Type} (d : Document) (c : Change α) : Result α × Document :=
  c.run.run d

end SiteConfig
