import SiteConfig.Syntax.Key
import SiteConfig.Text.Position

namespace SiteConfig

structure Comment where
  text : String
  /-- A blank line stands before it. -/
  spaced : Bool := false
deriving DecidableEq, Repr

/-- Comments and spacing of one item of a list of statements, properties or elements. -/
structure Trivia where
  leading : List Comment := []
  trailing : Option String := none
  spaced : Bool := false
deriving DecidableEq, Repr

namespace Trivia

def hasComments (t : Trivia) : Bool :=
  !t.leading.isEmpty || t.trailing.isSome

end Trivia

structure Element (α : Type) where
  value : α
  trivia : Trivia := {}

inductive PropertyBody (α : Type) where
  | assignment (key : PropertyKey) (value : α)
  | irregular (shape : IrregularShape) (text : String)

structure Property (α : Type) where
  body : PropertyBody α
  position : Option Position := none
  trivia : Trivia := {}

/-- One expression over operands of type `α`. What a config needs no closer look at is kept
verbatim. -/
inductive Expr (α : Type) where
  | string (value : String)
  | boolean (value : Bool)
  | identifier (name : String)
  | member (object : α) (property : String)
  | assignment (left right : α)
  | call (callee : α) (arguments : List α)
  | array (elements : List (Element α)) (dangling : List Comment)
  | object (properties : List (Property α)) (dangling : List Comment)
  | verbatim (text : String)

inductive StatementBody (α : Type) where
  | expression (value : α)
  | verbatim (text : String)

structure Statement (α : Type) where
  body : StatementBody α
  trivia : Trivia := {}

/-- A script: its statements and the comments after the last one. -/
structure Program (α : Type) where
  statements : List (Statement α) := []
  dangling : List Comment := []

/-- An expression with all its operands. Expressions made by an edit have no position. -/
inductive Tree where
  | node (position : Option Position) (expr : Expr Tree)

namespace Property

variable {α : Type}

def ofKey (key : PropertyKey) (value : α) : Property α :=
  { body := .assignment key value }

def key? (p : Property α) : Option PropertyKey :=
  match p.body with
  | .assignment key _ => some key
  | .irregular .. => none

def value? (p : Property α) : Option α :=
  match p.body with
  | .assignment _ value => some value
  | .irregular .. => none

/-- The key that the property binds on its object, however it is written. -/
def name? (p : Property α) : Option String :=
  match p.body with
  | .assignment key _ => some key.name
  | .irregular shape text => shape.name? text

def binds (name : String) (p : Property α) : Bool :=
  p.name? = some name

def withValue (p : Property α) (value : α) : Property α :=
  match p.body with
  | .assignment key _ => { p with body := .assignment key value }
  | .irregular .. => p

end Property

namespace Expr

variable {α : Type}

def asString? : Expr α → Option String
  | .string value => some value
  | _ => none

def asIdentifier? : Expr α → Option String
  | .identifier name => some name
  | _ => none

def asObject? : Expr α → Option (List (Property α))
  | .object properties _ => some properties
  | _ => none

def describe : Expr α → String
  | .string _ => "string"
  | .boolean _ => "boolean"
  | .identifier _ => "identifier"
  | .member .. => "member expression"
  | .assignment .. => "assignment"
  | .call .. => "call expression"
  | .array .. => "array"
  | .object .. => "object"
  | .verbatim _ => "expression"

end Expr

instance : Inhabited Tree :=
  ⟨.node none (.verbatim "")⟩

instance {α : Type} : Inhabited (Property α) :=
  ⟨{ body := .irregular .unrecognized "" }⟩

namespace Tree

def expr : Tree → Expr Tree
  | .node _ e => e

def position : Tree → Option Position
  | .node p _ => p

/-- An expression made by an edit. -/
def made (e : Expr Tree) : Tree :=
  .node none e

end Tree

end SiteConfig
