import SiteConfig.Syntax.Expr
import SiteConfig.Syntax.Quoted

namespace SiteConfig.Script

/-- What an expression is, once its parentheses are taken away. -/
inductive Kind where
  | string
  | boolean
  | name
  | undefined
  | member
  | subscript
  | call
  | assignment
  | array
  | object
  | spread
  | other
deriving DecidableEq

namespace Kind

/-- Parentheses around these kinds are dropped. -/
def losesParentheses : Kind → Bool
  | string | boolean | name | member | call | array | object => true
  | _ => false

/-- A statement of one of these kinds is kept as an expression, any other as its text. -/
def standsAlone : Kind → Bool
  | string | call | assignment => true
  | _ => false

end Kind

/-- An expression as read. The same text can be a value or the target of an assignment, and which
of the two is known only behind it, so both readings are recorded. -/
structure Operand where
  /-- The tree where the expression is used with its parentheses. -/
  tree : Tree
  kind : Kind
  /-- The tree of the expression without its parentheses. -/
  core : Tree := tree
  wrapped : Bool := false
  isValue : Bool := true
  isTarget : Bool := false
  /-- A target with a default, `target = value`. -/
  isDefaulted : Bool := false

namespace Operand

def verbatim (position : Position) (text : String) : Operand :=
  { tree := .node (some position) (.verbatim text), kind := .other }

/-- A string whose value cannot be read is kept as its text. -/
def string (position : Position) (text : String) : Operand :=
  let expr := match Quoted.unquote text with
    | some value => .string value
    | none => .verbatim text
  { tree := .node (some position) expr, kind := .string }

def boolean (position : Position) (value : Bool) : Operand :=
  { tree := .node (some position) (.boolean value), kind := .boolean }

def name (position : Position) (text : String) : Operand :=
  { tree := .node (some position) (.identifier text), kind := .name, isTarget := true }

/-- A list element or parameter that names something to assign to. -/
def isPattern (o : Operand) : Bool :=
  o.isTarget || o.isDefaulted

/-- May stand before `=`. -/
def isAssignable (o : Operand) : Bool :=
  o.wrapped || o.isTarget

/-- May stand before an operator such as `+=`. -/
def isUpdatable (o : Operand) : Bool :=
  o.wrapped || o.kind = .name || o.kind = .member || o.kind = .subscript

/-- The expression in parentheses whose whole text is `text`. -/
def wrap (position : Position) (text : String) (o : Operand) : Operand :=
  { tree := if o.kind.losesParentheses then o.core else .node (some position) (.verbatim text)
    kind := o.kind
    core := o.core
    wrapped := true }

end Operand

end SiteConfig.Script
