import SiteConfig.Syntax.Expr
import SiteConfig.Syntax.Quoted

/-!
The house style: two blanks for each level, one property a line, trailing commas, and arrays of
plain values on one line where that ends within 80 columns.
-/

namespace SiteConfig

namespace Layout

def maxWidth : Nat := 80

def indent (depth : Nat) : String :=
  String.ofList (List.replicate (2 * depth) ' ')

/-- A line of its own; `begun` says that the list has a line already. -/
def commentLine (depth : Nat) (begun : Bool) (c : Comment) : String :=
  (if c.spaced && begun then "\n" else "") ++ indent depth ++ c.text ++ "\n"

def commentLines (depth : Nat) (begun : Bool) : List Comment → String
  | [] => ""
  | c :: rest => commentLine depth begun c ++ commentLines depth true rest

/-- All that stands before an item, up to the indentation of its line. -/
def leading (depth : Nat) (begun : Bool) (t : Trivia) : String :=
  commentLines depth begun t.leading ++
    (if t.spaced && (begun || !t.leading.isEmpty) then "\n" else "") ++ indent depth

def trailing (t : Trivia) : String :=
  match t.trailing with
  | some comment => " " ++ comment
  | none => ""

def key (k : PropertyKey) : String :=
  match k.form with
  | .string => Quoted.quote k.name
  | _ => k.name

def after (column : Nat) (text : String) : Nat :=
  columnAfter column text.toList

/-- An array of the given elements on one line, if it ends before the last column. -/
def flat? (column : Nat) (dangling : List Comment) (elements : List String) : Option String :=
  let flat := "[" ++ ", ".intercalate elements ++ "]"
  if dangling.isEmpty && column + flat.length + 1 ≤ maxWidth then some flat else none

end Layout

namespace Tree
open Layout

/-- Arrays and objects never stand in an array that is written on one line. -/
def isList (t : Tree) : Bool :=
  match t.expr with
  | .array .. => true
  | .object .. => true
  | _ => false

mutual

/-- The text of an expression whose first character stands at `column`, its lines indented by
`depth` levels. -/
def layout (depth column : Nat) : Tree → String
  | .node _ e => layoutExpr depth column e

def layoutExpr (depth column : Nat) : Expr Tree → String
  | .string value => Quoted.quote value
  | .boolean value => if value then "true" else "false"
  | .identifier name => name
  | .verbatim text => text
  | .member object property => layout depth column object ++ "." ++ property
  | .assignment left right =>
    let text := layout depth column left ++ " = "
    text ++ layout depth (after column text) right
  | .call callee arguments =>
    let text := layout depth column callee ++ "("
    text ++ layoutArguments depth (after column text) arguments ++ ")"
  | .array [] [] => "[]"
  | .array elements dangling =>
    match (flatElements? elements).bind (flat? column dangling) with
    | some flat => flat
    | none =>
      "[\n" ++ layoutElements (depth + 1) false elements ++
        commentLines (depth + 1) (!elements.isEmpty) dangling ++ indent depth ++ "]"
  | .object [] [] => "\x7b\x7d"
  | .object properties dangling =>
    "\x7b\n" ++ layoutProperties (depth + 1) false properties ++
      commentLines (depth + 1) (!properties.isEmpty) dangling ++ indent depth ++ "\x7d"

def layoutArguments (depth column : Nat) : List Tree → String
  | [] => ""
  | [t] => layout depth column t
  | t :: rest =>
    let text := layout depth column t ++ ", "
    text ++ layoutArguments depth (after column text) rest

def layoutElements (depth : Nat) (begun : Bool) : List (Element Tree) → String
  | [] => ""
  | ⟨value, trivia⟩ :: rest =>
    leading depth begun trivia ++ layout depth (2 * depth) value ++ "," ++ trailing trivia ++
      "\n" ++ layoutElements depth true rest

def layoutProperties (depth : Nat) (begun : Bool) : List (Property Tree) → String
  | [] => ""
  | ⟨body, _, trivia⟩ :: rest =>
    leading depth begun trivia ++ layoutBody depth body ++ "," ++ trailing trivia ++ "\n" ++
      layoutProperties depth true rest

def layoutBody (depth : Nat) : PropertyBody Tree → String
  | .assignment k value =>
    let text := key k ++ ": "
    text ++ layout depth (after (2 * depth) text) value
  | .irregular _ text => text

/-- The elements of an array that may be written on one line: none has comments, is a list itself
or takes more than one line. -/
def flatElements? : List (Element Tree) → Option (List String)
  | [] => some []
  | ⟨value, trivia⟩ :: rest =>
    if trivia.hasComments || value.isList then none
    else
      let text := layout 0 0 value
      if text.toList.contains '\n' then none else (flatElements? rest).map (text :: ·)

end

end Tree

namespace Program
open Layout

def layoutStatement (s : Statement Tree) : String :=
  match s.body with
  | .expression value => value.layout 0 0 ++ ";"
  | .verbatim text => text

def layoutStatements (begun : Bool) : List (Statement Tree) → String
  | [] => ""
  | s :: rest =>
    leading 0 begun s.trivia ++ layoutStatement s ++ trailing s.trivia ++ "\n" ++
      layoutStatements true rest

/-- The whole script in the house style. -/
def layout (p : Program Tree) : String :=
  layoutStatements false p.statements ++ commentLines 0 (!p.statements.isEmpty) p.dangling

end Program

end SiteConfig
