import SiteConfig.Proofs.Lexing
import SiteConfig.Syntax.Layout

/-!
What a layout shows of a script. Positions are not shown, nor is a blank line before the first
thing of a list or inside an array that is written on one line.
-/

namespace SiteConfig

namespace Comment

/-- The comment with its blank-line flag changed. -/
def flagged (f : Bool → Bool) (c : Comment) : Comment :=
  { c with spaced := f c.spaced }

/-- The comments of a list; `begun` says that the list has a line already. -/
def shown (begun : Bool) : List Comment → List Comment
  | [] => []
  | c :: rest => { c with spaced := c.spaced && begun } :: rest

end Comment

namespace Trivia

def flagged (f : Bool → Bool) (t : Trivia) : Trivia where
  leading := t.leading.map (.flagged f)
  trailing := t.trailing
  spaced := f t.spaced

def shown (begun : Bool) (t : Trivia) : Trivia where
  leading := Comment.shown begun t.leading
  trailing := t.trailing
  spaced := t.spaced && (begun || !t.leading.isEmpty)

end Trivia

namespace Tree
open Layout

mutual

/-- The tree without its positions, its blank-line flags changed by `f`. -/
def stripped (f : Bool → Bool) : Tree → Tree
  | .node _ e => .node none (strippedExpr f e)

def strippedExpr (f : Bool → Bool) : Expr Tree → Expr Tree
  | .string value => .string value
  | .boolean value => .boolean value
  | .identifier name => .identifier name
  | .verbatim text => .verbatim text
  | .member object property => .member (stripped f object) property
  | .assignment left right => .assignment (stripped f left) (stripped f right)
  | .call callee arguments => .call (stripped f callee) (strippedArguments f arguments)
  | .array elements dangling => .array (strippedElements f elements) (dangling.map (.flagged f))
  | .object properties dangling =>
    .object (strippedProperties f properties) (dangling.map (.flagged f))

def strippedArguments (f : Bool → Bool) : List Tree → List Tree
  | [] => []
  | t :: rest => stripped f t :: strippedArguments f rest

def strippedElements (f : Bool → Bool) : List (Element Tree) → List (Element Tree)
  | [] => []
  | ⟨value, trivia⟩ :: rest => ⟨stripped f value, trivia.flagged f⟩ :: strippedElements f rest

def strippedProperties (f : Bool → Bool) : List (Property Tree) → List (Property Tree)
  | [] => []
  | ⟨body, _, trivia⟩ :: rest =>
    ⟨strippedBody f body, none, trivia.flagged f⟩ :: strippedProperties f rest

def strippedBody (f : Bool → Bool) : PropertyBody Tree → PropertyBody Tree
  | .assignment k value => .assignment k (stripped f value)
  | .irregular shape text => .irregular shape text

end

mutual

/-- What the layout of an expression at this depth and column shows. -/
def shown (depth column : Nat) : Tree → Tree
  | .node _ e => .node none (shownExpr depth column e)

def shownExpr (depth column : Nat) : Expr Tree → Expr Tree
  | .string value => .string value
  | .boolean value => .boolean value
  | .identifier name => .identifier name
  | .verbatim text => .verbatim text
  | .member object property => .member (shown depth column object) property
  | .assignment left right =>
    .assignment (shown depth column left)
      (shown depth (after column (left.layout depth column ++ " = ")) right)
  | .call callee arguments =>
    .call (shown depth column callee)
      (shownArguments depth (after column (callee.layout depth column ++ "(")) arguments)
  | .array elements dangling =>
    match (flatElements? elements).bind (flat? column dangling) with
    | some _ => .array (shownFlat elements) dangling
    | none =>
      .array (shownElements (depth + 1) false elements)
        (Comment.shown (!elements.isEmpty) dangling)
  | .object properties dangling =>
    .object (shownProperties (depth + 1) false properties)
      (Comment.shown (!properties.isEmpty) dangling)

def shownArguments (depth column : Nat) : List Tree → List Tree
  | [] => []
  | t :: rest =>
    shown depth column t ::
      shownArguments depth (after column (t.layout depth column ++ ", ")) rest

/-- The elements of an array that is written on one line. -/
def shownFlat : List (Element Tree) → List (Element Tree)
  | [] => []
  | ⟨value, trivia⟩ :: rest =>
    ⟨shown 0 0 value, { trivia with spaced := false }⟩ :: shownFlat rest

def shownElements (depth : Nat) (begun : Bool) : List (Element Tree) → List (Element Tree)
  | [] => []
  | ⟨value, trivia⟩ :: rest =>
    ⟨shown depth (2 * depth) value, trivia.shown begun⟩ :: shownElements depth true rest

def shownProperties (depth : Nat) (begun : Bool) : List (Property Tree) → List (Property Tree)
  | [] => []
  | ⟨body, _, trivia⟩ :: rest =>
    ⟨shownBody depth body, none, trivia.shown begun⟩ :: shownProperties depth true rest

def shownBody (depth : Nat) : PropertyBody Tree → PropertyBody Tree
  | .assignment k value => .assignment k (shown depth (after (2 * depth) (key k ++ ": ")) value)
  | .irregular shape text => .irregular shape text

end

end Tree

namespace Program

def strippedBody (f : Bool → Bool) : StatementBody Tree → StatementBody Tree
  | .expression value => .expression (value.stripped f)
  | .verbatim text => .verbatim text

def strippedStatement (f : Bool → Bool) (s : Statement Tree) : Statement Tree where
  body := strippedBody f s.body
  trivia := s.trivia.flagged f

/-- The script without its positions, its blank-line flags changed by `f`. -/
def stripped (f : Bool → Bool) (p : Program Tree) : Program Tree where
  statements := p.statements.map (strippedStatement f)
  dangling := p.dangling.map (.flagged f)

/-- The script without its positions. -/
def unplaced (p : Program Tree) : Program Tree :=
  p.stripped id

/-- The script without its positions and blank lines. -/
def unspaced (p : Program Tree) : Program Tree :=
  p.stripped fun _ => false

def shownBody : StatementBody Tree → StatementBody Tree
  | .expression value => .expression (value.shown 0 0)
  | .verbatim text => .verbatim text

def shownStatements (begun : Bool) : List (Statement Tree) → List (Statement Tree)
  | [] => []
  | s :: rest => ⟨shownBody s.body, s.trivia.shown begun⟩ :: shownStatements true rest

/-- What the layout of a script shows of it. -/
def shown (p : Program Tree) : Program Tree where
  statements := shownStatements false p.statements
  dangling := Comment.shown (!p.statements.isEmpty) p.dangling

end Program

/-! The flags alone are changed. -/

@[simp] theorem Comment.map_flagged_id (comments : List Comment) :
    comments.map (.flagged id) = comments :=
  List.map_id comments

@[simp] theorem Trivia.flagged_id (t : Trivia) : t.flagged id = t := by
  rw [Trivia.flagged, Comment.map_flagged_id]
  rfl

/-! Scripts that hold nothing verbatim. -/

namespace Script

/-- Words that are read in a way of their own where an expression may stand. -/
def keywords : List String :=
  PropertyKey.reservedWords ++ ["async", "await", "let", "undefined", "yield"]

def IsIdentifier (s : String) : Prop :=
  Lexeme.IsName s ∧ s ∉ keywords

/-- The text is one whole comment. -/
def IsComment (s : String) : Prop :=
  Lexeme.comment s.toList = some s.toList.length

end Script

open Script

/-- An unquoted name, or quotes around any text. -/
def PropertyKey.Plain (k : PropertyKey) : Prop :=
  (k.form = .identifier ∧ Lexeme.IsName k.name) ∨ k.form = .string

structure Trivia.Plain (t : Trivia) : Prop where
  leading : ∀ c ∈ t.leading, IsComment c.text
  trailing : ∀ text ∈ t.trailing, IsComment text

namespace Tree

/-- Identifiers and what is made of them by names and arguments. -/
def isLink (t : Tree) : Bool :=
  match t.expr with
  | .identifier _ => true
  | .member .. => true
  | .call .. => true
  | _ => false

/-- Expressions without verbatim parts. Names and arguments are appended to identifiers only. -/
inductive Plain : Tree → Prop where
  | string (position : Option Position) (value : String) : Plain (.node position (.string value))
  | boolean (position : Option Position) (value : Bool) : Plain (.node position (.boolean value))
  | identifier (position : Option Position) {name : String} (h : IsIdentifier name) :
    Plain (.node position (.identifier name))
  | member (position : Option Position) {base : Tree} {property : String} (hb : Plain base)
    (hl : base.isLink) (hp : Lexeme.IsName property) :
    Plain (.node position (.member base property))
  | call (position : Option Position) {callee : Tree} {arguments : List Tree} (hc : Plain callee)
    (hl : callee.isLink) (ha : ∀ t ∈ arguments, Plain t) :
    Plain (.node position (.call callee arguments))
  | array (position : Option Position) {elements : List (Element Tree)} {dangling : List Comment}
    (he : ∀ e ∈ elements, Plain e.value) (ht : ∀ e ∈ elements, e.trivia.Plain)
    (hd : ∀ c ∈ dangling, IsComment c.text) : Plain (.node position (.array elements dangling))
  | object (position : Option Position) {properties : List (Property Tree)}
    {dangling : List Comment}
    (hp : ∀ p ∈ properties, ∃ k value, p.body = .assignment k value ∧ k.Plain)
    (hv : ∀ p ∈ properties, ∀ value ∈ p.value?, Plain value)
    (ht : ∀ p ∈ properties, p.trivia.Plain) (hd : ∀ c ∈ dangling, IsComment c.text) :
    Plain (.node position (.object properties dangling))

/-- Expressions that are kept as such where they are a whole statement. -/
inductive PlainStatement : Tree → Prop where
  | string (position : Option Position) (value : String) :
    PlainStatement (.node position (.string value))
  | call (position : Option Position) {callee : Tree} {arguments : List Tree}
    (h : Plain (.node position (.call callee arguments))) :
    PlainStatement (.node position (.call callee arguments))
  | identifierAssignment (position position' : Option Position) {name : String} {right : Tree}
    (hl : IsIdentifier name) (hr : Plain right) :
    PlainStatement (.node position (.assignment (.node position' (.identifier name)) right))
  | memberAssignment (position position' : Option Position) {base right : Tree} {property : String}
    (hl : Plain (.node position' (.member base property))) (hr : Plain right) :
    PlainStatement (.node position (.assignment (.node position' (.member base property)) right))

end Tree

/-- Scripts without verbatim parts. -/
structure Program.Plain (p : Program Tree) : Prop where
  statements : ∀ s ∈ p.statements, ∃ t, s.body = .expression t ∧ t.PlainStatement
  trivia : ∀ s ∈ p.statements, s.trivia.Plain
  dangling : ∀ c ∈ p.dangling, IsComment c.text

end SiteConfig
