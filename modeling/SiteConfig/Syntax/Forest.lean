import SiteConfig.Syntax.Expr

/-!
Trees whose nodes can be replaced one at a time. A node is known by its handle, which stays good
when the node is no longer part of any tree.
-/

namespace SiteConfig

structure NodeId where
  index : Nat
deriving DecidableEq, Repr, Inhabited

structure Node where
  expr : Expr NodeId
  position : Option Position := none

instance : Inhabited Node :=
  ⟨{ expr := .verbatim "" }⟩

structure Forest where
  nodes : Array Node := #[]

namespace Expr

variable {α β : Type}

def map (f : α → β) : Expr α → Expr β
  | .string v => .string v
  | .boolean v => .boolean v
  | .identifier n => .identifier n
  | .member base property => .member (f base) property
  | .assignment left right => .assignment (f left) (f right)
  | .call callee arguments => .call (f callee) (arguments.map f)
  | .array elements dangling =>
    .array (elements.map fun e => { value := f e.value, trivia := e.trivia }) dangling
  | .object properties dangling =>
    .object (properties.map fun p => {
      body := match p.body with
        | .assignment key value => .assignment key (f value)
        | .irregular shape text => .irregular shape text
      position := p.position
      trivia := p.trivia }) dangling
  | .verbatim text => .verbatim text

end Expr

namespace Forest

def size (f : Forest) : Nat :=
  f.nodes.size

def node (f : Forest) (id : NodeId) : Node :=
  f.nodes.getD id.index default

def expr (f : Forest) (id : NodeId) : Expr NodeId :=
  (f.node id).expr

def position (f : Forest) (id : NodeId) : Option Position :=
  (f.node id).position

/-- Adds a node and gives its handle. -/
def add (f : Forest) (n : Node) : NodeId × Forest :=
  (⟨f.size⟩, ⟨f.nodes.push n⟩)

/-- Replaces the expression of a node; its position stays. -/
def set (f : Forest) (id : NodeId) (e : Expr NodeId) : Forest :=
  ⟨f.nodes.modify id.index fun n => { n with expr := e }⟩

/-- The tree below a node, followed over at most `fuel` levels. -/
def treeWithin (f : Forest) : (fuel : Nat) → NodeId → Tree
  | 0, id => .node (f.position id) (.verbatim "")
  | fuel + 1, id => .node (f.position id) ((f.expr id).map (f.treeWithin fuel))

/-- The tree below a node. No node lies below itself, so no branch is longer than the number of
nodes. -/
def tree (f : Forest) (id : NodeId) : Tree :=
  f.treeWithin f.size id

mutual

/-- Adds all nodes of a tree, those below a node before it. -/
def plant (f : Forest) : Tree → NodeId × Forest
  | .node position e =>
    let (e, f) := plantExpr f e
    f.add { expr := e, position }

def plantExpr (f : Forest) : Expr Tree → Expr NodeId × Forest
  | .string v => (.string v, f)
  | .boolean v => (.boolean v, f)
  | .identifier n => (.identifier n, f)
  | .verbatim text => (.verbatim text, f)
  | .member object property =>
    let (object, f) := plant f object
    (.member object property, f)
  | .assignment left right =>
    let (left, f) := plant f left
    let (right, f) := plant f right
    (.assignment left right, f)
  | .call callee arguments =>
    let (callee, f) := plant f callee
    let (arguments, f) := plantList f arguments
    (.call callee arguments, f)
  | .array elements dangling =>
    let (elements, f) := plantElements f elements
    (.array elements dangling, f)
  | .object properties dangling =>
    let (properties, f) := plantProperties f properties
    (.object properties dangling, f)

def plantList (f : Forest) : List Tree → List NodeId × Forest
  | [] => ([], f)
  | t :: rest =>
    let (id, f) := plant f t
    let (ids, f) := plantList f rest
    (id :: ids, f)

def plantElements (f : Forest) : List (Element Tree) → List (Element NodeId) × Forest
  | [] => ([], f)
  | ⟨value, trivia⟩ :: rest =>
    let (value, f) := plant f value
    let (elements, f) := plantElements f rest
    (⟨value, trivia⟩ :: elements, f)

def plantProperties (f : Forest) : List (Property Tree) → List (Property NodeId) × Forest
  | [] => ([], f)
  | ⟨body, position, trivia⟩ :: rest =>
    let (body, f) := plantBody f body
    let (properties, f) := plantProperties f rest
    (⟨body, position, trivia⟩ :: properties, f)

def plantBody (f : Forest) : PropertyBody Tree → PropertyBody NodeId × Forest
  | .assignment key value =>
    let (value, f) := plant f value
    (.assignment key value, f)
  | .irregular shape text => (.irregular shape text, f)

end

def plantStatements (f : Forest) : List (Statement Tree) → List (Statement NodeId) × Forest
  | [] => ([], f)
  | ⟨.expression t, trivia⟩ :: rest =>
    let (id, f) := f.plant t
    let (statements, f) := plantStatements f rest
    (⟨.expression id, trivia⟩ :: statements, f)
  | ⟨.verbatim text, trivia⟩ :: rest =>
    let (statements, f) := plantStatements f rest
    (⟨.verbatim text, trivia⟩ :: statements, f)

end Forest

end SiteConfig
