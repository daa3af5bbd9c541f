import SiteConfig.Document

/-!
The object that a config exports, `module.exports = { ... }`.
-/

namespace SiteConfig.Document

def isExportTarget (d : Document) (id : NodeId) : Bool :=
  match d.expr id with
  | .member object property =>
    property = "exports" && (d.expr object).asIdentifier? = some "module"
  | _ => false

/-- The value that a statement exports. -/
def exported? (d : Document) (s : Statement NodeId) : Option NodeId :=
  match s.body with
  | .expression id =>
    match d.expr id with
    | .assignment left right => if d.isExportTarget left then some right else none
    | _ => none
  | .verbatim _ => none

def firstExport? (d : Document) : Option NodeId :=
  d.program.statements.findSome? d.exported?

/-- The expression `module.exports`. -/
def exportTarget : Tree :=
  .made (.member (.made (.identifier "module")) "exports")

/-- Adds `module.exports = {};` behind the last statement and gives its object. -/
def appendExport (d : Document) : NodeId × Document :=
  let (target, d) := d.plant exportTarget
  let (object, d) := d.plant (.made (.object [] []))
  let (id, forest) := d.forest.add { expr := .assignment target object }
  let s : Statement NodeId :=
    { body := .expression id, trivia := { spaced := !d.program.statements.isEmpty } }
  (object, { d with
    forest, program := { d.program with statements := d.program.statements ++ [s] } })

def exportProblem : String :=
  "config must export an object"

end SiteConfig.Document

namespace SiteConfig.Change
open Document

/-- The exported object; a config that exports nothing gets an empty one. -/
def locate : Change NodeId := do
  let d ← get
  match d.firstExport? with
  | some id =>
    match d.expr id with
    | .object .. => return id
    | _ => throw (.structural (d.location id) exportProblem)
  | none => modifyGet (·.appendExport)

end SiteConfig.Change
