import SiteConfig.Plugins
import SiteConfig.Value.Codec

/-!
Changes to a config. The trees to be written are planted before the node that is to hold them is
looked at, so a change that fails may leave nodes behind that nothing refers to.
-/

namespace SiteConfig

namespace Document

/-- The expression `[name, { ... }]`. -/
def entryTree (name : String) (r : Record) : Tree :=
  .made (.array [{ value := .made (.string name) }, { value := r.encode }] [])

def optionProblem (key : String) : String :=
  key ++ " must be written as `" ++ key ++ ": value`"

def versionsKey : String := "versions"

def versionsProblem : String :=
  "versions must be an object"

def versionProblem (key : String) : String :=
  "Version " ++ key ++ " must be assigned an object"

end Document

namespace Change
open Document

/-- Writes a plugin entry at `index`, which may be the end of the list. Nothing of the options
before is kept, but the comments of the entry are. -/
def putEntry (list : NodeId) (index : Nat) (name : String) (r : Record) : Change Unit := do
  let count := (← get).pluginCount list
  if count < index then
    throw (.invalidInput s!"plugin index {index} is out of range, the list has {count} entries")
  let entry ← plant (entryTree name r)
  match (← get).expr list with
  | .array elements dangling =>
    modify (·.set list (.array (putElement entry index elements) dangling))
  | _ => throw (.invalidInput "plugin list is not an array")

/-- Binds an option of an object to a value. -/
def putOption (object : NodeId) (key : String) (value : Value) : Change Unit := do
  let _ ← ask (·.value? object key (optionProblem key))
  let id ← plant value.encode
  match (← get).expr object with
  | .object .. => modify (·.bindProperty object key (PropertyKey.forName key).form id)
  | _ => throw (.invalidInput ("cannot set " ++ key ++ " on a non-object"))

/-- The versions of a plugin; options without any get an empty object. -/
def versions (options : NodeId) : Change NodeId := do
  match ← ask (·.value? options versionsKey versionsProblem) with
  | some id =>
    let d ← get
    match d.expr id with
    | .object .. => return id
    | _ => throw (.structural (d.location id) versionsProblem)
  | none =>
    let id ← plant (.made (.object [] []))
    match (← get).expr options with
    | .object .. =>
      modify (·.appendProperty options (.ofKey (.forName versionsKey) id))
      return id
    | _ => throw (.invalidInput "plugin options are not an object literal")

/-- Writes the options of one version. A version that is there keeps its key as written; a new
key is quoted. -/
def putVersion (options : NodeId) (key : String) (r : Record) : Change Unit := do
  let id ← versions options
  let _ ← ask (·.value? id key (versionProblem key))
  let record ← plant r.encode
  match (← get).expr id with
  | .object .. => modify (·.bindProperty id key .string record)
  | _ => throw (.invalidInput "versions is not an object")

end Change

end SiteConfig
