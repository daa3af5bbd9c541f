import SiteConfig.Export

/-!
The plugin list of a config and its entries `['plugin-name', { ... }]`.
-/

namespace SiteConfig

/-- A plugin entry by its place in the list, and the object that holds its options. -/
structure PluginEntry where
  index : Nat
  options : NodeId
deriving DecidableEq, Repr

namespace Document

def pluginsKey : String := "plugins"

def pluginsProblem : String :=
  "plugins must be an array"

def entryProblem : String :=
  "Plugin must be of form ['plugin-name', \x7b ...options \x7d]"

/-- The entries of a plugin list. -/
def entries (d : Document) (list : NodeId) : List NodeId :=
  match d.expr list with
  | .array elements _ => elements.map (·.value)
  | _ => []

def pluginCount (d : Document) (list : NodeId) : Nat :=
  (d.entries list).length

inductive EntryShape where
  /-- A name and the object with the options. -/
  | entry (name : String) (options : NodeId)
  /-- Not an array; other tools read it. -/
  | foreign
  | malformed

def entryShape (d : Document) (entry : NodeId) : EntryShape :=
  match d.expr entry with
  | .array [first, second] _ =>
    match d.expr first.value, d.expr second.value with
    | .string name, .object .. => .entry name second.value
    | _, _ => .malformed
  | .array .. => .malformed
  | _ => .foreign

/-- The entries of the plugin `name`; anything else is passed over. -/
def pluginsNamed (d : Document) (list : NodeId) (name : String) : List PluginEntry :=
  (d.entries list).zipIdx.filterMap fun (entry, index) =>
    match d.entryShape entry with
    | .entry n options => if n = name then some { index, options } else none
    | _ => none

/-- The arrays in the list that are no entries, with their places. -/
def malformedEntries (d : Document) (list : NodeId) : List (NodeId × Nat) :=
  (d.entries list).zipIdx.filter fun (entry, _) =>
    match d.entryShape entry with
    | .malformed => true
    | _ => false

/-- The entries of the plugin `name`, and a problem for each array that is no entry at all. -/
def reportPluginsNamed (d : Document) (list : NodeId) (name : String) :
    Report (List PluginEntry) :=
  { value := d.pluginsNamed list name
    errors := (d.malformedEntries list).map fun (entry, _) =>
      .structural (d.location entry) entryProblem }

/-- Replaces the value of the element at `index`, or adds one behind the last. -/
def putElement {α : Type} (value : α) : Nat → List (Element α) → List (Element α)
  | _, [] => [{ value }]
  | 0, e :: rest => { e with value } :: rest
  | index + 1, e :: rest => e :: putElement value index rest

end Document

namespace Change
open Document

/-- The plugin list of the exported object `config`; a config without one gets an empty one. -/
def plugins (config : NodeId) : Change NodeId := do
  match ← ask (·.value? config pluginsKey pluginsProblem) with
  | some id =>
    let d ← get
    match d.expr id with
    | .array .. => return id
    | _ => throw (.structural (d.location id) pluginsProblem)
  | none =>
    let id ← plant (.made (.array [] []))
    match (← get).expr config with
    | .object .. =>
      modify (·.appendProperty config (.ofKey (.forName pluginsKey) id))
      return id
    | _ => throw (.invalidInput "config node is not an object literal")

end Change

end SiteConfig
