import SiteConfig.Edit

/-!
The plugin for versioned documentation.
-/

namespace SiteConfig

/-- One version of a docs plugin: its key as written, and its options as far as they can be
read. -/
structure VersionEntry where
  key : PropertyKey
  options : NodeId
  record : Record

structure DocsPlugin where
  index : Nat
  id : String
  options : NodeId
  versions : List VersionEntry
  onlyInclude : Option (List String)

namespace DocsPlugin

def pluginName : String := "@docusaurus/plugin-content-docs"

/-- The id of a plugin that gives none. -/
def defaultId : String := "<default>"

def version? (p : DocsPlugin) (name : String) : Option VersionEntry :=
  p.versions.find? (·.key.name = name)

end DocsPlugin

namespace Document

def idProblem : String :=
  "Plugin id must be a string"

def docsId (d : Document) (options : NodeId) : Result String := do
  match ← d.value? options "id" idProblem with
  | none => return DocsPlugin.defaultId
  | some id =>
    match d.expr id with
    | .string s => return s
    | _ => throw (.structural (d.location id) idProblem)

/-- One member of a `versions` object: the version it writes and the problems it has. -/
def readVersionEntry (d : Document) (p : Property NodeId) : Report (Option VersionEntry) :=
  match p.body with
  | .assignment key value =>
    match d.expr value with
    | .object .. =>
      let r := Record.decodeAll d.path (d.tree value)
      ⟨some ⟨key, value, r.value⟩, r.errors⟩
    | _ => ⟨none, [.structural (d.location value) (versionProblem key.name)]⟩
  | .irregular shape _ =>
    ⟨none, [.unsupported (d.locationAt p.position) (shape.describe ++ " in versions")]⟩

def versionEntries (d : Document) (options : NodeId) : Report (List VersionEntry) :=
  match d.value? options versionsKey versionsProblem with
  | .error e => ⟨[], [e]⟩
  | .ok none => ⟨[], []⟩
  | .ok (some id) =>
    match d.expr id with
    | .object properties _ =>
      let reports := properties.map d.readVersionEntry
      ⟨reports.filterMap (·.value), reports.flatMap (·.errors)⟩
    | _ => ⟨[], [.structural (d.location id) versionsProblem]⟩

/-- The keys in a `versions` object whose values are no objects. -/
def droppedVersions (d : Document) (options : NodeId) : List String :=
  match d.value? options versionsKey versionsProblem with
  | .ok (some id) =>
    match d.expr id with
    | .object properties _ => properties.filterMap fun p =>
      match p.body with
      | .assignment key value =>
        match d.expr value with
        | .object .. => none
        | _ => some key.name
      | .irregular .. => none
    | _ => []
  | _ => []

def onlyIncludeKey : String := "onlyIncludeVersions"

def onlyIncludeProblem : String :=
  "onlyIncludeVersions must be an array of strings"

def onlyInclude (d : Document) (options : NodeId) : Result (Option (List String)) := do
  match ← d.value? options onlyIncludeKey onlyIncludeProblem with
  | none => return none
  | some id =>
    match d.expr id with
    | .array elements _ =>
      match elements.mapM fun e => (d.expr e.value).asString? with
      | some names => return some names
      | none => throw (.structural (d.location id) onlyIncludeProblem)
    | _ => throw (.structural (d.location id) onlyIncludeProblem)

/-- Reads a docs plugin. One without a readable id is left out; other problems are reported
beside what can be read. -/
def readDocsPlugin (d : Document) (entry : PluginEntry) : Report (Option DocsPlugin) :=
  match d.docsId entry.options with
  | .error e => ⟨none, [e]⟩
  | .ok id =>
    let versions := d.versionEntries entry.options
    let (onlyInclude, errors) := match d.onlyInclude entry.options with
      | .ok names => (names, [])
      | .error e => (none, [e])
    ⟨some ⟨entry.index, id, entry.options, versions.value, onlyInclude⟩, versions.errors ++ errors⟩

def docsPlugins (d : Document) (list : NodeId) : Report (List DocsPlugin) :=
  let found := d.reportPluginsNamed list DocsPlugin.pluginName
  let reports := found.value.map d.readDocsPlugin
  ⟨reports.filterMap (·.value), found.errors ++ reports.flatMap (·.errors)⟩

/-- The first docs plugin with the given id. -/
def docsPlugin (d : Document) (list : NodeId) (id : String) : Result DocsPlugin :=
  match (d.docsPlugins list).value.find? (·.id = id) with
  | some p => .ok p
  | none => .error (.notFound (DocsPlugin.pluginName ++ " (id " ++ id ++ ")"))

/-- The options of a version, or nothing if the plugin does not have it. Options that cannot be
read in full are a problem, so that what is read here can be written back without loss. -/
def readVersion (d : Document) (list : NodeId) (id version : String) : Result (Option Record) := do
  let p ← d.docsPlugin list id
  match p.version? version with
  | some entry => return some (← Record.decode d.path (d.tree entry.options))
  | none => return none

end Document

namespace Change
open Document

def setVersion (list : NodeId) (id version : String) (r : Record) : Change Unit := do
  let p ← ask (·.docsPlugin list id)
  putVersion p.options version r

def setOnlyInclude (list : NodeId) (id : String) (versions : List String) : Change Unit := do
  let p ← ask (·.docsPlugin list id)
  putOption p.options onlyIncludeKey (.list (versions.map .string))

end Change

end SiteConfig
