import SiteConfig.Edit

/-!
Tutorial entries of a plugin list.
-/

namespace SiteConfig

/-- What an entry says about a tutorial. The three locations are strings or paths. -/
structure TutorialOptions where
  title : String := ""
  description : String := ""
  preview : Option Value := none
  route : Option Value := none
  source : Option Value := none
  tags : List String := []
deriving Repr

/-- What a repository offers for a tutorial that does not say it. -/
structure RepositoryDefaults where
  source : Option String := none
  route : Option String := none

structure Tutorial where
  index : Nat
  options : TutorialOptions

namespace TutorialOptions

def stringField (r : Record) (key : String) : Except String (Option String) :=
  match r.get? key with
  | none => .ok none
  | some (.string s) => .ok (some s)
  | some v => .error (key ++ " must be a string, found " ++ v.kind)

def locationField (r : Record) (key : String) : Except String (Option Value) :=
  match r.get? key with
  | none => .ok none
  | some (.string s) => .ok (some (.string s))
  | some (.path p) => .ok (some (.path p))
  | some v => .error (key ++ " must be a string or path, found " ++ v.kind)

def tag : Value → Except String String
  | .string s => .ok s
  | v => .error ("tags must be strings, found " ++ v.kind)

def tagsField (r : Record) : Except String (List String) :=
  match r.get? "tags" with
  | none => .ok []
  | some (.list items) => items.mapM tag
  | some v => .error ("tags must be an array, found " ++ v.kind)

/-- Reads the fields of a tutorial; other options are passed over. Only the title must be
given. -/
def ofRecord (r : Record) : Except String TutorialOptions := do
  let title ← match ← stringField r "title" with
    | some title => pure title
    | none => throw "Title must be assigned a string"
  let tags ← tagsField r
  let description ← stringField r "description"
  let preview ← locationField r "preview"
  let route ← locationField r "route"
  let source ← locationField r "source"
  return { title, description := description.getD "", preview, route, source, tags }

def optionalEntry (key : String) : Option Value → Record
  | some v => [(key, v)]
  | none => []

def toRecord (o : TutorialOptions) : Record :=
  [("title", .string o.title), ("description", .string o.description)] ++
    optionalEntry "preview" o.preview ++ optionalEntry "route" o.route ++
    optionalEntry "source" o.source ++ [("tags", .list (o.tags.map .string))]

/-- Takes the route and source that are not given from the repository. -/
def seeded (o : TutorialOptions) (defaults : RepositoryDefaults) : TutorialOptions :=
  { o with
    route := o.route.or (defaults.route.map .string)
    source := o.source.or (defaults.source.map .string) }

end TutorialOptions

namespace Tutorial

def pluginName : String := "@iota-wiki/plugin-tutorial"

end Tutorial

namespace Document

def readTutorialEntry (d : Document) (entry : PluginEntry) : Report (Option Tutorial) :=
  let r := Record.decodeAll d.path (d.tree entry.options)
  match TutorialOptions.ofRecord r.value with
  | .ok options => ⟨some ⟨entry.index, options⟩, r.errors⟩
  | .error problem => ⟨none, r.errors ++ [.structural (d.location entry.options) problem]⟩

/-- Every tutorial with a title, and every problem in the entries. -/
def tutorials (d : Document) (list : NodeId) : Report (List Tutorial) :=
  let found := d.reportPluginsNamed list Tutorial.pluginName
  let reports := found.value.map d.readTutorialEntry
  ⟨reports.filterMap (·.value), found.errors ++ reports.flatMap (·.errors)⟩

/-- The tutorial at a place of the plugin list. Options that cannot be read are a problem, so that
an edit never starts from a part of the entry. -/
def tutorial (d : Document) (list : NodeId) (index : Nat) : Result TutorialOptions := do
  match (d.pluginsNamed list Tutorial.pluginName).find? (·.index = index) with
  | none => throw (.invalidInput s!"plugin at index {index} is not a tutorial")
  | some entry =>
    let r ← Record.decode d.path (d.tree entry.options)
    match TutorialOptions.ofRecord r with
    | .ok options => return options
    | .error problem => throw (.structural (d.location entry.options) problem)

end Document

namespace Change

/-- Writes a tutorial at `index`, or behind the last entry, and gives the place it stands at. An
entry that is there must be a tutorial that can be read. -/
def setTutorial (list : NodeId) (index : Option Nat) (o : TutorialOptions) : Change Nat := do
  let count := (← get).pluginCount list
  let index := index.getD count
  if index < count then
    let _ ← ask (·.tutorial list index)
  putEntry list index Tutorial.pluginName o.toRecord
  return index

end Change

end SiteConfig
