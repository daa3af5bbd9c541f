import SiteConfig.Editor
import SiteConfig.Log.Event

/-!
The events that reading and editing a config give rise to.
-/

namespace SiteConfig

open Log

namespace Document

/-- Opening a config tells what had to be added to it. -/
def openingEvents (d : Document) : List Event :=
  let exported := if d.firstExport?.isSome then []
    else [⟨.debug, "No module.exports assignment, appending one", []⟩]
  let listed := match d.perform .locate with
    | (.ok config, d) =>
      if (d.property? config pluginsKey).isSome then []
      else [⟨.debug, "No plugins property, adding an empty one", []⟩]
    | (.error _, _) => []
  exported ++ listed

def parsedEvent (d : Document) : Event :=
  ⟨.debug, "Parsed " ++ d.path, [("statements", .number d.program.statements.length)]⟩

def malformedEvents (d : Document) (list : NodeId) : List Event :=
  (d.malformedEntries list).map fun (entry, index) =>
    ⟨.warn, "Malformed plugin entry at " ++ (d.location entry).text, [("index", .number index)]⟩

def countFields (r : Report (List α)) : List (String × Field) :=
  [("count", .number r.value.length), ("errors", .number r.errors.length)]

def tutorialEvents (d : Document) (list : NodeId) : List Event :=
  d.malformedEvents list ++ [⟨.debug, "Listed tutorials", countFields (d.tutorials list)⟩]

def droppedEvent (version : String) : Event :=
  ⟨.warn, "Dropping version " ++ version ++ ": options are not an object", []⟩

def docsEvents (d : Document) (list : NodeId) : List Event :=
  let r := d.docsPlugins list
  d.malformedEvents list ++
    (r.value.flatMap fun p => (d.droppedVersions p.options).map droppedEvent) ++
    [⟨.debug, "Extracted docs plugins", countFields r⟩]

/-- Looking for one docs plugin warns of the problems of all. -/
def docsLookupEvents (d : Document) (list : NodeId) : List Event :=
  d.docsEvents list ++ (d.docsPlugins list).errors.map fun e => ⟨.warn, e.message, []⟩

def entryEvent (index count : Nat) (name : String) : Event :=
  ⟨.debug, (if index = count then "Appending" else "Replacing") ++ " plugin entry " ++ name,
    [("index", .number index)]⟩

def versionEvent (d : Document) (options : NodeId) (key : String) : Event :=
  let replaces := match d.perform (.versions options) with
    | (.ok id, d) => (d.property? id key).isSome
    | (.error _, _) => false
  ⟨.debug, (if replaces then "Replacing" else "Adding") ++ " version " ++ key, []⟩

end Document

namespace Editor

def tutorialEvents (e : Editor) : List Event :=
  e.document.tutorialEvents e.plugins

def docsEvents (e : Editor) : List Event :=
  e.document.docsEvents e.plugins

def docsLookupEvents (e : Editor) : List Event :=
  e.document.docsLookupEvents e.plugins

/-- Writing a version that is there or not; nothing if its plugin is missing. -/
def versionEvents (e : Editor) (id version : String) : List Event :=
  match e.docsPlugin id with
  | .ok p => [e.document.versionEvent p.options version]
  | .error _ => []

def savedEvents (path : String) : List Event :=
  [⟨.debug, "Wrote " ++ path, []⟩, ⟨.info, "Updated " ++ path, []⟩]

end Editor

end SiteConfig
