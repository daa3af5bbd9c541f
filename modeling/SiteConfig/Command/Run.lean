import SiteConfig.Command.Arguments
import SiteConfig.Command.Description
import SiteConfig.Command.Session
import SiteConfig.Command.Trace
import SiteConfig.Log.Filter
import SiteConfig.Storage

/-!
What each command does with the files of a folder.
-/

namespace SiteConfig

namespace TutorialEdits

/-- A location given by an edit is a string. -/
def location (given : Option String) (old : Option Value) : Option Value :=
  (given.map .string).or old

/-- The tags after an edit: those given, or with a category those of other categories and those
given. -/
def newTags (e : TutorialEdits) (t : Taxonomy) (old : List String) :
    Except Command.Failure (List String) := do
  let given := e.tags.getD []
  let unknown := t.unknown given
  unless unknown.isEmpty do
    throw (.refused (TutorialNotice.unknownTags.text [("tags", ", ".intercalate unknown)]))
  match e.category with
  | some category =>
    if (t.category? category).isNone then
      throw (.refused (TutorialNotice.unknownCategory.text [("category", category)]))
    (t.merge old category given).mapError .config
  | none => return if given.isEmpty then old else given

def apply (e : TutorialEdits) (t : Taxonomy) (o : TutorialOptions) :
    Except Command.Failure TutorialOptions := do
  let tags ← e.newTags t o.tags
  return {
    title := e.title.getD o.title
    description := e.description.getD o.description
    preview := location e.preview o.preview
    route := location e.route o.route
    source := location e.source o.source
    tags }

end TutorialEdits

namespace VersionEdits

def entries (e : VersionEdits) : List (String × Option String) :=
  [("label", e.label), ("path", e.path), ("banner", e.banner)]

def apply (e : VersionEdits) (r : Record) : Record :=
  e.entries.foldl (fun r (key, given) =>
    match given with
    | some text => r.insert key (.string text)
    | none => r) r

end VersionEdits

namespace Command
open Session

/-- Blanks are added up to `width` characters. -/
def padRight (width : Nat) (text : String) : String :=
  text ++ String.ofList (List.replicate (width - text.length) ' ')

def openEditor (path : String) : Session Editor := do
  unless (← get).folder.holds path do
    debug (path ++ " does not exist, starting from template") []
  let d ← look (Document.load · path)
  report (d.parsedEvent :: d.openingEvents)
  attempt (Editor.ofDocument d)

def loadTaxonomy : Option String → Session Taxonomy
  | some path => do
    debug ("Loading tag taxonomy from " ++ path) []
    look (Taxonomy.load · path)
  | none => pure Taxonomy.builtin

def sayTutorials (s : Settings) : Session Unit := do
  let editor ← openEditor s.config
  report editor.tutorialEvents
  let tutorials := editor.tutorials
  if tutorials.value.isEmpty then
    say (TutorialNotice.listEmpty.text [("path", s.config)])
    hint (TutorialNotice.addHint.text [])
  else
    say (TutorialNotice.listHeader.text [("path", s.config)])
    tutorials.value.forM fun t =>
      say (TutorialNotice.listItem.text
        [("index", toString t.index), ("title", t.options.title)])
  warnOf s.config tutorials.errors

def sayTags (s : Settings) : Session Unit := do
  let taxonomy ← loadTaxonomy s.taxonomy
  taxonomy.categories.forM fun (category, tags) => do
    say (TutorialNotice.taxonomyCategory.text [("category", category)])
    tags.forM fun tag =>
      say (TutorialNotice.taxonomyTag.text
        [("value", padRight 22 tag.value), ("label", tag.label)])

def sayDocsPlugin (p : DocsPlugin) : Session Unit := do
  say (VersioningNotice.pluginHeader.text [("id", p.id), ("index", toString p.index)])
  if p.versions.isEmpty then
    say (VersioningNotice.noVersions.text [])
  p.versions.forM fun v => do
    let label := ((v.record.get? "label").bind Value.text?).getD ""
    say (VersioningNotice.versionItem.text
      [("key", padRight 12 v.key.name), ("label", label)])
  match p.onlyInclude with
  | some versions =>
    say (VersioningNotice.onlyInclude.text [("versions", ", ".intercalate versions)])
  | none => pure ()

def sayVersions (s : Settings) : Session Unit := do
  let editor ← openEditor s.config
  report editor.docsEvents
  let plugins := editor.docsPlugins
  if plugins.value.isEmpty then
    say (VersioningNotice.noPlugins.text [("path", s.config)])
  plugins.value.forM sayDocsPlugin
  warnOf s.config plugins.errors

/-- An edited config that is not written yet, and what to say when it is. -/
structure Edit where
  editor : Editor
  notice : String

/-- An edit starts from the whole entry that is there, or from nothing for a new one. -/
def tutorialBefore (e : Editor) : Option Nat → Result TutorialOptions
  | some index => if index < e.pluginCount then e.tutorial index else .ok {}
  | none => .ok {}

def editTutorial (s : Settings) (index : Option Nat) (edits : TutorialEdits) :
    Session Edit := do
  let editor ← openEditor s.config
  let taxonomy ← loadTaxonomy s.taxonomy
  report editor.tutorialEvents
  warnOf s.config editor.tutorials.errors
  let old ← attempt (tutorialBefore editor index)
  debug "Editing tutorial"
    [("index", .text (describeIndex index)), ("existing", .flag (old.title ≠ ""))]
  let options := (← edits.apply taxonomy old).seeded s.defaults
  let (answer, edited) := editor.setTutorial index options
  let place ← attempt answer
  report [Document.entryEvent place editor.pluginCount Tutorial.pluginName]
  let notice :=
    if place = editor.pluginCount then TutorialNotice.added else TutorialNotice.updated
  return ⟨edited, notice.text [("title", options.title), ("index", toString place)]⟩

/-- The edit starts from the version that is there, so that options not given stay. -/
def editVersion (s : Settings) (version pluginId : String) (edits : VersionEdits) :
    Session Edit := do
  let editor ← openEditor s.config
  report editor.docsLookupEvents
  let old ← attempt (editor.version pluginId version)
  report editor.docsLookupEvents
  let (answer, edited) := editor.setVersion pluginId version (edits.apply (old.getD []))
  attempt answer
  report (editor.versionEvents pluginId version)
  return ⟨edited, VersioningNotice.versionSet.text [("version", version), ("id", pluginId)]⟩

def editOnlyInclude (s : Settings) (pluginId : String) (versions : List String) :
    Session Edit := do
  let editor ← openEditor s.config
  report editor.docsLookupEvents
  let (answer, edited) := editor.setOnlyInclude pluginId versions
  attempt answer
  return ⟨edited, VersioningNotice.onlyIncludeSet.text
    [("id", pluginId), ("versions", ", ".intercalate versions)]⟩

/-- Writes an edit, or prints it in a dry run. -/
def finish (s : Settings) (e : Edit) : Session Unit := do
  if s.dryRun then
    hint (CommonNotice.dryRunHeader.text [("path", s.config)])
    print e.editor.render
  else
    change e.editor.save
    report (Editor.savedEvents s.config)
    success (CommonNotice.configWritten.text [("path", s.config)])
  success e.notice

/-- Carries out a command. -/
def perform (s : Settings) : Command → Session Unit
  | listTutorials => sayTutorials s
  | listTags => sayTags s
  | listVersions => sayVersions s
  | setTutorial index edits => do finish s (← editTutorial s index edits)
  | setVersion version pluginId edits => do finish s (← editVersion s version pluginId edits)
  | setOnlyInclude pluginId versions => do finish s (← editOnlyInclude s pluginId versions)

def startEvents (i : Invocation) : List Log.Event :=
  [⟨.debug, "Starting wiki command",
      [("command", .text i.command.describe), ("config", .text i.settings.config)]⟩,
    ⟨.debug, "Handling " ++ (if i.command.concernsTutorials then "tutorial" else "versioning") ++
      " command", []⟩]

/-- How a run ends. -/
structure Outcome where
  exit : Nat
  stdout : String := ""
  stderr : String := ""
  events : List Log.Event := []
  folder : Folder

def versionText : String :=
  "wiki 0.3.0\n"

def usageText : String :=
  "Usage: wiki [OPTIONS] <COMMAND>\n"

/-- Events are kept out of sight in test mode. -/
def visibleEvents (env : Environment) (debug : Bool) (events : List Log.Event) :
    List Log.Event :=
  if (env "WIKI_TEST_MODE").isSome || (Log.Settings.ofEnvironment env).output = .off then []
  else events.filter (Log.Filter.ofEnvironment env debug).shows

/-- The outcome of a command, which says last why it fails. -/
def Outcome.ofResult (env : Environment) (debug : Bool) : Except Failure Unit × State → Outcome
  | (.ok (), s) =>
    { exit := 0, stdout := s.stdout, stderr := s.stderr, events := visibleEvents env debug s.events
      folder := s.folder }
  | (.error failure, s) =>
    let line := CommonNotice.failed.text [("error", failure.message)] ++ "\n"
    { exit := 1, stdout := s.stdout, stderr := s.stderr ++ line
      events := visibleEvents env debug s.events, folder := s.folder }

/-- Runs a command that has been read from the command line. -/
def runInvocation (f : Folder) (env : Environment) (i : Invocation) : Outcome :=
  .ofResult env i.settings.debug
    ((perform i.settings i.command).run.run { folder := f, events := startEvents i })

/-- Runs a command line over the files of a folder. -/
def run (f : Folder) (env : Environment) (arguments : List String) : Outcome :=
  match invocation env arguments with
  | .ok i => runInvocation f env i
  | .error .version => { exit := 0, stdout := versionText, folder := f }
  | .error .help => { exit := 0, stdout := usageText, folder := f }
  | .error .usage => { exit := 2, stderr := usageText, folder := f }

end Command

end SiteConfig
