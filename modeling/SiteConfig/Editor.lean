import SiteConfig.DocsPlugin
import SiteConfig.Tutorial

/-!
One session on a config: the document and the handles of its exported object and plugin list.
-/

namespace SiteConfig

structure Editor where
  document : Document
  config : NodeId
  plugins : NodeId

namespace Editor

/-- The handles of the exported object and of its plugin list. -/
def handles : Change (NodeId × NodeId) := do
  let config ← Change.locate
  return (config, ← Change.plugins config)

def ofDocument (d : Document) : Result Editor :=
  let (found, document) := d.perform handles
  found.map fun (config, plugins) => { document, config, plugins }

def ofSource (source path : String) : Result Editor := do
  ofDocument (← Document.ofSource source path)

def render (e : Editor) : String :=
  e.document.render

def pluginCount (e : Editor) : Nat :=
  e.document.pluginCount e.plugins

def tutorials (e : Editor) : Report (List Tutorial) :=
  e.document.tutorials e.plugins

def tutorial (e : Editor) (index : Nat) : Result TutorialOptions :=
  e.document.tutorial e.plugins index

/-- The answer of a step on the config, and the session behind it. -/
def perform {α : Type} (e : Editor) (c : Change α) : Result α × Editor :=
  let (answer, document) := e.document.perform c
  (answer, { e with document })

def setTutorial (e : Editor) (index : Option Nat) (o : TutorialOptions) : Result Nat × Editor :=
  e.perform (.setTutorial e.plugins index o)

def docsPlugins (e : Editor) : Report (List DocsPlugin) :=
  e.document.docsPlugins e.plugins

def docsPlugin (e : Editor) (id : String) : Result DocsPlugin :=
  e.document.docsPlugin e.plugins id

def version (e : Editor) (id version : String) : Result (Option Record) :=
  e.document.readVersion e.plugins id version

def setVersion (e : Editor) (id version : String) (r : Record) : Result Unit × Editor :=
  e.perform (.setVersion e.plugins id version r)

def setOnlyInclude (e : Editor) (id : String) (versions : List String) : Result Unit × Editor :=
  e.perform (.setOnlyInclude e.plugins id versions)

end Editor

end SiteConfig
