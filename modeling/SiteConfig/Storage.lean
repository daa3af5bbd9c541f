import SiteConfig.Editor
import SiteConfig.Folder
import SiteConfig.Taxonomy

/-!
Configs and taxonomies in files.
-/

namespace SiteConfig

namespace Folder

def readProblem (path : String) (fault : FileFault) : String :=
  "Failed to read " ++ path ++ ": " ++ fault.message

def writeProblem (path : String) (fault : FileFault) : String :=
  "Failed to write " ++ path ++ ": " ++ fault.message

def readText (f : Folder) (path : String) : Result String :=
  (f.read path).mapError fun fault => .io (readProblem path fault)

def writeText (f : Folder) (path text : String) : Result Folder :=
  (f.write path text).mapError fun fault => .io (writeProblem path fault)

end Folder

namespace Document

/-- The text of the config at `path`; a config that does not exist starts from the template. -/
def sourceAt (f : Folder) (path : String) : Result String :=
  if f.holds path then f.readText path else .ok template

def load (f : Folder) (path : String) : Result Document := do
  ofSource (← sourceAt f path) path

/-- Writes the config back to its path. -/
def save (d : Document) (f : Folder) : Result Folder :=
  f.writeText d.path d.render

end Document

namespace Editor

def load (f : Folder) (path : String) : Result Editor := do
  ofDocument (← Document.load f path)

def save (e : Editor) (f : Folder) : Result Folder :=
  e.document.save f

end Editor

namespace Taxonomy

/-- What is wrong with a text that is no taxonomy. -/
def shapeProblem : String :=
  "expected an object with a list of tags for each category"

/-- Reads the taxonomy in a file. -/
def load (f : Folder) (path : String) : Result Taxonomy := do
  parse (← f.readText path) (path ++ ": " ++ shapeProblem)

end Taxonomy

end SiteConfig
