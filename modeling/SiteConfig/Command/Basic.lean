import SiteConfig.DocsPlugin
import SiteConfig.Taxonomy
import SiteConfig.Tutorial

/-!
What a run can be asked to do.
-/

namespace SiteConfig

/-- The fields to change in a tutorial. -/
structure TutorialEdits where
  title : Option String := none
  description : Option String := none
  preview : Option String := none
  route : Option String := none
  source : Option String := none
  tags : Option (List String) := none
  category : Option String := none
deriving DecidableEq, Repr

/-- The options to change in a version. -/
structure VersionEdits where
  label : Option String := none
  path : Option String := none
  banner : Option String := none
deriving DecidableEq, Repr

inductive Command where
  | listTutorials
  | setTutorial (index : Option Nat) (edits : TutorialEdits)
  | listTags
  | listVersions
  | setVersion (version pluginId : String) (edits : VersionEdits)
  | setOnlyInclude (pluginId : String) (versions : List String)
deriving DecidableEq, Repr

namespace Command

/-- Whether the command is there to change the config. -/
def edits : Command → Bool
  | setTutorial .. | setVersion .. | setOnlyInclude .. => true
  | listTutorials | listTags | listVersions => false

def concernsTutorials : Command → Bool
  | listTutorials | setTutorial .. | listTags => true
  | listVersions | setVersion .. | setOnlyInclude .. => false

end Command

/-- What holds for every command of a run. -/
structure Settings where
  config : String
  dryRun : Bool := false
  debug : Bool := false
  taxonomy : Option String := none
  defaults : RepositoryDefaults := {}

structure Invocation where
  settings : Settings
  command : Command

end SiteConfig
