/-!
How the environment sets up the log.
-/

namespace SiteConfig

/-- The variables that a run sees. -/
abbrev Environment := String → Option String

namespace Log

inductive Output where
  | console
  | file
  | both
  | off
deriving DecidableEq, Repr

structure Settings where
  level : String
  output : Output
  json : Bool
  filePath : String
deriving DecidableEq, Repr

namespace Output

/-- Any name that is not known stands for the console. -/
def ofName : Option String → Output
  | some "file" => file
  | some "both" => both
  | some "off" | some "none" => off
  | _ => console

def toConsole : Output → Bool
  | console | both => true
  | file | off => false

end Output

namespace Settings

def defaultLevel : String := "warn"

def defaultPath : String := "/tmp/wiki.log"

def ofEnvironment (env : Environment) : Settings where
  level := (env "LOG_LEVEL").getD defaultLevel
  output := .ofName (env "LOG_OUTPUT")
  json := env "LOG_FORMAT" = some "json"
  filePath := (env "LOG_FILE_PATH").getD defaultPath

end Settings

end Log

end SiteConfig
