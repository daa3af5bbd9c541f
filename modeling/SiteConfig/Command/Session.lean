import SiteConfig.Error
import SiteConfig.Folder
import SiteConfig.Log.Event
import SiteConfig.Message.Catalog

/-!
What a command writes and reports on its way. Results go to the standard output, and all that is
said about them to the standard error.
-/

namespace SiteConfig.Command

/-- The files as a run finds and leaves them, and what it has said so far. -/
structure State where
  folder : Folder
  stdout : String := ""
  stderr : String := ""
  events : List Log.Event := []
deriving DecidableEq, Repr

/-- Why a command fails. -/
inductive Failure where
  | config (error : ConfigError)
  | refused (problem : String)
deriving DecidableEq, Repr

namespace Failure

/-- A problem with a file is told with its cause, which is the same text again. -/
def message : Failure → String
  | config (.io problem) => (ConfigError.io problem).message ++ ": " ++ problem
  | config e => e.message
  | refused problem => problem

end Failure

abbrev Session := ExceptT Failure (StateM State)

namespace Session

def print (text : String) : Session Unit :=
  modify fun s => { s with stdout := s.stdout ++ text }

def say (line : String) : Session Unit :=
  print (line ++ "\n")

def status (symbol line : String) : Session Unit :=
  modify fun s => { s with stderr := s.stderr ++ symbol ++ " " ++ line ++ "\n" }

def success (line : String) : Session Unit :=
  status "✓" line

def hint (line : String) : Session Unit :=
  status "ℹ" line

def warning (line : String) : Session Unit :=
  status "⚠" line

def report (events : List Log.Event) : Session Unit :=
  modify fun s => { s with events := s.events ++ events }

def debug (message : String) (fields : List (String × Log.Field)) : Session Unit :=
  report [⟨.debug, message, fields⟩]

def attempt {α : Type} (r : Result α) : Session α :=
  match r with
  | .ok a => pure a
  | .error e => throw (.config e)

/-- An answer that is read off the files. -/
def look {α : Type} (f : Folder → Result α) : Session α := do
  attempt (f (← get).folder)

/-- Changes the files. -/
def change (f : Folder → Result Folder) : Session Unit := do
  let folder ← look f
  modify fun s => { s with folder }

/-- Warns of the problems that a config has. -/
def warnOf (path : String) (errors : List ConfigError) : Session Unit := do
  unless errors.isEmpty do
    errors.forM fun e => warning e.message
    warning (CommonNotice.problemsFound.text [("count", toString errors.length), ("path", path)])
    hint (CommonNotice.fixHint.text [("path", path)])

end Session

end SiteConfig.Command
