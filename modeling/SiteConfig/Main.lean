import SiteConfig.Command.Run

/-!
The program: it looks at the files that a command line names, runs it over them, and writes what
has changed.
-/

namespace SiteConfig.Main

/-- The variables that a run may look at. -/
def variableNames : List String :=
  ["IOTA_WIKI_CONFIG", "IOTA_WIKI_TAGS", "IOTA_WIKI_SOURCE", "IOTA_WIKI_ROUTE", "WIKI_TEST_MODE",
    "RUST_LOG", "LOG_LEVEL", "LOG_OUTPUT", "LOG_FORMAT", "LOG_FILE_PATH"]

def environment : IO Environment := do
  let values ← variableNames.mapM fun name => return (name, ← IO.getEnv name)
  return fun name => (values.lookup name).join

/-- Adds what lies on the way to a path. -/
def look (f : Folder) (path : String) : IO Folder := do
  let here ← IO.currentDir
  let way := Folder.names path
  let place (names : List String) := here / "/".intercalate names
  let mut f := f
  for above in (Folder.waysBefore way).drop 1 ++ [way] do
    if ← (place above).isDir then
      f := { f with directories := above :: f.directories }
  if (← (place way).pathExists) && !(← (place way).isDir) then
    let bytes ← IO.FS.readBinFile (place way)
    let content := (String.fromUTF8? bytes).elim .binary .text
    f := { f with files := Folder.put way content f.files }
  return f

/-- The files that a run can look at. -/
def folder (env : Environment) (arguments : List String) : IO Folder := do
  match Command.invocation env arguments with
  | .ok i => (i.settings.config :: i.settings.taxonomy.toList).foldlM look {}
  | .error _ => return {}

/-- Writes the files of a folder that are not as they were. -/
def write (before after : Folder) : IO Unit := do
  let here ← IO.currentDir
  for (way, content) in after.files do
    if before.files.lookup way ≠ some content then
      if let .text text := content then
        IO.FS.writeFile (here / "/".intercalate way) text

def showEvent (e : Log.Event) : String :=
  e.level.name ++ " " ++ e.message

def run (arguments : List String) : IO UInt32 := do
  let env ← environment
  let before ← folder env arguments
  let outcome := Command.run before env arguments
  write before outcome.folder
  if (Log.Settings.ofEnvironment env).output.toConsole then
    outcome.events.forM fun e => IO.eprintln (showEvent e)
  IO.print outcome.stdout
  IO.eprint outcome.stderr
  return outcome.exit.toUInt32

end SiteConfig.Main

def main (arguments : List String) : IO UInt32 :=
  SiteConfig.Main.run arguments
