/-!
The files that a run can see. A path is read as the list of names on its way; `..` and the root
are names like any other.
-/

namespace SiteConfig

/-- What a file holds. -/
inductive FileContent where
  | text (text : String)
  /-- Bytes that are no UTF-8 text. -/
  | binary
deriving DecidableEq, Repr

/-- The files and directories of a working directory, each by the names on the way to it. -/
structure Folder where
  files : List (List String × FileContent) := []
  directories : List (List String) := []
deriving DecidableEq, Repr

/-- Why a file cannot be read or written. -/
inductive FileFault where
  | missing
  | notDirectory
  | isDirectory
  | notText
deriving DecidableEq, Repr

namespace FileFault

def message : FileFault → String
  | missing => "No such file or directory (os error 2)"
  | notDirectory => "Not a directory (os error 20)"
  | isDirectory => "Is a directory (os error 21)"
  | notText => "stream did not contain valid UTF-8"

end FileFault

namespace Folder

/-- The names that a path consists of. A dot stands for the directory it follows, unless it comes
last: then what it follows must be a directory. -/
def names (path : String) : List String :=
  let root := if path.startsWith "/" then ["/"] else []
  root ++ (path.splitOn "/").filter fun n => n ≠ "" ∧ n ≠ "."

def endsInSlash (path : String) : Bool :=
  (path.splitOn "/").getLast? = some ""

def endsInDot (path : String) : Bool :=
  (path.splitOn "/").getLast? = some "."

inductive Entry where
  | file (content : FileContent)
  | directory
  | nothing
deriving DecidableEq, Repr

/-- What lies at the end of a way. The working directory itself is at the end of the empty one, and
the directories above it are always there. -/
def entry (f : Folder) (way : List String) : Entry :=
  if way.all (fun n => n = "/" ∨ n = "..") ∨ way ∈ f.directories then .directory
  else
    match f.files.lookup way with
    | some content => .file content
    | none => .nothing

/-- Whether names can be looked up in what lies at the end of a way. -/
def enter (f : Folder) (way : List String) : Except FileFault Unit :=
  match f.entry way with
  | .directory => .ok ()
  | .file _ => .error .notDirectory
  | .nothing => .error .missing

/-- Every way that a path goes before its last name. -/
def waysBefore (way : List String) : List (List String) :=
  (List.range way.length).map way.take

/-- Follows a path up to its last name. -/
def follow (f : Folder) (path : String) : Except FileFault (List String) := do
  if path = "" then throw .missing
  let way := names path
  (waysBefore way).forM f.enter
  return way

/-- The text of a file. -/
def read (f : Folder) (path : String) : Except FileFault String := do
  let way ← f.follow path
  match f.entry way with
  | .directory => throw .isDirectory
  | .nothing => throw .missing
  | .file content =>
    if endsInSlash path || endsInDot path then throw .notDirectory
    match content with
    | .text text => return text
    | .binary => throw .notText

/-- Whether a path leads to a file or directory. -/
def holds (f : Folder) (path : String) : Bool :=
  match f.read path with
  | .ok _ => true
  | .error fault => fault = .isDirectory || fault = .notText

def put (way : List String) (content : FileContent) :
    List (List String × FileContent) → List (List String × FileContent)
  | [] => [(way, content)]
  | (w, c) :: rest => if w = way then (w, content) :: rest else (w, c) :: put way content rest

/-- Writes a text over a file, or makes a new one. -/
def write (f : Folder) (path text : String) : Except FileFault Folder := do
  let way ← f.follow path
  if f.entry way = .directory || endsInSlash path then throw .isDirectory
  if endsInDot path then
    f.enter way
  return { f with files := put way (.text text) f.files }

theorem lookup_put (way w : List String) (content : FileContent)
    (files : List (List String × FileContent)) :
    (put way content files).lookup w = if w = way then some content else files.lookup w := by
  fun_induction put way content files <;> grind

end Folder

end SiteConfig
