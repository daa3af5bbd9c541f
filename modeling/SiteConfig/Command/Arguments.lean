import SiteConfig.Command.Basic
import SiteConfig.Log.Settings
import SiteConfig.Text.Character

/-!
How a run is asked for: options, verbs and operands on the command line, with defaults from the
environment.
-/

namespace SiteConfig.Command
open Text

/-- Why a command line leads to no command. -/
inductive Refusal where
  | usage
  | version
  | help
deriving DecidableEq, Repr

/-- One option. It may be given once at each verb, unless it is repeatable. -/
structure OptionRule where
  name : String
  short : Option Char := none
  takesValue : Bool := true
  repeatable : Bool := false
  accepts : String → Bool := fun _ => true

/-- The verbs that may follow those given so far. -/
def verbsAfter : List String → List String
  | [] => ["tutorial", "versioning"]
  | ["tutorial"] => ["list", "set", "tags"]
  | ["versioning"] => ["list", "set", "only-include"]
  | _ => []

/-- One verb: the way to it, its options, and the operands that it takes where no verb follows. -/
structure Verb where
  way : List String
  options : List OptionRule
  operandLimit : Option Nat := some 0

namespace Verb

def verbs (v : Verb) : List String :=
  verbsAfter v.way

/-- Only the program as a whole has a version. -/
def hasVersion (v : Verb) : Bool :=
  v.way.isEmpty

end Verb

/-- Whether there is help on the verbs that lead on from `way`. Wherever verbs may follow, help
itself is one of them. -/
def isTopic (way : List String) : List String → Bool
  | [] => true
  | verb :: rest =>
    let verbs := verbsAfter way
    (verbs.contains verb || (!verbs.isEmpty && verb = "help")) && isTopic (way ++ [verb]) rest

/-- What is given at one verb, up to the next. -/
structure Given where
  options : List (String × String) := []
  operands : List String := []
deriving DecidableEq, Repr

namespace Given

def values (g : Given) (name : String) : List String :=
  g.options.filterMap fun (n, v) => if n = name then some v else none

def value? (g : Given) (name : String) : Option String :=
  (g.values name).head?

def has (g : Given) (name : String) : Bool :=
  !(g.values name).isEmpty

/-- Takes an option, unless its value is none that it accepts or it has been given before. -/
def add (g : Given) (o : OptionRule) (value : String) : Except Refusal Given :=
  if o.accepts value && (o.repeatable || !g.has o.name) then
    .ok { g with options := g.options ++ [(o.name, value)] }
  else .error .usage

def addOperands (g : Given) (limit : Option Nat) (operands : List String) : Except Refusal Given :=
  let operands := g.operands ++ operands
  if limit.all (operands.length ≤ ·) then .ok { g with operands } else .error .usage

end Given

/-- Options met so far, and the one that waits for its value. -/
abbrev Pending := Given × Option OptionRule

/-- Reads an argument such as `--name` or `--name=value`. -/
def readLong (v : Verb) (g : Given) (text : String) : Except Refusal Pending :=
  let name := String.ofList (text.toList.takeWhile (· ≠ '='))
  let value? := (text.toList.dropWhile (· ≠ '=')).tail?.map String.ofList
  match v.options.find? (·.name = name), value? with
  | some o, some value =>
    if o.takesValue then (g.add o value).map (·, none) else .error .usage
  | some o, none =>
    if o.takesValue then .ok (g, some o) else (g.add o "").map (·, none)
  | none, none =>
    if name = "help" then .error .help
    else if name = "version" && v.hasVersion then .error .version
    else .error .usage
  | none, some _ => .error .usage

/-- Reads the letters of an argument such as `-d` or `-cvalue`. The letters after an option that
takes a value are its value. -/
def readShort (v : Verb) (g : Given) : List Char → Except Refusal Pending
  | [] => .ok (g, none)
  | c :: rest =>
    match v.options.find? (·.short = some c) with
    | some o =>
      if o.takesValue then
        match rest with
        | [] => .ok (g, some o)
        | '=' :: value => (g.add o (String.ofList value)).map (·, none)
        | value => (g.add o (String.ofList value)).map (·, none)
      else do readShort v (← g.add o "") rest
    | none =>
      if c = 'h' then .error .help
      else if c = 'V' && v.hasVersion then .error .version
      else .error .usage

/-- Reads an argument that starts with a dash. -/
def readDashed (v : Verb) (g : Given) (argument : String) : Except Refusal Pending :=
  match argument.toList with
  | '-' :: '-' :: name => readLong v g (String.ofList name)
  | '-' :: letters => readShort v g letters
  | _ => .error .usage

/-- A single dash is an operand like any other. -/
def isDashed (argument : String) : Bool :=
  match argument.toList with
  | '-' :: _ :: _ => true
  | _ => false

/-- Reads the arguments at a verb up to the next verb, and gives that verb with its arguments. -/
def readVerb (v : Verb) (g : Given) :
    List String → Except Refusal (Given × Option (String × List String))
  | [] => .ok (g, none)
  | "--" :: rest => (g.addOperands v.operandLimit rest).map (·, none)
  | argument :: rest =>
    if isDashed argument then
      match readDashed v g argument with
      | .error r => .error r
      | .ok (g, none) => readVerb v g rest
      | .ok (g, some o) =>
        match rest with
        | [] => .error .usage
        | value :: rest =>
          if isDashed value then .error .usage
          else
            match g.add o value with
            | .error r => .error r
            | .ok g => readVerb v g rest
    else if v.verbs.isEmpty then
      match g.addOperands v.operandLimit [argument] with
      | .error r => .error r
      | .ok g => readVerb v g rest
    else if v.verbs.contains argument then .ok (g, some (argument, rest))
    else if argument = "help" && isTopic v.way rest then .error .help
    else .error .usage

def isPath (value : String) : Bool :=
  value ≠ ""

/-- Reads a place in the plugin list: a number of at most 64 bits, perhaps with a plus before it. -/
def index? (value : String) : Option Nat :=
  let digits := match value.toList with
    | '+' :: rest => rest
    | cs => cs
  if digits.isEmpty || !digits.all isDigit then none
  else
    let n := digits.foldl (fun n c => 10 * n + (c.toNat - '0'.toNat)) 0
    if n < UInt64.size then some n else none

/-- The options that may stand at every verb. -/
def sharedOptions : List OptionRule :=
  [{ name := "config", short := some 'c', accepts := isPath },
    { name := "dry-run", takesValue := false },
    { name := "debug", short := some 'd', takesValue := false },
    { name := "taxonomy", accepts := isPath },
    { name := "default-source" },
    { name := "default-route" }]

def rootVerb : Verb :=
  { way := [], options := sharedOptions }

/-- A verb that another must follow. -/
def groupVerb (group : String) : Verb :=
  { way := [group], options := sharedOptions }

/-- A verb that takes neither options of its own nor operands. -/
def plainVerb (group verb : String) : Verb :=
  { way := [group, verb], options := sharedOptions }

def setTutorialVerb : Verb :=
  { way := ["tutorial", "set"]
    options := sharedOptions ++
      [{ name := "index", accepts := fun v => (index? v).isSome },
        { name := "title" }, { name := "description" }, { name := "preview" }, { name := "route" },
        { name := "source" }, { name := "tags", repeatable := true }, { name := "category" }] }

def setVersionVerb : Verb :=
  { way := ["versioning", "set"]
    options := sharedOptions ++
      [{ name := "plugin-id" }, { name := "label" }, { name := "path" }, { name := "banner" }]
    operandLimit := some 1 }

def onlyIncludeVerb : Verb :=
  { way := ["versioning", "only-include"]
    options := sharedOptions ++ [{ name := "plugin-id" }]
    operandLimit := none }

/-- Reads the arguments of the last verb. -/
def readLast (v : Verb) (arguments : List String) : Except Refusal Given :=
  (readVerb v {} arguments).map (·.1)

/-- Reads the arguments at a verb that another must follow. -/
def readInner (v : Verb) (arguments : List String) :
    Except Refusal (Given × String × List String) :=
  match readVerb v {} arguments with
  | .error r => .error r
  | .ok (g, some (verb, rest)) => .ok (g, verb, rest)
  | .ok (_, none) => .error .usage

/-- The values of every `--tags`, parted at their commas. -/
def tags (g : Given) : Option (List String) :=
  if g.has "tags" then some ((g.values "tags").flatMap (·.splitOn ",")) else none

def tutorialEdits (g : Given) : TutorialEdits where
  title := g.value? "title"
  description := g.value? "description"
  preview := g.value? "preview"
  route := g.value? "route"
  source := g.value? "source"
  tags := tags g
  category := g.value? "category"

def versionEdits (g : Given) : VersionEdits where
  label := g.value? "label"
  path := g.value? "path"
  banner := g.value? "banner"

def pluginId (g : Given) : String :=
  (g.value? "plugin-id").getD DocsPlugin.defaultId

/-- Reads the arguments of `tutorial`. -/
def readTutorial (verb : String) (arguments : List String) : Except Refusal (Command × Given) :=
  match verb with
  | "list" => (readLast (plainVerb "tutorial" "list") arguments).map (listTutorials, ·)
  | "tags" => (readLast (plainVerb "tutorial" "tags") arguments).map (listTags, ·)
  | _ => do
    let g ← readLast setTutorialVerb arguments
    return (setTutorial ((g.value? "index").bind index?) (tutorialEdits g), g)

/-- Reads the arguments of `versioning`. -/
def readVersioning (verb : String) (arguments : List String) : Except Refusal (Command × Given) :=
  match verb with
  | "list" => (readLast (plainVerb "versioning" "list") arguments).map (listVersions, ·)
  | "set" => do
    let g ← readLast setVersionVerb arguments
    match g.operands with
    | [version] => return (setVersion version (pluginId g) (versionEdits g), g)
    | _ => throw .usage
  | _ => do
    let g ← readLast onlyIncludeVerb arguments
    if g.operands.isEmpty then throw .usage
    return (setOnlyInclude (pluginId g) g.operands, g)

def defaultConfig : String := "./docusaurus.config.js"

/-- What is given for an option: at the last verb that gives it, or else by the environment. -/
def setting? (levels : List Given) (env : Environment) (name fallback : String) : Option String :=
  (levels.findSome? (·.value? name)).or (env fallback)

def configVariable : String := "IOTA_WIKI_CONFIG"

def taxonomyVariable : String := "IOTA_WIKI_TAGS"

/-- The settings given at the verbs, the last verb first. -/
def settings (levels : List Given) (env : Environment) : Settings where
  config := (setting? levels env "config" configVariable).getD defaultConfig
  dryRun := levels.any (·.has "dry-run")
  debug := levels.any (·.has "debug")
  taxonomy := setting? levels env "taxonomy" taxonomyVariable
  defaults := {
    source := setting? levels env "default-source" "IOTA_WIKI_SOURCE"
    route := setting? levels env "default-route" "IOTA_WIKI_ROUTE" }

/-- The environment can name no empty path either. It is asked at every verb that does not give
the option itself. -/
def checkEnvironment (levels : List Given) (env : Environment) : Except Refusal Unit :=
  let isAsked (option : String) := !levels.all (·.has option)
  if (env configVariable = some "" && isAsked "config") ||
      (env taxonomyVariable = some "" && isAsked "taxonomy") then .error .usage
  else .ok ()

/-- Reads a command line. -/
def invocation (env : Environment) (arguments : List String) : Except Refusal Invocation := do
  let (root, group, rest) ← readInner rootVerb arguments
  let (inner, verb, rest) ← readInner (groupVerb group) rest
  let (command, last) ←
    if group = "tutorial" then readTutorial verb rest else readVersioning verb rest
  let levels := [last, inner, root]
  checkEnvironment levels env
  return { settings := settings levels env, command }

end SiteConfig.Command
