import SiteConfig.Command.Basic
import SiteConfig.Text.Character

/-!
Commands as the log shows them.
-/

namespace SiteConfig.Command
open Text

def describeChar (c : Char) : List Char :=
  match c with
  | '"' => ['\\', '"']
  | '\\' => ['\\', '\\']
  | '\n' => ['\\', 'n']
  | '\r' => ['\\', 'r']
  | '\t' => ['\\', 't']
  | '\x00' => ['\\', '0']
  | c => if isControl c then "\\u\x7b".toList ++ Nat.toDigits 16 c.toNat ++ ['\x7d'] else [c]

def describeString (text : String) : String :=
  String.ofList ('"' :: text.toList.flatMap describeChar ++ ['"'])

def describeOption (f : α → String) : Option α → String
  | some a => "Some(" ++ f a ++ ")"
  | none => "None"

def describeList (texts : List String) : String :=
  "[" ++ ", ".intercalate (texts.map describeString) ++ "]"

/-- A name with its fields, if it has any. -/
def describeFields (name : String) (fields : List (String × String)) : String :=
  if fields.isEmpty then name
  else
    name ++ " \x7b " ++ ", ".intercalate (fields.map fun (key, value) => key ++ ": " ++ value) ++
      " \x7d"

def describeIndex (index : Option Nat) : String :=
  describeOption (fun n => toString n) index

def describeTutorialSet (index : Option Nat) (e : TutorialEdits) : String :=
  let text := describeOption describeString
  describeFields "Set"
    [("index", describeIndex index), ("title", text e.title), ("description", text e.description),
      ("preview", text e.preview), ("route", text e.route), ("source", text e.source),
      ("tags", describeOption describeList e.tags), ("category", text e.category)]

def describeVersionSet (version pluginId : String) (e : VersionEdits) : String :=
  let text := describeOption describeString
  describeFields "Set"
    [("version", describeString version), ("plugin_id", describeString pluginId),
      ("label", text e.label), ("path", text e.path), ("banner", text e.banner)]

def describeOnlyInclude (pluginId : String) (versions : List String) : String :=
  describeFields "OnlyInclude"
    [("plugin_id", describeString pluginId), ("versions", describeList versions)]

/-- The command within its group. -/
def describeInner : Command → String
  | listTutorials => "List"
  | setTutorial index e => describeTutorialSet index e
  | listTags => "Tags"
  | listVersions => "List"
  | setVersion version pluginId e => describeVersionSet version pluginId e
  | setOnlyInclude pluginId versions => describeOnlyInclude pluginId versions

def describe (c : Command) : String :=
  describeFields (if c.concernsTutorials then "Tutorial" else "Versioning")
    [("command", c.describeInner)]

end SiteConfig.Command
