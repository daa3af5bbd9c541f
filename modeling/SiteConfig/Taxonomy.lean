import SiteConfig.Error
import SiteConfig.Json.Value
import SiteConfig.Json.Writer

/-!
The tags that tutorials may carry, by category.
-/

namespace SiteConfig

structure Tag where
  value : String
  label : String
  description : String := ""
  color : String := ""
deriving DecidableEq, Repr

structure Taxonomy where
  categories : List (String × List Tag) := []
deriving DecidableEq, Repr

namespace Taxonomy

/-- A category given again keeps its place and takes the new tags. -/
def insert (name : String) (tags : List Tag) :
    List (String × List Tag) → List (String × List Tag)
  | [] => [(name, tags)]
  | (n, ts) :: rest =>
    if n = name then (n, tags) :: rest else (n, ts) :: insert name tags rest

def ofCategories (categories : List (String × List Tag)) : Taxonomy :=
  ⟨categories.foldl (fun t c => insert c.1 c.2 t) []⟩

def category? (t : Taxonomy) (name : String) : Option (List Tag) :=
  t.categories.lookup name

def defines (tags : List Tag) (value : String) : Bool :=
  tags.any (·.value = value)

/-- The values that no category defines. -/
def unknown (t : Taxonomy) (values : List String) : List String :=
  values.filter fun v => !t.categories.any fun c => defines c.2 v

/-- Puts `chosen` in the place of all tags of a category. The other tags come first, and no tag
comes twice. -/
def merge (t : Taxonomy) (tags : List String) (category : String) (chosen : List String) :
    Result (List String) :=
  match t.category? category with
  | none => .error (.invalidInput ("Unknown tag category: " ++ category))
  | some definitions =>
    let outside := chosen.filter (!defines definitions ·)
    if outside.isEmpty then
      .ok ((tags.filter (!defines definitions ·)) ++ chosen).eraseDups
    else
      .error (.invalidInput
        ("Tag(s) not in category " ++ category ++ ": " ++ ", ".intercalate outside))

/-- The tags that need no file. -/
def builtin : Taxonomy :=
  ⟨[("Type", [⟨"text", "Text", "", ""⟩, ⟨"video", "Video", "", ""⟩]),
    ("Topic",
      [⟨"favorite", "Favorite", "", ""⟩, ⟨"gettingstarted", "Getting Started", "", ""⟩,
        ⟨"integrationservices", "Integration Services", "", ""⟩,
        ⟨"livecoding", "Live Coding", "", ""⟩, ⟨"nft", "NFT", "", ""⟩,
        ⟨"supply_chain", "Supply Chain", "", ""⟩]),
    ("Framework",
      [⟨"client", "Client", "", ""⟩, ⟨"identity", "Identity", "", ""⟩,
        ⟨"iscp", "Smart Contracts", "", ""⟩, ⟨"streams", "Streams", "", ""⟩,
        ⟨"stronghold", "Stronghold", "", ""⟩, ⟨"wallet", "Wallet", "", ""⟩]),
    ("Language",
      [⟨"c", "C", "", ""⟩, ⟨"go", "Go", "", ""⟩, ⟨"java", "Java", "", ""⟩,
        ⟨"node_js", "Node.js", "", ""⟩, ⟨"python", "Python", "", ""⟩, ⟨"rust", "Rust", "", ""⟩,
        ⟨"wasm", "Wasm", "", ""⟩])]⟩

end Taxonomy

namespace Tag
open Json

def fieldNames : List String :=
  ["value", "label", "description", "color"]

def text? : Json.Value → Option String
  | .string text => text
  | _ => none

/-- The fields of a tag among the members of an object, each given at most once. Other members
only need readable keys. -/
def fields? : List (Option String × Json.Value) → Option (List (String × String))
  | [] => some []
  | (key, v) :: rest => do
    let key ← key
    let fields ← fields? rest
    if fieldNames.contains key then
      guard (fields.lookup key).isNone
      return (key, ← text? v) :: fields
    else return fields

/-- Reads a tag, written as an object or as the array of its fields. Only the value and the label
must be given. -/
def ofJson? : Json.Value → Option Tag
  | .object members => do
    let fields ← fields? members
    return {
      value := ← fields.lookup "value"
      label := ← fields.lookup "label"
      description := (fields.lookup "description").getD ""
      color := (fields.lookup "color").getD "" }
  | .array items => do
    match ← items.mapM text? with
    | [value, label] => return { value, label }
    | [value, label, description] => return { value, label, description }
    | [value, label, description, color] => return { value, label, description, color }
    | _ => none
  | _ => none

def toJson (t : Tag) : String :=
  writeObject [("value", writeString t.value), ("label", writeString t.label),
    ("description", writeString t.description), ("color", writeString t.color)]

end Tag

namespace Taxonomy
open Json

def categoryOfJson? : Option String × Json.Value → Option (String × List Tag)
  | (some name, .array items) => do return (name, ← items.mapM Tag.ofJson?)
  | _ => none

/-- Reads an object with an array of tags for each category. -/
def ofJson? (text : String) : Option Taxonomy := do
  match ← parse? text with
  | .object members => return ofCategories (← members.mapM categoryOfJson?)
  | _ => none

def toJson (t : Taxonomy) : String :=
  writeObject (t.categories.map fun c => (c.1, writeArray (c.2.map Tag.toJson)))

/-- Reads a taxonomy; `problem` goes into the error if the text is none. -/
def parse (text problem : String) : Result Taxonomy :=
  match ofJson? text with
  | some t => .ok t
  | none => .error (.serialization problem)

end Taxonomy

end SiteConfig
