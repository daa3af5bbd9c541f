import SiteConfig.Text.Character

namespace SiteConfig
open Text

/-- How a property key is written. -/
inductive KeyForm where
  | identifier
  | string
  | numeric
deriving DecidableEq, Repr

structure PropertyKey where
  name : String
  form : KeyForm
deriving DecidableEq, Repr

namespace PropertyKey

def reservedWords : List String :=
  ["break", "case", "catch", "class", "const", "continue", "debugger", "default", "delete", "do",
    "else", "export", "extends", "false", "finally", "for", "function", "if", "import", "in",
    "instanceof", "new", "null", "return", "super", "switch", "this", "throw", "true", "try",
    "typeof", "var", "void", "while", "with"]

/-- Whether `name` is written without quotes. Reserved words are quoted although newer scripts
need not. -/
def isPlainName (name : String) : Bool :=
  match name.toList with
  | [] => false
  | c :: rest => isAsciiNameStart c && rest.all isAsciiNamePart && !reservedWords.contains name

/-- The key an edit writes for `name`. -/
def forName (name : String) : PropertyKey :=
  ⟨name, if isPlainName name then .identifier else .string⟩

@[simp] theorem forName_name (name : String) : (forName name).name = name := rfl

end PropertyKey

/-- A property that is no `key: value`. -/
inductive IrregularShape where
  | spread
  | shorthand
  | method
  | computed
  | unrecognized
deriving DecidableEq, Repr

namespace IrregularShape

def describe : IrregularShape → String
  | spread => "spread property"
  | shorthand => "shorthand property"
  | method => "method property"
  | computed => "computed property key"
  | unrecognized => "property"

def methodModifiers : List (List Char) :=
  ["async ".toList, "get ".toList, "set ".toList, ['*']]

/-- What follows the modifier that starts `text`, if one does. -/
def dropModifier? (text : List Char) : Option (List Char) :=
  methodModifiers.findSome? fun m => if m.isPrefixOf text then some (text.drop m.length) else none

theorem length_dropModifier? {text rest : List Char} (h : dropModifier? text = some rest) :
    rest.length < text.length := by
  obtain ⟨m, hm, h⟩ := List.exists_of_findSome?_eq_some h
  split at h
  · rename_i hp
    have hle := (List.isPrefixOf_iff_prefix.mp hp).length_le
    have hpos : 0 < m.length := by
      simp [methodModifiers] at hm
      rcases hm with rfl | rfl | rfl | rfl <;> simp
    cases h
    simp only [List.length_drop]
    omega
  · cases h

theorem length_trimStart (text : List Char) : (trimStart text).length ≤ text.length :=
  (List.dropWhile_suffix _).length_le

/-- The text of a method without the modifiers before its name. -/
def dropModifiers (text : List Char) : List Char :=
  match _h : dropModifier? text with
  | some rest => dropModifiers (trimStart rest)
  | none => text
termination_by text.length
decreasing_by
  have := length_dropModifier? _h
  have := length_trimStart rest
  omega

/-- The name that the text of a method starts with. Unquoted names are read as far as they are
ASCII. -/
def methodName? (text : List Char) : Option (List Char) :=
  match dropModifiers (trimStart text) with
  | [] => none
  | c :: rest =>
    if c = '\'' || c = '"' then
      if rest.contains c then some (rest.takeWhile (· != c)) else none
    else
      let name := (c :: rest).takeWhile isAsciiNamePart
      if name.isEmpty then none else some name

/-- The key bound by a property of this shape written as `text`. -/
def name? (shape : IrregularShape) (text : String) : Option String :=
  match shape with
  | shorthand => some (String.ofList (trim text.toList))
  | method => (methodName? text.toList).map String.ofList
  | _ => none

end IrregularShape

end SiteConfig
