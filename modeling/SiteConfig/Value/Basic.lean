namespace SiteConfig

/-- The value of an option, as written in a config. -/
inductive Value where
  | string (text : String)
  | boolean (value : Bool)
  /-- A path relative to the directory of the config. -/
  | path (text : String)
  | list (items : List Value)
  | record (entries : List (String × Value))
deriving Repr

instance : Inhabited Value :=
  ⟨.boolean false⟩

/-- Options by name, in the order in which the names were first given. -/
abbrev Record := List (String × Value)

namespace Record

/-- A name given again keeps its place and takes the new value. -/
def insert (key : String) (value : Value) : Record → Record
  | [] => [(key, value)]
  | (k, v) :: rest => if k = key then (k, value) :: rest else (k, v) :: insert key value rest

def ofEntries (entries : List (String × Value)) : Record :=
  entries.foldl (fun r e => r.insert e.1 e.2) []

def get? (key : String) : Record → Option Value
  | [] => none
  | (k, v) :: rest => if k = key then some v else get? key rest

def keys (r : Record) : List String :=
  r.map (·.1)

theorem get?_insert (r : Record) (key k : String) (v : Value) :
    (r.insert key v).get? k = if k = key then some v else r.get? k := by
  fun_induction insert key v r <;> grind [get?]

theorem keys_insert (r : Record) (key : String) (v : Value) :
    (r.insert key v).keys = if key ∈ r.keys then r.keys else r.keys ++ [key] := by
  fun_induction insert key v r <;> grind [keys]

end Record

namespace Value

def kind : Value → String
  | string _ => "string"
  | boolean _ => "boolean"
  | path _ => "path"
  | list _ => "array"
  | record _ => "object"

/-- The text of a string or path. -/
def text? : Value → Option String
  | string s | path s => some s
  | _ => none

mutual

def same : Value → Value → Bool
  | string s, string t => s = t
  | boolean a, boolean b => a = b
  | path s, path t => s = t
  | list xs, list ys => sameItems xs ys
  | record r, record s => sameEntries r s
  | _, _ => false

def sameItems : List Value → List Value → Bool
  | [], [] => true
  | x :: xs, y :: ys => same x y && sameItems xs ys
  | _, _ => false

/-- Equal entries in the same order. -/
def sameEntries : List (String × Value) → List (String × Value) → Bool
  | [], [] => true
  | (k, v) :: xs, (l, w) :: ys => k = l && same v w && sameEntries xs ys
  | _, _ => false

end

end Value

end SiteConfig
