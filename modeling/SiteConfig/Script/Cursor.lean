import SiteConfig.Text.Character
import SiteConfig.Text.Position

/-!
A place in a script and the readers that move it. A reader either fails or hands on the place
behind what it read.
-/

namespace SiteConfig.Script
open Text

structure Cursor where
  rest : List Char
  position : Position
  /-- How many characters are left, kept so that no reader has to count them. -/
  left : Nat
  left_eq : left = rest.length

namespace Cursor

/-- A byte order mark at the very start is passed over. -/
def ofString (source : String) : Cursor :=
  match source.toList with
  | '\ufeff' :: rest => ⟨rest, Position.first.next '\ufeff', rest.length, rfl⟩
  | rest => ⟨rest, Position.first, rest.length, rfl⟩

/-- The place behind the next `count` characters. -/
def forward (c : Cursor) (count : Nat) : Cursor :=
  { rest := c.rest.drop count
    position := c.position.after (c.rest.take count)
    left := c.left - count
    left_eq := by simp [c.left_eq] }

/-- The characters from one place to a later one. -/
def textTo (start stop : Cursor) : List Char :=
  start.rest.take (start.left - stop.left)

def slice (start stop : Cursor) : String :=
  String.ofList (start.textTo stop)

end Cursor

abbrev Scan := StateT Cursor Option

/-- A lexeme is recognised at the start of a text; its length is returned. -/
abbrev Lexeme := List Char → Option Nat

namespace Scan

def rest : Scan (List Char) := do
  return (← get).rest

def skip (count : Nat) : Scan Unit :=
  modify (·.forward count)

/-- Reads a lexeme that starts right here. -/
def lexeme (l : Lexeme) : Scan String := do
  let start ← get
  let count ← l start.rest
  skip count
  return start.slice (← get)

/-- Whether the text that follows starts with `s`. -/
def sees (s : String) : Scan Bool := do
  return s.toList.isPrefixOf (← rest)

end Scan

end SiteConfig.Script
