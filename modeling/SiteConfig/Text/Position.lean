namespace SiteConfig

/-- One-based line and column of a character; the column counts UTF-8 bytes. -/
structure Position where
  line : Nat
  column : Nat
deriving DecidableEq, Repr, Inhabited

namespace Position

def first : Position := ⟨1, 1⟩

/-- Only a line feed ends a line. -/
def next (p : Position) (c : Char) : Position :=
  if c = '\n' then ⟨p.line + 1, 1⟩ else ⟨p.line, p.column + c.utf8Size⟩

def after (p : Position) (text : List Char) : Position :=
  text.foldl next p

@[simp] theorem after_nil (p : Position) : p.after [] = p := rfl

@[simp] theorem after_cons (p : Position) (c : Char) (text : List Char) :
    p.after (c :: text) = (p.next c).after text := rfl

theorem after_append (p : Position) (s t : List Char) :
    p.after (s ++ t) = (p.after s).after t := by
  simp [after, List.foldl_append]

end Position

/-- The column reached by writing `text` from `column`, in characters since the last line feed. -/
def columnAfter (column : Nat) (text : List Char) : Nat :=
  text.foldl (fun k c => if c = '\n' then 0 else k + 1) column

@[simp] theorem columnAfter_nil (column : Nat) : columnAfter column [] = column := rfl

theorem columnAfter_append (column : Nat) (s t : List Char) :
    columnAfter column (s ++ t) = columnAfter (columnAfter column s) t := by
  simp [columnAfter, List.foldl_append]

end SiteConfig
