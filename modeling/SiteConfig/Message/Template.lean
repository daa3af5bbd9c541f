/-!
Texts with places to fill in, written as a name in braces.
-/

namespace SiteConfig.Message

inductive Piece where
  | literal (c : Char)
  | slot (name : List Char)
deriving DecidableEq, Repr

namespace Piece

/-- The piece as the template writes it. -/
def source : Piece → List Char
  | literal c => [c]
  | slot name => '\x7b' :: name ++ ['\x7d']

/-- A slot without a value stays as it is written. -/
def filled (values : List Char → Option (List Char)) : Piece → List Char
  | literal c => [c]
  | slot name => (values name).getD (source (slot name))

end Piece

/-- The pieces of a template. A slot runs to the next closing brace; an opening brace that none
follows is text. -/
def pieces : List Char → List Piece
  | [] => []
  | '\x7b' :: rest =>
    if rest.contains '\x7d' then
      .slot (rest.takeWhile (· ≠ '\x7d')) :: pieces ((rest.dropWhile (· ≠ '\x7d')).drop 1)
    else .literal '\x7b' :: pieces rest
  | c :: rest => .literal c :: pieces rest
termination_by text => text.length
decreasing_by
  · have := (List.dropWhile_suffix (fun c : Char => decide (c ≠ '\x7d')) (l := rest)).length_le
    simp only [List.length_drop, List.length_cons]
    omega
  · simp
  · simp

/-- The value given last for a name. -/
def valueOf (values : List (String × String)) (name : List Char) : Option (List Char) :=
  (values.reverse.lookup (String.ofList name)).map String.toList

/-- Fills a template in one pass: what is filled in is not looked at again. -/
def fill (template : String) (values : List (String × String)) : String :=
  String.ofList ((pieces template.toList).flatMap (Piece.filled (valueOf values)))

end SiteConfig.Message
