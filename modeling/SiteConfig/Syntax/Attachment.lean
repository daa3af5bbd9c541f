import SiteConfig.Syntax.Expr

namespace SiteConfig

/-- What a list of items holds in source order, with the rows where each piece starts and ends. -/
inductive Piece (α : Type) where
  | comment (text : String) (first last : Nat)
  | item (value : α) (first last : Nat)

namespace Piece

variable {α : Type}

def first : Piece α → Nat
  | comment _ first _ => first
  | item _ first _ => first

def last : Piece α → Nat
  | comment _ _ last => last
  | item _ _ last => last

/-- A row without a piece lies between the piece that ends on `previous` and row `first`. -/
def spacedAfter (previous : Option Nat) (first : Nat) : Bool :=
  previous.any (· + 1 < first)

/-- Gives each comment to an item. A comment right behind an item, on the row where the item
ends, trails it; any other leads the next item, and those behind the last item dangle. `pending`
holds the comments since the last item and `previous` the row where the last piece ended. -/
def attachFrom (pending : List Comment) (previous : Option Nat) :
    List (Piece α) → List (α × Trivia) × List Comment
  | [] => ([], pending)
  | comment text first last :: rest =>
    attachFrom (pending ++ [⟨text, spacedAfter previous first⟩]) (some last) rest
  | item value first last :: rest =>
    let spaced := spacedAfter previous first
    match rest with
    | comment text start stop :: rest' =>
      if start = last then
        let (items, dangling) := attachFrom [] (some stop) rest'
        ((value, ⟨pending, some text, spaced⟩) :: items, dangling)
      else
        let (items, dangling) := attachFrom [] (some last) (comment text start stop :: rest')
        ((value, ⟨pending, none, spaced⟩) :: items, dangling)
    | rest =>
      let (items, dangling) := attachFrom [] (some last) rest
      ((value, ⟨pending, none, spaced⟩) :: items, dangling)

def attach (pieces : List (Piece α)) : List (α × Trivia) × List Comment :=
  attachFrom [] none pieces

end Piece

end SiteConfig
