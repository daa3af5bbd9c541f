import SiteConfig.Proofs.Marks
import SiteConfig.Proofs.Members
import SiteConfig.Proofs.Planting

/-!
How the text of a script spells a tree, which comments stand between the items in it, and where its
values and properties stand. Comments inside an item, such as those between a key and its value,
are passed over.
-/

namespace SiteConfig.Script
open Text

/-- A list of items from one place to a later one, with the marks in it. Between two items stand
blanks, comments and the characters in `separators`; `note` is what is noted of a comment. -/
inductive Between {α : Type} (note : String → List Mark) (separators : List Char)
    (item : Cursor → α → List Mark → Cursor → Prop) :
    Cursor → List α → List Mark → Cursor → Prop where
  | none (c : Cursor) : Between note separators item c [] [] c
  | blank {c c' : Cursor} {items : List α} {marks : List Mark} {ch : Char}
    (h : c.rest.head? = some ch) (hb : isBlank ch ∨ ch ∈ separators)
    (rest : Between note separators item (c.forward 1) items marks c') :
    Between note separators item c items marks c'
  | comment {c c' : Cursor} {items : List α} {marks : List Mark} {n : Nat}
    (h : Lexeme.comment c.rest = some n)
    (rest : Between note separators item (c.forward n) items marks c') :
    Between note separators item c items (note (c.slice (c.forward n)) ++ marks) c'
  | item {c m c' : Cursor} {x : α} {items : List α} {marks marks' : List Mark} (hc : AtToken c)
    (h : item c x marks m) (rest : Between note separators item m items marks' c') :
    Between note separators item c (x :: items) (marks ++ marks') c'

mutual

/-- The text from one place to a later one spells a tree, and holds these marks. The later place
is right behind the last token. A tree has the position where its own text starts, which is inside
the parentheses around it. -/
inductive Spells : Cursor → Tree → List Mark → Cursor → Prop where
  | verbatim {c c' : Cursor} (h : c.Reaches c') :
    Spells c (.node (some c.position) (.verbatim (c.slice c'))) [.verbatim (c.slice c')] c'
  | string {c : Cursor} {n : Nat} {value : String} (h : Lexeme.string c.rest = some n)
    (hv : Quoted.unquote (c.slice (c.forward n)) = some value) :
    Spells c (.node (some c.position) (.string value)) [] (c.forward n)
  | boolean {c : Cursor} {n : Nat} {value : Bool} (h : Lexeme.name c.rest = some n)
    (hv : c.slice (c.forward n) = if value then "true" else "false") :
    Spells c (.node (some c.position) (.boolean value)) [] (c.forward n)
  | identifier {c : Cursor} {n : Nat} (h : Lexeme.name c.rest = some n) :
    Spells c (.node (some c.position) (.identifier (c.slice (c.forward n)))) [] (c.forward n)
  | member {c m d m' : Cursor} {object : Tree} {marks : List Mark} {n : Nat}
    (ho : Spells c object marks m) (hm : Apart m d) (hd : d.rest.head? = some '.')
    (hm' : Apart (d.forward 1) m') (h : Lexeme.name m'.rest = some n) :
    Spells c (.node (some c.position) (.member object (m'.slice (m'.forward n)))) marks
      (m'.forward n)
  | assignment {c m d m' c' : Cursor} {left right : Tree} {marks marks' : List Mark}
    (hl : Spells c left marks m) (hm : Apart m d) (hd : d.rest.head? = some '=')
    (hm' : Apart (d.forward 1) m') (hr : Spells m' right marks' c') :
    Spells c (.node (some c.position) (.assignment left right)) (marks ++ marks') c'
  /-- Comments between the arguments are not kept. -/
  | call {c m d c' : Cursor} {callee : Tree} {arguments : List Tree} {marks marks' : List Mark}
    (hf : Spells c callee marks m) (hm : Apart m d) (hd : d.rest.head? = some '(')
    (ha : Between Piece.unnoted [','] Spells (d.forward 1) arguments marks' c')
    (h : c'.rest.head? = some ')') :
    Spells c (.node (some c.position) (.call callee arguments)) (marks ++ marks') (c'.forward 1)
  | array {c c' : Cursor} {elements : List (Element Tree)} {marks : List Mark}
    (hc : c.rest.head? = some '[')
    (he : Between Piece.noted [','] Spells (c.forward 1) (elements.map (·.value)) marks c')
    (h : c'.rest.head? = some ']') (dangling : List Comment) :
    Spells c (.node (some c.position) (.array elements dangling)) marks (c'.forward 1)
  | object {c c' : Cursor} {properties : List (Property Tree)} {marks : List Mark}
    (hc : c.rest.head? = some '\x7b')
    (hp : Between Piece.noted [','] SpellsProperty (c.forward 1) properties marks c')
    (h : c'.rest.head? = some '\x7d') (dangling : List Comment) :
    Spells c (.node (some c.position) (.object properties dangling)) marks (c'.forward 1)
  /-- Comments between a parenthesis and what stands in it are not kept. -/
  | parentheses {c c' : Cursor} {t : Tree} {marks : List Mark} (hc : c.rest.head? = some '(')
    (ht : Between Piece.unnoted [','] Spells (c.forward 1) [t] marks c')
    (h : c'.rest.head? = some ')') : Spells c t marks (c'.forward 1)

/-- The text from one place to a later one spells a property, without the comments given to it. -/
inductive SpellsProperty : Cursor → Property Tree → List Mark → Cursor → Prop where
  | irregular {c c' : Cursor} (h : c.Reaches c') (shape : IrregularShape) (trivia : Trivia) :
    SpellsProperty c ⟨.irregular shape (c.slice c'), some c.position, trivia⟩
      [.verbatim (c.slice c')] c'
  /-- Comments between a key and its value are not kept. -/
  | assignment {c k d m c' : Cursor} {form : NameForm} {key : PropertyKey} {value : Tree}
    {marks : List Mark} (hk : Names c form k) (hkey : Member.key? form = some key)
    (hc : Apart k d) (hd : d.rest.head? = some ':') (hm : Apart (d.forward 1) m)
    (h : Spells m value marks c') (trivia : Trivia) :
    SpellsProperty c ⟨.assignment key value, some c.position, trivia⟩ marks c'

end

end SiteConfig.Script

namespace SiteConfig
open Script

/-- A part of a tree. -/
inductive Fragment where
  | value (t : Tree)
  | member (q : Property Tree)

namespace Fragment

def position : Fragment → Option Position
  | value t => t.position
  | member q => q.position

/-- The text from one place to a later one spells the part. -/
def Spelled (x : Fragment) (c c' : Cursor) : Prop :=
  match x with
  | value t => ∃ marks, Spells c t marks c'
  | member q => (∃ marks, SpellsProperty c q marks c') ∧ ∃ form, Written c form q.body c'

/-- The part has the position of the text that spells it, and that text is behind `origin`. -/
structure StandsAt (x : Fragment) (origin c : Cursor) : Prop where
  reaches : origin.Reaches c
  text : c.rest ≠ []
  position : x.position = some c.position
  spelled : ∃ c', x.Spelled c c'

theorem StandsAt.mono {x : Fragment} {origin origin' c : Cursor} (h : x.StandsAt origin c)
    (hr : origin'.Reaches origin) : x.StandsAt origin' c :=
  { h with reaches := hr.trans h.reaches }

end Fragment

namespace Tree

/-- The values and properties that a tree is made of. -/
inductive Has : Tree → Fragment → Prop where
  | self (t : Tree) : Has t (.value t)
  | member {t : Tree} {properties : List (Property Tree)} {q : Property Tree}
    (h : t.expr.asObject? = some properties) (hq : q ∈ properties) : Has t (.member q)
  | operand {s t : Tree} {x : Fragment} (hs : s ∈ t.expr.operands) (h : Has s x) : Has t x

/-- Each part of a tree stands behind `origin`. -/
def Stands (t : Tree) (origin : Cursor) : Prop :=
  ∀ x, t.Has x → ∃ c, x.StandsAt origin c

variable {t : Tree} {origin origin' c c' : Cursor}

theorem Stands.mono (h : t.Stands origin) (hr : origin'.Reaches origin) : t.Stands origin' := by
  intro x hx
  obtain ⟨c, hc⟩ := h x hx
  exact ⟨c, hc.mono hr⟩

/-- A tree stands where its root does if its other parts stand behind that place. -/
theorem stands_of_root (htext : c.rest ≠ []) (hposition : t.position = some c.position)
    (hspelled : (Fragment.value t).Spelled c c') (hoperands : ∀ s ∈ t.expr.operands, s.Stands c)
    (hmembers : ∀ q ∈ t.expr.asObject?.getD [], ∃ d, (Fragment.member q).StandsAt c d) :
    t.Stands c := by
  intro x hx
  cases hx with
  | self => exact ⟨c, .refl c, htext, hposition, c', hspelled⟩
  | member h hq =>
    apply hmembers
    rwa [h]
  | operand hs h => exact hoperands _ hs x h

end Tree

end SiteConfig
