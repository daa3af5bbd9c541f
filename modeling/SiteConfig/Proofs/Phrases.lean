import SiteConfig.Proofs.Places

/-!
The syntax tree of a piece of script as its tokens group it: with the parentheses that are written,
the empty slots of lists and the string literals as they stand. Pieces that the grammar reads as a
whole are leaves.
-/

namespace SiteConfig.Script
open Text

/-- An item of a list that is `none` is an empty slot. -/
inductive Phrase where
  | literal (text : String)
  | boolean (value : Bool)
  | name (text : String)
  /-- A piece kept as its text. -/
  | kept (text : String)
  | member (base : Phrase) (property : String)
  | call (callee : Phrase) (arguments : List (Option Phrase))
  | assignment (left right : Phrase)
  | array (elements : List (Option Phrase))
  | object (properties : List (Option Phrase))
  | pair (key : NameForm) (value : Phrase)
  | parentheses (inner : Phrase)
  /-- A page comment in the place of an item. -/
  | remark (text : String)

/-- A key as it is laid out. -/
def NameForm.ofKey (k : PropertyKey) : NameForm :=
  match k.form with
  | .identifier => .word k.name
  | .string => .string (Quoted.quote k.name)
  | .numeric => .number k.name

namespace Phrase

mutual

/-- What is left of a phrase when it is lowered: neither parentheses nor empty slots, and strings
quoted in the house style. -/
def lowered : Phrase → Phrase
  | literal text =>
    match Quoted.unquote text with
    | some value => literal (Quoted.quote value)
    | none => kept text
  | boolean value => boolean value
  | name text => name text
  | kept text => kept text
  | member base property => member base.lowered property
  | call callee arguments => call callee.lowered (loweredItems arguments)
  | assignment left right => assignment left.lowered right.lowered
  | array elements => array (loweredItems elements)
  | object properties => object (loweredItems properties)
  | pair key value => pair ((Member.key? key).elim key .ofKey) value.lowered
  | parentheses inner => inner.lowered
  | remark text => kept text

def loweredItems : List (Option Phrase) → List (Option Phrase)
  | [] => []
  | none :: rest => loweredItems rest
  | some item :: rest => some item.lowered :: loweredItems rest

end

/-- The items are the given ones lowered. -/
theorem loweredItems_eq {α : Type} {f : α → Phrase} {xs : List (Option α)}
    {items : List (Option Phrase)}
    (h : List.Forall₂ (Option.Rel fun x a => a.lowered = f x) xs items) :
    loweredItems items = (xs.filterMap id).map fun x => some (f x) := by
  induction h with
  | nil => rfl
  | cons h _ ih =>
    cases h with
    | none => exact ih
    | some h => rw [loweredItems, h, ih]; rfl

end Phrase

end SiteConfig.Script

namespace SiteConfig.Tree
open Script Layout

mutual

/-- The phrase that a tree is laid out as. -/
def phrase : Tree → Phrase
  | .node _ e => phraseExpr e

def phraseExpr : Expr Tree → Phrase
  | .string value => .literal (Quoted.quote value)
  | .boolean value => .boolean value
  | .identifier name => .name name
  | .verbatim text => .kept text
  | .member object property => .member (phrase object) property
  | .assignment left right => .assignment (phrase left) (phrase right)
  | .call callee arguments => .call (phrase callee) (phraseArguments arguments)
  | .array elements _ => .array (phraseElements elements)
  | .object properties _ => .object (phraseProperties properties)

def phraseArguments : List Tree → List (Option Phrase)
  | [] => []
  | t :: rest => some (phrase t) :: phraseArguments rest

def phraseElements : List (Element Tree) → List (Option Phrase)
  | [] => []
  | ⟨value, _⟩ :: rest => some (phrase value) :: phraseElements rest

def phraseProperties : List (Property Tree) → List (Option Phrase)
  | [] => []
  | ⟨body, _, _⟩ :: rest => some (phraseBody body) :: phraseProperties rest

def phraseBody : PropertyBody Tree → Phrase
  | .assignment key value => .pair (.ofKey key) (phrase value)
  | .irregular _ text => .kept text

end

theorem phraseArguments_eq (ts : List Tree) :
    phraseArguments ts = ts.map fun t => some (phrase t) := by
  induction ts with
  | nil => rfl
  | cons t rest ih => rw [phraseArguments, ih, List.map_cons]

theorem phraseElements_eq (es : List (Element Tree)) :
    phraseElements es = es.map fun e => some (phrase e.value) := by
  induction es with
  | nil => rfl
  | cons e rest ih => rw [phraseElements, ih, List.map_cons]

theorem phraseProperties_eq (ps : List (Property Tree)) :
    phraseProperties ps = ps.map fun p => some (phraseBody p.body) := by
  induction ps with
  | nil => rfl
  | cons p rest ih => rw [phraseProperties, ih, List.map_cons]

end SiteConfig.Tree

namespace SiteConfig.Script
open Text

/-- The items of a list from one place to a later one. `due` says that an item may stand first; a
comma where one is due leaves its slot empty. Blanks and comments are passed over, and a page
comment is an item that needs no comma behind it. -/
inductive Series {α : Type} (item : Cursor → α → Cursor → Prop) :
    (due : Bool) → Cursor → List (Option α) → Cursor → Prop where
  | none (due : Bool) (c : Cursor) : Series item due c [] c
  | gap {due : Bool} {c d c' : Cursor} {comments : List String} {items : List (Option α)}
    (hg : Gap (fun _ => Option.none) c comments d) (rest : Series item due d items c') :
    Series item due c items c'
  | comma {c c' : Cursor} {items : List (Option α)} (h : c.rest.head? = some ',')
    (rest : Series item true (c.forward 1) items c') : Series item false c items c'
  | hole {c c' : Cursor} {items : List (Option α)} (h : c.rest.head? = some ',')
    (rest : Series item true (c.forward 1) items c') : Series item true c (.none :: items) c'
  | item {c m c' : Cursor} {x : α} {items : List (Option α)} (h : item c x m)
    (rest : Series item false m items c') : Series item true c (some x :: items) c'
  | page {c c' : Cursor} {x : α} {items : List (Option α)} {n : Nat}
    (h : Lexeme.pageComment c.rest = some n) (hx : item c x (c.forward n))
    (rest : Series item true (c.forward n) items c') : Series item true c (some x :: items) c'

/-- The items of a list seen in another way. -/
theorem Series.transfer {α β : Type} {item : Cursor → α → Cursor → Prop}
    {item' : Cursor → β → Cursor → Prop} {R : α → β → Prop} {due : Bool} {c c' : Cursor}
    {xs : List (Option α)}
    (hi : ∀ c x c', some x ∈ xs → item c x c' → ∃ y, item' c y c' ∧ R x y)
    (h : Series item due c xs c') :
    ∃ ys, Series item' due c ys c' ∧ List.Forall₂ (Option.Rel R) xs ys := by
  induction h with
  | none due c => exact ⟨[], .none due c, .nil⟩
  | gap hg _ ih =>
    obtain ⟨ys, hys, hrel⟩ := ih hi
    exact ⟨ys, .gap hg hys, hrel⟩
  | comma h _ ih =>
    obtain ⟨ys, hys, hrel⟩ := ih hi
    exact ⟨ys, .comma h hys, hrel⟩
  | hole h _ ih =>
    obtain ⟨ys, hys, hrel⟩ := ih fun c x c' hx => hi c x c' (List.mem_cons_of_mem _ hx)
    exact ⟨.none :: ys, .hole h hys, .cons .none hrel⟩
  | item h _ ih =>
    obtain ⟨ys, hys, hrel⟩ := ih fun c x c' hx => hi c x c' (List.mem_cons_of_mem _ hx)
    obtain ⟨y, hy, hr⟩ := hi _ _ _ List.mem_cons_self h
    exact ⟨some y :: ys, .item hy hys, .cons (.some hr) hrel⟩
  | page h hx _ ih =>
    obtain ⟨ys, hys, hrel⟩ := ih fun c x c' hx => hi c x c' (List.mem_cons_of_mem _ hx)
    obtain ⟨y, hy, hr⟩ := hi _ _ _ List.mem_cons_self hx
    exact ⟨some y :: ys, .page h hy hys, .cons (.some hr) hrel⟩

mutual

/-- The text from one place to a later one denotes a phrase, which stands at `place`. The later
place is right behind the last token. What may stand in front of a link may stand anywhere. -/
inductive Denotes : Place → Cursor → Phrase → Cursor → Prop where
  | literal {c : Cursor} {n : Nat} (h : Lexeme.string c.rest = some n) :
    Denotes .object c (.literal (c.slice (c.forward n))) (c.forward n)
  | boolean {c : Cursor} {n : Nat} (h : Lexeme.name c.rest = some n) {value : Bool}
    (hv : c.slice (c.forward n) = if value then "true" else "false") :
    Denotes .object c (.boolean value) (c.forward n)
  | name {c : Cursor} {n : Nat} (h : Lexeme.name c.rest = some n)
    (ho : c.slice (c.forward n) ∉ ownWords)
    (hp : c.slice (c.forward n) ∉ Expression.prefixWords) :
    Denotes .object c (.name (c.slice (c.forward n))) (c.forward n)
  | kept {place : Place} {c c' : Cursor} (hr : c.Reaches c') (h : place.Keeps c c') :
    Denotes place c (.kept (c.slice c')) c'
  | member {c m d m' : Cursor} {base : Phrase} {n : Nat} (hb : Denotes .object c base m)
    (hm : Apart m d) (hd : d.rest.head? = some '.') (hm' : Apart (d.forward 1) m')
    (h : Lexeme.name m'.rest = some n) :
    Denotes .object c (.member base (m'.slice (m'.forward n))) (m'.forward n)
  | assignment {c m d m' c' : Cursor} {left right : Phrase} (hl : Denotes .target c left m)
    (hm : Apart m d) (hd : d.rest.head? = some '=') (hm' : Apart (d.forward 1) m')
    (hr : Denotes .value m' right c') : Denotes .value c (.assignment left right) c'
  | call {c m d c' : Cursor} {callee : Phrase} {arguments : List (Option Phrase)}
    (hf : Denotes .callee c callee m) (hm : Apart m d) (hd : d.rest.head? = some '(')
    (ha : Series (Denotes .item) true (d.forward 1) arguments c')
    (h : c'.rest.head? = some ')') : Denotes .object c (.call callee arguments) (c'.forward 1)
  | array {c c' : Cursor} {elements : List (Option Phrase)} (hc : c.rest.head? = some '[')
    (he : Series (Denotes .item) true (c.forward 1) elements c')
    (h : c'.rest.head? = some ']') : Denotes .object c (.array elements) (c'.forward 1)
  | object {c c' : Cursor} {properties : List (Option Phrase)} (hc : c.rest.head? = some '\x7b')
    (hp : Series DenotesMember true (c.forward 1) properties c')
    (h : c'.rest.head? = some '\x7d') : Denotes .object c (.object properties) (c'.forward 1)
  /-- Around what is no operand of a link, parentheses are a part of a piece that is kept. -/
  | parentheses {c c' : Cursor} {inner : Phrase} (hc : c.rest.head? = some '(')
    (hi : Series (Denotes .object) true (c.forward 1) [some inner] c')
    (h : c'.rest.head? = some ')') : Denotes .object c (.parentheses inner) (c'.forward 1)
  | remark {c : Cursor} {n : Nat} (h : Lexeme.pageComment c.rest = some n) :
    Denotes .item c (.remark (c.slice (c.forward n))) (c.forward n)
  | operand {place : Place} {c c' : Cursor} {a : Phrase} (hp : place ≠ .object)
    (h : Denotes .object c a c') : Denotes place c a c'
  | value {c c' : Cursor} {a : Phrase} (h : Denotes .value c a c') : Denotes .item c a c'

inductive DenotesMember : Cursor → Phrase → Cursor → Prop where
  | kept {c c' : Cursor} (hr : c.Reaches c') (h : KeepsMember c c') :
    DenotesMember c (.kept (c.slice c')) c'
  | pair {c k d m c' : Cursor} {key : NameForm} {value : Phrase} (hk : Names c key k)
    (hd : Apart k d) (hc : d.rest.head? = some ':') (hm : Apart (d.forward 1) m)
    (h : Denotes .value m value c') : DenotesMember c (.pair key value) c'
  | remark {c : Cursor} {n : Nat} (h : Lexeme.pageComment c.rest = some n) :
    DenotesMember c (.remark (c.slice (c.forward n))) (c.forward n)

end

namespace Denotes

theorem anywhere {c c' : Cursor} {a : Phrase} (h : Denotes .object c a c') (place : Place) :
    Denotes place c a c' := by
  by_cases hp : place = .object
  · exact hp ▸ h
  · exact .operand hp h

end Denotes

end SiteConfig.Script
