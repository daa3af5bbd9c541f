import SiteConfig.Proofs.Linking
import SiteConfig.Proofs.Shown

/-!
Where an expression stands, how it is read there, and what a layout writes behind it. A tree is
settled if none of the pieces in it that are kept as their text runs on into what is laid out behind
it.
-/

namespace SiteConfig

/-- The kind an expression is read as. -/
def Tree.kind (t : Tree) : Script.Kind :=
  match t.expr with
  | .string _ => .string
  | .boolean _ => .boolean
  | .identifier _ => .name
  | .member .. => .member
  | .assignment .. => .assignment
  | .call .. => .call
  | .array .. => .array
  | .object .. => .object
  | .verbatim _ => .other

namespace Script
open Text Expression

/-- Marks behind which nothing of an expression follows. -/
def Stops (s : Char) : Prop :=
  s = ',' ∨ s = ')' ∨ s = ']' ∨ s = ';'

/-- Where an expression stands. -/
inductive Place where
  /-- As an element of an array or an argument. -/
  | item
  /-- As the value of a property or the right side of an assignment. -/
  | value
  /-- In front of a name. -/
  | object
  /-- In front of arguments. -/
  | callee
  /-- As the left side of an assignment. -/
  | target
  /-- As a whole statement. -/
  | alone
deriving DecidableEq

namespace Place

/-- What a layout writes behind an expression. -/
def Before (cs : List Char) : Place → Prop
  | item | value => ∃ s rest, Stops s ∧ cs = s :: rest
  | object => ∃ rest, cs = '.' :: rest
  | callee => ∃ rest, cs = '(' :: rest
  | target => ∃ rest, cs = ' ' :: '=' :: ' ' :: rest
  | alone => ∃ rest, cs = ';' :: rest

/-- The grammar reads an expression from one place of the script to a later one. -/
def Takes (g : Grammar) (tail : Bool) (c : Cursor) (o : Operand) (c' : Cursor) : Place → Prop
  | item => AtStart c ∧ (Grammar.deepen g).element.run c = some (o, c')
  | value | alone => AtStart c ∧ (Expression.read g tail).run c = some (o, c')
  | object | callee | target => Reads g tail c o c'

/-- What is read may stand there. -/
def allows (o : Operand) : Place → Bool
  | item | object | callee => o.isValue
  | value => o.isValue && o.kind ≠ .spread
  | target => o.isAssignable
  | alone => o.isValue && o.kind.standsAlone

/-- The tree that is made of what is read. -/
def tree (c : Cursor) (o : Operand) (c' : Cursor) : Place → Tree
  | item | value | object | callee => o.tree
  | target => o.target c c'
  | alone => o.core

/-- Which trees can be read there at all. -/
def admits (kind : Kind) : Place → Bool
  | item | value => true
  | object | callee => kind ≠ .assignment
  | target => kind = .name || kind = .member || kind = .other
  | alone => kind.standsAlone || kind = .other

/-- The grammar reads the text from one place to a later one, and keeps it as it stands. -/
def Keeps (place : Place) (c c' : Cursor) : Prop :=
  ∃ n tail o, place.Takes (.ofDepth n) tail c o c' ∧
    (place.tree c o c').expr = .verbatim (c.slice c')

end Place

/-- The grammar reads the text from one place to a later one as a member of an object that is no
pair, and keeps it as it stands. -/
def KeepsMember (c c' : Cursor) : Prop :=
  AtStart c ∧ ∃ n m shape, (Grammar.deepen (.ofDepth n)).property.run c = some (m, c') ∧
    m.body = .irregular shape (c.slice c')

/-- The text of a part of an expression that is kept as it stands somewhere. -/
inductive IsPiece : String → Prop where
  | expression {place : Place} {c c' : Cursor} (hr : c.Reaches c') (h : place.Keeps c c') :
    IsPiece (c.slice c')
  | member {c c' : Cursor} (hr : c.Reaches c') (h : KeepsMember c c') : IsPiece (c.slice c')
  /-- A comment of the page around the script, in the place of an item. -/
  | page {c : Cursor} {n : Nat} (h : Lexeme.pageComment c.rest = some n) :
    IsPiece (c.slice (c.forward n))

/-- The text of a statement that is kept as it stands somewhere. -/
inductive Grammar.KeepsStatement (g : Grammar) : String → Prop where
  | statement {c c' : Cursor} (hr : c.Reaches c') (hc : AtStart c)
    (h : g.statement.run c = some (.verbatim (c.slice c'), c')) : KeepsStatement g (c.slice c')
  /-- A comment of the page around the script. -/
  | page {c : Cursor} {n : Nat} (h : Lexeme.pageComment c.rest = some n) :
    KeepsStatement g (c.slice (c.forward n))
  /-- A line that names the interpreter. -/
  | interpreter {c : Cursor} {n : Nat} (h : Lexeme.interpreterLine c.rest = some n) :
    KeepsStatement g (c.slice (c.forward n))

/-- In front of something that a layout may write behind it, the piece is not read again as it was,
from its first character to its last. -/
def Place.RunsOn (place : Place) (tail : Bool) (text : String) : Prop :=
  IsPiece text ∧ ∃ (n : Nat) (c : Cursor) (rest : List Char), 4 * c.left < n ∧
    c.rest = text.toList ++ rest ∧ place.Before rest ∧
    ∀ o c', place.Takes (.ofDepth n) tail c o c' → place.allows o → c'.rest = rest →
      (place.tree c o c').expr ≠ .verbatim text

end Script

open Script

/-- In front of a comma the piece is not read again as the same member. -/
def IrregularShape.RunsOn (shape : IrregularShape) (text : String) : Prop :=
  IsPiece text ∧ ∃ (n : Nat) (c : Cursor) (rest : List Char), 4 * c.left < n ∧
    c.rest = text.toList ++ ',' :: rest ∧
    ∀ m c', AtStart c → (Grammar.deepen (.ofDepth n)).property.run c = some (m, c') → m.isValue →
      c'.rest = ',' :: rest → m.body ≠ .irregular shape text

/-- Wherever the tree is laid out, with room for four levels of nesting for each character, it is
read back at its place as it is shown, and what is laid out behind it is left. -/
def Tree.ReadsBack (tail : Bool) (place : Place) (t : Tree) : Prop :=
  ∀ ⦃n depth column : Nat⦄ ⦃c : Cursor⦄ ⦃rest : List Char⦄, 4 * c.left < n →
    c.rest = (t.layout depth column).toList ++ rest → place.Before rest →
    ∃ o c', place.Takes (.ofDepth n) tail c o c' ∧ place.allows o ∧ c'.rest = rest ∧
      (place.tree c o c').stripped id = t.shown depth column

/-- A member that is no pair is read back from its text in front of a comma. -/
def IrregularShape.ReadsBack (shape : IrregularShape) (text : String) : Prop :=
  ∀ ⦃n : Nat⦄ ⦃c : Cursor⦄ ⦃rest : List Char⦄, 4 * c.left < n →
    c.rest = text.toList ++ ',' :: rest →
    AtStart c ∧ ∃ m c', (Grammar.deepen (.ofDepth n)).property.run c = some (m, c') ∧ m.isValue ∧
      c'.rest = ',' :: rest ∧ m.body = .irregular shape text

/-- An unquoted name, quotes around any text, or a number that ends in front of a colon. -/
def PropertyKey.Lexical (k : PropertyKey) : Prop :=
  k.Plain ∨ k.form = .numeric ∧
    ∀ rest, Lexeme.number (k.name.toList ++ ':' :: rest) = some k.name.toList.length

namespace Tree

/-- What stands for a name, a key, a comment or a kept piece in a tree is one, and no assignment
stands in front of a link. -/
inductive Lexical : Tree → Prop where
  | string (position : Option Position) (value : String) : Lexical (.node position (.string value))
  | boolean (position : Option Position) (value : Bool) : Lexical (.node position (.boolean value))
  | identifier (position : Option Position) {name : String} (h : Lexeme.IsName name)
    (ho : name ∉ ownWords) (hp : name ∉ Expression.prefixWords) :
    Lexical (.node position (.identifier name))
  | verbatim (position : Option Position) {text : String} (h : IsPiece text) :
    Lexical (.node position (.verbatim text))
  | member (position : Option Position) {object : Tree} {property : String} (ho : Lexical object)
    (hk : Place.object.admits object.kind) (hp : Lexeme.IsName property) :
    Lexical (.node position (.member object property))
  | assignment (position : Option Position) {left right : Tree} (hl : Lexical left)
    (hr : Lexical right) : Lexical (.node position (.assignment left right))
  | call (position : Option Position) {callee : Tree} {arguments : List Tree} (hf : Lexical callee)
    (hk : Place.callee.admits callee.kind) (ha : ∀ t ∈ arguments, Lexical t) :
    Lexical (.node position (.call callee arguments))
  | array (position : Option Position) {elements : List (Element Tree)} {dangling : List Comment}
    (he : ∀ e ∈ elements, Lexical e.value) (ht : ∀ e ∈ elements, e.trivia.Plain)
    (hd : ∀ c ∈ dangling, IsComment c.text) : Lexical (.node position (.array elements dangling))
  | object (position : Option Position) {properties : List (Property Tree)}
    {dangling : List Comment} (hk : ∀ p ∈ properties, ∀ key ∈ p.key?, key.Lexical)
    (hv : ∀ p ∈ properties, ∀ value ∈ p.value?, Lexical value)
    (hi : ∀ p ∈ properties, ∀ shape text, p.body = .irregular shape text → IsPiece text)
    (ht : ∀ p ∈ properties, p.trivia.Plain) (hd : ∀ c ∈ dangling, IsComment c.text) :
    Lexical (.node position (.object properties dangling))

/-- No piece of the tree that is kept as its text runs on, and on the left side of an assignment
stands a name, a member or such a piece. Inside brackets no statement can end. -/
inductive Settled : Bool → Place → Tree → Prop where
  | string (tail : Bool) (place : Place) (position : Option Position) (value : String) :
    Settled tail place (.node position (.string value))
  | boolean (tail : Bool) (place : Place) (position : Option Position) (value : Bool) :
    Settled tail place (.node position (.boolean value))
  | identifier (tail : Bool) (place : Place) (position : Option Position) (name : String) :
    Settled tail place (.node position (.identifier name))
  | verbatim {tail : Bool} {place : Place} (position : Option Position) {text : String}
    (h : ¬place.RunsOn tail text) :
    Settled tail place (.node position (.verbatim text))
  | member {tail : Bool} (place : Place) (position : Option Position) {object : Tree}
    (property : String) (ho : Settled tail .object object) :
    Settled tail place (.node position (.member object property))
  | assignment {tail : Bool} (place : Place) (position : Option Position) {left right : Tree}
    (hk : Place.target.admits left.kind) (hl : Settled tail .target left)
    (hr : Settled tail .value right) :
    Settled tail place (.node position (.assignment left right))
  | call {tail : Bool} (place : Place) (position : Option Position) {callee : Tree}
    {arguments : List Tree} (hf : Settled tail .callee callee)
    (ha : ∀ t ∈ arguments, Settled false .item t) :
    Settled tail place (.node position (.call callee arguments))
  | array (tail : Bool) (place : Place) (position : Option Position)
    {elements : List (Element Tree)} (dangling : List Comment)
    (he : ∀ e ∈ elements, Settled false .item e.value) :
    Settled tail place (.node position (.array elements dangling))
  | object (tail : Bool) (place : Place) (position : Option Position)
    {properties : List (Property Tree)} (dangling : List Comment)
    (hv : ∀ p ∈ properties, ∀ value ∈ p.value?, Settled false .value value)
    (hi : ∀ p ∈ properties, ∀ shape text, p.body = .irregular shape text → ¬shape.RunsOn text) :
    Settled tail place (.node position (.object properties dangling))

/-- A piece that does not run on is read back from its text. -/
theorem readsBack_verbatim {tail : Bool} {place : Place} {text : String} (hp : IsPiece text)
    (h : ¬place.RunsOn tail text) (position : Option Position) :
    (node position (.verbatim text)).ReadsBack tail place := by
  intro n depth column c rest hn hrest hbefore
  by_contra hnot
  refine h ⟨hp, n, c, rest, hn, hrest, hbefore, fun o c' htakes hallows hrest' htree => ?_⟩
  refine hnot ⟨o, c', htakes, hallows, hrest', ?_⟩
  generalize place.tree c o c' = t at htree
  obtain ⟨position', e⟩ := t
  obtain rfl : e = .verbatim text := htree
  rfl

end Tree

theorem IrregularShape.readsBack {shape : IrregularShape} {text : String} (hp : IsPiece text)
    (h : ¬shape.RunsOn text) : shape.ReadsBack text := by
  intro n c rest hn hrest
  by_contra hnot
  refine h ⟨hp, n, c, rest, hn, hrest, fun m c' hc hrun hvalue hrest' hbody => ?_⟩
  exact hnot ⟨hc, m, c', hrun, hvalue, hrest', hbody⟩

namespace Script
open Text Expression

/-! What an expression starts with. -/

/-- Neither a mark that ends an expression nor three points stand first, nor does a line that names
an interpreter. -/
def Leads (cs : List Char) : Prop :=
  ∃ ch rest, cs = ch :: rest ∧ ch ∉ [',', ')', ']', '\x7d', ';', ':', '='] ∧
    "...".toList.isPrefixOf cs = false ∧ Lexeme.interpreterLine cs = none

variable {g : Grammar} {tail : Bool} {c c' : Cursor} {o : Operand}

theorem Scan.run_none {α β : Type} {s : Scan α} (h : s.run c = none) (f : α → Scan β) :
    (s >>= f).run c = none := by
  rw [StateT.run_bind, h]
  rfl

theorem interpreterLine_none {cs : List Char} (h : cs.head? ≠ some '#') :
    Lexeme.interpreterLine cs = none := by
  unfold Lexeme.interpreterLine
  split
  · exact absurd rfl h
  · rfl

theorem leads_name {cs : List Char} {n : Nat} (h : Lexeme.name cs = some n) : Leads cs := by
  cases cs with
  | nil => cases h
  | cons ch rest =>
    have hne : ∀ d, isPunctuation d = true → d ≠ '\\' → ch ≠ d := by
      rintro d hd hd' rfl
      rw [Lexeme.name_of_isPunctuation hd hd'] at h
      cases h
    have hsharp : ch ≠ '#' := hne '#' (by simp [isPunctuation]) (by decide)
    refine ⟨ch, rest, rfl, ?_, Lexeme.isPrefixOf_of_head (d := '.') (by simp) ?_, ?_⟩
    · simp only [List.mem_cons, List.not_mem_nil, or_false, not_or]
      refine ⟨?_, ?_, ?_, ?_, ?_, ?_, ?_⟩ <;> exact hne _ (by simp [isPunctuation]) (by decide)
    · simpa using hne '.' (by simp [isPunctuation]) (by decide)
    · exact interpreterLine_none (by simpa using hsharp)

theorem leads_primary {n : Nat} {r : Part × Cursor} (h : (primary g tail n).run c = some r) :
    Leads c.rest := by
  cases n with
  | zero => cases h
  | succ n =>
    rw [primary, Scan.run_bind (Scan.run_get c)] at h
    cases hrest : c.rest with
    | nil =>
      rw [hrest] at h
      cases h
    | cons ch rest =>
      by_contra hnot
      have hname : Lexeme.name c.rest = none := by
        rw [← hrest] at hnot
        exact Option.eq_none_iff_forall_ne_some.mpr fun n hn => hnot (leads_name hn)
      have hlexeme : ∀ l : Lexeme, l c.rest = none → (Scan.lexeme l).run c = none := by
        intro l hl
        rw [Scan.lexeme, Scan.run_bind (Scan.run_get c), hl]
        rfl
      have hcases : ch ∈ [',', ')', ']', '\x7d', ';', ':', '='] ∨
          "...".toList.isPrefixOf (ch :: rest) ∨
          Lexeme.interpreterLine (ch :: rest) ≠ none := by
        by_contra hcon
        rw [not_or, not_or, not_not] at hcon
        exact hnot ⟨ch, rest, rfl, hcon.1, Bool.eq_false_iff.mpr hcon.2.1, hcon.2.2⟩
      rw [hrest] at h
      rcases hcases with hch | hdots | hline
      · simp only [List.mem_cons, List.not_mem_nil, or_false] at hch
        rcases hch with rfl | rfl | rfl | rfl | rfl | rfl | rfl <;>
          simp [isDigit, Scan.run_none (hlexeme _ hname)] at h
      · obtain ⟨tail, hdots⟩ := List.isPrefixOf_iff_prefix.mp hdots
        obtain rfl : ch = '.' := by simpa using (congrArg List.head? hdots).symm
        obtain rfl : '.' :: '.' :: tail = rest := by simpa using congrArg List.tail hdots
        have hnumber : Lexeme.number c.rest = none := by
          rw [hrest]
          rfl
        simp [isDigit, Scan.run_none (hlexeme _ hnumber)] at h
      · obtain ⟨rfl, rest, rfl⟩ : ch = '#' ∧ ∃ tail, rest = '!' :: tail := by
          unfold Lexeme.interpreterLine at hline
          split at hline
          · next heq => cases heq; exact ⟨rfl, _, rfl⟩
          · exact absurd rfl hline
        have hprivate : Lexeme.privateName c.rest = none := by
          rw [hrest, Lexeme.privateName,
            Lexeme.name_of_isPunctuation (by simp [isPunctuation]) (by decide) rest,
            Option.map_none]
        simp [Scan.run_none (hlexeme _ hprivate)] at h

theorem leads_operand {n : Nat} {r : Operand × Cursor} (hc : AtStart c)
    (h : (operand g tail n).run c = some r) : Leads c.rest := by
  cases n with
  | zero => cases h
  | succ n =>
    rw [operand, Scan.run_bind (Scan.run_opening_start hc), Scan.run_bind (Scan.run_get c)] at h
    cases hunsigned : prefixLength? c.rest with
    | none =>
      rw [hunsigned] at h
      cases hrun : (primary g tail (n + 1)).run c with
      | none =>
        simp only [Scan.run_none hrun] at h
        cases h
      | some out => exact leads_primary hrun
    | some k =>
      rw [prefixLength?] at hunsigned
      cases hname : Lexeme.name c.rest with
      | some m => exact leads_name hname
      | none =>
        rw [Scan.wordOf, hname] at hunsigned
        obtain ⟨sign, hsign, -⟩ := Option.map_eq_some_iff.mp hunsigned
        have hmem := List.mem_of_find?_eq_some hsign
        have hstarts := List.find?_some hsign
        obtain ⟨rest, hrest⟩ := List.isPrefixOf_iff_prefix.mp hstarts
        rw [← hrest]
        simp only [prefixSigns, List.mem_cons, List.not_mem_nil, or_false] at hmem
        rcases hmem with rfl | rfl | rfl | rfl | rfl | rfl <;>
          exact ⟨_, _, rfl, by decide, rfl, rfl⟩

theorem leads_read {r : Operand × Cursor} (hc : AtStart c)
    (h : (Expression.read g tail).run c = some r) : Leads c.rest := by
  rw [Expression.read, Scan.run_bind (Scan.run_opening_start hc), Scan.run_bind (Scan.run_get c)]
    at h
  cases hrun : (operand g tail g.room).run c with
  | none =>
    rw [Scan.run_none hrun] at h
    cases h
  | some out => exact leads_operand hc hrun

theorem Expression.Reads.leads (h : Reads g tail c o c') : Leads c.rest := by
  induction h with
  | primary _ _ h => exact leads_primary h
  | link _ _ ih => exact ih

theorem element_run (h : "...".toList.isPrefixOf c.rest = false) :
    g.element.run c = (g.expression false).run c := by
  rw [Grammar.element, Scan.run_bind (Scan.run_get c), Scan.run_bind (Scan.run_sees "..." c), h]
  rfl

/-- An item starts with no mark that could end it. -/
theorem head_element {r : Operand × Cursor} (hc : AtStart c)
    (h : (Grammar.deepen g).element.run c = some r) :
    ∃ ch rest, c.rest = ch :: rest ∧ ch ∉ [',', ')', ']', '\x7d', ';', ':', '='] := by
  cases hdots : "...".toList.isPrefixOf c.rest with
  | true =>
    obtain ⟨rest, hrest⟩ := List.isPrefixOf_iff_prefix.mp hdots
    rw [← hrest]
    exact ⟨_, _, rfl, by decide⟩
  | false =>
    rw [element_run hdots] at h
    obtain ⟨ch, rest, hrest, hch, -⟩ := leads_read hc h
    exact ⟨ch, rest, hrest, hch⟩

namespace Place

variable {place : Place} {n : Nat}

theorem Takes.atStart (h : place.Takes g tail c o c') : AtStart c := by
  cases place with
  | item | value | alone => exact h.1
  | object | callee | target => exact Reads.atStart h

theorem Takes.head (h : place.Takes g tail c o c') :
    ∃ ch rest, c.rest = ch :: rest ∧ ch ∉ [',', ')', ']', '\x7d', ';', ':', '='] := by
  cases place with
  | item => exact head_element h.1 h.2
  | value | alone =>
    obtain ⟨ch, rest, hrest, hch, -⟩ := leads_read h.1 h.2
    exact ⟨ch, rest, hrest, hch⟩
  | object | callee | target =>
    obtain ⟨ch, rest, hrest, hch, -⟩ := Reads.leads h
    exact ⟨ch, rest, hrest, hch⟩

theorem Takes.reaches (h : place.Takes (.ofDepth n) tail c o c') : c.Reaches c' := by
  cases place with
  | item =>
    have hahead : Scan.Ahead c (Grammar.ofDepth (n + 1)).element := Grammar.ahead_element
    exact Scan.triple_iff.mp hahead c (.refl c) _ _ h.2
  | value | alone => exact Scan.triple_iff.mp (ahead_read tail) c (.refl c) _ _ h.2
  | object | callee | target => exact Reads.reaches h

end Place

end Script
end SiteConfig
