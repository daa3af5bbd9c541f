import SiteConfig.Proofs.Reading

/-!
What an expression is read as is what its text denotes, once the phrase is lowered: only
parentheses around an operand of a link are dropped, and every other piece is kept as it stands.
What stands for a name, a key, a comment or a kept piece in the tree is one.
-/

set_option mvcgen.warning false

namespace SiteConfig.Script
open Text Std.Do

variable {c₀ start c d m c' : Cursor} {n : Nat} {place : Place} {o o' : Operand}

/-- The text from one place to a later one denotes the tree of an operand, and what is left of it
when its parentheses are dropped. -/
structure Operand.Phrased (place : Place) (o : Operand) (c c' : Cursor) : Prop where
  tree : ∃ a, Denotes place c a c' ∧ a.lowered = o.tree.phrase
  core : o.kind.losesParentheses → ∃ a, Denotes .object c a c' ∧ a.lowered = o.core.phrase
  lexical : o.tree.Lexical
  coreLexical : o.core.Lexical

/-- The text from one place to a later one denotes a member. -/
structure Member.Phrased (m : Member) (c c' : Cursor) : Prop where
  body : ∃ a, DenotesMember c a c' ∧ a.lowered = Tree.phraseBody m.body
  pair : ∀ k t, m.body = .assignment k t → k.Lexical ∧ t.Lexical
  piece : ∀ shape text, m.body = .irregular shape text → IsPiece text

namespace Operand.Phrased

theorem of_tree (h : ∃ a, Denotes .object c a c' ∧ a.lowered = o.tree.phrase)
    (hl : o.tree.Lexical) (hc : o.core = o.tree) : o.Phrased .object c c' :=
  ⟨h, fun _ => hc ▸ h, hl, hc ▸ hl⟩

theorem anywhere (h : o.Phrased .object c c') (place : Place) : o.Phrased place c c' := by
  obtain ⟨a, ha, hlowered⟩ := h.tree
  exact ⟨⟨a, ha.anywhere place, hlowered⟩, h.core, h.lexical, h.coreLexical⟩

theorem item (h : o.Phrased .value c c') : o.Phrased .item c c' := by
  obtain ⟨a, ha, hlowered⟩ := h.tree
  exact ⟨⟨a, .value ha, hlowered⟩, h.core, h.lexical, h.coreLexical⟩

end Operand.Phrased

/-- A piece that the grammar keeps denotes itself. -/
theorem Place.Keeps.denotes {t : Tree} (h : place.Keeps c c') (hr : c.Reaches c')
    (ht : t.expr = .verbatim (c.slice c')) :
    (∃ a, Denotes place c a c' ∧ a.lowered = t.phrase) ∧ t.Lexical := by
  obtain ⟨position, e⟩ := t
  obtain rfl : e = _ := ht
  exact ⟨⟨_, .kept hr h, rfl⟩, .verbatim _ (.expression hr h)⟩

/-- A comment of the page is kept in the place of an item. -/
theorem phrased_page (h : Lexeme.pageComment c.rest = some n) :
    (Operand.verbatim c.position (c.slice (c.forward n))).Phrased .item c (c.forward n) :=
  ⟨⟨_, .remark h, rfl⟩, nofun, .verbatim _ (.page h), .verbatim _ (.page h)⟩

theorem phrased_pageMember (h : Lexeme.pageComment c.rest = some n) :
    (Grammar.pageMember c.position (c.slice (c.forward n))).Phrased c (c.forward n) := by
  refine ⟨⟨_, .remark h, rfl⟩, nofun, ?_⟩
  rintro shape text ⟨⟩
  exact .page h

/-- The phrases of the items of a listing. -/
theorem Listing.From.phrases {α : Type} {P : Cursor → α → Cursor → Prop} {l : Listing α}
    {due : Bool} {item : Cursor → Phrase → Cursor → Prop} {f : α → Phrase}
    (h : l.From P due c m) (hi : ∀ c x c', P c x c' → ∃ a, item c a c' ∧ a.lowered = f x) :
    ∃ items, Series item due c items m ∧
      Phrase.loweredItems items = l.items.map fun x => some (f x) := by
  obtain ⟨xs, hxs, hitems, -⟩ := h.series
  obtain ⟨items, hseries, hrel⟩ := hxs.transfer fun c x c' _ => hi c x c'
  exact ⟨items, hseries, by rw [Phrase.loweredItems_eq hrel, hitems]⟩

/-! What each form of operand denotes, of which the parts are known. -/

theorem phrased_wrap {l : Listing Operand} (hc : c.rest.head? = some '(')
    (h : l.From (fun c o c' => o.Phrased .item c c') true (c.forward 1) m) (hl : l.items = [o])
    (hholes : l.holes = false) (hm : m.rest.head? = some ')') (hk : o.kind.losesParentheses) :
    ∃ a, Denotes .object c a (m.forward 1) ∧ a.lowered = o.core.phrase := by
  obtain ⟨xs, hxs, hitems, hnone⟩ := h.series
  -- no slot is empty, so there is nothing beside the item
  obtain rfl : xs = [some o] := by
    rw [hl] at hitems
    have hall : none ∉ xs := fun hmem => by simp [hholes] at hnone; exact hnone hmem
    cases xs with
    | nil => cases hitems
    | cons x xs =>
      cases x with
      | none => simp at hall
      | some x =>
        cases xs with
        | nil => simpa using hitems
        | cons y xs => cases y <;> simp at hall hitems
  have hcore : ∀ c x c', some x ∈ [some o] → x.Phrased .item c c' →
      ∃ a, Denotes .object c a c' ∧ a.lowered = x.core.phrase := by
    intro c x c' hx h
    obtain rfl : x = o := by simpa using hx
    exact h.core hk
  obtain ⟨ys, hys, hrel⟩ := hxs.transfer hcore
  cases hrel with
  | cons h hrest =>
    cases hrest
    cases h with
    | some h => exact ⟨_, .parentheses hc hys hm, h⟩

theorem phrased_call {l : Listing Operand} (ho : o.Phrased .object c d)
    (hk : o.tree.kind ≠ .assignment) (hd : Apart d m) (hm : m.rest.head? = some '(')
    (h : l.From (fun c o c' => o.Phrased .item c c') true (m.forward 1) c')
    (hc' : c'.rest.head? = some ')') :
    (Expression.callOf c₀ o l).Phrased .object c (c'.forward 1) := by
  obtain ⟨callee, hcallee, hlowered⟩ := ho.tree
  obtain ⟨items, hitems, hloweredItems⟩ := h.phrases fun _ _ _ h => h.tree
  refine .of_tree ⟨_, .call (hcallee.anywhere .callee) hd hm hitems hc', ?_⟩ ?_ rfl
  · rw [Phrase.lowered, hlowered, hloweredItems, Expression.callOf, Tree.phrase, Tree.phraseExpr,
      Tree.phraseArguments_eq, List.map_map]
    rfl
  · refine .call _ ho.lexical (by simpa [Place.admits] using hk) ?_
    simpa using h.all fun _ _ _ h => h.lexical

theorem phrased_array {l : Listing Operand} (hc : c.rest.head? = some '[')
    (h : l.From (fun c o c' => o.Phrased .item c c') true (c.forward 1) m)
    (hm : m.rest.head? = some ']') : (arrayOf c l).Phrased .object c (m.forward 1) := by
  obtain ⟨items, hitems, hlowered⟩ := h.phrases fun _ _ _ h => h.tree
  obtain ⟨htrivia, hdangling⟩ := h.comments
  refine .of_tree ⟨_, .array hc hitems hm, ?_⟩ (.array _ ?_ ?_ hdangling) rfl
  · rw [Phrase.lowered, hlowered, arrayOf, Tree.phrase, Tree.phraseExpr, Tree.phraseElements_eq,
      List.map_map, ← l.items_attached]
    rfl
  · simp only [List.forall_mem_map]
    exact fun x hx => h.all (fun _ _ _ h => h.lexical) x.1 (l.mem_items_of_attached hx)
  · simpa only [List.forall_mem_map] using htrivia

theorem phrased_object {l : Listing Member} (hc : c.rest.head? = some '\x7b')
    (h : l.From (fun c m c' => m.Phrased c c') true (c.forward 1) m)
    (hm : m.rest.head? = some '\x7d') : (objectOf c l).Phrased .object c (m.forward 1) := by
  obtain ⟨items, hitems, hlowered⟩ := h.phrases fun _ _ _ h => h.body
  obtain ⟨htrivia, hdangling⟩ := h.comments
  have hpair : ∀ x ∈ (Piece.attach l.pieces).1, ∀ k t, x.1.body = .assignment k t →
      k.Lexical ∧ t.Lexical := fun x hx =>
    h.all (fun _ _ _ h => h.pair) x.1 (l.mem_items_of_attached hx)
  have hpiece : ∀ x ∈ (Piece.attach l.pieces).1, ∀ shape text, x.1.body = .irregular shape text →
      IsPiece text := fun x hx =>
    h.all (fun _ _ _ h => h.piece) x.1 (l.mem_items_of_attached hx)
  -- the phrase, then keys, values, pieces and comments
  refine .of_tree ⟨_, .object hc hitems hm, ?_⟩ (.object _ ?_ ?_ ?_ ?_ hdangling) rfl
  · rw [Phrase.lowered, hlowered, objectOf, Tree.phrase, Tree.phraseExpr, Tree.phraseProperties_eq,
      List.map_map, ← l.items_attached]
    rfl
  · simp only [List.forall_mem_map]
    intro x hx key hkey
    cases hbody : x.1.body with
    | assignment k value =>
      simp only [Member.toProperty, Property.key?, hbody] at hkey
      cases hkey
      exact (hpair x hx _ _ hbody).1
    | irregular => simp [Member.toProperty, Property.key?, hbody] at hkey
  · simp only [List.forall_mem_map]
    intro x hx value hvalue
    obtain ⟨k, hbody⟩ := Property.body_of_value? hvalue
    exact (hpair x hx k value hbody).2
  · simpa only [List.forall_mem_map, Member.toProperty] using hpiece
  · simpa only [List.forall_mem_map, Member.toProperty] using htrivia

/-! The readers. -/

theorem Scan.run_of_asValue {s : Scan Operand} (h : (asValue s).run c = some (o, c')) :
    s.run c = some (o, c') := by
  cases hs : s.run c with
  | none =>
    rw [asValue, run_none hs] at h
    cases h
  | some out =>
    rw [asValue, run_bind hs] at h
    by_cases hvalue : out.1.isValue && out.1.kind ≠ .spread
    · rw [run_bind (run_guard hvalue _)] at h
      exact h
    · rw [guard, if_neg hvalue, run_none rfl] at h
      cases h

section Readers

variable {g : Grammar} [g.Spelling]

theorem Grammar.spec_element_kept : ⦃fun c => ⌜c = c₀⌝⦄ g.element
    ⦃⇓? o c => ⌜c₀.Reaches c ∧ (o.tree.expr = .verbatim (c₀.slice c) ∧ o.core = o.tree ∧
      o.kind = .spread ∨ (g.expression false).run c₀ = some (o, c))⌝⦄ := by
  have hexpression : ∀ c₀, ⦃fun c => ⌜c = c₀⌝⦄ g.expression false
      ⦃⇓? o c => ⌜c₀.Reaches c ∧ (g.expression false).run c₀ = some (o, c)⌝⦄ :=
    fun _ => Scan.spec_run fun _ => g.ahead_expression false
  unfold element
  mvcgen [hexpression, -spec_expression]
  all_goals grind [Operand.verbatim, Tree.expr]

/-- A member is a pair or is kept as its text. -/
inductive Grammar.Paired (g : Grammar) (c : Cursor) : Member → Cursor → Prop where
  | pair {form : NameForm} {key : PropertyKey} {k d c' : Cursor} {m : Member} {o : Operand}
    (hk : Names c form k) (hkey : Member.key? form = some key) (hd : Apart k d)
    (hc : d.rest.head? = some ':') (h : (g.expression false).run (d.forward 1) = some (o, c'))
    (hm : m.body = .assignment key o.tree) : Paired g c m c'
  | kept {c' : Cursor} {m : Member} {shape : IrregularShape}
    (hm : m.body = .irregular shape (c.slice c')) : Paired g c m c'

theorem Grammar.paired_pairTail {form : NameForm} :
    ⦃fun c => ⌜Keyed start form c⌝⦄ g.pairTail start form ⦃⇓? m c => ⌜g.Paired start m c⌝⦄ := by
  have hexpression : ∀ c₀, ⦃fun c => ⌜c = c₀⌝⦄ g.expression false
      ⦃⇓? o c => ⌜c₀.Reaches c ∧ (g.expression false).run c₀ = some (o, c)⌝⦄ :=
    fun _ => Scan.spec_run fun _ => g.ahead_expression false
  unfold pairTail
  mvcgen [hexpression, -spec_expression]
  rename_i c hk _ _ hcolon o c' ho m
  obtain ⟨d, rest, hd, hrest, rfl⟩ := hcolon
  dsimp only [m]
  split
  · next key hkey => exact .pair (hk.names hkey) hkey hd (by rw [hrest]; rfl) ho.2 rfl
  · exact .kept rfl

theorem Grammar.paired_plainTail {form : NameForm} :
    ⦃fun c => ⌜Keyed start form c⌝⦄ g.plainTail start form ⦃⇓? m c => ⌜g.Paired start m c⌝⦄ := by
  unfold plainTail
  mvcgen [paired_pairTail, -spec_pairTail]
  all_goals grind [Paired, Member.irregular]

theorem Grammar.paired_property : ⦃fun c => ⌜c = c₀ ∧ AtStart c⌝⦄ g.property
    ⦃⇓? m c => ⌜g.Paired c₀ m c⌝⦄ := by
  unfold property
  mvcgen [paired_plainTail, -spec_plainTail]
  all_goals grind [AtStart, Paired, Member.irregular]

end Readers

/-- Up to this depth the readers for nested parts read what the text denotes. -/
def Grammar.Phrases (n : Nat) : Prop :=
  ∀ ⦃tail : Bool⦄ ⦃c : Cursor⦄ ⦃o : Operand⦄ ⦃c' : Cursor⦄,
    ((Grammar.ofDepth n).expression tail).run c = some (o, c') →
    ∃ m, Apart c m ∧ (AtStart c → m = c) ∧ o.Phrased .value m c'

namespace Grammar

theorem phrased_element (hn : Phrases (n + 1)) :
    ⦃fun c => ⌜c = c₀ ∧ AtStart c⌝⦄ (Grammar.ofDepth (n + 1)).element
    ⦃⇓? o c => ⌜c₀.Reaches c ∧ o.Phrased .item c₀ c⌝⦄ := by
  rw [Scan.triple_iff]
  rintro _ ⟨rfl, hc⟩ o c' h
  obtain ⟨hr, ⟨htree, hcore, hkind⟩ | hrun⟩ := Scan.triple_iff.mp spec_element_kept _ rfl o c' h
  · have hkeeps : Place.item.Keeps _ c' := ⟨n, false, o, ⟨hc, h⟩, htree⟩
    obtain ⟨hdenotes, hlexical⟩ := hkeeps.denotes hr htree
    exact ⟨hr, hdenotes, by rw [hkind]; nofun, hlexical, hcore ▸ hlexical⟩
  · obtain ⟨m, -, hm, ho⟩ := hn hrun
    obtain rfl := hm hc
    exact ⟨hr, ho.item⟩

theorem phrased_property (hn : Phrases (n + 1)) :
    ⦃fun c => ⌜c = c₀ ∧ AtStart c⌝⦄ (Grammar.ofDepth (n + 1)).property
    ⦃⇓? m c => ⌜c₀.Reaches c ∧ m.Phrased c₀ c⌝⦄ := by
  rw [Scan.triple_iff]
  rintro _ ⟨rfl, hc⟩ m c' h
  have hr := (Scan.triple_iff.mp spec_property _ ⟨rfl, hc⟩ m c' h).1
  refine ⟨hr, ?_⟩
  cases Scan.triple_iff.mp paired_property _ ⟨rfl, hc⟩ m c' h with
  | pair hk hkey hd hcolon hvalue hm =>
    obtain ⟨e, he, -, ho⟩ := hn hvalue
    obtain ⟨a, ha, hlowered⟩ := ho.tree
    refine ⟨⟨.pair _ a, .pair hk hd hcolon he ha, ?_⟩, ?_, ?_⟩
    · rw [Phrase.lowered, hkey, hlowered, hm]
      rfl
    · intro k t hbody
      obtain ⟨rfl, rfl⟩ := PropertyBody.assignment.inj (hm.symm.trans hbody)
      exact ⟨hk.lexical hkey, ho.lexical⟩
    · intro shape text hbody
      rw [hm] at hbody
      cases hbody
  | kept hm =>
    have hkeeps : KeepsMember _ c' := ⟨hc, n, m, _, h, hm⟩
    refine ⟨⟨_, .kept hr hkeeps, by rw [hm]; rfl⟩, ?_, ?_⟩
    · intro k t hbody
      rw [hm] at hbody
      cases hbody
    · intro shape text hbody
      obtain ⟨-, rfl⟩ := PropertyBody.irregular.inj (hm.symm.trans hbody)
      exact .member hr hkeeps

theorem phrased_elements (hn : Phrases n) {close : Char} {l : Listing Operand}
    (h : ((Grammar.ofDepth n).elements close).run c = some (l, c')) : ∃ m,
      m.rest.head? = some close ∧ c' = m.forward 1 ∧
      l.From (fun c o c' => o.Phrased .item c c') true c m := by
  cases n with
  | zero => cases h
  | succ n =>
    exact (Scan.triple_iff.mp (Listing.spec_read (fun _ => phrased_element hn)
      (fun _ _ => phrased_page) close _ _ _) c rfl l c' h).2

theorem phrased_members (hn : Phrases n) {l : Listing Member}
    (h : (Grammar.ofDepth n).members.run c = some (l, c')) : ∃ m,
      m.rest.head? = some '\x7d' ∧ c' = m.forward 1 ∧
      l.From (fun c m c' => m.Phrased c c') true c m := by
  cases n with
  | zero => cases h
  | succ n =>
    exact (Scan.triple_iff.mp (Listing.spec_read (fun _ => phrased_property hn)
      (fun _ _ => phrased_pageMember) _ _ _ _) c rfl l c' h).2

end Grammar

namespace Expression

variable {tail : Bool}

theorem Primed.phrased (hn : Grammar.Phrases n) (h : Primed (.ofDepth n) c o c')
    (hreads : Reads (.ofDepth n) tail c o c') : o.Phrased .object c c' := by
  have hkept : o.tree.expr = .verbatim (c.slice c') →
      (∃ a, Denotes .object c a c' ∧ a.lowered = o.tree.phrase) ∧ o.tree.Lexical := fun htree =>
    Place.Keeps.denotes ⟨n, tail, o, hreads, htree⟩ hreads.reaches htree
  cases h with
  | @string k h =>
    cases hv : Quoted.unquote (c.slice (c.forward k)) with
    | some value =>
      have htree : (Operand.string c.position (c.slice (c.forward k))).tree =
          .node (some c.position) (.string value) := by rw [Operand.string, hv]
      refine .of_tree ⟨_, .literal h, ?_⟩ (htree ▸ .string _ value) rfl
      rw [Phrase.lowered, hv, htree]
      rfl
    | none =>
      have htree : (Operand.string c.position (c.slice (c.forward k))).tree =
          .node (some c.position) (.verbatim (c.slice (c.forward k))) := by rw [Operand.string, hv]
      refine .of_tree ⟨_, .literal h, ?_⟩ (hkept (by rw [htree]; rfl)).2 rfl
      rw [Phrase.lowered, hv, htree]
      rfl
  | boolean h hv => exact .of_tree ⟨_, .boolean h hv, rfl⟩ (.boolean _ _) rfl
  | name h hw =>
    have hunsigned := not_mem_prefixWords h hreads.unsigned
    exact .of_tree ⟨_, .name h hw hunsigned, rfl⟩ (.identifier _ (isName_slice h) hw hunsigned) rfl
  | array hc h =>
    obtain ⟨m, hm, rfl, hfrom⟩ := Grammar.phrased_elements hn h
    exact phrased_array hc hfrom hm
  | object hc h =>
    obtain ⟨m, hm, rfl, hfrom⟩ := Grammar.phrased_members hn h
    exact phrased_object hc hfrom hm
  | @parentheses l o c' hc h hl hplain ho =>
    obtain ⟨m, hm, rfl, hfrom⟩ := Grammar.phrased_elements hn h
    have hholes : l.holes = false := by
      simp only [Listing.isPlain, Bool.and_eq_true, Bool.not_eq_true'] at hplain
      exact hplain.1
    have hcore := phrased_wrap hc hfrom hl hholes hm
    have hlexical : o.core.Lexical := hfrom.all (fun _ _ _ h => h.coreLexical) o (by simp [hl])
    by_cases hk : o.kind.losesParentheses
    · have htree : (o.wrap c.position (c.slice (m.forward 1))).tree = o.core := if_pos hk
      exact ⟨htree ▸ hcore hk, hcore, htree ▸ hlexical, hlexical⟩
    · have htree : (o.wrap c.position (c.slice (m.forward 1))).tree =
          .node (some c.position) (.verbatim (c.slice (m.forward 1))) := if_neg hk
      obtain ⟨hdenotes, hlexical'⟩ := hkept (by rw [htree]; rfl)
      exact ⟨hdenotes, hcore, hlexical', hlexical⟩
  | @async k _ _ _ h hw hd hparen ha =>
    obtain ⟨m, hm, rfl, hfrom⟩ := Grammar.phrased_elements hn ha
    have hown : c.slice (c.forward k) ∉ ownWords := by rw [hw]; decide
    have hunsigned : c.slice (c.forward k) ∉ prefixWords := by rw [hw]; decide
    have hname :
        (Operand.name c.position (c.slice (c.forward k))).Phrased .object c (c.forward k) :=
      .of_tree ⟨_, .name h hown hunsigned, rfl⟩ (.identifier _ (isName_slice h) hown hunsigned) rfl
    exact phrased_call hname (by rintro ⟨⟩) hd hparen hfrom hm
  | kept h hk =>
    obtain ⟨hdenotes, hlexical⟩ := hkept (by rw [h.tree]; rfl)
    refine ⟨hdenotes, fun hlost => ?_, hlexical, ?_⟩
    · rw [hk] at hlost
      cases hlost
    · rw [h.core]
      exact h.tree ▸ hlexical

theorem Linked.phrased {c₁ : Cursor} (hn : Grammar.Phrases n)
    (h : Linked (.ofDepth n) c o c₁ o' c') (ho : o.Phrased .object c c₁)
    (hk : o.tree.kind ≠ .assignment) (hreads : Reads (.ofDepth n) tail c o' c') :
    o'.Phrased .object c c' := by
  cases h with
  | member hd hdot hm h =>
    obtain ⟨a, ha, hlowered⟩ := ho.tree
    refine .of_tree ⟨_, .member ha hd hdot hm h, ?_⟩ (.member _ ho.lexical ?_ (isName_slice h)) rfl
    · rw [Phrase.lowered, hlowered]
      rfl
    · simpa [Place.admits] using hk
  | call hd hparen h =>
    obtain ⟨m, hm, rfl, hfrom⟩ := Grammar.phrased_elements hn h
    exact phrased_call ho hk hd hparen hfrom hm
  | kept h =>
    have htree : o'.tree.expr = .verbatim (c.slice c') := by rw [h.tree]; rfl
    have hkeeps : Place.object.Keeps c c' := ⟨n, tail, o', hreads, htree⟩
    obtain ⟨hdenotes, hlexical⟩ := hkeeps.denotes hreads.reaches htree
    exact .of_tree hdenotes hlexical h.core

theorem Reads.phrased (hn : Grammar.Phrases n) (h : Reads (.ofDepth n) tail c o c') :
    o.Phrased .object c c' :=
  h.induct (fun _ _ hp hreads => hp.phrased hn hreads)
    fun _ _ _ _ ho hreads hl hrun => hl.phrased hn ho hreads.spelled.2 (hreads.link hrun)

theorem read_phrased (hn : Grammar.Phrases n) (hc : AtStart c)
    (h : (read (.ofDepth n) tail).run c = some (o, c')) : o.Phrased .value c c' := by
  obtain ⟨hr, hvalued⟩ := read_valued hc h
  have hkept : o.tree.expr = .verbatim (c.slice c') →
      (∃ a, Denotes .value c a c' ∧ a.lowered = o.tree.phrase) ∧ o.tree.Lexical := fun htree =>
    Place.Keeps.denotes ⟨n, tail, o, ⟨hc, h⟩, htree⟩ hr htree
  cases hvalued with
  | operand hreads => exact (hreads.phrased hn).anywhere .value
  | assignment hreads _ hd he hright =>
    rename_i left right d e _
    obtain ⟨m, hm, -, hright⟩ := hn (Scan.run_of_asValue hright)
    obtain ⟨⟨a, ha, hleft⟩, hlexical⟩ : (∃ a, Denotes .target c a d ∧
        a.lowered = (left.target c d).phrase) ∧ (left.target c d).Lexical := by
      by_cases hpattern : !left.wrapped && (left.kind = .array || left.kind = .object)
      · have htree : left.target c d = .node (some c.position) (.verbatim (c.slice d)) :=
          if_pos hpattern
        exact Place.Keeps.denotes ⟨n, tail, left, hreads, by rw [Place.tree, htree]; rfl⟩
          hreads.reaches (by rw [htree]; rfl)
      · have htree : left.target c d = left.tree := if_neg hpattern
        have hphrased := (hreads.phrased hn).anywhere .target
        rw [htree]
        exact ⟨hphrased.tree, hphrased.lexical⟩
    obtain ⟨b, hb, hlowered⟩ := hright.tree
    have hboth : (assignmentOf c left d right).tree.Lexical := .assignment _ hlexical hright.lexical
    refine ⟨⟨_, .assignment ha hd he hm hb, ?_⟩, by rintro ⟨⟩, hboth, hboth⟩
    rw [Phrase.lowered, hleft, hlowered]
    rfl
  | kept hk hkind =>
    obtain ⟨hdenotes, hlexical⟩ := hkept (by rw [hk.tree]; rfl)
    refine ⟨hdenotes, by rw [hkind]; rintro ⟨⟩, hlexical, ?_⟩
    rw [hk.core]
    exact hk.tree ▸ hlexical

end Expression

theorem Grammar.phrases (n : Nat) : Phrases n := by
  induction n with
  | zero => exact fun _ _ _ _ h => by cases h
  | succ n ih =>
    intro tail c o c' h
    obtain ⟨m, hm, hstart, hsame, hrun⟩ := Expression.read_start h
    exact ⟨m, hm, hsame, Expression.read_phrased ih hstart hrun⟩

/-- What the readers for nested parts read has names, keys, comments and kept pieces where one
stands. -/
class Grammar.Lexed (g : Grammar) : Prop extends g.Spelling where
  lexical : ∀ ⦃tail c o c'⦄, (g.expression tail).run c = some (o, c') → o.core.Lexical

instance Grammar.lexed_ofDepth (n : Nat) : (ofDepth n).Lexed where
  lexical tail c o c' h := by
    obtain ⟨m, -, -, ho⟩ := phrases n h
    exact ho.coreLexical

end SiteConfig.Script
