import SiteConfig.Proofs.Spelling

/-!
The readers of expressions and members: what they have passed spells what they give.
-/

set_option mvcgen.warning false

namespace SiteConfig.Script
open Text Std.Do

variable {c₀ start : Cursor}

/-- The readers for nested parts spell what they read from the first token on. -/
class Grammar.Spelling (g : Grammar) : Prop extends g.Advances where
  spelled : ∀ c₀ tail, ⦃fun c => ⌜c = c₀⌝⦄ g.expression tail
    ⦃⇓? o c => ⌜∃ m, Apart c₀ m ∧ (AtStart c₀ → m = c₀) ∧ o.Spelled m c⌝⦄

namespace Grammar

variable {g : Grammar} [g.Spelling]

@[spec]
theorem spec_expression (tail : Bool) : ⦃fun c => ⌜c = c₀⌝⦄ g.expression tail
    ⦃⇓? o c => ⌜∃ m, Apart c₀ m ∧ (AtStart c₀ → m = c₀) ∧ o.Spelled m c⌝⦄ :=
  Spelling.spelled c₀ tail

@[spec]
theorem spec_value (tail : Bool) : ⦃fun c => ⌜c = c₀⌝⦄ Scan.asValue (g.expression tail)
    ⦃⇓? o c => ⌜∃ m, Apart c₀ m ∧ (AtStart c₀ → m = c₀) ∧ o.Spelled m c⌝⦄ := by
  unfold Scan.asValue
  mvcgen
  all_goals grind

theorem spec_element : ⦃fun c => ⌜c = c₀ ∧ AtStart c⌝⦄ g.element
    ⦃⇓? o c => ⌜c₀.Reaches c ∧ o.Spelled c₀ c⌝⦄ := by
  unfold element
  mvcgen
  all_goals grind

@[spec]
theorem spec_elements (close : Char) : ⦃fun c => ⌜c = start⌝⦄ g.elements close
    ⦃⇓? l c => ⌜start.Reaches c ∧ ∃ m, m.rest.head? = some close ∧ c = m.forward 1 ∧
      l.From (fun c o c' => o.Spelled c c') true start m⌝⦄ :=
  Listing.spec_read (fun _ => spec_element) (fun _ _ h => Operand.spelled_page h) close _ _ _

@[spec]
theorem spec_decorators (n : Nat) : ⦃fun c => ⌜c = c₀⌝⦄ g.decorators n
    ⦃⇓? b c => ⌜c₀.Reaches c ∧ (b = false → c = c₀) ∧
      (b = true → AtStart c₀ → c₀.rest.head? = some '@')⌝⦄ := by
  cases n with
  | zero =>
    unfold decorators
    mvcgen
    all_goals grind
  | succ n =>
    unfold decorators
    mvcgen
    all_goals grind [AtStart.eq_of_apart]

@[spec]
theorem spec_modifier (words : List String) (star : Bool) (ending : Ending) :
    ⦃fun c => ⌜c = c₀⌝⦄ modifier words star ending
    ⦃⇓? b c => ⌜c₀.Reaches c ∧ (b = false → c = c₀) ∧
      (words ⊆ modifierWords → ∀ origin, Heads origin c₀ → Heads origin c)⌝⦄ := by
  unfold modifier
  mvcgen
  all_goals grind [→ Heads.word]

@[spec]
theorem spec_modifiers (ending : Ending) : ⦃fun c => ⌜c = c₀⌝⦄ modifiers ending
    ⦃⇓? b c => ⌜c₀.Reaches c ∧ (b = false → AtToken c₀ → c = c₀) ∧
      (AtStart c₀ → Heads c₀ c)⌝⦄ := by
  unfold modifiers
  mvcgen
  all_goals grind [→ Heads.start, → Heads.gap, → Heads.star, modifierWords, List.IsPrefix]

@[spec]
theorem spec_memberName : ⦃fun c => ⌜c = c₀⌝⦄ g.memberName
    ⦃⇓? form c => ⌜∃ d, Apart c₀ d ∧ (AtToken c₀ → d = c₀) ∧ d.rest ≠ [] ∧ Keyed d form c⌝⦄ := by
  unfold memberName
  mvcgen
  all_goals grind [Keyed, Names]

@[spec]
theorem spec_methodTail : ⦃fun c => ⌜c = c₀⌝⦄ g.methodTail
    ⦃⇓? _ c => ⌜∃ d, Apart c₀ d ∧ d.rest.head? = some '(' ∧ (d.forward 1).Reaches c⌝⦄ := by
  unfold methodTail parameters
  mvcgen
  all_goals grind

@[spec]
theorem spec_pairTail (form : NameForm) :
    ⦃fun c => ⌜start.rest ≠ [] ∧ Keyed start form c⌝⦄ g.pairTail start form
    ⦃⇓? m c => ⌜m.Spelled start c⌝⦄ := by
  unfold pairTail
  mvcgen
  rename_i c hk _ _ hcolon o c' ho m
  obtain ⟨d, rest, hd, hrest, rfl⟩ := hcolon
  obtain ⟨e, he, -, ho⟩ := ho
  have hhead : d.rest.head? = some ':' := by rw [hrest]; rfl
  have hbehind : (d.forward 1).Reaches c' := he.reaches.trans ho.reaches
  have hr : start.Reaches c' :=
    hk.2.reaches.trans (hd.reaches.trans ((Cursor.Reaches.forward d 1).trans hbehind))
  dsimp only [m]
  split
  · next key hkey =>
    exact .assignment hk.2 hkey hd hhead he ho hr hk.1
  · next hkey =>
    exact .irregular hr hk.1 ⟨_, .keyless hk.2 hkey hd hhead hbehind⟩

@[spec]
theorem spec_plainTail (form : NameForm) :
    ⦃fun c => ⌜start.rest ≠ [] ∧ AtStart start ∧ Keyed start form c⌝⦄ g.plainTail start form
    ⦃⇓? m c => ⌜m.Spelled start c⌝⦄ := by
  unfold plainTail
  mvcgen
  case vc2 =>
    rename_i k h _ _ _ heq _ k' hk' _ c' htail
    obtain ⟨ht, hstart, hk⟩ := h
    obtain ⟨d, hd, hparen, hr⟩ := htail
    subst heq hk'
    exact .method ht (.start hstart) (.refl start) hk hd hparen hr (by grind)
  all_goals grind [→ SpelledBody.withDefault, SpelledBody.shorthand]

theorem spec_property : ⦃fun c => ⌜c = c₀ ∧ AtStart c⌝⦄ g.property
    ⦃⇓? m c => ⌜c₀.Reaches c ∧ m.Spelled c₀ c⌝⦄ := by
  unfold property
  mvcgen
  all_goals grind [AtStart, → Cursor.Reaches.rest_nil, → SpelledBody.method, SpelledBody.spread,
    SpelledBody.decorated]

theorem spec_members : ⦃fun c => ⌜c = start⌝⦄ g.members
    ⦃⇓? l c => ⌜start.Reaches c ∧ ∃ m, m.rest.head? = some '\x7d' ∧ c = m.forward 1 ∧
      l.From (fun c m c' => m.Spelled c c') true start m⌝⦄ :=
  Listing.spec_read (fun _ => spec_property) (fun _ _ h => .page h) _ _ _ _

theorem elements_from {close : Char} {l : Listing Operand} {c c' : Cursor}
    (h : (g.elements close).run c = some (l, c')) : ∃ m, m.rest.head? = some close ∧
      c' = m.forward 1 ∧ l.From (fun c o c' => o.Spelled c c') true c m :=
  (Scan.triple_iff.mp (g.spec_elements close) c rfl l c' h).2

theorem members_from {l : Listing Member} {c c' : Cursor} (h : g.members.run c = some (l, c')) :
    ∃ m, m.rest.head? = some '\x7d' ∧ c' = m.forward 1 ∧
      l.From (fun c m c' => m.Spelled c c') true c m :=
  (Scan.triple_iff.mp g.spec_members c rfl l c' h).2

end Grammar

namespace Expression

variable {g : Grammar} {tail : Bool} {c c₁ c' : Cursor} {o o' : Operand}

/-- A word that starts an operand is no sign in front of one. -/
theorem not_mem_prefixWords {n : Nat} (h : Lexeme.name c.rest = some n)
    (hp : prefixLength? c.rest = none) : c.slice (c.forward n) ∉ prefixWords := by
  have hword : Scan.wordOf c.rest = some (c.slice (c.forward n)) := by
    rw [Scan.wordOf, h, Option.map_some, Cursor.slice, Cursor.textTo_forward]
  intro hmem
  simp [prefixLength?, hword, hmem] at hp

variable [g.Spelling]

/-- Nothing that links can be appended to is an assignment. -/
theorem Primed.spelled (h : Primed g c o c') (hr : c.Reaches c') (ht : c.rest ≠ []) :
    o.Spelled c c' ∧ o.tree.kind ≠ .assignment := by
  cases h with
  | string h =>
    refine ⟨Operand.spelled_string h, ?_⟩
    unfold Operand.string
    split <;> rintro ⟨⟩
  | boolean h hv => exact ⟨Operand.spelled_boolean h hv, by rintro ⟨⟩⟩
  | name h => exact ⟨Operand.spelled_name h, by rintro ⟨⟩⟩
  | array hc h =>
    obtain ⟨m, hm, rfl, hfrom⟩ := g.elements_from h
    exact ⟨spelled_array hc hfrom hm hr, by rintro ⟨⟩⟩
  | object hc h =>
    obtain ⟨m, hm, rfl, hfrom⟩ := g.members_from h
    exact ⟨spelled_object hc hfrom hm hr, by rintro ⟨⟩⟩
  | parentheses hc h hl =>
    rename_i l o _ _
    obtain ⟨m, hm, rfl, hfrom⟩ := g.elements_from h
    have hspelled := Operand.spelled_wrap hc hfrom hl hm hr
    refine ⟨hspelled, ?_⟩
    -- the parentheses around an assignment stay
    by_cases hk : o.kind.losesParentheses
    · have hkind : o.core.kind = o.kind ∨ o.core.kind = .other := hspelled.kind
      rw [Operand.wrap, if_pos hk]
      rcases hkind with h | h <;> simp only [h]
      · rintro h
        rw [h] at hk
        cases hk
      · rintro ⟨⟩
    · rw [Operand.wrap, if_neg hk]
      rintro ⟨⟩
  | async h hw hd hparen ha =>
    obtain ⟨m, hm, rfl, hfrom⟩ := g.elements_from ha
    exact ⟨spelled_call (Operand.spelled_name h) hd hparen hfrom hm hr, by rintro ⟨⟩⟩
  | kept h =>
    refine ⟨h.spelled hr ht, ?_⟩
    rw [h.tree]
    rintro ⟨⟩

theorem Linked.spelled (h : Linked g c o c₁ o' c') (ho : o.Spelled c c₁) (hr : c.Reaches c') :
    o'.Spelled c c' ∧ o'.tree.kind ≠ .assignment := by
  cases h with
  | member hd hdot hm h => exact ⟨spelled_member ho hd hdot hm h hr, nofun⟩
  | call hd hparen h =>
    obtain ⟨m, hm, rfl, hfrom⟩ := g.elements_from h
    exact ⟨spelled_call ho hd hparen hfrom hm hr, nofun⟩
  | kept h =>
    refine ⟨h.spelled hr ho.text, ?_⟩
    rw [h.tree]
    nofun

theorem Reads.spelled (h : Reads g tail c o c') : o.Spelled c c' ∧ o.tree.kind ≠ .assignment := by
  have ht : c.rest ≠ [] := by
    obtain ⟨ch, rest, hrest, -⟩ := h.leads
    simp [hrest]
  exact h.induct (fun o c' hp hreads => hp.spelled hreads.reaches ht)
    fun o c₁ o' c' ho hreads hl hrun => hl.spelled ho.1 (hreads.link hrun).reaches

theorem Valued.spelled (h : Valued g tail c o c') (hr : c.Reaches c') (ht : c.rest ≠ []) :
    o.Spelled c c' := by
  cases h with
  | operand h => exact h.spelled.1
  | assignment h _ hd he hright =>
    obtain ⟨m, hm, -, hright⟩ := Scan.triple_iff.mp (g.spec_value tail) _ rfl _ _ hright
    exact spelled_assignment h.spelled.1 hd he hm hright hr
  | kept h => exact h.spelled hr ht

theorem spec_read (tail : Bool) : ⦃fun c => ⌜c = c₀⌝⦄ read g tail
    ⦃⇓? o c => ⌜∃ m, Apart c₀ m ∧ (AtStart c₀ → m = c₀) ∧ o.Spelled m c⌝⦄ := by
  rw [Scan.triple_iff]
  rintro _ rfl o c' h
  obtain ⟨m, hm, hstart, hsame, hrun⟩ := read_start h
  obtain ⟨hreach, hvalued⟩ := read_valued hstart hrun
  obtain ⟨ch, rest, hrest, -⟩ := leads_read hstart hrun
  exact ⟨m, hm, hsame, hvalued.spelled hreach (by simp [hrest])⟩

end Expression

instance Grammar.spelling_ofDepth (n : Nat) : (ofDepth n).Spelling := by
  induction n with
  | zero => exact ⟨fun _ _ _ _ => trivial⟩
  | succ n ih => exact ⟨fun _ tail => Expression.spec_read tail⟩

end SiteConfig.Script
