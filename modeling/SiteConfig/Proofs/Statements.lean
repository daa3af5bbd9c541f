import SiteConfig.Proofs.Expressions

/-!
Expressions that are a whole statement are read back, unless their text starts as another statement
does.
-/

namespace SiteConfig

namespace Script
open Text Layout SiteConfig.Tree

variable {c c' : Cursor} {rest : List Char} {t : Tree} {n : Nat}

/-! Where a statement starts. -/

namespace Statement

/-- Words that may start a statement of their own. -/
def leadWords : List String :=
  statementWords ++ ["function", "class", "async", "import", "export", "let"]

/-- The text starts with neither a brace, a decorator, a word of a statement nor a label. -/
def opensValue (cs : List Char) : Bool :=
  cs.head? ≠ some '\x7b' && cs.head? ≠ some ';' && cs.head? ≠ some '@' &&
    match Scan.wordOf cs with
    | none => true
    | some w =>
      let behind := cs.drop w.length
      !leadWords.contains w &&
        (valueWords.contains w || (behind.drop (Lexeme.gap behind)).head? ≠ some ':')

theorem upcoming_ne_colon (e : Ending) {cs : List Char}
    (h : (c.rest.drop (Lexeme.gap c.rest)).head? ≠ some ':')
    (hrun : (Scan.upcoming e).run c = some (cs, c')) : c' = c ∧ cs.head? ≠ some ':' := by
  obtain ⟨hc, hcs⟩ := Scan.triple_iff.mp (Scan.spec_upcoming_forward e) c rfl _ _ hrun
  refine ⟨hc, ?_⟩
  rcases hcs with rfl | rfl
  · simp
  · rwa [Cursor.rest_forward]

/-- A word that neither starts a statement nor labels one is read as the start of a value. -/
theorem labelled_run {g : Grammar} {w : String}
    (h : valueWords.contains w ∨ ((c.forward w.length).rest.drop
      (Lexeme.gap (c.forward w.length).rest)).head? ≠ some ':') :
    (read.labelled g c w).run c = (expressionStatement g).run c := by
  rw [read.labelled]
  by_cases hvalue : valueWords.contains w
  · rw [if_pos hvalue]
  · have hcolon := h.resolve_left hvalue
    rw [if_neg hvalue, Scan.run_bind (Scan.run_skip _ c)]
    cases hrun : (Scan.upcoming .value).run (c.forward w.length) with
    | none =>
      -- a look ahead always comes to something
      cases hrun
    | some out =>
      obtain ⟨cs, c'⟩ := out
      obtain ⟨rfl, hcs⟩ := upcoming_ne_colon .value hcolon hrun
      rw [Scan.run_bind hrun, if_neg hcs, Scan.run_bind (Scan.run_set _ _)]

theorem read_opensValue {g : Grammar} (h : opensValue c.rest) :
    (read g).run c = (expressionStatement g).run c := by
  simp only [opensValue, Bool.and_eq_true, decide_eq_true_eq] at h
  obtain ⟨⟨⟨hbrace, hsemicolon⟩, hat⟩, h⟩ := h
  rw [read, Scan.run_bind (Scan.run_get c)]
  cases hword : Scan.wordOf c.rest with
  | none =>
    split
    · next heq => exact absurd heq hbrace
    · next heq => exact absurd heq hsemicolon
    · next heq => exact absurd heq hat
    · next heq _ _ _ => cases heq
    · rfl
  | some w =>
    rw [hword] at h
    simp only [Bool.and_eq_true, Bool.not_eq_true', Bool.or_eq_true, decide_eq_true_eq] at h
    obtain ⟨hlead, hvalue⟩ := h
    rw [← Cursor.rest_forward] at hvalue
    have hlead' : w ∉ leadWords := by simpa using hlead
    simp only [leadWords, List.mem_append, List.mem_cons, List.not_mem_nil, or_false, not_or]
      at hlead'
    obtain ⟨hstatement, hfunction, hclass, hasync, himport, hexport, hlet⟩ := hlead'
    have hcontains : statementWords.contains w = false := by simpa using hstatement
    split
    · next heq => exact absurd heq hbrace
    · next heq => exact absurd heq hsemicolon
    · next heq => exact absurd heq hat
    · next heq _ _ _ =>
      cases heq
      simp only [hcontains, hfunction, hclass, hasync, himport, hexport, hlet, decide_false,
        Bool.or_self, if_false, Bool.false_eq_true]
      exact labelled_run hvalue
    · next heq _ _ _ => cases heq

/-- Neither the mark behind a block nor a line that names an interpreter starts a statement. -/
theorem head_read {r : StatementBody Tree × Cursor} (hc : AtStart c)
    (h : (read (.ofDepth n)).run c = some r) :
    c.rest ≠ [] ∧ c.rest.head? ≠ some '\x7d' ∧ Lexeme.interpreterLine c.rest = none := by
  by_contra hcon
  have hopens : opensValue c.rest := by
    cases hrest : c.rest with
    | nil => rfl
    | cons ch cs =>
      have hch : ch = '\x7d' ∨ ch = '#' := by
        by_contra hch
        rw [not_or] at hch
        exact hcon ⟨by simp [hrest], by simpa [hrest] using hch.1,
          interpreterLine_none (by simpa [hrest] using hch.2)⟩
      rcases hch with rfl | rfl <;>
        simp [opensValue, Scan.wordOf_mark, isPunctuation]
  have hvalue : ∀ r, (Scan.asValue ((Grammar.ofDepth n).expression true)).run c ≠ some r := by
    intro r hr
    cases n with
    | zero => cases hr
    | succ n =>
      cases hread : ((Grammar.ofDepth (n + 1)).expression true).run c with
      | none =>
        rw [Scan.asValue, Scan.run_none hread] at hr
        cases hr
      | some out =>
        have hleads : Leads c.rest := leads_read (g := .ofDepth n) hc hread
        obtain ⟨ch, cs, hrest, hch, -, hline⟩ := hleads
        refine hcon ⟨by simp [hrest], ?_, hline⟩
        rw [hrest]
        simp only [List.head?_cons, ne_eq, Option.some.injEq]
        rintro rfl
        simp at hch
  have hnone : (Scan.asValue ((Grammar.ofDepth n).expression true)).run c = none :=
    Option.eq_none_iff_forall_ne_some.mpr hvalue
  have hexpressions : ((Grammar.ofDepth n).expressions true).run c = none := by
    rw [Grammar.expressions, Scan.run_bind (Scan.run_opening_start hc),
      Scan.run_bind (Scan.run_get c), Scan.run_none hnone]
  rw [read_opensValue hopens, expressionStatement, Scan.run_bind (Scan.run_get c),
    Scan.run_none hexpressions] at h
  cases h

end Statement

/-! The expression of a statement. -/

theorem stops_semicolon : Stops ';' :=
  .inr (.inr (.inr rfl))

theorem expressions_run {g : Grammar} {o : Operand} (hc : AtStart c) (hroom : 0 < g.room)
    (h : (g.expression true).run c = some (o, c')) (hvalue : o.isValue && o.kind ≠ .spread)
    (hrest : c'.rest = ';' :: rest) : (g.expressions true).run c = some (o, c') := by
  obtain ⟨room, hfuel⟩ : ∃ k, g.room = k + 1 := ⟨g.room - 1, by omega⟩
  have hvalue' : (Scan.asValue (g.expression true)).run c = some (o, c') := by
    rw [Scan.asValue, Scan.run_bind h, Scan.run_bind (Scan.run_guard hvalue c'), Scan.run_pure]
  have hnext := Scan.run_upcoming (.ofTail true) (stops_semicolon.steady rest) (.inl hrest)
  rw [Grammar.expressions, Scan.run_bind (Scan.run_opening_start hc),
    Scan.run_bind (Scan.run_get c), Scan.run_bind hvalue', hfuel, Grammar.expressionsFrom,
    Scan.run_bind hnext]
  simp

/-- What is read back as a whole statement. -/
theorem expressionStatement_run (h : t.ReadsBack true .alone) (hn : 4 * c.left < n)
    (hrest : c.rest = (t.layout 0 0).toList ++ ';' :: rest) :
    AtStart c ∧ ∃ o c', (Statement.expressionStatement (.ofDepth (n + 1))).run c =
      some (.expression o, c') ∧ c'.rest = rest ∧ o.stripped id = t.shown 0 0 := by
  obtain ⟨o, c', ⟨hc, hrun⟩, hallows, hrest', htree⟩ := h hn hrest ⟨rest, rfl⟩
  simp only [Place.allows, Bool.and_eq_true] at hallows
  have hspread : o.kind ≠ .spread := by
    intro hkind
    rw [hkind] at hallows
    cases hallows.2
  have hexpression : ((Grammar.ofDepth (n + 1)).expression true).run c = some (o, c') := hrun
  have hexpressions : ((Grammar.ofDepth (n + 1)).expressions true).run c = some (o, c') :=
    expressions_run hc (by simp) hexpression (by simp [hallows.1, hspread]) hrest'
  refine ⟨hc, o.core, c'.forward 1, ?_, (Cursor.pass hrest').1, htree⟩
  rw [Statement.expressionStatement, Scan.run_bind (Scan.run_get c), Scan.run_bind hexpressions,
    Scan.run_bind (Scan.run_semicolon .value hrest'), if_pos hallows.2, Scan.run_pure]

/-- A declaration of one name is read to its semicolon. -/
theorem Statement.declarators_run {g : Grammar} {name : String} {text : List Char} {o : Operand}
    (hname : Lexeme.IsName name) (hroom : 0 < g.room)
    (h : c.rest = ' ' :: (name.toList ++ ' ' :: '=' :: ' ' :: text))
    (hrun : (g.expression true).run (c.forward (name.toList.length + 3)) = some (o, c'))
    (hvalue : o.isValue && o.kind ≠ .spread) (hrest : c'.rest = ';' :: rest) :
    (Statement.declarators g g.room).run c = some ((), c'.forward 1) := by
  obtain ⟨room, hfuel⟩ : ∃ k, g.room = k + 1 := ⟨g.room - 1, by omega⟩
  obtain ⟨hsolid, hhead⟩ := Lexeme.solid_of_name hname (' ' :: '=' :: ' ' :: text)
  have hgap : Scan.gap.run c = some ((), c.forward 1) :=
    Scan.run_gap (show c.rest = [' '] ++ _ from h) (blank_singleton rfl) hsolid
  have hbehind : (c.forward 1).rest = name.toList ++ ' ' :: '=' :: ' ' :: text := (Cursor.pass h).1
  have hlexeme := Scan.run_lexeme hbehind (Lexeme.name_append hname (Follows.equals text).endsName)
  have hequals := Cursor.rest_behind hbehind
  have hnext := Scan.run_upcoming .word (steady_equals text) (.inr hequals)
  have htoken : (Scan.token "=").run ((c.forward 1).forward name.toList.length) =
      some ((), c.forward (name.toList.length + 3)) := by
    rw [Scan.run_token (show _ = [' '] ++ ("=".toList ++ ' ' :: text) from hequals)
      (blank_singleton rfl) (steady_equals text).1, Cursor.forward_forward, Cursor.forward_forward,
      Nat.add_comm 1]
    rfl
  have hvalue' : (Scan.asValue (g.expression true)).run (c.forward (name.toList.length + 3)) =
      some (o, c') := by
    rw [Scan.asValue, Scan.run_bind hrun, Scan.run_bind (Scan.run_guard hvalue c'), Scan.run_pure]
  have hdeclarator : (Statement.declarator g).run c = some (.value, c') := by
    rw [Statement.declarator, Scan.run_bind hgap, Scan.run_bind (Scan.run_rest _), hbehind]
    split
    · next heq => exact absurd heq (hhead _ (by simp [isPunctuation]) (by decide))
    · next heq => exact absurd heq (hhead _ (by simp [isPunctuation]) (by decide))
    · dsimp only
      rw [Scan.run_bind hlexeme, Scan.run_bind hnext, if_pos (by rfl), Scan.run_bind htoken,
        Scan.run_bind hvalue', Scan.run_pure]
  have hend := Scan.run_upcoming .value (stops_semicolon.steady rest) (.inl hrest)
  rw [hfuel, Statement.declarators, Scan.run_bind hdeclarator, Scan.run_bind hend, if_neg (by simp),
    Scan.run_semicolon .value hrest]

/-! Trees without kept pieces. -/

end Script

namespace Tree
open Script

theorem Plain.kind_cases {t : Tree} (h : t.Plain) : t.kind ≠ .assignment ∧ t.kind ≠ .other := by
  cases h <;> simp [kind, expr]

theorem Plain.lexical {t : Tree} (h : t.Plain) : t.Lexical := by
  induction h with
  | string position value => exact .string position value
  | boolean position value => exact .boolean position value
  | identifier position h =>
    have hown : ∀ w ∈ ownWords, w ∈ keywords := by decide
    have hunsigned : ∀ w ∈ Expression.prefixWords, w ∈ keywords := by decide
    exact .identifier position h.1 (fun hmem => h.2 (hown _ hmem)) fun hmem =>
      h.2 (hunsigned _ hmem)
  | member position hb hl hp ih =>
    exact .member position ih (by simpa [Place.admits] using hb.kind_cases.1) hp
  | call position hc hl ha ihc iha =>
    exact .call position ihc (by simpa [Place.admits] using hc.kind_cases.1) iha
  | array position he ht hd ih => exact .array position ih ht hd
  | object position hp hv ht hd ih =>
    refine .object position (fun p hmem key hkey => ?_) ih (fun p hmem shape text hbody => ?_) ht hd
    · obtain ⟨k, value, hbody, hk⟩ := hp p hmem
      obtain rfl : k = key := by simpa [Property.key?, hbody] using hkey
      exact .inl hk
    · obtain ⟨k, value, hbody', -⟩ := hp p hmem
      rw [hbody'] at hbody
      cases hbody

theorem Plain.settled {t : Tree} (h : t.Plain) (tail : Bool) (place : Place) :
    t.Settled tail place := by
  induction h generalizing tail place with
  | string position value => exact .string tail place position value
  | boolean position value => exact .boolean tail place position value
  | identifier position h => exact .identifier tail place position _
  | member position hb hl hp ih => exact .member place position _ (ih tail .object)
  | call position hc hl ha ihc iha =>
    exact .call place position (ihc tail .callee) fun t ht => iha t ht false .item
  | array position he ht hd ih =>
    exact .array tail place position _ fun e hmem => ih e hmem false .item
  | object position hp hv ht hd ih =>
    refine .object tail place position _ (fun p hmem value hvalue => ih p hmem value hvalue false _)
      fun p hmem shape text hbody => ?_
    obtain ⟨k, value, hbody', -⟩ := hp p hmem
    rw [hbody'] at hbody
    cases hbody

theorem PlainStatement.lexical {t : Tree} (h : t.PlainStatement) :
    t.Lexical ∧ Place.alone.admits t.kind := by
  cases h with
  | string position value => exact ⟨.string position value, rfl⟩
  | call position h => exact ⟨h.lexical, rfl⟩
  | identifierAssignment position position' hl hr =>
    exact ⟨.assignment position (Plain.identifier position' hl).lexical hr.lexical, rfl⟩
  | memberAssignment position position' hl hr =>
    exact ⟨.assignment position hl.lexical hr.lexical, rfl⟩

theorem PlainStatement.settled {t : Tree} (h : t.PlainStatement) : t.Settled true .alone := by
  cases h with
  | string position value => exact .string true .alone position value
  | call position h => exact h.settled true .alone
  | identifierAssignment position position' hl hr =>
    exact .assignment .alone position rfl (.identifier _ _ position' _) (hr.settled true .value)
  | memberAssignment position position' hl hr =>
    exact .assignment .alone position rfl (hl.settled true .target) (hr.settled true .value)

/-! What the layout of a tree starts with. -/

mutual

/-- The part that stands first where a tree is laid out. -/
def first : Tree → Expr Tree
  | .node _ e => firstExpr e

def firstExpr : Expr Tree → Expr Tree
  | .member object _ => object.first
  | .call callee _ => callee.first
  | .assignment left _ => left.first
  | e => e

end

end Tree

namespace Script
open Text Layout SiteConfig.Tree

variable {rest : List Char} {t : Tree}

theorem opensValue_word {w : String} (hw : Lexeme.IsName w) (hlead : w ∉ Statement.leadWords)
    (hrest : Follows rest) : Statement.opensValue (w.toList ++ rest) := by
  have hhead := (Lexeme.solid_of_name hw rest).2
  have hcolon : (rest.drop (Lexeme.gap rest)).head? ≠ some ':' := by
    obtain ⟨cs, hcs, hsteady, -, hcolon, -⟩ := hrest.next
    have hdrop : rest.drop (Lexeme.gap rest) = cs := by
      rcases hcs with rfl | rfl
      · rw [Lexeme.gap_solid hsteady.1, List.drop_zero]
      · rw [Lexeme.drop_gap_blank rfl, Lexeme.gap_solid hsteady.1, List.drop_zero]
    rwa [hdrop]
  have hbehind : (w.toList ++ rest).drop w.length = rest := by
    rw [← String.length_toList, List.drop_left]
  rw [Statement.opensValue, Scan.wordOf_append hw hrest.endsName]
  simp only [hbehind, Bool.and_eq_true, Bool.or_eq_true, Bool.not_eq_true', decide_eq_true_eq]
  exact ⟨⟨⟨hhead _ (by simp [isPunctuation]) (by decide),
    hhead _ (by simp [isPunctuation]) (by decide)⟩,
    hhead _ (by simp [isPunctuation]) (by decide)⟩, by simpa using hlead, .inr hcolon⟩

/-- A statement that starts so is no other than the expression. -/
def OpensValue : Expr Tree → Prop
  | .object .. => False
  | .identifier name => name ∉ Statement.leadWords
  | .verbatim text => ∀ rest, Follows rest → Statement.opensValue (text.toList ++ rest)
  | _ => True

theorem opensValue_first (hl : t.Lexical) (h : OpensValue t.first) (depth column : Nat)
    (hrest : Follows rest) : Statement.opensValue ((t.layout depth column).toList ++ rest) := by
  have hmark : ∀ ch cs, isPunctuation ch = true → ch ∉ ['\x7b', ';', '@', '\\'] →
      Statement.opensValue (ch :: cs) := by
    intro ch cs hch hne
    simp only [List.mem_cons, List.not_mem_nil, or_false, not_or] at hne
    simp [Statement.opensValue, Scan.wordOf_mark hch hne.2.2.2, hne]
  -- behind the part that stands first comes what may follow it
  induction hl generalizing rest with
  | string position value =>
    obtain ⟨ch, cs, heq, hch⟩ := head_quote value
    rw [layout, layoutExpr, heq]
    rcases hch with rfl | rfl <;> exact hmark _ _ (by simp [isPunctuation]) (by decide)
  | boolean position value =>
    rw [layout, layoutExpr]
    exact opensValue_word (Expression.isName_boolean value) (by cases value <;> decide) hrest
  | identifier position hname => exact opensValue_word hname h hrest
  | verbatim position text => exact h rest hrest
  | member position ho hk hp ih =>
    rw [layout, layoutExpr]
    simpa [String.toList_append] using ih h (.name _)
  | call position hf hk ha ih =>
    rw [layout, layoutExpr]
    simpa [String.toList_append] using ih h (.arguments _)
  | assignment position hl hr ih =>
    rw [layout, layoutExpr]
    simpa [String.toList_append] using ih h (.equals _)
  | @array position elements dangling =>
    obtain ⟨inner, hlayout, -⟩ := layout_array depth column position elements dangling
    rw [hlayout]
    exact hmark '[' _ (by simp [isPunctuation]) (by decide)
  | object => exact h.elim

/-- Strings and identifiers are read as the start of a value. -/
theorem opensValue_plain (ht : t.PlainStatement) : OpensValue t.first := by
  have hidentifier : ∀ {w : String}, IsIdentifier w → w ∉ Statement.leadWords := by
    have hsubset : ∀ v ∈ Statement.leadWords, v ∈ keywords := by decide
    exact fun {w} (hw : IsIdentifier w) hmem => hw.2 (hsubset w hmem)
  have hlink : ∀ s : Tree, s.Plain → s.isLink → OpensValue s.first := by
    intro s ht hlink
    induction ht with
    | identifier position h => exact hidentifier h
    | member position hb hl hp ih => exact ih hl
    | call position hc hl ha ih => exact ih hl
    | string | boolean | array | object => cases hlink
  cases ht with
  | string => trivial
  | call position h => exact hlink _ h rfl
  | identifierAssignment position position' hl hr => exact hidentifier hl
  | memberAssignment position position' hl hr => exact (hlink _ hl rfl :)

end Script

end SiteConfig
