import Mathlib
import SiteConfig.Proofs.Relayout
import SiteConfig.Proofs.Statements

/-!
A script is read from its layout as it is shown, unless a statement is taken for another one there
or a kept text runs on.
-/

set_option mvcgen.warning false

namespace SiteConfig

namespace Script

/-- In front of `rest` the text is read again as it was, from its first character to its last. The
line that names the interpreter is read where only comments stand before it. -/
inductive KeptAgain (rest : List Char) : Bool → String → Prop where
  | statement (first : Bool) {text : String}
    (h : ∀ ⦃n : Nat⦄ ⦃c : Cursor⦄, 4 * c.left < n → c.rest = text.toList ++ rest →
      AtStart c ∧ ∃ c', (Statement.read (.ofDepth n)).run c = some (.verbatim text, c') ∧
        c'.rest = rest) :
    KeptAgain rest first text
  | page (first : Bool) {text : String}
    (h : Lexeme.pageComment (text.toList ++ rest) = some text.toList.length) :
    KeptAgain rest first text
  | interpreter {text : String}
    (h : Lexeme.interpreterLine (text.toList ++ rest) = some text.toList.length) :
    KeptAgain rest true text

/-- In front of `rest` the text of a statement is not read again as it was. -/
def Statement.RunsOn (rest : List Char) (first : Bool) (text : String) : Prop :=
  (∃ n, (Grammar.ofDepth n).KeepsStatement text) ∧ ¬KeptAgain rest first text

theorem Statement.keptAgain {rest : List Char} {first : Bool} {text : String}
    (hp : ∃ n, (Grammar.ofDepth n).KeepsStatement text) (h : ¬RunsOn rest first text) :
    KeptAgain rest first text :=
  by_contra fun hnot => h ⟨hp, hnot⟩

end Script

open Script

/-- No expression that is a statement is taken for another one, and neither the text of a statement
nor a piece of an expression that is kept runs on. Behind the statement stands `rest`. -/
inductive StatementBody.Settled (rest : List Char) (first : Bool) : StatementBody Tree → Prop where
  | expression {t : Tree} (ht : t.Settled true .alone)
    (hs : ∀ ⦃n : Nat⦄ ⦃c : Cursor⦄, c.rest = (t.layout 0 0).toList ++ ';' :: rest →
      (Statement.read (.ofDepth n)).run c = (Statement.expressionStatement (.ofDepth n)).run c) :
    Settled rest first (.expression t)
  | verbatim {text : String} (h : ¬Statement.RunsOn rest first text) :
    Settled rest first (.verbatim text)

/-- What stands for a name, a key, a comment or a kept piece in the statement is one. -/
inductive StatementBody.Lexical : StatementBody Tree → Prop where
  | expression {t : Tree} (ht : t.Lexical) (hk : Place.alone.admits t.kind) :
    Lexical (.expression t)
  | verbatim {text : String} {n : Nat} (h : (Grammar.ofDepth n).KeepsStatement text) :
    Lexical (.verbatim text)

namespace Program

/-- Each statement is settled in front of what the layout writes behind it. -/
def SettledFrom (stop : List Char) : Bool → List (Statement Tree) → Prop
  | _, [] => True
  | first, s :: rest =>
    s.body.Settled (behindItem layoutStatement (·.trivia) "" 0 stop s rest) first ∧
      SettledFrom stop false rest

/-- No statement of the script is taken for another one where the layout writes it, and nothing that
is kept as its text runs on. -/
def Settled (p : Program Tree) : Prop :=
  SettledFrom (Layout.commentLines 0 (!p.statements.isEmpty) p.dangling).toList true p.statements

/-- What stands for a name, a key, a comment or a kept piece in the script is one. -/
structure Lexical (p : Program Tree) : Prop where
  statements : ∀ s ∈ p.statements, s.body.Lexical
  trivia : ∀ s ∈ p.statements, s.trivia.Plain
  dangling : ∀ c ∈ p.dangling, IsComment c.text

end Program

namespace Script
open Text Layout SiteConfig.Tree

variable {c c' : Cursor} {blank rest : List Char} {fuel n bound : Nat}

namespace Grammar

variable {g : Grammar}

/-- One statement, or a comment of the page in its place. -/
def item (g : Grammar) : Scan (StatementBody Tree) := do
  let start ← get
  match Lexeme.pageComment start.rest with
  | some k => do
    Scan.skip k
    pure (.verbatim (start.slice (← get)))
  | none => g.statement

theorem statements_comment {text : String} (h : c.rest = blank ++ (text.toList ++ '\n' :: rest))
    (hb : Blank blank) (ht : IsComment text) :
    ∃ c', c.Reaches c' ∧ c'.rest = '\n' :: rest ∧
      (statements g [] (fuel + 1)).run c = ((statements g [] fuel).run c').map fun out =>
        ([.comment text (c.rowBehind blank) (c.rowBehind blank + Piece.height text)] ++ out.1,
          out.2) := by
  obtain ⟨hblank, hcomment, hreach, hstop, hslice, hline, hline'⟩ := Cursor.comment_ahead h hb ht
  refine ⟨_, hreach, hstop, ?_⟩
  rw [statements, Scan.run_bind (Scan.run_rest c), hblank, Scan.run_bind (Scan.run_skip _ c),
    Scan.run_bind (Scan.run_get _)]
  simp only [hcomment]
  rw [Scan.run_bind (Scan.run_skip _ _), Scan.run_bind (Scan.run_get _), Scan.run_bind_pure,
    hslice, hline', hline]
  rfl

theorem statements_item {text : List Char} {body : StatementBody Tree}
    (h : c.rest = blank ++ (text ++ rest)) (hb : Blank blank)
    (hs : AtToken (c.forward blank.length))
    (hhead : text ++ rest ≠ [] ∧ (text ++ rest).head? ≠ some '\x7d')
    (hread : g.item.run (c.forward blank.length) = some (body, c'))
    (hreach : (c.forward blank.length).Reaches c') (hrest : c'.rest = rest) :
    (statements g [] (fuel + 1)).run c = ((statements g [] fuel).run c').map fun out =>
      ([.item body (c.rowBehind blank) (c.rowBehind blank + text.count '\n')] ++ out.1, out.2) := by
  have hstart := Cursor.rest_behind h
  have hblank := hs.run_blank h hb
  have hline := (Cursor.Reaches.forward c blank.length).line (by rw [hstart, h])
  have hline' := hreach.line (by rw [hrest, hstart])
  have hnonempty : (text ++ rest).isEmpty = false := by simpa using hhead.1
  have hstops : (Scan.wordOf (text ++ rest)).any ([] : List String).contains = false := by
    cases Scan.wordOf (text ++ rest) <;> rfl
  have hcomment := hs.comment
  rw [item, Scan.run_bind (Scan.run_get _), hstart] at hread
  rw [hstart] at hcomment
  rw [statements, Scan.run_bind (Scan.run_rest c), hblank, Scan.run_bind (Scan.run_skip _ c),
    Scan.run_bind (Scan.run_get _), hstart]
  simp only [hcomment, hnonempty, decide_eq_false hhead.2, hstops, Bool.or_self,
    Bool.false_eq_true, if_false]
  cases hpage : Lexeme.pageComment (text ++ rest) with
  | none =>
    rw [hpage] at hread
    simp only
    rw [Scan.run_bind hread, Scan.run_bind (Scan.run_get _), Scan.run_bind_pure, hline', hline]
    rfl
  | some k =>
    rw [hpage] at hread
    simp only at hread ⊢
    rw [Scan.run_bind (Scan.run_skip _ _), Scan.run_bind (Scan.run_get _)] at hread ⊢
    obtain ⟨rfl, rfl⟩ := Prod.mk.inj (Option.some.inj hread)
    rw [Scan.run_bind (Scan.run_pure _ _), Scan.run_bind (Scan.run_get _), Scan.run_bind_pure,
      hline', hline]
    rfl

theorem statements_end (h : c.rest = blank) (hb : Blank blank) :
    (statements g [] (fuel + 1)).run c = some ([], c.forward blank.length) := by
  have hblank : Lexeme.run isBlank c.rest = blank.length := by
    rw [h]
    have := @Lexeme.run_append isBlank blank [] hb (by simp)
    rwa [List.append_nil] at this
  have hrest : (c.forward blank.length).rest = [] := by
    rw [Cursor.rest_forward, h, List.drop_length]
  rw [statements, Scan.run_bind (Scan.run_rest c), hblank, Scan.run_bind (Scan.run_skip _ c),
    Scan.run_bind (Scan.run_get _), hrest]
  rfl

theorem prepends : Prepends (fun (s t : List (Piece (StatementBody Tree))) => s ++ t) where
  nil _ := rfl
  append s t l := List.append_assoc s t l

/-! Statements. -/

/-- With `rest` behind it the statement is read here as it is shown, and no line that names an
interpreter is. -/
structure ItemBack (n : Nat) (c : Cursor) (rest : List Char) (body : StatementBody Tree) :
    Prop where
  token : AtToken c
  text : c.rest ≠ [] ∧ c.rest.head? ≠ some '\x7d'
  line : Lexeme.interpreterLine c.rest = none
  run : ∃ body' c', (Grammar.ofDepth n).item.run c = some (body', c') ∧ c'.rest = rest ∧
    c'.left < c.left ∧ Program.strippedBody id body' = Program.shownBody body

theorem left_lt_of_rest {text : List Char} (ht : text ≠ []) (h : c.rest = text ++ rest)
    (h' : c'.rest = rest) : c'.left < c.left := by
  rw [c.left_eq, c'.left_eq, h, h', List.length_append]
  have := List.length_pos_iff.mpr ht
  omega

/-- A comment of the page in the place of a statement. -/
theorem itemBack_page {text : String} (h : c.rest = text.toList ++ rest)
    (hpage : Lexeme.pageComment (text.toList ++ rest) = some text.toList.length) :
    ItemBack n c rest (.verbatim text) := by
  obtain ⟨ch, cs, hhead, hch⟩ : ∃ ch cs, c.rest = ch :: cs ∧ (ch = '<' ∨ ch = '-') := by
    rw [h]
    unfold Lexeme.pageComment at hpage
    split at hpage
    · next heq => exact ⟨_, _, heq, .inl rfl⟩
    · next heq => exact ⟨_, _, heq, .inr rfl⟩
    · cases hpage
  rw [← h] at hpage
  have hslice := (Cursor.Reaches.forward c text.toList.length).slice
    (by rw [Cursor.rest_behind h, h])
  refine ⟨?_, ⟨by simp [hhead], ?_⟩, interpreterLine_none ?_, .verbatim text,
    c.forward text.toList.length, ?_, Cursor.rest_behind h, ?_, rfl⟩
  · constructor <;> rw [hhead] <;> rcases hch with rfl | rfl <;> rfl
  · rw [hhead]
    rcases hch with rfl | rfl <;> simp
  · rw [hhead]
    rcases hch with rfl | rfl <;> simp
  · rw [item, Scan.run_bind (Scan.run_get c), hpage]
    simp only
    rw [Scan.run_bind (Scan.run_skip _ _), Scan.run_bind (Scan.run_get _), hslice,
      String.ofList_toList, Scan.run_pure]
  · exact Cursor.left_forward_lt (by simp [hhead]) (pageComment_pos hpage).1

/-- A statement that is kept as its text, but for a line that names an interpreter. -/
theorem itemBack_kept {text : String} (hagain : KeptAgain rest false text)
    (hblank : ∃ ch tail, rest = ch :: tail ∧ isBlank ch) (hn : 4 * c.left < n)
    (h : c.rest = text.toList ++ rest) : ItemBack (n + 2) c rest (.verbatim text) := by
  cases hagain with
  | page _ hpage => exact itemBack_page h hpage
  | statement _ hread =>
    obtain ⟨hc, c', hrun, hrest⟩ := hread (n := n + 1) (by omega) h
    obtain ⟨hne, hbrace, hline⟩ := Statement.head_read hc hrun
    refine ⟨hc.toAtToken, ⟨hne, hbrace⟩, hline, .verbatim text, c', ?_, hrest, ?_, rfl⟩
    · rw [item, Scan.run_bind (Scan.run_get c), hc.page]
      exact hrun
    · refine left_lt_of_rest (fun hnil => ?_) h hrest
      -- blanks stand behind a statement, and none starts with one
      obtain ⟨ch, tail, hrest', hch⟩ := hblank
      have hstart := hc.blank
      rw [h, hnil, hrest'] at hstart
      simp [Lexeme.run, hch] at hstart

/-- A statement is read back, but for a line that names an interpreter. -/
theorem itemBack {s : Statement Tree} (hs : s.body.Settled rest false) (hl : s.body.Lexical)
    (hblank : ∃ ch tail, rest = ch :: tail ∧ isBlank ch) (hn : 4 * c.left < n)
    (h : c.rest = (Program.layoutStatement s).toList ++ rest) :
    ItemBack (n + 2) c rest s.body := by
  obtain ⟨body, trivia⟩ := s
  cases hl with
  | verbatim hp =>
    cases hs with
    | verbatim hs => exact itemBack_kept (Statement.keptAgain ⟨_, hp⟩ hs) hblank hn h
  | @expression t hlexical hadmits =>
    cases hs with
    | expression ht hs =>
    have htext : c.rest = (t.layout 0 0).toList ++ ';' :: rest := by
      rw [h, Program.layoutStatement]
      simp [String.toList_append]
    have hback := readsBack_settled ht hlexical hadmits (by rintro ⟨⟩) (by rintro ⟨⟩)
    obtain ⟨hc, o, c', hrun, hrest, htree⟩ := expressionStatement_run hback hn htext
    have hread := (hs htext).trans hrun
    obtain ⟨hne, hbrace, hline⟩ := Statement.head_read hc hread
    refine ⟨hc.toAtToken, ⟨hne, hbrace⟩, hline, .expression o, c', ?_, hrest, ?_, ?_⟩
    · rw [item, Scan.run_bind (Scan.run_get c), hc.page]
      exact hread
    · exact left_lt_of_rest (by simp [Program.layoutStatement]) h hrest
    · rw [Program.strippedBody, htree, Program.shownBody]

/-- The pieces of a script from a place on. In a script with a line that names an interpreter, that
line comes first. -/
def piecesFrom (g : Grammar) (named begun : Bool) (fuel : Nat) :
    Scan (List (Piece (StatementBody Tree))) :=
  if named && !begun then do
    let leading ← program.interpreterPieces fuel
    let rest ← g.statements [] g.room
    pure (leading ++ rest)
  else g.statements [] fuel

theorem interpreterPieces_comment (fuel : Nat) {text : String}
    (h : c.rest = blank ++ (text.toList ++ '\n' :: rest)) (hb : Blank blank) (ht : IsComment text) :
    ∃ c', c.Reaches c' ∧ c'.rest = '\n' :: rest ∧
      (program.interpreterPieces (fuel + 1)).run c =
        ((program.interpreterPieces fuel).run c').map fun out =>
          ([.comment text (c.rowBehind blank) (c.rowBehind blank + Piece.height text)] ++ out.1,
            out.2) := by
  obtain ⟨hblank, hcomment, hreach, hstop, hslice, hline, hline'⟩ := Cursor.comment_ahead h hb ht
  refine ⟨_, hreach, hstop, ?_⟩
  rw [program.interpreterPieces, Scan.run_bind (Scan.run_rest c), hblank,
    Scan.run_bind (Scan.run_skip _ c), Scan.run_bind (Scan.run_get _)]
  simp only [hcomment]
  rw [Scan.run_bind (Scan.run_skip _ _), Scan.run_bind (Scan.run_get _), Scan.run_bind_pure,
    hslice, hline', hline]
  rfl

theorem readsComments_pieces (named begun : Bool) :
    ReadsComments (piecesFrom g named begun) (fun s t => s ++ t) := by
  intro c blank rest text fuel h hb ht
  unfold piecesFrom
  cases hnamed : named && !begun with
  | false => exact statements_comment h hb ht
  | true =>
    obtain ⟨c', hreach, hrest, hrun⟩ := interpreterPieces_comment fuel h hb ht
    refine ⟨c', hreach, hrest, ?_⟩
    simp only [if_true, StateT.run_bind, hrun]
    cases (program.interpreterPieces fuel).run c' with
    | none => rfl
    | some out =>
      cases hstatements : (g.statements [] g.room).run out.2 with
      | none => simp [hstatements]
      | some more => simp [hstatements]

theorem ahead_item [g.Advances] {c₀ : Cursor} : Scan.Ahead c₀ g.item := by
  mvcgen [item]
  all_goals grind

/-- A line that names an interpreter starts with a mark and goes on to the line end. -/
theorem interpreterLine_text {text : String}
    (h : Lexeme.interpreterLine (text.toList ++ rest) = some text.toList.length) :
    (Lexeme.run isBlank (text.toList ++ rest) = 0 ∧
      Lexeme.comment (text.toList ++ rest) = none) ∧ text.toList.count '\n' = 0 := by
  unfold Lexeme.interpreterLine at h
  split at h
  · next tail heq =>
    have hlength := Option.some.inj h
    have htext : text.toList = '#' :: '!' :: tail.takeWhile (· != '\n') := by
      have htake := congrArg (List.take text.toList.length) heq
      rwa [List.take_left, ← hlength, Nat.add_comm, List.take_succ_cons, List.take_succ_cons,
        Lexeme.run, ← List.prefix_iff_eq_take.mp (List.takeWhile_prefix _)] at htake
    refine ⟨by rw [heq]; exact ⟨rfl, rfl⟩, ?_⟩
    have hnone : '\n' ∉ tail.takeWhile (· != '\n') := by
      intro hmem
      simpa using List.mem_takeWhile_imp hmem
    rw [htext, List.count_eq_zero]
    simp [hnone]
  · cases h

/-- A statement behind which the reader goes on with the next. -/
theorem readsItem_statement {s : Statement Tree} {named begun : Bool}
    (hnamed : (named && !begun) = false) (hs : s.body.Settled rest false)
    (hl : s.body.Lexical)
    (hblank : ∃ ch tail, rest = ch :: tail ∧ isBlank ch) (hn : 4 * bound < n) :
    ReadsItem (piecesFrom (.ofDepth (n + 2)) named) (· ++ ·)
      (fun body s => Program.strippedBody id body = Program.shownBody s.body)
      Program.layoutStatement "" bound begun rest s := by
  intro c blank fuel h hb hbound hfuel
  have hsplit : c.rest = blank ++ ((Program.layoutStatement s).toList ++ rest) := by
    simpa using h
  have hreach := Cursor.Reaches.forward c blank.length
  have hle := hreach.left_le
  have hbehind := Cursor.rest_behind hsplit
  obtain ⟨htoken, ⟨hne, hbrace⟩, -, body, c', hrun, hrest, hlt, hfits⟩ :=
    itemBack (n := n) hs hl hblank (by omega) hbehind
  have hahead : Scan.Ahead (c.forward blank.length) (Grammar.ofDepth (n + 2)).item := ahead_item
  have hreach' := Scan.triple_iff.mp hahead _ (.refl _) _ _ hrun
  obtain ⟨fuel, rfl⟩ : ∃ k, fuel = k + 1 := ⟨fuel - 1, by omega⟩
  rw [hbehind] at hne hbrace
  refine ⟨body, c', fuel, hfits, hreach.trans hreach', hrest, by omega, ?_⟩
  simp only [piecesFrom, hnamed, Bool.not_true, Bool.and_false, Bool.false_eq_true, if_false]
  exact statements_item hsplit hb htoken ⟨hne, hbrace⟩ hrun hreach' hrest

/-- The line that names an interpreter comes first. -/
theorem readsItem_interpreter {text : String} {trivia : Trivia}
    (h : Lexeme.interpreterLine (text.toList ++ rest) = some text.toList.length)
    (hn : bound < n) :
    ReadsItem (piecesFrom (.ofDepth n) true) (· ++ ·)
      (fun body s => Program.strippedBody id body = Program.shownBody s.body)
      Program.layoutStatement "" bound false rest ⟨.verbatim text, trivia⟩ := by
  intro c blank fuel hrest hb hbound hfuel
  have hsplit : c.rest = blank ++ (text.toList ++ rest) := by
    simpa [Program.layoutStatement] using hrest
  have hbehind := Cursor.rest_behind hsplit
  obtain ⟨htoken, hline⟩ := interpreterLine_text h
  have htoken' : AtToken (c.forward blank.length) := ⟨hbehind ▸ htoken.1, hbehind ▸ htoken.2⟩
  have hblank := htoken'.run_blank hsplit hb
  have hlexeme := Scan.run_lexeme hbehind h
  have hreach := Cursor.Reaches.forward c blank.length
  have hreach' := Cursor.Reaches.forward (c.forward blank.length) text.toList.length
  have hstart := hreach.line (by rw [hbehind, hsplit])
  obtain ⟨fuel, rfl⟩ : ∃ k, fuel = k + 1 := ⟨fuel - 1, by omega⟩
  have hle := (hreach.trans hreach').left_le
  refine ⟨.verbatim text, _, n, rfl, hreach.trans hreach', Cursor.rest_behind hbehind, by omega, ?_⟩
  have hpieces : (program.interpreterPieces (fuel + 1)).run c =
      some ([.item (.verbatim text) (c.rowBehind blank) (c.rowBehind blank)],
        (c.forward blank.length).forward text.toList.length) := by
    rw [program.interpreterPieces, Scan.run_bind (Scan.run_rest c), hblank,
      Scan.run_bind (Scan.run_skip _ c), Scan.run_bind (Scan.run_get _)]
    simp only [htoken'.comment]
    rw [Scan.run_bind hlexeme, Scan.run_pure, String.ofList_toList, hstart]
    rfl
  simp only [piecesFrom, Bool.not_false, Bool.and_self, if_true, Bool.not_true, Bool.and_false,
    Bool.false_eq_true, if_false]
  rw [Scan.run_bind hpieces, Scan.run_bind_pure, Program.layoutStatement, Piece.height, hline,
    Nat.add_zero, room_ofDepth]

/-- Behind a statement and its comment stands a line end. -/
theorem behindItem_blank (stop : List Char) (s : Statement Tree)
    (statements : List (Statement Tree)) :
    ∃ ch tail, behindItem Program.layoutStatement (·.trivia) "" 0 stop s statements = ch :: tail ∧
      isBlank ch := by
  rw [behindItem, trailing]
  cases s.trivia.trailing with
  | none => exact ⟨'\n', _, rfl, rfl⟩
  | some comment => exact ⟨' ', _, by rw [String.toList_append]; rfl, rfl⟩

/-- The first statement is a line that names an interpreter, or is read as any other. -/
theorem start_cases {s : Statement Tree} (hs : s.body.Settled rest true) (hl : s.body.Lexical)
    (hblank : ∃ ch tail, rest = ch :: tail ∧ isBlank ch)
    (h : c.rest = (Program.layoutStatement s).toList ++ rest) :
    AtToken c ∧ ((Lexeme.interpreterLine c.rest).isSome = false ∧ s.body.Settled rest false ∨
      (Lexeme.interpreterLine c.rest).isSome = true ∧ ∃ text, s.body = .verbatim text ∧
        Lexeme.interpreterLine (text.toList ++ rest) = some text.toList.length) := by
  suffices hcases : s.body.Settled rest false ∨ ∃ text, s.body = .verbatim text ∧
      Lexeme.interpreterLine (text.toList ++ rest) = some text.toList.length by
    rcases hcases with hs | ⟨text, hbody, htext⟩
    · have hback := itemBack (n := 4 * c.left + 1) hs hl hblank (by omega) h
      exact ⟨hback.token, .inl ⟨by rw [hback.line]; rfl, hs⟩⟩
    · have hrest : c.rest = text.toList ++ rest := by rw [h, Program.layoutStatement, hbody]
      obtain ⟨htoken, -⟩ := interpreterLine_text htext
      rw [← hrest] at htoken
      exact ⟨⟨htoken.1, htoken.2⟩, .inr ⟨by rw [hrest, htext]; rfl, text, hbody, htext⟩⟩
  obtain ⟨body, trivia⟩ := s
  have hagain : ∀ {text : String}, KeptAgain rest false text →
      StatementBody.Settled rest false (.verbatim text) := fun h =>
    .verbatim fun hnot => hnot.2 h
  cases hs with
  | expression ht hs => exact .inl (.expression ht hs)
  | verbatim hs =>
    cases hl with
    | verbatim hp =>
      cases Statement.keptAgain ⟨_, hp⟩ hs with
      | statement _ hread => exact .inl (hagain (.statement false hread))
      | page _ hpage => exact .inl (hagain (.page false hpage))
      | interpreter hline => exact .inr ⟨_, rfl, hline⟩

theorem readsItems_statements (named : Bool) {stop : List Char}
    {statements : List (Statement Tree)} (hs : Program.SettledFrom stop false statements)
    (hl : ∀ s ∈ statements, s.body.Lexical) (hn : 4 * bound < n) :
    ReadsItems (piecesFrom (.ofDepth (n + 2)) named) (· ++ ·)
      (fun body s => Program.strippedBody id body = Program.shownBody s.body)
      Program.layoutStatement (·.trivia) "" bound 0 stop true statements := by
  induction statements with
  | nil => trivial
  | cons s statements ih =>
    obtain ⟨hfirst, hrest⟩ := hs
    obtain ⟨hlexical, hl⟩ := List.forall_mem_cons.mp hl
    have hnamed : (named && !true) = false := by simp
    exact ⟨readsItem_statement hnamed hfirst hlexical (behindItem_blank stop s statements) hn,
      ih hrest hl⟩

end Grammar

/-! The start of a script. -/

theorem drop_gap_blanks (hb : Blank blank) (cs : List Char) :
    (blank ++ cs).drop (Lexeme.gap (blank ++ cs)) = cs.drop (Lexeme.gap cs) := by
  induction blank with
  | nil => rfl
  | cons ch blank ih =>
    have hrest := ih fun d hd => hb d (List.mem_cons_of_mem ch hd)
    rw [List.cons_append, Lexeme.drop_gap_blank (hb ch List.mem_cons_self), hrest]

theorem drop_gap_comments {depth : Nat} {begun : Bool} {comments : List Comment}
    (hcomments : ∀ c ∈ comments, IsComment c.text) (cs : List Char) :
    ((commentLines depth begun comments).toList ++ cs).drop
        (Lexeme.gap ((commentLines depth begun comments).toList ++ cs)) =
      cs.drop (Lexeme.gap cs) := by
  induction comments generalizing begun with
  | nil => simp [commentLines]
  | cons comment comments ih =>
    obtain ⟨hcomment, hcomments⟩ := List.forall_mem_cons.mp hcomments
    have hsplit : (commentLines depth begun (comment :: comments)).toList ++ cs =
        ((if comment.spaced && begun then "\n" else "") ++ indent depth).toList ++
          (comment.text.toList ++ '\n' :: ((commentLines depth true comments).toList ++ cs)) := by
      rw [commentLines, commentLine]
      simp [String.toList_append]
    rw [hsplit, drop_gap_blanks (blank_before depth _).1, Lexeme.drop_gap_comment hcomment,
      Lexeme.drop_gap_blank rfl, ih hcomments]

theorem layout_split (p : Program Tree) :
    p.layout.toList = (lines 0 "" false (p.statements.map fun s =>
        (Program.layoutStatement s, s.trivia))).toList ++
      (commentLines 0 (!p.statements.isEmpty) p.dangling).toList := by
  rw [Program.layout, layoutStatements_eq_lines, String.toList_append]

theorem layout_cons {p : Program Tree} {s : Statement Tree} {statements : List (Statement Tree)}
    (h : p.statements = s :: statements) :
    p.layout.toList = (commentLines 0 false s.trivia.leading).toList ++
      (((if s.trivia.spaced && (false || !s.trivia.leading.isEmpty) then "\n" else "") ++
          indent 0).toList ++
        ((Program.layoutStatement s).toList ++ behindItem Program.layoutStatement (·.trivia) "" 0
          (commentLines 0 (!p.statements.isEmpty) p.dangling).toList s statements)) := by
  rw [layout_split, h, List.map_cons, lines, leading, behindItem]
  simp [String.toList_append]

/-- A comment starts with no byte order mark, nor does a token. -/
theorem head_comments_ne {comments : List Comment} {cs : List Char}
    (hcomments : ∀ c ∈ comments, IsComment c.text)
    (h : comments = [] → cs.head? ≠ some '\ufeff') :
    ((commentLines 0 false comments).toList ++ cs).head? ≠ some '\ufeff' := by
  cases comments with
  | nil => simpa [commentLines] using h rfl
  | cons c comments =>
    have hslash := Lexeme.head_of_comment (hcomments c List.mem_cons_self)
    rw [commentLines, commentLine, Bool.and_false]
    simp [String.toList_append, indent, List.head?_append, hslash]

theorem AtToken.head_ne (hc : AtToken c) {ch : Char} (hch : isBlank ch) :
    c.rest.head? ≠ some ch := by
  intro hhead
  obtain ⟨tail, hrest⟩ := List.head?_eq_some_iff.mp hhead
  have hblank := hc.blank
  simp [hrest, Lexeme.run, hch] at hblank

/-- Whether a line that names an interpreter comes first, all that follows is read back. -/
theorem start_layout {p : Program Tree} (hl : p.Lexical) (hs : p.Settled) :
    p.layout.toList.head? ≠ some '\ufeff' ∧
      (p.statements = [] → (Lexeme.interpreterLine
        (p.layout.toList.drop (Lexeme.gap p.layout.toList))).isSome = false) ∧
      ∀ bound n, 4 * bound < n →
      ReadsItems (Grammar.piecesFrom (.ofDepth (n + 2)) (Lexeme.interpreterLine
          (p.layout.toList.drop (Lexeme.gap p.layout.toList))).isSome) (· ++ ·)
        (fun body s => Program.strippedBody id body = Program.shownBody s.body)
        Program.layoutStatement (·.trivia) "" bound 0
        (commentLines 0 (!p.statements.isEmpty) p.dangling).toList false p.statements := by
  cases hstatements : p.statements with
  | nil =>
    have hlayout : p.layout.toList = (commentLines 0 false p.dangling).toList ++ [] := by
      rw [layout_split, hstatements]
      simp [lines]
    refine ⟨?_, fun _ => ?_, fun _ _ _ => trivial⟩
    · rw [hlayout]
      exact head_comments_ne hl.dangling (by simp)
    · rw [hlayout, drop_gap_comments hl.dangling]
      rfl
  | cons s statements =>
    have hlayout := layout_cons hstatements
    have hmem : s ∈ p.statements := by rw [hstatements]; exact List.mem_cons_self
    have hleading := (hl.trivia s hmem).leading
    rw [Program.Settled, hstatements] at hs
    obtain ⟨hfirst, hrest⟩ := hs
    have hlexical : ∀ s' ∈ statements, s'.body.Lexical := fun s' hs' =>
      hl.statements s' (by rw [hstatements]; exact List.mem_cons_of_mem s hs')
    rw [hstatements] at hlayout
    have hblank := Grammar.behindItem_blank
      (commentLines 0 (!(s :: statements).isEmpty) p.dangling).toList s statements
    generalize hbehind : behindItem Program.layoutStatement (·.trivia) "" 0
      (commentLines 0 (!(s :: statements).isEmpty) p.dangling).toList s statements = behind
      at hlayout hfirst hblank
    -- a place in front of the first statement
    obtain ⟨c, hc⟩ : ∃ c : Cursor, c.rest = (Program.layoutStatement s).toList ++ behind :=
      ⟨⟨_, .first, _, rfl⟩, rfl⟩
    obtain ⟨htoken, hcases⟩ := Grammar.start_cases hfirst (hl.statements s hmem) hblank hc
    have hdrop : p.layout.toList.drop (Lexeme.gap p.layout.toList) = c.rest := by
      rw [hlayout, drop_gap_comments hleading, drop_gap_blanks (blank_before 0 _).1, ← hc,
        gap_atToken htoken, List.drop_zero]
    refine ⟨?_, by rintro ⟨⟩, fun bound n hn =>
      ⟨?_, Grammar.readsItems_statements _ hrest hlexical hn⟩⟩
    · rw [hlayout]
      refine head_comments_ne hleading fun hnil => ?_
      have hhead := htoken.head_ne (show isBlank '\ufeff' from rfl)
      simpa [hnil, indent, ← hc] using hhead
    · rw [hdrop, hbehind]
      rcases hcases with ⟨hline, hfirst⟩ | ⟨hline, text, hbody, htext⟩
      · rw [hline]
        exact Grammar.readsItem_statement rfl hfirst (hl.statements s hmem) hblank hn
      · obtain ⟨body, trivia⟩ := s
        obtain rfl : body = .verbatim text := hbody
        rw [hline]
        exact Grammar.readsItem_interpreter htext (by omega)

theorem program_eq (g : Grammar) : program g = (do
    let start ← get
    let named := (Lexeme.interpreterLine (start.rest.drop (Lexeme.gap start.rest))).isSome
    let pieces ← g.piecesFrom named false g.room
    Scan.gap
    guard (← Scan.rest).isEmpty
    let (items, dangling) := Piece.attach pieces
    return { statements := items.map fun (body, trivia) => { body, trivia }, dangling }) := by
  rw [program]
  congr 1
  funext start
  simp only [Grammar.piecesFrom, Bool.not_false, Bool.and_true]
  split <;> simp

/-- The statements of a script are read from its layout, each with its comments. -/
theorem read_pieces {p : Program Tree} (hl : p.Lexical) (hs : p.Settled)
    (h : c.rest = p.layout.toList) (hn : 4 * c.left < n) :
    ∃ bodies pieces c', (Grammar.piecesFrom (.ofDepth (n + 2))
        (Lexeme.interpreterLine (c.rest.drop (Lexeme.gap c.rest))).isSome false (n + 2)).run c =
        some (pieces, c') ∧ c'.rest = [] ∧
      List.Forall₂ (fun body s => Program.strippedBody id body = Program.shownBody s.body) bodies
        p.statements ∧
      Piece.attach pieces =
        (Piece.shownItems false (List.zipWith (fun body s =>
          (body, Piece.height (Program.layoutStatement s), s.trivia)) bodies p.statements),
          Comment.shown (!p.statements.isEmpty) p.dangling) := by
  obtain ⟨-, hnamed, hitems⟩ := start_layout hl hs
  replace hitems := hitems c.left n hn
  rw [← h] at hitems hnamed
  generalize (Lexeme.interpreterLine (c.rest.drop (Lexeme.gap c.rest))).isSome = named
    at hitems hnamed ⊢
  have hsplit : c.rest = [] ++ ((lines 0 "" false (p.statements.map fun s =>
        (Program.layoutStatement s, s.trivia))).toList ++
      (commentLines 0 (!p.statements.isEmpty) p.dangling).toList) :=
    h.trans (layout_split p)
  obtain ⟨bodies, c₁, blank₁, fuel₁, hbodies, hreach₁, hrest₁, hblank₁, hfuel₁, hrow₁, hrun₁⟩ :=
    read_lines (Grammar.readsComments_pieces named) Grammar.prepends rfl hitems hl.trivia hsplit
      blank_nil (Nat.le_refl _) (show c.left < n + 2 by omega)
  rw [← List.append_nil (commentLines 0 _ p.dangling).toList] at hrest₁
  obtain ⟨c₂, blank₂, fuel₂, hreach₂, hrest₂, hblank₂, hfuel₂, -, hrun₂⟩ :=
    read_comments (Grammar.piecesFrom (.ofDepth (n + 2)) named (false || !p.statements.isEmpty))
      (Grammar.readsComments_pieces named _) Grammar.prepends hl.dangling hrest₁ hblank₁ hfuel₁
  obtain ⟨fuel₂, rfl⟩ : ∃ k, fuel₂ = k + 1 := ⟨fuel₂ - 1, by omega⟩
  rw [List.append_nil] at hrest₂
  have hpieces : (Grammar.piecesFrom (.ofDepth (n + 2)) named (false || !p.statements.isEmpty)
      (fuel₂ + 1)).run c₂ = some ([], c₂.forward blank₂.length) := by
    have hbegun : (named && !(false || !p.statements.isEmpty)) = false := by
      cases hstatements : p.statements with
      | nil => simp [hnamed hstatements]
      | cons => simp
    simp only [Grammar.piecesFrom, hbegun, Bool.false_eq_true, if_false]
    exact Grammar.statements_end hrest₂ hblank₂
  have hattach := Piece.attachFrom_ofItems (.first (c.rowBehind []))
    (List.zipWith (fun body s => (body, Piece.height (Program.layoutStatement s), s.trivia)) bodies
      p.statements) p.dangling
  rw [Listing.isEmpty_zipWith hbodies fun s =>
    (Piece.height (Program.layoutStatement s), s.trivia), ← hrow₁] at hattach
  -- first the statements, then the comments behind the last one, then the end
  simp only [hrun₁, hrun₂, hpieces, Option.map_some, List.append_nil]
  refine ⟨bodies, _, _, rfl, ?_, hbodies, hattach⟩
  rw [Cursor.rest_forward, hrest₂, List.drop_length]

theorem statements_shown {bodies : List (StatementBody Tree)} {statements : List (Statement Tree)}
    (h : List.Forall₂ (fun body s => Program.strippedBody id body = Program.shownBody s.body) bodies
      statements) (begun : Bool) (f : Statement Tree → Nat) :
    ((Piece.shownItems begun (List.zipWith (fun body s => (body, f s, s.trivia)) bodies
        statements)).map fun item =>
          Program.strippedStatement id { body := item.1, trivia := item.2 }) =
      Program.shownStatements begun statements := by
  induction h generalizing begun with
  | nil => rfl
  | cons h _ ih =>
    rw [List.zipWith_cons_cons, Piece.shownItems, List.map_cons, ih, Program.shownStatements,
      Program.strippedStatement, Trivia.flagged_id, h]

end Script

namespace Program
open Script

theorem cursor_layout {p : Program Tree} (hl : p.Lexical) (hs : p.Settled) :
    (Cursor.ofString p.layout).rest = p.layout.toList := by
  have hmark := (start_layout hl hs).1
  rw [Cursor.ofString]
  split
  · next heq =>
    rw [heq] at hmark
    exact absurd rfl hmark
  · rfl

/-- The layout of a script is read as it is shown. -/
theorem ofSource?_layout {p : Program Tree} (hl : p.Lexical) (hs : p.Settled) :
    ∃ q, ofSource? p.layout = some q ∧ q.unplaced = p.shown := by
  have hrest := cursor_layout hl hs
  generalize hstart : Cursor.ofString p.layout = start at hrest
  have hleft := start.left_eq
  obtain ⟨n, hn⟩ : ∃ n, depthFor start.rest = n + 2 := ⟨4 * start.rest.length + 14, rfl⟩
  obtain ⟨bodies, pieces, stop, hrun, hstop, hbodies, hattach⟩ :=
    read_pieces (n := n) hl hs hrest (by simp only [depthFor] at hn; omega)
  have hgap : Scan.gap.run stop = some ((), stop.forward 0) := by
    rw [Scan.gap, Scan.run_bind (Scan.run_rest stop), hstop]
    rfl
  have hprogram : (program (.ofDepth (n + 2))).run start = some
      ({ statements := (Piece.attach pieces).1.map fun item => { body := item.1, trivia := item.2 }
         dangling := (Piece.attach pieces).2 }, stop.forward 0) := by
    rw [program_eq, Scan.run_bind (Scan.run_get start)]
    simp only [Grammar.room_ofDepth]
    rw [Scan.run_bind hrun, Scan.run_bind hgap, Scan.run_bind (Scan.run_rest _)]
    simp only [Cursor.forward_zero, hstop, List.isEmpty_nil]
    rw [Scan.run_bind (Scan.run_guard trivial _), Scan.run_pure]
  refine ⟨_, by rw [ofSource?, hstart, hn, hprogram, Option.map_some], ?_⟩
  rw [unplaced, stripped, hattach, List.map_map, shown, Comment.map_flagged_id]
  congr 1
  exact statements_shown hbodies false _

end Program

/-- The part that stands first tells that the statement is an expression. -/
theorem StatementBody.settled_first (first : Bool) {t : Tree} (hl : t.Lexical)
    (ht : t.Settled true .alone) (h : OpensValue t.first) (rest : List Char) :
    StatementBody.Settled rest first (.expression t) := by
  refine .expression ht fun n c hrest => Statement.read_opensValue ?_
  rw [hrest]
  exact opensValue_first hl h 0 0 (.stop stops_semicolon rest)

namespace Program
open Script

/-! Scripts without kept pieces. -/

theorem Plain.lexical {p : Program Tree} (hp : p.Plain) : p.Lexical where
  statements s hs := by
    obtain ⟨t, hbody, hplain⟩ := hp.statements s hs
    rw [hbody]
    exact .expression hplain.lexical.1 hplain.lexical.2
  trivia := hp.trivia
  dangling := hp.dangling

theorem settledFrom_plain (stop : List Char) (first : Bool) {statements : List (Statement Tree)}
    (h : ∀ s ∈ statements, ∃ t, s.body = .expression t ∧ t.PlainStatement) :
    SettledFrom stop first statements := by
  induction statements generalizing first with
  | nil => trivial
  | cons s statements ih =>
    obtain ⟨⟨t, hbody, ht⟩, h⟩ := List.forall_mem_cons.mp h
    refine ⟨?_, ih false h⟩
    rw [hbody]
    exact StatementBody.settled_first first ht.lexical.1 ht.settled (opensValue_plain ht) _

theorem Plain.settled {p : Program Tree} (hp : p.Plain) : p.Settled :=
  settledFrom_plain _ true hp.statements

/-- A script with a comment in every place. -/
def settings : Program Tree where
  statements := [{
    body := .expression (.node none (.assignment
      (.node none (.member (.node none (.identifier "module")) "exports"))
      (.node none (.object [{
        body := .assignment ⟨"on it", .string⟩ (.node none (.array [{
          value := .node none (.call (.node none (.identifier "f")) [.node none (.boolean true)])
          trivia := { spaced := true } }] []))
        trivia := { leading := [⟨"/* two\n rows */", true⟩], trailing := some "// behind" } }]
        [⟨"// last", true⟩]))))
    trivia := { leading := [⟨"// first", false⟩] } }]
  dangling := [⟨"// end", true⟩]

theorem settings_plain : settings.Plain := by
  have hname : Lexeme.IsName "module" ∧ Lexeme.IsName "exports" ∧ Lexeme.IsName "f" := by
    refine ⟨?_, ?_, ?_⟩ <;> unfold Lexeme.IsName <;> cbv
  have hcomment : IsComment "/* two\n rows */" ∧ IsComment "// behind" ∧ IsComment "// last" ∧
      IsComment "// first" ∧ IsComment "// end" := by
    refine ⟨?_, ?_, ?_, ?_, ?_⟩ <;> unfold IsComment <;> cbv
  have hleft := Tree.Plain.member none (.identifier none ⟨hname.1, by decide⟩) rfl hname.2.1
  have hcall := Tree.Plain.call none (.identifier none ⟨hname.2.2, by decide⟩) rfl
    (List.forall_mem_singleton.mpr (.boolean none true))
  have harray : Tree.Plain (.node none (.array [⟨_, { spaced := true }⟩] [])) :=
    .array none (List.forall_mem_singleton.mpr hcall)
      (List.forall_mem_singleton.mpr ⟨by simp, by simp⟩) (by simp)
  refine ⟨List.forall_mem_singleton.mpr ⟨_, rfl, .memberAssignment none none hleft ?_⟩,
    List.forall_mem_singleton.mpr ⟨List.forall_mem_singleton.mpr hcomment.2.2.2.1, by simp⟩,
    List.forall_mem_singleton.mpr hcomment.2.2.2.2⟩
  refine .object none (List.forall_mem_singleton.mpr ⟨_, _, rfl, .inr rfl⟩)
    (List.forall_mem_singleton.mpr ?_) (List.forall_mem_singleton.mpr ⟨?_, ?_⟩)
    (List.forall_mem_singleton.mpr hcomment.2.2.1)
  · rintro value ⟨⟩
    exact harray
  · exact List.forall_mem_singleton.mpr hcomment.1
  · rintro text ⟨⟩
    exact hcomment.2.1

/-- The layout of a script without verbatim parts is read as it is shown: but for positions and
for blank lines that are not shown it is the same script, with every comment in its place. -/
theorem reads_layout (p : Program Tree) (hp : p.Plain) :
    ∃ q, ofSource? p.layout = some q ∧ q.unplaced = p.shown ∧
      q.unplaced.unspaced = p.unspaced := by
  obtain ⟨q, hq, hshown⟩ := ofSource?_layout hp.lexical hp.settled
  exact ⟨q, hq, hshown, by rw [hshown, unspaced_shown]⟩

theorem reads_layout_settings : settings.Plain ∧
    ∃ q, ofSource? settings.layout = some q ∧ q.unplaced = settings.shown ∧
      q.unplaced.unspaced = settings.unspaced :=
  ⟨settings_plain, reads_layout settings settings_plain⟩

end Program

end SiteConfig
