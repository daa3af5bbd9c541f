import SiteConfig.Proofs.Phrasing
import SiteConfig.Proofs.Slots

/-!
How the text of a script spells its statements. A comment between two statements is kept, except
where it is read together with the line end that closes an expression without a semicolon.
-/

set_option mvcgen.warning false

namespace SiteConfig.Script
open Text Std.Do

variable {c₀ start : Cursor}

/-- The text from one place to a later one is a statement, and holds these marks. -/
inductive Sentence : Cursor → StatementBody Tree → List Mark → Cursor → Prop where
  | verbatim {c c' : Cursor} (h : c.Reaches c') :
    Sentence c (.verbatim (c.slice c')) [.verbatim (c.slice c')] c'
  /-- Comments before a semicolon belong to the statement, and are not kept. -/
  | closed {c m d : Cursor} {t : Tree} {marks : List Mark} (ht : Spells c t marks m)
    (hm : Apart m d) (hd : d.rest.head? = some ';') :
    Sentence c (.expression t) marks (d.forward 1)
  /-- The comments up to the first place where the semicolon can be inserted are not kept. One on a
  later line stands behind that place. -/
  | inserted {c m c' : Cursor} {t : Tree} {marks : List Mark} {lost : List String}
    (ht : Spells c t marks m) (hm : Inserted .value m lost c') :
    Sentence c (.expression t) (marks ++ lost.map .dropped) c'

/-- A statement stands between two places, and all but dropped comments are kept in it. -/
structure Sentenced (c : Cursor) (body : StatementBody Tree) (c' : Cursor) : Prop where
  reaches : c.Reaches c'
  lexical : ∀ t, body = .expression t → t.Lexical ∧ Place.alone.admits t.kind
  stands : ∀ t, body = .expression t → t.Stands c
  sentence : ∃ marks, Sentence c body marks c' ∧ marks.filter Mark.isKept = body.marks

theorem sentenced_verbatim {c c' : Cursor} (h : c.Reaches c') :
    Sentenced c (.verbatim (c.slice c')) c' :=
  ⟨h, nofun, nofun, _, .verbatim h, rfl⟩

attribute [grind ←] sentenced_verbatim

/-- The text from one place to a later one spells an operand, which may be a statement. -/
structure Operand.SpelledAlone (o : Operand) (c c' : Cursor) : Prop where
  spelled : o.Spelled c c'
  lexical : o.kind.standsAlone → o.core.Lexical

/-- A piece that is kept is no expression that is a statement. -/
theorem Operand.spelledAlone_verbatim {c c' : Cursor} (h : c.Reaches c') (ht : c.rest ≠ []) :
    (verbatim c.position (c.slice c')).SpelledAlone c c' :=
  ⟨spelled_verbatim h ht .other, by rintro ⟨⟩⟩

attribute [grind →] Operand.SpelledAlone.spelled
attribute [grind ←] Operand.spelledAlone_verbatim

theorem Operand.SpelledAlone.sentenced {o : Operand} {c m c' : Cursor} (ho : o.SpelledAlone c m)
    (hk : o.kind.standsAlone) (hr : c.Reaches c')
    (h : (∃ d, Apart m d ∧ d.rest.head? = some ';' ∧ c' = d.forward 1) ∨
      ∃ lost, Inserted .value m lost c') :
    Sentenced c (.expression o.core) c' := by
  have hkept := Tree.filter_marks o.core
  refine ⟨hr, ?_, ?_, ?_⟩
  · rintro _ ⟨⟩
    exact ⟨ho.lexical hk, by rcases ho.spelled.kind with h | h <;> simp [Place.admits, h, hk]⟩
  · rintro _ ⟨⟩
    exact ho.spelled.coreStands
  rcases h with ⟨d, hd, hsemi, rfl⟩ | ⟨lost, hlost⟩
  · exact ⟨_, .closed ho.spelled.core hd hsemi, hkept⟩
  · refine ⟨_, .inserted ho.spelled.core hlost, ?_⟩
    rw [List.filter_append, hkept]
    simp [List.filter_map, Function.comp_def, Mark.isKept, StatementBody.marks]

namespace Grammar

variable {g : Grammar} [g.Lexed]

theorem spec_valueAlone (tail : Bool) : ⦃fun c => ⌜c = c₀⌝⦄ Scan.asValue (g.expression tail)
    ⦃⇓? o c => ⌜∃ m, Apart c₀ m ∧ (AtStart c₀ → m = c₀) ∧ o.SpelledAlone m c⌝⦄ := by
  rw [Scan.triple_iff]
  rintro _ rfl o c' h
  obtain ⟨m, hm, hsame, ho⟩ := Scan.triple_iff.mp (spec_value tail) _ rfl o c' h
  exact ⟨m, hm, hsame, ho, fun _ => Lexed.lexical (Scan.run_of_asValue h)⟩

@[spec]
theorem spec_expressionsFrom (tail : Bool) (n : Nat) (o : Operand) :
    ⦃fun c => ⌜o.SpelledAlone start c⌝⦄ g.expressionsFrom tail start n o
    ⦃⇓? o' c => ⌜o'.SpelledAlone start c⌝⦄ := by
  induction n generalizing o with
  | zero =>
    unfold expressionsFrom
    mvcgen
  | succ n ih =>
    unfold expressionsFrom
    mvcgen [ih]
    all_goals grind

@[spec]
theorem spec_expressions (tail : Bool) : ⦃fun c => ⌜c = c₀⌝⦄ g.expressions tail
    ⦃⇓? o c => ⌜∃ m, Apart c₀ m ∧ (AtStart c₀ → m = c₀) ∧ o.SpelledAlone m c⌝⦄ := by
  unfold expressions
  mvcgen [spec_valueAlone, -spec_value]
  all_goals grind

end Grammar

namespace Statement

variable {g : Grammar} [g.Lexed]

@[spec]
theorem spec_expressionStatement : ⦃fun c => ⌜c = c₀ ∧ AtStart c⌝⦄ expressionStatement g
    ⦃⇓? body c => ⌜Sentenced c₀ body c⌝⦄ := by
  unfold expressionStatement
  mvcgen
  all_goals grind [Operand.SpelledAlone.sentenced]

theorem spec_braced (h : AtStart start) : ⦃fun c => ⌜c = start⌝⦄ braced g start
    ⦃⇓? body c => ⌜Sentenced start body c⌝⦄ := by
  have hexpression : ⦃fun c => ⌜c = start⌝⦄ expressionStatement g
      ⦃⇓? body c => ⌜Sentenced start body c⌝⦄ := by
    mvcgen
    all_goals grind
  have hblock : ⦃fun c => ⌜c = start⌝⦄ (do g.block none; verbatimFrom start : Scan _)
      ⦃⇓? body c => ⌜Sentenced start body c⌝⦄ := by
    mvcgen
    all_goals grind
  unfold braced
  dsimp only
  split
  · exact Scan.spec_orElse hexpression hblock
  · exact Scan.spec_orElse hblock hexpression

theorem spec_labelled (h : AtStart start) (w : String) :
    ⦃fun c => ⌜c = start⌝⦄ read.labelled g start w ⦃⇓? body c => ⌜Sentenced start body c⌝⦄ := by
  unfold read.labelled
  mvcgen
  all_goals grind

theorem spec_read : ⦃fun c => ⌜c = c₀ ∧ AtStart c⌝⦄ read g
    ⦃⇓? body c => ⌜Sentenced c₀ body c⌝⦄ := by
  unfold read
  mvcgen [spec_braced, spec_labelled, Scan.spec_orElse]
  all_goals grind

end Statement

/-- The readers for nested parts spell the statements that they read. -/
class Grammar.Sentences (g : Grammar) : Prop extends g.Lexed where
  sentenced : ∀ c₀, ⦃fun c => ⌜c = c₀ ∧ AtStart c⌝⦄ g.statement
    ⦃⇓? body c => ⌜Sentenced c₀ body c⌝⦄

instance Grammar.sentences_ofDepth (n : Nat) : (ofDepth n).Sentences := by
  cases n with
  | zero => exact ⟨fun _ _ _ => trivial⟩
  | succ n => exact ⟨fun _ => Statement.spec_read⟩

/-- A list of statements stands between two places, and all but dropped comments are kept in it. -/
structure Listed (g : Grammar) (c : Cursor) (pieces : List (Piece (StatementBody Tree)))
    (c' : Cursor) : Prop where
  reaches : c.Reaches c'
  lexical : ∀ t, .expression t ∈ Piece.items pieces → t.Lexical ∧ Place.alone.admits t.kind
  kept : ∀ text, .verbatim text ∈ Piece.items pieces → g.KeepsStatement text
  comments : ∀ text, .comment text ∈ Piece.marksOf (fun _ => []) Piece.noted pieces → IsComment text
  stands : ∀ t, .expression t ∈ Piece.items pieces → t.Stands c
  sentences : ∃ marks, Between Piece.noted [] Sentence c (Piece.items pieces) marks c' ∧
    marks.filter Mark.isKept = Piece.marksOf StatementBody.marks Piece.noted pieces

namespace Listed

variable {g : Grammar} {c d c' : Cursor} {pieces pieces' : List (Piece (StatementBody Tree))}

theorem nil (c : Cursor) : Listed g c [] c :=
  ⟨.refl c, nofun, nofun, nofun, nofun, [], .none c, rfl⟩

theorem blanks (h : Listed g (c.forward (Lexeme.run isBlank c.rest)) pieces c') :
    Listed g c pieces c' := by
  obtain ⟨marks, hs, hm⟩ := h.sentences
  have hskip := Cursor.Reaches.forward c (Lexeme.run isBlank c.rest)
  exact ⟨hskip.trans h.reaches, h.lexical, h.kept, h.comments,
    fun t ht => (h.stands t ht).mono hskip, marks, hs.blanks, hm⟩

theorem comment {n : Nat} (hc : Lexeme.comment c.rest = some n)
    (h : Listed g (c.forward n) pieces c') (first last : Nat) :
    Listed g c (.comment (c.slice (c.forward n)) first last :: pieces) c' := by
  obtain ⟨marks, hs, hm⟩ := h.sentences
  have hskip := Cursor.Reaches.forward c n
  refine ⟨hskip.trans h.reaches, h.lexical, h.kept, fun text ht => ?_,
    fun t ht => (h.stands t ht).mono hskip, _, .comment hc hs, ?_⟩
  · rcases List.mem_cons.mp ht with ht | ht
    · cases ht
      exact isComment_slice hc
    · exact h.comments text ht
  · rw [List.filter_append, hm]
    rfl

theorem item {body : StatementBody Tree} (hc : AtToken c) (hb : Sentenced c body d)
    (hk : ∀ text, body = .verbatim text → g.KeepsStatement text) (h : Listed g d pieces c')
    (first last : Nat) : Listed g c (.item body first last :: pieces) c' := by
  obtain ⟨marks, hsentence, hkept⟩ := hb.sentence
  obtain ⟨marks', hs, hm⟩ := h.sentences
  refine ⟨hb.reaches.trans h.reaches, fun t ht => ?_, fun text ht => ?_, h.comments,
    fun t ht => ?_, _, .item hc hsentence hs, ?_⟩
  · rcases List.mem_cons.mp ht with ht | ht
    · exact hb.lexical t ht.symm
    · exact h.lexical t ht
  · rcases List.mem_cons.mp ht with ht | ht
    · exact hk text ht.symm
    · exact h.kept text ht
  · rcases List.mem_cons.mp ht with ht | ht
    · exact hb.stands t ht.symm
    · exact (h.stands t ht).mono hb.reaches
  · rw [List.filter_append, hkept, hm]
    rfl

theorem statement {body : StatementBody Tree} (hc : AtStart c) (hb : Sentenced c body d)
    (hrun : g.statement.run c = some (body, d)) (h : Listed g d pieces c') (first last : Nat) :
    Listed g c (.item body first last :: pieces) c' := by
  refine .item hc.toAtToken hb (fun text hbody => ?_) h first last
  obtain ⟨marks, hsentence, -⟩ := hb.sentence
  subst hbody
  cases hsentence
  exact .statement hb.reaches hc hrun

theorem text {n : Nat} (hc : AtToken c) (hk : g.KeepsStatement (c.slice (c.forward n)))
    (h : Listed g (c.forward n) pieces c') (first last : Nat) :
    Listed g c (.item (.verbatim (c.slice (c.forward n))) first last :: pieces) c' := by
  refine .item hc (sentenced_verbatim (.forward c n)) ?_ h first last
  rintro text ⟨⟩
  exact hk

theorem append (h : Listed g c pieces d) (h' : Listed g d pieces' c') :
    Listed g c (pieces ++ pieces') c' := by
  obtain ⟨marks, hs, hm⟩ := h.sentences
  obtain ⟨marks', hs', hm'⟩ := h'.sentences
  refine ⟨h.reaches.trans h'.reaches, fun t ht => ?_, fun text ht => ?_, fun text ht => ?_,
    fun t ht => ?_, marks ++ marks', ?_, ?_⟩
  · rw [Piece.items_append] at ht
    exact (List.mem_append.mp ht).elim (h.lexical t) (h'.lexical t)
  · rw [Piece.items_append] at ht
    exact (List.mem_append.mp ht).elim (h.kept text) (h'.kept text)
  · rw [Piece.marksOf_append] at ht
    exact (List.mem_append.mp ht).elim (h.comments text) (h'.comments text)
  · rw [Piece.items_append] at ht
    exact (List.mem_append.mp ht).elim (h.stands t) fun ht => (h'.stands t ht).mono h.reaches
  · rw [Piece.items_append]
    exact hs.append hs'
  · rw [List.filter_append, hm, hm', Piece.marksOf_append]

end Listed

namespace Grammar

variable {g : Grammar} [g.Sentences]

theorem spec_statement : ⦃fun c => ⌜c = c₀ ∧ AtStart c⌝⦄ g.statement
    ⦃⇓? body c => ⌜Sentenced c₀ body c ∧ g.statement.run c₀ = some (body, c)⌝⦄ := by
  rw [Scan.triple_iff]
  rintro _ ⟨rfl, hc⟩ body c' h
  exact ⟨Scan.triple_iff.mp (Sentences.sentenced _) _ ⟨rfl, hc⟩ body c' h, h⟩

theorem spec_statements (stops : List String) (n : Nat) :
    ⦃fun c => ⌜c = start⌝⦄ g.statements stops n
    ⦃⇓? pieces c => ⌜AtToken c ∧ Listed g start pieces c⌝⦄ := by
  induction n generalizing start with
  | zero =>
    unfold statements
    mvcgen
  | succ n ih =>
    unfold statements
    mvcgen [ih, spec_statement]
    -- a comment, the end, a word that stops, a page comment, a start and the statement at it
    case vc1 => grind [Listed.blanks, Listed.comment]
    case vc2 => grind [Listed.blanks, Listed.nil, atToken_behind]
    case vc3 => grind [Listed.blanks, Listed.nil, atToken_behind]
    case vc4 => grind [Listed.blanks, Listed.text, KeepsStatement, atToken_behind]
    case vc5 => grind [AtStart, atToken_behind]
    case vc6 => grind [Listed.blanks, Listed.statement, AtStart, atToken_behind]

end Grammar

theorem spec_interpreterPieces (g : Grammar) (n : Nat) :
    ⦃fun c => ⌜c = start⌝⦄ program.interpreterPieces n
    ⦃⇓? pieces c => ⌜Listed g start pieces c⌝⦄ := by
  induction n generalizing start with
  | zero =>
    unfold program.interpreterPieces
    mvcgen
  | succ n ih =>
    unfold program.interpreterPieces
    mvcgen [ih]
    case vc1 => grind [Listed.blanks, Listed.comment]
    case vc2 =>
      grind [Listed.blanks, Listed.text, Listed.nil, Grammar.KeepsStatement, atToken_behind]

/-- The script that is made of what was read. -/
def ofPieces (pieces : List (Piece (StatementBody Tree))) : Program Tree :=
  { statements := (Piece.attach pieces).1.map fun (body, trivia) => { body, trivia },
    dangling := (Piece.attach pieces).2 }

theorem bodies_ofPieces (pieces : List (Piece (StatementBody Tree))) :
    (ofPieces pieces).statements.map (·.body) = Piece.items pieces := by
  rw [← Piece.map_fst_attach, ofPieces, List.map_map]
  rfl

/-- The text from one place to the end of the script is a script, and all but dropped comments are
kept in it. -/
def Scripted (c : Cursor) (p : Program Tree) : Prop :=
  ∃ marks c', Between Piece.noted [] Sentence c (p.statements.map (·.body)) marks c' ∧
    c'.rest = [] ∧ marks.filter Mark.isKept = p.marks

theorem Listed.scripted {g : Grammar} {c c' : Cursor} {pieces : List (Piece (StatementBody Tree))}
    (h : Listed g c pieces c') (hc : c'.rest = []) : Scripted c (ofPieces pieces) := by
  obtain ⟨marks, hs, hm⟩ := h.sentences
  refine ⟨marks, c', ?_, hc, ?_⟩
  · rw [bodies_ofPieces]
    exact hs
  · rw [hm, ← Piece.marksOfItems_attach, Program.marks, Program.marksStatements_eq, ofPieces,
      List.flatMap_map]
    rfl

theorem spec_programPieces {g : Grammar} [g.Sentences] : ⦃fun c => ⌜c = start⌝⦄ program g
    ⦃⇓? p _ => ⌜∃ pieces c', Listed g start pieces c' ∧ c'.rest = [] ∧ p = ofPieces pieces⌝⦄ := by
  have hinterpreter : ∀ c₀ n, ⦃fun c => ⌜c = c₀⌝⦄ program.interpreterPieces n
      ⦃⇓? pieces c => ⌜Listed g c₀ pieces c⌝⦄ := fun _ => spec_interpreterPieces g
  unfold program
  mvcgen [Grammar.spec_statements, hinterpreter]
  -- with an interpreter line, and without one
  case vc1 =>
    rename_i c hc _ _ _ leading d hleading rest e hrest _ f hgap _ f' hf' _ f'' hempty
    have hend : e.rest = [] := by grind
    rw [← hc]
    exact ⟨_, e, hleading.append hrest.2, hend, rfl⟩
  case vc2 =>
    rename_i c hc _ _ _ pieces e hrest _ f hgap _ f' hf' _ f'' hempty
    have hend : e.rest = [] := by grind
    rw [← hc]
    exact ⟨_, e, hrest.2, hend, rfl⟩

theorem spec_program {g : Grammar} [g.Sentences] : ⦃fun c => ⌜c = start⌝⦄ program g
    ⦃⇓? p _ => ⌜Scripted start p⌝⦄ := by
  rw [Scan.triple_iff]
  rintro c rfl p c' hrun
  obtain ⟨pieces, d, hlisted, hend, rfl⟩ :=
    Scan.triple_iff.mp spec_programPieces c rfl p c' hrun
  exact hlisted.scripted hend

end SiteConfig.Script

namespace SiteConfig.Program
open Script

/-- The text of a script is made of its statements and of comments between them, and the layout
holds each of these comments once and in their order, but for those that are read together with
the line end in place of a semicolon. So do the lists in it. -/
theorem layout_keeps_comments {source : String} {p : Program Tree}
    (h : ofSource? source = some p) :
    ∃ marks c', Between Piece.noted [] Sentence (Cursor.ofString source)
        (p.statements.map (·.body)) marks c' ∧ c'.rest = [] ∧
      Slotted (marks.filter Mark.isKept) (fun f => (p.recomment f).layout) ∧
      p.recomment id = p := by
  obtain ⟨⟨p', c⟩, hrun, rfl⟩ := Option.map_eq_some_iff.mp h
  obtain ⟨marks, c', hbetween, hend, hkept⟩ := Scan.triple_iff.mp spec_program _ rfl p' c hrun
  exact ⟨marks, c', hbetween, hend, hkept ▸ p'.slotted_layout, p'.recomment_id⟩

set_option maxRecDepth 10000 in
/-- Of the comments here only the one right behind the first call is lost. -/
theorem layout_keeps_comments_behind_call : ∃ p,
    ofSource? "x() // a\n// b\ny(); // c" = some p ∧ p.layout = "x();\n// b\ny(); // c\n" ∧
    ∃ marks c', Between Piece.noted [] Sentence (Cursor.ofString "x() // a\n// b\ny(); // c")
        (p.statements.map (·.body)) marks c' ∧ c'.rest = [] ∧
      Slotted (marks.filter Mark.isKept) (fun f => (p.recomment f).layout) ∧
      p.recomment id = p := by
  have hlayout : (ofSource? "x() // a\n// b\ny(); // c").map layout =
      some "x();\n// b\ny(); // c\n" := by cbv
  obtain ⟨p, hp, hlayout⟩ := Option.map_eq_some_iff.mp hlayout
  exact ⟨p, hp, hlayout, layout_keeps_comments hp⟩

set_option maxRecDepth 10000 in
/-- A comment behind a call without a semicolon is lost. -/
theorem not_layout_keeps_comments :
    ¬∀ (before comment after : String) (p : Program Tree), (ofSource? before).isSome →
      Lexeme.comment comment.toList = some comment.length → (ofSource? after).isSome →
      ofSource? (before ++ " " ++ comment ++ "\n" ++ after) = some p →
      comment.toList <:+: p.layout.toList := by
  intro h
  have hlayout : (ofSource? ("x()" ++ " " ++ "// c" ++ "\n" ++ "y()")).map layout =
      some "x();\ny();\n" := by cbv
  obtain ⟨p, hp, hlayout⟩ := Option.map_eq_some_iff.mp hlayout
  have hkept := h "x()" "// c" "y()" p (by cbv) (by decide) (by cbv) hp
  rw [hlayout] at hkept
  revert hkept
  decide

end SiteConfig.Program
