import Mathlib
import SiteConfig.Proofs.Scanning
import SiteConfig.Script.Program

/-!
Every reader of the grammar only moves ahead. There is one triple for each reader; readers that
look around and come back are seen from a place `c₀` that stays behind them all the way. Where more
is known of a reader, its other triple comes first: the ones here have a low priority.
-/

set_option mvcgen.warning false

namespace SiteConfig.Script
open Std.Do

variable {c₀ : Cursor}

/-- A reader that starts behind `c₀` and succeeds ends behind `c₀`. -/
abbrev Scan.Ahead {α : Type} (c₀ : Cursor) (s : Scan α) : Prop :=
  ⦃fun c => ⌜c₀.Reaches c⌝⦄ s ⦃⇓? _ c => ⌜c₀.Reaches c⌝⦄

namespace Scan

/-- A triple speaks of the runs that succeed. -/
theorem triple_iff {α : Type} {s : Scan α} {P : Cursor → Prop} {R : α → Cursor → Prop} :
    ⦃fun c => ⌜P c⌝⦄ s ⦃⇓? a c => ⌜R a c⌝⦄ ↔
      ∀ c, P c → ∀ a c', s.run c = some (a, c') → R a c' := by
  constructor
  · intro h c hc a c' hr
    have hpost := h c hc
    have hr' : s c = some (a, c') := hr
    simp only [WP.wp, PredTrans.apply, PredTrans.pushArg, StateT.run, hr'] at hpost
    exact hpost
  · intro h c hc
    simp only [WP.wp, PredTrans.apply, PredTrans.pushArg, StateT.run]
    cases hr : s c with
    | none => trivial
    | some out => exact h c hc out.1 out.2 hr

theorem triple_orElse {α : Type} {s t : Scan α} {P : Cursor → Prop} {R : α → Cursor → Prop}
    (hs : ⦃fun c => ⌜P c⌝⦄ s ⦃⇓? a c => ⌜R a c⌝⦄) (ht : ⦃fun c => ⌜P c⌝⦄ t ⦃⇓? a c => ⌜R a c⌝⦄) :
    ⦃fun c => ⌜P c⌝⦄ (s <|> t : Scan α) ⦃⇓? a c => ⌜R a c⌝⦄ := by
  rw [triple_iff] at *
  intro c hc a c' h
  have hrun : (s <|> t).run c = (s.run c <|> t.run c) := rfl
  rw [hrun] at h
  cases hr : s.run c with
  | none =>
    rw [hr] at h
    exact ht c hc a c' h
  | some out =>
    rw [hr] at h
    cases h
    exact hs c hc a c' hr

attribute [grind .] Cursor.Reaches.refl
attribute [grind →] Cursor.Reaches.trans
grind_pattern Cursor.Reaches.forward => c.forward n

theorem ahead_bind {α β : Type} {s : Scan α} {k : α → Scan β} (hs : ∀ c₀, Ahead c₀ s)
    (hk : ∀ a c₀, Ahead c₀ (k a)) : Ahead c₀ (s >>= k) := by
  mvcgen [hs, hk]
  all_goals grind

@[spec]
theorem spec_skip (n : Nat) :
    ⦃fun c => ⌜c = c₀⌝⦄ skip n ⦃⇓? _ c => ⌜c = c₀.forward n⌝⦄ := by
  mvcgen [skip]
  all_goals grind

@[spec]
theorem spec_failure {α : Type} {Q : α → Assertion (.arg Cursor (.except PUnit .pure))} :
    ⦃fun _ => ⌜True⌝⦄ (failure : Scan α) ⦃PostCond.mayThrow Q⦄ := by
  intro c _
  trivial

theorem ahead_failure {α : Type} : Ahead c₀ (failure : Scan α) := by
  mvcgen

theorem ahead_orElse {α : Type} {s t : Scan α} (hs : Ahead c₀ s) (ht : Ahead c₀ t) :
    Ahead c₀ (s <|> t) :=
  triple_orElse hs ht

theorem ahead_attempt {α : Type} {s : Scan α} (hs : Ahead c₀ s) : Ahead c₀ (attempt s) := by
  apply ahead_orElse
  · mvcgen [hs]
  · mvcgen

@[spec]
theorem spec_guard (p : Prop) [Decidable p] :
    ⦃fun c => ⌜c = c₀⌝⦄ (guard p : Scan Unit) ⦃⇓? _ c => ⌜c = c₀ ∧ p⌝⦄ := by
  unfold guard
  split
  · mvcgen
  · mvcgen

@[spec]
theorem spec_rest : ⦃fun c => ⌜c = c₀⌝⦄ rest ⦃⇓? cs c => ⌜c = c₀ ∧ cs = c₀.rest⌝⦄ := by
  mvcgen [rest]
  all_goals grind

@[spec]
theorem spec_sees (s : String) :
    ⦃fun c => ⌜c = c₀⌝⦄ sees s ⦃⇓? b c => ⌜c = c₀ ∧ b = s.toList.isPrefixOf c₀.rest⌝⦄ := by
  mvcgen [sees]
  all_goals grind

@[spec low]
theorem ahead_gap : Ahead c₀ gap := by
  mvcgen [gap]
  all_goals grind

@[spec low]
theorem ahead_token (s) : Ahead c₀ (token s) := by
  mvcgen [token]
  all_goals grind

@[spec]
theorem spec_lexeme (l : Lexeme) :
    ⦃fun c => ⌜c = c₀⌝⦄ lexeme l
    ⦃⇓? text c => ⌜∃ n, l c₀.rest = some n ∧ c = c₀.forward n ∧ text = c₀.slice c⌝⦄ := by
  mvcgen [lexeme]
  rename_i c hc
  subst hc
  cases hl : l c.rest with
  | none => trivial
  | some n => exact ⟨n, rfl, rfl, rfl⟩

@[spec low]
theorem ahead_wideGap (n : Nat) : Ahead c₀ (wideGap n) := by
  induction n generalizing c₀ with
  | zero =>
    mvcgen [wideGap]
  | succ n ih =>
    mvcgen [wideGap, ih]
    all_goals grind

@[spec low]
theorem ahead_opening : Ahead c₀ opening := by
  mvcgen [opening]

@[spec]
theorem spec_upcoming (ending : Ending) :
    ⦃fun c => ⌜c = c₀⌝⦄ upcoming ending ⦃⇓? _ c => ⌜c = c₀⌝⦄ := by
  mvcgen [upcoming]

theorem ahead_upcoming (ending : Ending) : Ahead c₀ (upcoming ending) := by
  mvcgen
  all_goals grind

@[spec low]
theorem ahead_name : Ahead c₀ name := by
  mvcgen [name]
  all_goals grind

@[spec low]
theorem ahead_keyword (w : String) : Ahead c₀ (keyword w) := by
  mvcgen [keyword]
  all_goals grind

@[spec low]
theorem ahead_stringLiteral : Ahead c₀ stringLiteral := by
  mvcgen [stringLiteral]
  all_goals grind

theorem reaches_insertion? {e : Ending} {n : Nat} {c d : Cursor} (h : c.insertion? e n = some d) :
    c.Reaches d := by
  induction n generalizing c with
  | zero => cases h
  | succ n ih =>
    rw [Cursor.insertion?] at h
    split at h
    · cases h
      exact .refl _
    · simp only at h
      split at h
      · have := ih h
        exact .trans (.trans (.forward c _) (.forward _ _)) this
      · cases h
attribute [grind →] reaches_insertion?

@[spec low]
theorem ahead_semicolon (e : Ending) : Ahead c₀ (semicolon e) := by
  mvcgen [semicolon]
  all_goals grind

@[spec low]
theorem ahead_absorbSemicolon (e : Ending) : Ahead c₀ (absorbSemicolon e) := by
  mvcgen [absorbSemicolon]
  all_goals grind

@[spec]
theorem spec_verbatimFrom (start : Cursor) :
    ⦃fun c => ⌜c = c₀⌝⦄ verbatimFrom start
    ⦃⇓? o c => ⌜c = c₀ ∧ o = .verbatim start.position (start.slice c₀)⌝⦄ := by
  mvcgen [verbatimFrom]
  all_goals grind

theorem ahead_asValue {s : Scan Operand} (hs : ∀ c₀, Ahead c₀ s) : Ahead c₀ (asValue s) := by
  mvcgen [asValue, hs]
  all_goals grind

end Scan

/-- The readers for nested parts only move ahead. -/
class Grammar.Advances (g : Grammar) : Prop where
  expression : ∀ c₀ tail, Scan.Ahead c₀ (g.expression tail)
  statement : ∀ c₀, Scan.Ahead c₀ g.statement
  markup : ∀ c₀, Scan.Ahead c₀ g.markup

theorem Listing.ahead_read {α : Type} {element : Scan α} (he : ∀ c₀, Scan.Ahead c₀ element)
    (close : Char) (page : Position → String → α) (n : Nat) (begun due : Bool) :
    Scan.Ahead c₀ (read close element page n begun due) := by
  induction n generalizing c₀ begun due with
  | zero => mvcgen [read]
  | succ n ih =>
    mvcgen [read, ih, he]
    all_goals grind

namespace Grammar

variable {g : Grammar} [g.Advances]

@[spec low]
theorem ahead_expression (tail : Bool) : Scan.Ahead c₀ (g.expression tail) :=
  Advances.expression c₀ tail

@[spec low]
theorem ahead_statement : Scan.Ahead c₀ g.statement :=
  Advances.statement c₀

@[spec low]
theorem ahead_markup : Scan.Ahead c₀ g.markup :=
  Advances.markup c₀

@[spec low]
theorem ahead_value (tail : Bool) : Scan.Ahead c₀ (Scan.asValue (g.expression tail)) :=
  Scan.ahead_asValue fun _ => ahead_expression tail

@[spec low]
theorem ahead_expressionsFrom (tail : Bool) (start : Cursor) (n : Nat) (o : Operand) :
    Scan.Ahead c₀ (g.expressionsFrom tail start n o) := by
  induction n generalizing c₀ o with
  | zero => mvcgen [expressionsFrom]
  | succ n ih =>
    mvcgen [expressionsFrom, ih]
    all_goals grind

@[spec low]
theorem ahead_expressions (tail : Bool) : Scan.Ahead c₀ (g.expressions tail) := by
  mvcgen [expressions]
  all_goals grind

@[spec low]
theorem ahead_condition : Scan.Ahead c₀ g.condition := by
  mvcgen [condition]
  all_goals grind

@[spec low]
theorem ahead_element : Scan.Ahead c₀ g.element := by
  mvcgen [element]
  all_goals grind

@[spec low]
theorem ahead_elements (close : Char) : Scan.Ahead c₀ (g.elements close) :=
  Listing.ahead_read (fun _ => ahead_element) close _ _ _ _

@[spec low]
theorem ahead_statements (stops : List String) (n : Nat) :
    Scan.Ahead c₀ (g.statements stops n) := by
  induction n generalizing c₀ with
  | zero => mvcgen [statements]
  | succ n ih =>
    mvcgen [statements, ih]
    all_goals grind

@[spec low]
theorem ahead_block (ending : Option Ending) : Scan.Ahead c₀ (g.block ending) := by
  mvcgen [block]
  all_goals grind

@[spec low]
theorem ahead_parameters : Scan.Ahead c₀ g.parameters := by
  mvcgen [parameters]
  all_goals grind

@[spec low]
theorem ahead_attempt_name : Scan.Ahead c₀ (Scan.attempt Scan.name) :=
  Scan.ahead_attempt Scan.ahead_name

@[spec low]
theorem ahead_functionTail (ending : Ending) : Scan.Ahead c₀ (g.functionTail ending) := by
  mvcgen [functionTail]
  all_goals grind

@[spec low]
theorem ahead_memberName : Scan.Ahead c₀ g.memberName := by
  mvcgen [memberName]
  all_goals grind

@[spec low]
theorem ahead_modifier (words : List String) (star : Bool) (ending : Ending) :
    Scan.Ahead c₀ (modifier words star ending) := by
  mvcgen [modifier]
  all_goals grind

@[spec low]
theorem ahead_modifiers (ending : Ending) : Scan.Ahead c₀ (modifiers ending) := by
  mvcgen [modifiers]
  all_goals grind

@[spec low]
theorem ahead_methodTail : Scan.Ahead c₀ g.methodTail := by
  mvcgen [methodTail]
  all_goals grind

@[spec low]
theorem ahead_decoratorPath (n : Nat) : Scan.Ahead c₀ (decoratorPath n) := by
  induction n generalizing c₀ with
  | zero => mvcgen [decoratorPath]
  | succ n ih =>
    mvcgen [decoratorPath, ih]
    all_goals grind

@[spec low]
theorem ahead_decorators (n : Nat) : Scan.Ahead c₀ (g.decorators n) := by
  induction n generalizing c₀ with
  | zero => mvcgen [decorators]
  | succ n ih =>
    mvcgen [decorators, ih]
    all_goals grind

@[spec low]
theorem ahead_fieldTail : Scan.Ahead c₀ g.fieldTail := by
  mvcgen [fieldTail]
  all_goals grind

@[spec low]
theorem ahead_classMember : Scan.Ahead c₀ g.classMember := by
  mvcgen [classMember]
  all_goals grind

@[spec low]
theorem ahead_classMembers (n : Nat) : Scan.Ahead c₀ (g.classMembers n) := by
  induction n generalizing c₀ with
  | zero => mvcgen [classMembers]
  | succ n ih =>
    mvcgen [classMembers, ih]
    all_goals grind

@[spec low]
theorem ahead_classTail : Scan.Ahead c₀ g.classTail := by
  mvcgen [classTail]
  all_goals grind

@[spec low]
theorem ahead_pairTail (start : Cursor) (name : NameForm) :
    Scan.Ahead c₀ (g.pairTail start name) := by
  mvcgen [pairTail]
  all_goals grind

@[spec low]
theorem ahead_plainTail (start : Cursor) (name : NameForm) :
    Scan.Ahead c₀ (g.plainTail start name) := by
  mvcgen [plainTail]
  all_goals grind

@[spec low]
theorem ahead_property : Scan.Ahead c₀ g.property := by
  mvcgen [property]
  all_goals grind

@[spec low]
theorem ahead_object : Scan.Ahead c₀ g.object := by
  mvcgen [object, Listing.ahead_read]
  all_goals grind

@[spec low]
theorem ahead_array : Scan.Ahead c₀ g.array := by
  mvcgen [array]
  all_goals grind

@[spec low]
theorem ahead_templateTail (n : Nat) : Scan.Ahead c₀ (g.templateTail n) := by
  induction n generalizing c₀ with
  | zero => mvcgen [templateTail]
  | succ n ih =>
    mvcgen [templateTail, ih]
    all_goals grind

@[spec low]
theorem ahead_template : Scan.Ahead c₀ g.template := by
  mvcgen [template]
  all_goals grind

end Grammar

namespace Markup

variable {g : Grammar} [g.Advances]

@[spec low]
theorem ahead_points (n : Nat) : Scan.Ahead c₀ (points n) := by
  induction n generalizing c₀ with
  | zero => mvcgen [points]
  | succ n ih =>
    mvcgen [points, ih]
    all_goals grind

@[spec low]
theorem ahead_attributeName : Scan.Ahead c₀ attributeName := by
  mvcgen [attributeName]
  all_goals grind

omit [g.Advances] in
@[spec low]
theorem ahead_tagName : Scan.Ahead c₀ (tagName g) := by
  mvcgen [tagName]
  all_goals grind

@[spec low]
theorem ahead_embedded : Scan.Ahead c₀ (embedded g) := by
  mvcgen [embedded]
  all_goals grind

@[spec low]
theorem ahead_attributeValue : Scan.Ahead c₀ (attributeValue g) := by
  mvcgen [attributeValue]
  all_goals grind

@[spec low]
theorem ahead_attributes (n : Nat) : Scan.Ahead c₀ (attributes g n) := by
  induction n generalizing c₀ with
  | zero => mvcgen [attributes]
  | succ n ih =>
    mvcgen [attributes, ih]
    all_goals grind

omit [g.Advances] in
@[spec low]
theorem ahead_attempt_tagName : Scan.Ahead c₀ (Scan.attempt (tagName g)) :=
  Scan.ahead_attempt ahead_tagName

@[spec low]
theorem ahead_children (n : Nat) : Scan.Ahead c₀ (children g n) := by
  induction n generalizing c₀ with
  | zero => mvcgen [children]
  | succ n ih =>
    mvcgen [children, ih]
    all_goals grind

@[spec low]
theorem ahead_element : Scan.Ahead c₀ (element g) := by
  mvcgen [element]
  all_goals grind

end Markup

namespace Expression

variable {g : Grammar} [g.Advances]

@[spec low]
theorem ahead_attempt_block (ending : Option Ending) :
    Scan.Ahead c₀ (Scan.attempt (g.block ending)) :=
  Scan.ahead_attempt (Grammar.ahead_block ending)

@[spec low]
theorem ahead_arrowBody (tail : Bool) : Scan.Ahead c₀ (arrowBody g tail) := by
  mvcgen [arrowBody]
  all_goals grind

@[spec low]
theorem ahead_arrowFrom (tail : Bool) (start : Cursor) :
    Scan.Ahead c₀ (arrowFrom g tail start) := by
  mvcgen [arrowFrom]
  all_goals grind

@[spec low]
theorem ahead_ofWord (start : Cursor) : Scan.Ahead c₀ (ofWord start) := by
  mvcgen [ofWord]
  all_goals grind

@[spec low]
theorem ahead_parenthesised (tail : Bool) : Scan.Ahead c₀ (parenthesised g tail) := by
  mvcgen [parenthesised]
  all_goals grind

@[spec low]
theorem ahead_attempt_arrow (tail : Bool) (start : Cursor) :
    Scan.Ahead c₀ (Scan.attempt (do let _ ← Scan.name; arrowFrom g tail start)) := by
  apply Scan.ahead_attempt
  mvcgen
  all_goals grind

@[spec low]
theorem ahead_asyncTail (tail : Bool) (start : Cursor) :
    Scan.Ahead c₀ (asyncTail g tail start) := by
  unfold asyncTail
  -- what comes next is looked at in two ways at once, so the cases are split by hand
  apply Scan.ahead_bind fun _ => Scan.ahead_upcoming _
  intro next c₀
  dsimp only
  split <;> mvcgen
  all_goals grind

@[spec low]
theorem ahead_importTail (tail : Bool) (start : Cursor) :
    Scan.Ahead c₀ (importTail tail start) := by
  mvcgen [importTail]
  all_goals grind

@[spec low]
theorem ahead_attempt_value (tail : Bool) :
    Scan.Ahead c₀ (Scan.attempt (Scan.asValue (g.expression tail))) :=
  Scan.ahead_attempt (Grammar.ahead_value tail)

@[spec low]
theorem ahead_yieldTail (tail : Bool) (start : Cursor) :
    Scan.Ahead c₀ (yieldTail g tail start) := by
  mvcgen [yieldTail]
  all_goals grind

@[spec low]
theorem ahead_links (tail calls : Bool) (start : Cursor) (n : Nat) (o : Operand) :
    Scan.Ahead c₀ (links g tail calls start n o) := by
  induction n generalizing c₀ with
  | zero => mvcgen [links]
  | succ n ih =>
    mvcgen [links, ih]
    all_goals grind

theorem ahead_newTail_primary (n : Nat) :
    (∀ c₀ tail start, Scan.Ahead c₀ (newTail g tail start n)) ∧
      ∀ c₀ tail, Scan.Ahead c₀ (primary g tail n) := by
  induction n with
  | zero => exact ⟨fun c₀ tail start => by mvcgen [newTail], fun c₀ tail => by mvcgen [primary]⟩
  | succ n ih =>
    obtain ⟨ihnew, ihprimary⟩ := ih
    constructor
    · intro c₀ tail start
      mvcgen [newTail, ihprimary]
      all_goals grind
    · intro c₀ tail
      mvcgen [primary, ihnew]
      all_goals grind

@[spec low]
theorem ahead_primary (tail : Bool) (n : Nat) : Scan.Ahead c₀ (primary g tail n) :=
  (ahead_newTail_primary n).2 c₀ tail

@[spec low]
theorem ahead_appended (tail : Bool) (start : Cursor) (n : Nat) (o : Operand) :
    Scan.Ahead c₀ (appended g tail start n o) := by
  induction n generalizing c₀ o with
  | zero => mvcgen [appended]
  | succ n ih =>
    mvcgen [appended, ih]
    all_goals grind

@[spec low]
theorem ahead_assigned (tail : Bool) (start : Cursor) (o : Operand) :
    Scan.Ahead c₀ (assigned g tail start o) := by
  mvcgen [assigned]
  all_goals grind

@[spec low]
theorem ahead_operand (tail : Bool) (n : Nat) : Scan.Ahead c₀ (operand g tail n) := by
  induction n generalizing c₀ with
  | zero => mvcgen [operand]
  | succ n ih =>
    have hvalue : ∀ c₀, Scan.Ahead c₀ (Scan.asValue (operand g tail n)) :=
      fun _ => Scan.ahead_asValue fun _ => ih
    mvcgen [operand, hvalue]
    all_goals grind

@[spec low]
theorem ahead_value (tail : Bool) (n : Nat) :
    Scan.Ahead c₀ (Scan.asValue (operand g tail n)) :=
  Scan.ahead_asValue fun _ => ahead_operand tail n

@[spec low]
theorem ahead_operators (tail : Bool) (start : Cursor) (n : Nat) (o : Operand) :
    Scan.Ahead c₀ (operators g tail start n o) := by
  induction n generalizing c₀ o with
  | zero => mvcgen [operators]
  | succ n ih =>
    mvcgen [operators, ih]
    all_goals grind

@[spec low]
theorem ahead_read (tail : Bool) : Scan.Ahead c₀ (read g tail) := by
  mvcgen [read]
  all_goals grind

end Expression

namespace Statement

variable {g : Grammar} [g.Advances]

@[spec]
theorem spec_verbatimFrom (start : Cursor) :
    ⦃fun c => ⌜c = c₀⌝⦄ verbatimFrom start
    ⦃⇓? body c => ⌜c = c₀ ∧ body = .verbatim (start.slice c₀)⌝⦄ := by
  mvcgen [verbatimFrom]
  all_goals grind

@[spec low]
theorem ahead_expressionStatement : Scan.Ahead c₀ (expressionStatement g) := by
  mvcgen [expressionStatement]
  all_goals grind

@[spec low]
theorem ahead_declarator : Scan.Ahead c₀ (declarator g) := by
  mvcgen [declarator]
  all_goals grind

@[spec low]
theorem ahead_declarators (n : Nat) : Scan.Ahead c₀ (declarators g n) := by
  induction n generalizing c₀ with
  | zero => mvcgen [declarators]
  | succ n ih =>
    mvcgen [declarators, ih]
    all_goals grind

@[spec low]
theorem ahead_nested : Scan.Ahead c₀ (nested g) := by
  mvcgen [nested]
  all_goals grind

@[spec low]
theorem ahead_ifTail : Scan.Ahead c₀ (ifTail g) := by
  mvcgen [ifTail]
  all_goals grind

@[spec low]
theorem ahead_target : Scan.Ahead c₀ (memberLoopHead.target g) := by
  mvcgen [memberLoopHead.target]
  all_goals grind

@[spec low]
theorem ahead_memberLoopHead : Scan.Ahead c₀ (memberLoopHead g) := by
  mvcgen [memberLoopHead, Scan.ahead_attempt]
  all_goals grind

@[spec low]
theorem ahead_countingLoopHead : Scan.Ahead c₀ (countingLoopHead g) := by
  mvcgen [countingLoopHead, Scan.ahead_attempt]
  all_goals grind

@[spec low]
theorem ahead_loopHead : Scan.Ahead c₀ (memberLoopHead g <|> countingLoopHead g) :=
  Scan.ahead_orElse ahead_memberLoopHead ahead_countingLoopHead

@[spec low]
theorem ahead_forTail : Scan.Ahead c₀ (forTail g) := by
  mvcgen [forTail]
  all_goals grind

@[spec low]
theorem ahead_doTail : Scan.Ahead c₀ (doTail g) := by
  mvcgen [doTail]
  all_goals grind

@[spec low]
theorem ahead_catchTail : Scan.Ahead c₀ (catchTail g) := by
  mvcgen [catchTail]
  all_goals grind

theorem ahead_clause (w : String) {s : Scan Unit} (hs : ∀ c₀, Scan.Ahead c₀ s) :
    Scan.Ahead c₀ (clause w s) := by
  mvcgen [clause, hs]
  all_goals grind

@[spec low]
theorem ahead_clause_catch (w : String) : Scan.Ahead c₀ (clause w (catchTail g)) :=
  ahead_clause w fun _ => ahead_catchTail

@[spec low]
theorem ahead_clause_block (w : String) (ending : Option Ending) :
    Scan.Ahead c₀ (clause w (g.block ending)) :=
  ahead_clause w fun _ => Grammar.ahead_block ending

@[spec low]
theorem ahead_tryTail : Scan.Ahead c₀ (tryTail g) := by
  mvcgen [tryTail]
  all_goals grind

@[spec low]
theorem ahead_switchCases (n : Nat) : Scan.Ahead c₀ (switchCases g n) := by
  induction n generalizing c₀ with
  | zero => mvcgen [switchCases]
  | succ n ih =>
    mvcgen [switchCases, ih]
    all_goals grind

@[spec low]
theorem ahead_switchTail : Scan.Ahead c₀ (switchTail g) := by
  mvcgen [switchTail]
  all_goals grind

@[spec low]
theorem ahead_jumpTail : Scan.Ahead c₀ jumpTail := by
  mvcgen [jumpTail]
  all_goals grind

@[spec low]
theorem ahead_returnTail : Scan.Ahead c₀ (returnTail g) := by
  mvcgen [returnTail]
  all_goals grind

@[spec low]
theorem ahead_throwTail : Scan.Ahead c₀ (throwTail g) := by
  mvcgen [throwTail]
  all_goals grind

@[spec low]
theorem ahead_interfaceName : Scan.Ahead c₀ interfaceName := by
  mvcgen [interfaceName]
  all_goals grind

@[spec low]
theorem ahead_interfaceList (n : Nat) : Scan.Ahead c₀ (interfaceList n) := by
  induction n generalizing c₀ with
  | zero => mvcgen [interfaceList]
  | succ n ih =>
    mvcgen [interfaceList, ih]
    all_goals grind

@[spec low]
theorem ahead_fromClause : Scan.Ahead c₀ fromClause := by
  mvcgen [fromClause]
  all_goals grind

omit [g.Advances] in
@[spec low]
theorem ahead_importedNames : Scan.Ahead c₀ (importedNames g) := by
  mvcgen [importedNames]
  all_goals grind

@[spec low]
theorem ahead_importTail : Scan.Ahead c₀ (importTail g) := by
  mvcgen [importTail]
  all_goals grind

@[spec low]
theorem ahead_namedDeclaration (ending : Ending) : Scan.Ahead c₀ (namedDeclaration g ending) := by
  mvcgen [namedDeclaration]
  all_goals grind

@[spec low]
theorem ahead_variableList : Scan.Ahead c₀ (variableList g) := by
  mvcgen [variableList]
  all_goals grind

@[spec low]
theorem ahead_declaration (ending : Ending) : Scan.Ahead c₀ (declaration g ending) :=
  Scan.ahead_orElse (ahead_namedDeclaration ending) ahead_variableList

@[spec low]
theorem ahead_clause_name (w : String) : Scan.Ahead c₀ (clause w interfaceName) :=
  ahead_clause w fun _ => ahead_interfaceName

@[spec low]
theorem ahead_default : Scan.Ahead c₀ (declaration g .value <|> do
    let _ ← Scan.asValue (g.expression true)
    Scan.semicolon .value) := by
  apply Scan.ahead_orElse (ahead_declaration .value)
  mvcgen
  all_goals grind

@[spec low]
theorem ahead_exportTail : Scan.Ahead c₀ (exportTail g) := by
  mvcgen [exportTail]
  all_goals grind

@[spec low]
theorem ahead_wordTail (w : String) : Scan.Ahead c₀ (wordTail g w) := by
  mvcgen [wordTail]
  all_goals grind

theorem ahead_braced (start : Cursor) : Scan.Ahead c₀ (braced g start) := by
  have hblock : Scan.Ahead c₀ (do g.block none; verbatimFrom start) := by
    mvcgen
    all_goals grind
  unfold braced
  dsimp only
  split
  · exact Scan.ahead_orElse ahead_expressionStatement hblock
  · exact Scan.ahead_orElse hblock ahead_expressionStatement

@[spec low]
theorem ahead_labelled {start : Cursor} (h : c₀.Reaches start) (w : String) :
    Scan.Ahead c₀ (read.labelled g start w) := by
  mvcgen [read.labelled]
  all_goals grind

@[spec low]
theorem ahead_read : Scan.Ahead c₀ (read g) := by
  mvcgen [read, ahead_braced, Scan.ahead_orElse]
  all_goals grind

end Statement

instance Grammar.advances_ofDepth (n : Nat) : (ofDepth n).Advances := by
  induction n with
  | zero => exact ⟨fun _ _ => Scan.ahead_failure, fun _ => Scan.ahead_failure,
      fun _ => Scan.ahead_failure⟩
  | succ n ih => exact ⟨fun _ tail => Expression.ahead_read tail, fun _ => Statement.ahead_read,
      fun _ => Markup.ahead_element⟩

end SiteConfig.Script
