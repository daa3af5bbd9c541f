import SiteConfig.Proofs.Members

/-!
An expression as it is read from its first token on: an operand, the links behind it one by one,
and the assignment that it may be the left side of. What is none of these is kept as its text.
-/

set_option mvcgen.warning false

namespace SiteConfig.Script
open Text Std.Do

variable {c₀ c d c' : Cursor}

namespace Scan

/-- What a reader gives where it is run. -/
theorem spec_run {α : Type} {s : Scan α} (hs : ∀ c₀, Ahead c₀ s) :
    ⦃fun c => ⌜c = c₀⌝⦄ s ⦃⇓? a c => ⌜c₀.Reaches c ∧ s.run c₀ = some (a, c)⌝⦄ := by
  rw [triple_iff]
  rintro c rfl a c' h
  exact ⟨triple_iff.mp (hs c) c (.refl c) a c' h, h⟩

/-- Right in front of an expression there is nothing to pass. -/
theorem run_opening_start (h : AtStart c) : opening.run c = some ((), c) := by
  have hgap : gap.run c = some ((), c) := by
    rw [gap, run_bind (run_rest c), gap_atToken h.toAtToken, run_skip, Cursor.forward_zero]
  rw [opening, run_bind (run_get c)]
  cases c.left with
  | zero => exact hgap
  | succ n => rw [wideGap, run_bind hgap, run_bind (run_rest c), h.page, run_pure]

end Scan

theorem gap_blanks (cs : List Char) :
    Lexeme.gap cs = Lexeme.run isBlank cs + Lexeme.gap (cs.drop (Lexeme.run isBlank cs)) := by
  induction cs with
  | nil => rfl
  | cons ch rest ih =>
    by_cases hb : isBlank ch
    · have hrun : Lexeme.run isBlank (ch :: rest) = Lexeme.run isBlank rest + 1 := by
        simp [Lexeme.run, hb]
      have hgap : Lexeme.gap (ch :: rest) = 1 + Lexeme.gap rest := by
        simp [Lexeme.gap, Lexeme.gapTail, hb]
      rw [hrun, hgap, ih, List.drop_succ_cons]
      omega
    · simp [Lexeme.run, hb]

/-- The next token stands behind the blanks and comments. -/
theorem next?_eq {e : Ending} {n : Nat} (h : c.next? e n = some d) :
    d = c.forward (Lexeme.gap c.rest) := by
  induction n generalizing c with
  | zero => cases h
  | succ n ih =>
    rw [Cursor.next?] at h
    split at h
    · cases h
    simp only at h
    rw [gap_blanks]
    split at h
    · next k hk =>
      have hgap : Lexeme.gap (c.forward (Lexeme.run isBlank c.rest)).rest =
          k + Lexeme.gap ((c.forward (Lexeme.run isBlank c.rest)).forward k).rest :=
        gap_comment (run_behind c.rest) hk
      rw [ih h, Cursor.forward_forward, Cursor.forward_forward, ← Cursor.rest_forward, hgap]
    · next hk =>
      cases h
      have hat : AtToken (c.forward (Lexeme.run isBlank c.rest)) := atToken_behind hk
      rw [← Cursor.rest_forward, gap_atToken hat, Nat.add_zero]

namespace Scan

theorem spec_gap_forward : ⦃fun c => ⌜c = c₀⌝⦄ gap
    ⦃⇓? _ c => ⌜c = c₀.forward (Lexeme.gap c₀.rest) ∧ Apart c₀ c⌝⦄ := by
  rw [triple_iff]
  rintro c rfl _ c' h
  cases h
  exact ⟨rfl, (gap_spec Lexeme.pageComment c).1⟩

theorem spec_upcoming_forward (e : Ending) : ⦃fun c => ⌜c = c₀⌝⦄ upcoming e
    ⦃⇓? cs c => ⌜c = c₀ ∧ (cs = [] ∨ cs = (c₀.forward (Lexeme.gap c₀.rest)).rest)⌝⦄ := by
  rw [triple_iff]
  rintro c rfl cs c' h
  cases h
  refine ⟨rfl, ?_⟩
  split
  · next d hd => exact .inr (by rw [next?_eq hd])
  · exact .inl rfl

end Scan

/-- The operand is the text between two places. -/
structure Operand.Kept (o : Operand) (c c' : Cursor) : Prop where
  tree : o.tree = .node (some c.position) (.verbatim (c.slice c'))
  core : o.core = o.tree
  isValue : o.isValue

theorem Operand.kept_verbatim (c c' : Cursor) : (verbatim c.position (c.slice c')).Kept c c' :=
  ⟨rfl, rfl, rfl⟩

theorem Cursor.left_forward_lt {n : Nat} (hc : c.rest ≠ []) (hn : 0 < n) :
    (c.forward n).left < c.left := by
  have hleft := c.left_eq
  have hpos := List.length_pos_iff.mpr hc
  rw [left_forward]
  omega

attribute [grind →] Cursor.Reaches.left_le
grind_pattern Cursor.left_forward_lt => c.forward n

theorem Grammar.spec_template {g : Grammar} [g.Advances] : ⦃fun c => ⌜c = c₀⌝⦄ g.template
    ⦃⇓? _ c => ⌜c₀.Reaches c ∧ c.left < c₀.left⌝⦄ := by
  unfold template
  mvcgen
  all_goals grind

namespace Expression

variable {g : Grammar} {tail : Bool} {start : Cursor}

/-- The operand with a name behind it. -/
def memberOf (start : Cursor) (o : Operand) (property : String) : Operand :=
  { tree := .node (some start.position) (.member o.tree property)
    kind := .member
    isTarget := true }

/-- Reads the next thing that is appended to an operand, if there is one. -/
def link (g : Grammar) (tail : Bool) (start : Cursor) (o : Operand) : Scan (Option Operand) := do
  let next ← Scan.upcoming (.ofTail tail)
  match next with
  | '.' :: _ =>
    guard o.isValue
    Scan.token "."
    Scan.gap
    if ← Scan.sees "#" then
      let _ ← Scan.lexeme Lexeme.privateName
      return some { ← Scan.verbatimFrom start with kind := .member, isTarget := true }
    else return some (memberOf start o (← Scan.lexeme Lexeme.name))
  | '[' :: _ =>
    guard o.isValue
    Scan.token "["
    let _ ← g.expressions false
    Scan.token "]"
    return some { ← Scan.verbatimFrom start with kind := .subscript, isTarget := true }
  | '(' :: _ =>
    guard o.isValue
    Scan.token "("
    let l ← g.elements ')'
    guard (l.items.all (·.isValue))
    return some (callOf start o l)
  | '`' :: _ =>
    guard o.isValue
    g.template
    return some { ← Scan.verbatimFrom start with kind := .call }
  | _ =>
    if isOptionalLink next then
      guard o.isValue
      Scan.token "?."
      Scan.gap
      match ← Scan.rest with
      | '(' :: _ =>
        Scan.token "("
        let l ← g.elements ')'
        guard (l.items.all (·.isValue))
        return some { ← Scan.verbatimFrom start with kind := .call }
      | '[' :: _ =>
        Scan.token "["
        let _ ← g.expressions false
        Scan.token "]"
        return some { ← Scan.verbatimFrom start with kind := .subscript, isTarget := true }
      | _ =>
        let _ ← Scan.lexeme fun cs => (Lexeme.name cs).or (Lexeme.privateName cs)
        return some { ← Scan.verbatimFrom start with kind := .member, isTarget := true }
    else if "++".toList.isPrefixOf next || "--".toList.isPrefixOf next then
      guard o.isValue
      Scan.gap
      Scan.skip 2
      return some (← Scan.verbatimFrom start)
    else return none

theorem appended_succ (n : Nat) (o : Operand) :
    appended g tail start (n + 1) o = (do
      match ← link g tail start o with
      | some o' => appended g tail start n o'
      | none => return o) := by
  rw [appended, link, bind_assoc]
  congr 1
  funext next
  split
  · simp only [bind_assoc]
    congr 1; funext _; congr 1; funext _; congr 1; funext _; congr 1; funext b
    split <;> simp [memberOf]
  · simp
  · simp
  · simp
  · split
    · simp only [bind_assoc]
      congr 1; funext _; congr 1; funext _; congr 1; funext _; congr 1; funext cs
      split <;> simp
    · split <;> simp

/-- One link behind an operand that starts at `start`. -/
inductive Linked (g : Grammar) (start : Cursor) (o : Operand) (c : Cursor) :
    Operand → Cursor → Prop where
  | member {d m : Cursor} {n : Nat} (hd : Apart c d) (hdot : d.rest.head? = some '.')
    (hm : Apart (d.forward 1) m) (h : Lexeme.name m.rest = some n) :
    Linked g start o c (memberOf start o (m.slice (m.forward n))) (m.forward n)
  | call {d c' : Cursor} {l : Listing Operand} (hd : Apart c d) (hparen : d.rest.head? = some '(')
    (h : (g.elements ')').run (d.forward 1) = some (l, c')) (hl : l.items.all (·.isValue)) :
    Linked g start o c (callOf start o l) c'
  | kept {o' : Operand} {c' : Cursor} (h : o'.Kept start c') : Linked g start o c o' c'

theorem spec_link [g.Advances] (o : Operand) : ⦃fun c => ⌜c = c₀⌝⦄ link g tail start o
    ⦃⇓? r c => ⌜(r = none → c = c₀) ∧ ∀ o', r = some o' →
      o.isValue ∧ c₀.Reaches c ∧ c.left < c₀.left ∧ Linked g start o c₀ o' c⌝⦄ := by
  have helements : ∀ c₀, ⦃fun c => ⌜c = c₀⌝⦄ g.elements ')'
      ⦃⇓? l c => ⌜c₀.Reaches c ∧ (g.elements ')').run c₀ = some (l, c)⌝⦄ :=
    fun _ => Scan.spec_run fun _ => g.ahead_elements ')'
  unfold link
  mvcgen [helements, Scan.spec_upcoming_forward, -Scan.spec_upcoming, Scan.spec_gap_forward,
    -Scan.spec_gap, Grammar.spec_template, -Grammar.ahead_template]
  all_goals grind [Linked, Operand.Kept, Operand.verbatim]

end Expression

/-- The operand for an array of the items in `l`. -/
def arrayOf (start : Cursor) (l : Listing Operand) : Operand :=
  { tree := .node (some start.position) (.array
      ((Piece.attach l.pieces).1.map fun item => { value := item.1.tree, trivia := item.2 })
      (Piece.attach l.pieces).2)
    kind := .array
    isValue := l.items.all (·.isValue)
    isTarget := l.items.all (·.isPattern) }

/-- The operand for an object of the members in `l`. -/
def objectOf (start : Cursor) (l : Listing Member) : Operand :=
  { tree := .node (some start.position) (.object
      ((Piece.attach l.pieces).1.map fun item => item.1.toProperty item.2)
      (Piece.attach l.pieces).2)
    kind := .object
    isValue := l.items.all (·.isValue)
    isTarget := l.items.all (·.isTarget) }

/-- Reads the members of an object whose opening brace is read. -/
def Grammar.members (g : Grammar) : Scan (Listing Member) :=
  Listing.read '\x7d' g.property pageMember g.room false true

namespace Grammar

variable {g : Grammar} [g.Advances]

theorem ahead_members : Scan.Ahead c₀ g.members :=
  Listing.ahead_read (fun _ => ahead_property) _ _ _ _ _

theorem spec_array_run : ⦃fun c => ⌜c = c₀⌝⦄ g.array
    ⦃⇓? o c => ⌜∃ l, (g.elements ']').run (c₀.forward 1) = some (l, c) ∧ o = arrayOf c₀ l ∧
      c₀.Reaches c⌝⦄ := by
  have helements : ∀ c₀, ⦃fun c => ⌜c = c₀⌝⦄ g.elements ']'
      ⦃⇓? l c => ⌜c₀.Reaches c ∧ (g.elements ']').run c₀ = some (l, c)⌝⦄ :=
    fun _ => Scan.spec_run fun _ => g.ahead_elements ']'
  unfold array
  mvcgen [helements]
  all_goals grind [arrayOf]

theorem spec_object_run : ⦃fun c => ⌜c = c₀⌝⦄ g.object
    ⦃⇓? o c => ⌜∃ l, g.members.run (c₀.forward 1) = some (l, c) ∧ o = objectOf c₀ l ∧
      c₀.Reaches c⌝⦄ := by
  have hmembers : ∀ c₀, ⦃fun c => ⌜c = c₀⌝⦄
      Listing.read '\x7d' g.property pageMember g.room false true
      ⦃⇓? l c => ⌜c₀.Reaches c ∧ g.members.run c₀ = some (l, c)⌝⦄ :=
    fun _ => Scan.spec_run fun _ => g.ahead_members
  unfold object
  mvcgen [hmembers]
  all_goals grind [objectOf]

end Grammar

/-- Words that are read in a way of their own where an operand starts. -/
def ownWords : List String :=
  ["true", "false", "undefined", "null", "this", "super", "function", "class", "import", "new",
    "yield"]

namespace Expression

/-- An operand without what is appended to it. -/
inductive Primed (g : Grammar) (c : Cursor) : Operand → Cursor → Prop where
  | string {n : Nat} (h : Lexeme.string c.rest = some n) :
    Primed g c (.string c.position (c.slice (c.forward n))) (c.forward n)
  | boolean {n : Nat} {value : Bool} (h : Lexeme.name c.rest = some n)
    (hv : c.slice (c.forward n) = if value then "true" else "false") :
    Primed g c (.boolean c.position value) (c.forward n)
  | name {n : Nat} (h : Lexeme.name c.rest = some n) (hw : c.slice (c.forward n) ∉ ownWords) :
    Primed g c (.name c.position (c.slice (c.forward n))) (c.forward n)
  | array {l : Listing Operand} {c' : Cursor} (hc : c.rest.head? = some '[')
    (h : (g.elements ']').run (c.forward 1) = some (l, c')) : Primed g c (arrayOf c l) c'
  | object {l : Listing Member} {c' : Cursor} (hc : c.rest.head? = some '\x7b')
    (h : g.members.run (c.forward 1) = some (l, c')) : Primed g c (objectOf c l) c'
  | parentheses {l : Listing Operand} {o : Operand} {c' : Cursor} (hc : c.rest.head? = some '(')
    (h : (g.elements ')').run (c.forward 1) = some (l, c')) (hl : l.items = [o])
    (hplain : l.isPlain) (ho : o.isValue) : Primed g c (o.wrap c.position (c.slice c')) c'
  | async {n : Nat} {d c' : Cursor} {l : Listing Operand} (h : Lexeme.name c.rest = some n)
    (hw : c.slice (c.forward n) = "async") (hd : Apart (c.forward n) d)
    (hparen : d.rest.head? = some '(') (ha : (g.elements ')').run (d.forward 1) = some (l, c'))
    (hl : l.items.all (·.isValue)) :
    Primed g c (callOf c (.name c.position (c.slice (c.forward n))) l) c'
  | kept {o : Operand} {c' : Cursor} (h : o.Kept c c') (hk : o.kind.losesParentheses = false) :
    Primed g c o c'

/-- Nothing can be appended to a part that is closed, which is kept as its text. -/
structure Part.Primed (p : Part) (g : Grammar) (c c' : Cursor) : Prop where
  primed : Expression.Primed g c p.operand c'
  closed : p.closed → p.operand.Kept c c' ∧ p.operand.kind = .other

theorem primed_kept {g : Grammar} {p : Part} {c c' : Cursor}
    (h : p.operand = .verbatim c.position (c.slice c')) : p.Primed g c c' := by
  have hkept : p.operand.Kept c c' := h ▸ Operand.kept_verbatim c c'
  exact ⟨.kept hkept (by rw [h]; rfl), fun _ => ⟨hkept, by rw [h]; rfl⟩⟩

variable {g : Grammar} [g.Advances] {start : Cursor}

/-! Parts that are kept as their text. -/

theorem kept_ofWord : ⦃fun c => ⌜start.Reaches c⌝⦄ ofWord start
    ⦃⇓? p c => ⌜start.Reaches c ∧ p.operand = .verbatim start.position (start.slice c)⌝⦄ := by
  unfold ofWord
  mvcgen
  all_goals grind

theorem kept_arrowFrom (tail : Bool) : ⦃fun c => ⌜start.Reaches c⌝⦄ arrowFrom g tail start
    ⦃⇓? p c => ⌜start.Reaches c ∧ p.operand = .verbatim start.position (start.slice c)⌝⦄ := by
  unfold arrowFrom
  mvcgen
  all_goals grind

theorem kept_importTail (tail : Bool) : ⦃fun c => ⌜start.Reaches c⌝⦄ importTail tail start
    ⦃⇓? p c => ⌜start.Reaches c ∧ p.operand = .verbatim start.position (start.slice c)⌝⦄ := by
  unfold importTail
  mvcgen [kept_ofWord]
  all_goals grind

theorem kept_yieldTail (tail : Bool) : ⦃fun c => ⌜start.Reaches c⌝⦄ yieldTail g tail start
    ⦃⇓? p c => ⌜start.Reaches c ∧ p.operand = .verbatim start.position (start.slice c)⌝⦄ := by
  unfold yieldTail
  mvcgen [kept_ofWord]
  all_goals grind

theorem kept_newTail (tail : Bool) (n : Nat) :
    ⦃fun c => ⌜start.Reaches c⌝⦄ newTail g tail start n
    ⦃⇓? p c => ⌜start.Reaches c ∧ p.operand = .verbatim start.position (start.slice c)⌝⦄ := by
  cases n with
  | zero => mvcgen [newTail]
  | succ n =>
    unfold newTail
    mvcgen [kept_ofWord]
    all_goals grind

/-! Parts of each form. -/

theorem primed_parenthesised (tail : Bool) :
    ⦃fun c => ⌜c = c₀ ∧ c.rest.head? = some '('⌝⦄ parenthesised g tail
    ⦃⇓? p c => ⌜c₀.Reaches c ∧ p.Primed g c₀ c⌝⦄ := by
  have helements : ∀ c₀, ⦃fun c => ⌜c = c₀⌝⦄ g.elements ')'
      ⦃⇓? l c => ⌜c₀.Reaches c ∧ (g.elements ')').run c₀ = some (l, c)⌝⦄ :=
    fun _ => Scan.spec_run fun _ => g.ahead_elements ')'
  unfold parenthesised
  mvcgen [helements, kept_arrowFrom]
  case vc1 => grind
  case vc2 => grind [primed_kept]
  case vc3 =>
    rename_i hc _ _ hskip l _ hl _ _ _ heq _ o hitems _ hguard
    obtain ⟨rfl, hhead⟩ := hc
    subst hskip heq
    obtain ⟨rfl, hguard⟩ := hguard
    simp only [hitems, Bool.and_eq_true, List.all_cons, List.all_nil, and_true] at hguard
    exact ⟨(Cursor.Reaches.forward _ 1).trans hl.1,
      .parentheses hhead hl.2 hitems hguard.1 hguard.2.1, by rintro ⟨⟩⟩
  case vc4 =>
    rename_i hc _ _ hskip l _ hl _ _ _ heq _ _ _ _ _ _ hguard
    obtain ⟨rfl, hhead⟩ := hc
    subst hskip heq
    obtain ⟨rfl, -⟩ := hguard
    exact ⟨(Cursor.Reaches.forward _ 1).trans hl.1, .kept ⟨rfl, rfl, rfl⟩ rfl, by rintro ⟨⟩⟩

theorem kept_attempt_arrow (tail : Bool) : ⦃fun c => ⌜c = c₀ ∧ start.Reaches c⌝⦄
    Scan.attempt (do let _ ← Scan.name; arrowFrom g tail start)
    ⦃⇓? p c => ⌜(p = none → c = c₀) ∧ ∀ q, p = some q →
      start.Reaches c ∧ q.operand = .verbatim start.position (start.slice c)⌝⦄ := by
  intro c h
  obtain ⟨rfl, hr⟩ := h
  refine Scan.spec_attempt ?_ c rfl
  mvcgen [kept_arrowFrom]
  all_goals grind

theorem primed_asyncTail (tail : Bool) :
    ⦃fun c => ⌜(∃ n, Lexeme.name start.rest = some n ∧ c = start.forward n) ∧
      start.slice c = "async"⌝⦄ asyncTail g tail start
    ⦃⇓? p c => ⌜start.Reaches c ∧ p.Primed g start c⌝⦄ := by
  have helements : ∀ c₀, ⦃fun c => ⌜c = c₀⌝⦄ g.elements ')'
      ⦃⇓? l c => ⌜c₀.Reaches c ∧ (g.elements ')').run c₀ = some (l, c)⌝⦄ :=
    fun _ => Scan.spec_run fun _ => g.ahead_elements ')'
  intro c h
  obtain ⟨⟨n, hn, rfl⟩, hw⟩ := h
  have hplain : ({ operand := .name start.position "async" } : Part).Primed g start
      (start.forward n) := by
    refine ⟨?_, by rintro ⟨⟩⟩
    have := Primed.name (g := g) hn (by rw [hw]; decide)
    rwa [hw] at this
  suffices h : ⦃fun c => ⌜c = start.forward n⌝⦄ asyncTail g tail start
      ⦃⇓? p c => ⌜start.Reaches c ∧ p.Primed g start c⌝⦄ from h _ rfl
  unfold asyncTail
  -- what comes next is looked at in two ways at once, so the cases are split by hand
  refine Triple.bind _ _ (Q := fun _ c => ⌜c = start.forward n⌝) (by mvcgen) fun next => ?_
  dsimp only
  split <;> mvcgen [helements, kept_ofWord, kept_arrowFrom, kept_attempt_arrow]
  all_goals try grind [primed_kept]
  -- a call of the function `async`
  rename_i hopen _ _ hl _ _ _ heq _ _ hguard
  obtain ⟨d, rest, hd, hparen, rfl⟩ := hopen
  subst heq
  obtain ⟨rfl, hvalues⟩ := hguard
  have hreach : start.Reaches d := (Cursor.Reaches.forward start n).trans (by grind)
  refine ⟨hreach.trans ((Cursor.Reaches.forward d 1).trans hl.1), ?_, by rintro ⟨⟩⟩
  have := Primed.async (g := g) hn hw (by grind) (by rw [hparen]; rfl) hl.2 hvalues
  rwa [hw] at this

theorem primed_primary (tail : Bool) (n : Nat) : ⦃fun c => ⌜c = c₀⌝⦄ primary g tail n
    ⦃⇓? p c => ⌜c₀.Reaches c ∧ p.Primed g c₀ c⌝⦄ := by
  cases n with
  | zero =>
    unfold primary
    mvcgen
  | succ n =>
    unfold primary
    mvcgen [primed_parenthesised, kept_ofWord, kept_arrowFrom, kept_newTail, kept_yieldTail,
      kept_importTail, Grammar.spec_array_run, Grammar.spec_object_run, -ahead_asyncTail,
      primed_asyncTail]
    case vc23 =>
      rename_i hword
      obtain ⟨n, -, rfl, hword⟩ := hword
      obtain rfl : _ = c₀ := ‹_ = c₀›
      exact ⟨.forward _ n, .kept ⟨by rw [hword]; rfl, rfl, rfl⟩ rfl, by rintro ⟨⟩⟩
    case vc46 =>
      rename_i hword _ _ _ heq
      obtain ⟨n, hn, rfl, rfl⟩ := hword
      obtain rfl : _ = c₀ := ‹_ = c₀›
      subst heq
      refine ⟨.forward _ n, .name hn ?_, by rintro ⟨⟩⟩
      simp only [ownWords, List.mem_cons, List.not_mem_nil, or_false, not_or]
      exact ⟨‹_›, ‹_›, ‹_›, ‹_›, ‹_›, ‹_›, ‹_›, ‹_›, ‹_›, ‹_›, ‹_›⟩
    all_goals grind [primed_kept, Primed, Part.Primed]

/-! An operand with what is appended to it. -/

/-- From one place to a later one stands an operand with links behind it. -/
inductive Reads (g : Grammar) (tail : Bool) (c : Cursor) : Operand → Cursor → Prop where
  | primary {o : Operand} {c' : Cursor} (hc : AtStart c) (hp : prefixLength? c.rest = none)
    (h : (primary g tail g.room).run c = some ({ operand := o }, c')) : Reads g tail c o c'
  | link {o o' : Operand} {c₁ c' : Cursor} (h : Reads g tail c o c₁)
    (hl : (link g tail c o).run c₁ = some (some o', c')) : Reads g tail c o' c'

namespace Reads

variable {tail : Bool} {o o' : Operand}

omit [g.Advances] in
theorem atStart (h : Reads g tail c o c') : AtStart c := by
  induction h with
  | primary hc _ _ => exact hc
  | link _ _ ih => exact ih

omit [g.Advances] in
theorem unsigned (h : Reads g tail c o c') : prefixLength? c.rest = none := by
  induction h with
  | primary _ hp _ => exact hp
  | link _ _ ih => exact ih

/-- What one link adds. -/
theorem linked {c₁ : Cursor} (hl : (Expression.link g tail c o).run c₁ = some (some o', c')) :
    o.isValue ∧ c₁.Reaches c' ∧ c'.left < c₁.left ∧ Linked g c o c₁ o' c' :=
  (Scan.triple_iff.mp (spec_link o) c₁ rfl (some o') c' hl).2 o' rfl

theorem reaches (h : Reads g tail c o c') : c.Reaches c' := by
  induction h with
  | primary _ _ h => exact (Scan.triple_iff.mp (primed_primary tail g.room) c rfl _ _ h).1
  | link _ hl ih => exact ih.trans (linked hl).2.1

/-- What holds of an operand that nothing is appended to, and goes on to hold with each link, holds
of all that is read. -/
theorem induct {P : Operand → Cursor → Prop} (h : Reads g tail c o c')
    (hprimed : ∀ o c', Primed g c o c' → Reads g tail c o c' → P o c')
    (hlinked : ∀ o c₁ o' c', P o c₁ → Reads g tail c o c₁ → Linked g c o c₁ o' c' →
      (Expression.link g tail c o).run c₁ = some (some o', c') → P o' c') : P o c' := by
  induction h with
  | primary hc hp h =>
    obtain ⟨-, h'⟩ := Scan.triple_iff.mp (primed_primary tail g.room) c rfl _ _ h
    exact hprimed _ _ h'.primed (.primary hc hp h)
  | link h hl ih => exact hlinked _ _ _ _ ih h (linked hl).2.2.2 hl

/-- All that is appended is linked. -/
theorem of_appended {n : Nat} {c₁ : Cursor} (h : Reads g tail c o c₁)
    (happended : (appended g tail c n o).run c₁ = some (o', c')) : Reads g tail c o' c' := by
  induction n generalizing o c₁ with
  | zero => cases happended
  | succ n ih =>
    rw [appended_succ] at happended
    cases hrun : (Expression.link g tail c o).run c₁ with
    | none =>
      rw [StateT.run_bind, hrun] at happended
      cases happended
    | some out =>
      obtain ⟨r, c₂⟩ := out
      rw [Scan.run_bind hrun] at happended
      cases r with
      | none =>
        obtain rfl : c₂ = c₁ := (Scan.triple_iff.mp (spec_link o) c₁ rfl none c₂ hrun).1 rfl
        cases happended
        exact h
      | some o₂ => exact ih (h.link hrun) happended

/-- The loop that appends links takes them one by one. -/
theorem appended_run (h : Reads g tail c o c') : ∃ p c₁,
    (Expression.primary g tail g.room).run c = some ({ operand := p }, c₁) ∧ c.Reaches c₁ ∧
    ∀ fuel, c₁.left < fuel → ∃ fuel', c'.left < fuel' ∧
      (Expression.appended g tail c fuel p).run c₁ =
        (Expression.appended g tail c fuel' o).run c' := by
  induction h with
  | primary hc hp h =>
    exact ⟨_, _, h, (Reads.primary hc hp h).reaches, fun fuel hfuel => ⟨fuel, hfuel, rfl⟩⟩
  | link h hl ih =>
    obtain ⟨p, c₁, hprimary, hreach, hrun⟩ := ih
    refine ⟨p, c₁, hprimary, hreach, fun fuel hfuel => ?_⟩
    obtain ⟨fuel', hfuel', hrun⟩ := hrun fuel hfuel
    obtain ⟨fuel', rfl⟩ : ∃ n, fuel' = n + 1 := ⟨fuel' - 1, by omega⟩
    obtain ⟨-, -, hlt, -⟩ := linked hl
    refine ⟨fuel', by omega, ?_⟩
    rw [hrun, appended_succ, Scan.run_bind hl]

end Reads

end Expression

namespace Operand

/-- The tree of the left side of an assignment. A pattern is kept as its text. -/
def target (start : Cursor) (o : Operand) (behind : Cursor) : Tree :=
  if !o.wrapped && (o.kind = .array || o.kind = .object) then
    .node (some start.position) (.verbatim (start.slice behind))
  else o.tree

end Operand

namespace Expression

/-- The assignment of `right` to `left`. -/
def assignmentOf (start : Cursor) (left : Operand) (behind : Cursor) (right : Operand) : Operand :=
  { tree := .node (some start.position) (.assignment (left.target start behind) right.tree)
    kind := .assignment
    isDefaulted := left.isTarget && !left.wrapped }

/-- An expression without commas: an operand, an assignment, or a text with an operator. -/
inductive Valued (g : Grammar) (tail : Bool) (c : Cursor) : Operand → Cursor → Prop where
  | operand {o : Operand} {c' : Cursor} (h : Reads g tail c o c') : Valued g tail c o c'
  | assignment {o right : Operand} {d e c' : Cursor} (h : Reads g tail c o d) (ho : o.isAssignable)
    (hd : Apart d e) (he : e.rest.head? = some '=')
    (hr : (Scan.asValue (g.expression tail)).run (e.forward 1) = some (right, c')) :
    Valued g tail c (assignmentOf c o d right) c'
  | kept {o : Operand} {c' : Cursor} (h : o.Kept c c') (hk : o.kind = .other) :
    Valued g tail c o c'

variable {g : Grammar} [g.Advances] {tail : Bool} {start : Cursor} {o : Operand}

omit [g.Advances] in
theorem valued_verbatim (start c : Cursor) :
    Valued g tail start (.verbatim start.position (start.slice c)) c :=
  .kept ⟨rfl, rfl, rfl⟩ rfl

theorem spec_appended_reads (n : Nat) :
    ⦃fun c => ⌜Reads g tail start o c⌝⦄ appended g tail start n o
    ⦃⇓? o' c => ⌜Reads g tail start o' c⌝⦄ :=
  Scan.triple_iff.mpr fun _ h _ _ hrun => h.of_appended hrun

theorem spec_assigned_valued :
    ⦃fun c => ⌜Reads g tail start o c⌝⦄ assigned g tail start o
    ⦃⇓? o' c => ⌜start.Reaches c ∧ Valued g tail start o' c⌝⦄ := by
  have hvalue : ∀ c₀, ⦃fun c => ⌜c = c₀⌝⦄ Scan.asValue (g.expression tail)
      ⦃⇓? o c => ⌜c₀.Reaches c ∧ (Scan.asValue (g.expression tail)).run c₀ = some (o, c)⌝⦄ :=
    fun _ => Scan.spec_run fun _ => g.ahead_value tail
  unfold assigned
  mvcgen [hvalue]
  case vc1 =>
    rename_i h _ hequals _ _ _ hsame _ _ htoken _ _ hright
    obtain ⟨d, rest, hd, hrest, rfl⟩ := htoken
    subst hsame
    simp only [Bool.and_eq_true] at hequals
    have hreach := h.reaches
    exact ⟨by grind, .assignment h hequals.2 hd (by rw [hrest]; rfl) hright.2⟩
  all_goals grind [Valued.operand, valued_verbatim, → Reads.reaches]

theorem spec_operand_valued (n : Nat) (hn : n = g.room) :
    ⦃fun c => ⌜c = c₀⌝⦄ operand g tail n
    ⦃⇓? o c => ⌜∃ m, Apart c₀ m ∧ AtStart m ∧ (AtStart c₀ → m = c₀) ∧ m.Reaches c ∧
      Valued g tail m o c⌝⦄ := by
  cases n with
  | zero =>
    unfold operand
    mvcgen
  | succ n =>
    have hprimary : ∀ c₀, ⦃fun c => ⌜c = c₀⌝⦄ primary g tail (n + 1)
        ⦃⇓? p c => ⌜c₀.Reaches c ∧ (p.closed → Valued g tail c₀ p.operand c) ∧
          (p.closed = false → AtStart c₀ → prefixLength? c₀.rest = none →
            Reads g tail c₀ p.operand c)⌝⦄ := by
      intro c₀
      rw [Scan.triple_iff]
      rintro _ rfl p c' h
      obtain ⟨hreach, hprimed⟩ := Scan.triple_iff.mp (primed_primary tail _) _ rfl _ _ h
      refine ⟨hreach, fun hp => ?_, fun hp hc hunsigned => ?_⟩
      · exact .kept (hprimed.closed hp).1 (hprimed.closed hp).2
      · obtain ⟨o, closed⟩ := p
        cases hp
        exact .primary hc hunsigned (hn ▸ h)
    unfold operand
    mvcgen [hprimary, -ahead_primary, spec_appended_reads, -ahead_appended, spec_assigned_valued,
      -ahead_assigned]
    all_goals grind [valued_verbatim]

theorem spec_operators_valued (n : Nat) :
    ⦃fun c => ⌜start.Reaches c ∧ Valued g tail start o c⌝⦄ operators g tail start n o
    ⦃⇓? o' c => ⌜start.Reaches c ∧ Valued g tail start o' c⌝⦄ := by
  induction n generalizing o with
  | zero =>
    unfold operators
    mvcgen
  | succ n ih =>
    unfold operators
    mvcgen [ih]
    all_goals grind [valued_verbatim]

/-- What is read as an expression, from its first token on. -/
theorem spec_read_valued : ⦃fun c => ⌜c = c₀⌝⦄ read g tail
    ⦃⇓? o c => ⌜∃ m, Apart c₀ m ∧ AtStart m ∧ (AtStart c₀ → m = c₀) ∧ m.Reaches c ∧
      Valued g tail m o c⌝⦄ := by
  have hoperand : ∀ c₀, ⦃fun c => ⌜c = c₀⌝⦄ operand g tail g.room
      ⦃⇓? o c => ⌜∃ m, Apart c₀ m ∧ AtStart m ∧ (AtStart c₀ → m = c₀) ∧ m.Reaches c ∧
        Valued g tail m o c⌝⦄ := fun _ => spec_operand_valued g.room rfl
  unfold read
  mvcgen [hoperand, -ahead_operand, spec_operators_valued, -ahead_operators]
  all_goals grind

theorem read_valued (hc : AtStart c) (h : (read g tail).run c = some (o, c')) :
    c.Reaches c' ∧ Valued g tail c o c' := by
  obtain ⟨m, -, -, hm, hreach, hvalued⟩ :=
    Scan.triple_iff.mp spec_read_valued c rfl o c' h
  obtain rfl := hm hc
  exact ⟨hreach, hvalued⟩

omit [g.Advances] in
/-- What stands in front of an expression is passed over first. -/
theorem read_start {r : Operand × Cursor} (h : (read g tail).run c = some r) :
    ∃ m, Apart c m ∧ AtStart m ∧ (AtStart c → m = c) ∧ (read g tail).run m = some r := by
  rw [read] at h
  cases hopening : Scan.opening.run c with
  | none =>
    rw [StateT.run_bind, hopening] at h
    cases h
  | some out =>
    obtain ⟨⟨⟩, m⟩ := out
    obtain ⟨hm, hstart, hsame⟩ := Scan.triple_iff.mp Scan.spec_opening c rfl () m hopening
    rw [Scan.run_bind hopening] at h
    refine ⟨m, hm, hstart, hsame, ?_⟩
    rw [read, Scan.run_bind (Scan.run_opening_start hstart)]
    exact h

end Expression

end SiteConfig.Script
