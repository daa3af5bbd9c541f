import SiteConfig.Proofs.Listings
import SiteConfig.Proofs.Places
import SiteConfig.Proofs.Quoting

/-!
Operands of an expression with what is appended to them, and the mark or assignment behind them.
-/

namespace SiteConfig.Script
open Text

/-- What a layout writes behind an operand. -/
inductive Follows : List Char → Prop where
  | stop {s : Char} (h : Stops s) (rest : List Char) : Follows (s :: rest)
  | name (rest : List Char) : Follows ('.' :: rest)
  | arguments (rest : List Char) : Follows ('(' :: rest)
  | equals (rest : List Char) : Follows (' ' :: '=' :: ' ' :: rest)

theorem Place.Before.follows {place : Place} {rest : List Char} (h : place.Before rest) :
    Follows rest := by
  cases place with
  | item | value =>
    obtain ⟨s, rest, hs, rfl⟩ := h
    exact .stop hs rest
  | object =>
    obtain ⟨rest, rfl⟩ := h
    exact .name rest
  | callee =>
    obtain ⟨rest, rfl⟩ := h
    exact .arguments rest
  | target =>
    obtain ⟨rest, rfl⟩ := h
    exact .equals rest
  | alone =>
    obtain ⟨rest, rfl⟩ := h
    exact .stop (.inr (.inr (.inr rfl))) rest

theorem Lexeme.Solid.atStart {c : Cursor} (h : Solid c.rest) : AtStart c :=
  ⟨⟨h.run_eq_zero, h.comment⟩, h.pageComment⟩

variable {c c' c'' start : Cursor} {s : Char} {rest : List Char} {tail : Bool} {fuel : Nat}

theorem Stops.steady (h : Stops s) (rest : List Char) : Steady (s :: rest) := by
  rcases h with rfl | rfl | rfl | rfl <;> exact ⟨⟨_, rest, rfl, by decide⟩, by simp⟩

theorem Stops.isPunctuation (h : Stops s) : isPunctuation s = true ∧ s ≠ '\\' := by
  rcases h with rfl | rfl | rfl | rfl <;> simp [Text.isPunctuation]

theorem steady_equals (rest : List Char) : Steady ('=' :: ' ' :: rest) :=
  ⟨⟨_, _, rfl, by decide⟩, by simp⟩

theorem Scan.wordOf_mark {ch : Char} (h : isPunctuation ch = true) (hne : ch ≠ '\\')
    (rest : List Char) : wordOf (ch :: rest) = none := by
  rw [wordOf, Lexeme.name_of_isPunctuation h hne, Option.map_none]

/-- The token that follows is neither an arrow nor a colon, nor a word. -/
theorem Follows.next (h : Follows rest) :
    ∃ cs, (rest = cs ∨ rest = ' ' :: cs) ∧ Steady cs ∧ Expression.isArrow cs = false ∧
      cs.head? ≠ some ':' ∧ Scan.wordOf cs = none ∧
      (rest.head? ≠ some '(' → cs.head? ≠ some '(') := by
  cases h with
  | @stop s hs rest =>
    have hword := Scan.wordOf_mark hs.isPunctuation.1 hs.isPunctuation.2 rest
    refine ⟨s :: rest, .inl rfl, hs.steady rest, ?_⟩
    rcases hs with rfl | rfl | rfl | rfl <;> exact ⟨rfl, by simp, hword, id⟩
  | name rest =>
    exact ⟨_, .inl rfl, ⟨⟨_, rest, rfl, by decide⟩, by simp⟩, rfl, by simp,
      Scan.wordOf_mark (by simp [isPunctuation]) (by decide) rest, id⟩
  | arguments rest =>
    exact ⟨_, .inl rfl, ⟨⟨_, rest, rfl, by decide⟩, by simp⟩, rfl, by simp,
      Scan.wordOf_mark (by simp [isPunctuation]) (by decide) rest, id⟩
  | equals rest =>
    exact ⟨_, .inr rfl, steady_equals rest, rfl, by simp,
      Scan.wordOf_mark (by simp [isPunctuation]) (by decide) _, by simp⟩

theorem Follows.endsName (h : Follows rest) : Lexeme.EndsName rest := by
  intro ch hch
  cases h with
  | stop hs rest =>
    cases hch
    exact ⟨Lexeme.isNamePart_of_isPunctuation hs.isPunctuation.1, hs.isPunctuation.2⟩
  | name | arguments =>
    cases hch
    exact ⟨Lexeme.isNamePart_of_isPunctuation (by simp [isPunctuation]), by decide⟩
  | equals =>
    cases hch
    exact ⟨Lexeme.isNamePart_of_isBlank rfl, by decide⟩

theorem Scan.wordOf_append {w : String} (hw : Lexeme.IsName w) (hrest : Lexeme.EndsName rest) :
    wordOf (w.toList ++ rest) = some w := by
  rw [wordOf, Lexeme.name_append hw hrest, Option.map_some, List.take_left, String.ofList_toList]

namespace Expression

variable {g : Grammar} {o o' : Operand}

/-! What is appended to an operand. -/

theorem link_stop (hs : Stops s) (h : c.rest = s :: rest) :
    (link g tail start o).run c = some (none, c) := by
  have hnext : (Scan.upcoming (.ofTail tail)).run c = some (s :: rest, c) :=
    Scan.run_upcoming _ (hs.steady rest) (.inl h)
  rw [link, Scan.run_bind hnext]
  rcases hs with rfl | rfl | rfl | rfl <;> simp [isOptionalLink]

theorem link_equals (h : c.rest = ' ' :: '=' :: ' ' :: rest) :
    (link g tail start o).run c = some (none, c) := by
  have hnext : (Scan.upcoming (.ofTail tail)).run c = some ('=' :: ' ' :: rest, c) :=
    Scan.run_upcoming _ (steady_equals rest) (.inr h)
  rw [link, Scan.run_bind hnext]
  simp [isOptionalLink]

theorem link_member {property : String} (hp : Lexeme.IsName property)
    (hrest : Lexeme.EndsName rest) (ho : o.isValue)
    (h : c.rest = '.' :: (property.toList ++ rest)) :
    (link g tail start o).run c =
      some (some (memberOf start o property), c.forward (1 + property.toList.length)) := by
  have hdot : Steady c.rest := ⟨⟨_, _, h, by decide⟩, by simp [h]⟩
  have hnext := Scan.run_upcoming_steady (.ofTail tail) hdot
  have htoken : (Scan.token ".").run c = some ((), c.forward 1) :=
    Scan.run_token_solid (s := ".") h hdot.1
  have hbehind : (c.forward 1).rest = property.toList ++ rest := by
    rw [Cursor.rest_forward, h]
    rfl
  obtain ⟨hsolid, hhead⟩ := Lexeme.solid_of_name hp rest
  rw [← hbehind] at hsolid hhead
  have hsharp : "#".toList.isPrefixOf (c.forward 1).rest = false :=
    Lexeme.isPrefixOf_of_head rfl (hhead '#' (by simp [isPunctuation]) (by decide))
  have hname := Scan.run_lexeme hbehind (Lexeme.name_append hp hrest)
  rw [link, Scan.run_bind hnext, h]
  simp only
  rw [Scan.run_bind (Scan.run_guard ho c), Scan.run_bind htoken,
    Scan.run_bind (Scan.run_gap_solid hsolid), Scan.run_bind (Scan.run_sees "#" _), hsharp,
    if_neg (by decide), Scan.run_bind hname, Cursor.forward_forward,
    String.ofList_toList]
  rfl

theorem link_call {cs : List Char} {l : Listing Operand} (ho : o.isValue)
    (h : c.rest = '(' :: cs) (hl : (g.elements ')').run (c.forward 1) = some (l, c'))
    (hvalues : l.items.all (·.isValue)) :
    (link g tail start o).run c = some (some (callOf start o l), c') := by
  have hopen : Steady c.rest := ⟨⟨_, _, h, by decide⟩, by simp [h]⟩
  have hnext := Scan.run_upcoming_steady (.ofTail tail) hopen
  have htoken : (Scan.token "(").run c = some ((), c.forward 1) :=
    Scan.run_token_solid (s := "(") h hopen.1
  rw [link, Scan.run_bind hnext, h]
  simp only
  rw [Scan.run_bind (Scan.run_guard ho c), Scan.run_bind htoken, Scan.run_bind hl,
    Scan.run_bind (Scan.run_guard hvalues c'), Scan.run_pure]

/-! What follows an operand. -/

theorem assigned_stop (hs : Stops s) (h : c.rest = s :: rest) :
    (assigned g tail start o).run c = some (o, c) := by
  have hnext : (Scan.upcoming (.ofTail tail)).run c = some (s :: rest, c) :=
    Scan.run_upcoming _ (hs.steady rest) (.inl h)
  rw [assigned, Scan.run_bind (Scan.run_get c), Scan.run_bind hnext]
  have hequals : isPlainEquals (s :: rest) = false := by
    rcases hs with rfl | rfl | rfl | rfl <;> rfl
  have hsign : signLength? assignmentOperators (s :: rest) = none := by
    rcases hs with rfl | rfl | rfl | rfl <;> simp [signLength?, assignmentOperators]
  simp [hequals, hsign]

theorem operators_stop (hs : Stops s) (h : c.rest = s :: rest) :
    (operators g tail start (fuel + 1) o).run c = some (o, c) := by
  have hnext : (Scan.upcoming (.ofTail tail)).run c = some (s :: rest, c) :=
    Scan.run_upcoming _ (hs.steady rest) (.inl h)
  have hword : Scan.wordOf (s :: rest) = none := by
    rw [Scan.wordOf, Lexeme.name_of_isPunctuation hs.isPunctuation.1 hs.isPunctuation.2]
    rfl
  have hchoice : isChoice (s :: rest) = false := by
    rcases hs with rfl | rfl | rfl | rfl <;> rfl
  have hsign : signLength? binaryOperators (s :: rest) = none := by
    rcases hs with rfl | rfl | rfl | rfl <;> simp [signLength?, binaryOperators]
  rw [operators, Scan.run_bind hnext, hchoice, if_neg (by decide), binaryLength?, hword, hsign,
    Scan.run_pure]

/-! The operand itself. -/

theorem prefixLength?_word {w : String} (hw : Lexeme.IsName w) (hk : w ∉ prefixWords)
    (hrest : Lexeme.EndsName rest) : prefixLength? (w.toList ++ rest) = none := by
  have hcontains : prefixWords.contains w = false := by simpa using hk
  rw [prefixLength?, Scan.wordOf_append hw hrest]
  simp only [hcontains, if_neg Bool.false_ne_true]

/-- The marks that a value starts with. -/
theorem prefixLength?_mark {ch : Char}
    (h : ch = '\'' ∨ ch = '"' ∨ ch = '[' ∨ ch = '\x7b') (rest : List Char) :
    prefixLength? (ch :: rest) = none := by
  have hname : Lexeme.name (ch :: rest) = none := by
    rcases h with rfl | rfl | rfl | rfl <;>
      exact Lexeme.name_of_isPunctuation (by simp [isPunctuation]) (by decide) rest
  rw [prefixLength?, Scan.wordOf, hname, Option.map_none]
  rcases h with rfl | rfl | rfl | rfl <;> simp [signLength?, prefixSigns]

theorem primary_string {value : String} (h : c.rest = (Quoted.quote value).toList ++ rest) :
    (primary g tail (fuel + 1)).run c =
      some ({ operand := .string c.position (Quoted.quote value) },
        c.forward (Quoted.quote value).toList.length) := by
  have hlexeme := Scan.run_lexeme h (Lexeme.string_quote value rest)
  obtain ⟨q, cs, hq, hhead⟩ : ∃ q cs, (q = '\'' ∨ q = '"') ∧ c.rest = q :: cs :=
    ⟨_, _, Quoted.delimiter_eq _, h.trans (by rw [Quoted.quote, String.toList_ofList]; rfl)⟩
  rw [primary, Scan.run_bind (Scan.run_get c), hhead]
  simp only [if_pos (show (decide (q = '\'') || decide (q = '"')) = true by simpa using hq)]
  rw [Scan.run_bind hlexeme, String.ofList_toList, Scan.run_pure]

theorem primary_array (h : c.rest = '[' :: rest) :
    (primary g tail (fuel + 1)).run c =
      (g.array.run c).map fun out => ({ operand := out.1 }, out.2) := by
  rw [primary, Scan.run_bind (Scan.run_get c), h]
  simp only [Char.reduceEq, decide_false, Bool.or_self, Bool.false_eq_true, if_false, if_true]
  rw [Scan.run_bind_pure]

theorem primary_object (h : c.rest = '\x7b' :: rest) :
    (primary g tail (fuel + 1)).run c =
      (g.object.run c).map fun out => ({ operand := out.1 }, out.2) := by
  rw [primary, Scan.run_bind (Scan.run_get c), h]
  simp only [Char.reduceEq, decide_false, Bool.or_self, Bool.false_eq_true, if_false, if_true]
  rw [Scan.run_bind_pure]

/-- A word starts like no other operand. -/
theorem head_word {w : String} (hw : Lexeme.IsName w) (rest : List Char) :
    ∃ ch cs, w.toList ++ rest = ch :: cs ∧ ch ≠ '\'' ∧ ch ≠ '"' ∧ ch ≠ '`' ∧ ch ≠ '(' ∧ ch ≠ '[' ∧
      ch ≠ '\x7b' ∧ ch ≠ '/' ∧ ch ≠ '<' ∧ ch ≠ '@' ∧ ch ≠ '#' ∧ ch ≠ '.' ∧ isDigit ch = false := by
  obtain ⟨ch, cs, heq, hch⟩ := Lexeme.head_of_name hw
  have hne := fun d => Lexeme.ne_of_startsName (d := d) hch
  refine ⟨ch, cs ++ rest, by rw [heq, List.cons_append], ?_⟩
  have hdigit : isDigit ch = false := by
    rcases hch with hch | rfl
    · simp only [isNameStart, Bool.and_eq_true, Bool.not_eq_true'] at hch
      exact hch.2
    · rfl
  refine ⟨hne _ ?_ ?_, hne _ ?_ ?_, hne _ ?_ ?_, hne _ ?_ ?_, hne _ ?_ ?_, hne _ ?_ ?_, hne _ ?_ ?_,
    hne _ ?_ ?_, hne _ ?_ ?_, hne _ ?_ ?_, hne _ ?_ ?_, hdigit⟩
  all_goals simp [isPunctuation]

theorem isName_boolean (value : Bool) : Lexeme.IsName (if value then "true" else "false") := by
  cases value <;> unfold Lexeme.IsName <;> cbv

theorem primary_boolean {value : Bool} (hrest : Lexeme.EndsName rest)
    (h : c.rest = (if value then "true" else "false").toList ++ rest) :
    (primary g tail (fuel + 1)).run c =
      some ({ operand := .boolean c.position value },
        c.forward (if value then "true" else "false").toList.length) := by
  have hname := isName_boolean value
  have hlexeme := Scan.run_lexeme h (Lexeme.name_append hname hrest)
  obtain ⟨ch, cs, heq, hmarks⟩ := head_word hname rest
  rw [primary, Scan.run_bind (Scan.run_get c), h, heq]
  simp only [hmarks, decide_false, Bool.or_self, Bool.false_eq_true, if_false]
  rw [Scan.run_bind hlexeme, String.ofList_toList]
  cases value <;> rfl

theorem asyncTail_next {next : List Char} (hnext : (Scan.upcoming (.ofTail tail)).run c' =
      some (next, c')) (hword : Scan.wordOf next = none) (hparen : next.head? ≠ some '(')
    (harrow : isArrow next = false) :
    (asyncTail g tail c).run c' = some ({ operand := .name c.position "async" }, c') := by
  rw [asyncTail, Scan.run_bind hnext]
  split
  · next heq => rw [hword] at heq; cases heq
  · next heq => rw [hword] at heq; cases heq
  · simp at hparen
  · rw [harrow, if_neg (by decide), Scan.run_pure]

theorem primary_name {w : String} (hname : Lexeme.IsName w) (hk : w ∉ ownWords)
    (hrest : Follows rest) (hasync : w = "async" → rest.head? ≠ some '(')
    (h : c.rest = w.toList ++ rest) :
    (primary g tail (fuel + 1)).run c =
      some ({ operand := .name c.position w }, c.forward w.toList.length) := by
  have hlexeme := Scan.run_lexeme h (Lexeme.name_append hname hrest.endsName)
  obtain ⟨ch, cs, heq, hmarks⟩ := head_word hname rest
  obtain ⟨cs', hnext, hsteady, harrow, -, hword, hparen⟩ := hrest.next
  have hbehind := Cursor.rest_behind h
  have hupcoming := Scan.run_upcoming (.ofTail tail) hsteady (by rwa [hbehind])
  rw [primary, Scan.run_bind (Scan.run_get c), h, heq]
  simp only [hmarks, decide_false, Bool.or_self, Bool.false_eq_true, if_false]
  rw [Scan.run_bind hlexeme, String.ofList_toList]
  split
  case h_9 =>
    exact asyncTail_next hupcoming hword (hparen (hasync rfl)) harrow
  case h_13 => rw [Scan.run_bind hupcoming, harrow, if_neg (by decide), Scan.run_pure]
  all_goals exact absurd (by simp [ownWords]) hk

/-- A call of the function `async` is read as a whole. -/
theorem primary_call {cs : List Char} {l : Listing Operand}
    (h : c.rest = "async".toList ++ '(' :: cs)
    (hl : (g.elements ')').run (c.forward 6) = some (l, c'))
    (hvalues : l.items.all (·.isValue)) (hrest : Follows c'.rest) :
    (primary g tail (fuel + 1)).run c =
      some ({ operand := callOf c (.name c.position "async") l }, c') := by
  have hname : Lexeme.IsName "async" := by
    unfold Lexeme.IsName
    cbv
  have hends : Lexeme.EndsName ('(' :: cs) := (Follows.arguments cs).endsName
  have hlexeme := Scan.run_lexeme h (Lexeme.name_append hname hends)
  obtain ⟨ch, cs', heq, hmarks⟩ := head_word hname ('(' :: cs)
  obtain ⟨next, hnext, hsteady, harrow, -⟩ := hrest.next
  have hbehind := Cursor.rest_behind h
  have hopen : Steady (c.forward "async".toList.length).rest := by
    rw [hbehind]
    exact ⟨⟨_, cs, rfl, by decide⟩, by simp⟩
  have hupcoming := Scan.run_upcoming_steady (.ofTail tail) hopen
  have htoken := Scan.run_token_solid (s := "(") hbehind hopen.1
  have hword : Scan.wordOf ('(' :: cs) = none :=
    Scan.wordOf_mark (by simp [isPunctuation]) (by decide) cs
  rw [hbehind] at hupcoming
  rw [Cursor.forward_forward, show "async".toList.length + "(".length = 6 from rfl] at htoken
  rw [primary, Scan.run_bind (Scan.run_get c), h, heq]
  simp only [hmarks, decide_false, Bool.or_self, Bool.false_eq_true, if_false]
  rw [Scan.run_bind hlexeme, String.ofList_toList]
  simp only
  rw [asyncTail, Scan.run_bind hupcoming, hword]
  simp only
  rw [Scan.run_bind htoken, Scan.run_bind hl, Scan.run_bind (Scan.run_upcoming _ hsteady hnext),
    harrow, if_neg (by decide), Scan.run_bind (Scan.run_guard hvalues c'), Scan.run_pure]

/-! An operand with all that is appended to it. -/

section Reads

variable [g.Advances]

theorem Reads.operand_run (h : Reads g tail c o c') (hroom : c.left < g.room) :
    ∃ fuel, (operand g tail g.room).run c =
      ((appended g tail c (fuel + 1) o) >>= assigned g tail c).run c' := by
  obtain ⟨p, c₁, hprimary, hreach, happended⟩ := h.appended_run
  have hleft := hreach.left_le
  obtain ⟨fuel, hfuel, hrun⟩ := happended g.room (by omega)
  obtain ⟨fuel, rfl⟩ : ∃ n, fuel = n + 1 := ⟨fuel - 1, by omega⟩
  obtain ⟨room, hroom⟩ : ∃ n, g.room = n + 1 := ⟨g.room - 1, by omega⟩
  refine ⟨fuel, ?_⟩
  rw [hroom] at hprimary hrun ⊢
  rw [operand, Scan.run_bind (Scan.run_opening_start h.atStart), Scan.run_bind (Scan.run_get c),
    h.unsigned]
  simp only
  rw [Scan.run_bind hprimary]
  simp only [Bool.false_eq_true, if_false, StateT.run_bind, ← hrun, hroom]

theorem Reads.read_stop (h : Reads g tail c o c') (hroom : c.left < g.room) (hs : Stops s)
    (hrest : c'.rest = s :: rest) : (Expression.read g tail).run c = some (o, c') := by
  obtain ⟨fuel, hrun⟩ := h.operand_run hroom
  obtain ⟨room, hfuel⟩ : ∃ n, g.room = n + 1 := ⟨g.room - 1, by omega⟩
  have happended : (appended g tail c (fuel + 1) o).run c' = some (o, c') := by
    rw [appended_succ, Scan.run_bind (link_stop hs hrest), Scan.run_pure]
  have hoperand : (operand g tail g.room).run c = some (o, c') := by
    rw [hrun, Scan.run_bind happended, assigned_stop hs hrest]
  rw [Expression.read, Scan.run_bind (Scan.run_opening_start h.atStart),
    Scan.run_bind (Scan.run_get c), Scan.run_bind hoperand, hfuel, operators_stop hs hrest]

theorem Reads.read_equals {right : Operand} (h : Reads g tail c o c') (hroom : c.left < g.room)
    (ho : o.isAssignable) (hequals : c'.rest = ' ' :: '=' :: ' ' :: rest)
    (hright : (g.expression tail).run (c'.forward 2) = some (right, c''))
    (hvalue : right.isValue && right.kind ≠ .spread) (hs : Stops s) {rest' : List Char}
    (hrest : c''.rest = s :: rest') :
    (Expression.read g tail).run c = some (assignmentOf c o c' right, c'') := by
  obtain ⟨fuel, hrun⟩ := h.operand_run hroom
  obtain ⟨room, hfuel⟩ : ∃ n, g.room = n + 1 := ⟨g.room - 1, by omega⟩
  have hnext : (Scan.upcoming (.ofTail tail)).run c' = some ('=' :: ' ' :: rest, c') :=
    Scan.run_upcoming _ (steady_equals rest) (.inr hequals)
  have htoken : (Scan.token "=").run c' = some ((), c'.forward 2) :=
    Scan.run_token (show c'.rest = [' '] ++ ("=".toList ++ ' ' :: rest) from hequals)
      (blank_singleton rfl) (steady_equals rest).1
  have hassignable : (isPlainEquals ('=' :: ' ' :: rest) && o.isAssignable) = true := by
    rw [ho]
    rfl
  have hright' : (Scan.asValue (g.expression tail)).run (c'.forward 2) = some (right, c'') := by
    rw [Scan.asValue, Scan.run_bind hright, Scan.run_bind (Scan.run_guard hvalue _), Scan.run_pure]
  have happended : (appended g tail c (fuel + 1) o).run c' = some (o, c') := by
    rw [appended_succ, Scan.run_bind (link_equals hequals), Scan.run_pure]
  have hassigned : (assigned g tail c o).run c' = some (assignmentOf c o c' right, c'') := by
    rw [assigned, Scan.run_bind (Scan.run_get c'), Scan.run_bind hnext, if_pos hassignable,
      Scan.run_bind htoken, Scan.run_bind hright', Scan.run_pure]
    rfl
  have hoperand : (operand g tail g.room).run c = some (assignmentOf c o c' right, c'') := by
    rw [hrun, Scan.run_bind happended, hassigned]
  rw [Expression.read, Scan.run_bind (Scan.run_opening_start h.atStart),
    Scan.run_bind (Scan.run_get c), Scan.run_bind hoperand, hfuel, operators_stop hs hrest]

end Reads

/-- A blank in front of an expression is passed over. -/
theorem read_blank (h : c.rest = ' ' :: rest) (hs : AtStart (c.forward 1)) :
    (Expression.read g tail).run c = (Expression.read g tail).run (c.forward 1) := by
  have hblank : Lexeme.run isBlank c.rest = 1 :=
    hs.toAtToken.run_blank (show c.rest = [' '] ++ rest from h) (blank_singleton rfl)
  have hgap : Scan.gap.run c = some ((), c.forward 1) := by
    rw [Scan.gap, Scan.run_bind (Scan.run_rest c), gap_blanks, hblank, ← Cursor.rest_forward,
      gap_atToken hs.toAtToken, Scan.run_skip]
  have hopening : Scan.opening.run c = some ((), c.forward 1) := by
    rw [Scan.opening, Scan.run_bind (Scan.run_get c)]
    cases c.left with
    | zero => exact hgap
    | succ n =>
      rw [Scan.wideGap, Scan.run_bind hgap, Scan.run_bind (Scan.run_rest _), hs.page, Scan.run_pure]
  rw [Expression.read, Scan.run_bind hopening, Scan.run_bind (Scan.run_opening_start hs)]

end Expression

end SiteConfig.Script
