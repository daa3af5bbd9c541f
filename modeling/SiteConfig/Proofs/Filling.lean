import Mathlib.Data.Set.Insert
import SiteConfig.Message.Template

/-!
A template falls into texts and places for values, and the names that have a value determine how.
Filling the template puts each value in its place and looks no further at it.
-/

namespace SiteConfig.Message

/-- A part of a template: a text that stays, or the place for the value of a name. -/
inductive Part where
  | text (content : List Char)
  | place (name : String)

namespace Part

/-- The part as the template writes it. -/
def source : Part → List Char
  | text content => content
  | place name => '\x7b' :: (name.toList ++ ['\x7d'])

/-- The part with a value in its place. -/
def written (value : String → String) : Part → List Char
  | text content => content
  | place name => (value name).toList

end Part

/-- The parts of a template in which some names have a value. Each round takes the text up to the
next opening brace and the name behind it, up to the next closing one; a name without a value stays
with its braces, and so does all text from a brace on that is not closed. -/
inductive Parts (names : Set String) : List Char → List Part → Prop where
  | plain {text : List Char} (last : '\x7b' ∉ text) : Parts names text [.text text]
  | unclosed {before behind : List Char} (first : '\x7b' ∉ before) (never : '\x7d' ∉ behind) :
      Parts names (before ++ '\x7b' :: behind) [.text (before ++ '\x7b' :: behind)]
  | place {before name rest : List Char} {parts : List Part} (first : '\x7b' ∉ before)
      (closed : '\x7d' ∉ name) (bound : String.ofList name ∈ names) (h : Parts names rest parts) :
      Parts names (before ++ '\x7b' :: (name ++ '\x7d' :: rest))
        (.text before :: .place (String.ofList name) :: parts)
  | stays {before name rest : List Char} {parts : List Part} (first : '\x7b' ∉ before)
      (closed : '\x7d' ∉ name) (unbound : String.ofList name ∉ names)
      (h : Parts names rest parts) :
      Parts names (before ++ '\x7b' :: (name ++ '\x7d' :: rest))
        (.text (before ++ '\x7b' :: (name ++ ['\x7d'])) :: parts)

theorem takeWhile_upTo {a : Char} {xs : List Char} (h : a ∉ xs) (rest : List Char) :
    (xs ++ a :: rest).takeWhile (· ≠ a) = xs := by
  have hne : ∀ x ∈ xs, decide (x ≠ a) = true :=
    fun x hmem => decide_eq_true fun heq => h (heq ▸ hmem)
  rw [List.takeWhile_append_of_pos hne, List.takeWhile_cons_of_neg (by simp), List.append_nil]

theorem dropWhile_upTo {a : Char} {xs : List Char} (h : a ∉ xs) (rest : List Char) :
    (xs ++ a :: rest).dropWhile (· ≠ a) = a :: rest := by
  have hsplit := List.takeWhile_append_dropWhile (p := (· ≠ a)) (l := xs ++ a :: rest)
  rw [takeWhile_upTo h] at hsplit
  exact List.append_cancel_left hsplit

/-- What stands up to the first `a`, and what stands behind it. -/
theorem upTo_unique {a : Char} {xs ys r s : List Char} (hx : a ∉ xs) (hy : a ∉ ys)
    (h : xs ++ a :: r = ys ++ a :: s) : xs = ys ∧ r = s := by
  have hxy : xs = ys := by rw [← takeWhile_upTo hx r, h, takeWhile_upTo hy]
  subst hxy
  exact ⟨rfl, (List.cons.inj (List.append_cancel_left h)).2⟩

namespace Parts

variable {names : Set String} {text : List Char} {parts : List Part}

/-- Written as they stand in it, the parts are the template. -/
theorem flatMap_source (h : Parts names text parts) : parts.flatMap Part.source = text := by
  induction h with
  | plain last => simp [Part.source]
  | unclosed first never => simp [Part.source]
  | place first closed bound h ih => simp [Part.source, ih]
  | stays first closed unbound h ih => simp [Part.source, ih]

theorem bound (h : Parts names text parts) : ∀ name, .place name ∈ parts → name ∈ names := by
  induction h with
  | plain last => simp
  | unclosed first never => simp
  | place first closed bound h ih => simpa [bound] using ih
  | stays first closed unbound h ih => simpa using ih

theorem count_round (before name rest : List Char) :
    rest.count '\x7b' < (before ++ '\x7b' :: (name ++ '\x7d' :: rest)).count '\x7b' := by
  have hne : '\x7d' ≠ '\x7b' := by decide
  rw [List.count_append, List.count_cons_self, List.count_append, List.count_cons_of_ne hne]
  omega

/-- Every round takes an opening brace and leaves two parts at most. -/
theorem length_le (h : Parts names text parts) : parts.length ≤ 2 * text.count '\x7b' + 1 := by
  induction h with
  | plain last => simp
  | unclosed first never => simp
  | @place before name rest parts first closed bound h ih =>
    have := count_round before name rest
    simp only [List.length_cons]
    omega
  | @stays before name rest parts first closed unbound h ih =>
    have := count_round before name rest
    simp only [List.length_cons]
    omega

/-- The rounds come to an end on every template. -/
theorem exists_parts (names : Set String) (text : List Char) : ∃ parts, Parts names text parts := by
  -- a round takes more than its first character, so the induction is on the length
  induction hn : text.length using Nat.strong_induction_on generalizing text with
  | _ n ih =>
    by_cases hopen : '\x7b' ∈ text
    · obtain ⟨before, behind, rfl, first⟩ := List.eq_append_cons_of_mem hopen
      by_cases hclose : '\x7d' ∈ behind
      · obtain ⟨name, rest, rfl, closed⟩ := List.eq_append_cons_of_mem hclose
        have hshorter : rest.length < n := by
          simp only [List.length_append, List.length_cons] at hn
          omega
        obtain ⟨parts, h⟩ := ih rest.length hshorter rest rfl
        by_cases hbound : String.ofList name ∈ names
        · exact ⟨_, place first closed hbound h⟩
        · exact ⟨_, stays first closed hbound h⟩
      · exact ⟨_, unclosed first hclose⟩
    · exact ⟨_, plain hopen⟩

/-- A first round that finds a closed brace. -/
theorem of_closed {before name rest : List Char} (first : '\x7b' ∉ before)
    (closed : '\x7d' ∉ name)
    (h : Parts names (before ++ '\x7b' :: (name ++ '\x7d' :: rest)) parts) :
    ∃ parts', Parts names rest parts' ∧
      (String.ofList name ∈ names ∧
          parts = .text before :: .place (String.ofList name) :: parts' ∨
        String.ofList name ∉ names ∧
          parts = .text (before ++ '\x7b' :: (name ++ ['\x7d'])) :: parts') := by
  generalize htext : before ++ '\x7b' :: (name ++ '\x7d' :: rest) = text at h
  cases h with
  | plain last =>
    rw [← htext] at last
    exact absurd (List.mem_append_right _ List.mem_cons_self) last
  | unclosed first' never =>
    obtain ⟨-, rfl⟩ := upTo_unique first first' htext
    exact absurd (List.mem_append_right _ List.mem_cons_self) never
  | place first' closed' bound h =>
    obtain ⟨rfl, hbehind⟩ := upTo_unique first first' htext
    obtain ⟨rfl, rfl⟩ := upTo_unique closed closed' hbehind
    exact ⟨_, h, .inl ⟨bound, rfl⟩⟩
  | stays first' closed' unbound h =>
    obtain ⟨rfl, hbehind⟩ := upTo_unique first first' htext
    obtain ⟨rfl, rfl⟩ := upTo_unique closed closed' hbehind
    exact ⟨_, h, .inr ⟨unbound, rfl⟩⟩

theorem unique {parts' : List Part} (h : Parts names text parts) (h' : Parts names text parts') :
    parts = parts' := by
  induction h generalizing parts' with
  | plain last =>
    cases h' with
    | plain => rfl
    -- every other way to start takes an opening brace
    | unclosed | place | stays => exact absurd (List.mem_append_right _ List.mem_cons_self) last
  | @unclosed before behind first never =>
    generalize htext : before ++ '\x7b' :: behind = text at h'
    cases h' with
    | plain | unclosed => rfl
    | place first' | stays first' =>
      obtain ⟨-, rfl⟩ := upTo_unique first first' htext
      exact absurd (List.mem_append_right _ List.mem_cons_self) never
  | place first closed bound h ih =>
    obtain ⟨rest', hrest, ⟨-, rfl⟩ | ⟨hunbound, -⟩⟩ := of_closed first closed h'
    · rw [ih hrest]
    · exact absurd bound hunbound
  | stays first closed unbound h ih =>
    obtain ⟨rest', hrest, ⟨hbound, -⟩ | ⟨-, rfl⟩⟩ := of_closed first closed h'
    · exact absurd hbound unbound
    · rw [ih hrest]

end Parts

/-! What fills the places. -/

section Values

variable {values : List (String × String)}

/-- The value of a name is the one given last. -/
def Gives (values : List (String × String)) (name value : String) : Prop :=
  ∃ before behind, values = before ++ (name, value) :: behind ∧ ∀ v ∈ behind, v.1 ≠ name

/-- The names that have a value. -/
def named (values : List (String × String)) : Set String :=
  {name | ∃ v ∈ values, v.1 = name}

theorem valueOf_eq_some_iff {name : List Char} {text : List Char} :
    valueOf values name = some text ↔
      ∃ value : String, Gives values (String.ofList name) value ∧ value.toList = text := by
  rw [valueOf, Option.map_eq_some_iff]
  refine exists_congr fun value => and_congr_left fun _ => ?_
  rw [List.lookup_eq_some_iff]
  constructor
  · rintro ⟨behind, before, heq, hlast⟩
    refine ⟨before.reverse, behind.reverse, ?_, fun v hv => ?_⟩
    · rw [← List.reverse_reverse values, heq]
      simp
    · exact fun heq => bne_iff_ne.mp (hlast v (List.mem_reverse.mp hv)) heq.symm
  · rintro ⟨before, behind, rfl, hlast⟩
    refine ⟨behind.reverse, before.reverse, by simp, fun v hv => bne_iff_ne.mpr ?_⟩
    exact (hlast v (List.mem_reverse.mp hv)).symm

theorem valueOf_eq_none_iff {name : List Char} :
    valueOf values name = none ↔ String.ofList name ∉ named values := by
  rw [valueOf, Option.map_eq_none_iff, List.lookup_eq_none_iff]
  simp only [named, List.mem_reverse, bne_iff_ne, ne_comm, Set.mem_ofPred_eq, not_exists, not_and]

/-- A name with a value has one value. -/
theorem existsUnique_gives {name : String} (h : name ∈ named values) :
    ∃! value, Gives values name value := by
  cases hvalue : valueOf values name.toList with
  | none => exact absurd (by simpa using h) (valueOf_eq_none_iff.mp hvalue)
  | some text =>
    obtain ⟨value, hgives, rfl⟩ := valueOf_eq_some_iff.mp hvalue
    refine ⟨value, by simpa using hgives, fun other hother => ?_⟩
    have hsame : valueOf values name.toList = some other.toList :=
      valueOf_eq_some_iff.mpr ⟨other, by simpa using hother, rfl⟩
    exact String.toList_inj.mp (Option.some.inj (hsame.symm.trans hvalue))

end Values

theorem pieces_plain {before : List Char} (first : '\x7b' ∉ before) (text : List Char) :
    pieces (before ++ text) = before.map .literal ++ pieces text := by
  induction before with
  | nil => rfl
  | cons c before ih =>
    rw [List.cons_append, pieces, ih (List.not_mem_of_not_mem_cons first), List.map_cons,
      List.cons_append]
    exact (List.ne_of_not_mem_cons first).symm

theorem pieces_unclosed {text : List Char} (never : '\x7d' ∉ text) :
    pieces text = text.map .literal := by
  fun_induction pieces text with
  | case1 => rfl
  | case2 rest hclosed => exact absurd (by simpa using hclosed) (List.not_mem_of_not_mem_cons never)
  | case3 rest hclosed ih => rw [ih (List.not_mem_of_not_mem_cons never), List.map_cons]
  | case4 c rest hc ih => rw [ih (List.not_mem_of_not_mem_cons never), List.map_cons]

theorem pieces_closed {name : List Char} (closed : '\x7d' ∉ name) (rest : List Char) :
    pieces ('\x7b' :: (name ++ '\x7d' :: rest)) = .slot name :: pieces rest := by
  rw [pieces, if_pos (by simp), takeWhile_upTo closed, dropWhile_upTo closed, List.drop_one,
    List.tail_cons]

theorem flatMap_literal (values : List Char → Option (List Char)) (text : List Char) :
    (text.map Piece.literal).flatMap (Piece.filled values) = text := by
  induction text with
  | nil => rfl
  | cons c text ih => rw [List.map_cons, List.flatMap_cons, ih, Piece.filled, List.singleton_append]

/-- Filling takes the same rounds and writes a value for each place. -/
theorem Parts.filled {values : List (String × String)} {text : List Char} {parts : List Part}
    (h : Parts (named values) text parts) {value : String → String}
    (hvalue : ∀ name v, Gives values name v → value name = v) :
    (pieces text).flatMap (Piece.filled (valueOf values)) = parts.flatMap (Part.written value) := by
  induction h with
  | @plain text last =>
    have hpieces := pieces_plain last []
    rw [List.append_nil, pieces, List.append_nil] at hpieces
    rw [hpieces, flatMap_literal]
    simp [Part.written]
  | @unclosed before behind first never =>
    have hopen : '\x7d' ∉ '\x7b' :: behind := List.not_mem_cons_of_ne_of_not_mem (by decide) never
    rw [pieces_plain first, pieces_unclosed hopen, List.flatMap_append, flatMap_literal,
      flatMap_literal]
    simp [Part.written]
  | @place before name rest parts first closed bound h ih =>
    obtain ⟨v, hgives, -⟩ := existsUnique_gives bound
    have hfilled : Piece.filled (valueOf values) (.slot name) = v.toList := by
      rw [Piece.filled, valueOf_eq_some_iff.mpr ⟨v, hgives, rfl⟩, Option.getD_some]
    rw [pieces_plain first, pieces_closed closed, List.flatMap_append, flatMap_literal,
      List.flatMap_cons, List.flatMap_cons, List.flatMap_cons, hfilled, ih, Part.written,
      Part.written, hvalue _ _ hgives]
  | @stays before name rest parts first closed unbound h ih =>
    have hfilled : Piece.filled (valueOf values) (.slot name) = '\x7b' :: (name ++ ['\x7d']) := by
      rw [Piece.filled, valueOf_eq_none_iff.mpr unbound, Option.getD_none, Piece.source,
        List.cons_append]
    rw [pieces_plain first, pieces_closed closed, List.flatMap_append, flatMap_literal,
      List.flatMap_cons, List.flatMap_cons, hfilled, ih, Part.written, List.append_assoc]

/-- Names with themselves in braces for their values leave a template as it is. -/
theorem fill_restores (template : String) {values : List (String × String)}
    (h : ∀ v ∈ values, v.2 = "\x7b" ++ v.1 ++ "\x7d") : fill template values = template := by
  obtain ⟨parts, hparts⟩ := Parts.exists_parts (named values) template.toList
  have hvalue : ∀ name v, Gives values name v → "\x7b" ++ name ++ "\x7d" = v := by
    rintro name v ⟨before, behind, rfl, -⟩
    exact (h (name, v) (List.mem_append_right _ List.mem_cons_self)).symm
  have hsource : Part.written (fun name => "\x7b" ++ name ++ "\x7d") = Part.source := by
    funext part
    cases part with
    | text content => rfl
    | place name => simp [Part.written, Part.source]
  rw [fill, hparts.filled hvalue, hsource, hparts.flatMap_source, String.ofList_toList]

/-- A template is filled in one pass. -/
structure FilledOnce (template : String) : Prop where
  /-- The names that have a value determine the parts. -/
  parted : ∀ names, ∃! parts, Parts names template.toList parts
  /-- The parts are found in one round for each opening brace at most. -/
  rounds : ∀ names parts, Parts names template.toList parts →
    parts.length ≤ 2 * template.toList.count '\x7b' + 1
  whole : ∀ names parts, Parts names template.toList parts →
    parts.flatMap Part.source = template.toList
  bound : ∀ names parts, Parts names template.toList parts →
    ∀ name, .place name ∈ parts → name ∈ names
  given : ∀ values, ∀ name ∈ named values, ∃! value, Gives values name value
  /-- Each value stands in its place as it was given, braces and all. -/
  filled : ∀ values parts, Parts (named values) template.toList parts →
    ∀ value : String → String, (∀ name v, Gives values name v → value name = v) →
      (fill template values).toList = parts.flatMap (Part.written value)
  unfilled : fill template [] = template
  restored : ∀ values, (∀ v ∈ values, v.2 = "\x7b" ++ v.1 ++ "\x7d") →
    fill template values = template

/-- What is filled in is not looked at again, whatever braces a template or its values have. -/
theorem filledOnce (template : String) : FilledOnce template where
  parted names := by
    obtain ⟨parts, h⟩ := Parts.exists_parts names template.toList
    exact ⟨parts, h, fun parts' h' => h'.unique h⟩
  rounds _ _ h := h.length_le
  whole _ _ h := h.flatMap_source
  bound _ _ h := h.bound
  given _ _ h := existsUnique_gives h
  filled values parts h value hvalue := by
    rw [fill, h.filled hvalue, String.toList_ofList]
  unfilled := fill_restores template (by simp)
  restored _ h := fill_restores template h

/-- A value that looks like a place is a value, and a place without a value stays. -/
example : fill "\x7ba\x7d, \x7bb\x7d, \x7bc\x7d \x7bb"
    [("a", "\x7bb\x7d"), ("b", "y"), ("b", "x")] = "\x7bb\x7d, x, \x7bc\x7d \x7bb" := by
  cbv

end SiteConfig.Message
