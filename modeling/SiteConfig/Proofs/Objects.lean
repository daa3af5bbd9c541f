import SiteConfig.Proofs.Brackets
import SiteConfig.Proofs.Numbers

/-!
Objects are read back if the values in them are.
-/

namespace SiteConfig.Script
open Text Layout SiteConfig.Tree Expression

variable {g : Grammar} {c c' : Cursor} {rest : List Char} {bound : Nat} {k : PropertyKey}

/-! Keys. -/

theorem steady_colon (rest : List Char) : Steady (':' :: rest) :=
  ⟨⟨_, rest, rfl, by decide⟩, by simp⟩

theorem endsName_blank (rest : List Char) : Lexeme.EndsName (' ' :: rest) := by
  intro ch hch
  cases hch
  exact ⟨by decide, by decide⟩

theorem endsName_colon (rest : List Char) : Lexeme.EndsName (':' :: rest) := by
  intro ch hch
  cases hch
  exact ⟨Lexeme.isNamePart_of_isPunctuation (by simp [isPunctuation]), by decide⟩

theorem startsName_colon (rest : List Char) : Grammar.startsName (':' :: rest) = false := by
  have hname : Lexeme.name (':' :: rest) = none :=
    Lexeme.name_of_isPunctuation (by simp [isPunctuation]) (by decide) rest
  have hnumber : Lexeme.number (':' :: rest) = none := Lexeme.number_none rfl (by decide) rest
  simp [Grammar.startsName, hname, hnumber]

theorem isBlank_of_isDigit {ch : Char} (h : isDigit ch) : isBlank ch = false := by
  have hn : 48 ≤ ch.toNat ∧ ch.toNat ≤ 57 := by
    simpa [isDigit, Char.le_def, UInt32.le_iff_toNat_le] using h
  have hall : ∀ n : Fin 10, isBlank (Char.ofNat (48 + n)) = false := by
    intro n
    fin_cases n <;> rfl
  have := hall ⟨ch.toNat - 48, by omega⟩
  rwa [Nat.add_sub_cancel' hn.1, Char.ofNat_toNat] at this

theorem name_of_isDigit {ch : Char} (h : isDigit ch) (rest : List Char) :
    Lexeme.name (ch :: rest) = none := by
  have hstart : isNameStart ch = false := by simp [isNameStart, h]
  rw [Lexeme.name, hstart, if_neg (by decide)]
  unfold Lexeme.nameEscape
  split
  · next heq => cases heq; cases h
  · next heq => cases heq; cases h
  · rfl

/-- How a key starts. -/
structure KeyHead (cs : List Char) : Prop where
  solid : Lexeme.Solid cs
  spread : "...".toList.isPrefixOf cs = false
  ne : ∀ ch ∈ cs.head?, ch ∉ ['*', '@', '#', '[', ',', '\x7d']

namespace KeyHead

variable {cs : List Char}

theorem head_ne (h : KeyHead cs) {ch : Char} (hch : ch ∈ ['*', '@', '#', '[', ',', '\x7d']) :
    cs.head? ≠ some ch :=
  fun heq => h.ne ch heq hch

theorem opens (h : KeyHead c.rest) : Listing.Opens '\x7d' c := by
  obtain ⟨ch, tail, hhead, -⟩ := h.solid
  have hne := h.ne ch (by rw [hhead]; rfl)
  simp only [List.mem_cons, List.not_mem_nil, or_false, not_or] at hne
  exact ⟨h.solid.atStart, ch, tail, hhead, hne.2.2.2.2.2, hne.2.2.2.2.1⟩

end KeyHead

theorem head_quote (text : String) :
    ∃ ch cs, (Quoted.quote text).toList = ch :: cs ∧ (ch = '\'' ∨ ch = '"') :=
  ⟨_, _, by rw [Quoted.quote, String.toList_ofList]; rfl, Quoted.delimiter_eq _⟩

theorem keyHead_quote (text : String) (rest : List Char) :
    KeyHead ((Quoted.quote text).toList ++ rest) := by
  obtain ⟨ch, cs, heq, hch⟩ := head_quote text
  rw [heq]
  rcases hch with rfl | rfl <;> exact ⟨⟨_, _, rfl, by decide⟩, rfl, by simp⟩

theorem keyHead_name {w : String} (hw : Lexeme.IsName w) (rest : List Char) :
    KeyHead (w.toList ++ rest) := by
  obtain ⟨hsolid, hne⟩ := Lexeme.solid_of_name hw rest
  refine ⟨hsolid, Lexeme.isPrefixOf_of_head (d := '.') (by simp) (hne '.' ?_ (by decide)), ?_⟩
  · simp [isPunctuation]
  · intro ch hch hmem
    simp only [List.mem_cons, List.not_mem_nil, or_false] at hmem
    rw [Option.mem_def] at hch
    rcases hmem with rfl | rfl | rfl | rfl | rfl | rfl <;>
      exact hne _ (by simp [isPunctuation]) (by decide) hch

/-- A number starts with a digit, or with a point that no other point follows. -/
theorem head_number {cs : List Char} {n : Nat} (h : Lexeme.number cs = some n) :
    ∃ ch tail, cs = ch :: tail ∧ (isDigit ch ∨ ch = '.') ∧
      "...".toList.isPrefixOf cs = false := by
  cases cs with
  | nil => cases h
  | cons ch tail =>
    refine ⟨ch, tail, rfl, ?_, ?_⟩
    · by_contra hcon
      rw [not_or, Bool.not_eq_true] at hcon
      rw [Lexeme.number_none hcon.1 hcon.2] at h
      cases h
    · by_contra hcon
      rw [Bool.not_eq_false, List.isPrefixOf_iff_prefix] at hcon
      obtain ⟨more, hmore⟩ := hcon
      rw [← hmore] at h
      cases h

theorem keyHead_number {cs : List Char} {n : Nat} (h : Lexeme.number cs = some n) :
    KeyHead cs ∧ Scan.wordOf cs = none ∧ Lexeme.string cs = none := by
  obtain ⟨ch, tail, rfl, hch, hspread⟩ := head_number h
  have hne : ∀ d, isDigit d = false → d ≠ '.' → ch ≠ d := by
    rintro d hd hd' rfl
    rcases hch with hch | hch
    · rw [hd] at hch
      cases hch
    · exact hd' hch
  have hblank : isBlank ch = false := by
    rcases hch with hch | rfl
    · exact isBlank_of_isDigit hch
    · rfl
  have hname : Lexeme.name (ch :: tail) = none := by
    rcases hch with hch | rfl
    · exact name_of_isDigit hch tail
    · exact Lexeme.name_of_isPunctuation (by simp [isPunctuation]) (by decide) tail
  refine ⟨⟨⟨ch, tail, rfl, hblank, hne _ rfl (by decide), hne _ rfl (by decide),
    hne _ rfl (by decide)⟩, hspread, ?_⟩, ?_, ?_⟩
  · intro d hd hmem
    obtain rfl : ch = d := by simpa using hd
    simp only [List.mem_cons, List.not_mem_nil, or_false] at hmem
    rcases hmem with hmem | hmem | hmem | hmem | hmem | hmem <;>
      exact hne _ rfl (by decide) hmem
  · rw [Scan.wordOf, hname, Option.map_none]
  · rw [Lexeme.string, if_neg (by simp [hne '\'' rfl (by decide), hne '"' rfl (by decide)])]

theorem head_key (hk : k.Lexical) (rest : List Char) : KeyHead ((key k).toList ++ ':' :: rest) := by
  rcases hk with (⟨hform, hname⟩ | hform) | ⟨hform, hnumber⟩
  · rw [key, hform]
    exact keyHead_name hname _
  · rw [key, hform]
    exact keyHead_quote k.name _
  · rw [key, hform]
    exact (keyHead_number (hnumber rest)).1

/-- The word that a key starts with is the whole key. -/
theorem wordOf_key (hk : k.Lexical) (rest : List Char) :
    Scan.wordOf ((key k).toList ++ ':' :: rest) = none ∨
      Scan.wordOf ((key k).toList ++ ':' :: rest) = some (key k) := by
  rcases hk with (⟨hform, hname⟩ | hform) | ⟨hform, hnumber⟩
  · have hkey : key k = k.name := by rw [key, hform]
    rw [hkey]
    exact .inr (Scan.wordOf_append hname (endsName_colon rest))
  · obtain ⟨ch, cs, heq, hch⟩ := head_quote k.name
    have hmark : isPunctuation ch = true ∧ ch ≠ '\\' := by
      rcases hch with rfl | rfl <;> simp [isPunctuation]
    have hkey : key k = Quoted.quote k.name := by rw [key, hform]
    rw [hkey, heq, List.cons_append, Scan.wordOf, Lexeme.name_of_isPunctuation hmark.1 hmark.2]
    exact .inl rfl
  · rw [key, hform]
    exact .inl (keyHead_number (hnumber rest)).2.1

theorem run_gap_key (hk : k.Lexical) (h : c.rest = (key k).toList ++ ':' :: rest) :
    Scan.gap.run c = some ((), c) :=
  Scan.run_gap_solid (h ▸ (head_key hk rest).solid)

/-- No word before a colon modifies what follows it. -/
theorem modifier_run (hk : k.Lexical) (words : List String) (star : Bool)
    (h : c.rest = (key k).toList ++ ':' :: rest) :
    (Grammar.modifier words star .never).run c = some (false, c) := by
  rw [Grammar.modifier, Scan.run_bind (Scan.run_get c), Scan.run_bind (run_gap_key hk h),
    Scan.run_bind (Scan.run_rest c), h]
  rcases wordOf_key hk rest with hw | hw
  · rw [hw]
    simp only
    rw [Scan.run_bind (Scan.run_set c c), Scan.run_pure]
  · have hbehind : (c.forward (key k).length).rest = ':' :: rest := by
      rw [← String.length_toList]
      exact Cursor.rest_behind h
    have hnext := Scan.run_upcoming_steady .never (c := c.forward (key k).length)
      (by rw [hbehind]; exact steady_colon rest)
    rw [hw]
    simp only
    split
    · rw [Scan.run_bind (Scan.run_skip _ c), Scan.run_bind hnext, hbehind, startsName_colon]
      simp only [List.head?_cons, Option.some.injEq, Char.reduceEq, decide_false, Bool.and_false,
        Bool.or_self, Bool.false_eq_true, if_false]
      rw [Scan.run_bind (Scan.run_set _ c), Scan.run_pure]
    · rw [Scan.run_bind (Scan.run_set c c), Scan.run_pure]

theorem modifiers_run (hk : k.Lexical) (h : c.rest = (key k).toList ++ ':' :: rest) :
    (Grammar.modifiers .never).run c = some (false, c) := by
  have hstar : "*".toList.isPrefixOf c.rest = false := by
    rw [h]
    exact Lexeme.isPrefixOf_of_head (d := '*') (by simp) ((head_key hk rest).head_ne (by simp))
  rw [Grammar.modifiers, Scan.run_bind (modifier_run hk ["static"] true h),
    Scan.run_bind (modifier_run hk ["async"] true h), Scan.run_bind (run_gap_key hk h),
    Scan.run_bind (Scan.run_sees "*" c), hstar, if_neg (by decide),
    Scan.run_bind (modifier_run hk ["get", "set"] false h), Scan.run_pure]
  rfl

/-- Inside brackets no semicolon is inserted. -/
theorem Scan.run_upcoming_never (hs : Lexeme.Solid c.rest) :
    (upcoming .never).run c = some (c.rest, c) := by
  have hnext : c.next? .never (c.left + 1) = some c := by
    simp [Cursor.next?, Ending.inserts, hs.run_eq_zero, hs.comment]
  rw [upcoming, Scan.run_bind (Scan.run_get c), hnext, Scan.run_pure]

theorem decorators_run (fuel : Nat) (hs : Lexeme.Solid c.rest) (hat : c.rest.head? ≠ some '@') :
    (g.decorators fuel).run c = some (false, c) := by
  cases fuel with
  | zero => rfl
  | succ fuel =>
    rw [Grammar.decorators, Scan.run_bind (Scan.run_upcoming_never hs), if_neg hat, Scan.run_pure]

/-- A name that is neither computed nor private. -/
theorem memberName_cases (hs : Lexeme.Solid c.rest) (hbracket : c.rest.head? ≠ some '[')
    (hsharp : c.rest.head? ≠ some '#') :
    g.memberName.run c =
      (if (Lexeme.string c.rest).isSome then NameForm.string <$> Scan.lexeme Lexeme.string
      else if (Lexeme.number c.rest).isSome then NameForm.number <$> Scan.lexeme Lexeme.number
      else NameForm.word <$> Scan.lexeme Lexeme.name : Scan NameForm).run c := by
  rw [Grammar.memberName, Scan.run_bind (Scan.run_gap_solid hs), Scan.run_bind (Scan.run_rest c)]
  split
  · next heq => exact absurd heq hbracket
  · next heq => exact absurd heq hsharp
  · simp only [map_eq_pure_bind]

theorem memberName_run (hk : k.Lexical) (h : c.rest = (key k).toList ++ ':' :: rest) :
    ∃ form, g.memberName.run c = some (form, c.forward (key k).toList.length) ∧
      Member.key? form = some k := by
  have hhead : KeyHead c.rest := h ▸ head_key hk rest
  rw [memberName_cases hhead.solid (hhead.head_ne (by simp)) (hhead.head_ne (by simp))]
  obtain ⟨name, form⟩ := k
  -- a key is written as a name, as a string or as a number
  rcases hk with (⟨hform, hname⟩ | hform) | ⟨hform, hnumber⟩
  · simp only at hform hname
    subst hform
    obtain ⟨ch', cs', heq', hmarks⟩ := head_word hname (':' :: rest)
    have hrest : c.rest = name.toList ++ ':' :: rest := h
    have hstring : Lexeme.string c.rest = none := by
      rw [hrest, heq', Lexeme.string, if_neg (by simp [hmarks])]
    have hnumber : Lexeme.number c.rest = none := by
      rw [hrest, heq', Lexeme.number_none] <;> simp [hmarks]
    have hlexeme := Scan.run_lexeme hrest (Lexeme.name_append hname (endsName_colon rest))
    refine ⟨.word name, ?_, rfl⟩
    rw [hstring, hnumber]
    simp only [Option.isSome_none, Bool.false_eq_true, if_false, StateT.run_map, hlexeme,
      String.ofList_toList]
    rfl
  · simp only at hform
    subst hform
    have hrest : c.rest = (Quoted.quote name).toList ++ ':' :: rest := h
    have hstring := Lexeme.string_quote name (':' :: rest)
    have hlexeme := Scan.run_lexeme hrest hstring
    refine ⟨.string (Quoted.quote name), ?_, by rw [Member.key?, Quoted.unquote_quote]; rfl⟩
    rw [hrest, hstring]
    simp only [Option.isSome_some, if_true, StateT.run_map, hlexeme, String.ofList_toList]
    rfl
  · simp only at hform hnumber
    subst hform
    have hrest : c.rest = name.toList ++ ':' :: rest := h
    have hstring := (keyHead_number (hnumber rest)).2.2
    have hlexeme := Scan.run_lexeme hrest (hnumber rest)
    refine ⟨.number name, ?_, rfl⟩
    rw [hrest, hstring, hnumber rest]
    simp only [Option.isSome_none, Option.isSome_some, Bool.false_eq_true, if_false, if_true,
      StateT.run_map, hlexeme, String.ofList_toList]
    rfl

/-- The pair of a key and a value. -/
def memberOfPair (start : Cursor) (k : PropertyKey) (o : Operand) : Member :=
  { body := .assignment k o.tree
    position := start.position
    isValue := o.isValue
    isTarget := o.isPattern }

theorem property_run {o : Operand} (hk : k.Lexical) (h : c.rest = (key k).toList ++ ':' :: rest)
    (ho : (g.expression false).run (c.forward ((key k).toList.length + 1)) = some (o, c')) :
    g.property.run c = some (memberOfPair c k o, c') := by
  have hhead : KeyHead c.rest := h ▸ head_key hk rest
  obtain ⟨form, hform, hkey⟩ := memberName_run (g := g) hk h
  have hbehind := Cursor.rest_behind h
  have hsteady : Steady (c.forward (key k).toList.length).rest := by
    rw [hbehind]
    exact steady_colon rest
  have hnext := Scan.run_upcoming_steady .never hsteady
  have hcolon := Scan.run_token_solid (s := ":") hbehind hsteady.1
  have hforward : (c.forward (key k).toList.length).forward ":".length =
      c.forward ((key k).toList.length + 1) := Cursor.forward_forward c _ _
  have hdecorators := decorators_run (g := g) g.room hhead.solid (hhead.head_ne (by simp))
  rw [Grammar.property, Scan.run_bind (Scan.run_get c), Scan.run_bind (Scan.run_sees "..." c),
    hhead.spread, if_neg (by decide), Scan.run_bind hdecorators,
    Scan.run_bind (modifiers_run hk h), Scan.run_bind hform]
  simp only [Bool.or_self, Bool.false_eq_true, if_false]
  rw [Grammar.plainTail, Scan.run_bind hnext, hbehind]
  simp only
  rw [Grammar.pairTail, Scan.run_bind hcolon, hforward, Scan.run_bind ho,
    Scan.run_bind (Scan.run_get c'), Scan.run_pure, hkey]
  rfl

/-- No member starts with a comma or the closing brace. -/
theorem property_none {ch : Char} {cs : List Char} (h : c.rest = ch :: cs)
    (hch : ch = ',' ∨ ch = '\x7d') : g.property.run c = none := by
  have hmark : isPunctuation ch ∧ ch ≠ '\\' ∧ isDigit ch = false ∧ isBlank ch = false := by
    rcases hch with rfl | rfl <;> exact ⟨by simp [isPunctuation], by decide, rfl, rfl⟩
  have hne : ∀ d ∈ ['.', '@', '*', '[', '#', '/', '<', '-', '"', '\''], ch ≠ d := by
    rcases hch with rfl | rfl <;> simp
  simp only [List.mem_cons, List.not_mem_nil, or_false, forall_eq_or_imp, forall_eq] at hne
  have hhead : ∀ {d : Char}, ch ≠ d → c.rest.head? ≠ some d := by
    simp [h]
  have hsolid : Lexeme.Solid c.rest := ⟨ch, cs, h, hmark.2.2.2, by simp [hne]⟩
  have hname : Lexeme.name c.rest = none := by
    rw [h, Lexeme.name_of_isPunctuation hmark.1 hmark.2.1]
  have hmodifier : ∀ words star,
      (Grammar.modifier words star .never).run c = some (false, c) := by
    intro words star
    rw [Grammar.modifier, Scan.run_bind (Scan.run_get c), Scan.run_bind (Scan.run_gap_solid hsolid),
      Scan.run_bind (Scan.run_rest c), Scan.wordOf, hname]
    simp only [Option.map_none]
    rw [Scan.run_bind (Scan.run_set c c), Scan.run_pure]
  have hmodifiers : (Grammar.modifiers .never).run c = some (false, c) := by
    rw [Grammar.modifiers, Scan.run_bind (hmodifier _ _), Scan.run_bind (hmodifier _ _),
      Scan.run_bind (Scan.run_gap_solid hsolid), Scan.run_bind (Scan.run_sees "*" c),
      Lexeme.isPrefixOf_of_head (d := '*') (by simp) (hhead (by simp [hne])), if_neg (by decide),
      Scan.run_bind (hmodifier _ _), Scan.run_pure]
    rfl
  have hmember : g.memberName.run c = none := by
    have hstring : Lexeme.string c.rest = none := by
      rw [h, Lexeme.string, if_neg (by simp [hne])]
    have hnumber : Lexeme.number c.rest = none := by
      rw [h, Lexeme.number_none hmark.2.2.1 hne.1]
    rw [memberName_cases hsolid (hhead (by simp [hne])) (hhead (by simp [hne])), hstring, hnumber]
    simp only [Option.isSome_none, Bool.false_eq_true, if_false, StateT.run_map]
    rw [Scan.lexeme, Scan.run_bind (Scan.run_get c), hname]
    rfl
  rw [Grammar.property, Scan.run_bind (Scan.run_get c), Scan.run_bind (Scan.run_sees "..." c),
    Lexeme.isPrefixOf_of_head (d := '.') (by simp) (hhead hne.1), if_neg (by decide),
    Scan.run_bind (decorators_run _ hsolid (hhead (by simp [hne]))), Scan.run_bind hmodifiers,
    Scan.run_none hmember]

/-! Members. -/

/-- The member is a value that shows as `shown`. -/
structure Member.ShownAs (m : Member) (shown : PropertyBody Tree) : Prop where
  isValue : m.isValue = true
  body : strippedBody id m.body = shown

/-- Behind a blank a value is read back. -/
theorem value_run {t : Tree} {tail : Bool} {n depth column : Nat} {s : Char}
    (ht : t.ReadsBack tail .value) (hn : 4 * c.left < n + 1) (hs : Stops s)
    (h : c.rest = ' ' :: ((t.layout depth column).toList ++ s :: rest)) :
    ∃ o c', ((Grammar.ofDepth (n + 1)).expression tail).run c = some (o, c') ∧
      Place.value.allows o ∧ c.Reaches c' ∧ c'.left < c.left ∧ c'.rest = s :: rest ∧
      o.tree.stripped id = t.shown depth column := by
  obtain ⟨hbehind, hleft⟩ := Cursor.pass h
  obtain ⟨o, c', htakes, hallows, hrest, htree⟩ :=
    ht (n := n) (by omega) hbehind ⟨s, rest, hs, rfl⟩
  have hle := htakes.reaches.left_le
  exact ⟨o, c', (read_blank h htakes.1).trans htakes.2, hallows,
    (Cursor.Reaches.forward c 1).trans htakes.reaches, by omega, hrest, htree⟩

/-- A pair is read as it is shown. -/
theorem readsAs_pair {p : Property Tree} {value : Tree} {n : Nat} (depth : Nat)
    (hbody : p.body = .assignment k value) (hk : k.Lexical)
    (hvalue : value.ReadsBack false .value) (hn : 4 * bound < n) :
    Listing.ReadsAs '\x7d' (Grammar.ofDepth (n + 1)).property
      (Member.ShownAs · (shownBody depth p.body)) (· = ',') bound
      (layoutBody depth p.body).toList := by
  rintro c s rest hrest rfl hbound
  have hsplit : c.rest = (key k).toList ++ ':' :: (' ' ::
      ((value.layout depth (after (2 * depth) (key k ++ ": "))).toList ++ ',' :: rest)) := by
    rw [hrest, hbody, layoutBody]
    simp [String.toList_append]
  have hhead : KeyHead c.rest := hsplit ▸ head_key hk _
  have hblank := Cursor.rest_behind_cons hsplit
  have hreach := Cursor.Reaches.forward c ((key k).toList.length + 1)
  have hle := hreach.left_le
  obtain ⟨o, c', hrun, hallows, hreach', hlt, hrest', htree⟩ :=
    value_run (n := n) hvalue (by omega) (.inl rfl) hblank
  simp only [Place.allows, Bool.and_eq_true] at hallows
  refine ⟨hhead.opens, _, c', property_run hk hsplit hrun, hreach.trans hreach', hrest', by omega,
    hallows.1, ?_⟩
  rw [hbody, shownBody, memberOfPair, strippedBody]
  exact congrArg _ htree

/-- A member that is no pair is kept as its text. -/
theorem readsAs_irregular {p : Property Tree} {shape : IrregularShape} {text : String} {n : Nat}
    (depth : Nat) (hbody : p.body = .irregular shape text) (h : shape.ReadsBack text)
    (hn : 4 * bound < n) :
    Listing.ReadsAs '\x7d' (Grammar.ofDepth (n + 1)).property
      (Member.ShownAs · (shownBody depth p.body)) (· = ',') bound
      (layoutBody depth p.body).toList := by
  rintro c s rest hrest rfl hbound
  have hsplit : c.rest = text.toList ++ ',' :: rest := by
    rw [hrest, hbody, layoutBody]
  obtain ⟨hstart, m, c', hrun, hvalue, hrest', hshape⟩ := h (n := n) (by omega) hsplit
  have hrun' : (Grammar.ofDepth (n + 1)).property.run c = some (m, c') := hrun
  have hahead : Scan.Ahead c (Grammar.ofDepth (n + 1)).property := Grammar.ahead_property
  have hreach : c.Reaches c' := Scan.triple_iff.mp hahead c (.refl c) _ _ hrun'
  cases hhead : c.rest with
  | nil => simp [hsplit] at hhead
  | cons ch cs =>
    have hne : ch ≠ ',' ∧ ch ≠ '\x7d' := by
      rw [← not_or]
      intro hch
      rw [property_none hhead hch] at hrun'
      cases hrun'
    refine ⟨⟨hstart, ch, cs, hhead, hne.2, hne.1⟩, m, c', hrun', hreach, hrest', ?_, hvalue, ?_⟩
    · rw [c.left_eq, c'.left_eq, hsplit, hrest', List.length_append]
      have hpos : text.toList ≠ [] := by
        intro hnil
        rw [hnil, List.nil_append, hhead] at hsplit
        exact hne.1 (List.cons.inj hsplit).1
      have := List.length_pos_iff.mpr hpos
      omega
    · rw [hshape, hbody]
      rfl

/-! Objects. -/

theorem object_run {l : Listing Member} (h : g.members.run (c.forward 1) = some (l, c')) :
    g.object.run c = some (objectOf c l, c') := by
  rw [Grammar.object, Scan.run_bind (Scan.run_get c), Scan.run_bind (Scan.run_skip 1 c),
    ← Grammar.members, Scan.run_bind h]
  rfl

theorem strippedProperties_lines {ms : List Member} {properties : List (Property Tree)}
    {depth : Nat}
    (h : List.Forall₂ (fun m p => m.ShownAs (shownBody depth p.body)) ms properties) (begun : Bool)
    (f : Property Tree → Nat) :
    strippedProperties id ((Piece.shownItems begun
        (List.zipWith (fun m p => (m, f p, p.trivia)) ms properties)).map fun item =>
          item.1.toProperty item.2) = shownProperties depth begun properties := by
  induction h generalizing begun with
  | nil => rfl
  | cons h _ ih =>
    have hrest := ih true
    simp only [Member.toProperty] at hrest ⊢
    simp only [List.zipWith_cons_cons, Piece.shownItems, List.map_cons, strippedProperties,
      shownProperties, Trivia.flagged_id, h.body, hrest]

/-- An object is read as it is shown. -/
theorem read_object {properties : List (Property Tree)} {dangling : List Comment}
    {position : Option Position} {depth column : Nat}
    (ht : ∀ p ∈ properties, p.trivia.Plain) (hd : ∀ c ∈ dangling, IsComment c.text)
    (hread : ∀ p ∈ properties, Listing.ReadsAs '\x7d' g.property
      (Member.ShownAs · (shownBody (depth + 1) p.body)) (· = ',') bound
      (layoutBody (depth + 1) p.body).toList)
    (h : c.rest =
      ((node position (.object properties dangling)).layout depth column).toList ++ rest)
    (hbound : c.left ≤ bound + 1) (hroom : c.left ≤ g.room) :
    ∃ o c', g.object.run c = some (o, c') ∧ c'.rest = rest ∧
      o.Shows (node position (.object properties dangling))
        ((node position (.object properties dangling)).shown depth column) := by
  obtain ⟨inner, hlayout, hinner⟩ := layout_object depth column position properties dangling
  have hhead : c.rest = '\x7b' :: (inner.toList ++ '\x7d' :: rest) := by
    rw [h, hlayout]
    simp
  obtain ⟨hbehind, hleft⟩ := Cursor.pass hhead
  have hend : ∀ rest, Lexeme.Solid ('\x7d' :: rest) := fun rest => ⟨_, rest, rfl, by decide⟩
  -- an object with neither members nor comments is written as its brackets
  rcases hinner with ⟨rfl, rfl, rfl⟩ | hexpanded
  · obtain ⟨room, hfuel⟩ : ∃ n, g.room = n + 1 := ⟨g.room - 1, by omega⟩
    have hclosed : (c.forward 1).rest = [] ++ '\x7d' :: rest := hbehind
    have hrun : g.members.run (c.forward 1) = some ({}, (c.forward 1).forward 1) := by
      rw [Grammar.members, hfuel]
      exact Listing.read_close hclosed blank_nil (hend rest)
    exact ⟨_, _, object_run hrun, Cursor.rest_behind_cons hclosed, ⟨rfl, rfl⟩, rfl, rfl,
      by simp [Tree.kind, Tree.expr]⟩
  · obtain ⟨l, c', hrun, -, hrest', hitems, hattach⟩ :=
      Listing.read_expanded Grammar.pageMember g.room (by decide) hend (by rfl) hread ht hd
        (by rw [hbehind, hexpanded]) (by omega) (by omega)
    have hrun' : g.members.run (c.forward 1) = some (l, c') := hrun
    refine ⟨_, c', object_run hrun', hrest', ⟨all_of_forall₂ hitems (·.isValue), ?_⟩, rfl, rfl,
      by simp [Tree.kind, Tree.expr]⟩
    rw [shown, shownExpr, objectOf, hattach, stripped, strippedExpr,
      strippedProperties_lines hitems, Comment.map_flagged_id]

end SiteConfig.Script
