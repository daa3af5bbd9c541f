import SiteConfig.Proofs.Grouping
import SiteConfig.Proofs.Members
import SiteConfig.Proofs.Methods

/-!
The key that a script binds for a member of an object, and when it is the name that the member is
read to have.
-/

namespace SiteConfig
open Text Script
open IrregularShape (modifiersText StartsWith startsWith_name startsWith_string startsWith_mark)

namespace Quoted

theorem decodeBody_of_plain {cs : List Char} (h : '\\' ∉ cs) : decodeBody cs = some cs := by
  induction cs with
  | nil => rw [decodeBody]
  | cons c cs ih =>
    rw [List.mem_cons, not_or] at h
    rw [decodeBody_plain (Ne.symm h.1), ih h.2, Option.map_some]

theorem isStandard_of_plain {cs : List Char} (h : '\\' ∉ cs) : isStandard cs := by
  induction cs with
  | nil => rfl
  | cons c cs ih =>
    rw [List.mem_cons, not_or] at h
    rw [isStandard_plain (Ne.symm h.1), ih h.2]

theorem unquote_plain {q : Char} (hq : q = '\'' ∨ q = '"') {body : List Char}
    (hb : '\\' ∉ body) :
    unquote (String.ofList (q :: (body ++ [q]))) = some (String.ofList body) := by
  have hquote : (q = '\'' || q = '"') = true := by simpa using hq
  have hlast : (body ++ [q]).getLast? = some q := by simp
  simp [unquote, decode, hquote, hlast, decodeBody_of_plain hb]

end Quoted

namespace Script

variable {c d k m c' : Cursor}

/-- A number as a script prints it. Up to fifteen digits are exact, and a number below a millionth
is printed with an exponent. -/
def isPrinted (cs : List Char) : Bool :=
  let whole := cs.takeWhile isDigit
  let fraction := cs.drop (whole.length + 1)
  (whole = ['0'] || whole.head?.any (· ≠ '0')) && whole.length + fraction.length ≤ 15 &&
    (cs = whole || (cs = whole ++ '.' :: fraction && fraction.all isDigit &&
      fraction.getLast?.any (· ≠ '0') && !"0.000000".toList.isPrefixOf cs))

namespace NameForm

/-- The key that a script binds, as far as it is told here: neither for a number that is not written
as it is printed nor for a string with an octal escape. -/
def bound? : NameForm → Option String
  | word text => (Quoted.decodeBody text.toList).map String.ofList
  | string text => if Quoted.isStandard text.toList then Quoted.unquote text else none
  | number text => if isPrinted text.toList then some text else none
  | privateWord => none
  | computed => none

/-- The key of a pair that is read as it is meant. -/
def isPlain : NameForm → Bool
  | word text => !text.toList.contains '\\'
  | number text => isPrinted text.toList
  | form => form.isFaithful

/-- The name of a method that is read to its end and not beyond: in ASCII, or a string without
escapes. -/
def isBare : NameForm → Bool
  | word text => text.toList.all isAsciiNamePart
  | string text => !text.toList.contains '\\' &&
      (text.toList.drop 1).dropLast.all fun c => text.toList.head? ≠ some c
  | number text => isPrinted text.toList && text.toList.all isAsciiNamePart
  | privateWord => true
  | computed => true

/-- The name is a word that also modifies names. -/
def isModifier : NameForm → Bool
  | word text => IrregularShape.soughtWords.contains text
  | _ => false

end NameForm

namespace MemberForm

/-- The key that a script binds. A pair `__proto__: value` binds none, and decorators are no part of
the language. -/
def bound? : MemberForm → Option String
  | pair name => name.bound?.filter (· ≠ "__proto__")
  | shorthand word => (NameForm.word word).bound?
  | method _ name _ => name.bound?
  | decorated | spread | withDefault | page => none

/-- The member is written so that its name can be read off the text. A method has a single space
behind each word before its name, then nothing but white space, and no space behind a name that is
such a word. -/
def isPlain : MemberForm → Bool
  | pair name => name.isPlain && name.bound? ≠ some "__proto__"
  | shorthand word => word.toList.all fun c => c ≠ '\\' && !isWhiteSpace c
  | method modifiers name gap =>
    modifiers.all IrregularShape.isSpaced && name.isBare &&
      !(name.isModifier && gap.toList.head? = some ' ')
  | decorated => false
  | spread | withDefault | page => true

end MemberForm

namespace Lexeme

/-- A string ends with its quote. -/
theorem stringTail_closes {quote : Char} {taken : Nat} {cs : List Char} {n : Nat}
    (h : stringTail quote taken cs = some n) : (cs.take n).getLast? = some quote := by
  have hstep : ∀ {c : Char} {rest : List Char} {k : Nat}, (rest.take k).getLast? = some quote →
      ((c :: rest).take (1 + k)).getLast? = some quote := by
    intro c rest k hlast
    rw [Nat.add_comm, List.take_succ_cons, List.getLast?_cons, hlast]
    rfl
  fun_induction stringTail quote taken cs generalizing n with
  | case1 => cases h
  | case2 taken c rest ih =>
    obtain ⟨k, hk, rfl⟩ := Option.map_eq_some_iff.mp h
    exact hstep (ih hk)
  | case3 rest ih =>
    obtain ⟨e, -, h⟩ := Option.bind_eq_some_iff.mp h
    obtain ⟨k, hk, h⟩ := Option.bind_eq_some_iff.mp h
    cases h
    exact hstep (ih e hk)
  | case4 =>
    cases h
    rfl
  | case5 =>
    rename_i hquote
    -- the gap before the closing quote is not looked into
    cases h
    rw [List.take_add_one, hquote]
    simp
  | case6 => cases h
  | case7 c rest _ _ _ ih =>
    obtain ⟨k, hk, rfl⟩ := Option.map_eq_some_iff.mp h
    exact hstep (ih hk)

theorem string_take {cs : List Char} {n : Nat} (h : string cs = some n) :
    ∃ q body, (q = '\'' ∨ q = '"') ∧ cs.take n = q :: (body ++ [q]) := by
  cases cs with
  | nil => cases h
  | cons q rest =>
    rw [string] at h
    split at h
    · next hq =>
      obtain ⟨k, hk, rfl⟩ := Option.map_eq_some_iff.mp h
      obtain ⟨body, hbody⟩ := List.getLast?_eq_some_iff.mp (stringTail_closes hk)
      rw [Nat.add_comm, List.take_succ_cons, hbody]
      exact ⟨q, body, by simpa [or_comm] using hq, rfl⟩
    · cases h

end Lexeme

/-- No name goes on behind itself. -/
theorem Apart.head (h : Apart c d) : ∀ ch ∈ (c.textTo d).head?, isAsciiNamePart ch = false := by
  have hpart : ∀ {ch : Char}, isNamePart ch = false → isAsciiNamePart ch = false := by
    intro ch hch
    by_contra hname
    rw [isNamePart_of_isAsciiNamePart (by simpa using hname)] at hch
    cases hch
  have hhead : ∀ ch ∈ (c.textTo d).head?, ch ∈ c.rest.head? := by
    intro ch hch
    rw [h.reaches.rest_eq, List.head?_append, hch]
    rfl
  -- the gap starts with a blank or a mark of a comment, or it is empty
  obtain ⟨comments, hgap⟩ := h
  cases hgap with
  | none =>
    intro ch hch
    simp [Cursor.textTo] at hch
  | blank h hb _ =>
    intro ch hch
    have := hhead ch hch
    rw [h] at this
    cases this
    exact hpart (Lexeme.isNamePart_of_isBlank hb)
  | comment h _ =>
    intro ch hch
    have := hhead ch hch
    rw [Lexeme.head_of_comment h] at this
    cases this
    decide
  | other h _ =>
    intro ch hch
    have hmem := hhead ch hch
    unfold Lexeme.pageComment at h
    split at h
    · next heq =>
      rw [heq] at hmem
      cases hmem
      decide
    · next heq =>
      rw [heq] at hmem
      cases hmem
      decide
    · cases h

theorem textTo_word {w : String} (h : Scan.wordOf c.rest = some w) :
    c.textTo (c.forward w.length) = w.toList := by
  obtain ⟨n, -, rfl⟩ := Option.map_eq_some_iff.mp h
  rw [Cursor.textTo_forward, String.toList_ofList, ← String.length_toList, String.toList_ofList,
    List.length_take, ← List.take_take, List.take_length]

theorem Modified.text {modifiers : List (String × String)} (h : Modified c modifiers m) :
    c.Reaches m ∧ c.textTo m = modifiersText modifiers := by
  induction h with
  | none => exact ⟨.refl c, by simp [Cursor.textTo, modifiersText]⟩
  | @word e d ms w _ hw _ hd ih =>
    have hword : e.Reaches (e.forward w.length) := .forward e _
    refine ⟨ih.1.trans (hword.trans hd.reaches), ?_⟩
    rw [ih.1.textTo_append (hword.trans hd.reaches), hword.textTo_append hd.reaches, ih.2,
      textTo_word hw]
    simp [modifiersText, Cursor.slice]
  | @star e d ms _ hs hd ih =>
    have hstar : e.Reaches (e.forward 1) := .forward e 1
    obtain ⟨rest, hrest⟩ := List.head?_eq_some_iff.mp hs
    refine ⟨ih.1.trans (hstar.trans hd.reaches), ?_⟩
    rw [ih.1.textTo_append (hstar.trans hd.reaches), hstar.textTo_append hd.reaches, ih.2,
      Cursor.textTo_forward, hrest]
    simp [modifiersText, Cursor.slice]

/-! A name that its text starts with is read as it is bound. -/

section Starts

variable {n : Nat} {after : List Char}

theorem startsWith_word (h : Lexeme.IsName (m.slice (m.forward n)))
    (hb : (NameForm.word (m.slice (m.forward n))).isBare)
    (ha : ∀ c ∈ after.head?, isAsciiNamePart c = false)
    (hm : (NameForm.word (m.slice (m.forward n))).isModifier → after.head? ≠ some ' ') :
    StartsWith (m.textTo (m.forward n) ++ after)
      (NameForm.word (m.slice (m.forward n))).bound? := by
  simp only [NameForm.isBare, Cursor.toList_slice, List.all_eq_true] at hb
  have hne : m.textTo (m.forward n) ≠ [] := by
    intro hnil
    rw [Lexeme.IsName, Cursor.toList_slice, hnil] at h
    cases h
  have hplain : '\\' ∉ m.textTo (m.forward n) := fun h => by cases hb _ h
  rw [NameForm.bound?, Cursor.toList_slice, Quoted.decodeBody_of_plain hplain, Option.map_some]
  refine startsWith_name hb hne ha fun hword => hm ?_
  simpa [NameForm.isModifier, Cursor.slice] using hword

theorem startsWith_quoted (h : Lexeme.string m.rest = some n)
    (hb : (NameForm.string (m.slice (m.forward n))).isBare) (after : List Char) :
    StartsWith (m.textTo (m.forward n) ++ after)
      (NameForm.string (m.slice (m.forward n))).bound? := by
  obtain ⟨q, body, hq, htake⟩ := Lexeme.string_take h
  have htext : m.textTo (m.forward n) = q :: (body ++ [q]) := by
    rw [Cursor.textTo_forward, htake]
  simp only [NameForm.isBare, Cursor.toList_slice, htext] at hb
  obtain ⟨⟨-, hbody, -⟩, hne⟩ :
      ('\\' ≠ q ∧ '\\' ∉ body ∧ '\\' ≠ q) ∧ ∀ c ∈ body, q ≠ c := by simpa using hb
  have hq' : q ∉ body := fun h => hne q h rfl
  have hplain : '\\' ∉ q :: (body ++ [q]) := by
    rcases hq with rfl | rfl <;> simpa using hbody
  rw [NameForm.bound?, Cursor.toList_slice, Cursor.slice, htext,
    if_pos (Quoted.isStandard_of_plain hplain), Quoted.unquote_plain hq hbody]
  simpa using startsWith_string hq hq' after

theorem startsWith_number (hb : (NameForm.number (m.slice (m.forward n))).isBare)
    (ha : ∀ c ∈ after.head?, isAsciiNamePart c = false) :
    StartsWith (m.textTo (m.forward n) ++ after)
      (NameForm.number (m.slice (m.forward n))).bound? := by
  simp only [NameForm.isBare, Cursor.toList_slice, Bool.and_eq_true, List.all_eq_true] at hb
  obtain ⟨hprinted, hb⟩ := hb
  have hne : m.textTo (m.forward n) ≠ [] := by
    intro hnil
    rw [hnil] at hprinted
    cases hprinted
  rw [NameForm.bound?, Cursor.toList_slice, if_pos hprinted]
  -- a word that modifies names is no number
  refine startsWith_name hb hne ha fun hword => ?_
  have hcontra : ∀ w ∈ IrregularShape.soughtWords, isPrinted w.toList = false := by decide
  rw [← String.toList_ofList (l := m.textTo _), hcontra _ hword] at hprinted
  cases hprinted

theorem Keyed.startsWith {name : NameForm} (hk : Keyed m name k) (hb : name.isBare)
    (ha : ∀ c ∈ after.head?, isAsciiNamePart c = false)
    (hm : name.isModifier → after.head? ≠ some ' ') :
    StartsWith (m.textTo k ++ after) name.bound? := by
  cases hk with
  | name hk =>
    cases hk with
    | word h => exact startsWith_word (isName_slice h) hb ha hm
    | string h => exact startsWith_quoted h hb after
    | number h => exact startsWith_number hb ha
  | computed hc h =>
    obtain ⟨rest, hrest⟩ := List.head?_eq_some_iff.mp hc
    have htext : m.textTo k = '[' :: (m.forward 1).textTo k := by
      rw [(Cursor.Reaches.forward m 1).textTo_append h, Cursor.textTo_forward, hrest]
      rfl
    rw [htext, List.cons_append]
    exact startsWith_mark (.inl rfl) _
  | @privateWord n h =>
    rw [Cursor.textTo_forward]
    unfold Lexeme.privateName at h
    split at h
    · next rest hrest =>
      obtain ⟨l, -, rfl⟩ := Option.map_eq_some_iff.mp h
      rw [hrest, Nat.add_comm, List.take_succ_cons, List.cons_append]
      exact startsWith_mark (.inr rfl) _
    · cases h

end Starts

/-- The text between a name and the parameters starts no longer name. -/
theorem gap_head (hd : Apart k d) (hc : d.rest.head? = some '(') (hr : d.Reaches c') :
    (∀ ch ∈ (k.textTo c').head?, isAsciiNamePart ch = false) ∧
      ((k.slice d).toList.head? ≠ some ' ' → (k.textTo c').head? ≠ some ' ') := by
  rw [hd.reaches.textTo_append hr, Cursor.toList_slice]
  have hgap := hd.head
  cases htext : k.textTo d with
  | nil =>
    have hhead : ∀ ch ∈ (d.textTo c').head?, ch = '(' := by
      intro ch hch
      have hrest := hr.rest_eq
      rw [hrest, List.head?_append, hch] at hc
      exact Option.some.inj hc
    rw [List.nil_append]
    refine ⟨fun ch hch => ?_, fun _ hspace => ?_⟩
    · rw [hhead ch hch]
      rfl
    · cases hhead ' ' hspace
  | cons ch cs =>
    rw [htext] at hgap
    exact ⟨hgap, fun h => h⟩

theorem NameForm.bound?_word {word : String} (h : '\\' ∉ word.toList) :
    (NameForm.word word).bound? = some word := by
  rw [NameForm.bound?, Quoted.decodeBody_of_plain h, Option.map_some, String.ofList_toList]

/-- The key of a pair is the one that it binds. -/
theorem NameForm.bound?_eq {name : NameForm} (h : name.isPlain) :
    name.bound? = (Member.key? name).map (·.name) := by
  cases name with
  | word text => exact bound?_word (by simpa [isPlain] using h)
  | string text =>
    rw [bound?, Member.key?, Option.map_map]
    cases hunquote : Quoted.unquote text with
    | none => simp
    | some value =>
      have hstandard : Quoted.isStandard text.toList := by
        simpa [isPlain, isFaithful, hunquote] using h
      rw [if_pos hstandard]
      rfl
  | number text => exact if_pos h
  | privateWord => rfl
  | computed => rfl

/-- A member is read to bind the key that the script binds. -/
theorem Written.name?_eq {form : MemberForm} {q : Property Tree} (h : Written c form q.body c')
    (hp : form.isPlain) : q.name? = form.bound? := by
  obtain ⟨body, position, trivia⟩ := q
  cases h with
  | @pair _ _ _ name key hk hkey =>
    simp only [MemberForm.isPlain, Bool.and_eq_true, decide_eq_true_eq] at hp
    have hname := NameForm.bound?_eq hp.1
    rw [hkey, Option.map_some] at hname
    rw [hname] at hp
    simp only [ne_eq, Option.some.injEq] at hp
    -- the name is not `__proto__`, so the filter keeps it
    rw [MemberForm.bound?, hname, Option.filter_some, if_pos (by simpa using hp.2)]
    rfl
  | @keyless _ _ _ name hk hkey =>
    simp only [MemberForm.isPlain, Bool.and_eq_true] at hp
    have hname := NameForm.bound?_eq hp.1
    rw [hkey, Option.map_none] at hname
    rw [MemberForm.bound?, hname]
    rfl
  | shorthand hk =>
    cases hk with
    | @word n h =>
      simp only [MemberForm.isPlain, List.all_eq_true, Bool.and_eq_true, decide_eq_true_eq,
        Bool.not_eq_true'] at hp
      have htrim := trim_eq fun ch hch => (hp ch hch).2
      rw [MemberForm.bound?, NameForm.bound?_word fun h => (hp _ h).1 rfl]
      change some (String.ofList (trim (c.slice (c.forward n)).toList)) = _
      rw [htrim, String.ofList_toList]
  | @method m k d _ ms name hm hk hd hc hr =>
    simp only [MemberForm.isPlain, Bool.and_eq_true, List.all_eq_true, Bool.not_eq_true',
      Bool.and_eq_false_imp, decide_eq_false_iff_not] at hp
    obtain ⟨⟨hspaced, hbare⟩, hspace⟩ := hp
    obtain ⟨hreaches, htext⟩ := hm.text
    have hbehind : k.Reaches c' := hd.reaches.trans ((Cursor.Reaches.forward d 1).trans hr)
    obtain ⟨hafter, hnospace⟩ := gap_head hd hc ((Cursor.Reaches.forward d 1).trans hr)
    have hstart := hk.startsWith hbare hafter fun h => hnospace (hspace h)
    -- the name of a method is read off the text of the member, behind its modifiers
    change ((IrregularShape.methodName? (c.slice c').toList).map String.ofList) = name.bound?
    rw [Cursor.toList_slice, hreaches.textTo_append (hk.reaches.trans hbehind),
      hk.reaches.textTo_append hbehind, htext, IrregularShape.methodName?_eq,
      IrregularShape.dropModifiers_modifiersText hspaced hstart.head hstart.unmodified]
    exact hstart.name
  | decorated => cases hp
  | spread => rfl
  | withDefault => rfl
  | page => rfl

end Script

end SiteConfig
