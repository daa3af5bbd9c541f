import SiteConfig.Proofs.Gaps

/-!
How the members of an object are written, as far as the keys go that they bind.
-/

namespace SiteConfig.Script
open Text

variable {c d k c' c₀ : Cursor}

theorem Cursor.textTo_forward (c : Cursor) (n : Nat) : c.textTo (c.forward n) = c.rest.take n := by
  have hleft := c.left_eq
  rw [textTo, left_forward]
  rcases Nat.le_total n c.left with h | h
  · rw [Nat.sub_sub_self h]
  · rw [Nat.sub_eq_zero_of_le h, Nat.sub_zero, hleft, List.take_length,
      List.take_of_length_le (hleft ▸ h)]

theorem Cursor.toList_slice (c d : Cursor) : (c.slice d).toList = c.textTo d := by
  rw [slice, String.toList_ofList]

theorem Cursor.Reaches.rest_eq (h : c.Reaches d) : c.rest = c.textTo d ++ d.rest := by
  obtain ⟨n, rfl⟩ := h
  rw [textTo_forward, rest_forward, List.take_append_drop]

theorem Cursor.Reaches.textTo_append (h : c.Reaches d) (h' : d.Reaches c') :
    c.textTo c' = c.textTo d ++ d.textTo c' := by
  have hsplit := (h.trans h').rest_eq
  rw [h.rest_eq, h'.rest_eq, ← List.append_assoc] at hsplit
  exact (List.append_cancel_right hsplit).symm

theorem isName_slice {c : Cursor} {n : Nat} (h : Lexeme.name c.rest = some n) :
    Lexeme.IsName (c.slice (c.forward n)) := by
  rw [Lexeme.IsName, c.toList_slice, c.textTo_forward]
  exact Lexeme.name_take h

/-- The name of a property stands between two places. -/
inductive Names : Cursor → NameForm → Cursor → Prop where
  | word {c : Cursor} {n : Nat} (h : Lexeme.name c.rest = some n) :
    Names c (.word (c.slice (c.forward n))) (c.forward n)
  | string {c : Cursor} {n : Nat} (h : Lexeme.string c.rest = some n) :
    Names c (.string (c.slice (c.forward n))) (c.forward n)
  | number {c : Cursor} {n : Nat} (h : Lexeme.number c.rest = some n) :
    Names c (.number (c.slice (c.forward n))) (c.forward n)

/-- A name that may also be computed or private. -/
inductive Keyed : Cursor → NameForm → Cursor → Prop where
  | name {c k : Cursor} {form : NameForm} (h : Names c form k) : Keyed c form k
  | computed {c k : Cursor} (hc : c.rest.head? = some '[') (h : (c.forward 1).Reaches k) :
    Keyed c .computed k
  | privateWord {c : Cursor} {n : Nat} (h : Lexeme.privateName c.rest = some n) :
    Keyed c .privateWord (c.forward n)

theorem Names.reaches {form : NameForm} (h : Names c form k) : c.Reaches k := by
  cases h <;> exact .forward c _

namespace Keyed

variable {form : NameForm}

theorem reaches (h : Keyed c form k) : c.Reaches k := by
  cases h with
  | name h => exact h.reaches
  | computed _ h => exact (Cursor.Reaches.forward c 1).trans h
  | privateWord _ => exact .forward c _

theorem names {key : PropertyKey} (h : Keyed c form k) (hkey : Member.key? form = some key) :
    Names c form k := by
  cases h with
  | name h => exact h
  | computed => cases hkey
  | privateWord => cases hkey

theorem names_word {word : String} (h : Keyed c (.word word) k) : Names c (.word word) k :=
  h.names rfl

end Keyed

/-- The words that may stand before the name of a method. -/
def modifierWords : List String :=
  ["static", "async", "get", "set"]

/-- The modifiers of a method from one place to the token behind them, each with the text between
it and the next token. -/
inductive Modified (c : Cursor) : List (String × String) → Cursor → Prop where
  | none : Modified c [] c
  | word {e d : Cursor} {ms : List (String × String)} {w : String} (h : Modified c ms e)
    (hw : Scan.wordOf e.rest = some w) (hm : w ∈ modifierWords)
    (hd : Apart (e.forward w.length) d) :
    Modified c (ms ++ [(w, (e.forward w.length).slice d)]) d
  | star {e d : Cursor} {ms : List (String × String)} (h : Modified c ms e)
    (hs : e.rest.head? = some '*') (hd : Apart (e.forward 1) d) :
    Modified c (ms ++ [("*", (e.forward 1).slice d)]) d

/-- How a member starts. -/
inductive MemberForm where
  | pair (name : NameForm)
  | shorthand (word : String)
  /-- With the text between the name and the parameters. -/
  | method (modifiers : List (String × String)) (name : NameForm) (gap : String)
  /-- A method behind decorators. -/
  | decorated
  | spread
  /-- A name with a default, which only a pattern can have. -/
  | withDefault
  /-- A page comment in the place of a member. -/
  | page

/-- The text from one place to a later one is a member, and read as this property. -/
inductive Written (c : Cursor) : MemberForm → PropertyBody Tree → Cursor → Prop where
  | pair {k d c' : Cursor} {name : NameForm} {key : PropertyKey} (hk : Keyed c name k)
    (hkey : Member.key? name = some key) (hd : Apart k d) (hc : d.rest.head? = some ':')
    (h : (d.forward 1).Reaches c') (value : Tree) :
    Written c (.pair name) (.assignment key value) c'
  | keyless {k d c' : Cursor} {name : NameForm} (hk : Keyed c name k)
    (hkey : Member.key? name = none) (hd : Apart k d) (hc : d.rest.head? = some ':')
    (h : (d.forward 1).Reaches c') :
    Written c (.pair name) (.irregular .computed (c.slice c')) c'
  | shorthand {k : Cursor} {word : String} (hk : Names c (.word word) k) :
    Written c (.shorthand word) (.irregular .shorthand (c.slice k)) k
  | method {m k d c' : Cursor} {ms : List (String × String)} {name : NameForm}
    (hm : Modified c ms m) (hk : Keyed m name k) (hd : Apart k d) (hc : d.rest.head? = some '(')
    (h : (d.forward 1).Reaches c') :
    Written c (.method ms name (k.slice d)) (.irregular .method (c.slice c')) c'
  | decorated {c' : Cursor} (hc : c.rest.head? = some '@') (h : c.Reaches c') :
    Written c .decorated (.irregular .method (c.slice c')) c'
  | spread {c' : Cursor} (hc : "...".toList.isPrefixOf c.rest) (h : c.Reaches c') :
    Written c .spread (.irregular .spread (c.slice c')) c'
  | withDefault {k d c' : Cursor} {word : String} (hk : Names c (.word word) k) (hd : Apart k d)
    (hc : d.rest.head? = some '=') (h : (d.forward 1).Reaches c') :
    Written c .withDefault (.irregular .unrecognized (c.slice c')) c'
  | page {n : Nat} (h : Lexeme.pageComment c.rest = some n) :
    Written c .page (.irregular .unrecognized (c.slice (c.forward n))) (c.forward n)

/-! Modifiers are read before it is known where the next token stands. -/

/-- The text up to here is modifiers, if the next token is passed to. -/
def Heads (c₀ c : Cursor) : Prop :=
  ∀ d, Apart c d → ∃ ms, Modified c₀ ms d

theorem AtStart.eq_of_apart (hc : AtStart c) (h : Apart c d) : d = c := by
  obtain ⟨comments, hgap⟩ := h
  cases hgap with
  | none => rfl
  | blank h hb _ =>
    obtain ⟨rest, hrest⟩ := List.head?_eq_some_iff.mp h
    have hblank := hc.blank
    simp [hrest, Lexeme.run, hb] at hblank
  | comment h _ =>
    rw [hc.comment] at h
    cases h
  | other h _ =>
    rw [hc.page] at h
    cases h

namespace Heads

theorem start (hc : AtStart c) : Heads c c := by
  intro d hd
  rw [hc.eq_of_apart hd]
  exact ⟨[], .none⟩

theorem gap (h : Heads c₀ c) (hd : Apart c d) : Heads c₀ d :=
  fun e he => h e (hd.trans he)

theorem word {w : String} (h : Heads c₀ c) (hd : Apart c d) (hw : Scan.wordOf d.rest = some w)
    (hm : w ∈ modifierWords) : Heads c₀ (d.forward w.length) := by
  intro e he
  obtain ⟨ms, hms⟩ := h d hd
  exact ⟨_, .word hms hw hm he⟩

theorem star (h : Heads c₀ c) (hd : Apart c d) (hs : d.rest.head? = some '*') :
    Heads c₀ (d.forward 1) := by
  intro e he
  obtain ⟨ms, hms⟩ := h d hd
  exact ⟨_, .star hms hs he⟩

end Heads

end SiteConfig.Script
