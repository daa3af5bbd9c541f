import Mathlib.Data.List.Forall2
import Mathlib.Tactic.SplitIfs
import SiteConfig.Json.Writer
import SiteConfig.Proofs.Quoting

/-!
What is written in the interchange notation is read again, whatever stands behind it: strings by
their characters, arrays and objects by what they hold.
-/

namespace SiteConfig.Json
open Text

/-! Strings. -/

/-- A string whose characters `cs` holds, read on behind the character `c`. -/
def prepend (c : Char) (p : Option (List Char) × List Char) : Option (List Char) × List Char :=
  (p.1.map (c :: ·), p.2)

theorem stringTail_escaped {e c : Char} (he : escaped? e = some c) (fuel : Nat) (cs : List Char) :
    stringTail (fuel + 1) ('\\' :: e :: cs) = (stringTail fuel cs).map (prepend c) := by
  have hu : e ≠ 'u' := by
    rintro rfl
    cases he
  simp only [stringTail]
  rw [he]
  cases stringTail fuel cs <;> rfl

theorem hexCode?_hexDigits2 {n : Nat} (h : n < 256) (cs : List Char) :
    hexCode? ('0' :: '0' :: (hexDigits2 n ++ cs)) = some n := by
  have hd : ∀ k, hexDigit? (Nat.digitChar (k % 16)) = some (k % 16) :=
    fun k => Quoted.hexDigit?_digitChar (Nat.mod_lt k (by decide))
  have hzero : hexDigit? '0' = some 0 := rfl
  have hn : 16 * (n / 16 % 16) + n % 16 = n := by omega
  simp [hexCode?, hexDigits2, hd, hzero, hn, guard]

theorem stringTail_control {c : Char} (h : c < ' ') (fuel : Nat) (cs : List Char) :
    stringTail (fuel + 1) ('\\' :: 'u' :: '0' :: '0' :: (hexDigits2 c.toNat ++ cs)) =
      (stringTail fuel cs).map (prepend c) := by
  have hlt : c.toNat < 32 := h
  have hhigh : isHighHalf c.toNat = false := by
    simp only [isHighHalf, Bool.and_eq_false_iff, decide_eq_false_iff_not]
    omega
  have hlow : isLowHalf c.toNat = false := by
    simp only [isLowHalf, Bool.and_eq_false_iff, decide_eq_false_iff_not]
    omega
  simp only [stringTail]
  rw [hexCode?_hexDigits2 (by omega)]
  simp only [Option.bind_eq_bind, Option.bind_some, hhigh, hlow, Bool.false_eq_true, if_false]
  have hbehind : ('0' :: '0' :: (hexDigits2 c.toNat ++ cs)).drop 4 = cs := rfl
  rw [hbehind, Char.ofNat_toNat]
  cases stringTail fuel cs <;> rfl

theorem stringTail_plain {c : Char} (h : ¬ c < ' ') (hquote : c ≠ '"') (hslash : c ≠ '\\')
    (fuel : Nat) (cs : List Char) :
    stringTail (fuel + 1) (c :: cs) = (stringTail fuel cs).map (prepend c) := by
  have hguard : (decide (' ' ≤ c) && decide (c ≠ '\\')) = true := by
    simp [hslash, Char.not_lt.mp h]
  rw [stringTail]
  · rw [hguard]
    cases stringTail fuel cs <;> rfl
  · exact hquote
  · exact fun _ heq => absurd heq hslash
  · exact fun _ _ heq => absurd heq hslash

/-- The three ways to write a character. -/
theorem encodeChar_cases (c : Char) :
    (∃ e, escaped? e = some c ∧ encodeChar c = ['\\', e]) ∨
      (c < ' ' ∧ encodeChar c = '\\' :: 'u' :: '0' :: '0' :: hexDigits2 c.toNat) ∨
      (¬ c < ' ' ∧ c ≠ '"' ∧ c ≠ '\\' ∧ encodeChar c = [c]) := by
  unfold encodeChar
  split_ifs with hquote hslash hback hfeed hline hreturn htab hcontrol
  · exact .inl ⟨_, by rw [hquote]; rfl, rfl⟩
  · exact .inl ⟨_, by rw [hslash]; rfl, rfl⟩
  · exact .inl ⟨_, by rw [hback]; rfl, rfl⟩
  · exact .inl ⟨_, by rw [hfeed]; rfl, rfl⟩
  · exact .inl ⟨_, by rw [hline]; rfl, rfl⟩
  · exact .inl ⟨_, by rw [hreturn]; rfl, rfl⟩
  · exact .inl ⟨_, by rw [htab]; rfl, rfl⟩
  · exact .inr (.inl ⟨hcontrol, rfl⟩)
  · exact .inr (.inr ⟨hcontrol, hquote, hslash, rfl⟩)

/-- A character that was written is read. -/
theorem stringTail_encodeChar (c : Char) (fuel : Nat) (cs : List Char) :
    stringTail (fuel + 1) (encodeChar c ++ cs) = (stringTail fuel cs).map (prepend c) := by
  rcases encodeChar_cases c with ⟨e, he, heq⟩ | ⟨hcontrol, heq⟩ | ⟨hplain, hquote, hslash, heq⟩
  · rw [heq]
    exact stringTail_escaped he fuel cs
  · rw [heq]
    exact stringTail_control hcontrol fuel cs
  · rw [heq]
    exact stringTail_plain hplain hquote hslash fuel cs

theorem stringTail_flatMap (text rest : List Char) {fuel : Nat} (h : text.length < fuel) :
    stringTail fuel (text.flatMap encodeChar ++ '"' :: rest) = some (some text, rest) := by
  induction text generalizing fuel with
  | nil =>
    obtain ⟨fuel, rfl⟩ := Nat.exists_eq_add_of_lt h
    rfl
  | cons c text ih =>
    obtain ⟨fuel, rfl⟩ : ∃ n, fuel = n + 1 := ⟨fuel - 1, by omega⟩
    rw [List.flatMap_cons, List.append_assoc, stringTail_encodeChar, ih (by simpa using h)]
    rfl

theorem one_le_length_encodeChar (c : Char) : 1 ≤ (encodeChar c).length := by
  rcases encodeChar_cases c with ⟨e, -, heq⟩ | ⟨-, heq⟩ | ⟨-, -, -, heq⟩ <;> simp [heq]

/-- A string takes at least a character for each of its own. -/
theorem length_le_flatMap (text : List Char) :
    text.length ≤ (text.flatMap encodeChar).length := by
  induction text with
  | nil => simp
  | cons c text ih =>
    have := one_le_length_encodeChar c
    simp only [List.flatMap_cons, List.length_append, List.length_cons]
    omega

/-- The text of a string, read with as much fuel as the reader takes for it. -/
theorem stringTail_written (text : String) (rest : List Char) :
    stringTail ((text.toList.flatMap encodeChar ++ '"' :: rest).length + 1)
      (text.toList.flatMap encodeChar ++ '"' :: rest) = some (some text.toList, rest) := by
  apply stringTail_flatMap
  have := length_le_flatMap text.toList
  simp only [List.length_append, List.length_cons]
  omega

theorem toList_writeString (text : String) :
    (writeString text).toList = '"' :: (text.toList.flatMap encodeChar ++ ['"']) := by
  simp [writeString]

/-! Values. -/

/-- The text is read as the value, whatever stands behind it, and with as much fuel as it has
characters. -/
structure Reads (text : List Char) (v : Value) : Prop where
  head : ∃ c rest, text = c :: rest ∧ (c = '"' ∨ c = '[' ∨ c = '\x7b')
  read : ∀ fuel rest, text.length < fuel → value? fuel (text ++ rest) = some (v, rest)

theorem skipSpace_of_head {c : Char} (h : isSpace c = false) (cs : List Char) :
    skipSpace (c :: cs) = c :: cs := by
  simp [skipSpace, h]

theorem Reads.skipSpace {text : List Char} {v : Value} (h : Reads text v) (rest : List Char) :
    Json.skipSpace (text ++ rest) = text ++ rest := by
  obtain ⟨c, cs, rfl, rfl | rfl | rfl⟩ := h.head <;> exact skipSpace_of_head rfl _

/-- A value starts with no closing bracket. -/
theorem Reads.ne_bracket {text : List Char} {v : Value} (h : Reads text v)
    (rest behind : List Char) : text ++ rest ≠ ']' :: behind := by
  obtain ⟨c, cs, rfl, rfl | rfl | rfl⟩ := h.head <;> simp

theorem reads_writeString (text : String) :
    Reads (writeString text).toList (.string (some text)) where
  head := ⟨_, _, toList_writeString text, .inl rfl⟩
  read fuel rest h := by
    obtain ⟨fuel, rfl⟩ : ∃ n, fuel = n + 1 := ⟨fuel - 1, by omega⟩
    rw [toList_writeString, List.cons_append, List.append_assoc, List.singleton_append, value?,
      skipSpace_of_head rfl]
    simp only [stringTail_written]
    simp

theorem exists_intercalate_cons (sep text : List Char) (texts : List (List Char)) :
    ∃ more, sep.intercalate (text :: texts) = text ++ more := by
  cases texts with
  | nil => exact ⟨[], by simp⟩
  | cons text' texts => exact ⟨_, by rw [List.intercalate_cons_cons, List.append_assoc]⟩

/-- Each item is read up to the comma behind it. -/
theorem items?_intercalate {texts : List (List Char)} {vs : List Value}
    (h : List.Forall₂ Reads texts vs) (hne : texts ≠ []) {fuel : Nat}
    (hfuel : ([','].intercalate texts).length + 1 < fuel) (rest : List Char) :
    items? fuel ([','].intercalate texts ++ ']' :: rest) = some (vs, rest) := by
  induction h generalizing fuel with
  | nil => exact absurd rfl hne
  | @cons text v texts vs hv hvs ih =>
    obtain ⟨fuel, rfl⟩ : ∃ n, fuel = n + 1 := ⟨fuel - 1, by omega⟩
    cases hvs with
    -- a comma stands behind every item but the last, which the closing bracket follows
    | nil =>
      rw [List.intercalate_singleton] at hfuel ⊢
      rw [items?, hv.read fuel _ (by omega)]
      simp only [Option.bind_eq_bind, Option.bind_some, skipSpace_of_head (c := ']') rfl]
      rfl
    | @cons text' v' texts vs hv' hvs =>
      rw [List.intercalate_cons_cons] at hfuel ⊢
      simp only [List.length_append, List.length_singleton] at hfuel
      rw [List.append_assoc, List.append_assoc, List.singleton_append, items?,
        hv.read fuel _ (by omega)]
      simp only [Option.bind_eq_bind, Option.bind_some, skipSpace_of_head (c := ',') rfl]
      rw [ih (List.cons_ne_nil _ _) (by omega)]
      rfl

theorem toList_writeArray (items : List String) :
    (writeArray items).toList = '[' :: ([','].intercalate (items.map String.toList) ++ [']']) := by
  simp [writeArray, String.toList_intercalate]

theorem reads_writeArray {items : List String} {vs : List Value}
    (h : List.Forall₂ (fun item v => Reads item.toList v) items vs) :
    Reads (writeArray items).toList (.array vs) where
  head := ⟨_, _, toList_writeArray items, .inr (.inl rfl)⟩
  read fuel rest hfuel := by
    rw [toList_writeArray] at hfuel ⊢
    obtain ⟨fuel, rfl⟩ : ∃ n, fuel = n + 1 := ⟨fuel - 1, by omega⟩
    rw [List.cons_append, List.append_assoc, List.singleton_append, value?, skipSpace_of_head rfl]
    replace h := List.forall₂_map_left_iff.mpr h
    generalize items.map String.toList = texts at h hfuel
    cases h with
    | nil => rfl
    | @cons text v texts vs hv hvs =>
      obtain ⟨more, hmore⟩ := exists_intercalate_cons [','] text texts
      have hall : List.Forall₂ Reads (text :: texts) (v :: vs) := .cons hv hvs
      have hlength : ([','].intercalate (text :: texts)).length + 1 < fuel := by
        simp only [List.length_cons, List.length_append, List.length_nil] at hfuel
        omega
      have hread := items?_intercalate hall (List.cons_ne_nil _ _) hlength rest
      have hspace : Json.skipSpace ([','].intercalate (text :: texts) ++ ']' :: rest) =
          [','].intercalate (text :: texts) ++ ']' :: rest := by
        rw [hmore, List.append_assoc, hv.skipSpace]
      simp only [hspace]
      -- what is not empty does not start with the closing bracket
      split
      · next behind heq =>
        rw [hmore, List.append_assoc] at heq
        exact absurd heq (hv.ne_bracket _ behind)
      · rw [hread]
        rfl

/-- A member of an object as it is written. -/
def memberText (m : String × String) : List Char :=
  (writeString m.1).toList ++ ':' :: m.2.toList

/-- The members that are written are those that are read. -/
def ReadsMember (m : String × String) (v : String × Value) : Prop :=
  m.1 = v.1 ∧ Reads m.2.toList v.2

theorem length_memberText (key text : String) :
    text.toList.length < (memberText (key, text)).length := by
  simp only [memberText, List.length_append, List.length_cons]
  omega

/-- What is read behind a member: the next ones if there is a comma, and none at the brace. -/
def membersBehind (fuel : Nat) (m : Option String × Value) (rest : List Char) :
    Option (List (Option String × Value) × List Char) :=
  match skipSpace rest with
  | ',' :: rest => do
    let (ms, rest) ← members? fuel rest
    return (m :: ms, rest)
  | '\x7d' :: rest => return ([m], rest)
  | _ => none

theorem members?_memberText (key : String) {text : String} {v : Value} (h : Reads text.toList v)
    {fuel : Nat} (hfuel : text.toList.length < fuel) (rest : List Char) :
    members? (fuel + 1) (memberText (key, text) ++ rest) =
      membersBehind fuel (some key, v) rest := by
  have hkey := stringTail_written key (':' :: (text.toList ++ rest))
  rw [memberText, toList_writeString, members?]
  simp only [List.cons_append, List.append_assoc, List.nil_append, skipSpace_of_head (c := '"') rfl]
  simp only [hkey, Option.bind_eq_bind, Option.bind_some, skipSpace_of_head (c := ':') rfl,
    h.read fuel _ hfuel, Option.map_some, String.ofList_toList]
  rfl

/-- Each member is read up to the comma behind it. -/
theorem members?_intercalate {ms : List (String × String)} {vs : List (String × Value)}
    (h : List.Forall₂ ReadsMember ms vs) (hne : ms ≠ []) {fuel : Nat}
    (hfuel : ([','].intercalate (ms.map memberText)).length + 1 < fuel) (rest : List Char) :
    members? fuel ([','].intercalate (ms.map memberText) ++ '\x7d' :: rest) =
      some (vs.map fun v => (some v.1, v.2), rest) := by
  induction h generalizing fuel with
  | nil => exact absurd rfl hne
  | @cons m v ms vs hv hvs ih =>
    obtain ⟨fuel, rfl⟩ : ∃ n, fuel = n + 1 := ⟨fuel - 1, by omega⟩
    obtain ⟨key, text⟩ := m
    obtain ⟨key', v⟩ := v
    obtain ⟨rfl, hv : Reads text.toList v⟩ := hv
    have hlength := length_memberText key text
    cases hvs with
    | nil =>
      rw [List.map_singleton, List.intercalate_singleton] at hfuel ⊢
      rw [members?_memberText key hv (by omega), membersBehind, skipSpace_of_head rfl]
      rfl
    | @cons m' v' ms vs hv' hvs =>
      rw [List.map_cons, List.map_cons, List.intercalate_cons_cons] at hfuel ⊢
      simp only [List.length_append, List.length_singleton] at hfuel
      have hlength' : ([','].intercalate ((m' :: ms).map memberText)).length + 1 < fuel := by
        rw [List.map_cons]
        omega
      have hrest := ih (List.cons_ne_nil _ _) hlength'
      rw [List.append_assoc, List.append_assoc, List.singleton_append,
        members?_memberText key hv (by omega), membersBehind, skipSpace_of_head rfl]
      simp only [List.map_cons] at hrest ⊢
      simp only [hrest]
      rfl

theorem toList_writeObject (members : List (String × String)) :
    (writeObject members).toList =
      '\x7b' :: ([','].intercalate (members.map memberText) ++ ['\x7d']) := by
  have hmembers : (members.map fun m => writeString m.1 ++ ":" ++ m.2).map String.toList =
      members.map memberText := by
    simp [memberText, Function.comp_def]
  simp [writeObject, String.toList_intercalate, ← hmembers]

theorem reads_writeObject {members : List (String × String)} {vs : List (String × Value)}
    (h : List.Forall₂ ReadsMember members vs) :
    Reads (writeObject members).toList (.object (vs.map fun v => (some v.1, v.2))) where
  head := ⟨_, _, toList_writeObject members, .inr (.inr rfl)⟩
  read fuel rest hfuel := by
    rw [toList_writeObject] at hfuel ⊢
    obtain ⟨fuel, rfl⟩ : ∃ n, fuel = n + 1 := ⟨fuel - 1, by omega⟩
    rw [List.cons_append, List.append_assoc, List.singleton_append, value?, skipSpace_of_head rfl]
    cases h with
    | nil => rfl
    | @cons m v ms vs hv hvs =>
      obtain ⟨more, hmore⟩ := exists_intercalate_cons [','] (memberText m) (ms.map memberText)
      have hlength : ([','].intercalate ((m :: ms).map memberText)).length + 1 < fuel := by
        simp only [List.length_cons, List.length_append, List.length_nil] at hfuel
        omega
      have hread := members?_intercalate (.cons hv hvs) (List.cons_ne_nil _ _) hlength rest
      have hhead : ∃ cs, [','].intercalate ((m :: ms).map memberText) = '"' :: cs := by
        rw [List.map_cons, hmore, memberText, toList_writeString]
        exact ⟨_, rfl⟩
      obtain ⟨cs, hcs⟩ := hhead
      rw [hcs] at hread ⊢
      simp only [List.cons_append, skipSpace_of_head (c := '"') rfl] at hread ⊢
      change (members? fuel ('"' :: (cs ++ '\x7d' :: rest))).bind _ = _
      rw [hread]
      rfl

/-- A text that is read as a value holds this value and nothing else. -/
theorem Reads.parse? {text : String} {v : Value} (h : Reads text.toList v) :
    Json.parse? text = some v := by
  have hread := h.read (2 * text.toList.length + 2) [] (by omega)
  rw [List.append_nil] at hread
  simp only [Json.parse?, hread]
  rfl

end SiteConfig.Json
