import Mathlib.Data.Option.Basic
import SiteConfig.Script.Lexeme
import SiteConfig.Syntax.Quoted

/-!
A string literal is read to its closing quote, whatever follows it, and its value is the text that
was quoted.
-/

namespace SiteConfig.Quoted
open Text Script

theorem hexDigit?_digitChar {k : Nat} (h : k < 16) : hexDigit? (Nat.digitChar k) = some k := by
  revert k
  decide

theorem isHexDigit_digitChar (k : Nat) : isHexDigit (Nat.digitChar (k % 16)) = true := by
  rw [isHexDigit, hexDigit?_digitChar (Nat.mod_lt k (by decide))]
  rfl

theorem digitChar_ne {k : Nat} {c : Char} (h : hexDigit? c = none) :
    Nat.digitChar (k % 16) ≠ c := by
  intro hc
  rw [← hc, hexDigit?_digitChar (Nat.mod_lt k (by decide))] at h
  cases h

theorem hexDigits_four (n : Nat) :
    hexDigits 4 n = [Nat.digitChar (n / 16 / 16 / 16 % 16), Nat.digitChar (n / 16 / 16 % 16),
      Nat.digitChar (n / 16 % 16), Nat.digitChar (n % 16)] := rfl

theorem toNat_lt_of_isControl {c : Char} (h : isControl c = true) : c.toNat < 160 := by
  simp only [isControl, Bool.or_eq_true, Bool.and_eq_true, decide_eq_true_eq] at h
  rcases h with h | ⟨-, h⟩
  · have : c.toNat < 32 := h
    omega
  · have : c.toNat ≤ 159 := h
    omega

/-- The four digits of a control character give its number back. -/
theorem hexValue?_hexDigits {n : Nat} (h : n < 65536) : hexValue? (hexDigits 4 n) = some n := by
  have hd : ∀ k, hexDigit? (Nat.digitChar (k % 16)) = some (k % 16) :=
    fun k => hexDigit?_digitChar (Nat.mod_lt k (by decide))
  have hplus : Nat.digitChar (n / 16 / 16 / 16 % 16) ≠ '+' := digitChar_ne rfl
  have hn : 16 * (16 * (16 * (16 * 0 + n / 16 / 16 / 16 % 16) + n / 16 / 16 % 16) + n / 16 % 16) +
      n % 16 = n := by omega
  have hsize : n < UInt32.size := by
    simp only [UInt32.size]
    omega
  rw [hexDigits_four]
  unfold hexValue?
  split
  · rename_i heq
    exact absurd (List.cons.inj heq).1 hplus
  · have hfold : [Nat.digitChar (n / 16 / 16 / 16 % 16), Nat.digitChar (n / 16 / 16 % 16),
        Nat.digitChar (n / 16 % 16), Nat.digitChar (n % 16)].foldlM
          (fun n c => (hexDigit? c).map (16 * n + ·)) 0 = some n := by
      simp only [List.foldlM_cons, List.foldlM_nil, hd, Option.map_some, Option.bind_eq_bind,
        Option.bind_some, Option.pure_def, hn]
    have hguard : (guard (n < UInt32.size) : Option Unit) = some () := if_pos hsize
    dsimp only
    rw [hfold]
    show (guard (n < UInt32.size) >>= fun _ => some n) = some n
    rw [hguard]
    rfl

theorem charOfCode?_toNat (c : Char) : charOfCode? c.toNat = some c := by
  have h : c.toNat.isValidChar := c.valid
  rw [charOfCode?, dif_pos h]
  rfl

theorem decodeBody_plain {c : Char} (h : c ≠ '\\') (rest : List Char) :
    decodeBody (c :: rest) = (decodeBody rest).map (c :: ·) := by
  rw [decodeBody.eq_def]
  simp [h]

theorem decodeBody_simple {e c : Char} (h : simpleEscape? e = some c) (rest : List Char) :
    decodeBody ('\\' :: e :: rest) = (decodeBody rest).map (c :: ·) := by
  rw [decodeBody.eq_def]
  simp only [h]

theorem decodeBody_self {c : Char} (h : c = '\\' ∨ c = '\'' ∨ c = '"') (rest : List Char) :
    decodeBody ('\\' :: c :: rest) = (decodeBody rest).map (c :: ·) := by
  rw [decodeBody.eq_def]
  rcases h with rfl | rfl | rfl <;> simp [simpleEscape?]

theorem decodeBody_control {c : Char} (h : isControl c = true) (rest : List Char) :
    decodeBody ('\\' :: 'u' :: (hexDigits 4 c.toNat ++ rest)) =
      (decodeBody rest).map (c :: ·) := by
  have hlt := toNat_lt_of_isControl h
  have hdigits : unicodeDigits (hexDigits 4 c.toNat ++ rest) = (hexDigits 4 c.toNat, rest) := by
    have hne : Nat.digitChar (c.toNat / 16 / 16 / 16 % 16) ≠ '\x7b' := digitChar_ne rfl
    rw [hexDigits_four]
    unfold unicodeDigits
    split
    · rename_i heq
      exact absurd (List.cons.inj heq).1 hne
    · rfl
  rw [decodeBody.eq_def]
  simp [simpleEscape?, hdigits, hexValue?_hexDigits (Nat.lt_trans hlt (by decide)),
    charOfCode?_toNat]

/-- A character of a text is read back from the way it is written between quotes. -/
theorem decodeBody_encodeChar {q : Char} (hq : q = '\'' ∨ q = '"') (c : Char) (rest : List Char) :
    decodeBody (encodeChar q c ++ rest) = (decodeBody rest).map (c :: ·) := by
  unfold encodeChar
  split
  · subst_vars
    exact decodeBody_self (.inl rfl) rest
  split
  · subst_vars
    exact decodeBody_simple rfl rest
  split
  · subst_vars
    exact decodeBody_simple rfl rest
  split
  · subst_vars
    exact decodeBody_simple rfl rest
  split
  · subst_vars
    exact decodeBody_self (.inr hq) rest
  split
  · exact decodeBody_control (by assumption) rest
  · exact decodeBody_plain (by assumption) rest

theorem decodeBody_flatMap {q : Char} (hq : q = '\'' ∨ q = '"') (text : List Char) :
    decodeBody (text.flatMap (encodeChar q)) = some text := by
  induction text with
  | nil => simp [decodeBody]
  | cons c rest ih => rw [List.flatMap_cons, decodeBody_encodeChar hq, ih, Option.map_some]

theorem delimiter_eq (text : List Char) : delimiter text = '\'' ∨ delimiter text = '"' := by
  unfold delimiter
  split
  · exact .inr rfl
  · exact .inl rfl

theorem decode_encode (text : List Char) : decode (encode text) = some text := by
  have hq := delimiter_eq text
  have hquote : (delimiter text = '\'' || delimiter text = '"') = true := by simpa using hq
  simp only [encode, List.cons_append, decode, List.getLast?_append, List.getLast?_singleton,
    Option.some_or, decide_true, hquote, Bool.and_true, if_true, List.dropLast_concat]
  exact decodeBody_flatMap hq text

theorem unquote_quote (text : String) : unquote (quote text) = some text := by
  rw [unquote, quote, String.toList_ofList, decode_encode, Option.map_some, String.ofList_toList]

end SiteConfig.Quoted

namespace SiteConfig.Script.Lexeme
open Text Quoted

theorem stringTail_skip (q : Char) (skipped rest : List Char) :
    stringTail q skipped.length (skipped ++ rest) =
      (stringTail q 0 rest).map (skipped.length + ·) := by
  induction skipped with
  | nil => simp
  | cons c skipped ih =>
    rw [List.length_cons, List.cons_append, stringTail, ih, Option.map_map]
    congr 1
    funext n
    simp only [Function.comp_apply]
    omega

theorem stringTail_escape {q : Char} (text : List Char) {rest : List Char}
    (h : escape ('\\' :: (text ++ rest)) = some (text.length + 1)) :
    stringTail q 0 ('\\' :: (text ++ rest)) =
      (stringTail q 0 rest).map (text.length + 1 + ·) := by
  rw [stringTail, if_pos rfl, h]
  simp only [Option.bind_eq_bind, Option.bind_some, Nat.add_sub_cancel, stringTail_skip]
  cases stringTail q 0 rest with
  | none => rfl
  | some n =>
    simp only [Option.map_some, Option.bind_some, Option.pure_def, Option.some.injEq]
    omega

theorem escape_of {c : Char} (h : c = 'n' ∨ c = 'r' ∨ c = 't' ∨ c = '\\' ∨ c = '\'' ∨ c = '"')
    (rest : List Char) : escape ('\\' :: c :: rest) = some 2 := by
  rcases h with rfl | rfl | rfl | rfl | rfl | rfl <;> simp [escape, isOctalDigit]

theorem escape_control (n : Nat) (rest : List Char) :
    escape ('\\' :: 'u' :: (hexDigits 4 n ++ rest)) = some 6 := by
  have hne : Nat.digitChar (n / 16 / 16 / 16 % 16) ≠ '\x7b' := digitChar_ne rfl
  rw [hexDigits_four, escape]
  · simp [run, isHexDigit_digitChar]
  · intro rest' heq
    exact hne (List.cons.inj heq).1

/-- A character of a text is passed over in the way it is written between quotes. -/
theorem stringTail_encodeChar {q : Char} (hq : q = '\'' ∨ q = '"') (c : Char)
    (rest : List Char) :
    stringTail q 0 (encodeChar q c ++ rest) =
      (stringTail q 0 rest).map ((encodeChar q c).length + ·) := by
  unfold encodeChar
  split
  · exact stringTail_escape ['\\'] (escape_of (by simp) rest)
  split
  · exact stringTail_escape ['n'] (escape_of (by simp) rest)
  split
  · exact stringTail_escape ['r'] (escape_of (by simp) rest)
  split
  · exact stringTail_escape ['t'] (escape_of (by simp) rest)
  split
  · subst_vars
    exact stringTail_escape [c] (escape_of (.inr (.inr (.inr (.inr hq)))) rest)
  split
  · exact stringTail_escape ('u' :: hexDigits 4 c.toNat) (escape_control c.toNat rest)
  · rename_i hb hn hr _ hc _
    rw [List.singleton_append, stringTail, if_neg hb, if_neg hc, if_neg (by simp [hn, hr])]
    rfl

theorem stringTail_flatMap {q : Char} (hq : q = '\'' ∨ q = '"') (text rest : List Char) :
    stringTail q 0 (text.flatMap (encodeChar q) ++ q :: rest) =
      some ((text.flatMap (encodeChar q)).length + 1) := by
  induction text with
  | nil =>
    have hb : q ≠ '\\' := by rcases hq with rfl | rfl <;> decide
    rw [List.flatMap_nil, List.nil_append, stringTail, if_neg hb, if_pos rfl]
    rfl
  | cons c text ih =>
    rw [List.flatMap_cons, List.append_assoc, stringTail_encodeChar hq, ih, Option.map_some,
      List.length_append, Nat.add_assoc]

/-- A quoted text is a whole literal, whatever follows it. -/
theorem string_quote (text : String) (rest : List Char) :
    string ((quote text).toList ++ rest) = some (quote text).toList.length := by
  have hq := delimiter_eq text.toList
  rw [quote, String.toList_ofList, encode, List.cons_append, List.cons_append, string,
    if_pos (by simpa using hq.symm), List.append_assoc, List.singleton_append,
    stringTail_flatMap hq]
  simp only [Option.map_some, List.length_cons, List.length_append, List.length_nil]
  congr 1
  omega

end SiteConfig.Script.Lexeme
