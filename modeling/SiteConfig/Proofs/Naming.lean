import SiteConfig.Proofs.Shown

/-!
A key that an edit writes without quotes is read as a name.
-/

namespace SiteConfig

namespace Text

theorem toNat_lt_of_isAsciiNamePart {c : Char} (h : isAsciiNamePart c) : c.toNat < 128 := by
  simp only [isAsciiNamePart, isAsciiNameStart, isAsciiLetter, isDigit, Bool.or_eq_true,
    Bool.and_eq_true, decide_eq_true_eq, Char.le_def, UInt32.le_iff_toNat_le] at h
  have hc : c.toNat = c.val.toNat := rfl
  rcases h with (((⟨-, h⟩ | ⟨-, h⟩) | rfl) | rfl) | ⟨-, h⟩
  · exact hc ▸ Nat.lt_of_le_of_lt h (by decide)
  · exact hc ▸ Nat.lt_of_le_of_lt h (by decide)
  · decide
  · decide
  · exact hc ▸ Nat.lt_of_le_of_lt h (by decide)

theorem isPunctuation_of_isAsciiNamePart {c : Char} (h : isAsciiNamePart c) :
    isPunctuation c = false := by
  have hne : ∀ d, isAsciiNamePart d = false → c ≠ d := by
    rintro d hd rfl
    rw [h] at hd
    cases hd
  simp (disch := decide) [isPunctuation, hne]

theorem isNamePart_of_isAsciiNamePart {c : Char} (h : isAsciiNamePart c) : isNamePart c := by
  -- the characters are few enough to be tried one by one
  have hall : ∀ n : Fin 128, isAsciiNamePart (Char.ofNat n) →
      ' ' ≤ Char.ofNat n ∧ isBlank (Char.ofNat n) = false := by decide
  have hc := hall ⟨c.toNat, toNat_lt_of_isAsciiNamePart h⟩
  simp only [Char.ofNat_toNat] at hc
  simp [isNamePart, hc h, isPunctuation_of_isAsciiNamePart h]

theorem isNameStart_of_isAsciiNameStart {c : Char} (h : isAsciiNameStart c) : isNameStart c := by
  have hpart : isAsciiNamePart c := by simp [isAsciiNamePart, h]
  have hall : ∀ n : Fin 128, isAsciiNameStart (Char.ofNat n) → isDigit (Char.ofNat n) = false := by
    decide
  have hc := hall ⟨c.toNat, toNat_lt_of_isAsciiNamePart hpart⟩
  simp only [Char.ofNat_toNat] at hc
  simp [isNameStart, isNamePart_of_isAsciiNamePart hpart, hc h]

end Text

namespace Script.Lexeme
open Text

theorem nameTail_of_all {cs : List Char} (h : ∀ c ∈ cs, isNamePart c) : nameTail 0 cs = cs.length := by
  induction cs with
  | nil => rfl
  | cons c rest ih =>
    rw [nameTail, if_pos (h c List.mem_cons_self), ih fun d hd => h d (List.mem_cons_of_mem c hd),
      List.length_cons, Nat.add_comm]

theorem isName_of_isPlainName {s : String} (h : PropertyKey.isPlainName s) : IsName s := by
  unfold PropertyKey.isPlainName at h
  unfold IsName
  split at h
  · cases h
  · rename_i c rest hs
    simp only [Bool.and_eq_true, List.all_eq_true] at h
    obtain ⟨⟨hstart, hparts⟩, -⟩ := h
    rw [hs, name, if_pos (isNameStart_of_isAsciiNameStart hstart),
      nameTail_of_all fun d hd => isNamePart_of_isAsciiNamePart (hparts d hd), List.length_cons,
      Nat.add_comm]

end Script.Lexeme

theorem Script.isIdentifier_of_isPlainName {s : String} (h : PropertyKey.isPlainName s)
    (hk : s ∉ Script.keywords) : Script.IsIdentifier s :=
  ⟨Script.Lexeme.isName_of_isPlainName h, hk⟩

theorem PropertyKey.Plain.forName (name : String) : (PropertyKey.forName name).Plain := by
  by_cases h : isPlainName name
  · exact .inl ⟨by simp [PropertyKey.forName, h], Script.Lexeme.isName_of_isPlainName h⟩
  · exact .inr (by simp [PropertyKey.forName, h])

end SiteConfig
