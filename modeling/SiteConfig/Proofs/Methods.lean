import SiteConfig.Proofs.Naming

/-!
The name that is read from the text of a method. It is looked for behind the modifiers, and a word
is taken for one only if a space is behind it.
-/

namespace SiteConfig
open Text

namespace Text

theorem trimStart_append {blank : List Char} (h : ∀ c ∈ blank, isWhiteSpace c) (rest : List Char) :
    trimStart (blank ++ rest) = trimStart rest := by
  induction blank with
  | nil => rfl
  | cons c cs ih =>
    rw [List.forall_mem_cons] at h
    rw [List.cons_append, trimStart, List.dropWhile_cons_of_pos h.1]
    exact ih h.2

theorem trimStart_of_head {cs : List Char} (h : ∀ c ∈ cs.head?, isWhiteSpace c = false) :
    trimStart cs = cs := by
  cases cs with
  | nil => rfl
  | cons c cs => exact List.dropWhile_cons_of_neg (by simp [h c rfl])

theorem trim_eq {cs : List Char} (h : ∀ c ∈ cs, isWhiteSpace c = false) : trim cs = cs := by
  have hself : ∀ cs : List Char, (∀ c ∈ cs, isWhiteSpace c = false) → trimStart cs = cs :=
    fun cs h => trimStart_of_head fun c hc => h c (List.mem_of_mem_head? hc)
  rw [trim, hself cs h, hself _ (by simpa using h), List.reverse_reverse]

theorem not_isWhiteSpace_of_isAsciiNamePart {c : Char} (h : isAsciiNamePart c) :
    isWhiteSpace c = false := by
  have hall : ∀ n : Fin 128, isAsciiNamePart (Char.ofNat n) →
      isWhiteSpace (Char.ofNat n) = false := by decide
  have hc := hall ⟨c.toNat, toNat_lt_of_isAsciiNamePart h⟩
  simp only [Char.ofNat_toNat] at hc
  exact hc h

theorem head_name {name : List Char} (hn : ∀ c ∈ name, isAsciiNamePart c) (hne : name ≠ [])
    (after : List Char) : ∀ c ∈ (name ++ after).head?, isWhiteSpace c = false := by
  cases name with
  | nil => exact absurd rfl hne
  | cons c cs =>
    rintro _ ⟨⟩
    exact not_isWhiteSpace_of_isAsciiNamePart (hn c List.mem_cons_self)

theorem takeWhile_name {name after : List Char} (hn : ∀ c ∈ name, isAsciiNamePart c)
    (ha : ∀ c ∈ after.head?, isAsciiNamePart c = false) :
    (name ++ after).takeWhile isAsciiNamePart = name := by
  induction name with
  | nil =>
    cases after with
    | nil => rfl
    | cons c cs => exact List.takeWhile_cons_of_neg (by simp [ha c rfl])
  | cons c cs ih =>
    rw [List.forall_mem_cons] at hn
    rw [List.cons_append, List.takeWhile_cons_of_pos hn.1, ih hn.2]

end Text

namespace IrregularShape

/-- The words that are looked for before the name of a method. -/
def soughtWords : List String :=
  ["async", "get", "set"]

theorem sought_name {w : String} (hw : w ∈ soughtWords) :
    w.toList ≠ [] ∧ ∀ c ∈ w.toList, isAsciiNamePart c := by
  simp only [soughtWords, List.mem_cons, List.not_mem_nil, or_false] at hw
  rcases hw with rfl | rfl | rfl <;> simp <;> decide

theorem dropModifier?_word {w : String} (hw : w ∈ soughtWords) (rest : List Char) :
    dropModifier? (w.toList ++ ' ' :: rest) = some rest := by
  simp only [soughtWords, List.mem_cons, List.not_mem_nil, or_false] at hw
  rcases hw with rfl | rfl | rfl <;> rfl

theorem dropModifier?_star (rest : List Char) : dropModifier? ('*' :: rest) = some rest :=
  rfl

theorem dropModifier?_eq_some {text rest : List Char} (h : dropModifier? text = some rest) :
    (∃ w ∈ soughtWords, text = w.toList ++ ' ' :: rest) ∨ text = '*' :: rest := by
  obtain ⟨m, hm, h⟩ := List.exists_of_findSome?_eq_some h
  split at h
  · next hp =>
    obtain ⟨tail, rfl⟩ := List.isPrefixOf_iff_prefix.mp hp
    rw [List.drop_left] at h
    cases h
    simp only [methodModifiers, List.mem_cons, List.not_mem_nil, or_false] at hm
    rcases hm with rfl | rfl | rfl | rfl
    · exact .inl ⟨"async", by decide, rfl⟩
    · exact .inl ⟨"get", by decide, rfl⟩
    · exact .inl ⟨"set", by decide, rfl⟩
    · exact .inr rfl
  · cases h

/-- A name is not taken for a modifier unless a space is behind it. -/
theorem dropModifier?_name {name after : List Char} (hn : ∀ c ∈ name, isAsciiNamePart c)
    (hne : name ≠ []) (ha : ∀ c ∈ after.head?, isAsciiNamePart c = false)
    (hm : String.ofList name ∈ soughtWords → after.head? ≠ some ' ') :
    dropModifier? (name ++ after) = none := by
  by_contra hsome
  obtain ⟨rest, hrest⟩ := Option.ne_none_iff_exists'.mp hsome
  have htake := takeWhile_name hn ha
  rcases dropModifier?_eq_some hrest with ⟨w, hw, heq⟩ | heq
  · rw [heq, takeWhile_name (sought_name hw).2 (by rintro c ⟨⟩; rfl)] at htake
    subst htake
    rw [List.append_cancel_left_eq] at heq
    apply hm
    · simpa using hw
    · rw [heq]
      rfl
  · rw [heq] at htake
    exact hne htake.symm

theorem dropModifiers_of_some {text rest : List Char} (h : dropModifier? text = some rest) :
    dropModifiers text = dropModifiers (trimStart rest) := by
  rw [dropModifiers]
  split
  · next heq =>
    rw [h] at heq
    cases heq
    rfl
  · next heq =>
    rw [h] at heq
    cases heq

theorem dropModifiers_of_none {text : List Char} (h : dropModifier? text = none) :
    dropModifiers text = text := by
  rw [dropModifiers]
  split
  · next heq =>
    rw [h] at heq
    cases heq
  · rfl

/-- A modifier that is found: with its space, and with nothing but white space up to the next
token. -/
def isSpaced (modifier : String × String) : Bool :=
  modifier.2.toList.all isWhiteSpace && (modifier.1 = "*" ||
    (soughtWords.contains modifier.1 && modifier.2.toList.head? = some ' '))

/-- The text of some modifiers. -/
def modifiersText (modifiers : List (String × String)) : List Char :=
  modifiers.flatMap fun m => m.1.toList ++ m.2.toList

/-- Modifiers with nothing but white space behind them are skipped. -/
theorem dropModifiers_modifiersText {modifiers : List (String × String)}
    (hm : ∀ m ∈ modifiers, isSpaced m) {next : List Char}
    (hhead : ∀ c ∈ next.head?, isWhiteSpace c = false) (hnext : dropModifier? next = none) :
    dropModifiers (trimStart (modifiersText modifiers ++ next)) = next := by
  induction modifiers with
  | nil =>
    rw [modifiersText, List.flatMap_nil, List.nil_append, trimStart_of_head hhead]
    exact dropModifiers_of_none hnext
  | cons m rest ih =>
    obtain ⟨w, gap⟩ := m
    rw [List.forall_mem_cons] at hm
    obtain ⟨hspaced, hrest⟩ := hm
    have hsplit : modifiersText ((w, gap) :: rest) ++ next =
        w.toList ++ (gap.toList ++ (modifiersText rest ++ next)) := by
      simp [modifiersText]
    simp only [isSpaced, Bool.and_eq_true, Bool.or_eq_true, decide_eq_true_eq,
      List.all_eq_true] at hspaced
    -- a star may stand close to what follows, a word may not
    obtain ⟨hblank, rfl | ⟨hw, hspace⟩⟩ := hspaced
    · have hstar : "*".toList = ['*'] := rfl
      rw [hsplit, hstar, List.cons_append, List.nil_append,
        trimStart_of_head (by rintro _ ⟨⟩; rfl), dropModifiers_of_some (dropModifier?_star _),
        trimStart_append hblank, ih hrest]
    · obtain ⟨blank, hgap⟩ := List.head?_eq_some_iff.mp hspace
      rw [List.contains_iff_mem] at hw
      obtain ⟨hne, hname⟩ := sought_name hw
      rw [hgap, List.forall_mem_cons] at hblank
      rw [hsplit, trimStart_of_head (head_name hname hne _), hgap, List.cons_append,
        dropModifiers_of_some (dropModifier?_word hw _), trimStart_append hblank.2, ih hrest]

/-- The name that a text starts with. -/
def nameAt? : List Char → Option (List Char)
  | [] => none
  | c :: rest =>
    if c = '\'' || c = '"' then
      if rest.contains c then some (rest.takeWhile (· != c)) else none
    else
      let name := (c :: rest).takeWhile isAsciiNamePart
      if name.isEmpty then none else some name

theorem methodName?_eq (text : List Char) :
    methodName? text = nameAt? (dropModifiers (trimStart text)) :=
  rfl

theorem nameAt?_name {name after : List Char} (hn : ∀ c ∈ name, isAsciiNamePart c)
    (hne : name ≠ []) (ha : ∀ c ∈ after.head?, isAsciiNamePart c = false) :
    nameAt? (name ++ after) = some name := by
  have htake := takeWhile_name hn ha
  cases name with
  | nil => exact absurd rfl hne
  | cons c cs =>
    have hquote : ¬ (c = '\'' || c = '"') := by
      have hc := hn c List.mem_cons_self
      simp only [Bool.or_eq_true, decide_eq_true_eq]
      rintro (rfl | rfl) <;> cases hc
    rw [List.cons_append] at htake ⊢
    simp only [nameAt?, if_neg hquote, htake, List.isEmpty_cons, Bool.false_eq_true, if_false]

theorem nameAt?_string {q : Char} (hq : q = '\'' ∨ q = '"') {body : List Char} (hb : q ∉ body)
    (after : List Char) : nameAt? (q :: (body ++ q :: after)) = some body := by
  have hquote : (q = '\'' || q = '"') = true := by simpa using hq
  have htake : (body ++ q :: after).takeWhile (· != q) = body := by
    have hne : ∀ c ∈ body, (c != q) = true := by
      intro c hc
      simpa using ne_of_mem_of_not_mem hc hb
    rw [List.takeWhile_append_of_pos hne]
    simp
  simp [nameAt?, hquote, htake]

/-- A text that starts with this name, as a method is read behind its modifiers. -/
structure StartsWith (text : List Char) (name? : Option String) : Prop where
  head : ∀ c ∈ text.head?, isWhiteSpace c = false
  unmodified : dropModifier? text = none
  name : (nameAt? text).map String.ofList = name?

theorem startsWith_name {name after : List Char} (hn : ∀ c ∈ name, isAsciiNamePart c)
    (hne : name ≠ []) (ha : ∀ c ∈ after.head?, isAsciiNamePart c = false)
    (hm : String.ofList name ∈ soughtWords → after.head? ≠ some ' ') :
    StartsWith (name ++ after) (some (String.ofList name)) := by
  refine ⟨head_name hn hne after, dropModifier?_name hn hne ha hm, ?_⟩
  rw [nameAt?_name hn hne ha, Option.map_some]

/-- A mark that starts no name and no modifier. -/
theorem dropModifier?_mark {ch : Char} (hch : isAsciiNamePart ch = false) (hstar : ch ≠ '*')
    (cs : List Char) : dropModifier? (ch :: cs) = none := by
  by_contra hsome
  obtain ⟨rest, hrest⟩ := Option.ne_none_iff_exists'.mp hsome
  rcases dropModifier?_eq_some hrest with ⟨w, hw, heq⟩ | heq
  · obtain ⟨hne, hname⟩ := sought_name hw
    obtain ⟨first, tail, htext⟩ := List.exists_cons_of_ne_nil hne
    rw [htext, List.cons_append] at heq
    cases heq
    rw [hname ch (by simp [htext])] at hch
    cases hch
  · cases heq
    exact hstar rfl

theorem startsWith_string {q : Char} (hq : q = '\'' ∨ q = '"') {body : List Char} (hb : q ∉ body)
    (after : List Char) : StartsWith (q :: (body ++ q :: after)) (some (String.ofList body)) := by
  refine ⟨?_, ?_, ?_⟩
  · rintro _ ⟨⟩
    rcases hq with rfl | rfl <;> decide
  · rcases hq with rfl | rfl <;> exact dropModifier?_mark (by decide) (by decide) _
  · rw [nameAt?_string hq hb, Option.map_some]

theorem startsWith_mark {ch : Char} (hch : ch = '[' ∨ ch = '#') (cs : List Char) :
    StartsWith (ch :: cs) none := by
  refine ⟨?_, ?_, ?_⟩
  · rintro _ ⟨⟩
    rcases hch with rfl | rfl <;> decide
  · rcases hch with rfl | rfl <;> exact dropModifier?_mark (by decide) (by decide) _
  · rcases hch with rfl | rfl <;> rfl

end IrregularShape

end SiteConfig
