import Mathlib.Data.List.TakeWhile
import Mathlib.Data.Option.Basic
import SiteConfig.Script.Lexeme

/-!
Lexemes that stand whole in front of other text: names, comments and the blanks between them.
-/

namespace SiteConfig.Script.Lexeme
open Text

theorem isPrefixOf_of_head {s cs : List Char} {d : Char} (hs : s.head? = some d)
    (h : cs.head? ≠ some d) : s.isPrefixOf cs = false := by
  cases hp : s.isPrefixOf cs with
  | false => rfl
  | true =>
    obtain ⟨t, rfl⟩ := List.isPrefixOf_iff_prefix.mp hp
    rw [List.head?_append, hs] at h
    exact absurd rfl h

theorem run_append {p : Char → Bool} {text rest : List Char} (h : ∀ c ∈ text, p c)
    (hrest : ∀ c ∈ rest.head?, p c = false) : run p (text ++ rest) = text.length := by
  induction text with
  | nil =>
    cases rest with
    | nil => rfl
    | cons c rest => simp [run, hrest c rfl]
  | cons c text ih =>
    have hc := h c List.mem_cons_self
    have htext := ih fun d hd => h d (List.mem_cons_of_mem c hd)
    simp only [run, List.cons_append, List.takeWhile_cons, hc, if_true, List.length_cons] at htext ⊢
    rw [htext]

/-- A run that stops inside a text does not depend on what follows the text. -/
theorem run_append_of_lt {p : Char → Bool} {text : List Char} (h : run p text < text.length)
    (rest : List Char) : run p (text ++ rest) = run p text := by
  have hne : (text.takeWhile p).length ≠ text.length := Nat.ne_of_lt h
  rw [run, List.takeWhile_append, if_neg hne, run]

/-- A token starts here that is no comment. -/
def Solid (cs : List Char) : Prop :=
  ∃ c rest, cs = c :: rest ∧ isBlank c = false ∧ c ≠ '/' ∧ c ≠ '<' ∧ c ≠ '-'

theorem Solid.comment {cs : List Char} (h : Solid cs) : comment cs = none := by
  obtain ⟨c, rest, rfl, -, hc, -⟩ := h
  unfold Lexeme.comment
  split
  · rename_i heq
    exact absurd (List.cons.inj heq).1 hc
  · rename_i heq
    exact absurd (List.cons.inj heq).1 hc
  · rfl

theorem Solid.pageComment {cs : List Char} (h : Solid cs) : pageComment cs = none := by
  obtain ⟨c, rest, rfl, -, -, hlt, hminus⟩ := h
  unfold Lexeme.pageComment
  split
  · rename_i heq
    exact absurd (List.cons.inj heq).1 hlt
  · rename_i heq
    exact absurd (List.cons.inj heq).1 hminus
  · rfl

theorem Solid.head_blank {cs : List Char} (h : Solid cs) : ∀ c ∈ cs.head?, isBlank c = false := by
  obtain ⟨c, rest, rfl, hb, -⟩ := h
  intro d hd
  cases hd
  exact hb

/-- Blanks in front of other text. -/
theorem run_blank {blank rest : List Char} (hb : ∀ c ∈ blank, isBlank c) (h : Solid rest) :
    run isBlank (blank ++ rest) = blank.length :=
  run_append hb h.head_blank

theorem Solid.run_eq_zero {cs : List Char} (h : Solid cs) : run isBlank cs = 0 := by
  have hnil : ∀ c ∈ ([] : List Char), isBlank c := by simp
  exact run_append hnil h.head_blank

theorem gap_blank {blank rest : List Char} (hb : ∀ c ∈ blank, isBlank c) (h : Solid rest) :
    gap (blank ++ rest) = blank.length := by
  induction blank with
  | nil =>
    have hcomment := h.comment
    obtain ⟨c, rest, rfl, hc, -⟩ := h
    simp [gap, gapTail, hc, hcomment]
  | cons c blank ih =>
    have hc := hb c List.mem_cons_self
    have hrest := ih fun d hd => hb d (List.mem_cons_of_mem c hd)
    rw [gap] at hrest ⊢
    rw [List.cons_append, gapTail, if_pos hc, hrest, List.length_cons, Nat.add_comm]

/-! A whole comment. -/

theorem blockCommentTail_append {text : List Char} {n : Nat} (h : blockCommentTail text = some n)
    (rest : List Char) : blockCommentTail (text ++ rest) = some n := by
  fun_induction blockCommentTail text generalizing n with
  | case1 => simp at h
  | case2 tail => simpa [blockCommentTail] using h
  | case3 c tail hne ih =>
    obtain ⟨m, hm, rfl⟩ := Option.map_eq_some_iff.mp h
    rw [List.cons_append, blockCommentTail]
    · rw [ih hm, Option.map_some]
    · intro tail' hc heq
      cases tail with
      | nil => simp [blockCommentTail] at hm
      | cons d tail => exact hne tail hc (by simpa using (List.cons.inj heq).1)

/-- A comment that is a whole text, in front of a line feed. -/
theorem comment_append {text : List Char} (h : comment text = some text.length)
    (rest : List Char) : comment (text ++ '\n' :: rest) = some text.length := by
  unfold comment at h
  split at h
  · rename_i tail
    have hall : run (!isCommentEnd ·) tail = tail.length := by
      simp only [Option.some.injEq, List.length_cons] at h
      omega
    have hmem : ∀ c ∈ tail, !isCommentEnd c :=
      List.takeWhile_eq_self_iff.mp ((List.takeWhile_prefix _).eq_of_length hall)
    rw [List.cons_append, List.cons_append, comment, run_append hmem]
    · simp only [List.length_cons]
      congr 1
      omega
    · intro c hc
      cases hc
      rfl
  · rename_i tail
    obtain ⟨n, hn, heq⟩ := Option.map_eq_some_iff.mp h
    rw [List.cons_append, List.cons_append, comment, blockCommentTail_append hn, Option.map_some,
      heq]
  · cases h

theorem head_of_comment {text : List Char} {n : Nat} (h : comment text = some n) :
    text.head? = some '/' := by
  unfold comment at h
  split at h
  · rfl
  · rfl
  · cases h

/-! Names. -/

theorem run_le (p : Char → Bool) (text : List Char) : run p text ≤ text.length :=
  (List.takeWhile_prefix p).length_le

theorem gapTail_skip (skipped rest : List Char) :
    gapTail skipped.length (skipped ++ rest) = skipped.length + gap rest := by
  induction skipped with
  | nil => simp [gap]
  | cons c skipped ih =>
    rw [List.length_cons, List.cons_append, gapTail, ih]
    omega

/-- Behind a blank the same text is left by a gap. -/
theorem drop_gap_blank {c : Char} (hc : isBlank c) (rest : List Char) :
    (c :: rest).drop (gap (c :: rest)) = rest.drop (gap rest) := by
  rw [gap, gapTail, if_pos hc, Nat.add_comm, List.drop_succ_cons]
  rfl

theorem drop_gap_comment {text rest : List Char} (h : comment text = some text.length) :
    (text ++ '\n' :: rest).drop (gap (text ++ '\n' :: rest)) =
      ('\n' :: rest).drop (gap ('\n' :: rest)) := by
  have hhead := head_of_comment h
  have happend := comment_append h rest
  cases text with
  | nil => cases hhead
  | cons c tail =>
    obtain rfl : c = '/' := by simpa using hhead
    have hlength : gap ('/' :: tail ++ '\n' :: rest) =
        ('/' :: tail).length + gap ('\n' :: rest) := by
      rw [List.cons_append] at happend
      rw [gap, List.cons_append, gapTail, if_neg (by decide), happend]
      simp only [List.length_cons, Nat.add_sub_cancel, gapTail_skip]
      omega
    rw [hlength, ← List.drop_drop, List.drop_left]

theorem gap_solid {cs : List Char} (h : Solid cs) : gap cs = 0 := by
  have hblank : gap ([] ++ cs) = 0 := gap_blank (by simp) h
  exact hblank

theorem nameEscape_append {text : List Char} {n : Nat} (h : nameEscape text = some n)
    (rest : List Char) : n ≤ text.length ∧ nameEscape (text ++ rest) = some n := by
  unfold nameEscape at h
  split at h
  · rename_i digits
    simp only at h
    split at h
    · rename_i hc
      simp only [ne_eq, Bool.and_eq_true, decide_eq_true_eq] at hc
      have hlt : run isHexDigit digits < digits.length := (List.getElem?_eq_some_iff.mp hc.2).1
      cases h
      refine ⟨by simpa using Nat.succ_le_of_lt hlt, ?_⟩
      rw [List.cons_append, List.cons_append, List.cons_append, nameEscape]
      simp only [run_append_of_lt hlt, List.getElem?_append_left hlt, hc]
      simp [hc.1]
    · cases h
  · rename_i digits hbrace
    split at h
    · rename_i hrun
      cases h
      have hlen := run_le isHexDigit (digits.take 4)
      rw [List.length_take] at hlen
      have htake : (digits ++ rest).take 4 = digits.take 4 :=
        List.take_append_of_le_length (by omega)
      refine ⟨by simp only [List.length_cons]; omega, ?_⟩
      rw [List.cons_append, List.cons_append, nameEscape, htake, if_pos hrun]
      intro tail heq
      cases digits with
      | nil => simp [run] at hrun
      | cons d digits => exact hbrace digits (by rw [(List.cons.inj heq).1])
    · cases h
  · cases h

theorem isNamePart_of_isPunctuation {c : Char} (h : isPunctuation c = true) :
    isNamePart c = false := by
  simp [isNamePart, h]

theorem isNamePart_of_isBlank {c : Char} (h : isBlank c = true) : isNamePart c = false := by
  simp [isNamePart, h]

/-- No name starts with a mark. -/
theorem name_of_isPunctuation {c : Char} (h : isPunctuation c = true) (hc : c ≠ '\\')
    (rest : List Char) : name (c :: rest) = none := by
  have hstart : isNameStart c = false := by
    rw [isNameStart, isNamePart_of_isPunctuation h, Bool.false_and]
  rw [name, hstart, if_neg (by decide)]
  unfold nameEscape
  split
  · rename_i heq
    exact absurd (List.cons.inj heq).1 hc
  · rename_i heq
    exact absurd (List.cons.inj heq).1 hc
  · rfl

/-- No more of a name can follow. -/
def EndsName (cs : List Char) : Prop :=
  ∀ c ∈ cs.head?, isNamePart c = false ∧ c ≠ '\\'

theorem nameTail_of_endsName {rest : List Char} (h : EndsName rest) : nameTail 0 rest = 0 := by
  cases rest with
  | nil => rfl
  | cons c rest =>
    obtain ⟨hp, hb⟩ := h c rfl
    have hesc : nameEscape (c :: rest) = none := by
      unfold nameEscape
      split
      · rename_i heq
        exact absurd (List.cons.inj heq).1 hb
      · rename_i heq
        exact absurd (List.cons.inj heq).1 hb
      · rfl
    rw [nameTail, hp, hesc]
    rfl

theorem nameTail_append {text rest : List Char} (hrest : EndsName rest) {taken : Nat}
    (hle : taken ≤ text.length) (h : nameTail taken text = text.length) :
    nameTail taken (text ++ rest) = text.length := by
  induction text generalizing taken with
  | nil =>
    obtain rfl : taken = 0 := by simpa using hle
    exact nameTail_of_endsName hrest
  | cons c text ih =>
    rw [List.cons_append]
    cases taken with
    | succ taken =>
      rw [nameTail, List.length_cons] at h ⊢
      rw [ih (by simpa using hle) (by omega)]
      omega
    | zero =>
      rw [nameTail, List.length_cons] at h ⊢
      by_cases hp : isNamePart c
      · rw [if_pos hp] at h ⊢
        rw [ih (Nat.zero_le _) (by omega)]
        omega
      · rw [if_neg hp] at h ⊢
        cases he : nameEscape (c :: text) with
        | none => simp [he] at h
        | some n =>
          -- an escape that is read in `text` ends there, so it stays the same one
          obtain ⟨hn, happend⟩ := nameEscape_append he rest
          rw [he] at h
          rw [← List.cons_append, happend]
          simp only [List.length_cons] at h hn ⊢
          rw [ih (by omega) (by omega)]
          omega

/-- The text is one whole name. -/
def IsName (s : String) : Prop :=
  name s.toList = some s.toList.length

theorem name_append {s : String} (h : IsName s) {rest : List Char} (hrest : EndsName rest) :
    name (s.toList ++ rest) = some s.toList.length := by
  unfold IsName at h
  generalize s.toList = text at h
  cases text with
  | nil => simp [name] at h
  | cons c text =>
    rw [List.cons_append]
    rw [name] at h ⊢
    by_cases hs : isNameStart c
    · rw [if_pos hs, Option.some.injEq, List.length_cons] at h
      rw [if_pos hs, nameTail_append hrest (Nat.zero_le _) (by omega), List.length_cons,
        Nat.add_comm]
    · rw [if_neg hs] at h ⊢
      obtain ⟨n, hn, heq⟩ := Option.map_eq_some_iff.mp h
      obtain ⟨hle, happend⟩ := nameEscape_append hn rest
      have hdrop : (c :: (text ++ rest)).drop n = (c :: text).drop n ++ rest :=
        List.drop_append_of_le_length hle
      have htail : nameTail 0 ((c :: text).drop n) = ((c :: text).drop n).length := by
        rw [List.length_drop]
        omega
      rw [← List.cons_append, happend, Option.map_some, List.cons_append, hdrop,
        nameTail_append hrest (Nat.zero_le _) htail, List.length_drop]
      congr 1
      omega

/-- A name starts with a letter or such, or with an escape. -/
theorem head_of_name {s : String} (h : IsName s) :
    ∃ c rest, s.toList = c :: rest ∧ (isNameStart c ∨ c = '\\') := by
  unfold IsName at h
  generalize s.toList = text at h
  cases text with
  | nil => simp [name] at h
  | cons c text =>
    refine ⟨c, text, rfl, ?_⟩
    by_cases hs : isNameStart c
    · exact .inl hs
    · rw [name, if_neg hs] at h
      obtain ⟨n, hn, -⟩ := Option.map_eq_some_iff.mp h
      unfold nameEscape at hn
      split at hn
      · rename_i heq
        exact .inr (List.cons.inj heq).1
      · rename_i heq
        exact .inr (List.cons.inj heq).1
      · cases hn

/-- The first character of a name is no mark. -/
theorem ne_of_startsName {c d : Char} (h : isNameStart c ∨ c = '\\') (hd : isPunctuation d = true)
    (hne : d ≠ '\\') : c ≠ d := by
  rintro rfl
  rcases h with h | h
  · have := isNamePart_of_isNameStart h
    rw [isNamePart_of_isPunctuation hd] at this
    cases this
  · exact hne h

theorem solid_of_name {s : String} (h : IsName s) (rest : List Char) :
    Solid (s.toList ++ rest) ∧ ∀ d, isPunctuation d = true → d ≠ '\\' →
      (s.toList ++ rest).head? ≠ some d := by
  obtain ⟨c, tail, heq, hc⟩ := head_of_name h
  have hne := fun d => ne_of_startsName (d := d) hc
  have hblank : isBlank c = false := by
    rcases hc with hc | rfl
    · have := isNamePart_of_isNameStart hc
      simp only [isNamePart, Bool.and_eq_true, Bool.not_eq_true'] at this
      exact this.1.2
    · rfl
  have hmarks : isPunctuation '/' ∧ isPunctuation '<' ∧ isPunctuation '-' := by
    simp [isPunctuation]
  rw [heq]
  refine ⟨⟨c, tail ++ rest, rfl, hblank, hne _ hmarks.1 (by decide), hne _ hmarks.2.1 (by decide),
    hne _ hmarks.2.2 (by decide)⟩, fun d hd hd' heq' => ?_⟩
  exact hne d hd hd' (by simpa using heq')

/-- No number starts with another character than a digit or a point. -/
theorem number_none {ch : Char} (h : isDigit ch = false) (hdot : ch ≠ '.') (cs : List Char) :
    number (ch :: cs) = none := by
  have hzero : ch ≠ '0' := by
    rintro rfl
    cases h
  have hdigits : digits isDigit (ch :: cs) = 0 := by
    unfold digits
    split
    · rfl
    · unfold digits.go
      split
      · rename_i heq
        cases heq
        simp_all
      · rename_i heq
        cases heq
        rw [h]
        rfl
      · rfl
  have hdecimal : decimal (ch :: cs) = none := by
    unfold decimal
    split
    · rename_i heq
      exact absurd (List.cons.inj heq).1 hdot
    · rw [hdigits]
      rfl
  unfold number
  split
  · rename_i heq
    exact absurd (List.cons.inj heq).1 hzero
  · exact hdecimal

/-! What was read as a lexeme is one without what follows it. -/

theorem run_take (p : Char → Bool) (cs : List Char) {m : Nat} (h : run p cs ≤ m) :
    run p (cs.take m) = run p cs := by
  rw [run, ← List.take_takeWhile, List.length_take]
  exact Nat.min_eq_right h

theorem exists_cons_of_take {ch : Char} {cs tail : List Char} {m : Nat}
    (h : cs.take m = ch :: tail) : ∃ rest, cs = ch :: rest := by
  cases cs with
  | nil => simp at h
  | cons d rest =>
    cases m with
    | zero => cases h
    | succ m => exact ⟨rest, by rw [(List.cons.inj h).1]⟩

theorem blockCommentTail_take {cs : List Char} {n : Nat} (h : blockCommentTail cs = some n) :
    blockCommentTail (cs.take n) = some n ∧ n ≤ cs.length := by
  fun_induction blockCommentTail cs generalizing n with
  | case1 => cases h
  | case2 =>
    cases h
    exact ⟨rfl, by simp⟩
  | case3 ch rest hne ih =>
    obtain ⟨m, hm, rfl⟩ := Option.map_eq_some_iff.mp h
    obtain ⟨ih, hle⟩ := ih hm
    rw [List.take_succ_cons, blockCommentTail, ih]
    · exact ⟨rfl, Nat.succ_le_succ hle⟩
    · intro tail hch heq
      obtain ⟨rest', rfl⟩ := exists_cons_of_take heq
      exact hne rest' hch rfl

theorem comment_take {cs : List Char} {n : Nat} (h : comment cs = some n) :
    comment (cs.take n) = some (cs.take n).length := by
  unfold comment at h
  split at h
  · rename_i rest
    cases h
    have hle := run_le (!isCommentEnd ·) rest
    rw [Nat.add_comm, List.take_succ_cons, List.take_succ_cons, comment,
      run_take _ _ (Nat.le_refl _)]
    simp only [List.length_cons, List.length_take, Nat.min_eq_left hle]
    rw [Nat.add_comm]
  · rename_i rest
    obtain ⟨m, hm, rfl⟩ := Option.map_eq_some_iff.mp h
    obtain ⟨htake, hle⟩ := blockCommentTail_take hm
    rw [Nat.add_comm, List.take_succ_cons, List.take_succ_cons, comment, htake]
    simp only [List.length_cons, List.length_take, Nat.min_eq_left hle, Option.map_some]
    rw [Nat.add_comm]
  · cases h

theorem nameEscape_take {cs : List Char} {n : Nat} (h : nameEscape cs = some n) {m : Nat}
    (hm : n ≤ m) : nameEscape (cs.take m) = some n := by
  unfold nameEscape at h
  split at h
  · rename_i rest
    simp only at h
    split at h
    · rename_i hbrace
      cases h
      obtain ⟨m, rfl⟩ : ∃ k, m = k + 3 := ⟨m - 3, by omega⟩
      have hrun := run_take isHexDigit rest (m := m) (by omega)
      rw [List.take_succ_cons, List.take_succ_cons, List.take_succ_cons, nameEscape, hrun,
        List.getElem?_take_of_lt (by omega)]
      simp only [hbrace, if_true]
    · cases h
  · rename_i rest hbrace
    split at h
    · rename_i hrun
      cases h
      obtain ⟨m, rfl⟩ : ∃ k, m = k + 2 := ⟨m - 2, by omega⟩
      rw [List.take_succ_cons, List.take_succ_cons, nameEscape, List.take_take,
        Nat.min_eq_left (by omega), if_pos hrun]
      intro tail heq
      obtain ⟨rest', rfl⟩ := exists_cons_of_take heq
      exact hbrace rest' rfl
    · cases h
  · cases h

theorem nameEscape_pos {cs : List Char} {n : Nat} (h : nameEscape cs = some n) : 0 < n := by
  unfold nameEscape at h
  grind

theorem nameTail_take {taken : Nat} {cs : List Char} (hle : taken ≤ cs.length) :
    nameTail taken (cs.take (nameTail taken cs)) = nameTail taken cs ∧ taken ≤ nameTail taken cs ∧
      nameTail taken cs ≤ cs.length := by
  induction cs generalizing taken with
  | nil =>
    obtain rfl : taken = 0 := by simpa using hle
    simp [nameTail]
  | cons ch rest ih =>
    cases taken with
    | succ taken =>
      obtain ⟨ih, hge, hle⟩ := @ih taken (by simpa using hle)
      rw [nameTail, Nat.add_comm 1, List.take_succ_cons, nameTail, ih, List.length_cons]
      exact ⟨Nat.add_comm _ _, by omega, by omega⟩
    | zero =>
      rw [nameTail]
      split
      · rename_i hp
        obtain ⟨ih, hge, hle⟩ := @ih 0 (Nat.zero_le _)
        rw [Nat.add_comm, List.take_succ_cons, nameTail, if_pos hp, ih, List.length_cons]
        exact ⟨Nat.add_comm _ _, by omega, by omega⟩
      · rename_i hp
        split
        · rename_i n hn
          have hpos := nameEscape_pos hn
          have hlen := (nameEscape_append hn []).1
          rw [List.length_cons] at hlen
          obtain ⟨ih, hge, hle⟩ := @ih (n - 1) (by omega)
          have hescape := nameEscape_take hn (m := nameTail (n - 1) rest + 1) (by omega)
          rw [List.take_succ_cons] at hescape
          rw [Nat.add_comm, List.take_succ_cons, nameTail, if_neg hp, hescape]
          simp only [ih, List.length_cons]
          exact ⟨Nat.add_comm _ _, by omega, by omega⟩
        · simp [nameTail]

theorem name_take {cs : List Char} {n : Nat} (h : name cs = some n) :
    name (cs.take n) = some (cs.take n).length := by
  unfold name at h
  split at h
  · cases h
  · rename_i ch rest
    split at h
    · rename_i hs
      cases h
      obtain ⟨htake, -, hle⟩ := @nameTail_take 0 rest (Nat.zero_le _)
      rw [Nat.add_comm, List.take_succ_cons, name, if_pos hs, htake]
      simp only [List.length_cons, List.length_take, Nat.min_eq_left hle]
      rw [Nat.add_comm]
    · rename_i hs
      obtain ⟨m, hm, rfl⟩ := Option.map_eq_some_iff.mp h
      have hlen := (nameEscape_append hm []).1
      have hpos := nameEscape_pos hm
      obtain ⟨htake, -, hle⟩ := @nameTail_take 0 ((ch :: rest).drop m) (Nat.zero_le _)
      have hescape := nameEscape_take hm (Nat.le_add_right m (nameTail 0 ((ch :: rest).drop m)))
      rw [List.length_drop] at hle
      -- the equation of `name` for a first character that only an escape can explain
      have hname : ∀ cs : List Char, cs.head? = some ch → nameEscape cs = some m →
          name cs = some (m + nameTail 0 (cs.drop m)) := by
        intro cs hcs he
        cases cs with
        | nil => cases hcs
        | cons d cs =>
          cases hcs
          rw [name, if_neg hs, he, Option.map_some]
      rw [hname _ (by rw [List.head?_take]; simp; omega) hescape, List.drop_take,
        Nat.add_sub_cancel_left, htake, List.length_take]
      congr 1
      omega

end SiteConfig.Script.Lexeme
