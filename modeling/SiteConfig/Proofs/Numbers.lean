import SiteConfig.Proofs.Lexing

/-!
A number that was read is read again in front of a mark that cannot belong to it.
-/

namespace SiteConfig.Script.Lexeme
open Text

section Marks

variable {p : Char → Bool} {s : Char}

/-- No digits stand in front of a character that is none. -/
theorem digitsGo_mark (hs : p s = false) (hline : s ≠ '_') (rest : List Char) :
    digits.go p (s :: rest) = 0 := by
  rw [digits.go.eq_def]
  split
  · rename_i heq
    exact absurd (List.cons.inj heq).1 hline
  · rename_i heq
    rw [← (List.cons.inj heq).1, hs, if_neg Bool.false_ne_true]
  · rfl

theorem digitsGo_take (hs : p s = false) (hline : s ≠ '_') (hp : p '_' = false) {cs : List Char}
    {m : Nat} (h : digits.go p cs ≤ m) (rest : List Char) :
    digits.go p (cs.take m ++ s :: rest) = digits.go p cs ∧ digits.go p cs ≤ cs.length := by
  -- a step looks at two characters, and the mark counts as no digit
  fun_induction digits.go p cs generalizing m with
  | case1 c cs hc ih =>
    obtain ⟨m, rfl⟩ : ∃ k, m = k + 2 := ⟨m - 2, by omega⟩
    obtain ⟨ih, hle⟩ := @ih m (by omega)
    simp only [List.take_succ_cons, List.cons_append, digits.go, hc, if_true, ih, List.length_cons]
    exact ⟨trivial, by omega⟩
  | case2 c cs hc =>
    refine ⟨?_, Nat.zero_le _⟩
    rcases m with _ | _ | m
    · exact digitsGo_mark hs hline rest
    · simp [digits.go, hs]
    · simp [digits.go, hc]
  | case3 c cs hne hc ih =>
    obtain ⟨m, rfl⟩ : ∃ k, m = k + 1 := ⟨m - 1, by omega⟩
    obtain ⟨ih, hle⟩ := @ih m (by omega)
    have hunder : c ≠ '_' := by
      rintro rfl
      rw [hp] at hc
      cases hc
    rw [List.take_succ_cons, List.cons_append, digits.go, if_pos hc, ih, List.length_cons]
    · exact ⟨rfl, by omega⟩
    · exact fun _ _ h => absurd h hunder
  | case4 c cs hne hc =>
    refine ⟨?_, Nat.zero_le _⟩
    cases m with
    | zero => exact digitsGo_mark hs hline rest
    | succ m =>
      rw [List.take_succ_cons, List.cons_append]
      by_cases hunder : c = '_'
      · subst hunder
        cases cs with
        | nil => simp [digits.go, hs]
        | cons d cs => exact (hne d cs rfl rfl).elim
      · exact digitsGo_mark (Bool.eq_false_iff.mpr hc) hunder _
  | case5 =>
    rw [List.take_nil]
    exact ⟨digitsGo_mark hs hline rest, Nat.zero_le _⟩

theorem digits_take (hs : p s = false) (hline : s ≠ '_') (hp : p '_' = false) {cs : List Char}
    {m : Nat} (h : digits p cs ≤ m) (rest : List Char) :
    digits p (cs.take m ++ s :: rest) = digits p cs ∧ digits p cs ≤ cs.length := by
  unfold digits at h ⊢
  split at h
  · rename_i cs
    refine ⟨?_, Nat.zero_le _⟩
    cases m with
    | zero =>
      rw [List.take_zero, List.nil_append]
      split
      · rfl
      · exact digitsGo_mark hs hline rest
    | succ m =>
      rw [List.take_succ_cons, List.cons_append]
      rfl
  · rename_i hne
    obtain ⟨htake, hle⟩ := digitsGo_take hs hline hp h rest
    refine ⟨?_, hle⟩
    split
    · rename_i tail heq
      cases cs with
      | nil =>
        rw [List.take_nil] at heq
        exact absurd (List.cons.inj heq).1 hline
      | cons d cs =>
        cases m with
        | zero => exact absurd (List.cons.inj heq).1 hline
        | succ m => exact (hne cs (by rw [(List.cons.inj heq).1])).elim
    · exact htake

/-- A mark that may stand behind a number. -/
def EndsNumber (s : Char) : Prop :=
  s = ':' ∨ s = ',' ∨ s = ')' ∨ s = ']' ∨ s = ';'

/-- Behind the first `k` characters of a text that was cut. -/
theorem drop_take_append {cs : List Char} {k m : Nat} (hk : k ≤ m) (hle : k ≤ cs.length)
    (rest : List Char) : (cs.take m ++ rest).drop k = (cs.drop k).take (m - k) ++ rest := by
  rw [List.drop_append_of_le_length (by rw [List.length_take]; omega), List.drop_take]

/-- Digits behind an `e`, perhaps with a sign between them. -/
theorem exponent_cons (e : Char) (cs : List Char) :
    exponent (e :: cs) =
      if e = 'e' ∨ e = 'E' then
        let sign := if cs.head? = some '+' ∨ cs.head? = some '-' then 1 else 0
        if digits isDigit (cs.drop sign) = 0 then 0
        else 1 + sign + digits isDigit (cs.drop sign)
      else 0 := by
  cases cs with
  | nil => simp [exponent]
  | cons d cs =>
    by_cases hplus : d = '+'
    · simp [exponent, hplus]
    · by_cases hminus : d = '-'
      · simp [exponent, hminus]
      · simp [exponent, hplus, hminus]

theorem head_take_append {behind rest : List Char} {j : Nat} {ch : Char}
    (h : (behind.take j ++ s :: rest).head? = some ch) : ch = s ∨ behind.head? = some ch := by
  cases behind with
  | nil =>
    rw [List.take_nil, List.nil_append, List.head?_cons] at h
    exact .inl (Option.some.inj h).symm
  | cons d behind =>
    cases j with
    | zero => exact .inl (Option.some.inj h).symm
    | succ j => exact .inr h

/-- What a number takes behind its first digits. -/
def behindDigits (k : Nat) (point : Bool) (behind : List Char) : Option Nat :=
  if behind.head? = some 'n' then some (k + 1)
  else if point then
    match behind with
    | '.' :: behind => some (k + 1 + fraction behind)
    | behind => some (k + exponent behind)
  else some k

theorem decimal_eq {cs : List Char} (h : ∀ tail, cs ≠ '.' :: tail) :
    decimal cs = if digits isDigit cs = 0 then none
      else behindDigits (digits isDigit cs) (takesPoint (cs.take (digits isDigit cs)))
        (cs.drop (digits isDigit cs)) := by
  unfold decimal
  split
  · exact absurd rfl (h _)
  · rfl

theorem le_of_behindDigits {k n : Nat} {point : Bool} {behind : List Char}
    (h : behindDigits k point behind = some n) : k ≤ n := by
  unfold behindDigits at h
  split at h
  · cases h
    exact Nat.le_succ k
  · split at h
    · split at h <;> cases h <;> omega
    · cases h
      exact Nat.le_refl k

/-- What a number takes behind a zero and the letter of its radix. -/
def radix (r : Char) : Lexeme := fun cs =>
  if r = 'x' || r = 'X' then radixNumber isHexDigit cs
  else if r = 'b' || r = 'B' then radixNumber (fun c => c = '0' || c = '1') cs
  else if r = 'o' || r = 'O' then radixNumber isOctalDigit cs
  else none

theorem number_zero (r : Char) (cs : List Char) :
    number ('0' :: r :: cs) = (radix r cs).or (decimal ('0' :: r :: cs)) := rfl

theorem number_eq_decimal {cs : List Char} (h : ∀ r tail, cs ≠ '0' :: r :: tail) :
    number cs = decimal cs := by
  unfold number
  split
  · exact absurd rfl (h _ _)
  · rfl

variable (hs : EndsNumber s)
include hs

theorem decimalDigits_take {cs : List Char} {m : Nat} (h : digits isDigit cs ≤ m)
    (rest : List Char) :
    digits isDigit (cs.take m ++ s :: rest) = digits isDigit cs ∧
      digits isDigit cs ≤ cs.length := by
  have hdigit : isDigit s = false ∧ s ≠ '_' := by
    rcases hs with rfl | rfl | rfl | rfl | rfl <;> decide
  exact digits_take hdigit.1 hdigit.2 (by decide) h rest

theorem exponent_take {cs : List Char} {m : Nat} (h : exponent cs ≤ m) (rest : List Char) :
    exponent (cs.take m ++ s :: rest) = exponent cs ∧ exponent cs ≤ cs.length := by
  have hmark : s ≠ 'e' ∧ s ≠ 'E' ∧ s ≠ '+' ∧ s ≠ '-' := by
    rcases hs with rfl | rfl | rfl | rfl | rfl <;> decide
  have hstop : exponent (s :: rest) = 0 := by simp [exponent_cons, hmark]
  cases cs with
  | nil => exact ⟨by rw [List.take_nil, List.nil_append, hstop]; rfl, Nat.zero_le _⟩
  | cons e cs =>
    cases m with
    | zero =>
      rw [Nat.le_zero.mp h]
      exact ⟨hstop, Nat.zero_le _⟩
    | succ m =>
      rw [List.take_succ_cons, List.cons_append]
      rw [exponent_cons] at h ⊢
      rw [exponent_cons]
      split
      · rename_i he
        rw [if_pos he] at h
        dsimp only at h ⊢
        generalize hsign : (if cs.head? = some '+' ∨ cs.head? = some '-' then 1 else 0) = sign at h
        have hsame : sign ≤ m → (if (cs.take m ++ s :: rest).head? = some '+' ∨
            (cs.take m ++ s :: rest).head? = some '-' then 1 else 0) = sign := by
          intro hle
          rw [← hsign]
          cases cs with
          | nil => simp [hmark]
          | cons d cs =>
            cases m with
            | zero => simp_all
            | succ m => simp
        have hlength : sign ≤ cs.length := by
          cases cs with
          | nil => simp [← hsign]
          | cons d cs =>
            rw [← hsign, List.length_cons]
            split <;> omega
        rcases Nat.lt_or_ge m sign with hlt | hle
        · -- the sign is cut off, so no digits were read behind it
          have hzero : digits isDigit (cs.drop sign) = 0 := by
            by_contra hne
            rw [if_neg hne] at h
            omega
          obtain rfl : m = 0 := by
            rw [← hsign] at hlt
            split at hlt <;> omega
          have hdigits : digits isDigit (s :: rest) = 0 :=
            (@decimalDigits_take s hs [] 0 (Nat.zero_le _) rest).1
          rw [if_pos hzero]
          simp [hmark, hdigits]
        · have hn : digits isDigit (cs.drop sign) ≤ m - sign := by
            split at h <;> omega
          obtain ⟨htake, hle'⟩ := decimalDigits_take hs hn rest
          rw [List.length_drop] at hle'
          rw [hsame hle]
          rw [drop_take_append hle hlength, htake, List.length_cons]
          refine ⟨rfl, ?_⟩
          split <;> omega
      · exact ⟨rfl, Nat.zero_le _⟩

theorem fraction_take {cs : List Char} {m : Nat} (h : fraction cs ≤ m) (rest : List Char) :
    fraction (cs.take m ++ s :: rest) = fraction cs ∧ fraction cs ≤ cs.length := by
  unfold fraction at h ⊢
  obtain ⟨hdigits, hle⟩ := decimalDigits_take hs (Nat.le_of_add_right_le h) rest
  obtain ⟨hexponent, hle'⟩ := exponent_take hs (Nat.le_sub_of_add_le' h) rest
  rw [List.length_drop] at hle'
  simp only [hdigits, drop_take_append (Nat.le_of_add_right_le h) hle, hexponent, true_and]
  omega

theorem behindDigits_take {k n : Nat} {point : Bool} {behind : List Char}
    (h : behindDigits k point behind = some n) (rest : List Char) :
    behindDigits k point (behind.take (n - k) ++ s :: rest) = some n ∧
      n ≤ k + behind.length := by
  have hmark : s ≠ 'n' ∧ s ≠ '.' := by
    rcases hs with rfl | rfl | rfl | rfl | rfl <;> decide
  unfold behindDigits at h
  split at h
  · rename_i hhead
    cases h
    obtain ⟨tail, rfl⟩ := List.head?_eq_some_iff.mp hhead
    rw [Nat.add_sub_cancel_left, List.length_cons]
    exact ⟨rfl, by omega⟩
  · rename_i hhead
    have hnot : (behind.take (n - k) ++ s :: rest).head? ≠ some 'n' := fun h =>
      (head_take_append h).elim (hmark.1 ·.symm) hhead
    unfold behindDigits
    rw [if_neg hnot]
    cases point with
    | false =>
      cases h
      exact ⟨rfl, Nat.le_add_right _ _⟩
    | true =>
      rw [if_pos rfl] at h ⊢
      split at h
      · rename_i behind
        cases h
        have hj : k + 1 + fraction behind - k = fraction behind + 1 := by omega
        rw [hj, List.take_succ_cons, List.cons_append]
        obtain ⟨hfraction, hle⟩ := fraction_take hs (Nat.le_refl (fraction behind)) rest
        show some (k + 1 + fraction (behind.take (fraction behind) ++ s :: rest)) = _ ∧ _
        rw [hfraction, List.length_cons]
        exact ⟨rfl, by omega⟩
      · rename_i hpoint
        cases h
        obtain ⟨hexponent, hle⟩ := exponent_take hs (Nat.le_refl (exponent behind)) rest
        refine ⟨?_, by omega⟩
        rw [Nat.add_sub_cancel_left]
        split
        · rename_i tail heq
          have hdot : (behind.take (exponent behind) ++ s :: rest).head? = some '.' := by
            rw [heq]
            rfl
          rcases head_take_append hdot with h | h
          · exact absurd h.symm hmark.2
          · obtain ⟨tail', rfl⟩ := List.head?_eq_some_iff.mp h
            exact (hpoint tail' rfl).elim
        · rw [hexponent]

theorem decimal_take {cs : List Char} {n : Nat} (h : decimal cs = some n) (rest : List Char) :
    decimal (cs.take n ++ s :: rest) = some n ∧ n ≤ cs.length := by
  have hmark : s ≠ '.' := by rcases hs with rfl | rfl | rfl | rfl | rfl <;> decide
  by_cases hpoint : ∃ tail, cs = '.' :: tail
  · obtain ⟨tail, rfl⟩ := hpoint
    rw [decimal] at h
    split at h
    · cases h
    · rename_i hne
      cases h
      obtain ⟨m, hm⟩ : ∃ m, m = digits isDigit tail + exponent (tail.drop (digits isDigit tail)) :=
        ⟨_, rfl⟩
      have hk : digits isDigit tail ≤ m := by omega
      obtain ⟨hdigits, hle⟩ := decimalDigits_take hs hk rest
      have he : exponent (tail.drop (digits isDigit tail)) ≤ m - digits isDigit tail := by omega
      obtain ⟨hexponent, hle'⟩ := exponent_take hs he rest
      rw [List.length_drop] at hle'
      refine ⟨?_, by rw [List.length_cons]; omega⟩
      rw [Nat.add_assoc, ← hm, Nat.add_comm 1 m, List.take_succ_cons, List.cons_append, decimal]
      rw [hdigits, if_neg hne, drop_take_append hk hle, hexponent]
      congr 1
      omega
  · rw [not_exists] at hpoint
    rw [decimal_eq hpoint] at h
    split at h
    · cases h
    · rename_i hne
      have hle := le_of_behindDigits h
      obtain ⟨hdigits, hlength⟩ := decimalDigits_take hs hle rest
      have hpoint' : ∀ tail, cs.take n ++ s :: rest ≠ '.' :: tail := by
        intro tail heq
        have hdot : (cs.take n ++ s :: rest).head? = some '.' := by rw [heq]; rfl
        rcases head_take_append hdot with h | h
        · exact hmark h.symm
        · obtain ⟨tail', htail⟩ := List.head?_eq_some_iff.mp h
          exact hpoint tail' htail
      have htake : (cs.take n ++ s :: rest).take (digits isDigit cs) =
          cs.take (digits isDigit cs) := by
        rw [List.take_append_of_le_length (by rw [List.length_take]; omega), List.take_take,
          Nat.min_eq_left hle]
      obtain ⟨hbehind, hle'⟩ := behindDigits_take hs h rest
      rw [List.length_drop] at hle'
      refine ⟨?_, by omega⟩
      rw [decimal_eq hpoint', hdigits, if_neg hne, drop_take_append hle hlength, htake, hbehind]

section Radix

variable {p : Char → Bool} (hp : p s = false) (hline : p '_' = false)
include hp hline

theorem radixNumber_take {cs : List Char} {n : Nat} (h : radixNumber p cs = some n)
    (rest : List Char) :
    2 ≤ n ∧ n ≤ cs.length + 2 ∧ radixNumber p (cs.take (n - 2) ++ s :: rest) = some n := by
  have hmark : s ≠ 'n' ∧ s ≠ '_' := by
    rcases hs with rfl | rfl | rfl | rfl | rfl <;> decide
  have hhead : ∀ (all : List Char) k, all[k]? = (all.drop k).head? := fun all k => by
    rw [List.head?_drop]
  unfold radixNumber at h
  dsimp only at h
  split at h
  · cases h
  · rename_i hne
    obtain ⟨j, hj⟩ : ∃ j, j = if cs[digits p cs]? = some 'n' then 1 else 0 := ⟨_, rfl⟩
    rw [← hj] at h
    cases h
    have hm : 2 + digits p cs + j - 2 = digits p cs + j := by omega
    have hle : digits p cs ≤ digits p cs + j := Nat.le_add_right _ _
    obtain ⟨hdigits, hlength⟩ := digits_take hp hmark.2 hline hle rest
    refine ⟨by omega, ?_, ?_⟩
    · split at hj
      · rename_i hn
        obtain ⟨hlt, -⟩ := List.getElem?_eq_some_iff.mp hn
        omega
      · omega
    rw [hm, radixNumber, hdigits, if_neg hne, hhead, drop_take_append hle hlength,
      Nat.add_sub_cancel_left]
    rw [hhead] at hj
    split at hj
    · rename_i hn
      obtain ⟨tail, htail⟩ := List.head?_eq_some_iff.mp hn
      rw [hj, htail]
      rfl
    · rw [hj, List.take_zero, List.nil_append, if_neg (by simpa using hmark.1)]

theorem radixNumber_none {cs : List Char} (h : radixNumber p cs = none) (m : Nat)
    (rest : List Char) : radixNumber p (cs.take m ++ s :: rest) = none := by
  have hmark : s ≠ '_' := by rcases hs with rfl | rfl | rfl | rfl | rfl <;> decide
  unfold radixNumber at h
  dsimp only at h
  split at h
  · rename_i hzero
    rw [radixNumber, (digits_take hp hmark hline (hzero ▸ Nat.zero_le m) rest).1, if_pos hzero]
  · cases h

end Radix

theorem radix_mark (cs : List Char) : radix s cs = none := by
  rcases hs with rfl | rfl | rfl | rfl | rfl <;> rfl

theorem radix_cases (r : Char) : (∀ cs, radix r cs = none) ∨
    ∃ p : Char → Bool, p s = false ∧ p '_' = false ∧ ∀ cs, radix r cs = radixNumber p cs := by
  have hmark : isHexDigit s = false ∧ isOctalDigit s = false ∧ s ≠ '0' ∧ s ≠ '1' := by
    rcases hs with rfl | rfl | rfl | rfl | rfl <;> decide
  unfold radix
  split
  · exact .inr ⟨_, hmark.1, by decide, fun _ => rfl⟩
  · split
    · exact .inr ⟨_, by simp [hmark], by decide, fun _ => rfl⟩
    · split
      · exact .inr ⟨_, hmark.2.1, by decide, fun _ => rfl⟩
      · exact .inl fun _ => rfl

/-- A number is read again in front of such a mark. -/
theorem number_take {cs : List Char} {n : Nat} (h : number cs = some n) (rest : List Char) :
    number (cs.take n ++ s :: rest) = some n ∧ n ≤ cs.length := by
  by_cases hzero : ∃ r tail, cs = '0' :: r :: tail
  · obtain ⟨r, tail, rfl⟩ := hzero
    rw [number_zero] at h
    rcases Option.or_eq_some_iff.mp h with hradix | ⟨hradix, hdecimal⟩
    · rcases radix_cases hs r with hnone | ⟨p, hp, hline, heq⟩
      · rw [hnone] at hradix
        cases hradix
      rw [heq] at hradix
      obtain ⟨hle, hlength, htake⟩ := radixNumber_take hs hp hline hradix rest
      obtain ⟨n, rfl⟩ : ∃ k, n = k + 2 := ⟨n - 2, by omega⟩
      rw [Nat.add_sub_cancel] at htake
      refine ⟨?_, hlength⟩
      rw [List.take_succ_cons, List.take_succ_cons, List.cons_append, List.cons_append,
        number_zero, heq, htake, Option.some_or]
    · obtain ⟨htake, hlength⟩ := decimal_take hs hdecimal rest
      refine ⟨?_, hlength⟩
      rcases n with _ | _ | n
      · rwa [number_eq_decimal (by rcases hs with rfl | rfl | rfl | rfl | rfl <;> simp)]
      · rw [List.take_succ_cons, List.take_zero, List.cons_append, List.nil_append] at htake ⊢
        rw [number_zero, radix_mark hs, Option.none_or, htake]
      · rw [List.take_succ_cons, List.take_succ_cons, List.cons_append, List.cons_append]
          at htake ⊢
        have hnone : radix r (tail.take n ++ s :: rest) = none := by
          rcases radix_cases hs r with hnone | ⟨p, hp, hline, heq⟩
          · exact hnone _
          · rw [heq] at hradix ⊢
            exact radixNumber_none hs hp hline hradix n rest
        rw [number_zero, hnone, Option.none_or, htake]
  · simp only [not_exists] at hzero
    rw [number_eq_decimal hzero] at h
    obtain ⟨htake, hlength⟩ := decimal_take hs h rest
    refine ⟨?_, hlength⟩
    cases cs with
    | nil => cases h
    | cons d cs =>
      cases n with
      | zero => rwa [number_eq_decimal (by rcases hs with rfl | rfl | rfl | rfl | rfl <;> simp)]
      | succ n =>
        by_cases hd : d = '0'
        · -- the zero is the whole text, so the mark stands where the letter of a radix would
          subst hd
          obtain rfl : cs = [] := by
            cases cs with
            | nil => rfl
            | cons e cs => exact absurd rfl (hzero e cs)
          rw [List.take_succ_cons, List.take_nil, List.cons_append, List.nil_append] at htake ⊢
          rw [number_zero, radix_mark hs, Option.none_or, htake]
        · rwa [number_eq_decimal (by simp [hd])]

end Marks
end SiteConfig.Script.Lexeme
