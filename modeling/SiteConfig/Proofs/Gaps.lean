import SiteConfig.Proofs.Progress

/-!
What stands between two tokens: blanks, comments and page comments. The readers that pass them stop
at the next token, and one that starts at a token stays there.
-/

set_option mvcgen.warning false

namespace SiteConfig.Script
open Text Std.Do

/-- Blanks and comments from one place to a later one, with the comments in their order. The text
that `other` recognises is passed over as well. -/
inductive Gap (other : Lexeme) : Cursor → List String → Cursor → Prop where
  | none (c : Cursor) : Gap other c [] c
  | blank {c c' : Cursor} {comments : List String} {ch : Char} (h : c.rest.head? = some ch)
    (hb : isBlank ch) (rest : Gap other (c.forward 1) comments c') : Gap other c comments c'
  | comment {c c' : Cursor} {comments : List String} {n : Nat}
    (h : Lexeme.comment c.rest = some n) (rest : Gap other (c.forward n) comments c') :
    Gap other c (c.slice (c.forward n) :: comments) c'
  | other {c c' : Cursor} {comments : List String} {n : Nat} (h : other c.rest = some n)
    (rest : Gap other (c.forward n) comments c') : Gap other c comments c'

namespace Gap

variable {other : Lexeme} {c d c' : Cursor} {comments comments' : List String}

theorem trans (h : Gap other c comments d) (h' : Gap other d comments' c') :
    Gap other c (comments ++ comments') c' := by
  induction h with
  | none c => exact h'
  | blank hc hb _ ih => exact .blank hc hb (ih h')
  | comment hc _ ih => exact .comment hc (ih h')
  | other hc _ ih => exact .other hc (ih h')

theorem reaches (h : Gap other c comments c') : c.Reaches c' := by
  induction h with
  | none c => exact .refl c
  | blank _ _ _ ih => exact (Cursor.Reaches.forward _ _).trans ih
  | comment _ _ ih => exact (Cursor.Reaches.forward _ _).trans ih
  | other _ _ ih => exact (Cursor.Reaches.forward _ _).trans ih

theorem run_succ {c : Cursor} {ch : Char} {rest : List Char} (h : c.rest = ch :: rest)
    (hb : isBlank ch) : c.forward (Lexeme.run isBlank c.rest) =
      (c.forward 1).forward (Lexeme.run isBlank (c.forward 1).rest) := by
  have hrun : Lexeme.run isBlank c.rest = 1 + Lexeme.run isBlank (c.forward 1).rest := by
    simp [h, Lexeme.run, hb, Nat.add_comm]
  rw [hrun, Cursor.forward_forward]

theorem blanks (other : Lexeme) (c : Cursor) :
    Gap other c [] (c.forward (Lexeme.run isBlank c.rest)) := by
  induction hr : c.rest generalizing c with
  | nil => simpa [Lexeme.run] using Gap.none c
  | cons ch rest ih =>
    rw [← hr]
    by_cases hb : isBlank ch
    · have hrest : (c.forward 1).rest = rest := by simp [hr]
      rw [run_succ hr hb, hrest]
      exact .blank (by simp [hr]) hb (ih (c.forward 1) hrest)
    · simpa [hr, Lexeme.run, hb] using Gap.none c

end Gap

/-- Only blanks, comments and page comments stand between two places. -/
def Apart (c c' : Cursor) : Prop :=
  ∃ comments, Gap Lexeme.pageComment c comments c'

namespace Apart

variable {c d c' : Cursor}

theorem refl (c : Cursor) : Apart c c :=
  ⟨[], .none c⟩

theorem trans (h : Apart c d) (h' : Apart d c') : Apart c c' := by
  obtain ⟨comments, h⟩ := h
  obtain ⟨comments', h'⟩ := h'
  exact ⟨comments ++ comments', h.trans h'⟩

theorem reaches (h : Apart c c') : c.Reaches c' :=
  h.elim fun _ h => h.reaches

end Apart

/-- A token starts here, or the text ends. -/
structure AtToken (c : Cursor) : Prop where
  blank : Lexeme.run isBlank c.rest = 0
  comment : Lexeme.comment c.rest = none

theorem run_behind (cs : List Char) : Lexeme.run isBlank (cs.drop (Lexeme.run isBlank cs)) = 0 := by
  induction cs with
  | nil => rfl
  | cons ch rest ih =>
    by_cases hb : isBlank ch
    · simpa [Lexeme.run, hb] using ih
    · simp [Lexeme.run, hb]

theorem atToken_behind {c : Cursor}
    (h : Lexeme.comment (c.forward (Lexeme.run isBlank c.rest)).rest = none) :
    AtToken (c.forward (Lexeme.run isBlank c.rest)) :=
  ⟨run_behind c.rest, h⟩

theorem blockCommentTail_le {cs : List Char} {n : Nat} (h : Lexeme.blockCommentTail cs = some n) :
    n ≤ cs.length := by
  fun_induction Lexeme.blockCommentTail cs generalizing n with
  | case1 => cases h
  | case2 => grind
  | case3 ch rest _ ih =>
    obtain ⟨m, hm, rfl⟩ := Option.map_eq_some_iff.mp h
    exact Nat.succ_le_succ (ih hm)

theorem comment_bounds {cs : List Char} {n : Nat} (h : Lexeme.comment cs = some n) :
    1 ≤ n ∧ n ≤ cs.length := by
  unfold Lexeme.comment at h
  split at h
  · rename_i rest
    have := Lexeme.run_le (!Lexeme.isCommentEnd ·) rest
    grind
  · rename_i rest
    obtain ⟨m, hm, rfl⟩ := Option.map_eq_some_iff.mp h
    have := blockCommentTail_le hm
    grind
  · cases h

theorem gap_comment {cs : List Char} {n : Nat} (hb : Lexeme.run isBlank cs = 0)
    (h : Lexeme.comment cs = some n) : Lexeme.gap cs = n + Lexeme.gap (cs.drop n) := by
  obtain ⟨hpos, hle⟩ := comment_bounds h
  cases cs with
  | nil => cases h
  | cons ch rest =>
    have hch : ¬ isBlank ch := by
      intro hch
      simp [Lexeme.run, hch] at hb
    obtain ⟨m, rfl⟩ : ∃ m, n = m + 1 := ⟨n - 1, by omega⟩
    have hm : m ≤ rest.length := by simpa using hle
    -- the lexer counts the rest of the comment down, one character at a time
    have hskip := Lexeme.gapTail_skip (rest.take m) (rest.drop m)
    rw [List.take_append_drop, List.length_take, Nat.min_eq_left hm] at hskip
    rw [Lexeme.gap, Lexeme.gapTail, if_neg hch, h]
    simp only [Nat.add_sub_cancel, hskip, List.drop_succ_cons]
    omega

theorem gap_atToken {c : Cursor} (hc : AtToken c) : Lexeme.gap c.rest = 0 := by
  obtain ⟨hb, hc⟩ := hc
  cases hr : c.rest with
  | nil => rfl
  | cons ch rest =>
    have hch : ¬ isBlank ch := by
      intro hch
      simp [hr, Lexeme.run, hch] at hb
    rw [hr] at hc
    simp [Lexeme.gap, Lexeme.gapTail, hch, hc]

/-- A gap goes on to the next token. -/
theorem gap_spec (other : Lexeme) (c : Cursor) :
    (∃ comments, Gap other c comments (c.forward (Lexeme.gap c.rest))) ∧
      AtToken (c.forward (Lexeme.gap c.rest)) := by
  -- a comment takes more than one character, so the induction is on all that is left
  induction hlen : c.rest.length using Nat.strong_induction_on generalizing c with
  | _ len ih =>
    by_cases hb : Lexeme.run isBlank c.rest = 0
    · cases hc : Lexeme.comment c.rest with
      | none =>
        have hat : AtToken c := ⟨hb, hc⟩
        rw [gap_atToken hat, Cursor.forward_zero]
        exact ⟨⟨[], .none c⟩, hat⟩
      | some n =>
        obtain ⟨hpos, hle⟩ := comment_bounds hc
        obtain ⟨⟨comments, hgap⟩, hat⟩ := ih _ (by simp; omega) (c.forward n) rfl
        rw [gap_comment hb hc, ← Cursor.forward_forward]
        exact ⟨⟨_, .comment hc hgap⟩, hat⟩
    · cases hr : c.rest with
      | nil => simp [hr, Lexeme.run] at hb
      | cons ch rest =>
        have hch : isBlank ch := by
          by_contra hch
          simp [hr, Lexeme.run, hch] at hb
        have hgap : Lexeme.gap (ch :: rest) = 1 + Lexeme.gap (c.forward 1).rest := by
          simp [Lexeme.gap, Lexeme.gapTail, hch, hr]
        obtain ⟨⟨comments, h⟩, hat⟩ := ih _ (by simp [← hlen, hr]) (c.forward 1) rfl
        rw [hgap, ← Cursor.forward_forward]
        exact ⟨⟨_, .blank (by simp [hr]) hch h⟩, hat⟩

theorem pageComment_pos {cs : List Char} {n : Nat} (h : Lexeme.pageComment cs = some n) :
    1 ≤ n ∧ cs ≠ [] := by
  unfold Lexeme.pageComment at h
  split at h
  · grind
  · grind
  · cases h

/-- The start of an expression or statement. -/
structure AtStart (c : Cursor) : Prop extends AtToken c where
  page : Lexeme.pageComment c.rest = none

theorem apart_page {c : Cursor} {n : Nat} (h : Lexeme.pageComment c.rest = some n) :
    Apart c (c.forward n) :=
  ⟨[], .other h (.none _)⟩

/-- The way from the end of a statement to the place where its semicolon is inserted, with the
comments on it. Such a place is looked for right behind the last token and right behind each
comment; the first one is taken. -/
inductive Inserted (e : Ending) : Cursor → List String → Cursor → Prop where
  | here {c : Cursor} (h : e.inserts c) : Inserted e c [] c
  | comment {c d c' : Cursor} {n : Nat} {lost : List String} (h : ¬ e.inserts c)
    (hd : d = c.forward (Lexeme.run isBlank c.rest)) (hn : Lexeme.comment d.rest = some n)
    (rest : Inserted e (d.forward n) lost c') : Inserted e c (d.slice (d.forward n) :: lost) c'

namespace Inserted

variable {e : Ending} {c c' : Cursor} {lost : List String}

theorem of_insertion? {n : Nat} (h : c.insertion? e n = some c') :
    ∃ lost, Inserted e c lost c' := by
  induction n generalizing c with
  | zero => cases h
  | succ n ih =>
    rw [Cursor.insertion?] at h
    split at h
    · next hi =>
      cases h
      exact ⟨[], .here hi⟩
    · next hi =>
      simp only at h
      split at h
      · next k hk =>
        obtain ⟨lost, hrest⟩ := ih h
        exact ⟨_, .comment hi rfl hk hrest⟩
      · cases h

end Inserted

namespace Scan

variable {c₀ : Cursor}

attribute [grind →] Apart.reaches Apart.trans
attribute [grind .] Apart.refl

@[spec]
theorem spec_gap : ⦃fun c => ⌜c = c₀⌝⦄ gap
    ⦃⇓? _ c => ⌜Apart c₀ c ∧ AtToken c ∧ (AtToken c₀ → c = c₀)⌝⦄ := by
  unfold gap
  mvcgen
  rename_i h _ _ hrest _ _
  obtain ⟨rfl, rfl⟩ := hrest
  rintro rfl
  subst h
  obtain ⟨hgap, hat⟩ := gap_spec Lexeme.pageComment _
  refine ⟨hgap, hat, fun h => ?_⟩
  rw [gap_atToken h, Cursor.forward_zero]

@[spec]
theorem spec_token (s : String) : ⦃fun c => ⌜c = c₀⌝⦄ token s
    ⦃⇓? _ c => ⌜∃ d rest, Apart c₀ d ∧ d.rest = s.toList ++ rest ∧
      c = d.forward s.toList.length⌝⦄ := by
  unfold token
  mvcgen
  all_goals grind [List.isPrefixOf_iff_prefix, List.IsPrefix, String.length_toList]

theorem spec_wideGap (n : Nat) :
    ⦃fun c => ⌜Apart c₀ c ∧ c.left ≤ n ∧ (AtStart c₀ → c = c₀)⌝⦄ wideGap n
    ⦃⇓? _ c => ⌜Apart c₀ c ∧ AtStart c ∧ (AtStart c₀ → c = c₀)⌝⦄ := by
  induction n generalizing c₀ with
  | zero =>
    unfold wideGap
    mvcgen
    rename_i c h _ c'
    obtain ⟨hapart, hleft, hstart⟩ := h
    intro hgap hat hsame
    have hnil : c'.rest = [] := by
      have := hgap.reaches.left_le
      have := c'.left_eq
      exact List.length_eq_zero_iff.mp (by omega)
    exact ⟨hapart.trans hgap, ⟨hat, by rw [hnil]; rfl⟩, fun h => by grind [AtStart.toAtToken]⟩
  | succ n ih =>
    unfold wideGap
    mvcgen [ih]
    -- a page comment takes a character, so the fuel lasts for the rest
    case vc1 c h _ d hd _ k hk _ _ _ _ _ =>
      have hpage := pageComment_pos hk
      have hleft := hd.1.reaches.left_le
      have hd' := d.left_eq
      have := List.length_pos_iff.mpr hpage.2
      have := @apart_page d k
      have : AtStart c₀ → Lexeme.pageComment d.rest = none := fun hstart => by
        grind [AtStart.toAtToken, AtStart.page]
      grind [Cursor.left_forward]
    case vc2 => grind [AtStart.toAtToken, AtStart]

@[spec]
theorem spec_opening : ⦃fun c => ⌜c = c₀⌝⦄ opening
    ⦃⇓? _ c => ⌜Apart c₀ c ∧ AtStart c ∧ (AtStart c₀ → c = c₀)⌝⦄ := by
  unfold opening
  mvcgen [spec_wideGap]
  all_goals grind

theorem spec_attempt {α : Type} {s : Scan α} {R : α → Cursor → Prop}
    (hs : ⦃fun c => ⌜c = c₀⌝⦄ s ⦃⇓? a c => ⌜R a c⌝⦄) : ⦃fun c => ⌜c = c₀⌝⦄ attempt s
    ⦃⇓? o c => ⌜(o = none → c = c₀) ∧ ∀ a, o = some a → R a c⌝⦄ := by
  rw [triple_iff] at *
  intro c₁ hc₁ o c h
  subst hc₁
  have hrun : (attempt s).run c₁ = ((some <$> s).run c₁ <|> some (none, c₁)) := rfl
  rw [hrun, StateT.run_map] at h
  cases hr : s.run c₁ with
  | none =>
    rw [hr] at h
    cases h
    exact ⟨fun _ => rfl, nofun⟩
  | some out =>
    rw [hr] at h
    cases h
    refine ⟨nofun, fun a ha => ?_⟩
    cases ha
    exact hs _ rfl out.1 out.2 hr

@[spec]
theorem spec_semicolon (e : Ending) : ⦃fun c => ⌜c = c₀⌝⦄ semicolon e
    ⦃⇓? _ c => ⌜c₀.Reaches c ∧ ((∃ d, Apart c₀ d ∧ d.rest.head? = some ';' ∧ c = d.forward 1) ∨
      ∃ lost, Inserted e c₀ lost c)⌝⦄ := by
  unfold semicolon
  mvcgen
  all_goals grind [Inserted.of_insertion?]

theorem spec_orElse {α : Type} {s t : Scan α} {R : α → Cursor → Prop}
    (hs : ⦃fun c => ⌜c = c₀⌝⦄ s ⦃⇓? a c => ⌜R a c⌝⦄)
    (ht : ⦃fun c => ⌜c = c₀⌝⦄ t ⦃⇓? a c => ⌜R a c⌝⦄) :
    ⦃fun c => ⌜c = c₀⌝⦄ (s <|> t : Scan α) ⦃⇓? a c => ⌜R a c⌝⦄ :=
  triple_orElse hs ht

end Scan

end SiteConfig.Script
