import Mathlib.Data.List.Forall2
import SiteConfig.Proofs.Gaps
import SiteConfig.Proofs.Rows

/-!
Bracketed lists that were written by the layout are read back, item by item and line by line.
-/

namespace SiteConfig.Script
open Text Layout

/-- The row of the line that starts behind `blank`. -/
def Cursor.rowBehind (c : Cursor) (blank : List Char) : Nat :=
  c.position.line + blank.count '\n'

/-- Blanks only. -/
def Blank (cs : List Char) : Prop :=
  ∀ c ∈ cs, isBlank c

theorem Blank.append {s t : List Char} (hs : Blank s) (ht : Blank t) : Blank (s ++ t) := by
  intro c hc
  rcases List.mem_append.mp hc with h | h
  · exact hs c h
  · exact ht c h

theorem blank_nil : Blank [] := by
  simp [Blank]

theorem blank_singleton {ch : Char} (h : isBlank ch) : Blank [ch] := by
  intro c hc
  rwa [List.mem_singleton.mp hc]

/-- Blanks go up to the next token. -/
theorem AtToken.run_blank {c : Cursor} {blank rest : List Char}
    (hs : AtToken (c.forward blank.length)) (h : c.rest = blank ++ rest) (hb : Blank blank) :
    Lexeme.run isBlank c.rest = blank.length := by
  have hrest := Cursor.rest_behind h
  have hblank := hs.blank
  rw [hrest] at hblank
  rw [h, Lexeme.run_append hb]
  intro ch hch
  obtain ⟨tail, rfl⟩ := List.head?_eq_some_iff.mp hch
  by_contra hcon
  simp [Lexeme.run, hcon] at hblank

theorem blank_indent (depth : Nat) : Blank (indent depth).toList := by
  intro c hc
  rw [indent, String.toList_ofList] at hc
  rw [List.eq_of_mem_replicate hc]
  rfl

theorem count_indent (depth : Nat) : (indent depth).toList.count '\n' = 0 := by
  rw [indent, String.toList_ofList, List.count_replicate]
  rfl

/-! Readers of lines. `R begun fuel` reads from the start of a line on; `prep` puts pieces in front
of what it gives. -/

section Lines

variable {α β γ : Type}

structure Prepends (prep : List (Piece α) → γ → γ) : Prop where
  nil : ∀ l, prep [] l = l
  append : ∀ s t l, prep (s ++ t) l = prep s (prep t l)

/-- A comment in front of a line end is passed on as a piece. -/
def ReadsComments (R : Nat → Scan γ) (prep : List (Piece α) → γ → γ) : Prop :=
  ∀ ⦃c : Cursor⦄ ⦃blank rest : List Char⦄ ⦃text : String⦄ (fuel : Nat),
    c.rest = blank ++ (text.toList ++ '\n' :: rest) → Blank blank → IsComment text →
    ∃ c', c.Reaches c' ∧ c'.rest = '\n' :: rest ∧
      (R (fuel + 1)).run c = ((R fuel).run c').map fun out =>
        (prep [.comment text (c.rowBehind blank) (c.rowBehind blank + Piece.height text)] out.1,
          out.2)

/-- An item with the mark behind it is passed on as a piece in front of `rest`, where at most
`bound` characters are left. -/
def ReadsItem (R : Bool → Nat → Scan γ) (prep : List (Piece α) → γ → γ) (Fits : α → β → Prop)
    (text : β → String) (mark : String) (bound : Nat) (begun : Bool) (rest : List Char) (b : β) :
    Prop :=
  ∀ ⦃c : Cursor⦄ ⦃blank : List Char⦄ (fuel : Nat),
    c.rest = blank ++ ((text b).toList ++ (mark.toList ++ rest)) → Blank blank →
    c.left ≤ bound → c.left < fuel →
    ∃ a c' fuel', Fits a b ∧ c.Reaches c' ∧ c'.rest = rest ∧ c'.left < fuel' ∧
      (R begun fuel).run c = ((R true fuel').run c').map fun out =>
        (prep [.item a (c.rowBehind blank) (c.rowBehind blank + Piece.height (text b))] out.1,
          out.2)

/-- What is written behind an item and its mark. -/
def behindItem (text : β → String) (trivia : β → Trivia) (mark : String) (depth : Nat)
    (rest : List Char) (b : β) (entries : List β) : List Char :=
  (trailing (trivia b)).toList ++ '\n' ::
    ((lines depth mark true (entries.map fun b => (text b, trivia b))).toList ++ rest)

/-- Each item is passed on in front of what is written behind it. -/
def ReadsItems (R : Bool → Nat → Scan γ) (prep : List (Piece α) → γ → γ) (Fits : α → β → Prop)
    (text : β → String) (trivia : β → Trivia) (mark : String) (bound depth : Nat)
    (rest : List Char) : Bool → List β → Prop
  | _, [] => True
  | begun, b :: entries =>
    ReadsItem R prep Fits text mark bound begun
      (behindItem text trivia mark depth rest b entries) b ∧
    ReadsItems R prep Fits text trivia mark bound depth rest true entries

variable {R : Bool → Nat → Scan γ} {prep : List (Piece α) → γ → γ}

theorem Cursor.rowBehind_append {c c' : Cursor} {text blank : List Char} (h : c.Reaches c')
    (ht : c.rest = text ++ c'.rest) :
    c'.rowBehind blank = c.rowBehind (text ++ blank) := by
  rw [Cursor.rowBehind, Cursor.rowBehind, h.line ht, List.count_append, Nat.add_assoc]

/-- A comment between blanks and a line end: its length, its text and its rows. -/
theorem Cursor.comment_ahead {c : Cursor} {blank rest : List Char} {text : String}
    (h : c.rest = blank ++ (text.toList ++ '\n' :: rest)) (hb : Blank blank) (ht : IsComment text) :
    Lexeme.run isBlank c.rest = blank.length ∧
      Lexeme.comment (c.forward blank.length).rest = some text.toList.length ∧
      c.Reaches ((c.forward blank.length).forward text.toList.length) ∧
      ((c.forward blank.length).forward text.toList.length).rest = '\n' :: rest ∧
      (c.forward blank.length).slice ((c.forward blank.length).forward text.toList.length) = text ∧
      (c.forward blank.length).position.line = c.rowBehind blank ∧
      ((c.forward blank.length).forward text.toList.length).position.line =
        c.rowBehind blank + Piece.height text := by
  have hslash := Lexeme.head_of_comment ht
  have hblank : Lexeme.run isBlank c.rest = blank.length := by
    rw [h]
    refine Lexeme.run_append hb fun ch hch => ?_
    rw [List.head?_append, hslash] at hch
    cases hch
    rfl
  have hstart := Cursor.rest_behind h
  have hstop := Cursor.rest_behind (c := c.forward blank.length) hstart
  have hreach := Cursor.Reaches.forward c blank.length
  have hreach' := Cursor.Reaches.forward (c.forward blank.length) text.toList.length
  have hline := hreach.line (by rw [hstart, h])
  have hline' := hreach'.line (by rw [hstop, hstart])
  have hslice := hreach'.slice (by rw [hstop, hstart])
  rw [String.ofList_toList] at hslice
  refine ⟨hblank, ?_, hreach.trans hreach', hstop, hslice, hline, by rw [hline', hline]; rfl⟩
  rw [hstart]
  exact Lexeme.comment_append ht rest

theorem map_map_prep (hp : Prepends prep) (s t : List (Piece α)) (r : Option (γ × Cursor)) :
    (r.map fun out => (prep t out.1, out.2)).map (fun out => (prep s out.1, out.2)) =
      r.map fun out => (prep (s ++ t) out.1, out.2) := by
  rw [Option.map_map]
  congr 1
  funext out
  simp only [Function.comp_apply, hp.append]

/-- The blanks before a thing on a line of its own. -/
theorem blank_before (depth : Nat) (b : Bool) :
    Blank ((if b then "\n" else "") ++ indent depth).toList ∧
      ((if b then "\n" else "") ++ indent depth).toList.count '\n' = if b then 1 else 0 := by
  rw [String.toList_append]
  refine ⟨Blank.append ?_ (blank_indent depth), ?_⟩
  · cases b
    · exact blank_nil
    · exact blank_singleton rfl
  · rw [List.count_append, count_indent]
    cases b <;> rfl

/-- A comment on a line of its own, which is not empty, and the row of the line behind it. -/
theorem read_comment_line {S : Nat → Scan γ} (hS : ReadsComments S prep) (fuel : Nat) {depth : Nat}
    {rest blank : List Char} {begun : Bool} {comment : Comment} {c : Cursor}
    (hcomment : IsComment comment.text)
    (h : c.rest = blank ++ ((commentLine depth begun comment).toList ++ rest)) (hb : Blank blank) :
    ∃ c', c.Reaches c' ∧ c'.rest = '\n' :: rest ∧ c'.left < c.left ∧
      c'.rowBehind ['\n'] =
        Piece.rowOf (c.rowBehind blank) begun comment.spaced + Piece.height comment.text + 1 ∧
      (S (fuel + 1)).run c = ((S fuel).run c').map fun out =>
        (prep [.comment comment.text (Piece.rowOf (c.rowBehind blank) begun comment.spaced)
          (Piece.rowOf (c.rowBehind blank) begun comment.spaced + Piece.height comment.text)] out.1,
          out.2) := by
  obtain ⟨hblank, hcount⟩ := blank_before depth (comment.spaced && begun)
  have hsplit : c.rest =
      (blank ++ ((if comment.spaced && begun then "\n" else "") ++ indent depth).toList) ++
        (comment.text.toList ++ '\n' :: rest) := by
    rw [h, commentLine]
    simp [String.toList_append]
  obtain ⟨c', hreach, hrest, hrun⟩ := hS fuel hsplit (hb.append hblank) hcomment
  have hreads : c.rest = blank ++
      ((if comment.spaced && begun then "\n" else "") ++ indent depth).toList ++
        comment.text.toList ++ c'.rest := by
    rw [hsplit, hrest]
    simp only [List.append_assoc]
  -- a comment is not empty, so less text is left behind it
  have hpos : 0 < comment.text.toList.length := by
    have := Lexeme.head_of_comment hcomment
    cases hl : comment.text.toList with
    | nil => simp [hl] at this
    | cons => simp
  have hleft := Cursor.left_of_rest hreads
  have hfirst : c.rowBehind (blank ++
      ((if comment.spaced && begun then "\n" else "") ++ indent depth).toList) =
        Piece.rowOf (c.rowBehind blank) begun comment.spaced := by
    rw [Cursor.rowBehind, List.count_append, hcount, Cursor.rowBehind, Piece.rowOf]
    omega
  refine ⟨c', hreach, hrest, ?_, ?_, hfirst ▸ hrun⟩
  · simp only [List.length_append] at hleft
    omega
  · rw [Cursor.rowBehind_append hreach hreads, ← hfirst, Cursor.rowBehind, Cursor.rowBehind,
      List.count_append, List.count_append, Piece.height]
    simp only [List.count_singleton_self]
    omega

theorem read_comments (S : Nat → Scan γ) (hS : ReadsComments S prep) (hp : Prepends prep)
    {depth : Nat} {rest : List Char} {comments : List Comment}
    (hcomments : ∀ c ∈ comments, IsComment c.text) {c : Cursor} {blank : List Char} {begun : Bool}
    {fuel : Nat} (h : c.rest = blank ++ ((commentLines depth begun comments).toList ++ rest))
    (hb : Blank blank) (hfuel : c.left < fuel) :
    ∃ c' blank' fuel', c.Reaches c' ∧ c'.rest = blank' ++ rest ∧ Blank blank' ∧ c'.left < fuel' ∧
      c'.rowBehind blank' = Piece.rowBehind (c.rowBehind blank) begun comments ∧
      (S fuel).run c = ((S fuel').run c').map fun out =>
        (prep (Piece.ofComments (c.rowBehind blank) begun comments) out.1, out.2) := by
  -- the line end behind each comment is the blank in front of the next
  induction comments generalizing c blank begun fuel with
  | nil =>
    refine ⟨c, blank, fuel, .refl c, by simpa [commentLines] using h, hb, hfuel, rfl, ?_⟩
    simp [Piece.ofComments, hp.nil]
  | cons comment comments ih =>
    obtain ⟨hcomment, hcomments⟩ := List.forall_mem_cons.mp hcomments
    obtain ⟨fuel, rfl⟩ : ∃ n, fuel = n + 1 := ⟨fuel - 1, by omega⟩
    have hline : c.rest = blank ++ ((commentLine depth begun comment).toList ++
        ((commentLines depth true comments).toList ++ rest)) := by
      rw [h, commentLines, String.toList_append, List.append_assoc]
    obtain ⟨c₁, hreach, hrest, hlt, hnext, hrun⟩ := read_comment_line hS fuel hcomment hline hb
    have hfuel₁ : c₁.left < fuel := by omega
    obtain ⟨c', blank', fuel', hreach', hrest', hblank', hfuel', hrow, hrun'⟩ :=
      ih hcomments hrest (blank_singleton rfl) hfuel₁
    refine ⟨c', blank', fuel', hreach.trans hreach', hrest', hblank', hfuel', ?_, ?_⟩
    · rw [hrow, hnext, Piece.rowBehind]
    · rw [hrun, hrun', map_map_prep hp, hnext, Piece.ofComments]
      rfl

theorem read_trailing (S : Nat → Scan γ) (hS : ReadsComments S prep) (hp : Prepends prep)
    {t : Trivia} (ht : t.Plain) {c : Cursor} {rest : List Char} {fuel : Nat}
    (h : c.rest = (trailing t).toList ++ '\n' :: rest) (hfuel : c.left < fuel) :
    ∃ c' fuel', c.Reaches c' ∧ c'.rest = '\n' :: rest ∧ c'.left < fuel' ∧
      c'.rowBehind ['\n'] = Piece.trailingRow c.position.line t + 1 ∧
      (S fuel).run c = ((S fuel').run c').map fun out =>
        (prep (Piece.ofTrailing c.position.line t) out.1, out.2) := by
  rcases t with ⟨leading, _ | text, spaced⟩
  · refine ⟨c, fuel, .refl c, h, hfuel, rfl, ?_⟩
    simp [Piece.ofTrailing, hp.nil]
  · obtain ⟨fuel, rfl⟩ : ∃ n, fuel = n + 1 := ⟨fuel - 1, by omega⟩
    have hsplit : c.rest = [' '] ++ (text.toList ++ '\n' :: rest) := by
      rw [h, trailing, String.toList_append]
      rfl
    obtain ⟨c', hreach, hrest, hrun⟩ :=
      hS fuel hsplit (blank_singleton rfl) (ht.trailing text rfl)
    have hreads : c.rest = ([' '] ++ text.toList) ++ c'.rest := by
      rw [hsplit, hrest]
      simp only [List.append_assoc]
    have hleft := Cursor.left_of_rest hreads
    simp only [List.length_append, List.length_singleton] at hleft
    have hrow : c.rowBehind [' '] = c.position.line := rfl
    refine ⟨c', fuel, hreach, hrest, by omega, ?_, ?_⟩
    · rw [Cursor.rowBehind_append hreach hreads, Cursor.rowBehind, List.count_append,
        List.count_append]
      simp only [Piece.trailingRow, Piece.height, List.count_singleton_self]
      have : [' '].count '\n' = 0 := rfl
      omega
    · rw [hrun, hrow]
      rfl

section Items

variable {Fits : α → β → Prop} {text : β → String} {trivia : β → Trivia} {mark : String}
  (hR : ∀ begun, ReadsComments (R begun) prep) (hp : Prepends prep)
  (hmark : mark.toList.count '\n' = 0)

include hR hp hmark

/-- The line of an item is read as the item between its comments. -/
theorem read_item_line {depth bound fuel : Nat} {rest blank : List Char} {b : β} {c : Cursor}
    {begun begun' : Bool} (hitem : ReadsItem R prep Fits text mark bound begun'
      ((trailing (trivia b)).toList ++ '\n' :: rest) b) (hplain : (trivia b).Plain)
    (h : c.rest = blank ++ ((leading depth begun (trivia b) ++ text b ++ mark ++
      trailing (trivia b)).toList ++ '\n' :: rest))
    (hb : Blank blank) (hbound : c.left ≤ bound) (hfuel : c.left < fuel) :
    ∃ a c' fuel', Fits a b ∧ c.Reaches c' ∧ c'.rest = '\n' :: rest ∧ c'.left < fuel' ∧
      c'.rowBehind ['\n'] = Piece.trailingRow (Piece.itemRow (c.rowBehind blank) begun (trivia b) +
        Piece.height (text b)) (trivia b) + 1 ∧
      (R begun' fuel).run c = ((R true fuel').run c').map fun out =>
        (prep (Piece.ofItems (c.rowBehind blank) begun [(a, Piece.height (text b), trivia b)]) out.1,
          out.2) := by
  have hspaced := blank_before depth ((trivia b).spaced && (begun || !(trivia b).leading.isEmpty))
  -- the comments before the item
  have hlead : c.rest = blank ++ ((commentLines depth begun (trivia b).leading).toList ++
      (((if (trivia b).spaced && (begun || !(trivia b).leading.isEmpty) then "\n" else "") ++
        indent depth).toList ++ ((text b).toList ++ (mark.toList ++
          ((trailing (trivia b)).toList ++ '\n' :: rest))))) := by
    rw [h, leading]
    simp [String.toList_append]
  obtain ⟨c₁, blank₁, fuel₁, hreach₁, hrest₁, hblank₁, hfuel₁, hrow₁, hrun₁⟩ :=
    read_comments (R begun') (hR begun') hp hplain.leading hlead hb hfuel
  -- the item with its mark
  obtain ⟨a, c₂, fuel₂, hfits, hreach₂, hrest₂, hfuel₂, hrun₂⟩ :=
    hitem fuel₁ (hrest₁.trans (List.append_assoc _ _ _).symm)
      (hblank₁.append hspaced.1) (hreach₁.left_le.trans hbound) hfuel₁
  have hfirst : c₁.rowBehind (blank₁ ++ ((if (trivia b).spaced &&
      (begun || !(trivia b).leading.isEmpty) then "\n" else "") ++ indent depth).toList) =
        Piece.itemRow (c.rowBehind blank) begun (trivia b) := by
    rw [Cursor.rowBehind, List.count_append, hspaced.2, Piece.itemRow, Piece.rowOf, ← hrow₁,
      Cursor.rowBehind, Nat.add_assoc]
  have hlast : c₂.position.line =
      Piece.itemRow (c.rowBehind blank) begun (trivia b) + Piece.height (text b) := by
    have hreads := hrest₁.trans (List.append_assoc _ _ _).symm
    rw [← hrest₂, ← List.append_assoc, ← List.append_assoc] at hreads
    rw [hreach₂.line hreads, ← hfirst, Cursor.rowBehind, List.count_append, List.count_append,
      hmark, Piece.height]
    omega
  -- the comment behind it
  obtain ⟨c₃, fuel₃, hreach₃, hrest₃, hfuel₃, hrow₃, hrun₃⟩ :=
    read_trailing (R true) (hR true) hp hplain hrest₂ hfuel₂
  refine ⟨a, c₃, fuel₃, hfits, (hreach₁.trans hreach₂).trans hreach₃, hrest₃, hfuel₃,
    hlast ▸ hrow₃, ?_⟩
  rw [hrun₁, hrun₂, hrun₃, map_map_prep hp, map_map_prep hp, hlast, hfirst]
  simp [Piece.ofItems]

/-- Lines of items are read as their pieces. -/
theorem read_lines {depth : Nat} {rest : List Char} {entries : List β} {bound : Nat}
    {begun' : Bool}
    (hitems : ReadsItems R prep Fits text trivia mark bound depth rest begun' entries)
    (htrivia : ∀ b ∈ entries, (trivia b).Plain) {c : Cursor} {blank : List Char}
    {begun : Bool} {fuel : Nat}
    (h : c.rest = blank ++
      ((lines depth mark begun (entries.map fun b => (text b, trivia b))).toList ++ rest))
    (hb : Blank blank) (hbound : c.left ≤ bound) (hfuel : c.left < fuel) :
    ∃ values c' blank' fuel', List.Forall₂ Fits values entries ∧ c.Reaches c' ∧
      c'.rest = blank' ++ rest ∧ Blank blank' ∧ c'.left < fuel' ∧
      c'.rowBehind blank' = Piece.rowBehindItems (c.rowBehind blank) begun
        (List.zipWith (fun a b => (a, Piece.height (text b), trivia b)) values entries) ∧
      (R begun' fuel).run c =
        ((R (begun' || !entries.isEmpty) fuel').run c').map fun out =>
          (prep (Piece.ofItems (c.rowBehind blank) begun
            (List.zipWith (fun a b => (a, Piece.height (text b), trivia b)) values entries)) out.1,
            out.2) := by
  -- the line end behind each item is the blank in front of the next
  induction entries generalizing c blank begun begun' fuel with
  | nil =>
    refine ⟨[], c, blank, fuel, .nil, .refl c, by simpa [lines] using h, hb, hfuel, rfl, ?_⟩
    simp [Piece.ofItems, hp.nil]
  | cons b entries ih =>
    obtain ⟨hfirst, hitems⟩ := hitems
    obtain ⟨hplain, htrivia⟩ := List.forall_mem_cons.mp htrivia
    have hline : c.rest = blank ++ ((leading depth begun (trivia b) ++ text b ++ mark ++
        trailing (trivia b)).toList ++ '\n' ::
          ((lines depth mark true (entries.map fun b => (text b, trivia b))).toList ++ rest)) := by
      rw [h, List.map_cons, lines]
      simp [String.toList_append]
    obtain ⟨a, c₁, fuel₁, hfits, hreach, hrest, hfuel₁, hrow, hrun⟩ :=
      read_item_line hR hp hmark hfirst hplain hline hb hbound hfuel
    obtain ⟨values, c', blank', fuel', hvalues, hreach', hrest', hblank', hfuel', hrow', hrun'⟩ :=
      ih hitems htrivia hrest (blank_singleton rfl) (hreach.left_le.trans hbound) hfuel₁
    refine ⟨a :: values, c', blank', fuel', .cons hfits hvalues, hreach.trans hreach', hrest',
      hblank', hfuel', ?_, ?_⟩
    · rw [hrow', hrow, List.zipWith_cons_cons, Piece.rowBehindItems]
    · rw [hrun, hrun', map_map_prep hp, hrow, List.zipWith_cons_cons, Piece.ofItems, Piece.ofItems]
      simp [Piece.ofItems]

end Items

end Lines

namespace Listing

variable {α : Type} {close : Char} {element : Scan α} {page : Position → String → α}
  {c c' : Cursor} {blank rest : List Char} {fuel : Nat} {begun due : Bool}

/-- Puts pieces in front of a list. -/
def prepend (pieces : List (Piece α)) (l : Listing α) : Listing α :=
  { l with pieces := pieces ++ l.pieces }

/-- A comment on a line of its own, or behind an item. -/
theorem read_comment {text : String} (h : c.rest = blank ++ (text.toList ++ '\n' :: rest))
    (hb : Blank blank) (ht : IsComment text) :
    ∃ c', c.Reaches c' ∧ c'.rest = '\n' :: rest ∧
      (read close element page (fuel + 1) begun due).run c =
        ((read close element page fuel begun due).run c').map fun out =>
          (prepend [.comment text (c.rowBehind blank)
            (c.rowBehind blank + Piece.height text)] out.1, out.2) := by
  obtain ⟨hblank, hcomment, hreach, hstop, hslice, hline, hline'⟩ := Cursor.comment_ahead h hb ht
  refine ⟨_, hreach, hstop, ?_⟩
  rw [read, Scan.run_bind (Scan.run_rest c), hblank, Scan.run_bind (Scan.run_skip _ c),
    Scan.run_bind (Scan.run_get _)]
  simp only [hcomment]
  rw [Scan.run_bind (Scan.run_skip _ _), Scan.run_bind (Scan.run_get _), Scan.run_bind_pure,
    hslice, hline', hline]
  rfl

/-- An item of the list starts here. -/
structure Opens (close : Char) (c : Cursor) : Prop extends AtStart c where
  head : ∃ ch tail, c.rest = ch :: tail ∧ ch ≠ close ∧ ch ≠ ','

theorem read_item {text : List Char} {a : α} (h : c.rest = blank ++ (text ++ rest))
    (hb : Blank blank) (hs : Opens close (c.forward blank.length))
    (hread : element.run (c.forward blank.length) = some (a, c'))
    (hreach : (c.forward blank.length).Reaches c') (hrest : c'.rest = rest) :
    (read close element page (fuel + 1) begun true).run c =
      ((read close element page fuel begun false).run c').map fun out =>
        (prepend [.item a (c.rowBehind blank) (c.rowBehind blank + text.count '\n')] out.1,
          out.2) := by
  have hstart := Cursor.rest_behind h
  have hblank := hs.run_blank h hb
  have hline := (Cursor.Reaches.forward c blank.length).line (by rw [hstart, h])
  have hline' := hreach.line (by rw [hrest, hstart])
  obtain ⟨ch, tail, heq, hne, hne'⟩ := hs.head
  rw [read, Scan.run_bind (Scan.run_rest c), hblank, Scan.run_bind (Scan.run_skip _ c),
    Scan.run_bind (Scan.run_get _)]
  simp only [hs.comment, hs.page]
  rw [heq]
  simp only [if_neg hne, if_neg hne']
  rw [Scan.run_bind (Scan.run_guard trivial _), Scan.run_bind hread, Scan.run_bind (Scan.run_get _),
    Scan.run_bind_pure, hline', hline]
  rfl

theorem read_comma (h : c.rest = ',' :: rest) (hclose : close ≠ ',') :
    (read close element page (fuel + 1) begun false).run c =
      (read close element page fuel true true).run (c.forward 1) := by
  have hs : Lexeme.Solid (',' :: rest) := ⟨',', rest, rfl, by decide⟩
  have hblank : Lexeme.run isBlank c.rest = 0 := by
    rw [h, hs.run_eq_zero]
  rw [read, Scan.run_bind (Scan.run_rest c), hblank, Scan.run_bind (Scan.run_skip _ c),
    Cursor.forward_zero, Scan.run_bind (Scan.run_get _), h]
  simp only [hs.comment, hs.pageComment, if_neg hclose.symm, if_true]
  rw [Scan.run_bind (Scan.run_skip _ _), Scan.run_bind_pure]
  simp

theorem read_close (h : c.rest = blank ++ close :: rest) (hb : Blank blank)
    (hs : Lexeme.Solid (close :: rest)) :
    (read close element page (fuel + 1) begun due).run c =
      some ({ trailing := begun && due }, c.forward (blank.length + 1)) := by
  have hstart := Cursor.rest_behind h
  have hblank : Lexeme.run isBlank c.rest = blank.length := by
    rw [h, Lexeme.run_blank hb hs]
  rw [read, Scan.run_bind (Scan.run_rest c), hblank, Scan.run_bind (Scan.run_skip _ c),
    Scan.run_bind (Scan.run_get _), hstart]
  simp only [hs.comment, hs.pageComment, if_true]
  rw [Scan.run_bind (Scan.run_skip _ _), Cursor.forward_forward, Scan.run_pure]

theorem prepends : Prepends (prepend (α := α)) where
  nil _ := rfl
  append s t l := by simp [prepend]

theorem readsComments (close : Char) (element : Scan α) (page : Position → String → α)
    (begun : Bool) :
    ReadsComments (fun fuel => read close element page fuel begun true) prepend :=
  fun _ _ _ _ _ h hb ht => read_comment h hb ht

/-- The text is read as an item where at most `bound` characters are left, up to a character that
fulfils `Stop`. -/
def ReadsAs (close : Char) (element : Scan α) (Fits : α → Prop) (Stop : Char → Prop) (bound : Nat)
    (text : List Char) : Prop :=
  ∀ ⦃c : Cursor⦄ ⦃s : Char⦄ ⦃rest : List Char⦄, c.rest = text ++ s :: rest → Stop s →
    c.left ≤ bound →
    Opens close c ∧ ∃ a c', element.run c = some (a, c') ∧ c.Reaches c' ∧ c'.rest = s :: rest ∧
      c'.left < c.left ∧ Fits a

theorem read_value {β : Type} {Fits : α → β → Prop} {text : β → String} {Stop : Char → Prop}
    {bound : Nat} {b : β} {s : Char} (hstop : Stop s)
    (hread : ReadsAs close element (Fits · b) Stop bound (text b).toList)
    (h : c.rest = blank ++ ((text b).toList ++ s :: rest)) (hb : Blank blank)
    (hbound : c.left ≤ bound) (hfuel : c.left < fuel) :
    ∃ a c' fuel', Fits a b ∧ c.Reaches c' ∧ c'.rest = s :: rest ∧ c'.left < fuel' ∧
      (read close element page fuel begun true).run c =
        ((read close element page fuel' begun false).run c').map fun out =>
          (prepend [.item a (c.rowBehind blank) (c.rowBehind blank + Piece.height (text b))] out.1,
            out.2) := by
  have hreach := Cursor.Reaches.forward c blank.length
  have hle := hreach.left_le
  obtain ⟨hopens, a, c', hrun, hreach', hrest, hlt, hfits⟩ :=
    hread (Cursor.rest_behind h) hstop (hle.trans hbound)
  obtain ⟨fuel, rfl⟩ : ∃ n, fuel = n + 1 := ⟨fuel - 1, by omega⟩
  exact ⟨a, c', fuel, hfits, hreach.trans hreach', hrest, by omega,
    read_item h hb hopens hrun hreach' hrest⟩

theorem readsItem {β : Type} {Fits : α → β → Prop} {text : β → String} {Stop : Char → Prop}
    {bound : Nat} {b : β} (hclose : close ≠ ',') (hstop : Stop ',')
    (hread : ReadsAs close element (Fits · b) Stop bound (text b).toList) (begun : Bool)
    (rest : List Char) :
    ReadsItem (fun begun fuel => read close element page fuel begun true) prepend Fits text ","
      bound begun rest b := by
  intro c blank fuel h hb hbound hfuel
  obtain ⟨a, c', fuel', hfits, hreach, hrest, hfuel', hrun⟩ :=
    read_value hstop hread h hb hbound hfuel
  obtain ⟨hbehind, hleft⟩ := Cursor.pass hrest
  obtain ⟨fuel', rfl⟩ : ∃ n, fuel' = n + 1 := ⟨fuel' - 1, by omega⟩
  refine ⟨a, c'.forward 1, fuel', hfits, hreach.trans (.forward c' 1), hbehind, by omega, ?_⟩
  rw [hrun, read_comma hrest hclose]

theorem readsItems {β : Type} {Fits : α → β → Prop} {text : β → String} {Stop : Char → Prop}
    {trivia : β → Trivia} {bound depth : Nat} {entries : List β} (hclose : close ≠ ',')
    (hstop : Stop ',')
    (hread : ∀ b ∈ entries, ReadsAs close element (Fits · b) Stop bound (text b).toList)
    (rest : List Char) (begun : Bool) :
    ReadsItems (fun begun fuel => read close element page fuel begun true) prepend Fits text trivia
      "," bound depth rest begun entries := by
  induction entries generalizing begun with
  | nil => trivial
  | cons b entries ih =>
    obtain ⟨hfirst, hread⟩ := List.forall_mem_cons.mp hread
    exact ⟨readsItem hclose hstop hfirst begun _, ih hread true⟩

/-- The values of pieces, in their order. -/
def values (pieces : List (Piece α)) : List α :=
  items { pieces }

theorem values_append (s t : List (Piece α)) : values (s ++ t) = values s ++ values t :=
  List.filterMap_append

theorem values_ofComments (row : Nat) (begun : Bool) (comments : List Comment) :
    values (Piece.ofComments row begun comments : List (Piece α)) = [] := by
  induction comments generalizing row begun with
  | nil => rfl
  | cons c comments ih => exact ih _ _

theorem values_ofTrailing (row : Nat) (t : Trivia) :
    values (Piece.ofTrailing row t : List (Piece α)) = [] := by
  rcases t with ⟨leading, _ | text, spaced⟩ <;> rfl

theorem values_ofItems (row : Nat) (begun : Bool) (entries : List (α × Nat × Trivia)) :
    values (Piece.ofItems row begun entries) = entries.map (·.1) := by
  induction entries generalizing row begun with
  | nil => rfl
  | cons entry entries ih =>
    obtain ⟨a, n, t⟩ := entry
    have hitem : ∀ first last, values (Piece.item a first last ::
        (Piece.ofTrailing last t : List (Piece α))) = [a] := by
      intro first last
      have := values_ofTrailing (α := α) last t
      simp only [values, items] at this ⊢
      rw [List.filterMap_cons, this]
    rw [Piece.ofItems, List.append_assoc, values_append, values_ofComments, values_append, hitem,
      ih]
    rfl

theorem map_fst_zipWith {β δ : Type} {Fits : α → β → Prop} {values : List α} {entries : List β}
    (h : List.Forall₂ Fits values entries) (f : β → δ) :
    (List.zipWith (fun a b => (a, f b)) values entries).map (·.1) = values := by
  induction h with
  | nil => rfl
  | cons _ _ ih => rw [List.zipWith_cons_cons, List.map_cons, ih]

theorem isEmpty_zipWith {β δ : Type} {Fits : α → β → Prop} {values : List α} {entries : List β}
    (h : List.Forall₂ Fits values entries) (f : β → δ) :
    (List.zipWith (fun a b => (a, f b)) values entries).isEmpty = entries.isEmpty := by
  cases h <;> rfl

variable {β : Type} {Fits : α → β → Prop} {text : β → String} {trivia : β → Trivia}
  {Stop : Char → Prop} {bound : Nat}

variable (page fuel) in
/-- A list that was written with a line for each item is read as its items, each with its
comments. -/
theorem read_expanded (hclose : close ≠ ',') (hend : ∀ rest, Lexeme.Solid (close :: rest))
    {entries : List β} (hstop : Stop ',')
    (hread : ∀ b ∈ entries, ReadsAs close element (Fits · b) Stop bound (text b).toList)
    (htrivia : ∀ b ∈ entries, (trivia b).Plain) {dangling : List Comment}
    (hdangling : ∀ c ∈ dangling, IsComment c.text) {depth depth' : Nat}
    (h : c.rest = ("\n" ++ lines depth "," false (entries.map fun b => (text b, trivia b)) ++
      commentLines depth (!entries.isEmpty) dangling ++ indent depth').toList ++ close :: rest)
    (hbound : c.left ≤ bound) (hfuel : c.left < fuel) :
    ∃ l c', (read close element page fuel false true).run c = some (l, c') ∧
      c.Reaches c' ∧ c'.rest = rest ∧ List.Forall₂ Fits l.items entries ∧
      Piece.attach l.pieces =
        (Piece.shownItems false
          (List.zipWith (fun a b => (a, Piece.height (text b), trivia b)) l.items entries),
          Comment.shown (!entries.isEmpty) dangling) := by
  have hsplit : c.rest = ['\n'] ++
      ((lines depth "," false (entries.map fun b => (text b, trivia b))).toList ++
        ((commentLines depth (!entries.isEmpty) dangling).toList ++
          ((indent depth').toList ++ close :: rest))) := by
    rw [h]
    simp [String.toList_append]
  have hcomments := readsComments close element page
  obtain ⟨values, c₁, blank₁, fuel₁, hvalues, hreach₁, hrest₁, hblank₁, hfuel₁, hrow₁, hrun₁⟩ :=
    read_lines hcomments prepends (by decide) (readsItems hclose hstop hread _ false) htrivia hsplit
      (blank_singleton rfl) hbound hfuel
  obtain ⟨c₂, blank₂, fuel₂, hreach₂, hrest₂, hblank₂, hfuel₂, -, hrun₂⟩ :=
    read_comments (fun fuel => read close element page fuel (false || !entries.isEmpty) true)
      (hcomments _) prepends hdangling hrest₁ hblank₁ hfuel₁
  obtain ⟨fuel₂, rfl⟩ : ∃ n, fuel₂ = n + 1 := ⟨fuel₂ - 1, by omega⟩
  have hclosed : c₂.rest = (blank₂ ++ (indent depth').toList) ++ close :: rest :=
    hrest₂.trans (List.append_assoc _ _ _).symm
  have hblank : Blank (blank₂ ++ (indent depth').toList) := hblank₂.append (blank_indent depth')
  have hrest₃ := Cursor.rest_behind_cons hclosed
  have hempty := isEmpty_zipWith hvalues fun b => (Piece.height (text b), trivia b)
  have hitems := map_fst_zipWith hvalues fun b => (Piece.height (text b), trivia b)
  have hattach := Piece.attachFrom_ofItems (.first (c.rowBehind ['\n']))
    (List.zipWith (fun a b => (a, Piece.height (text b), trivia b)) values entries) dangling
  -- first the items, then the comments in front of the bracket, then the bracket
  simp only [hrun₁, hrun₂, read_close hclosed hblank (hend rest), Option.map_some]
  refine ⟨_, _, rfl, (hreach₁.trans hreach₂).trans (.forward c₂ _), hrest₃, ?_⟩
  rw [hempty, ← hrow₁] at hattach
  have hpieces : ∀ pieces pieces' : List (Piece α), ∀ b,
      (prepend pieces (prepend pieces' { trailing := b })).pieces = pieces ++ pieces' :=
    fun pieces pieces' b => by simp [prepend]
  have hvalues' : ∀ l : Listing α, l.items = Listing.values l.pieces := fun _ => rfl
  rw [hvalues', hpieces, values_append, values_ofItems, hitems, values_ofComments, List.append_nil]
  exact ⟨hvalues, hattach⟩

/-! Lists on one line. -/

theorem values_ofInline (row : Nat) (entries : List (α × Nat)) :
    values (Piece.ofInline row entries) = entries.map (·.1) := by
  induction entries generalizing row with
  | nil => rfl
  | cons entry entries ih =>
    have := ih (row + entry.2)
    simp only [values, items, Piece.ofInline] at this ⊢
    rw [List.filterMap_cons, this]
    rfl

/-- Items behind the opening bracket or a comma. -/
theorem read_inline_cons (hclose : close ≠ ',') (hend : ∀ rest, Lexeme.Solid (close :: rest))
    (hstop : Stop ',') (hstop' : Stop close) {b : β} {entries : List β}
    (hread : ∀ d ∈ b :: entries, ReadsAs close element (Fits · d) Stop bound (text d).toList)
    (hb : Blank blank) (hrow : blank.count '\n' = 0)
    (h : c.rest = blank ++
      ((", ".intercalate ((b :: entries).map text)).toList ++ close :: rest))
    (hbound : c.left ≤ bound) (hfuel : c.left < fuel) :
    ∃ values l c', (read close element page fuel begun true).run c = some (l, c') ∧
      c.Reaches c' ∧ c'.rest = rest ∧ List.Forall₂ Fits values (b :: entries) ∧
      l.pieces = Piece.ofInline c.position.line
        (List.zipWith (fun a d => (a, Piece.height (text d))) values (b :: entries)) := by
  have hfirst : c.rowBehind blank = c.position.line := by rw [Cursor.rowBehind, hrow, Nat.add_zero]
  induction entries generalizing b c blank begun fuel with
  | nil =>
    -- the last item stands in front of the bracket
    rw [List.map_singleton, String.intercalate_singleton] at h
    obtain ⟨a, c₁, fuel₁, hfits, hreach, hrest, hfuel₁, hrun⟩ :=
      read_value hstop' (hread b (by simp)) h hb hbound hfuel
    obtain ⟨fuel₁, rfl⟩ : ∃ n, fuel₁ = n + 1 := ⟨fuel₁ - 1, by omega⟩
    have hclosed : c₁.rest = [] ++ close :: rest := hrest
    refine ⟨[a], _, _, by rw [hrun, read_close hclosed blank_nil (hend rest)]; rfl,
      hreach.trans (.forward c₁ _), Cursor.rest_behind_cons hclosed, .cons hfits .nil, ?_⟩
    rw [hfirst]
    rfl
  | cons d entries ih =>
    -- any other item stands in front of a comma and a blank
    have hsplit : c.rest = blank ++ ((text b).toList ++ ',' :: ([' '] ++
        ((", ".intercalate ((d :: entries).map text)).toList ++ close :: rest))) := by
      rw [h, List.map_cons, List.map_cons, String.intercalate_cons_cons, ← List.map_cons]
      simp [String.toList_append]
    obtain ⟨a, c₁, fuel₁, hfits, hreach, hrest, hfuel₁, hrun⟩ :=
      read_value hstop (hread b (by simp)) hsplit hb hbound hfuel
    obtain ⟨hrest₁, hleft⟩ := Cursor.pass hrest
    obtain ⟨fuel₁, rfl⟩ : ∃ n, fuel₁ = n + 1 := ⟨fuel₁ - 1, by omega⟩
    have hreach₁ := hreach.trans (.forward c₁ 1)
    have hlt : (c₁.forward 1).left < fuel₁ := by omega
    obtain ⟨values, l, c', hrun', hreach', hrest', hvalues, hpieces⟩ :=
      ih (fun e he => hread e (List.mem_cons_of_mem _ he)) (blank_singleton rfl) rfl hrest₁
        (hreach₁.left_le.trans hbound) hlt rfl
    have hline : (c₁.forward 1).position.line = c.position.line + Piece.height (text b) := by
      have hreads : c.rest = (blank ++ (text b).toList ++ [',']) ++ (c₁.forward 1).rest := by
        rw [hsplit, hrest₁]
        simp
      rw [hreach₁.line hreads, List.count_append, List.count_append, hrow, Piece.height]
      have : [','].count '\n' = 0 := rfl
      omega
    refine ⟨a :: values, _, c', by rw [hrun, read_comma hrest hclose, hrun']; rfl,
      hreach₁.trans hreach', hrest', .cons hfits hvalues, ?_⟩
    rw [hfirst, List.zipWith_cons_cons, Piece.ofInline, ← hline, ← hpieces]
    rfl

variable (page fuel) in
/-- A list that was written on one line is read as its items. -/
theorem read_inline (hclose : close ≠ ',') (hend : ∀ rest, Lexeme.Solid (close :: rest))
    (hstop : Stop ',') (hstop' : Stop close) {entries : List β}
    (hread : ∀ b ∈ entries, ReadsAs close element (Fits · b) Stop bound (text b).toList)
    (h : c.rest = (", ".intercalate (entries.map text)).toList ++ close :: rest)
    (hbound : c.left ≤ bound) (hfuel : c.left < fuel) :
    ∃ l c', (read close element page fuel false true).run c = some (l, c') ∧
      c.Reaches c' ∧ c'.rest = rest ∧ List.Forall₂ Fits l.items entries ∧
      Piece.attach l.pieces = (l.items.map fun a => (a, {}), []) := by
  cases entries with
  | nil =>
    have hclosed : c.rest = [] ++ close :: rest := by simpa using h
    obtain ⟨fuel, rfl⟩ : ∃ n, fuel = n + 1 := ⟨fuel - 1, by omega⟩
    refine ⟨_, _, read_close hclosed blank_nil (hend rest), .forward c _,
      Cursor.rest_behind_cons hclosed, .nil, ?_⟩
    simp [Piece.attach, Piece.attachFrom, items]
  | cons b entries =>
    obtain ⟨values, l, c', hrun, hreach, hrest, hvalues, hpieces⟩ :=
      read_inline_cons hclose hend hstop hstop' hread blank_nil rfl h hbound hfuel
    have hfst := map_fst_zipWith hvalues fun d => Piece.height (text d)
    have hitems : l.items = values := by
      rw [show l.items = Listing.values l.pieces from rfl, hpieces, values_ofInline, hfst]
    refine ⟨l, c', hrun, hreach, hrest, hitems ▸ hvalues, ?_⟩
    rw [Piece.attach, hpieces, Piece.attachFrom_ofInline (by simp), hfst, hitems]

end Listing

end SiteConfig.Script
