import SiteConfig.Proofs.Shown
import SiteConfig.Syntax.Attachment

/-!
Items and comments on lines of their own. The rows on which they stand give each comment back to
its item.
-/

namespace SiteConfig

namespace Layout

/-- An array that holds something. -/
theorem layoutExpr_array {elements : List (Element Tree)} {dangling : List Comment}
    (h : ¬(elements = [] ∧ dangling = [])) (depth column : Nat) :
    Tree.layoutExpr depth column (.array elements dangling) =
      match (Tree.flatElements? elements).bind (flat? column dangling) with
      | some flat => flat
      | none => "[\n" ++ Tree.layoutElements (depth + 1) false elements ++
          commentLines (depth + 1) (!elements.isEmpty) dangling ++ indent depth ++ "]" := by
  have hfull : elements = [] → dangling = [] → False := fun he hd => h ⟨he, hd⟩
  cases hflat : (Tree.flatElements? elements).bind (flat? column dangling) with
  | none =>
    rw [Tree.layoutExpr, hflat]
    exact hfull
  | some flat =>
    rw [Tree.layoutExpr, hflat]
    exact hfull

/-- An object that holds something. -/
theorem layoutExpr_object {properties : List (Property Tree)} {dangling : List Comment}
    (h : ¬(properties = [] ∧ dangling = [])) (depth column : Nat) :
    Tree.layoutExpr depth column (.object properties dangling) =
      "\x7b\n" ++ Tree.layoutProperties (depth + 1) false properties ++
        commentLines (depth + 1) (!properties.isEmpty) dangling ++ indent depth ++ "\x7d" := by
  rw [Tree.layoutExpr]
  rintro rfl rfl
  exact h ⟨rfl, rfl⟩

/-- Items with their trivia on lines of their own, each with `mark` behind it. -/
def lines (depth : Nat) (mark : String) (begun : Bool) : List (String × Trivia) → String
  | [] => ""
  | (text, t) :: rest =>
    leading depth begun t ++ text ++ mark ++ trailing t ++ "\n" ++ lines depth mark true rest

theorem layoutElements_eq_lines (depth : Nat) (begun : Bool) (elements : List (Element Tree)) :
    Tree.layoutElements depth begun elements =
      lines depth "," begun
        (elements.map fun e => (e.value.layout depth (2 * depth), e.trivia)) := by
  induction elements generalizing begun with
  | nil => rfl
  | cons e rest ih => simp only [Tree.layoutElements, List.map_cons, lines, ih]

theorem layoutProperties_eq_lines (depth : Nat) (begun : Bool) (properties : List (Property Tree)) :
    Tree.layoutProperties depth begun properties =
      lines depth "," begun
        (properties.map fun p => (Tree.layoutBody depth p.body, p.trivia)) := by
  induction properties generalizing begun with
  | nil => rfl
  | cons p rest ih => simp only [Tree.layoutProperties, List.map_cons, lines, ih]

theorem layoutStatements_eq_lines (begun : Bool) (statements : List (Statement Tree)) :
    Program.layoutStatements begun statements =
      lines 0 "" begun (statements.map fun s => (Program.layoutStatement s, s.trivia)) := by
  induction statements generalizing begun with
  | nil => rfl
  | cons s rest ih =>
    simp only [Program.layoutStatements, List.map_cons, lines, ih, String.append_empty]

end Layout

namespace Piece
open Layout

variable {α : Type}

/-- The number of line ends in a text. -/
def height (text : String) : Nat :=
  text.toList.count '\n'

/-- The row where a thing starts that may have a blank line before it. -/
def rowOf (row : Nat) (begun spaced : Bool) : Nat :=
  row + if spaced && begun then 1 else 0

/-- The comments of lines that start at `row`. -/
def ofComments (row : Nat) (begun : Bool) : List Comment → List (Piece α)
  | [] => []
  | c :: rest =>
    let first := rowOf row begun c.spaced
    .comment c.text first (first + height c.text) ::
      ofComments (first + height c.text + 1) true rest

/-- The row behind the comments of lines that start at `row`. -/
def rowBehind (row : Nat) (begun : Bool) : List Comment → Nat
  | [] => row
  | c :: rest => rowBehind (rowOf row begun c.spaced + height c.text + 1) true rest

/-- The row where an item starts whose leading comments start at `row`. -/
def itemRow (row : Nat) (begun : Bool) (t : Trivia) : Nat :=
  rowOf (rowBehind row begun t.leading) (begun || !t.leading.isEmpty) t.spaced

/-- The comment behind an item. -/
def ofTrailing (row : Nat) (t : Trivia) : List (Piece α) :=
  match t.trailing with
  | some text => [.comment text row (row + height text)]
  | none => []

/-- The row where the comment behind an item ends. -/
def trailingRow (row : Nat) (t : Trivia) : Nat :=
  match t.trailing with
  | some text => row + height text
  | none => row

/-- The items of lines that start at `row`, given with the heights of their texts. -/
def ofItems (row : Nat) (begun : Bool) : List (α × Nat × Trivia) → List (Piece α)
  | [] => []
  | (a, h, t) :: rest =>
    let last := itemRow row begun t + h
    ofComments row begun t.leading ++ .item a (itemRow row begun t) last :: ofTrailing last t ++
      ofItems (trailingRow last t + 1) true rest

/-- The row behind the items of lines that start at `row`. -/
def rowBehindItems (row : Nat) (begun : Bool) : List (α × Nat × Trivia) → Nat
  | [] => row
  | (_, h, t) :: rest => rowBehindItems (trailingRow (itemRow row begun t + h) t + 1) true rest

/-- The trivia of items as they are shown. -/
def shownItems (begun : Bool) : List (α × Nat × Trivia) → List (α × Trivia)
  | [] => []
  | (a, _, t) :: rest => (a, t.shown begun) :: shownItems true rest

/-- The row where the last piece ended, and the row of the line behind it. -/
inductive Behind : Option Nat → Nat → Bool → Prop where
  | first (row : Nat) : Behind none row false
  | line (row : Nat) : Behind (some row) (row + 1) true

variable {previous : Option Nat} {row : Nat} {begun : Bool}

theorem Behind.spacedAfter (h : Behind previous row begun) (spaced : Bool) :
    Piece.spacedAfter previous (rowOf row begun spaced) = (spaced && begun) := by
  cases h <;> cases spaced <;> simp [Piece.spacedAfter, rowOf]

/-- The comments of lines lead whatever comes next. -/
theorem attachFrom_ofComments (h : Behind previous row begun) (comments pending : List Comment) :
    ∃ previous', Behind previous' (rowBehind row begun comments) (begun || !comments.isEmpty) ∧
      ∀ rest : List (Piece α), attachFrom pending previous (ofComments row begun comments ++ rest) =
        attachFrom (pending ++ Comment.shown begun comments) previous' rest := by
  induction comments generalizing previous row begun pending with
  | nil =>
    exact ⟨previous, by simpa [rowBehind] using h,
      fun rest => by simp [ofComments, Comment.shown]⟩
  | cons c comments ih =>
    obtain ⟨previous', hbehind, hrest⟩ := ih (.line (rowOf row begun c.spaced + height c.text))
      (pending ++ [⟨c.text, c.spaced && begun⟩])
    have hshown : Comment.shown true comments = comments := by
      cases comments <;> simp [Comment.shown]
    refine ⟨previous', by simpa [rowBehind] using hbehind, fun rest => ?_⟩
    rw [ofComments, List.cons_append, attachFrom, h.spacedAfter, hrest, hshown, Comment.shown,
      List.append_assoc, List.singleton_append]

/-- A comment that does not start on the row where the item ends is not its own. -/
theorem attachFrom_item {pending : List Comment} {a : α} {first last : Nat} {rest : List (Piece α)}
    (h : ∀ text start stop rest', rest = .comment text start stop :: rest' → start ≠ last) :
    attachFrom pending previous (.item a first last :: rest) =
      ((a, ⟨pending, none, Piece.spacedAfter previous first⟩) :: (attachFrom [] (some last) rest).1,
        (attachFrom [] (some last) rest).2) := by
  rcases rest with _ | ⟨⟨text, start, stop⟩ | ⟨b, start, stop⟩, rest⟩
  · conv => lhs; rw [attachFrom.eq_def]
  · conv => lhs; rw [attachFrom.eq_def]
    simp only [if_neg (h text start stop rest rfl)]
  · conv => lhs; rw [attachFrom.eq_def]

theorem attachFrom_item_trailing {pending : List Comment} {a : α} {first last stop : Nat}
    {text : String} {rest : List (Piece α)} :
    attachFrom pending previous (.item a first last :: .comment text last stop :: rest) =
      ((a, ⟨pending, some text, Piece.spacedAfter previous first⟩) ::
        (attachFrom [] (some stop) rest).1, (attachFrom [] (some stop) rest).2) := by
  rw [attachFrom]
  simp only [if_true]

theorem head_ofComments {row : Nat} {begun : Bool} {comments : List Comment} {text : String}
    {start stop : Nat} {rest : List (Piece α)}
    (h : ofComments row begun comments = .comment text start stop :: rest) : row ≤ start := by
  cases comments with
  | nil => cases h
  | cons c comments =>
    rw [ofComments] at h
    cases h
    exact Nat.le_add_right _ _

/-- A comment at the start of lines stands on one of these. -/
theorem head_ofItems {items : List (α × Nat × Trivia)} {dangling : List Comment}
    {text : String} {start stop : Nat} {rest : List (Piece α)}
    (h : ofItems row begun items ++ ofComments (rowBehindItems row begun items)
      (begun || !items.isEmpty) dangling = .comment text start stop :: rest) : row ≤ start := by
  cases items with
  | nil => exact head_ofComments h
  | cons item items =>
    obtain ⟨a, n, t⟩ := item
    rw [ofItems] at h
    cases hc : (ofComments row begun t.leading : List (Piece α)) with
    | nil => simp [hc] at h
    | cons p ps =>
      simp only [hc, List.cons_append, List.cons.injEq] at h
      exact head_ofComments (hc.trans (by rw [h.1]))

/-- The rows give each comment back to its item, and the spacing as it is shown. -/
theorem attachFrom_ofItems (h : Behind previous row begun) (items : List (α × Nat × Trivia))
    (dangling : List Comment) :
    attachFrom [] previous (ofItems row begun items ++
        ofComments (rowBehindItems row begun items) (begun || !items.isEmpty) dangling) =
      (shownItems begun items, Comment.shown (begun || !items.isEmpty) dangling) := by
  induction items generalizing previous row begun with
  | nil =>
    obtain ⟨previous', -, hrest⟩ := attachFrom_ofComments (α := α) h dangling []
    have := hrest []
    simp only [List.append_nil, List.nil_append] at this
    simp only [ofItems, rowBehindItems, List.nil_append, List.isEmpty_nil, Bool.not_true,
      Bool.or_false, this, attachFrom, shownItems]
  | cons item items ih =>
    obtain ⟨a, n, t⟩ := item
    obtain ⟨previous', hbehind, hlead⟩ := attachFrom_ofComments (α := α) h t.leading []
    have hspaced := hbehind.spacedAfter t.spaced
    have hnext := fun last => ih (.line last)
    simp only [Bool.true_or] at hnext
    rw [ofItems, rowBehindItems, List.append_assoc, List.append_assoc, hlead, List.nil_append,
      List.cons_append]
    simp only [List.isEmpty_cons, Bool.not_false, Bool.or_true]
    rcases t with ⟨leading, _ | text, spaced⟩
    · simp only [ofTrailing, trailingRow, List.nil_append]
      rw [attachFrom_item, hnext]
      · simp only [shownItems, Trivia.shown, itemRow, hspaced]
      · intro text start stop rest' heq
        have := head_ofItems heq
        omega
    · simp only [ofTrailing, trailingRow, List.cons_append, List.nil_append]
      rw [attachFrom_item_trailing, hnext]
      simp only [shownItems, Trivia.shown, itemRow, hspaced]

/-! Items on one line. -/

/-- Items that follow each other from `row` on, given with the heights of their texts. -/
def ofInline (row : Nat) : List (α × Nat) → List (Piece α)
  | [] => []
  | (a, h) :: rest => .item a row (row + h) :: ofInline (row + h) rest

/-- No trivia are read between items that follow each other. -/
theorem attachFrom_ofInline (h : ∀ last ∈ previous, row = last) (items : List (α × Nat)) :
    attachFrom [] previous (ofInline row items) =
      ((items.map (·.1)).map fun a => (a, {}), []) := by
  induction items generalizing previous row with
  | nil => simp [ofInline, attachFrom]
  | cons item items ih =>
    obtain ⟨a, n⟩ := item
    have hspaced : spacedAfter previous row = false := by
      cases previous with
      | none => rfl
      | some last => simp [spacedAfter, h last rfl]
    rw [ofInline, attachFrom_item, ih, hspaced]
    · rfl
    · simp
    · intro text start stop rest' heq
      cases items <;> cases heq

end Piece

end SiteConfig
