import SiteConfig.Syntax.Attachment
import SiteConfig.Syntax.Layout

/-!
What of its text a script keeps as it stands: the comments between the items of a list, and each
item or operand that is not looked into.
-/

namespace SiteConfig

/-- A piece of text that a script is to be rendered with. -/
inductive Mark where
  /-- A comment between two items of a list, or before the first or behind the last. -/
  | comment (text : String)
  /-- A statement, property or expression that is kept as its text, with all comments in it. -/
  | verbatim (text : String)
  /-- A comment that is read together with the line end in place of a semicolon. -/
  | dropped (text : String)
deriving DecidableEq

namespace Mark

def isKept : Mark → Bool
  | dropped _ => false
  | _ => true

theorem filter_comments {α : Type} (text : α → String) (xs : List α) :
    (xs.map fun x => comment (text x)).filter isKept = xs.map fun x => comment (text x) := by
  rw [List.filter_eq_self]
  simp [isKept]

end Mark

/-- The comments of an item around the marks in it. -/
def Trivia.around (t : Trivia) (marks : List Mark) : List Mark :=
  t.leading.map (fun c => .comment c.text) ++ marks ++ t.trailing.toList.map .comment

namespace Tree

mutual

/-- The comments and texts that a tree holds, in the order in which they are rendered. -/
def marks : Tree → List Mark
  | .node _ e => marksExpr e

def marksExpr : Expr Tree → List Mark
  | .string _ => []
  | .boolean _ => []
  | .identifier _ => []
  | .verbatim text => [.verbatim text]
  | .member object _ => marks object
  | .assignment left right => marks left ++ marks right
  | .call callee arguments => marks callee ++ marksArguments arguments
  | .array elements dangling => marksElements elements ++ dangling.map (fun c => .comment c.text)
  | .object properties dangling =>
    marksProperties properties ++ dangling.map (fun c => .comment c.text)

def marksArguments : List Tree → List Mark
  | [] => []
  | t :: rest => marks t ++ marksArguments rest

def marksElements : List (Element Tree) → List Mark
  | [] => []
  | ⟨value, trivia⟩ :: rest => trivia.around (marks value) ++ marksElements rest

def marksProperties : List (Property Tree) → List Mark
  | [] => []
  | ⟨body, _, trivia⟩ :: rest => trivia.around (marksBody body) ++ marksProperties rest

def marksBody : PropertyBody Tree → List Mark
  | .assignment _ value => marks value
  | .irregular _ text => [.verbatim text]

end

theorem marksArguments_eq (ts : List Tree) : marksArguments ts = ts.flatMap marks := by
  induction ts with
  | nil => rfl
  | cons t rest ih => rw [marksArguments, ih, List.flatMap_cons]

theorem marksElements_eq (es : List (Element Tree)) :
    marksElements es = es.flatMap fun e => e.trivia.around (marks e.value) := by
  induction es with
  | nil => rfl
  | cons e rest ih => rw [marksElements, ih, List.flatMap_cons]

theorem marksProperties_eq (ps : List (Property Tree)) :
    marksProperties ps = ps.flatMap fun p => p.trivia.around (marksBody p.body) := by
  induction ps with
  | nil => rfl
  | cons p rest ih => rw [marksProperties, ih, List.flatMap_cons]

theorem filter_around {t : Trivia} {marks : List Mark}
    (h : marks.filter Mark.isKept = marks) :
    (t.around marks).filter Mark.isKept = t.around marks := by
  have htrailing := Mark.filter_comments id t.trailing.toList
  simp only [Trivia.around, List.filter_append, h, Mark.filter_comments]
  rw [show t.trailing.toList.map Mark.comment = t.trailing.toList.map fun x => .comment (id x)
    from rfl, htrailing]

mutual

/-- Nothing that a tree holds is dropped. -/
theorem filter_marks : ∀ t : Tree, t.marks.filter Mark.isKept = t.marks
  | .node _ e => by rw [marks, filter_marksExpr e]

theorem filter_marksExpr : ∀ e : Expr Tree, (marksExpr e).filter Mark.isKept = marksExpr e
  | .string _ => rfl
  | .boolean _ => rfl
  | .identifier _ => rfl
  | .verbatim _ => rfl
  | .member object _ => by rw [marksExpr, filter_marks object]
  | .assignment left right => by
    rw [marksExpr, List.filter_append, filter_marks left, filter_marks right]
  | .call callee arguments => by
    rw [marksExpr, List.filter_append, filter_marks callee, filter_marksArguments arguments]
  | .array elements dangling => by
    rw [marksExpr, List.filter_append, filter_marksElements elements, Mark.filter_comments]
  | .object properties dangling => by
    rw [marksExpr, List.filter_append, filter_marksProperties properties, Mark.filter_comments]

theorem filter_marksArguments : ∀ ts : List Tree,
    (marksArguments ts).filter Mark.isKept = marksArguments ts
  | [] => rfl
  | t :: rest => by
    rw [marksArguments, List.filter_append, filter_marks t, filter_marksArguments rest]

theorem filter_marksElements : ∀ es : List (Element Tree),
    (marksElements es).filter Mark.isKept = marksElements es
  | [] => rfl
  | ⟨value, _⟩ :: rest => by
    rw [marksElements, List.filter_append, filter_around (filter_marks value),
      filter_marksElements rest]

theorem filter_marksProperties : ∀ ps : List (Property Tree),
    (marksProperties ps).filter Mark.isKept = marksProperties ps
  | [] => rfl
  | ⟨body, _, _⟩ :: rest => by
    rw [marksProperties, List.filter_append, filter_around (filter_marksBody body),
      filter_marksProperties rest]

theorem filter_marksBody : ∀ b : PropertyBody Tree, (marksBody b).filter Mark.isKept = marksBody b
  | .assignment _ value => by rw [marksBody, filter_marks value]
  | .irregular _ _ => rfl

end

end Tree

namespace StatementBody

def marks : StatementBody Tree → List Mark
  | .expression value => value.marks
  | .verbatim text => [.verbatim text]

end StatementBody

namespace Program

def marksStatements : List (Statement Tree) → List Mark
  | [] => []
  | ⟨body, trivia⟩ :: rest => trivia.around body.marks ++ marksStatements rest

/-- The comments and texts that a script holds, in the order in which they are rendered. -/
def marks (p : Program Tree) : List Mark :=
  marksStatements p.statements ++ p.dangling.map (fun c => .comment c.text)

theorem marksStatements_eq (ss : List (Statement Tree)) :
    marksStatements ss = ss.flatMap fun s => s.trivia.around s.body.marks := by
  induction ss with
  | nil => rfl
  | cons s rest ih => rw [marksStatements, ih, List.flatMap_cons]

end Program

namespace Piece

variable {α : Type} (marks : α → List Mark)

/-- The items of a list, in their order. -/
def items (pieces : List (Piece α)) : List α :=
  pieces.filterMap fun
    | item value .. => some value
    | comment .. => none

/-- What is noted of a comment that is kept. -/
def noted (text : String) : List Mark :=
  [.comment text]

/-- Nothing is noted of a comment that is not kept. -/
def unnoted (_ : String) : List Mark :=
  []

/-- What a list holds as it was read, where `note` is what is noted of a comment. -/
def marksOf (note : String → List Mark) : List (Piece α) → List Mark
  | [] => []
  | comment text _ _ :: rest => note text ++ marksOf note rest
  | item value _ _ :: rest => marks value ++ marksOf note rest

theorem marksOf_nil (pieces : List (Piece α)) :
    marksOf marks unnoted pieces =
      (items pieces).flatMap marks := by
  induction pieces with
  | nil => rfl
  | cons p rest ih => cases p <;> simp_all [marksOf, unnoted, items]

theorem items_append (pieces pieces' : List (Piece α)) :
    items (pieces ++ pieces') = items pieces ++ items pieces' :=
  List.filterMap_append ..

theorem marksOf_append (note : String → List Mark) (pieces pieces' : List (Piece α)) :
    marksOf marks note (pieces ++ pieces') =
      marksOf marks note pieces ++ marksOf marks note pieces' := by
  induction pieces with
  | nil => rfl
  | cons p rest ih => cases p <;> simp [marksOf, ih]

/-- What a list holds once each comment was given to an item. -/
def marksOfItems (items : List (α × Trivia)) (dangling : List Comment) : List Mark :=
  items.flatMap (fun x => x.2.around (marks x.1)) ++ dangling.map (fun c => .comment c.text)

/-- No comment is lost, and none changes its place, when comments are given to items. -/
theorem marksOfItems_attachFrom (pending : List Comment) (previous : Option Nat)
    (pieces : List (Piece α)) :
    marksOfItems marks (attachFrom pending previous pieces).1
        (attachFrom pending previous pieces).2 =
      pending.map (fun c => .comment c.text) ++
        marksOf marks noted pieces := by
  fun_induction attachFrom pending previous pieces with
  | case1 => simp [marksOfItems, marksOf]
  | case2 => simp_all [marksOf, noted]
  | case3 => simp_all [marksOfItems, marksOf, Trivia.around, noted]
  | case4 => simp_all [marksOfItems, marksOf, Trivia.around, noted]
  | case5 => simp_all [marksOfItems, marksOf, Trivia.around]

theorem marksOfItems_attach (pieces : List (Piece α)) :
    marksOfItems marks (attach pieces).1 (attach pieces).2 =
      marksOf marks noted pieces :=
  marksOfItems_attachFrom marks [] none pieces

/-- Comments are given to the items in their order. -/
theorem map_fst_attachFrom (pending : List Comment) (previous : Option Nat)
    (pieces : List (Piece α)) :
    (attachFrom pending previous pieces).1.map (·.1) = items pieces := by
  fun_induction attachFrom pending previous pieces with
  | case1 => rfl
  | case2 => simp_all [items]
  | case3 => simp_all [items]
  | case4 => simp_all [items]
  | case5 => simp_all [items]

theorem map_fst_attach (pieces : List (Piece α)) : (attach pieces).1.map (·.1) = items pieces :=
  map_fst_attachFrom [] none pieces

end Piece

end SiteConfig
