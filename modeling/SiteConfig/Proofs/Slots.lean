import SiteConfig.Proofs.Marks
import SiteConfig.Proofs.Relayout

/-!
The places of the comments in a layout. All else in a layout is the same whatever the comments are,
so each comment stands in it once, and in the order of the script.
-/

namespace SiteConfig

/-- The text of a mark, where each comment is changed by `f`. -/
def Mark.shown (f : String → String) : Mark → String
  | .comment text => f text
  | .verbatim text => text
  | .dropped text => f text

/-- A text that depends on a change of the comments holds each of the marks once, in this order,
and all else in it is fixed. -/
inductive Slotted : List Mark → ((String → String) → String) → Prop where
  | code (s : String) : Slotted [] fun _ => s
  | mark (m : Mark) : Slotted [m] m.shown
  | append {marks marks' : List Mark} {text text' : (String → String) → String}
    (h : Slotted marks text) (h' : Slotted marks' text') :
    Slotted (marks ++ marks') fun f => text f ++ text' f

def Comment.recomment (f : String → String) (c : Comment) : Comment :=
  { c with text := f c.text }

def Trivia.recomment (f : String → String) (t : Trivia) : Trivia where
  leading := t.leading.map (.recomment f)
  trailing := t.trailing.map f
  spaced := t.spaced

namespace Tree

mutual

/-- The tree with its comments changed by `f`. -/
def recomment (f : String → String) : Tree → Tree
  | .node position e => .node position (recommentExpr f e)

def recommentExpr (f : String → String) : Expr Tree → Expr Tree
  | .string value => .string value
  | .boolean value => .boolean value
  | .identifier name => .identifier name
  | .verbatim text => .verbatim text
  | .member object property => .member (recomment f object) property
  | .assignment left right => .assignment (recomment f left) (recomment f right)
  | .call callee arguments => .call (recomment f callee) (recommentArguments f arguments)
  | .array elements dangling => .array (recommentElements f elements) (dangling.map (.recomment f))
  | .object properties dangling =>
    .object (recommentProperties f properties) (dangling.map (.recomment f))

def recommentArguments (f : String → String) : List Tree → List Tree
  | [] => []
  | t :: rest => recomment f t :: recommentArguments f rest

def recommentElements (f : String → String) : List (Element Tree) → List (Element Tree)
  | [] => []
  | ⟨value, trivia⟩ :: rest => ⟨recomment f value, trivia.recomment f⟩ :: recommentElements f rest

def recommentProperties (f : String → String) : List (Property Tree) → List (Property Tree)
  | [] => []
  | ⟨body, position, trivia⟩ :: rest =>
    ⟨recommentBody f body, position, trivia.recomment f⟩ :: recommentProperties f rest

def recommentBody (f : String → String) : PropertyBody Tree → PropertyBody Tree
  | .assignment key value => .assignment key (recomment f value)
  | .irregular shape text => .irregular shape text

end

end Tree

namespace StatementBody

def recomment (f : String → String) : StatementBody Tree → StatementBody Tree
  | .expression value => .expression (value.recomment f)
  | .verbatim text => .verbatim text

end StatementBody

namespace Program

/-- The script with its comments changed by `f`. -/
def recomment (f : String → String) (p : Program Tree) : Program Tree where
  statements := p.statements.map fun s =>
    { body := s.body.recomment f, trivia := s.trivia.recomment f }
  dangling := p.dangling.map (.recomment f)

end Program

/-! A change that changes nothing. -/

@[simp] theorem Comment.recomment_id (c : Comment) : c.recomment id = c := rfl

@[simp] theorem Comment.map_recomment_id (cs : List Comment) :
    cs.map (Comment.recomment id) = cs := by
  induction cs with
  | nil => rfl
  | cons c rest ih => rw [List.map_cons, ih, recomment_id]

@[simp] theorem Trivia.recomment_id (t : Trivia) : t.recomment id = t := by
  simp [Trivia.recomment]

namespace Tree

mutual

theorem recomment_id : ∀ t : Tree, t.recomment id = t
  | .node _ e => by rw [recomment, recommentExpr_id e]

theorem recommentExpr_id : ∀ e : Expr Tree, recommentExpr id e = e
  | .string _ => rfl
  | .boolean _ => rfl
  | .identifier _ => rfl
  | .verbatim _ => rfl
  | .member object _ => by rw [recommentExpr, recomment_id object]
  | .assignment left right => by rw [recommentExpr, recomment_id left, recomment_id right]
  | .call callee arguments => by
    rw [recommentExpr, recomment_id callee, recommentArguments_id arguments]
  | .array elements dangling => by
    rw [recommentExpr, recommentElements_id elements, Comment.map_recomment_id]
  | .object properties dangling => by
    rw [recommentExpr, recommentProperties_id properties, Comment.map_recomment_id]

theorem recommentArguments_id : ∀ ts : List Tree, recommentArguments id ts = ts
  | [] => rfl
  | t :: rest => by rw [recommentArguments, recomment_id t, recommentArguments_id rest]

theorem recommentElements_id : ∀ es : List (Element Tree), recommentElements id es = es
  | [] => rfl
  | ⟨value, _⟩ :: rest => by
    rw [recommentElements, recomment_id value, recommentElements_id rest, Trivia.recomment_id]

theorem recommentProperties_id : ∀ ps : List (Property Tree), recommentProperties id ps = ps
  | [] => rfl
  | ⟨body, _, _⟩ :: rest => by
    rw [recommentProperties, recommentBody_id body, recommentProperties_id rest,
      Trivia.recomment_id]

theorem recommentBody_id : ∀ b : PropertyBody Tree, recommentBody id b = b
  | .assignment _ value => by rw [recommentBody, recomment_id value]
  | .irregular _ _ => rfl

end

theorem isList_recomment (f : String → String) (t : Tree) : (t.recomment f).isList = t.isList := by
  obtain ⟨position, e⟩ := t
  cases e <;> rfl

theorem recommentElements_eq_nil {f : String → String} {elements : List (Element Tree)} :
    recommentElements f elements = [] ↔ elements = [] := by
  cases elements <;> simp [recommentElements]

theorem recommentProperties_eq_nil {f : String → String} {properties : List (Property Tree)} :
    recommentProperties f properties = [] ↔ properties = [] := by
  cases properties <;> simp [recommentProperties]

theorem isEmpty_recommentElements (f : String → String) (elements : List (Element Tree)) :
    (recommentElements f elements).isEmpty = elements.isEmpty := by
  cases elements <;> rfl

theorem isEmpty_recommentProperties (f : String → String) (properties : List (Property Tree)) :
    (recommentProperties f properties).isEmpty = properties.isEmpty := by
  cases properties <;> rfl

end Tree

theorem hasComments_recomment (f : String → String) (t : Trivia) :
    (t.recomment f).hasComments = t.hasComments := by
  simp [Trivia.hasComments, Trivia.recomment]

namespace Slotted

variable {marks marks' : List Mark} {text text' : (String → String) → String}

theorem congr (h : Slotted marks text) (hm : marks' = marks) (ht : ∀ f, text' f = text f) :
    Slotted marks' text' := by
  obtain rfl : text' = text := funext ht
  exact hm ▸ h

/-- Fixed text in front. -/
theorem behind (s : String) (h : Slotted marks text) : Slotted marks fun f => s ++ text f :=
  (Slotted.code s).append h

/-- Fixed text behind. -/
theorem before (h : Slotted marks text) (s : String) : Slotted marks fun f => text f ++ s :=
  (h.append (.code s)).congr (List.append_nil _).symm fun _ => rfl

end Slotted

/-- Two texts that end at the same column, and are the same if one of them is on one line. -/
structure Akin (s t : String) : Prop where
  column : ∀ column, Layout.after column s = Layout.after column t
  unbroken : Unbroken s ∨ Unbroken t → s = t

namespace Layout

theorem after_append (column : Nat) (s t : String) :
    after column (s ++ t) = after (after column s) t := by
  simp [after, String.toList_append, columnAfter_append]

theorem after_lineEnd (column : Nat) (s : String) : after column (s ++ "\n") = 0 := by
  rw [after_append]
  rfl

theorem after_lines (depth : Nat) (mark : String) (begun : Bool) (entries : List (String × Trivia)) :
    after 0 (lines depth mark begun entries) = 0 := by
  induction entries generalizing begun with
  | nil => rfl
  | cons e rest ih => rw [lines, after_append, after_lineEnd, ih]

theorem after_commentLines (depth : Nat) (begun : Bool) (comments : List Comment) :
    after 0 (commentLines depth begun comments) = 0 := by
  induction comments generalizing begun with
  | nil => rfl
  | cons c rest ih => rw [commentLines, commentLine, after_append, after_lineEnd, ih]

theorem flat?_recomment (f : String → String) (column : Nat) (dangling : List Comment) :
    flat? column (dangling.map (.recomment f)) = flat? column dangling := by
  funext texts
  simp [flat?]

theorem slotted_commentLines (depth : Nat) (begun : Bool) (comments : List Comment) :
    Slotted (comments.map fun c => .comment c.text)
      fun f => commentLines depth begun (comments.map (.recomment f)) := by
  induction comments generalizing begun with
  | nil => exact .code ""
  | cons c rest ih =>
    have hline := (Slotted.behind ((if c.spaced && begun then "\n" else "") ++ indent depth)
      (.mark (.comment c.text))).before "\n"
    exact (hline.append (ih true)).congr rfl fun _ => rfl

theorem slotted_leading (depth : Nat) (begun : Bool) (t : Trivia) :
    Slotted (t.leading.map fun c => .comment c.text) fun f => leading depth begun (t.recomment f) := by
  have h := (slotted_commentLines depth begun t.leading).before
    ((if t.spaced && (begun || !t.leading.isEmpty) then "\n" else "") ++ indent depth)
  refine h.congr rfl fun f => ?_
  rw [leading, ← String.append_assoc]
  simp [Trivia.recomment]

theorem slotted_trailing (t : Trivia) :
    Slotted (t.trailing.toList.map .comment) fun f => trailing (t.recomment f) := by
  cases ht : t.trailing with
  | none => exact (Slotted.code "").congr rfl fun f => by simp [trailing, Trivia.recomment, ht]
  | some text =>
    exact (Slotted.behind " " (.mark (.comment text))).congr rfl fun f => by
      simp [trailing, Trivia.recomment, ht, Mark.shown]

/-- A line with an item on it. -/
theorem slotted_line {marks marks' : List Mark} {text rest : (String → String) → String}
    (depth : Nat) (begun : Bool) (t : Trivia) (mark : String) (h : Slotted marks text)
    (hrest : Slotted marks' rest) : Slotted (t.around marks ++ marks') fun f =>
      leading depth begun (t.recomment f) ++ text f ++ mark ++ trailing (t.recomment f) ++ "\n" ++
        rest f :=
  ((((((slotted_leading depth begun t).append h).before mark).append (slotted_trailing t)).before
    "\n").append hrest).congr rfl fun _ => rfl

end Layout

namespace Akin

variable {s s' t t' : String}

theorem refl (s : String) : Akin s s :=
  ⟨fun _ => rfl, fun _ => rfl⟩

theorem append (h : Akin s t) (h' : Akin s' t') : Akin (s ++ s') (t ++ t') where
  column column := by rw [Layout.after_append, Layout.after_append, h.column, h'.column]
  unbroken hu := by
    simp only [unbroken_append] at hu
    rw [h.unbroken (hu.imp And.left And.left), h'.unbroken (hu.imp And.right And.right)]

end Akin

/-- A slotted text where no change of the comments shifts what follows the text on its last line. -/
structure Slots (marks : List Mark) (text : (String → String) → String) : Prop where
  slotted : Slotted marks text
  akin : ∀ f, Akin (text f) (text id)

namespace Slots

variable {marks marks' : List Mark} {text text' : (String → String) → String}

theorem code (s : String) : Slots [] fun _ => s :=
  ⟨.code s, fun _ => .refl s⟩

theorem verbatim (s : String) : Slots [.verbatim s] fun _ => s :=
  ⟨.mark (.verbatim s), fun _ => .refl s⟩

theorem append (h : Slots marks text) (h' : Slots marks' text') :
    Slots (marks ++ marks') fun f => text f ++ text' f :=
  ⟨h.slotted.append h'.slotted, fun f => (h.akin f).append (h'.akin f)⟩

theorem congr (h : Slots marks text) (hm : marks' = marks) (ht : ∀ f, text' f = text f) :
    Slots marks' text' := by
  obtain rfl : text' = text := funext ht
  exact hm ▸ h

theorem before (h : Slots marks text) (s : String) : Slots marks fun f => text f ++ s :=
  (h.append (.code s)).congr (List.append_nil _).symm fun _ => rfl

theorem behind (s : String) (h : Slots marks text) : Slots marks fun f => s ++ text f :=
  (Slots.code s).append h

/-- A list that takes more than one line ends behind the indentation of its closing bracket. -/
theorem lines (h : Slotted marks text) (hend : ∀ f, Layout.after 0 (text f) = 0) (first last : String) :
    Slots marks fun f => first ++ "\n" ++ text f ++ last where
  slotted := (h.behind (first ++ "\n")).before last
  akin f := by
    constructor
    · intro column
      simp only [Layout.after_append _ _ last, Layout.after_append _ _ (text _),
        Layout.after_lineEnd, hend]
    · intro hu
      simp [Unbroken] at hu

end Slots

namespace Tree
open Layout

section Lists

variable (depth column : Nat) (dangling : List Comment)

/-- An array, given that its elements show their comments wherever they are laid out. -/
theorem slots_array {elements : List (Element Tree)}
    (hsame : ∀ f, flatElements? (recommentElements f elements) = flatElements? elements)
    (hflat : ∀ texts, flatElements? elements = some texts →
      Slotted (marksElements elements) fun _ => ", ".intercalate texts)
    (hlines : Slotted (marksElements elements)
      fun f => layoutElements (depth + 1) false (recommentElements f elements)) :
    Slots (marksExpr (.array elements dangling))
      fun f => layoutExpr depth column (recommentExpr f (.array elements dangling)) := by
  by_cases hnil : elements = [] ∧ dangling = []
  · obtain ⟨rfl, rfl⟩ := hnil
    exact .code "[]"
  have hnil' (f : String → String) : ¬(recommentElements f elements = [] ∧
      dangling.map (Comment.recomment f) = []) := by
    rwa [recommentElements_eq_nil, List.map_eq_nil_iff]
  simp only [recommentExpr, layoutExpr_array (hnil' _), hsame, flat?_recomment, marksExpr]
  cases hline : (flatElements? elements).bind (flat? column dangling) with
  | some flat =>
    -- no comments here, but there may be elements that are kept as their text
    obtain ⟨texts, htexts, hline⟩ := Option.bind_eq_some_iff.mp hline
    simp only [flat?] at hline
    split at hline
    · next hfits =>
      cases hline
      simp only [Bool.and_eq_true, List.isEmpty_iff] at hfits
      have hslotted := ((hflat texts htexts).behind "[").before "]"
      exact ⟨hslotted.congr (by simp [hfits.1]) fun _ => rfl, fun _ => .refl _⟩
    · cases hline
  | none =>
    refine (Slots.lines (hlines.append
      (slotted_commentLines (depth + 1) (!elements.isEmpty) dangling)) (fun f => ?_) "["
      (indent depth ++ "]")).congr rfl fun f => ?_
    · rw [after_append, layoutElements_eq_lines, after_lines, after_commentLines]
    · have hopen : "[\n" = "[" ++ "\n" := rfl
      simp only [isEmpty_recommentElements, hopen, String.append_assoc]

/-- An object, given that its members show their comments. -/
theorem slots_object {properties : List (Property Tree)}
    (hlines : Slotted (marksProperties properties)
      fun f => layoutProperties (depth + 1) false (recommentProperties f properties)) :
    Slots (marksExpr (.object properties dangling))
      fun f => layoutExpr depth column (recommentExpr f (.object properties dangling)) := by
  by_cases hnil : properties = [] ∧ dangling = []
  · obtain ⟨rfl, rfl⟩ := hnil
    exact .code "\x7b\x7d"
  have hnil' (f : String → String) : ¬(recommentProperties f properties = [] ∧
      dangling.map (Comment.recomment f) = []) := by
    rwa [recommentProperties_eq_nil, List.map_eq_nil_iff]
  simp only [recommentExpr, layoutExpr_object (hnil' _), marksExpr]
  refine (Slots.lines (hlines.append
    (slotted_commentLines (depth + 1) (!properties.isEmpty) dangling)) (fun f => ?_) "\x7b"
    (indent depth ++ "\x7d")).congr rfl fun f => ?_
  · rw [after_append, layoutProperties_eq_lines, after_lines, after_commentLines]
  · have hopen : "\x7b\n" = "\x7b" ++ "\n" := rfl
    simp only [isEmpty_recommentProperties, hopen, String.append_assoc]

end Lists

mutual

/-- The comments of a tree stand in its layout once, and in their order. -/
theorem slots_layout (depth column : Nat) : ∀ t : Tree,
    Slots t.marks fun f => (t.recomment f).layout depth column
  | .node _ e => (slots_layoutExpr depth column e).congr (by rw [marks]) fun f => by
    rw [recomment, layout]

theorem slots_layoutExpr (depth column : Nat) : ∀ e : Expr Tree,
    Slots (marksExpr e) fun f => layoutExpr depth column (recommentExpr f e)
  | .string value => .code (Quoted.quote value)
  | .boolean value => .code (if value then "true" else "false")
  | .identifier name => .code name
  | .verbatim text => .verbatim text
  | .member object property =>
    ((slots_layout depth column object).before ("." ++ property)).congr (by rw [marksExpr])
      fun f => by rw [recommentExpr, layoutExpr, String.append_assoc]
  | .assignment left right => by
    -- the right side starts at the same column whatever the comments on the left side are
    have hleft := (slots_layout depth column left).before " = "
    have hright := slots_layout depth
      (after column ((left.recomment id).layout depth column ++ " = ")) right
    refine (hleft.append hright).congr (by rw [marksExpr]) fun f => ?_
    simp only [recommentExpr, layoutExpr, (hleft.akin f).column column]
  | .call callee arguments => by
    have hcallee := (slots_layout depth column callee).before "("
    have harguments := slots_layoutArguments depth
      (after column ((callee.recomment id).layout depth column ++ "(")) arguments
    refine ((hcallee.append harguments).before ")").congr (by rw [marksExpr]) fun f => ?_
    simp only [recommentExpr, layoutExpr, (hcallee.akin f).column column]
  | .array elements dangling =>
    slots_array depth column dangling (flatElements?_recomment · elements)
      (slotted_flat elements) (slotted_layoutElements (depth + 1) false elements)
  | .object properties dangling =>
    slots_object depth column dangling (slotted_layoutProperties (depth + 1) false properties)

theorem slots_layoutArguments (depth column : Nat) : ∀ ts : List Tree,
    Slots (marksArguments ts) fun f => layoutArguments depth column (recommentArguments f ts)
  | [] => .code ""
  | [t] => (slots_layout depth column t).congr (by simp [marksArguments]) fun f => by
    rw [recommentArguments, recommentArguments, layoutArguments]
  | t :: t' :: rest => by
    have hfirst := (slots_layout depth column t).before ", "
    have hrest := slots_layoutArguments depth
      (after column ((t.recomment id).layout depth column ++ ", ")) (t' :: rest)
    refine (hfirst.append hrest).congr (by rw [marksArguments]) fun f => ?_
    simp only [recommentArguments, layoutArguments, (hfirst.akin f).column column]

theorem slotted_layoutElements (depth : Nat) (begun : Bool) : ∀ es : List (Element Tree),
    Slotted (marksElements es) fun f => layoutElements depth begun (recommentElements f es)
  | [] => .code ""
  | ⟨value, trivia⟩ :: rest =>
    (slotted_line depth begun trivia "," (slots_layout depth (2 * depth) value).slotted
      (slotted_layoutElements depth true rest)).congr (by rw [marksElements]) fun f => by
        rw [recommentElements, layoutElements]

theorem slotted_layoutProperties (depth : Nat) (begun : Bool) : ∀ ps : List (Property Tree),
    Slotted (marksProperties ps) fun f => layoutProperties depth begun (recommentProperties f ps)
  | [] => .code ""
  | ⟨body, _, trivia⟩ :: rest =>
    (slotted_line depth begun trivia "," (slotted_layoutBody depth body)
      (slotted_layoutProperties depth true rest)).congr (by rw [marksProperties]) fun f => by
        rw [recommentProperties, layoutProperties]

theorem slotted_layoutBody (depth : Nat) : ∀ b : PropertyBody Tree,
    Slotted (marksBody b) fun f => layoutBody depth (recommentBody f b)
  | .assignment k value => by
    have hvalue := slots_layout depth (after (2 * depth) (key k ++ ": ")) value
    exact (hvalue.slotted.behind (key k ++ ": ")).congr (by rw [marksBody]) fun f => by
      rw [recommentBody, layoutBody]
  | .irregular _ text => .mark (.verbatim text)

/-- Comments are no part of an array on one line. -/
theorem flatElements?_recomment (f : String → String) : ∀ es : List (Element Tree),
    flatElements? (recommentElements f es) = flatElements? es
  | [] => rfl
  | ⟨value, trivia⟩ :: rest => by
    have hvalue := ((slots_layout 0 0 value).akin f).unbroken
    rw [recomment_id] at hvalue
    simp only [recommentElements, flatElements?, hasComments_recomment, isList_recomment,
      flatElements?_recomment f rest]
    by_cases hline : Unbroken ((value.recomment f).layout 0 0) ∨ Unbroken (value.layout 0 0)
    · rw [hvalue hline]
    · rw [not_or] at hline
      simp only [(contains_iff _).mpr hline.1, (contains_iff _).mpr hline.2, if_true]

theorem slotted_flat : ∀ (es : List (Element Tree)) (texts : List String),
    flatElements? es = some texts → Slotted (marksElements es) fun _ => ", ".intercalate texts
  | [], _, h => by
    cases h
    exact .code ""
  | ⟨value, trivia⟩ :: rest, texts, h => by
    simp only [flatElements?] at h
    split at h
    · cases h
    split at h
    · cases h
    next hplain hline =>
    obtain ⟨texts, htexts, rfl⟩ := Option.map_eq_some_iff.mp h
    -- a value on one line has no comments that could change it
    have hvalue : Slotted (marks value) fun _ => value.layout 0 0 := by
      refine (slots_layout 0 0 value).slotted.congr rfl fun f => ?_
      have hakin := ((slots_layout 0 0 value).akin f).unbroken
      rw [recomment_id, contains_iff, not_not] at *
      exact (hakin (.inr hline)).symm
    have haround : trivia.around (marks value) = marks value := by
      simp only [Trivia.hasComments, Bool.or_eq_true, not_or, Bool.not_eq_true',
        Bool.not_eq_false, List.isEmpty_iff, Option.not_isSome_iff_eq_none] at hplain
      simp [Trivia.around, hplain.1.1, hplain.1.2]
    rw [marksElements, haround]
    cases texts with
    | nil =>
      refine (hvalue.append (slotted_flat rest _ htexts)).congr rfl fun f => ?_
      rw [String.intercalate_singleton, String.intercalate_nil, String.append_empty]
    | cons text texts =>
      simp only [String.intercalate_cons_cons]
      exact (hvalue.before ", ").append (slotted_flat rest _ htexts)

end

end Tree

@[simp] theorem StatementBody.recomment_id (b : StatementBody Tree) : b.recomment id = b := by
  cases b with
  | expression value => rw [StatementBody.recomment, Tree.recomment_id]
  | verbatim text => rfl

namespace Program
open Layout

theorem recomment_id (p : Program Tree) : p.recomment id = p := by
  obtain ⟨statements, dangling⟩ := p
  simp [recomment]

theorem slotted_layoutStatements (begun : Bool) (ss : List (Statement Tree)) :
    Slotted (marksStatements ss) fun f => layoutStatements begun (ss.map fun s =>
      { body := s.body.recomment f, trivia := s.trivia.recomment f }) := by
  induction ss generalizing begun with
  | nil => exact .code ""
  | cons s rest ih =>
    have hbody : Slotted s.body.marks fun f => layoutStatement
        { body := s.body.recomment f, trivia := s.trivia.recomment f } := by
      obtain ⟨value | text, trivia⟩ := s
      · exact (Tree.slots_layout 0 0 value).slotted.before ";"
      · exact .mark (.verbatim text)
    refine (slotted_line 0 begun s.trivia "" hbody (ih true)).congr (by rw [marksStatements])
      fun f => ?_
    simp only [List.map_cons, layoutStatements, String.append_empty]

/-- The comments of a script stand in its layout once, and in their order. -/
theorem slotted_layout (p : Program Tree) : Slotted p.marks fun f => (p.recomment f).layout := by
  refine ((slotted_layoutStatements false p.statements).append
    (slotted_commentLines 0 (!p.statements.isEmpty) p.dangling)).congr rfl fun f => ?_
  simp only [layout, recomment, List.isEmpty_map]

end Program

end SiteConfig
