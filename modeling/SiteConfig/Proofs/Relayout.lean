import SiteConfig.Proofs.Rows

/-!
What a layout shows has that layout again.
-/

namespace SiteConfig

/-- A text on one line. -/
def Unbroken (s : String) : Prop :=
  '\n' ∉ s.toList

@[simp] theorem unbroken_append (s t : String) : Unbroken (s ++ t) ↔ Unbroken s ∧ Unbroken t := by
  simp [Unbroken, String.toList_append]

theorem contains_iff (s : String) : s.toList.contains '\n' = true ↔ ¬Unbroken s := by
  simp [Unbroken]

namespace Tree
open Layout

variable {f : Bool → Bool}

theorem isList_stripped (t : Tree) : (t.stripped f).isList = t.isList := by
  obtain ⟨position, e⟩ := t
  cases e <;> rfl

theorem hasComments_flagged (t : Trivia) : (t.flagged f).hasComments = t.hasComments := by
  simp [Trivia.hasComments, Trivia.flagged]

theorem flat?_flagged (column : Nat) (dangling : List Comment) :
    flat? column (dangling.map (.flagged f)) = flat? column dangling := by
  funext texts
  simp [flat?]

theorem strippedElements_eq_nil {elements : List (Element Tree)} :
    strippedElements f elements = [] ↔ elements = [] := by
  cases elements <;> simp [strippedElements]

theorem strippedProperties_eq_nil {properties : List (Property Tree)} :
    strippedProperties f properties = [] ↔ properties = [] := by
  cases properties <;> simp [strippedProperties]

/-- No change of the flags is seen: there is none, or one of the texts has a single line. -/
def Unseen (f : Bool → Bool) (s t : String) : Prop :=
  f = id ∨ Unbroken s ∨ Unbroken t

theorem Unseen.left {s s' t t' : String} (h : Unseen f (s ++ t) (s' ++ t')) : Unseen f s s' := by
  simp only [Unseen, unbroken_append] at h ⊢
  exact h.imp_right (Or.imp And.left And.left)

theorem Unseen.right {s s' t t' : String} (h : Unseen f (s ++ t) (s' ++ t')) : Unseen f t t' := by
  simp only [Unseen, unbroken_append] at h ⊢
  exact h.imp_right (Or.imp And.right And.right)

theorem isEmpty_strippedElements (elements : List (Element Tree)) :
    (strippedElements f elements).isEmpty = elements.isEmpty := by
  cases elements <;> rfl

theorem isEmpty_strippedProperties (properties : List (Property Tree)) :
    (strippedProperties f properties).isEmpty = properties.isEmpty := by
  cases properties <;> rfl

section Lists

variable {depth column : Nat} {dangling : List Comment}

/-- An array, given that its elements are laid out the same. -/
theorem layout_array_stripped {elements : List (Element Tree)}
    (hflat : flatElements? (strippedElements f elements) = flatElements? elements)
    (hlines : f = id → layoutElements (depth + 1) false (strippedElements f elements) =
      layoutElements (depth + 1) false elements)
    (h : Unseen f (layoutExpr depth column (.array elements dangling))
      (layoutExpr depth column (strippedExpr f (.array elements dangling)))) :
    layoutExpr depth column (strippedExpr f (.array elements dangling)) =
      layoutExpr depth column (.array elements dangling) := by
  by_cases hnil : elements = [] ∧ dangling = []
  · obtain ⟨rfl, rfl⟩ := hnil
    rw [strippedExpr, strippedElements, List.map_nil]
  have hnil' : ¬(strippedElements f elements = [] ∧ dangling.map (Comment.flagged f) = []) := by
    rwa [strippedElements_eq_nil, List.map_eq_nil_iff]
  rw [strippedExpr, layoutExpr_array hnil, layoutExpr_array hnil', hflat, flat?_flagged] at h ⊢
  cases hline : (flatElements? elements).bind (flat? column dangling) with
  | some flat => rfl
  | none =>
    rw [hline] at h
    -- lines are broken here, so `f` must keep the blank ones
    rcases h with hf | h
    · simp only [hlines hf, isEmpty_strippedElements]
      rw [hf, Comment.map_flagged_id]
    · simp [Unbroken] at h

/-- An object, given that its members are laid out the same. -/
theorem layout_object_stripped {properties : List (Property Tree)}
    (hlines : f = id → layoutProperties (depth + 1) false (strippedProperties f properties) =
      layoutProperties (depth + 1) false properties)
    (h : Unseen f (layoutExpr depth column (.object properties dangling))
      (layoutExpr depth column (strippedExpr f (.object properties dangling)))) :
    layoutExpr depth column (strippedExpr f (.object properties dangling)) =
      layoutExpr depth column (.object properties dangling) := by
  by_cases hnil : properties = [] ∧ dangling = []
  · obtain ⟨rfl, rfl⟩ := hnil
    rw [strippedExpr, strippedProperties, List.map_nil]
  have hnil' : ¬(strippedProperties f properties = [] ∧
      dangling.map (Comment.flagged f) = []) := by
    rwa [strippedProperties_eq_nil, List.map_eq_nil_iff]
  rw [strippedExpr, layoutExpr_object hnil, layoutExpr_object hnil'] at h ⊢
  rcases h with hf | h
  · simp only [hlines hf, isEmpty_strippedProperties]
    rw [hf, Comment.map_flagged_id]
  · simp [Unbroken] at h

end Lists

mutual

/-- Positions are not seen, and on one line no blank lines are. -/
theorem layout_stripped (depth column : Nat) : ∀ t : Tree,
    Unseen f (t.layout depth column) ((t.stripped f).layout depth column) →
    (t.stripped f).layout depth column = t.layout depth column
  | .node _ e => by
    intro h
    rw [stripped, layout, layout] at h ⊢
    exact layoutExpr_stripped depth column e h

theorem layoutExpr_stripped (depth column : Nat) : ∀ e : Expr Tree,
    Unseen f (layoutExpr depth column e) (layoutExpr depth column (strippedExpr f e)) →
    layoutExpr depth column (strippedExpr f e) = layoutExpr depth column e
  | .string _ => fun _ => by rw [strippedExpr]
  | .boolean _ => fun _ => by rw [strippedExpr]
  | .identifier _ => fun _ => by rw [strippedExpr]
  | .verbatim _ => fun _ => by rw [strippedExpr]
  | .member object property => by
    intro h
    rw [strippedExpr, layoutExpr, layoutExpr] at h ⊢
    rw [layout_stripped depth column object h.left.left]
  | .assignment left right => by
    intro h
    simp only [strippedExpr, layoutExpr] at h ⊢
    have hleft := layout_stripped depth column left h.left.left
    rw [hleft] at h ⊢
    rw [layout_stripped _ _ right h.right]
  | .call callee arguments => by
    intro h
    simp only [strippedExpr, layoutExpr] at h ⊢
    have hcallee := layout_stripped depth column callee h.left.left.left
    rw [hcallee] at h ⊢
    rw [layoutArguments_stripped _ _ arguments h.left.right]
  | .array elements dangling =>
    layout_array_stripped (flatElements?_stripped elements)
      fun hf => layoutElements_stripped hf (depth + 1) false elements
  | .object properties dangling =>
    layout_object_stripped fun hf => layoutProperties_stripped hf (depth + 1) false properties

theorem layoutArguments_stripped (depth column : Nat) : ∀ arguments : List Tree,
    Unseen f (layoutArguments depth column arguments)
      (layoutArguments depth column (strippedArguments f arguments)) →
    layoutArguments depth column (strippedArguments f arguments) =
      layoutArguments depth column arguments
  | [] => fun _ => by rw [strippedArguments]
  | [t] => by
    intro h
    rw [strippedArguments, strippedArguments, layoutArguments, layoutArguments] at h ⊢
    exact layout_stripped depth column t h
  | t :: t' :: rest => by
    intro h
    simp only [strippedArguments, layoutArguments] at h ⊢
    have hfirst := layout_stripped depth column t h.left.left
    rw [hfirst] at h ⊢
    have hrest := layoutArguments_stripped depth (after column (t.layout depth column ++ ", "))
      (t' :: rest)
    rw [strippedArguments] at hrest
    rw [hrest h.right]

theorem flatElements?_stripped : ∀ elements : List (Element Tree),
    flatElements? (strippedElements f elements) = flatElements? elements
  | [] => by rw [strippedElements]
  | ⟨value, trivia⟩ :: rest => by
    have hvalue := layout_stripped 0 0 value
    simp only [strippedElements, flatElements?, hasComments_flagged, isList_stripped,
      flatElements?_stripped rest]
    by_cases hline : Unbroken (value.layout 0 0) ∨ Unbroken ((value.stripped f).layout 0 0)
    · rw [hvalue (.inr hline)]
    · rw [not_or] at hline
      simp only [(contains_iff _).mpr hline.1, (contains_iff _).mpr hline.2, if_true]

theorem layoutElements_stripped (hf : f = id) (depth : Nat) (begun : Bool) :
    ∀ elements : List (Element Tree),
    layoutElements depth begun (strippedElements f elements) = layoutElements depth begun elements
  | [] => by rw [strippedElements]
  | ⟨value, trivia⟩ :: rest => by
    rw [strippedElements, layoutElements, layoutElements, layout_stripped _ _ value (.inl hf),
      layoutElements_stripped hf _ _ rest, hf, Trivia.flagged_id]

theorem layoutProperties_stripped (hf : f = id) (depth : Nat) (begun : Bool) :
    ∀ properties : List (Property Tree),
    layoutProperties depth begun (strippedProperties f properties) =
      layoutProperties depth begun properties
  | [] => by rw [strippedProperties]
  | ⟨.assignment k value, _, trivia⟩ :: rest => by
    rw [strippedProperties, strippedBody, layoutProperties, layoutProperties, layoutBody,
      layoutBody, layout_stripped _ _ value (.inl hf), layoutProperties_stripped hf _ _ rest, hf,
      Trivia.flagged_id]
  | ⟨.irregular _ _, _, trivia⟩ :: rest => by
    rw [strippedProperties, strippedBody, layoutProperties, layoutProperties,
      layoutProperties_stripped hf _ _ rest, hf, Trivia.flagged_id]

end

/-! What is shown differs in blank lines only. -/

theorem flagged_false_shown (begun : Bool) (comments : List Comment) :
    (Comment.shown begun comments).map (Comment.flagged fun _ => false) =
      comments.map (Comment.flagged fun _ => false) := by
  cases comments <;> rfl

theorem flagged_false_shown_trivia (begun : Bool) (t : Trivia) :
    (t.shown begun).flagged (fun _ => false) = t.flagged fun _ => false := by
  rw [Trivia.flagged, Trivia.flagged, Trivia.shown, flagged_false_shown]

mutual

/-- But for blank lines the whole tree is shown. -/
theorem stripped_shown (depth column : Nat) : ∀ t : Tree,
    (t.shown depth column).stripped (fun _ => false) = t.stripped fun _ => false
  | .node _ e => by
    rw [shown, stripped, stripped, strippedExpr_shown depth column e]

theorem strippedExpr_shown (depth column : Nat) : ∀ e : Expr Tree,
    strippedExpr (fun _ => false) (shownExpr depth column e) = strippedExpr (fun _ => false) e
  | .string _ => by rw [shownExpr]
  | .boolean _ => by rw [shownExpr]
  | .identifier _ => by rw [shownExpr]
  | .verbatim _ => by rw [shownExpr]
  | .member object property => by
    rw [shownExpr, strippedExpr, strippedExpr, stripped_shown _ _ object]
  | .assignment left right => by
    rw [shownExpr, strippedExpr, strippedExpr, stripped_shown _ _ left, stripped_shown _ _ right]
  | .call callee arguments => by
    rw [shownExpr, strippedExpr, strippedExpr, stripped_shown _ _ callee,
      strippedArguments_shown _ _ arguments]
  | .array elements dangling => by
    rw [shownExpr, strippedExpr]
    cases (flatElements? elements).bind (flat? column dangling) with
    | some flat => simp only [strippedExpr, strippedElements_shownFlat elements]
    | none => simp only [strippedExpr, strippedElements_shown _ _ elements, flagged_false_shown]
  | .object properties dangling => by
    rw [shownExpr, strippedExpr, strippedExpr, strippedProperties_shown _ _ properties,
      flagged_false_shown]

theorem strippedArguments_shown (depth column : Nat) : ∀ arguments : List Tree,
    strippedArguments (fun _ => false) (shownArguments depth column arguments) =
      strippedArguments (fun _ => false) arguments
  | [] => by rw [shownArguments]
  | t :: rest => by
    rw [shownArguments, strippedArguments, strippedArguments, stripped_shown _ _ t,
      strippedArguments_shown _ _ rest]

theorem strippedElements_shownFlat : ∀ elements : List (Element Tree),
    strippedElements (fun _ => false) (shownFlat elements) =
      strippedElements (fun _ => false) elements
  | [] => by rw [shownFlat]
  | ⟨value, trivia⟩ :: rest => by
    rw [shownFlat, strippedElements, strippedElements, stripped_shown _ _ value,
      strippedElements_shownFlat rest]
    rfl

theorem strippedElements_shown (depth : Nat) (begun : Bool) : ∀ elements : List (Element Tree),
    strippedElements (fun _ => false) (shownElements depth begun elements) =
      strippedElements (fun _ => false) elements
  | [] => by rw [shownElements]
  | ⟨value, trivia⟩ :: rest => by
    rw [shownElements, strippedElements, strippedElements, stripped_shown _ _ value,
      strippedElements_shown _ _ rest, flagged_false_shown_trivia]

theorem strippedProperties_shown (depth : Nat) (begun : Bool) :
    ∀ properties : List (Property Tree),
    strippedProperties (fun _ => false) (shownProperties depth begun properties) =
      strippedProperties (fun _ => false) properties
  | [] => by rw [shownProperties]
  | ⟨body, _, trivia⟩ :: rest => by
    rw [shownProperties, strippedProperties, strippedProperties, strippedBody_shown _ body,
      strippedProperties_shown _ _ rest, flagged_false_shown_trivia]

theorem strippedBody_shown (depth : Nat) : ∀ body : PropertyBody Tree,
    strippedBody (fun _ => false) (shownBody depth body) = strippedBody (fun _ => false) body
  | .assignment k value => by
    rw [shownBody, strippedBody, strippedBody, stripped_shown _ _ value]
  | .irregular _ _ => by rw [shownBody]

end

/-! The layout of what is shown. -/

theorem isEmpty_shownElements (depth : Nat) (begun : Bool) (elements : List (Element Tree)) :
    (shownElements depth begun elements).isEmpty = elements.isEmpty := by
  cases elements <;> simp [shownElements]

theorem isEmpty_shownProperties (depth : Nat) (begun : Bool) (properties : List (Property Tree)) :
    (shownProperties depth begun properties).isEmpty = properties.isEmpty := by
  cases properties <;> simp [shownProperties]

theorem commentLines_shown (depth : Nat) (begun : Bool) (comments : List Comment) :
    commentLines depth begun (Comment.shown begun comments) =
      commentLines depth begun comments := by
  cases comments with
  | nil => rfl
  | cons c rest =>
    rw [Comment.shown, commentLines, commentLines, commentLine, commentLine, Bool.and_assoc,
      Bool.and_self]

theorem leading_shown (depth : Nat) (begun : Bool) (t : Trivia) :
    leading depth begun (t.shown begun) = leading depth begun t := by
  have hempty : (Comment.shown begun t.leading).isEmpty = t.leading.isEmpty := by
    cases t.leading <;> rfl
  rw [leading, leading, Trivia.shown, commentLines_shown, hempty, Bool.and_assoc, Bool.and_self]

theorem flatElements?_shown (elements : List (Element Tree)) {elements' : List (Element Tree)}
    (h : strippedElements (fun _ => false) elements' = strippedElements (fun _ => false) elements) :
    flatElements? elements' = flatElements? elements := by
  rw [← flatElements?_stripped (f := fun _ => false), h, flatElements?_stripped]

section Lists

variable {depth : Nat} (column : Nat) (dangling : List Comment)

/-- An array, given that its elements have their layout again. -/
theorem layout_array_shown {elements : List (Element Tree)}
    (hlines : layoutElements (depth + 1) false (shownElements (depth + 1) false elements) =
      layoutElements (depth + 1) false elements) :
    layoutExpr depth column (shownExpr depth column (.array elements dangling)) =
      layoutExpr depth column (.array elements dangling) := by
  by_cases hnil : elements = [] ∧ dangling = []
  · obtain ⟨rfl, rfl⟩ := hnil
    rw [shownExpr]
    cases (flatElements? []).bind (flat? column []) <;>
      simp [shownFlat, shownElements, Comment.shown]
  rw [shownExpr]
  cases hflat : (flatElements? elements).bind (flat? column dangling) with
  | some flat =>
    have hnil' : ¬(shownFlat elements = [] ∧ dangling = []) := by
      cases elements with
      | nil => simpa [shownFlat] using hnil
      | cons => simp [shownFlat]
    simp only [layoutExpr_array hnil, layoutExpr_array hnil',
      flatElements?_shown elements (strippedElements_shownFlat elements), hflat]
  | none =>
    have hnil' : ¬(shownElements (depth + 1) false elements = [] ∧
        Comment.shown (!elements.isEmpty) dangling = []) := by
      cases elements <;> cases dangling <;> simp [shownElements, Comment.shown] at hnil ⊢
    -- whether there are comments before the bracket is shown, whatever their blank lines
    have hflat' : flat? column (Comment.shown (!elements.isEmpty) dangling) =
        flat? column dangling := by
      cases dangling <;> rfl
    simp only [layoutExpr_array hnil, layoutExpr_array hnil', hflat', hflat,
      flatElements?_shown elements (strippedElements_shown (depth + 1) false elements), hlines,
      isEmpty_shownElements, commentLines_shown]

/-- An object, given that its members have their layout again. -/
theorem layout_object_shown {properties : List (Property Tree)}
    (hlines : layoutProperties (depth + 1) false (shownProperties (depth + 1) false properties) =
      layoutProperties (depth + 1) false properties) :
    layoutExpr depth column (shownExpr depth column (.object properties dangling)) =
      layoutExpr depth column (.object properties dangling) := by
  by_cases hnil : properties = [] ∧ dangling = []
  · obtain ⟨rfl, rfl⟩ := hnil
    rw [shownExpr, shownProperties, Comment.shown]
  have hnil' : ¬(shownProperties (depth + 1) false properties = [] ∧
      Comment.shown (!properties.isEmpty) dangling = []) := by
    cases properties <;> cases dangling <;> simp [shownProperties, Comment.shown] at hnil ⊢
  rw [shownExpr, layoutExpr_object hnil, layoutExpr_object hnil', hlines, isEmpty_shownProperties,
    commentLines_shown]

end Lists

mutual

/-- What is shown has the same layout again. -/
theorem layout_shown (depth column : Nat) : ∀ t : Tree,
    (t.shown depth column).layout depth column = t.layout depth column
  | .node _ e => by
    rw [shown, layout, layout, layoutExpr_shown depth column e]

theorem layoutExpr_shown (depth column : Nat) : ∀ e : Expr Tree,
    layoutExpr depth column (shownExpr depth column e) = layoutExpr depth column e
  | .string _ => by rw [shownExpr]
  | .boolean _ => by rw [shownExpr]
  | .identifier _ => by rw [shownExpr]
  | .verbatim _ => by rw [shownExpr]
  | .member object property => by
    rw [shownExpr, layoutExpr, layoutExpr, layout_shown _ _ object]
  | .assignment left right => by
    simp only [shownExpr, layoutExpr, layout_shown _ _ left, layout_shown _ _ right]
  | .call callee arguments => by
    simp only [shownExpr, layoutExpr, layout_shown _ _ callee, layoutArguments_shown _ _ arguments]
  | .array elements dangling =>
    layout_array_shown column dangling (layoutElements_shown (depth + 1) false elements)
  | .object properties dangling =>
    layout_object_shown column dangling (layoutProperties_shown (depth + 1) false properties)

theorem layoutArguments_shown (depth column : Nat) : ∀ arguments : List Tree,
    layoutArguments depth column (shownArguments depth column arguments) =
      layoutArguments depth column arguments
  | [] => by rw [shownArguments]
  | [t] => by
    rw [shownArguments, shownArguments, layoutArguments, layoutArguments, layout_shown _ _ t]
  | t :: t' :: rest => by
    have hrest := layoutArguments_shown depth (after column (t.layout depth column ++ ", "))
      (t' :: rest)
    rw [shownArguments] at hrest ⊢
    rw [shownArguments]
    simp only [layoutArguments, layout_shown _ _ t, hrest]

theorem layoutElements_shown (depth : Nat) (begun : Bool) : ∀ elements : List (Element Tree),
    layoutElements depth begun (shownElements depth begun elements) =
      layoutElements depth begun elements
  | [] => by rw [shownElements]
  | ⟨value, trivia⟩ :: rest => by
    rw [shownElements, layoutElements, layoutElements, layout_shown _ _ value, leading_shown,
      layoutElements_shown _ _ rest]
    rfl

theorem layoutProperties_shown (depth : Nat) (begun : Bool) :
    ∀ properties : List (Property Tree),
    layoutProperties depth begun (shownProperties depth begun properties) =
      layoutProperties depth begun properties
  | [] => by rw [shownProperties]
  | ⟨body, _, trivia⟩ :: rest => by
    rw [shownProperties, layoutProperties, layoutProperties, layoutBody_shown _ body,
      leading_shown, layoutProperties_shown _ _ rest]
    rfl

theorem layoutBody_shown (depth : Nat) : ∀ body : PropertyBody Tree,
    layoutBody depth (shownBody depth body) = layoutBody depth body
  | .assignment k value => by
    simp only [shownBody, layoutBody, layout_shown _ _ value]
  | .irregular _ _ => by rw [shownBody]

end

end Tree

namespace Program
open Layout SiteConfig.Tree

theorem layoutStatements_unplaced (begun : Bool) (statements : List (Statement Tree)) :
    layoutStatements begun (statements.map (strippedStatement id)) =
      layoutStatements begun statements := by
  induction statements generalizing begun with
  | nil => rfl
  | cons s rest ih =>
    have hbody : layoutStatement (strippedStatement id s) = layoutStatement s := by
      obtain ⟨value | text, trivia⟩ := s
      · simp only [layoutStatement, strippedStatement, strippedBody]
        rw [layout_stripped 0 0 value (.inl rfl)]
      · rfl
    have htrivia : (strippedStatement id s).trivia = s.trivia := Trivia.flagged_id _
    rw [List.map_cons, layoutStatements, layoutStatements, hbody, htrivia, ih]

/-- Positions are not seen. -/
theorem layout_unplaced (p : Program Tree) : p.unplaced.layout = p.layout := by
  rw [unplaced, stripped, layout, layout, layoutStatements_unplaced, Comment.map_flagged_id,
    List.isEmpty_map]

theorem layoutStatements_shown (begun : Bool) (statements : List (Statement Tree)) :
    layoutStatements begun (shownStatements begun statements) =
      layoutStatements begun statements := by
  induction statements generalizing begun with
  | nil => rfl
  | cons s rest ih =>
    have hbody : ∀ trivia, layoutStatement { body := shownBody s.body, trivia } =
        layoutStatement s := by
      intro trivia
      obtain ⟨value | text, trivia⟩ := s
      · simp only [layoutStatement, shownBody, Tree.layout_shown]
      · rfl
    rw [shownStatements, layoutStatements, layoutStatements, hbody, leading_shown, ih]
    rfl

/-- What is shown of a script has its layout again. -/
theorem layout_shown (p : Program Tree) : p.shown.layout = p.layout := by
  have hempty : (shownStatements false p.statements).isEmpty = p.statements.isEmpty := by
    cases p.statements <;> rfl
  rw [shown, layout, layout, layoutStatements_shown, hempty, commentLines_shown]

theorem strippedStatements_shown (begun : Bool) (statements : List (Statement Tree)) :
    (shownStatements begun statements).map (strippedStatement fun _ => false) =
      statements.map (strippedStatement fun _ => false) := by
  induction statements generalizing begun with
  | nil => rfl
  | cons s rest ih =>
    have hbody : strippedBody (fun _ => false) (shownBody s.body) =
        strippedBody (fun _ => false) s.body := by
      cases s.body with
      | expression value => simp only [shownBody, strippedBody, stripped_shown]
      | verbatim text => rfl
    rw [shownStatements, List.map_cons, List.map_cons, ih, strippedStatement, strippedStatement,
      hbody, flagged_false_shown_trivia]

/-- But for blank lines the whole script is shown. -/
theorem unspaced_shown (p : Program Tree) : p.shown.unspaced = p.unspaced := by
  rw [unspaced, unspaced, stripped, stripped, shown, strippedStatements_shown, flagged_false_shown]

end Program

end SiteConfig
