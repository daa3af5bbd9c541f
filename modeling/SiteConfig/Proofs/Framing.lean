import SiteConfig.Proofs.Edits

/-!
Where an operand is written in the text of its expression. What is written before and behind it
does not depend on the operand: objects with a property take a line for each, and so does an array
as long as one of its elements is an array or object itself. Step by step from a statement on, the
text around a node is then found not to depend on the node.
-/

namespace SiteConfig

namespace Expr

variable {α β : Type}

/-- An array or object. -/
def isList : Expr α → Bool
  | .array .. => true
  | .object .. => true
  | _ => false

theorem isList_map (f : α → β) (e : Expr α) : (e.map f).isList = e.isList := by
  cases e <;> rfl

end Expr

namespace Tree
open Layout

theorem isList_node (position : Option Position) (e : Expr Tree) :
    (node position e).isList = e.isList := by
  cases e <;> rfl

theorem layoutElements_append (depth : Nat) (begun : Bool) (before after : List (Element Tree)) :
    layoutElements depth begun (before ++ after) =
      layoutElements depth begun before ++
        layoutElements depth (begun || !before.isEmpty) after := by
  induction before generalizing begun with
  | nil => simp [layoutElements]
  | cons e rest ih => simp [layoutElements, ih, String.append_assoc]

theorem layoutProperties_append (depth : Nat) (begun : Bool)
    (before after : List (Property Tree)) :
    layoutProperties depth begun (before ++ after) =
      layoutProperties depth begun before ++
        layoutProperties depth (begun || !before.isEmpty) after := by
  induction before generalizing begun with
  | nil => simp [layoutProperties]
  | cons p rest ih => simp [layoutProperties, ih, String.append_assoc]

theorem flatElements?_eq_none {elements : List (Element Tree)}
    (h : ∃ e ∈ elements, e.value.isList) : flatElements? elements = none := by
  induction elements with
  | nil => simp at h
  | cons e rest ih =>
    obtain ⟨value, trivia⟩ := e
    rw [flatElements?]
    by_cases hv : value.isList
    · simp [hv]
    · have hrest : ∃ e ∈ rest, e.value.isList := by
        obtain ⟨e, he, hl⟩ := h
        rcases List.mem_cons.mp he with rfl | he
        · exact absurd hl hv
        · exact ⟨e, he, hl⟩
      simp [ih hrest]

theorem layout_array_of_isList {elements : List (Element Tree)}
    (h : ∃ e ∈ elements, e.value.isList) (position : Option Position) (dangling : List Comment)
    (depth column : Nat) :
    (node position (.array elements dangling)).layout depth column =
      "[\n" ++ layoutElements (depth + 1) false elements ++
        commentLines (depth + 1) (!elements.isEmpty) dangling ++ indent depth ++ "]" := by
  cases elements with
  | nil => simp at h
  | cons e rest => simp [layout, layoutExpr, flatElements?_eq_none h]

theorem layout_object_of_ne_nil {properties : List (Property Tree)} (h : properties ≠ [])
    (position : Option Position) (dangling : List Comment) (depth column : Nat) :
    (node position (.object properties dangling)).layout depth column =
      "\x7b\n" ++ layoutProperties (depth + 1) false properties ++
        commentLines (depth + 1) true dangling ++ indent depth ++ "\x7d" := by
  cases properties with
  | nil => simp at h
  | cons p rest => simp [layout, layoutExpr]

/-- The column where the value of a property starts. -/
def valueColumn (depth : Nat) (k : PropertyKey) : Nat :=
  after (2 * depth) (key k ++ ": ")

theorem layout_right (position : Option Position) (left : Tree) (depth column : Nat) :
    ∃ before column', ∀ right : Tree, (node position (.assignment left right)).layout depth column =
      before ++ right.layout depth column' :=
  ⟨left.layout depth column ++ " = ", _, fun right => by simp [layout, layoutExpr]; rfl⟩

theorem layout_element (before after : List (Element Tree)) (trivia : Trivia)
    (dangling : List Comment) (depth column : Nat) :
    ∃ head tail, ∀ position, ∀ value : Tree, value.isList →
      (node position (.array (before ++ ⟨value, trivia⟩ :: after) dangling)).layout depth column =
        head ++ value.layout (depth + 1) (2 * (depth + 1)) ++ tail := by
  refine ⟨"[\n" ++ layoutElements (depth + 1) false before ++
      leading (depth + 1) (!before.isEmpty) trivia,
    "," ++ trailing trivia ++ "\n" ++ layoutElements (depth + 1) true after ++
      commentLines (depth + 1) true dangling ++ indent depth ++ "]", fun position value hv => ?_⟩
  have hne : (before ++ ⟨value, trivia⟩ :: after).isEmpty = false := by simp
  rw [layout_array_of_isList ⟨⟨value, trivia⟩, by simp, hv⟩, layoutElements_append, layoutElements,
    hne]
  simp [String.append_assoc]

theorem layout_property (before after : List (Property Tree)) (k : PropertyKey)
    (position' : Option Position) (trivia : Trivia) (dangling : List Comment) (depth column : Nat) :
    ∃ head tail, ∀ position, ∀ value : Tree,
      (node position (.object (before ++ ⟨.assignment k value, position', trivia⟩ :: after)
          dangling)).layout depth column =
        head ++ value.layout (depth + 1) (valueColumn (depth + 1) k) ++ tail := by
  refine ⟨"\x7b\n" ++ layoutProperties (depth + 1) false before ++
      leading (depth + 1) (!before.isEmpty) trivia ++ key k ++ ": ",
    "," ++ trailing trivia ++ "\n" ++ layoutProperties (depth + 1) true after ++
      commentLines (depth + 1) true dangling ++ indent depth ++ "\x7d", fun position value => ?_⟩
  rw [layout_object_of_ne_nil (by simp), layoutProperties_append, layoutProperties, layoutBody]
  simp [String.append_assoc, valueColumn]

/-- The line of a property behind others. -/
theorem layoutProperties_made (depth : Nat) (k : PropertyKey) (value : Tree) :
    layoutProperties depth true [.ofKey k value] =
      indent depth ++ key k ++ ": " ++ value.layout depth (valueColumn depth k) ++ ",\n" := by
  simp [layoutProperties, Property.ofKey, layoutBody, leading, commentLines, trailing,
    String.append_assoc, valueColumn]

/-- The lines of properties end with a line feed. -/
theorem layoutProperties_ends {properties : List (Property Tree)} (h : properties ≠ [])
    (depth : Nat) (begun : Bool) :
    ∃ lines, layoutProperties depth begun properties = lines ++ "\n" := by
  obtain ⟨before, p, rfl⟩ := (List.eq_nil_or_concat properties).resolve_left h
  rw [List.concat_eq_append, layoutProperties_append, layoutProperties, layoutProperties]
  exact ⟨layoutProperties depth begun before ++ (leading depth (begun || !before.isEmpty) p.trivia ++
    layoutBody depth p.body ++ "," ++ trailing p.trivia), by simp [String.append_assoc]⟩

end Tree

namespace Program
open Layout

theorem layoutStatements_append (begun : Bool) (before after : List (Statement Tree)) :
    layoutStatements begun (before ++ after) =
      layoutStatements begun before ++ layoutStatements (begun || !before.isEmpty) after := by
  induction before generalizing begun with
  | nil => simp [layoutStatements]
  | cons s rest ih => simp [layoutStatements, ih, String.append_assoc]

theorem layout_statement (before after : List (Statement Tree)) (trivia : Trivia)
    (dangling : List Comment) :
    ∃ head tail, ∀ value : Tree,
      layout { statements := before ++ ⟨.expression value, trivia⟩ :: after, dangling } =
        head ++ value.layout 0 0 ++ tail := by
  refine ⟨layoutStatements false before ++ leading 0 (!before.isEmpty) trivia,
    ";" ++ trailing trivia ++ "\n" ++ layoutStatements true after ++
      commentLines 0 true dangling, fun value => ?_⟩
  have hne : (before ++ ⟨.expression value, trivia⟩ :: after).isEmpty = false := by simp
  rw [layout, layoutStatements_append, layoutStatements, hne]
  simp [layoutStatement, String.append_assoc]

end Program

namespace Document
open Forest SiteConfig.Tree

variable {d d' : Document} {o x y : NodeId}

/-- `d'` is `d` with an array or object in the place of the expression of `o`. -/
structure Rewritten (d d' : Document) (o : NodeId) : Prop where
  program : d'.program = d.program
  acyclic : d'.forest.Acyclic
  kept : ∀ x, d.Issued x → x ≠ o → d'.forest.node x = d.forest.node x
  list : (d'.tree o).isList

theorem tree_isList (h : d.forest.Acyclic) (x : NodeId) : (d.tree x).isList = (d.expr x).isList := by
  rw [Document.tree, tree_eq h, isList_node, Expr.isList_map]
  rfl

theorem Rewritten.refl (hd : d.Sound) (h : (d.tree o).isList) : d.Rewritten d o :=
  ⟨rfl, hd.acyclic, fun _ _ _ => rfl, h⟩

theorem Rewritten.tree_of_not_below (h : d.Rewritten d' o) (hd : d.Sound) (hx : d.Issued x)
    (hxo : ¬ d.forest.Below x o) : d'.tree x = d.tree x := by
  refine tree_congr hd.acyclic h.acyclic fun y hy => ?_
  exact h.kept y (hd.below_lt hx hy) fun hyo => hxo (hyo ▸ hy)

theorem ne_of_operand (hd : d.Sound) (hy : y ∈ (d.expr x).operands) (hyo : d.forest.Below y o) :
    x ≠ o := by
  obtain ⟨rank, hr⟩ := hd.acyclic
  have hlt := hr.descends x y hy
  have hle := hyo.rank_le hr
  rintro rfl
  omega

/-- Above `o`, a look sees the same expressions. -/
theorem Rewritten.tree_above (h : d.Rewritten d' o) (hd : d.Sound) (hy : y ∈ (d.expr x).operands)
    (hyo : d.forest.Below y o) :
    d'.tree x = .node (d.forest.position x) ((d.expr x).map d'.tree) := by
  have hnode := h.kept x (index_lt_of_mem_operands hy) (ne_of_operand hd hy hyo)
  rw [Document.tree, tree_eq h.acyclic, Forest.expr, Forest.position, hnode]
  rfl

theorem Rewritten.tree_sibling (h : d.Rewritten d' o) (hd : d.Sound)
    {before after : List NodeId} (hx : (d.expr x).operands = before ++ y :: after)
    (hyo : d.forest.Below y o) {s : NodeId} (hs : s ∈ before ++ after) :
    d'.tree s = d.tree s := by
  have hsx : s ∈ (d.expr x).operands := by
    rw [hx]
    simp only [List.mem_append, List.mem_cons] at hs ⊢
    tauto
  exact h.tree_of_not_below hd (hd.operand_lt hsx)
    (hd.unshared.not_below_sibling hd.acyclic hx hs hyo)

theorem Rewritten.isList (h : d.Rewritten d' o) (hx : d.Issued x) (hl : (d.tree x).isList)
    (hd : d.Sound) : (d'.tree x).isList := by
  by_cases hxo : x = o
  · exact hxo ▸ h.list
  · have he : d'.expr x = d.expr x := congrArg Node.expr (h.kept x hx hxo)
    rwa [tree_isList h.acyclic, he, ← tree_isList hd.acyclic]

/-- The element as it is seen. -/
def elementTree (d : Document) (e : Element NodeId) : Element Tree :=
  ⟨d.tree e.value, e.trivia⟩

/-- The property as it is seen. -/
def propertyTree (d : Document) (p : Property NodeId) : Property Tree where
  body := match p.body with
    | .assignment key value => .assignment key (d.tree value)
    | .irregular shape text => .irregular shape text
  position := p.position
  trivia := p.trivia

theorem propertyTree_assignment (d : Document) (k : PropertyKey) (x : NodeId)
    (position : Option Position) (trivia : Trivia) :
    d.propertyTree ⟨.assignment k x, position, trivia⟩ =
      ⟨.assignment k (d.tree x), position, trivia⟩ := rfl

theorem map_array (d : Document) (elements : List (Element NodeId)) (dangling : List Comment) :
    (Expr.array elements dangling).map d.tree = .array (elements.map d.elementTree) dangling := rfl

theorem map_object (d : Document) (properties : List (Property NodeId)) (dangling : List Comment) :
    (Expr.object properties dangling).map d.tree =
      .object (properties.map d.propertyTree) dangling := by
  simp only [Expr.map, Expr.object.injEq, and_true]
  refine List.map_congr_left fun p _ => ?_
  simp only [propertyTree]
  cases p.body <;> rfl

theorem elements_congr {elements : List (Element NodeId)}
    (h : ∀ s ∈ elements.map (·.value), d'.tree s = d.tree s) :
    elements.map d'.elementTree = elements.map d.elementTree := by
  refine List.map_congr_left fun e he => ?_
  simp only [elementTree, h e.value (List.mem_map_of_mem he)]

theorem properties_congr {properties : List (Property NodeId)}
    (h : ∀ s ∈ properties.filterMap (·.value?), d'.tree s = d.tree s) :
    properties.map d'.propertyTree = properties.map d.propertyTree := by
  refine List.map_congr_left fun p hp => ?_
  rcases hb : p.body with ⟨key, value⟩ | ⟨shape, text⟩
  · have hv := h value (List.mem_filterMap.mpr ⟨p, hp, by simp [Property.value?, hb]⟩)
    simp only [propertyTree, hb, hv]
  · simp only [propertyTree, hb]

namespace Rewritten

variable (h : d.Rewritten d' o) (hd : d.Sound)

include h hd

/-- Only the statement that `o` lies below changes. -/
theorem toProgram {before after : List (Statement NodeId)} {s : Statement NodeId}
    (hs : d.program.statements = before ++ s :: after) (hx : s.body = .expression x)
    (hxo : d.forest.Below x o) : d'.toProgram = {
      statements := before.map d.statementTree ++ ⟨.expression (d'.tree x), s.trivia⟩ ::
        after.map d.statementTree
      dangling := d.program.dangling } := by
  have hroots : d.roots = before.filterMap (·.root?) ++ x :: after.filterMap (·.root?) := by
    simp [roots, hs, Statement.root?, hx]
  -- no other statement has a node above `o`
  have hother : ∀ t ∈ before ++ after, d'.statementTree t = d.statementTree t := by
    intro t ht
    rcases t with ⟨value | text, trivia⟩
    · have hroot : value ∈ before.filterMap (·.root?) ++ after.filterMap (·.root?) := by
        rw [← List.filterMap_append]
        exact List.mem_filterMap.mpr ⟨_, ht, rfl⟩
      have hissued : d.Issued value := by
        refine hd.issued value ?_
        rw [hroots]
        simp only [List.mem_append, List.mem_cons] at hroot ⊢
        tauto
      have hnot := (hroots ▸ hd.unshared).not_below_root hroot hxo
      simp only [statementTree, h.tree_of_not_below hd hissued hnot]
    · rfl
  have hbefore : before.map d'.statementTree = before.map d.statementTree :=
    List.map_congr_left fun t ht => hother t (List.mem_append_left _ ht)
  have hafter : after.map d'.statementTree = after.map d.statementTree :=
    List.map_congr_left fun t ht => hother t (List.mem_append_right _ ht)
  rw [Document.toProgram, h.program, hs, List.map_append, List.map_cons, hbefore, hafter]
  simp only [statementTree, hx]

/-- Only the right side of the assignment that `o` lies below changes. -/
theorem tree_right {left : NodeId} (hx : d.expr x = .assignment left y)
    (hyo : d.forest.Below y o) :
    d'.tree x = .node (d.forest.position x) (.assignment (d.tree left) (d'.tree y)) := by
  have hops : (d.expr x).operands = [left] ++ y :: [] := by simp [hx, Expr.operands]
  rw [h.tree_above hd (y := y) (by simp [hops]) hyo, hx, Expr.map,
    h.tree_sibling hd hops hyo (s := left) (by simp)]

/-- Only the element that `o` lies below changes. -/
theorem tree_element {before after : List (Element NodeId)} {e : Element NodeId}
    {dangling : List Comment} (hx : d.expr x = .array (before ++ e :: after) dangling)
    (heo : d.forest.Below e.value o) :
    d'.tree x = .node (d.forest.position x)
      (.array (before.map d.elementTree ++ d'.elementTree e :: after.map d.elementTree)
        dangling) := by
  have hops : (d.expr x).operands =
      before.map (·.value) ++ e.value :: after.map (·.value) := by simp [hx, Expr.operands]
  have hbefore : before.map d'.elementTree = before.map d.elementTree :=
    elements_congr fun s hs => h.tree_sibling hd hops heo (List.mem_append_left _ hs)
  have hafter : after.map d'.elementTree = after.map d.elementTree :=
    elements_congr fun s hs => h.tree_sibling hd hops heo (List.mem_append_right _ hs)
  rw [h.tree_above hd (y := e.value) (by simp [hops]) heo, hx, map_array, List.map_append,
    List.map_cons, hbefore, hafter]

/-- Only the value of the property that `o` lies below changes. -/
theorem tree_property {before after : List (Property NodeId)} {p : Property NodeId}
    {k : PropertyKey} {dangling : List Comment}
    (hx : d.expr x = .object (before ++ p :: after) dangling) (hp : p.body = .assignment k y)
    (hyo : d.forest.Below y o) :
    d'.tree x = .node (d.forest.position x)
      (.object (before.map d.propertyTree ++
        ⟨.assignment k (d'.tree y), p.position, p.trivia⟩ :: after.map d.propertyTree)
        dangling) := by
  have hv : p.value? = some y := by simp [Property.value?, hp]
  have hops : (d.expr x).operands =
      before.filterMap (·.value?) ++ y :: after.filterMap (·.value?) := by
    simp [hx, Expr.operands, hv]
  have hbefore : before.map d'.propertyTree = before.map d.propertyTree :=
    properties_congr fun s hs => h.tree_sibling hd hops hyo (List.mem_append_left _ hs)
  have hafter : after.map d'.propertyTree = after.map d.propertyTree :=
    properties_congr fun s hs => h.tree_sibling hd hops hyo (List.mem_append_right _ hs)
  rw [h.tree_above hd (y := y) (by simp [hops]) hyo, hx, map_object, List.map_append,
    List.map_cons, hbefore, hafter, propertyTree, hp]

end Rewritten

/-- Whatever `o` holds, `x` is written at `depth` and `column` between the same two texts. -/
def Framed (d : Document) (o : NodeId) (depth column : Nat) (x : NodeId) : Prop :=
  ∃ head tail, ∀ d', d.Rewritten d' o →
    d'.render = head ++ (d'.tree x).layout depth column ++ tail

variable {depth column : Nat}

theorem framed_root (hd : d.Sound) {before after : List (Statement NodeId)}
    {s : Statement NodeId} (hs : d.program.statements = before ++ s :: after)
    (hx : s.body = .expression x) (hxo : d.forest.Below x o) : d.Framed o 0 0 x := by
  obtain ⟨head, tail, h⟩ := Program.layout_statement (before.map d.statementTree)
    (after.map d.statementTree) s.trivia d.program.dangling
  refine ⟨head, tail, fun d' hr => ?_⟩
  rw [render, hr.toProgram hd hs hx hxo, h]

theorem Framed.right (h : d.Framed o depth column x) (hd : d.Sound) {left : NodeId}
    (hx : d.expr x = .assignment left y) (hyo : d.forest.Below y o) :
    ∃ column', d.Framed o depth column' y := by
  obtain ⟨head, tail, h⟩ := h
  obtain ⟨before, column', hl⟩ :=
    layout_right (d.forest.position x) (d.tree left) depth column
  refine ⟨column', head ++ before, tail, fun d' hr => ?_⟩
  rw [h d' hr, hr.tree_right hd hx hyo, hl]
  simp only [String.append_assoc]

theorem Framed.element (h : d.Framed o depth column x) (hd : d.Sound)
    {before after : List (Element NodeId)} {e : Element NodeId} {dangling : List Comment}
    (hx : d.expr x = .array (before ++ e :: after) dangling) (he : (d.tree e.value).isList)
    (heo : d.forest.Below e.value o) :
    d.Framed o (depth + 1) (2 * (depth + 1)) e.value := by
  obtain ⟨head, tail, h⟩ := h
  obtain ⟨head', tail', hl⟩ := layout_element (before.map d.elementTree)
    (after.map d.elementTree) e.trivia dangling depth column
  refine ⟨head ++ head', tail' ++ tail, fun d' hr => ?_⟩
  have hmem : e.value ∈ (d.expr x).operands := by simp [hx, Expr.operands]
  rw [h d' hr, hr.tree_element hd hx heo, elementTree,
    hl _ _ (hr.isList (hd.operand_lt hmem) he hd)]
  simp only [String.append_assoc]

theorem Framed.property (h : d.Framed o depth column x) (hd : d.Sound)
    {before after : List (Property NodeId)} {p : Property NodeId} {k : PropertyKey}
    {dangling : List Comment} (hx : d.expr x = .object (before ++ p :: after) dangling)
    (hp : p.body = .assignment k y) (hyo : d.forest.Below y o) :
    d.Framed o (depth + 1) (valueColumn (depth + 1) k) y := by
  obtain ⟨head, tail, h⟩ := h
  obtain ⟨head', tail', hl⟩ := layout_property (before.map d.propertyTree)
    (after.map d.propertyTree) k p.position p.trivia dangling depth column
  refine ⟨head ++ head', tail' ++ tail, fun d' hr => ?_⟩
  rw [h d' hr, hr.tree_property hd hx hp hyo, hl]
  simp only [String.append_assoc]

end Document

end SiteConfig
