import SiteConfig.Proofs.Framing
import SiteConfig.Proofs.Unaltered

/-!
An edit that is made shows in one place of the text. The plugin list of a session is reached from
one statement through expressions that no edit changes, and what an edit changes lies below it.
-/

namespace SiteConfig

/-- Two texts are alike but for `old` in one place and `new` in the other. -/
def Replaced (before after old new : String) : Prop :=
  ∃ head tail, before = head ++ old ++ tail ∧ after = head ++ new ++ tail

namespace Document
open Forest SiteConfig.Tree Layout

variable {d d' : Document} {o x y : NodeId} {t : Tree} {e : NodeId → Expr NodeId}
  {depth column : Nat}

theorem tree_of_expr (hd : d.Sound) (x : NodeId) :
    d.tree x = .node (d.forest.position x) ((d.expr x).map d.tree) :=
  tree_eq hd.acyclic x

section Graft

variable (hd : d.Sound) (ho : d.Issued o)
  (he : ∀ v, Grafted (d.expr o).operands (e v).operands v)

include hd ho he

/-- What lies not above a node is as it was when something is grafted to the node. -/
theorem Unaltered.graft (hx : d.Issued x) (hxo : ¬ d.forest.Below x o) :
    Unaltered d (d.graft o t e) x where
  path := rfl
  acyclic := hd.acyclic
  acyclic' := (hd.graft ho t he).acyclic
  kept y hy := by
    have hyo : y ≠ o := fun hyo => hxo (hyo ▸ hy)
    exact (node_set_ne _ hyo).trans ((planted d.forest t).old y (hd.below_lt hx hy))

theorem Unaltered.graft_operand {s : NodeId} (hs : s ∈ (d.expr o).operands) :
    Unaltered d (d.graft o t e) s :=
  .graft hd ho he (hd.operand_lt hs) fun hso => ne_of_operand hd hs hso rfl

theorem tree_graft_operand {s : NodeId} (hs : s ∈ (d.expr o).operands) :
    (d.graft o t e).tree s = d.tree s :=
  (Unaltered.graft_operand hd ho he hs).tree

theorem tree_graft_new : (d.graft o t e).tree (d.plant t).1 = t := by
  refine (hd.tree_grafted (planted d.forest t) ho (he _)).trans ?_
  exact tree_plant d.forest t

theorem tree_graft_self :
    (d.graft o t e).tree o =
      .node (d.forest.position o) ((e (d.plant t).1).map (d.graft o t e).tree) := by
  have hself := expr_graft ho t e
  have hposition : (d.graft o t e).forest.position o = d.forest.position o :=
    (position_set o o _).trans (congrArg Node.position ((planted d.forest t).old o ho))
  rw [Document.tree, tree_eq (hd.graft ho t he).acyclic, hposition, ← hself]
  rfl

theorem rewritten_graft (hl : (e (d.plant t).1).isList) : d.Rewritten (d.graft o t e) o where
  program := rfl
  acyclic := (hd.graft ho t he).acyclic
  kept x hx hxo := (node_set_ne _ hxo).trans ((planted d.forest t).old x hx)
  list := by
    rwa [tree_graft_self hd ho he, isList_node, Expr.isList_map]

/-- The text around a list is the same before and after something is grafted to the list. -/
theorem Framed.grafted (h : d.Framed o depth column o) (hlist : (d.expr o).isList)
    (hl : (e (d.plant t).1).isList) : ∃ head tail,
      d.render = head ++
        (node (d.forest.position o) ((d.expr o).map d.tree)).layout depth column ++ tail ∧
      (d.graft o t e).render = head ++
        (node (d.forest.position o) ((e (d.plant t).1).map (d.graft o t e).tree)).layout
          depth column ++ tail := by
  obtain ⟨head, tail, h⟩ := h
  refine ⟨head, tail, ?_, ?_⟩
  · rw [h d (.refl hd (by rwa [tree_isList hd.acyclic])), tree_of_expr hd]
  · rw [h _ (rewritten_graft hd ho he hl), tree_graft_self hd ho he]

end Graft

/-- An element of an array is replaced. -/
theorem Framed.replaced_element (h : d.Framed o depth column o) (hd : d.Sound)
    {before after : List (Element NodeId)} {el : Element NodeId} {dangling : List Comment}
    (hx : d.expr o = .array (before ++ el :: after) dangling) (hold : (d.tree el.value).isList)
    (hnew : t.isList) :
    Replaced d.render
      (d.graft o t fun v => .array (before ++ { el with value := v } :: after) dangling).render
      ((d.tree el.value).layout (depth + 1) (2 * (depth + 1)))
      (t.layout (depth + 1) (2 * (depth + 1))) := by
  have hops : (d.expr o).operands =
      before.map (·.value) ++ el.value :: after.map (·.value) := by simp [hx, Expr.operands]
  have hmem : el.value ∈ (d.expr o).operands := by simp [hops]
  have ho : d.Issued o := index_lt_of_mem_operands hmem
  have hg : ∀ v, Grafted (d.expr o).operands
      (Expr.array (before ++ { el with value := v } :: after) dangling).operands v :=
    fun v => ⟨before.map (·.value), [el.value], after.map (·.value), by simp [hops],
      by simp [Expr.operands]⟩
  -- the other elements lie beside the graft
  have hside : ∀ s ∈ before.map (·.value) ++ after.map (·.value),
      (d.graft o t fun v =>
        .array (before ++ { el with value := v } :: after) dangling).tree s = d.tree s := by
    intro s hs
    refine tree_graft_operand hd ho hg ?_
    rw [hops]
    simp only [List.mem_append, List.mem_cons] at hs ⊢
    tauto
  obtain ⟨head, tail, hbefore, hafter⟩ := h.grafted hd ho hg (t := t) (by rw [hx]; rfl) rfl
  obtain ⟨head', tail', hl⟩ := layout_element (before.map d.elementTree)
    (after.map d.elementTree) el.trivia dangling depth column
  refine ⟨head ++ head', tail' ++ tail, ?_, ?_⟩
  · rw [hbefore, hx, map_array, List.map_append, List.map_cons, elementTree, hl _ _ hold]
    simp only [String.append_assoc]
  · rw [hafter, map_array, List.map_append, List.map_cons,
      elements_congr fun s hs => hside s (List.mem_append_left _ hs),
      elements_congr fun s hs => hside s (List.mem_append_right _ hs), elementTree,
      tree_graft_new hd ho hg, hl _ _ hnew]
    simp only [String.append_assoc]

/-- The value of a property is replaced. -/
theorem Framed.replaced_property (h : d.Framed o depth column o) (hd : d.Sound)
    {before after : List (Property NodeId)} {p : Property NodeId} {k : PropertyKey}
    {dangling : List Comment} (hx : d.expr o = .object (before ++ p :: after) dangling)
    (hp : p.body = .assignment k y) :
    Replaced d.render
      (d.graft o t fun v =>
        .object (before ++ { p with body := .assignment k v } :: after) dangling).render
      ((d.tree y).layout (depth + 1) (valueColumn (depth + 1) k))
      (t.layout (depth + 1) (valueColumn (depth + 1) k)) := by
  have hv : p.value? = some y := by simp [Property.value?, hp]
  have hops : (d.expr o).operands =
      before.filterMap (·.value?) ++ y :: after.filterMap (·.value?) := by
    simp [hx, Expr.operands, hv]
  have hmem : y ∈ (d.expr o).operands := by simp [hops]
  have ho : d.Issued o := index_lt_of_mem_operands hmem
  have hg : ∀ v, Grafted (d.expr o).operands
      (Expr.object (before ++ { p with body := .assignment k v } :: after) dangling).operands v :=
    fun v => ⟨before.filterMap (·.value?), [y], after.filterMap (·.value?), by simp [hops],
      by simp [Expr.operands, Property.value?]⟩
  -- the other values lie beside the graft
  have hside : ∀ s ∈ before.filterMap (·.value?) ++ after.filterMap (·.value?),
      (d.graft o t fun v =>
        .object (before ++ { p with body := .assignment k v } :: after) dangling).tree s =
          d.tree s := by
    intro s hs
    refine tree_graft_operand hd ho hg ?_
    rw [hops]
    simp only [List.mem_append, List.mem_cons] at hs ⊢
    tauto
  obtain ⟨head, tail, hbefore, hafter⟩ := h.grafted hd ho hg (t := t) (by rw [hx]; rfl) rfl
  obtain ⟨head', tail', hl⟩ := layout_property (before.map d.propertyTree)
    (after.map d.propertyTree) k p.position p.trivia dangling depth column
  refine ⟨head ++ head', tail' ++ tail, ?_, ?_⟩
  · rw [hbefore, hx, map_object, List.map_append, List.map_cons, propertyTree, hp, hl]
    simp only [String.append_assoc]
  · rw [hafter, map_object, List.map_append, List.map_cons,
      properties_congr fun s hs => hside s (List.mem_append_left _ hs),
      properties_congr fun s hs => hside s (List.mem_append_right _ hs), propertyTree_assignment,
      tree_graft_new hd ho hg, hl]
    simp only [String.append_assoc]

/-- A property is added behind the last one, before the comments that follow it. -/
theorem Framed.added_property (h : d.Framed o depth column o) (hd : d.Sound)
    {properties : List (Property NodeId)} {dangling : List Comment}
    (hx : d.expr o = .object properties dangling) (hne : properties ≠ []) (k : PropertyKey) :
    ∃ head tail,
      d.render = head ++ layoutProperties (depth + 1) false (properties.map d.propertyTree) ++
        commentLines (depth + 1) true dangling ++ tail ∧
      (d.graft o t fun v => .object (properties ++ [.ofKey k v]) dangling).render =
        head ++ layoutProperties (depth + 1) false (properties.map d.propertyTree) ++
          (indent (depth + 1) ++ key k ++ ": " ++
            t.layout (depth + 1) (valueColumn (depth + 1) k) ++ ",\n") ++
          commentLines (depth + 1) true dangling ++ tail := by
  have ho : d.Issued o := issued_of_expr_object hx
  have hg : ∀ v, Grafted (d.expr o).operands
      (Expr.object (properties ++ [.ofKey k v]) dangling).operands v :=
    fun v => hx ▸ grafted_append properties dangling k v
  have hold : properties.map (d.graft o t fun v =>
      .object (properties ++ [.ofKey k v]) dangling).propertyTree =
        properties.map d.propertyTree := by
    refine properties_congr fun s hs => tree_graft_operand hd ho hg ?_
    rw [hx]
    exact hs
  have hlast : (d.graft o t fun v =>
      .object (properties ++ [.ofKey k v]) dangling).propertyTree
        (.ofKey k (d.plant t).1) = .ofKey k t := by
    refine (propertyTree_assignment _ k _ none {}).trans ?_
    rw [tree_graft_new hd ho hg]
    rfl
  obtain ⟨head, tail, hbefore, hafter⟩ := h.grafted hd ho hg (t := t) (by rw [hx]; rfl) rfl
  refine ⟨head ++ "\x7b\n", indent depth ++ "\x7d" ++ tail, ?_, ?_⟩
  · rw [hbefore, hx, map_object, layout_object_of_ne_nil (by simpa using hne)]
    simp only [String.append_assoc]
  · have hlines : (properties.map d.propertyTree ++ [Property.ofKey k t]) ≠ [] := by simp
    have hbegun : (properties.map d.propertyTree).isEmpty = false := by simpa using hne
    rw [hafter, map_object, List.map_append, hold, List.map_singleton, hlast,
      layout_object_of_ne_nil hlines, layoutProperties_append, hbegun]
    simp only [Bool.not_false, Bool.or_true, layoutProperties_made, String.append_assoc]

theorem expr_graft_ne (hx : d.Issued x) (h : x ≠ o) (t : Tree) (e : NodeId → Expr NodeId) :
    (d.graft o t e).expr x = d.expr x :=
  (expr_set_of_ne _ h).trans ((planted d.forest t).expr_old hx)

/-- What lies above a node still does when something is grafted to it. -/
theorem below_graft (hd : d.Sound) (hxy : d.forest.Below x y) (hyo : d.forest.Below y o) (t : Tree)
    (e : NodeId → Expr NodeId) : (d.graft o t e).forest.Below x y := by
  induction hxy with
  | refl => exact .refl
  | @step y z _ hz ih =>
    refine .step (ih (hyo.head hz)) ?_
    have hy : d.Issued y := index_lt_of_mem_operands hz
    have he := expr_graft_ne hy (ne_of_operand hd hz hyo) t e
    change z ∈ ((d.graft o t e).expr y).operands
    rwa [he]

/-- A statement assigns the value `config`. -/
def Assigns (d : Document) (config : NodeId) : Prop :=
  ∃ before s after root left, d.program.statements = before ++ s :: after ∧
    s.body = .expression root ∧ d.expr root = .assignment left config

/-- The list is the value of a property of an object that a statement assigns. -/
structure Anchored (d : Document) (list : NodeId) : Prop where
  sound : d.Sound
  held : ∃ config before p after k dangling, d.Assigns config ∧
    d.expr config = .object (before ++ p :: after) dangling ∧ p.body = .assignment k list

theorem mem_operands_of_property {before after : List (Property NodeId)} {p : Property NodeId}
    {k : PropertyKey} {dangling : List Comment}
    (hx : d.expr x = .object (before ++ p :: after) dangling) (hp : p.body = .assignment k y) :
    y ∈ (d.expr x).operands := by
  have hv : p.value? = some y := by simp [Property.value?, hp]
  simp [hx, Expr.operands, hv]

/-- The text around the list does not depend on what lies below the list. -/
theorem Anchored.framed {list : NodeId} (h : d.Anchored list) (hlo : d.forest.Below list o) :
    ∃ column, d.Framed o 1 column list := by
  obtain ⟨config, ps, p, qs, k, dangling, ⟨before, s, after, root, left, hs, hb, hr⟩, hc, hp⟩ := h.held
  have hco := hlo.head (mem_operands_of_property hc hp)
  have hroot : config ∈ (d.expr root).operands := by simp [hr, Expr.operands]
  have hro := hco.head hroot
  obtain ⟨column, hframed⟩ := (framed_root h.sound hs hb hro).right h.sound hr hco
  exact ⟨_, hframed.property h.sound hc hp hlo⟩

theorem Anchored.issued {list : NodeId} (h : d.Anchored list) : d.Issued list := by
  obtain ⟨config, ps, p, qs, k, dangling, -, hc, hp⟩ := h.held
  exact h.sound.operand_lt (mem_operands_of_property hc hp)

theorem split_entries {list entry : NodeId} {index : Nat}
    (h : (d.entries list)[index]? = some entry) :
    ∃ before el after dangling, d.expr list = .array (before ++ el :: after) dangling ∧
      before.length = index ∧ el.value = entry := by
  unfold entries at h
  split at h
  · rename_i elements dangling hl
    rw [List.getElem?_map, Option.map_eq_some_iff] at h
    obtain ⟨el, hel, hv⟩ := h
    obtain ⟨hlt, hget⟩ := List.getElem?_eq_some_iff.mp hel
    refine ⟨elements.take index, el, elements.drop (index + 1), dangling, ?_, ?_, hv⟩
    · rw [hl, ← hget, ← List.drop_eq_getElem_cons hlt, List.take_append_drop]
    · exact List.length_take_of_le (Nat.le_of_lt hlt)
  · simp at h

theorem operand_of_entries {list entry : NodeId} {index : Nat}
    (h : (d.entries list)[index]? = some entry) : entry ∈ (d.expr list).operands := by
  obtain ⟨before, el, after, dangling, he, -, hv⟩ := split_entries h
  simp [he, Expr.operands, hv]

/-- The options of a plugin lie two levels below the list. -/
theorem below_docsPlugin {list : NodeId} {id : String} {p : DocsPlugin}
    (h : d.docsPlugin list id = .ok p) : d.forest.Below list p.options := by
  obtain ⟨entry, first, second, dangling, hentry, he, -, -, hp⟩ :=
    mem_pluginsNamed (docsPlugin_entry h)
  have hoptions : p.options ∈ (d.expr entry).operands := by
    simp only at hp
    simp [he, Expr.operands, hp]
  exact (Below.refl.step (operand_of_entries hentry)).step hoptions

theorem Anchored.framed_entry {list entry : NodeId} {index : Nat} (h : d.Anchored list)
    (hentry : (d.entries list)[index]? = some entry) (hl : (d.tree entry).isList)
    (heo : d.forest.Below entry o) : d.Framed o 2 4 entry := by
  obtain ⟨before, el, after, dangling, he, -, rfl⟩ := split_entries hentry
  obtain ⟨column, hframed⟩ := h.framed (heo.head (operand_of_entries hentry))
  exact hframed.element h.sound he hl heo

theorem Anchored.framed_options {list : NodeId} {id : String} {p : DocsPlugin} (h : d.Anchored list)
    (hp : d.docsPlugin list id = .ok p) (hpo : d.forest.Below p.options o) :
    d.Framed o 3 6 p.options := by
  obtain ⟨entry, first, second, dangling, hentry, he, -, ⟨properties, dangling', hs⟩, heq⟩ :=
    mem_pluginsNamed (docsPlugin_entry hp)
  simp only at heq
  rw [heq] at hpo ⊢
  have hoptions : second.value ∈ (d.expr entry).operands := by simp [he, Expr.operands]
  have hlist : (d.tree entry).isList := by rw [tree_isList h.sound.acyclic, he]; rfl
  have hobject : (d.tree second.value).isList := by rw [tree_isList h.sound.acyclic, hs]; rfl
  have hframed := h.framed_entry hentry hlist (hpo.head hoptions)
  have hsplit : d.expr entry = .array ([first] ++ second :: []) dangling := he
  exact hframed.element h.sound hsplit hobject hpo

theorem Framed.value? {key problem : String} (h : d.Framed o depth column x) (hd : d.Sound)
    (hv : d.value? x key problem = .ok (some y)) (hyo : d.forest.Below y o) :
    ∃ column', d.Framed o (depth + 1) column' y := by
  obtain ⟨properties, dangling, p, before, after, he, rfl, hp⟩ := value?_eq_some hv
  obtain ⟨k, hb⟩ := Property.body_of_value? hp
  exact ⟨_, h.property hd he hb hyo⟩

end Document

end SiteConfig
