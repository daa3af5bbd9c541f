import Mathlib.Data.List.Nodup
import SiteConfig.Syntax.Forest

/-!
What planting a tree does to a forest: the nodes that were there stay as they are, and the new
ones refer to each other only, each at most once.
-/

namespace SiteConfig

theorem Property.body_of_value? {α : Type} {p : Property α} {x : α} (h : p.value? = some x) :
    ∃ k, p.body = .assignment k x := by
  rcases hb : p.body with ⟨k, value⟩ | ⟨shape, text⟩ <;> simp [Property.value?, hb] at h
  exact ⟨k, by rw [h]⟩

namespace Expr

variable {α β : Type}

/-- The operands of an expression, from left to right. -/
def operands : Expr α → List α
  | .member base _ => [base]
  | .assignment left right => [left, right]
  | .call callee arguments => callee :: arguments
  | .array elements _ => elements.map (·.value)
  | .object properties _ => properties.filterMap (·.value?)
  | _ => []

theorem map_congr {f g : α → β} {e : Expr α} (h : ∀ a ∈ e.operands, f a = g a) :
    e.map f = e.map g := by
  cases e with
  | string | boolean | identifier | verbatim => rfl
  | member base property => simp [Expr.map, h base (by simp [operands])]
  | assignment left right =>
    simp [Expr.map, h left (by simp [operands]), h right (by simp [operands])]
  | call callee arguments =>
    have ha : arguments.map f = arguments.map g :=
      List.map_congr_left fun a ha => h a (by simp [operands, ha])
    simp [Expr.map, h callee (by simp [operands]), ha]
  | array elements dangling =>
    simp only [Expr.map, Expr.array.injEq, and_true]
    refine List.map_congr_left fun x hx => ?_
    rw [h x.value (List.mem_map_of_mem hx)]
  | object properties dangling =>
    simp only [Expr.map, Expr.object.injEq, and_true]
    refine List.map_congr_left fun p hp => ?_
    rcases hb : p.body with ⟨key, value⟩ | ⟨shape, text⟩
    · have hv : p.value? = some value := by simp [Property.value?, hb]
      simp only [h value (List.mem_filterMap.mpr ⟨p, hp, hv⟩)]
    · rfl

theorem operands_map (f : α → β) (e : Expr α) : (e.map f).operands = e.operands.map f := by
  cases e with
  | array elements dangling => simp [Expr.map, operands]
  | object properties dangling =>
    simp only [Expr.map, operands, List.filterMap_map, List.map_filterMap]
    refine List.filterMap_congr fun p _ => ?_
    rcases hb : p.body with ⟨k, value⟩ | ⟨shape, text⟩ <;> simp [Property.value?, hb]
  | _ => rfl

end Expr

namespace Forest

theorem size_add (f : Forest) (n : Node) : (f.add n).2.size = f.size + 1 := by
  simp [add, size]

theorem node_add_old {f : Forest} {n : Node} {x : NodeId} (h : x.index < f.size) :
    (f.add n).2.node x = f.node x := by
  have hs : x.index < f.nodes.size := h
  simp [add, node, hs, Nat.lt_succ_of_lt hs, Array.getElem_push_lt hs]

theorem node_add_new (f : Forest) (n : Node) : (f.add n).2.node (f.add n).1 = n := by
  simp [add, node, size]

/-- A handle that was never given out stands for a node without operands. -/
theorem expr_of_size_le {f : Forest} {x : NodeId} (h : f.size ≤ x.index) :
    f.expr x = .verbatim "" := by
  have hs : f.nodes.size ≤ x.index := h
  simp only [expr, node, Array.getD_eq_getD_getElem?, Array.getElem?_eq_none hs, Option.getD_none]
  rfl

theorem index_lt_of_mem_operands {f : Forest} {x o : NodeId} (h : o ∈ (f.expr x).operands) :
    x.index < f.size := by
  by_contra hx
  rw [expr_of_size_le (Nat.le_of_not_lt hx)] at h
  simp [Expr.operands] at h

/-- A node that has operands after a new node is added is the new one, or had them before. -/
theorem mem_operands_add {f : Forest} {n : Node} {x o : NodeId}
    (ho : o ∈ ((f.add n).2.expr x).operands) :
    (x = (f.add n).1 ∧ o ∈ n.expr.operands) ∨ (x.index < f.size ∧ o ∈ (f.expr x).operands) := by
  by_cases hg : x.index < f.size
  · rw [expr, node_add_old hg] at ho
    exact .inr ⟨hg, ho⟩
  · have hlt := index_lt_of_mem_operands ho
    rw [size_add] at hlt
    obtain rfl : x = (f.add n).1 := by
      cases x
      simp only [add, size, NodeId.mk.injEq] at *
      omega
    rw [expr, node_add_new] at ho
    exact .inl ⟨rfl, ho⟩

/-- Among the nodes from `start` on, no handle is an operand in two places, and none of `roots` is
an operand at all. -/
structure Unshared (f : Forest) (start : Nat) (roots : List NodeId) : Prop where
  roots_nodup : roots.Nodup
  operands_nodup : ∀ x : NodeId, start ≤ x.index → (f.expr x).operands.Nodup
  parent_unique : ∀ x y o : NodeId, start ≤ x.index → start ≤ y.index →
    o ∈ (f.expr x).operands → o ∈ (f.expr y).operands → x = y
  roots_free : ∀ r ∈ roots, ∀ x : NodeId, start ≤ x.index → r ∉ (f.expr x).operands

/-- `g` is `f` with more nodes, whose operands are among the new nodes before them; `roots` are
new nodes that nothing refers to. -/
structure Planted (f g : Forest) (roots : List NodeId) : Prop where
  size_le : f.size ≤ g.size
  old : ∀ x : NodeId, x.index < f.size → g.node x = f.node x
  fresh : ∀ r ∈ roots, f.size ≤ r.index ∧ r.index < g.size
  operands : ∀ x : NodeId, f.size ≤ x.index → ∀ o ∈ (g.expr x).operands,
    f.size ≤ o.index ∧ o.index < x.index
  unshared : g.Unshared f.size roots

namespace Planted

variable {f g h : Forest} {roots roots' : List NodeId}

theorem nil (f : Forest) : Planted f f [] where
  size_le := Nat.le_refl _
  old _ _ := rfl
  fresh := by simp
  operands x hx o ho := by
    rw [expr_of_size_le hx] at ho
    simp [Expr.operands] at ho
  unshared := {
    roots_nodup := List.nodup_nil
    operands_nodup := fun x hx => by simp [expr_of_size_le hx, Expr.operands]
    parent_unique := fun x y o hx hy ho => by simp [expr_of_size_le hx, Expr.operands] at ho
    roots_free := by simp }

theorem expr_old (p : Planted f g roots) {x : NodeId} (hx : x.index < f.size) :
    g.expr x = f.expr x := by
  simp [expr, p.old x hx]

/-- An operand of a new node lies on the same side of `g` as the node. -/
theorem operands_trans (p : Planted f g roots) (q : Planted g h roots') {x o : NodeId}
    (hx : f.size ≤ x.index) (ho : o ∈ (h.expr x).operands) :
    f.size ≤ o.index ∧ o.index < x.index ∧ (g.size ≤ o.index ↔ g.size ≤ x.index) := by
  have hpq := p.size_le
  by_cases hg : g.size ≤ x.index
  · have := q.operands x hg o ho
    omega
  · rw [q.expr_old (Nat.lt_of_not_le hg)] at ho
    have := p.operands x hx o ho
    omega

theorem unshared_trans (p : Planted f g roots) (q : Planted g h roots') :
    h.Unshared f.size (roots ++ roots') where
  roots_nodup := by
    refine List.nodup_append.mpr ⟨p.unshared.roots_nodup, q.unshared.roots_nodup, ?_⟩
    rintro r hr s hs rfl
    have := p.fresh r hr
    have := q.fresh r hs
    omega
  operands_nodup x hx := by
    by_cases hg : g.size ≤ x.index
    · exact q.unshared.operands_nodup x hg
    · rw [q.expr_old (Nat.lt_of_not_le hg)]
      exact p.unshared.operands_nodup x hx
  parent_unique x y o hx hy hox hoy := by
    -- both parents lie on the side of `g` where the operand lies
    have hx' := p.operands_trans q hx hox
    have hy' := p.operands_trans q hy hoy
    by_cases hg : g.size ≤ o.index
    · exact q.unshared.parent_unique x y o (by omega) (by omega) hox hoy
    · rw [q.expr_old (by omega)] at hox hoy
      exact p.unshared.parent_unique x y o hx hy hox hoy
  roots_free r hr x hx ho := by
    have hx' := p.operands_trans q hx ho
    rcases List.mem_append.mp hr with hr | hr
    · have hfresh := p.fresh r hr
      rw [q.expr_old (by omega)] at ho
      exact p.unshared.roots_free r hr x hx ho
    · have hfresh := q.fresh r hr
      exact q.unshared.roots_free r hr x (by omega) ho

theorem trans (p : Planted f g roots) (q : Planted g h roots') :
    Planted f h (roots ++ roots') := by
  have hpq := p.size_le
  have hqh := q.size_le
  refine ⟨by omega, fun x hx => ?_, fun r hr => ?_, fun x hx o ho => ?_, p.unshared_trans q⟩
  · rw [q.old x (by omega), p.old x hx]
  · rcases List.mem_append.mp hr with hr | hr
    · have := p.fresh r hr
      omega
    · have := q.fresh r hr
      omega
  · have := p.operands_trans q hx ho
    omega

theorem unshared_add {n : Node} (p : Planted f g n.expr.operands) :
    (g.add n).2.Unshared f.size [(g.add n).1] where
  roots_nodup := List.nodup_singleton _
  operands_nodup x hx := by
    by_cases hg : x.index < g.size
    · rw [expr, node_add_old hg]
      exact p.unshared.operands_nodup x hx
    · by_cases hs : x.index = g.size
      · obtain rfl : x = (g.add n).1 := by cases x; simp_all [add, size]
        rw [expr, node_add_new]
        exact p.unshared.roots_nodup
      · rw [expr_of_size_le (by rw [size_add]; omega)]
        exact List.nodup_nil
  parent_unique x y o hx hy hox hoy := by
    rcases mem_operands_add hox with ⟨rfl, hex⟩ | ⟨-, hex⟩
    · rcases mem_operands_add hoy with ⟨rfl, -⟩ | ⟨-, hey⟩
      · rfl
      · exact absurd hey (p.unshared.roots_free o hex y hy)
    · rcases mem_operands_add hoy with ⟨rfl, hey⟩ | ⟨-, hey⟩
      · exact absurd hex (p.unshared.roots_free o hey x hx)
      · exact p.unshared.parent_unique x y o hx hy hex hey
  roots_free r hr x hx ho := by
    obtain rfl := List.mem_singleton.mp hr
    have hroot : (g.add n).1.index = g.size := rfl
    -- the new node is neither its own operand nor one of a node before it
    rcases mem_operands_add ho with ⟨-, ho⟩ | ⟨hg, ho⟩
    · have := p.fresh _ ho
      omega
    · have := p.operands x hx _ ho
      omega

/-- A new node over the roots planted so far becomes the only root. -/
theorem add {e : Expr NodeId} (p : Planted f g e.operands) (position : Option Position) :
    Planted f (g.add { expr := e, position }).2 [(g.add { expr := e, position }).1] := by
  have hsize := size_add g { expr := e, position }
  have hroot : (g.add { expr := e, position }).1.index = g.size := rfl
  have hle := p.size_le
  refine ⟨by omega, fun x hx => ?_, ?_, fun x hx o ho => ?_, p.unshared_add⟩
  · rw [node_add_old (by omega), p.old x hx]
  · simp only [List.mem_singleton, forall_eq]
    omega
  · rcases mem_operands_add ho with ⟨rfl, he⟩ | ⟨-, he⟩
    · exact p.fresh o he
    · exact p.operands x hx o he

end Planted

mutual

theorem planted (f : Forest) : (t : Tree) → Planted f (f.plant t).2 [(f.plant t).1]
  | .node position e => by
    simp only [plant]
    exact (plantedExpr f e).add position

theorem plantedExpr (f : Forest) :
    (e : Expr Tree) → Planted f (f.plantExpr e).2 (f.plantExpr e).1.operands
  | .string _ => .nil f
  | .boolean _ => .nil f
  | .identifier _ => .nil f
  | .verbatim _ => .nil f
  | .member base _ => by
    simp only [plantExpr, Expr.operands]
    exact planted f base
  | .assignment left right => by
    simp only [plantExpr, Expr.operands]
    exact (planted f left).trans (planted (f.plant left).2 right)
  | .call callee arguments => by
    simp only [plantExpr, Expr.operands]
    exact (planted f callee).trans (plantedList (f.plant callee).2 arguments)
  | .array elements _ => by
    simp only [plantExpr, Expr.operands]
    exact plantedElements f elements
  | .object properties _ => by
    simp only [plantExpr, Expr.operands]
    exact plantedProperties f properties

theorem plantedList (f : Forest) :
    (ts : List Tree) → Planted f (f.plantList ts).2 (f.plantList ts).1
  | [] => .nil f
  | t :: rest => by
    simp only [plantList]
    exact (planted f t).trans (plantedList (f.plant t).2 rest)

theorem plantedElements (f : Forest) : (es : List (Element Tree)) →
    Planted f (f.plantElements es).2 ((f.plantElements es).1.map (·.value))
  | [] => .nil f
  | ⟨value, _⟩ :: rest => by
    simp only [plantElements, List.map_cons]
    exact (planted f value).trans (plantedElements (f.plant value).2 rest)

theorem plantedProperties (f : Forest) : (ps : List (Property Tree)) →
    Planted f (f.plantProperties ps).2 ((f.plantProperties ps).1.filterMap (·.value?))
  | [] => .nil f
  | ⟨.assignment key value, _, _⟩ :: rest => by
    simp only [plantProperties, plantBody, List.filterMap_cons, Property.value?]
    exact (planted f value).trans (plantedProperties (f.plant value).2 rest)
  | ⟨.irregular _ _, _, _⟩ :: rest => by
    simp only [plantProperties, plantBody, List.filterMap_cons, Property.value?]
    exact plantedProperties f rest

end

/-- `h` holds all nodes of `g`, as they are. -/
def Extends (h g : Forest) : Prop :=
  ∀ x : NodeId, x.index < g.size → h.node x = g.node x

theorem Extends.of_planted {f g h : Forest} {roots : List NodeId} (hg : h.Extends g)
    (p : Planted f g roots) : h.Extends f := by
  intro x hx
  have hle := p.size_le
  rw [hg x (by omega), p.old x hx]

mutual

/-- What was planted is what a look from its root shows. -/
theorem treeWithin_plant {f h : Forest} : (t : Tree) → h.Extends (f.plant t).2 →
    ∀ n, (f.plant t).2.size - f.size ≤ n → h.treeWithin n (f.plant t).1 = t
  | .node position e, hg, n, hn => by
    simp only [plant] at hg hn ⊢
    have hsize := size_add (f.plantExpr e).2 { expr := (f.plantExpr e).1, position }
    have hle := (plantedExpr f e).size_le
    obtain ⟨m, rfl⟩ : ∃ m, n = m + 1 := ⟨n - 1, by omega⟩
    have hroot : h.node ((f.plantExpr e).2.add { expr := (f.plantExpr e).1, position }).1 =
        { expr := (f.plantExpr e).1, position } := by
      rw [hg _ (by rw [hsize]; exact Nat.lt_succ_self _), node_add_new]
    have hold : h.Extends (f.plantExpr e).2 := fun x hx => by
      rw [hg x (by omega), node_add_old hx]
    simp only [treeWithin, Forest.position, Forest.expr, hroot]
    rw [map_treeWithin_plantExpr e hold m (by omega)]

theorem map_treeWithin_plantExpr {f h : Forest} : (e : Expr Tree) →
    h.Extends (f.plantExpr e).2 → ∀ n, (f.plantExpr e).2.size - f.size ≤ n →
    (f.plantExpr e).1.map (h.treeWithin n) = e
  | .string _, _, _, _ => rfl
  | .boolean _, _, _, _ => rfl
  | .identifier _, _, _, _ => rfl
  | .verbatim _, _, _, _ => rfl
  | .member base _, hg, n, hn => by
    simp only [plantExpr, Expr.map] at hg hn ⊢
    rw [treeWithin_plant base hg n hn]
  | .assignment left right, hg, n, hn => by
    simp only [plantExpr, Expr.map] at hg hn ⊢
    have hl := (planted f left).size_le
    have hr := (planted (f.plant left).2 right).size_le
    -- what is planted for the right side leaves the left side as it was
    rw [treeWithin_plant left (hg.of_planted (planted _ right)) n (by omega),
      treeWithin_plant right hg n (by omega)]
  | .call callee arguments, hg, n, hn => by
    simp only [plantExpr, Expr.map] at hg hn ⊢
    have hc := (planted f callee).size_le
    have ha := (plantedList (f.plant callee).2 arguments).size_le
    rw [treeWithin_plant callee (hg.of_planted (plantedList _ arguments)) n (by omega),
      map_treeWithin_plantList arguments hg n (by omega)]
  | .array elements _, hg, n, hn => by
    simp only [plantExpr, Expr.map] at hg hn ⊢
    rw [map_treeWithin_plantElements elements hg n hn]
  | .object properties dangling, hg, n, hn => by
    simp only [plantExpr] at hg hn ⊢
    exact map_treeWithin_plantProperties properties dangling hg n hn

theorem map_treeWithin_plantList {f h : Forest} : (ts : List Tree) →
    h.Extends (f.plantList ts).2 → ∀ n, (f.plantList ts).2.size - f.size ≤ n →
    (f.plantList ts).1.map (h.treeWithin n) = ts
  | [], _, _, _ => rfl
  | t :: rest, hg, n, hn => by
    simp only [plantList, List.map_cons] at hg hn ⊢
    have ht := (planted f t).size_le
    have hr := (plantedList (f.plant t).2 rest).size_le
    rw [treeWithin_plant t (hg.of_planted (plantedList _ rest)) n (by omega),
      map_treeWithin_plantList rest hg n (by omega)]

theorem map_treeWithin_plantElements {f h : Forest} : (es : List (Element Tree)) →
    h.Extends (f.plantElements es).2 → ∀ n, (f.plantElements es).2.size - f.size ≤ n →
    ((f.plantElements es).1.map fun e => { value := h.treeWithin n e.value, trivia := e.trivia }) =
      es
  | [], _, _, _ => rfl
  | ⟨value, _⟩ :: rest, hg, n, hn => by
    simp only [plantElements, List.map_cons] at hg hn ⊢
    have ht := (planted f value).size_le
    have hr := (plantedElements (f.plant value).2 rest).size_le
    rw [treeWithin_plant value (hg.of_planted (plantedElements _ rest)) n (by omega),
      map_treeWithin_plantElements rest hg n (by omega)]

theorem map_treeWithin_plantProperties {f h : Forest} : (ps : List (Property Tree)) →
    (dangling : List Comment) → h.Extends (f.plantProperties ps).2 →
    ∀ n, (f.plantProperties ps).2.size - f.size ≤ n →
    (Expr.object (f.plantProperties ps).1 dangling).map (h.treeWithin n) = .object ps dangling
  | [], _, _, _, _ => rfl
  | ⟨.assignment key value, _, _⟩ :: rest, dangling, hg, n, hn => by
    simp only [plantProperties, plantBody] at hg hn ⊢
    have ht := (planted f value).size_le
    have hr := (plantedProperties (f.plant value).2 rest).size_le
    have ih := map_treeWithin_plantProperties rest dangling hg n (by omega)
    simp only [Expr.map, Expr.object.injEq, and_true] at ih
    simp only [Expr.map, List.map_cons]
    rw [treeWithin_plant value (hg.of_planted (plantedProperties _ rest)) n (by omega), ih]
  | ⟨.irregular shape text, _, _⟩ :: rest, dangling, hg, n, hn => by
    simp only [plantProperties, plantBody] at hg hn ⊢
    have ih := map_treeWithin_plantProperties rest dangling hg n hn
    simp only [Expr.map, Expr.object.injEq, and_true] at ih
    simp only [Expr.map, List.map_cons, ih]

end

theorem tree_plant (f : Forest) (t : Tree) : (f.plant t).2.tree (f.plant t).1 = t :=
  treeWithin_plant t (fun _ _ => rfl) _ (by omega)

end Forest

end SiteConfig
