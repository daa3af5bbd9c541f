import SiteConfig.Proofs.Separation

/-!
A forest with the roots of a script is sound if no node lies below itself and no handle stands in
two places. Planting keeps a forest sound, and so does grafting, which makes a node refer to what
was planted, in the place of one operand or in a place of its own.
-/

namespace SiteConfig.Forest

structure Sound (f : Forest) (roots : List NodeId) : Prop where
  acyclic : f.Acyclic
  issued : ∀ r ∈ roots, r.index < f.size
  unshared : f.Unshared 0 roots

variable {f g : Forest} {roots ids : List NodeId}

theorem Sound.empty : Sound {} [] where
  acyclic := ⟨fun _ => 0, fun x o ho => by simp [expr, node, Expr.operands, default] at ho,
    fun x o ho => by simp [expr, node, Expr.operands, default] at ho⟩
  issued := by simp
  unshared := (Planted.nil {}).unshared

theorem Sound.operand_lt (h : f.Sound roots) {x o : NodeId} (ho : o ∈ (f.expr x).operands) :
    o.index < f.size := by
  obtain ⟨rank, hr⟩ := h.acyclic
  exact hr.issued x o ho

theorem Sound.below_lt (h : f.Sound roots) {x y : NodeId} (hx : x.index < f.size)
    (hy : f.Below x y) : y.index < f.size := by
  cases hy with
  | refl => exact hx
  | step _ ho => exact h.operand_lt ho

theorem Planted.le_below (p : Planted f g ids) {x y : NodeId} (hx : f.size ≤ x.index)
    (hy : g.Below x y) : f.size ≤ y.index := by
  induction hy with
  | refl => exact hx
  | step _ ho ih => exact (p.operands _ ih _ ho).1

/-- Old nodes rank above all that was planted, and new ones by their age. -/
theorem Sound.ordered_planted (h : f.Sound roots) (p : Planted f g ids) :
    ∃ rank, g.Ordered rank ∧ ∀ x v : NodeId, x.index < f.size → f.size ≤ v.index →
      v.index < g.size → rank v < rank x := by
  obtain ⟨rank, hr⟩ := h.acyclic
  have hle := p.size_le
  refine ⟨fun x => if x.index < f.size then rank x + g.size else x.index,
    ⟨fun x o ho => ?_, fun x o ho => ?_⟩, fun x v hx hv hvg => ?_⟩
  · by_cases hx : x.index < f.size
    · rw [p.expr_old hx] at ho
      have := hr.issued x o ho
      omega
    · have := p.operands x (by omega) o ho
      have := index_lt_of_mem_operands ho
      omega
  · by_cases hx : x.index < f.size
    · rw [p.expr_old hx] at ho
      have ho' := hr.issued x o ho
      have := hr.descends x o ho
      simp only [hx, ho', if_true]
      omega
    · have ho' := p.operands x (by omega) o ho
      simp only [hx, if_false, show ¬ o.index < f.size by omega]
      omega
  · simp only [hx, if_true, show ¬ v.index < f.size by omega, if_false]
    omega

theorem Sound.unshared_planted (h : f.Sound roots) (p : Planted f g ids) :
    g.Unshared 0 (roots ++ ids) := by
  -- a node and its operands are on the same side of `f`
  have side : ∀ x o : NodeId, o ∈ (g.expr x).operands →
      (x.index < f.size ∧ o.index < f.size ∧ o ∈ (f.expr x).operands) ∨
        (f.size ≤ x.index ∧ f.size ≤ o.index) := by
    intro x o ho
    by_cases hx : x.index < f.size
    · rw [p.expr_old hx] at ho
      exact .inl ⟨hx, h.operand_lt ho, ho⟩
    · exact .inr ⟨by omega, (p.operands x (by omega) o ho).1⟩
  refine ⟨?_, fun x _ => ?_, fun x y o _ _ hox hoy => ?_, fun r hr x _ ho => ?_⟩
  · refine List.nodup_append.mpr ⟨h.unshared.roots_nodup, p.unshared.roots_nodup, ?_⟩
    intro r hr s hs hrs
    have := h.issued r hr
    have := p.fresh s hs
    rw [hrs] at *
    omega
  · by_cases hx : x.index < f.size
    · rw [p.expr_old hx]
      exact h.unshared.operands_nodup x (Nat.zero_le _)
    · exact p.unshared.operands_nodup x (by omega)
  · rcases side x o hox with ⟨hx, ho, hfx⟩ | ⟨hx, ho⟩ <;>
      rcases side y o hoy with ⟨hy, ho', hfy⟩ | ⟨hy, ho'⟩
    · exact h.unshared.parent_unique x y o (Nat.zero_le _) (Nat.zero_le _) hfx hfy
    · omega
    · omega
    · exact p.unshared.parent_unique x y o hx hy hox hoy
  · rcases side x r ho with ⟨hx, hr', hfx⟩ | ⟨hx, hr'⟩ <;>
      rcases List.mem_append.mp hr with hr | hr
    · exact h.unshared.roots_free r hr x (Nat.zero_le _) hfx
    · have := p.fresh r hr
      omega
    · have := h.issued r hr
      omega
    · exact p.unshared.roots_free r hr x hx ho

theorem Sound.grow (h : f.Sound roots) (p : Planted f g ids) : g.Sound (roots ++ ids) := by
  obtain ⟨rank, hr, -⟩ := h.ordered_planted p
  refine ⟨⟨rank, hr⟩, fun r hr => ?_, h.unshared_planted p⟩
  have hle := p.size_le
  rcases List.mem_append.mp hr with hr | hr
  · have := h.issued r hr
    omega
  · exact (p.fresh r hr).2

theorem Sound.weaken (h : f.Sound (roots ++ ids)) : f.Sound roots where
  acyclic := h.acyclic
  issued r hr := h.issued r (List.mem_append_left _ hr)
  unshared := {
    roots_nodup := (List.nodup_append.mp h.unshared.roots_nodup).1
    operands_nodup := h.unshared.operands_nodup
    parent_unique := h.unshared.parent_unique
    roots_free := fun r hr => h.unshared.roots_free r (List.mem_append_left _ hr) }

theorem size_set (f : Forest) (o : NodeId) (e : Expr NodeId) : (f.set o e).size = f.size := by
  simp [set, size]

theorem node_set_ne {o x : NodeId} (e : Expr NodeId) (h : x ≠ o) :
    (f.set o e).node x = f.node x := by
  have hi : o.index ≠ x.index := by
    intro hi
    apply h
    cases x
    cases o
    exact congrArg NodeId.mk hi.symm
  simp [set, node, Array.getElem?_modify, hi]

theorem expr_set {o : NodeId} {e : Expr NodeId} (h : o.index < f.size) :
    (f.set o e).expr o = e := by
  have hs : o.index < f.nodes.size := h
  simp only [set, expr, node, Array.getD_eq_getD_getElem?, Array.getElem?_modify, if_true]
  simp [hs]

theorem position_set (o x : NodeId) (e : Expr NodeId) :
    (f.set o e).position x = f.position x := by
  by_cases h : x = o
  · subst h
    simp only [position, node, set, Array.getD_eq_getD_getElem?, Array.getElem?_modify]
    cases f.nodes[x.index]? <;> simp
  · simp [position, node_set_ne e h]

/-- Operands with `v` in the place of one of them, or in a place of its own. -/
def Grafted (before after : List NodeId) (v : NodeId) : Prop :=
  ∃ left gone right, before = left ++ gone ++ right ∧ after = left ++ v :: right

theorem Grafted.mem {before after : List NodeId} {v o : NodeId} (h : Grafted before after v)
    (ho : o ∈ after) : o = v ∨ o ∈ before := by
  obtain ⟨left, gone, right, rfl, rfl⟩ := h
  simp only [List.mem_append, List.mem_cons] at ho ⊢
  tauto

theorem Grafted.nodup {before after : List NodeId} {v : NodeId} (h : Grafted before after v)
    (hn : before.Nodup) (hv : v ∉ before) : after.Nodup := by
  obtain ⟨left, gone, right, rfl, rfl⟩ := h
  rw [List.nodup_middle, List.nodup_cons]
  refine ⟨fun h => hv ?_, ?_⟩
  · simp only [List.mem_append] at h ⊢
    tauto
  · refine hn.sublist ?_
    rw [List.append_assoc]
    exact List.Sublist.append_left (List.sublist_append_right gone right) left

section Graft

variable {o v : NodeId} {e : Expr NodeId}

theorem mem_operands_set (he : Grafted (g.expr o).operands e.operands v) (ho : o.index < g.size)
    {x a : NodeId} (ha : a ∈ ((g.set o e).expr x).operands) :
    (x = o ∧ a = v) ∨ a ∈ (g.expr x).operands := by
  by_cases hx : x = o
  · subst hx
    rw [expr_set ho] at ha
    rcases he.mem ha with h | h
    · exact .inl ⟨rfl, h⟩
    · exact .inr h
  · rw [expr, node_set_ne e hx] at ha
    exact .inr ha

theorem Sound.graft (h : f.Sound roots) (p : Planted f g [v]) (ho : o.index < f.size)
    (he : Grafted (f.expr o).operands e.operands v) : (g.set o e).Sound roots := by
  have hle := p.size_le
  have hog : o.index < g.size := by omega
  have hv := p.fresh v (by simp)
  have heg : Grafted (g.expr o).operands e.operands v := by rwa [p.expr_old ho]
  have hgrown := h.grow p
  have hvfree : ∀ x, v ∉ (g.expr x).operands :=
    fun x => hgrown.unshared.roots_free v (by simp) x (Nat.zero_le _)
  obtain ⟨rank, hr, hlow⟩ := h.ordered_planted p
  -- the new nodes rank below all old ones, so the new edge closes no cycle
  refine ⟨⟨rank, fun x a ha => ?_, fun x a ha => ?_⟩, fun r hr => ?_, ?_⟩
  · rw [size_set]
    rcases mem_operands_set heg hog ha with ⟨-, rfl⟩ | ha
    · exact hv.2
    · exact hr.issued x a ha
  · rcases mem_operands_set heg hog ha with ⟨rfl, rfl⟩ | ha
    · exact hlow x a ho hv.1 hv.2
    · exact hr.descends x a ha
  · rw [size_set]
    exact hgrown.issued r (List.mem_append_left _ hr)
  · refine ⟨h.unshared.roots_nodup, fun x _ => ?_, fun x y a _ _ hx hy => ?_, fun r hr x _ hx => ?_⟩
    · by_cases hxo : x = o
      · subst hxo
        rw [expr_set hog]
        exact heg.nodup (hgrown.unshared.operands_nodup x (Nat.zero_le _)) (hvfree x)
      · rw [expr, node_set_ne e hxo]
        exact hgrown.unshared.operands_nodup x (Nat.zero_le _)
    · rcases mem_operands_set heg hog hx with ⟨hxo, hav⟩ | hgx <;>
        rcases mem_operands_set heg hog hy with ⟨hyo, hav'⟩ | hgy
      · rw [hxo, hyo]
      · exact absurd (hav ▸ hgy) (hvfree y)
      · exact absurd (hav' ▸ hgx) (hvfree x)
      · exact hgrown.unshared.parent_unique x y a (Nat.zero_le _) (Nat.zero_le _) hgx hgy
    · rcases mem_operands_set heg hog hx with ⟨-, rfl⟩ | hx
      · have := h.issued r hr
        omega
      · exact hgrown.unshared.roots_free r (List.mem_append_left _ hr) x (Nat.zero_le _) hx

/-- What was planted is seen from its root as it was planted. -/
theorem Sound.tree_grafted (h : f.Sound roots) (p : Planted f g [v]) (ho : o.index < f.size)
    (he : Grafted (f.expr o).operands e.operands v) : (g.set o e).tree v = g.tree v := by
  refine tree_congr (h.grow p).acyclic (h.graft p ho he).acyclic fun y hy => ?_
  have hv := p.fresh v (by simp)
  have hyv := p.le_below hv.1 hy
  have hyo : y ≠ o := by
    intro hyo
    rw [hyo] at hyv
    omega
  exact node_set_ne e hyo

end Graft

end SiteConfig.Forest
