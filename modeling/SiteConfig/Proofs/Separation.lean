import Mathlib.Data.Finset.Card
import Mathlib.Order.Interval.Finset.Nat
import SiteConfig.Proofs.Planting

/-!
Forests in which no node lies below itself and no handle stands in two places. A look at one root
then shows nothing of what lies below another, so that a change below one root is not seen from
the others.
-/

namespace SiteConfig.Forest

/-- Operands are handles that were given out, and of lower rank than their node. -/
structure Ordered (f : Forest) (rank : NodeId → Nat) : Prop where
  issued : ∀ x o : NodeId, o ∈ (f.expr x).operands → o.index < f.size
  descends : ∀ x o : NodeId, o ∈ (f.expr x).operands → rank o < rank x

/-- No node lies below itself. -/
def Acyclic (f : Forest) : Prop :=
  ∃ rank, f.Ordered rank

/-- The nodes of a forest that a rank places below `x`. -/
def lower (f : Forest) (rank : NodeId → Nat) (x : NodeId) : Finset Nat :=
  (Finset.range f.size).filter fun i => rank ⟨i⟩ < rank x

theorem card_lower_lt {f : Forest} {rank : NodeId → Nat} {x : NodeId} (hx : x.index < f.size) :
    (f.lower rank x).card < f.size := by
  have hsub : f.lower rank x ⊂ Finset.range f.size := by
    refine Finset.filter_ssubset.mpr ⟨x.index, Finset.mem_range.mpr hx, ?_⟩
    simp
  simpa using Finset.card_lt_card hsub

theorem card_lower_lt_card_lower {f : Forest} {rank : NodeId → Nat} {x o : NodeId}
    (ho : o.index < f.size) (h : rank o < rank x) :
    (f.lower rank o).card < (f.lower rank x).card := by
  apply Finset.card_lt_card
  refine (Finset.ssubset_iff_of_subset fun i hi => ?_).mpr ⟨o.index, ?_, ?_⟩
  · simp only [lower, Finset.mem_filter] at hi ⊢
    exact ⟨hi.1, hi.2.trans h⟩
  · simp [lower, ho, h]
  · simp [lower]

/-- Ranks can be taken below the number of nodes. -/
theorem Acyclic.bounded {f : Forest} (h : f.Acyclic) :
    ∃ rank, f.Ordered rank ∧ ∀ x : NodeId, x.index < f.size → rank x < f.size := by
  obtain ⟨rank, hr⟩ := h
  refine ⟨fun x => (f.lower rank x).card, ⟨hr.issued, fun x o ho => ?_⟩, fun x hx => ?_⟩
  · exact card_lower_lt_card_lower (hr.issued x o ho) (hr.descends x o ho)
  · exact card_lower_lt hx

theorem treeWithin_eq {f : Forest} {rank : NodeId → Nat} (hr : f.Ordered rank) (n m : Nat)
    (x : NodeId) (hn : rank x < n) (hm : rank x < m) : f.treeWithin n x = f.treeWithin m x := by
  induction n generalizing m x with
  | zero => omega
  | succ n ih =>
    obtain ⟨m, rfl⟩ : ∃ k, m = k + 1 := ⟨m - 1, by omega⟩
    simp only [treeWithin]
    congr 1
    apply Expr.map_congr
    intro o ho
    have := hr.descends x o ho
    exact ih m o (by omega) (by omega)

/-- What a look from a node shows, one level down. -/
theorem tree_eq {f : Forest} (h : f.Acyclic) (x : NodeId) :
    f.tree x = .node (f.position x) ((f.expr x).map f.tree) := by
  obtain ⟨rank, hr, hb⟩ := h.bounded
  by_cases hx : x.index < f.size
  · obtain ⟨n, hn⟩ : ∃ n, f.size = n + 1 := ⟨f.size - 1, by omega⟩
    have hunfold : f.tree x = .node (f.position x) ((f.expr x).map (f.treeWithin n)) := by
      rw [tree, hn, treeWithin]
    rw [hunfold]
    congr 1
    apply Expr.map_congr
    intro o ho
    have hlt := hr.descends x o ho
    have hxn := hb x hx
    have hon := hb o (hr.issued x o ho)
    exact treeWithin_eq hr n f.size o (by omega) hon
  · rw [tree, expr_of_size_le (Nat.le_of_not_lt hx)]
    cases hs : f.size with
    | zero => rfl
    | succ n => simp [treeWithin, expr_of_size_le (Nat.le_of_not_lt hx), Expr.map]

/-- `y` is `x` or one of the nodes below it. -/
inductive Below (f : Forest) (x : NodeId) : NodeId → Prop where
  | refl : Below f x x
  | step {y o : NodeId} (h : Below f x y) (ho : o ∈ (f.expr y).operands) : Below f x o

theorem Below.head {f : Forest} {x o y : NodeId} (ho : o ∈ (f.expr x).operands)
    (h : f.Below o y) : f.Below x y := by
  induction h with
  | refl => exact .step .refl ho
  | step _ hy ih => exact .step ih hy

theorem Below.trans {f : Forest} {x y z : NodeId} (h : f.Below x y) (h' : f.Below y z) :
    f.Below x z := by
  induction h' with
  | refl => exact h
  | step _ ho ih => exact .step ih ho

theorem Below.rank_le {f : Forest} {rank : NodeId → Nat} (hr : f.Ordered rank) {x y : NodeId}
    (h : f.Below x y) : rank y ≤ rank x := by
  induction h with
  | refl => exact Nat.le_refl _
  | step _ ho ih =>
    have := hr.descends _ _ ho
    omega

/-- A look sees nothing but the nodes below. -/
theorem tree_congr {f g : Forest} (hf : f.Acyclic) (hg : g.Acyclic) {x : NodeId}
    (h : ∀ y, f.Below x y → g.node y = f.node y) : g.tree x = f.tree x := by
  obtain ⟨rank, hr⟩ := hf
  induction hn : rank x using Nat.strong_induction_on generalizing x with
  | _ n ih =>
    have hx : g.node x = f.node x := h x .refl
    have he : g.expr x = f.expr x := congrArg Node.expr hx
    have hp : g.position x = f.position x := congrArg Node.position hx
    rw [tree_eq hg, tree_eq ⟨rank, hr⟩, hp, he]
    congr 1
    apply Expr.map_congr
    intro o ho
    refine ih (rank o) (hn ▸ hr.descends x o ho) (fun y hy => ?_) rfl
    exact h y (hy.head ho)

/-- Of two nodes that both have `o` below them, one is below the other. -/
theorem Unshared.below_total {f : Forest} {roots : List NodeId} (hu : f.Unshared 0 roots)
    {x y o : NodeId} (hx : f.Below x o) (hy : f.Below y o) : f.Below x y ∨ f.Below y x := by
  induction hx with
  | refl => exact .inr hy
  | step hxm hom ih =>
    cases hy with
    | refl => exact .inl (.step hxm hom)
    | step hym hom' =>
      have hm := hu.parent_unique _ _ _ (Nat.zero_le _) (Nat.zero_le _) hom hom'
      exact ih (hm ▸ hym)

/-- A node below one operand of a node is below no other operand. -/
theorem Unshared.not_below_sibling {f : Forest} {roots : List NodeId} (hu : f.Unshared 0 roots)
    (hf : f.Acyclic) {x c s o : NodeId} {before after : List NodeId}
    (hx : (f.expr x).operands = before ++ c :: after) (hs : s ∈ before ++ after)
    (hc : f.Below c o) : ¬ f.Below s o := by
  obtain ⟨rank, hr⟩ := hf
  intro hso
  have hcx : c ∈ (f.expr x).operands := by simp [hx]
  have hsx : s ∈ (f.expr x).operands := by
    rw [hx]
    simp only [List.mem_append, List.mem_cons] at hs ⊢
    tauto
  have hne : c ≠ s := by
    have hnd := hu.operands_nodup x (Nat.zero_le _)
    rw [hx, List.nodup_middle] at hnd
    exact fun h => (List.nodup_cons.mp hnd).1 (h ▸ hs)
  -- the parent of the lower one is `x`, which would lie below its own operand
  have apart : ∀ a b : NodeId, a ∈ (f.expr x).operands → b ∈ (f.expr x).operands → a ≠ b →
      ¬ f.Below a b := by
    intro a b ha hb hab h
    cases h with
    | refl => exact hab rfl
    | step h hb' =>
      have hm := hu.parent_unique _ _ _ (Nat.zero_le _) (Nat.zero_le _) hb' hb
      have hle := (hm ▸ h).rank_le hr
      have hlt := hr.descends x a ha
      omega
  rcases hu.below_total hc hso with h | h
  · exact apart c s hcx hsx hne h
  · exact apart s c hsx hcx hne.symm h

/-- A node below one root is below no other root. -/
theorem Unshared.not_below_root {f : Forest} {before after : List NodeId} {r s o : NodeId}
    (hu : f.Unshared 0 (before ++ r :: after)) (hs : s ∈ before ++ after) (hr : f.Below r o) :
    ¬ f.Below s o := by
  intro hso
  have hne : r ≠ s := by
    have hnd := hu.roots_nodup
    rw [List.nodup_middle] at hnd
    exact fun h => (List.nodup_cons.mp hnd).1 (h ▸ hs)
  have apart : ∀ a b : NodeId, b ∈ before ++ r :: after → a ≠ b → ¬ f.Below a b := by
    intro a b hb hab h
    cases h with
    | refl => exact hab rfl
    | step _ hb' => exact hu.roots_free b hb _ (Nat.zero_le _) hb'
  have hs' : s ∈ before ++ r :: after := by
    simp only [List.mem_append, List.mem_cons] at hs ⊢
    tauto
  rcases hu.below_total hr hso with h | h
  · exact apart r s hs' hne h
  · exact apart s r (by simp) hne.symm h

end SiteConfig.Forest
