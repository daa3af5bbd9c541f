import SiteConfig.Proofs.Locality
import SiteConfig.Proofs.Refusal

/-!
Two configs that come from one by writing the same trees to the same places have the same text,
whichever nodes hold the trees. A patch of a config is one with a tree written to one place.
-/

namespace SiteConfig

variable {α β : Type}

namespace Property

def map (f : α → β) (p : Property α) : Property β where
  body := match p.body with
    | .assignment key value => .assignment key (f value)
    | .irregular shape text => .irregular shape text
  position := p.position
  trivia := p.trivia

theorem binds_map (f : α → β) (key : String) (p : Property α) :
    (p.map f).binds key = p.binds key := by
  rcases p with ⟨_ | _, position, trivia⟩ <;> rfl

theorem map_withValue (f : α → β) (p : Property α) (v : α) :
    (p.withValue v).map f = (p.map f).withValue (f v) := by
  rcases p with ⟨_ | _, position, trivia⟩ <;> rfl

theorem withValue_withValue (p : Property α) (v w : α) :
    (p.withValue v).withValue w = p.withValue w := by
  rcases p with ⟨_ | _, position, trivia⟩ <;> rfl

theorem binds_withValue (key : String) (p : Property α) (v : α) :
    (p.withValue v).binds key = p.binds key := by
  rcases p with ⟨_ | _, position, trivia⟩ <;> rfl

theorem key_eq_of_binds {p : Property α} {key key' : String} (h : p.binds key)
    (h' : p.binds key') : key = key' := by
  simp only [binds, decide_eq_true_eq] at h h'
  exact Option.some.inj (h.symm.trans h')

end Property

theorem Expr.map_object (f : α → β) (properties : List (Property α)) (dangling : List Comment) :
    (Expr.object properties dangling).map f = .object (properties.map (·.map f)) dangling := by
  simp only [Expr.map, Expr.object.injEq, and_true]
  refine List.map_congr_left fun p _ => ?_
  rcases p with ⟨_ | _, position, trivia⟩ <;> rfl

namespace Document

/-! Binding keys and putting elements, on any kind of operands. -/

theorem map_bind (f : α → β) (key : String) (form : KeyForm) (v : α) (ps : List (Property α)) :
    (bind key form v ps).map (·.map f) = bind key form (f v) (ps.map (·.map f)) := by
  induction ps with
  | nil => rfl
  | cons p rest ih =>
    by_cases hb : p.binds key
    · simp [bind, hb, Property.binds_map, Property.map_withValue]
    · simp [bind, hb, Property.binds_map, ih]

/-- The later of two values of one key is the one that stays. -/
theorem bind_bind (key : String) (form : KeyForm) (v w : α) (ps : List (Property α)) :
    bind key form w (bind key form v ps) = bind key form w ps := by
  induction ps with
  | nil => simp [bind, Property.ofKey, Property.binds, Property.name?, Property.withValue]
  | cons p rest ih =>
    by_cases hb : p.binds key
    · simp [bind, hb, Property.binds_withValue, Property.withValue_withValue]
    · simp [bind, hb, ih]

/-- Two keys are bound in either order, as long as not both are new. -/
theorem bind_comm {key key' : String} (hk : key ≠ key') (form form' : KeyForm) (v w : α)
    {ps : List (Property α)} (h : ∃ p ∈ ps, p.binds key) :
    bind key' form' w (bind key form v ps) = bind key form v (bind key' form' w ps) := by
  induction ps with
  | nil => simp at h
  | cons p rest ih =>
    by_cases hb : p.binds key
    · have hb' : ¬ p.binds key' := fun hb' => hk (Property.key_eq_of_binds hb hb')
      simp [bind, hb, hb', Property.binds_withValue]
    · have hrest : ∃ q ∈ rest, q.binds key := by simpa [hb] using h
      by_cases hb' : p.binds key'
      · simp [bind, hb, hb', Property.binds_withValue]
      · simp [bind, hb, hb', ih hrest]

theorem map_putElement (f : α → β) (v : α) (index : Nat) (es : List (Element α)) :
    (putElement v index es).map (fun e => ({ value := f e.value, trivia := e.trivia } : Element β)) =
      putElement (f v) index (es.map fun e => { value := f e.value, trivia := e.trivia }) := by
  induction es generalizing index with
  | nil => simp [putElement]
  | cons e rest ih => cases index <;> simp [putElement, ih]

theorem putElement_putElement (v w : α) {index : Nat} {es : List (Element α)}
    (h : index < es.length) :
    putElement w index (putElement v index es) = putElement w index es := by
  induction es generalizing index with
  | nil => simp at h
  | cons e rest ih =>
    cases index with
    | zero => rfl
    | succ index => simp [putElement, ih (Nat.lt_of_succ_lt_succ h)]

theorem putElement_comm (v w : α) {i j : Nat} (hij : i ≠ j) {es : List (Element α)}
    (hi : i < es.length) (hj : j < es.length) :
    putElement w j (putElement v i es) = putElement v i (putElement w j es) := by
  induction es generalizing i j with
  | nil => simp at hi
  | cons e rest ih =>
    cases i with
    | zero =>
      cases j with
      | zero => exact absurd rfl hij
      | succ j => rfl
    | succ i =>
      cases j with
      | zero => rfl
      | succ j =>
        simp only [putElement]
        rw [ih (fun h => hij (congrArg _ h)) (Nat.lt_of_succ_lt_succ hi)
          (Nat.lt_of_succ_lt_succ hj)]

end Document

open Document

/-- A place in an array or object that a value can be put to. -/
inductive Place where
  | element (index : Nat)
  | member (key : String) (form : KeyForm)

namespace Place

def put (s : Place) (v : α) (e : Expr α) : Expr α :=
  match s, e with
  | element index, .array elements dangling => .array (putElement v index elements) dangling
  | member key form, .object properties dangling => .object (bind key form v properties) dangling
  | _, e => e

/-- Something stands at the place. -/
def Held (s : Place) (e : Expr α) : Prop :=
  match s, e with
  | element index, .array elements _ => index < elements.length
  | member key _, .object properties _ => ∃ p ∈ properties, p.binds key
  | _, _ => False

/-- Two places are not the same one of one expression. -/
def Apart : Place → Place → Prop
  | element i, element j => i ≠ j
  | member key _, member key' _ => key ≠ key'
  | _, _ => True

theorem map_put (s : Place) (f : α → β) (v : α) (e : Expr α) :
    (s.put v e).map f = s.put (f v) (e.map f) := by
  cases s with
  | element index =>
    cases e with
    | array elements dangling => exact congrArg (Expr.array · dangling) (map_putElement f v index elements)
    | _ => rfl
  | member key form =>
    cases e with
    | object properties dangling =>
      simp only [put, Expr.map_object]
      exact congrArg (Expr.object · dangling) (map_bind f key form v properties)
    | _ => rfl

theorem held_map (s : Place) (f : α → β) (e : Expr α) : s.Held (e.map f) ↔ s.Held e := by
  cases s with
  | element index => cases e <;> simp [Held, Expr.map]
  | member key form =>
    cases e with
    | object properties dangling => simp [Held, Expr.map_object, Property.binds_map]
    | _ => rfl

/-- The later of two values put to one place is the one that stays. -/
theorem put_put (s : Place) (v w : α) {e : Expr α}
    (h : s.Held e ∨ ∃ key form, s = member key form) : s.put w (s.put v e) = s.put w e := by
  cases s with
  | element index =>
    have hheld : (element index).Held e := h.resolve_right (by simp)
    cases e with
    | array elements dangling =>
      exact congrArg (Expr.array · dangling) (putElement_putElement v w hheld)
    | _ => rfl
  | member key form =>
    cases e with
    | object properties dangling =>
      exact congrArg (Expr.object · dangling) (bind_bind key form v w properties)
    | _ => rfl

/-- Values are put in either order to two places that are held. -/
theorem put_comm {s s' : Place} (hs : s.Apart s') (v w : α) {e : Expr α} (h : s.Held e)
    (h' : s'.Held e) : s'.put w (s.put v e) = s.put v (s'.put w e) := by
  cases e with
  | array elements dangling =>
    cases s with
    | member => cases h
    | element i =>
      cases s' with
      | member => cases h'
      | element j => exact congrArg (Expr.array · dangling) (putElement_comm v w hs h h')
  | object properties dangling =>
    cases s with
    | element => cases h
    | member key form =>
      cases s' with
      | element => cases h'
      | member key' form' =>
        exact congrArg (Expr.object · dangling) (bind_comm hs form form' v w h)
  | _ => cases s <;> cases h

end Place

/-- A place in the expression of a node. -/
structure Spot where
  node : NodeId
  place : Place

/-- Puts a tree to a place of one node. -/
def Spot.fill (w : Spot) (t : Tree) (x : NodeId) (e : Expr Tree) : Expr Tree :=
  if x = w.node then w.place.put t e else e

theorem Spot.fill_comm {w w' : Spot} (hapart : w.node = w'.node → w.place.Apart w'.place)
    {x : NodeId} {e : Expr Tree} (h : x = w.node → w.place.Held e)
    (h' : x = w'.node → w'.place.Held e) (t t' : Tree) :
    w'.fill t' x (w.fill t x e) = w.fill t x (w'.fill t' x e) := by
  by_cases hx : x = w.node
  · by_cases hx' : x = w'.node
    · rw [fill, fill, fill, fill, if_pos hx, if_pos hx', if_pos hx, if_pos hx']
      exact Place.put_comm (hapart (hx.symm.trans hx')) t t' (h hx) (h' hx')
    · simp only [fill, hx', if_false]
  · simp only [fill, hx, if_false]

namespace Document
open Forest

variable {d d' : Document} {w w' : Spot} {t t' : Tree} {x : NodeId}

/-- Writes a tree to a place. -/
def write (d : Document) (w : Spot) (t : Tree) : Document :=
  d.graft w.node t fun v => w.place.put v (d.expr w.node)

/-- The place takes a value up, and lets go of no more than one. -/
structure Fits (d : Document) (w : Spot) : Prop where
  issued : d.Issued w.node
  grafted : ∀ v, Grafted (d.expr w.node).operands (w.place.put v (d.expr w.node)).operands v

theorem Sound.write (hd : d.Sound) (hw : d.Fits w) (t : Tree) : (d.write w t).Sound :=
  hd.graft hw.issued t hw.grafted

/-- `d'` is `d` with the tree `t` at `w`, which hangs from the new node `v`. -/
structure Patch (d d' : Document) (w : Spot) (v : NodeId) (t : Tree) : Prop where
  sound : d'.Sound
  program : d'.program = d.program
  issued : ∀ x, d.Issued x → d'.Issued x
  position : ∀ x, d.Issued x → d'.forest.position x = d.forest.position x
  other : ∀ x, d.Issued x → x ≠ w.node → d'.expr x = d.expr x
  site : d'.expr w.node = w.place.put v (d.expr w.node)
  new : ¬ d.Issued v ∧ d'.Issued v
  shown : d'.tree v = t
  /-- New nodes refer to new nodes only. -/
  closed : ∀ y o, ¬ d.Issued y → o ∈ (d'.expr y).operands → ¬ d.Issued o

theorem issued_iff_of_write : (d.write w t).Issued x ↔ (d.plant t).2.Issued x := by
  rw [Issued, Issued, show (d.write w t).forest.size = (d.plant t).2.forest.size from size_set _ _ _]

theorem expr_write_site (hw : d.Fits w) (t : Tree) :
    (d.write w t).expr w.node = w.place.put (d.plant t).1 (d.expr w.node) :=
  expr_graft hw.issued t _

theorem expr_write_other (hx : d.Issued x) (h : x ≠ w.node) (t : Tree) :
    (d.write w t).expr x = d.expr x :=
  expr_graft_ne hx h t _

theorem patch_write (hd : d.Sound) (hw : d.Fits w) (t : Tree) :
    Patch d (d.write w t) w (d.plant t).1 t := by
  have hp := planted d.forest t
  have hnew := hp.fresh (d.plant t).1 (by simp [plant])
  refine ⟨hd.write hw t, rfl, fun x hx => ?_, fun x hx => ?_,
    fun x hx hne => expr_write_other hx hne t, expr_write_site hw t,
    ⟨Nat.not_lt.mpr hnew.1, issued_iff_of_write.mpr hnew.2⟩,
    tree_graft_new hd hw.issued hw.grafted, fun y o hy ho hissued => ?_⟩
  · exact issued_iff_of_write.mpr (Nat.lt_of_lt_of_le hx hp.size_le)
  · exact (position_set _ x _).trans (congrArg Node.position (hp.old x hx))
  · have hne : y ≠ w.node := by
      rintro rfl
      exact hy hw.issued
    have hexpr : (d.write w t).expr y = (d.plant t).2.expr y := expr_set_of_ne _ hne
    rw [hexpr] at ho
    exact absurd hissued (Nat.not_lt.mpr (hp.operands y (Nat.not_lt.mp hy) o ho).1)

namespace Patch

variable {v : NodeId}

/-- What is below a new node is as it was when something is written to an old one. -/
theorem unaltered_new (h : Patch d d' w v t) (hw' : d'.Fits w') (ho : d.Issued w'.node)
    (t' : Tree) (hx : ¬ d.Issued x) (hx' : d'.Issued x) : Unaltered d' (d'.write w' t') x := by
  refine .graft h.sound hw'.issued hw'.grafted hx' fun hbelow => ?_
  have hnew : ∀ y, d'.forest.Below x y → ¬ d.Issued y := by
    intro y hy
    induction hy with
    | refl => exact hx
    | step _ hz ih => exact h.closed _ _ ih hz
  exact hnew _ hbelow ho

end Patch

/-- The trees of `d'`, one level down, are those of `d` with a change to each expression. -/
structure Shown (d d' : Document) (change : NodeId → Expr Tree → Expr Tree) : Prop where
  program : d'.program = d.program
  tree : ∀ x, d.Issued x →
    d'.tree x = .node (d.forest.position x) (change x ((d.expr x).map d'.tree))

/-- The changes alone determine what is seen of the nodes that there were. -/
theorem Shown.tree_eq {change change' : NodeId → Expr Tree → Expr Tree} {d₁ d₂ : Document}
    (hd : d.Sound) (h₁ : Shown d d₁ change) (h₂ : Shown d d₂ change')
    (hsame : ∀ x (look : NodeId → Tree), d.Issued x →
      change x ((d.expr x).map look) = change' x ((d.expr x).map look))
    (hx : d.Issued x) : d₁.tree x = d₂.tree x := by
  obtain ⟨rank, hr⟩ := hd.acyclic
  induction hn : rank x using Nat.strong_induction_on generalizing x with
  | _ n ih =>
    have hbelow : (d.expr x).map d₁.tree = (d.expr x).map d₂.tree :=
      Expr.map_congr fun o ho =>
        ih (rank o) (hn ▸ hr.descends x o ho) (hr.issued x o ho) rfl
    rw [h₁.tree x hx, h₂.tree x hx, hsame x d₁.tree hx, hbelow]

theorem Shown.render_eq {change change' : NodeId → Expr Tree → Expr Tree} {d₁ d₂ : Document}
    (hd : d.Sound) (h₁ : Shown d d₁ change) (h₂ : Shown d d₂ change')
    (hsame : ∀ x (look : NodeId → Tree), d.Issued x →
      change x ((d.expr x).map look) = change' x ((d.expr x).map look)) :
    d₁.render = d₂.render := by
  have hs : d.program.statements.map d₁.statementTree =
      d.program.statements.map d₂.statementTree := by
    refine List.map_congr_left fun s hs => ?_
    rcases s with ⟨value | text, trivia⟩
    · simp only [statementTree, Shown.tree_eq hd h₁ h₂ hsame (hd.issued_root hs rfl)]
    · rfl
  simp only [Document.render, toProgram, h₁.program, h₂.program, hs]

namespace Patch

variable {v : NodeId}

theorem shown_fill (h : Patch d d' w v t) : Shown d d' (w.fill t) where
  program := h.program
  tree x hx := by
    rw [tree_of_expr h.sound x, h.position x hx]
    by_cases hxw : x = w.node
    · subst hxw
      rw [h.site, Place.map_put, h.shown, Spot.fill, if_pos rfl]
    · rw [h.other x hx hxw, Spot.fill, if_neg hxw]

/-- What is shown when another tree is written to the same place. -/
theorem shown_again (h : Patch d d' w v t) (hw' : d'.Fits w)
    (hput : w.place.Held (d.expr w.node) ∨ ∃ key form, w.place = .member key form) (t' : Tree) :
    Shown d (d'.write w t') (w.fill t') where
  program := h.program
  tree x hx := by
    have hp := patch_write h.sound hw' t'
    rw [hp.shown_fill.tree x (h.issued x hx), h.position x hx]
    by_cases hxw : x = w.node
    · subst hxw
      simp only [h.site, Place.map_put, Spot.fill, if_true]
      rw [Place.put_put _ _ _ (hput.imp_left (Place.held_map _ _ _).mpr)]
    · rw [h.other x hx hxw]

/-- What is shown when an old node takes up a second tree. -/
theorem shown_write (h : Patch d d' w v t) (hw' : d'.Fits w') (ho : d.Issued w'.node)
    (t' : Tree) : Shown d (d'.write w' t') fun x e => w'.fill t' x (w.fill t x e) where
  program := h.program
  tree x hx := by
    have hp := patch_write h.sound hw' t'
    have hv : (d'.write w' t').tree v = t :=
      (h.unaltered_new hw' ho t' h.new.1 h.new.2).tree.trans h.shown
    rw [hp.shown_fill.tree x (h.issued x hx), h.position x hx]
    congr 2
    by_cases hxw : x = w.node
    · subst hxw
      rw [h.site, Place.map_put, hv, Spot.fill, if_pos rfl]
    · rw [h.other x hx hxw, Spot.fill, if_neg hxw]

end Patch

end Document

end SiteConfig
