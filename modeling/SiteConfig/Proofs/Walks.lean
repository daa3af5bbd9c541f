import Mathlib
import SiteConfig.Proofs.Handles

/-!
The nodes of a config stay a forest, whatever is planted and edited. Every walk from a handle to
the operands of its node, to theirs and so on meets handles that were given out only, none of them
twice, so that it ends; and no read looks at a handle that was not given out.
-/

namespace SiteConfig

namespace Forest

/-- What is seen from a node that is followed to its leaves: at each step the node is one of the
forest. -/
inductive Shows (f : Forest) : NodeId → Tree → Prop where
  | node {x : NodeId} {n : Node} {look : NodeId → Tree} (hn : f.nodes[x.index]? = some n)
    (h : ∀ o ∈ n.expr.operands, Shows f o (look o)) :
    Shows f x (.node n.position (n.expr.map look))

variable {f : Forest} {roots : List NodeId}

theorem getElem?_of_lt {x : NodeId} (hx : x.index < f.size) :
    f.nodes[x.index]? = some (f.node x) := by
  have hs : x.index < f.nodes.size := hx
  simp [node, hs]

theorem node_of_getElem? {x : NodeId} {n : Node} (hn : f.nodes[x.index]? = some n) :
    f.node x = n := by
  rw [node, Array.getD_eq_getD_getElem?, hn, Option.getD_some]

/-- A node shows one tree at most. -/
theorem Shows.unique {x : NodeId} {t t' : Tree} (h : f.Shows x t) (h' : f.Shows x t') :
    t = t' := by
  induction h generalizing t' with
  | @node x n look hn _ ih =>
    cases h' with
    | @node _ n' look' hn' h' =>
      obtain rfl : n = n' := (node_of_getElem? hn).symm.trans (node_of_getElem? hn')
      congr 1
      exact Expr.map_congr fun o ho => ih o ho (h' o ho)

/-- A look from any node that is there is followed to the end. -/
theorem shows_tree (h : f.Acyclic) {x : NodeId} (hx : x.index < f.size) :
    f.Shows x (f.tree x) := by
  obtain ⟨rank, hr⟩ := h
  induction hn : rank x using Nat.strong_induction_on generalizing x with
  | _ n ih =>
    rw [tree_eq ⟨rank, hr⟩]
    refine .node (getElem?_of_lt hx) fun o ho => ?_
    exact ih (rank o) (hn ▸ hr.descends x o ho) (hr.issued x o ho) rfl

/-- A node is not below its own operands. -/
theorem Acyclic.not_below_operand (h : f.Acyclic) {x o : NodeId}
    (ho : o ∈ (f.expr x).operands) : ¬ f.Below o x := by
  obtain ⟨rank, hr⟩ := h
  intro hx
  have hle := hx.rank_le hr
  have hlt := hr.descends x o ho
  omega

/-- Handles of which each is an operand of the one before it. -/
abbrev IsWalk (f : Forest) (path : List NodeId) : Prop :=
  path.IsChain fun x o => o ∈ (f.expr x).operands

theorem IsWalk.mem_lt (h : f.Acyclic) {x : NodeId} {path : List NodeId} (hx : x.index < f.size)
    (hw : f.IsWalk (x :: path)) : ∀ y ∈ x :: path, y.index < f.size := by
  obtain ⟨rank, hr⟩ := h
  induction path generalizing x with
  | nil => simpa using hx
  | cons o rest ih =>
    obtain ⟨ho, hrest⟩ := List.isChain_cons_cons.mp hw
    exact List.forall_mem_cons.mpr ⟨hx, ih (hr.issued x o ho) hrest⟩

/-- No walk comes to a node for the second time. -/
theorem IsWalk.nodup (h : f.Acyclic) {path : List NodeId} (hw : f.IsWalk path) : path.Nodup := by
  obtain ⟨rank, hr⟩ := h
  have hdescends : path.IsChain fun x o => rank o < rank x :=
    hw.imp fun x o ho => hr.descends x o ho
  have : IsTrans NodeId fun x o => rank o < rank x := ⟨fun _ _ _ hab hbc => hbc.trans hab⟩
  exact hdescends.pairwise.imp fun hlt heq => by simp [heq] at hlt

theorem length_le_size {path : List NodeId} (hn : path.Nodup)
    (hlt : ∀ y ∈ path, y.index < f.size) : path.length ≤ f.size := by
  have hinj : Function.Injective NodeId.index := by
    rintro ⟨i⟩ ⟨j⟩ h
    exact congrArg NodeId.mk h
  have hsub : (path.map NodeId.index).toFinset ⊆ Finset.range f.size := by
    intro i hi
    obtain ⟨y, hy, rfl⟩ := List.mem_map.mp (List.mem_toFinset.mp hi)
    exact Finset.mem_range.mpr (hlt y hy)
  have hcard := Finset.card_le_card hsub
  rwa [List.toFinset_card_of_nodup (hn.map hinj), List.length_map, Finset.card_range] at hcard

/-- A forest with more nodes behind its own. -/
def padded (f : Forest) (more : Array Node) : Forest :=
  ⟨f.nodes ++ more⟩

theorem node_padded_old (more : Array Node) {x : NodeId} (hx : x.index < f.size) :
    (f.padded more).node x = f.node x := by
  have hs : x.index < f.nodes.size := hx
  simp only [node, padded, Array.getD_eq_getD_getElem?, Array.getElem?_append_left hs]

theorem operands_padded_new {more : Array Node} (hmore : ∀ n ∈ more, n.expr.operands = [])
    {x : NodeId} (hx : f.size ≤ x.index) : ((f.padded more).expr x).operands = [] := by
  have hs : f.nodes.size ≤ x.index := hx
  simp only [expr, node, padded, Array.getD_eq_getD_getElem?, Array.getElem?_append_right hs]
  cases hn : more[x.index - f.nodes.size]? with
  | none => rfl
  | some n => exact hmore n (Array.mem_of_getElem? hn)

theorem planted_padded {more : Array Node} (hmore : ∀ n ∈ more, n.expr.operands = []) :
    Planted f (f.padded more) [] where
  size_le := by simp [padded, size]
  old _ hx := node_padded_old more hx
  fresh := by simp
  operands x hx o ho := by simp [operands_padded_new hmore hx] at ho
  unshared := {
    roots_nodup := List.nodup_nil
    operands_nodup := fun x hx => by simp [operands_padded_new hmore hx]
    parent_unique := fun x _ _ hx _ ho => by simp [operands_padded_new hmore hx] at ho
    roots_free := by simp }

end Forest

namespace Document
open Forest

variable {d : Document}

/-- The configs that planting and editing, in any order, lead to from a script that could be
read. -/
inductive Tended : Document → Prop where
  | opened {source path : String} {d : Document} (h : ofSource source path = .ok d) : Tended d
  | operated {d : Document} (h : Tended d) (op : Operation) (hop : d.Accepts op) :
    Tended (d.perform op.change).2
  | encoded {d : Document} (h : Tended d) (v : Value) : Tended (d.plant v.encode).2
  | built {d : Document} (h : Tended d) (name : String) (r : Record) :
    Tended (d.plant (entryTree name r)).2

theorem Sound.plant (hd : d.Sound) (t : Tree) : (d.plant t).2.Sound :=
  (Strayed.plant d t).sound hd

theorem Tended.sound (h : d.Tended) : d.Sound := by
  induction h with
  | opened h => exact sound_ofSource h
  | operated _ op hop ih => exact ih.operated op hop
  | encoded _ v ih => exact ih.plant v.encode
  | built _ name r ih => exact ih.plant (entryTree name r)

/-- A config with more nodes behind its own, at handles that it has not given out. -/
def padded (d : Document) (more : Array Node) : Document :=
  { d with forest := d.forest.padded more }

theorem strayed_padded {more : Array Node} (hmore : ∀ n ∈ more, n.expr.operands = []) :
    Strayed d (d.padded more) :=
  ⟨rfl, rfl, [], planted_padded hmore⟩

/-- The nodes of a config are a forest, in which every look ends. -/
structure Wooded (d : Document) : Prop where
  /-- The statements refer to nodes that are there. -/
  statements : ∀ s ∈ d.program.statements, ∀ x ∈ s.root?, d.Issued x
  /-- So do the nodes. -/
  operands : ∀ x o : NodeId, o ∈ (d.expr x).operands → d.Issued o
  /-- No node is below itself. -/
  acyclic : ∀ x o : NodeId, o ∈ (d.expr x).operands → ¬ d.forest.Below o x
  /-- No node is referred to from two places. -/
  unshared : d.forest.Unshared 0 d.roots
  /-- A walk meets nodes of the config only, each once at most. -/
  walks : ∀ x path, d.Issued x → d.forest.IsWalk (x :: path) →
    (∀ y ∈ path, d.Issued y) ∧ (x :: path).Nodup ∧ (x :: path).length ≤ d.forest.size
  /-- The tree that is written and decoded is the one that is seen at the end of all walks. -/
  shown : ∀ x, d.Issued x → ∀ t, d.forest.Shows x t ↔ t = d.tree x
  /-- No read depends on what is at a handle that was not given out. -/
  withinRange : ∀ more : Array Node, (∀ n ∈ more, n.expr.operands = []) →
    ReadsAlike d (d.padded more) ∧ (d.padded more).firstExport? = d.firstExport? ∧
      ∀ x key problem, d.Issued x → (d.padded more).value? x key problem = d.value? x key problem

/-- An operation leaves what its change leaves. -/
theorem Tended.changed {α : Type} (h : d.Tended) (op : Operation) (hop : d.Accepts op)
    {c : Change α} {f : α → Answer} (hc : op.change = f <$> c) : (d.perform c).2.Tended := by
  have hstep := h.operated op hop
  rwa [hc, perform_map] at hstep

theorem Reached.tended (h : d.Reached) : d.Tended := by
  induction h with
  | opened h => exact .opened h
  | step _ op hop ih => exact .operated ih op hop

end Document

namespace Editor
open Document

theorem tended_ofSource {source path : String} {e : Editor} (h : ofSource source path = .ok e) :
    e.document.Tended := by
  cases hs : Document.ofSource source path with
  | error err =>
    rw [ofSource, hs] at h
    cases h
  | ok d =>
    rw [ofSource, hs, ok_bind, ofDocument] at h
    have hd : d.Tended := .opened hs
    have hlocated := hd.changed .locate (by simp [Accepts, Operation.handle?]) rfl
    simp only [handles, perform_bind] at h
    rcases hlocate : d.perform .locate with ⟨err | config, d₁⟩
    · simp [hlocate, Except.map] at h
    · rw [hlocate] at h hlocated
      obtain ⟨hsound, -, properties, dangling, hobject⟩ := settled_locate hd.sound hlocate
      have hlisted := hlocated.changed (.plugins config)
        (by simpa [Accepts, Operation.handle?] using issued_of_expr_object hobject) rfl
      rcases hplugins : d₁.perform (.plugins config) with ⟨err | list, d₂⟩
      · simp [hplugins, Except.map] at h
      · simp only [hplugins, perform_pure, Except.map, Except.ok.injEq] at h hlisted
        exact h ▸ hlisted

/-- The configs of all sessions are among those that planting and editing lead to. -/
theorem Reached.tended {e : Editor} (h : e.Reached) : e.document.Tended := by
  induction h with
  | opened h => exact tended_ofSource h
  | @setTutorial e h index o ih =>
    change (e.document.perform (.setTutorial e.plugins index o)).2.Tended
    refine ih.changed (.setTutorial e.plugins index o) ?_ rfl
    simpa [Accepts, Operation.handle?] using h.settled.issued
  | @setVersion e h id version r ih =>
    change (e.document.perform (.setVersion e.plugins id version r)).2.Tended
    refine ih.changed (.setVersion e.plugins id version r) ?_ rfl
    simpa [Accepts, Operation.handle?] using h.settled.issued
  | @setOnlyInclude e h id versions ih =>
    change (e.document.perform (.setOnlyInclude e.plugins id versions)).2.Tended
    refine ih.changed (.setOnlyInclude e.plugins id versions) ?_ rfl
    simpa [Accepts, Operation.handle?] using h.settled.issued

end Editor

namespace Document
open Forest

variable {d : Document}

/-- Whatever is planted and edited, the nodes of the config are a forest. -/
theorem wooded_of_tended (h : d.Tended) : d.Wooded where
  statements _ hs _ hx := h.sound.issued_root hs hx
  operands _ _ ho := Forest.Sound.operand_lt h.sound ho
  acyclic _ _ ho := h.sound.acyclic.not_below_operand ho
  unshared := h.sound.unshared
  walks x path hx hw := by
    have hlt := hw.mem_lt h.sound.acyclic hx
    have hnodup := hw.nodup h.sound.acyclic
    exact ⟨fun y hy => hlt y (List.mem_cons_of_mem x hy), hnodup, length_le_size hnodup hlt⟩
  shown x hx t := by
    have htree := shows_tree h.sound.acyclic hx
    exact ⟨fun ht => ht.unique htree, fun ht => ht ▸ htree⟩
  withinRange more hmore := by
    have hs : Strayed d (d.padded more) := strayed_padded hmore
    refine ⟨hs.readsAlike h.sound, ?_, fun x key problem hx => ?_⟩
    · exact (Reshaped.of_strayed hs).firstExport? h.sound
    · exact (hs.unaltered h.sound hx).value? key problem

/-- The old list refers to a new entry, and two trees are planted that nothing refers to. -/
theorem wooded_of_tended_withEntry :
    let entered := withEntry "x" [("tags", .list [.string "a"])]
    let built := (entered.plant (entryTree "y" [])).2
    entered.expr ⟨4⟩ = .array [{ value := ⟨9⟩ }] [] ∧
      (built.plant (Value.path "./a").encode).2.Wooded := by
  intro entered built
  have hentered : entered.Tended := (reached_withEntry "x" _).tended
  exact ⟨rfl, wooded_of_tended (.encoded (.built hentered "y" []) (.path "./a"))⟩

end Document

end SiteConfig
