import Mathlib
import SiteConfig.Proofs.Steps

/-!
The handles of a session stay good: whatever is edited, they are those of the exported object and
of its plugin list, and looking for the two again finds them and changes nothing.
-/

namespace SiteConfig

namespace Document
open Forest

variable {d d' : Document} {config list : NodeId}

/-- The value of a key is that of the first property that binds it. -/
theorem value?_eq_some_iff {x id : NodeId} {key problem : String} :
    d.value? x key problem = .ok (some id) ↔
      ∃ before p after k dangling, d.expr x = .object (before ++ p :: after) dangling ∧
        (∀ q ∈ before, ¬ q.binds key) ∧ p.body = .assignment k id ∧ k.name = key := by
  constructor
  · intro h
    cases he : d.expr x with
    | object properties dangling =>
      rw [value?_of_object he] at h
      cases hf : properties.find? (·.binds key) with
      | none => simp [hf] at h
      | some p =>
        obtain ⟨hbinds, before, after, rfl, hbefore⟩ := List.find?_eq_some_iff_append.mp hf
        rcases hb : p.body with ⟨k, value⟩ | ⟨shape, text⟩
        · have hk : k.name = key := by simpa [Property.binds, Property.name?, hb] using hbinds
          have hvalue : value = id := by simpa [hf, Property.value?, hb] using h
          exact ⟨before, p, after, k, dangling, rfl, by simpa using hbefore, hvalue ▸ hb, hk⟩
        · simp [hf, Property.value?, hb] at h
    | _ => simp [value?, property?, he] at h
  · rintro ⟨before, p, after, k, dangling, he, hbefore, hb, hk⟩
    have hfind : (before ++ p :: after).find? (·.binds key) = some p := by
      refine List.find?_eq_some_iff_append.mpr ⟨?_, before, after, rfl, by simpa using hbefore⟩
      simp [Property.binds, Property.name?, hb, hk]
    rw [value?_of_object he]
    simp only [hfind, Property.value?, hb]

theorem exported?_eq_some {s : Statement NodeId} {config : NodeId}
    (h : d.exported? s = some config) :
    ∃ root left, s.body = .expression root ∧ d.expr root = .assignment left config ∧
      d.isExportTarget left := by
  unfold exported? at h
  split at h
  · rename_i root hb
    split at h
    · rename_i left right he
      split at h
      · rename_i ht
        cases h
        exact ⟨root, left, hb, he, ht⟩
      · cases h
    · cases h
  · cases h

/-- The handles are those of the exported object and of its plugin list. -/
structure Settled (d : Document) (config list : NodeId) : Prop where
  sound : d.Sound
  exported : d.firstExport? = some config
  listed : d.value? config pluginsKey pluginsProblem = .ok (some list)
  array : ∃ elements dangling, d.expr list = .array elements dangling

namespace Settled

theorem object (h : d.Settled config list) :
    ∃ properties dangling, d.expr config = .object properties dangling := by
  obtain ⟨properties, dangling, -, -, -, he, -⟩ := value?_eq_some h.listed
  exact ⟨properties, dangling, he⟩

theorem issued (h : d.Settled config list) : d.Issued list :=
  issued_of_value? h.sound h.listed

theorem perform_locate (h : d.Settled config list) :
    d.perform .locate = (.ok config, d) := by
  obtain ⟨properties, dangling, hobject⟩ := h.object
  simp only [Change.locate, perform_bind, perform_get, h.exported, hobject, perform_pure]

theorem perform_plugins (h : d.Settled config list) :
    d.perform (.plugins config) = (.ok list, d) := by
  obtain ⟨elements, dangling, harray⟩ := h.array
  simp only [Change.plugins, perform_bind, perform_ask, perform_get, h.listed, harray, perform_pure]

/-- The list hangs from a statement by nodes that no edit changes. -/
theorem anchored (h : d.Settled config list) : d.Anchored list := by
  obtain ⟨s, hs, hexported⟩ := List.exists_of_findSome?_eq_some h.exported
  obtain ⟨before, after, hsplit⟩ := List.append_of_mem hs
  obtain ⟨root, left, hb, hr, -⟩ := exported?_eq_some hexported
  obtain ⟨ps, p, qs, k, dangling, he, -, hp, -⟩ := value?_eq_some_iff.mp h.listed
  exact ⟨h.sound, config, ps, p, qs, k, dangling, ⟨before, s, after, root, left, hsplit, hb, hr⟩,
    he, hp⟩

/-- The exported object stands above the list, so no step of an edit reaches it. -/
theorem step (h : d.Settled config list) (hs : Step list d d') : d'.Settled config list := by
  have hreshaped := hs.reshaped
  have hconfig := hs.expr_above h.sound (operand_of_value? h.listed)
  obtain ⟨elements, dangling, harray⟩ := h.array
  refine ⟨hs.sound h.sound, (hreshaped.firstExport? h.sound).trans h.exported, ?_,
    hreshaped.asArray harray⟩
  rw [← h.listed]
  simp only [value?, property?, hconfig, locationAt, hreshaped.path]

theorem edited (h : d.Settled config list) (hs : Edited list d d') : d'.Settled config list := by
  induction hs with
  | refl => exact h
  | tail _ hs ih => exact ih.step hs

end Settled

/-! A session starts with settled handles. -/

theorem strayed_appendExport (d : Document) :
    Strayed d { d with forest := d.appendExport.2.forest } := by
  have ht := planted d.forest exportTarget
  have ho := planted (d.forest.plant exportTarget).2 (.made (.object [] []))
  exact ⟨rfl, rfl, _, (ht.trans ho).add (e := .assignment _ _) none⟩

/-- The nodes of the statement that is appended. -/
theorem nodes_appendExport (d : Document) :
    ∃ base target root,
      d.appendExport.2.program.statements = d.program.statements ++
        [⟨.expression root, { spaced := !d.program.statements.isEmpty }⟩] ∧
      d.appendExport.2.forest.node root = { expr := .assignment target d.appendExport.1 } ∧
      d.appendExport.2.forest.node target = { expr := .member base "exports" } ∧
      d.appendExport.2.forest.node base = { expr := .identifier "module" } ∧
      d.appendExport.2.forest.node d.appendExport.1 = { expr := .object [] [] } := by
  let base := d.forest.add { expr := .identifier "module" }
  let target := base.2.add { expr := .member base.1 "exports" }
  let object := target.2.add { expr := .object [] [] }
  let root := object.2.add { expr := .assignment target.1 object.1 }
  -- each node is looked up in the last forest, past the nodes that were added after it
  have hbase : base.2.size = base.1.index + 1 := size_add _ _
  have htarget : target.2.size = base.2.size + 1 := size_add _ _
  have hobject : object.2.size = target.2.size + 1 := size_add _ _
  have hindex : target.1.index = base.2.size := rfl
  have hmodule : root.2.node base.1 = { expr := .identifier "module" } := by
    rw [← node_add_new d.forest { expr := .identifier "module" }]
    have h1 : target.2.node base.1 = base.2.node base.1 := node_add_old (by omega)
    have h2 : object.2.node base.1 = target.2.node base.1 := node_add_old (by omega)
    exact (node_add_old (by omega)).trans (h2.trans h1)
  have hmember : root.2.node target.1 = { expr := .member base.1 "exports" } := by
    rw [← node_add_new base.2 { expr := .member base.1 "exports" }]
    have h1 : object.2.node target.1 = target.2.node target.1 := node_add_old (by omega)
    exact (node_add_old (by omega)).trans h1
  have hroot : root.2.node root.1 = { expr := .assignment target.1 object.1 } := node_add_new _ _
  have hempty : root.2.node object.1 = { expr := .object [] [] } := by
    rw [← node_add_new target.2 { expr := .object [] [] }]
    exact node_add_old (hobject ▸ Nat.lt_succ_self _)
  exact ⟨base.1, target.1, root.1, rfl, hroot, hmember, hmodule, hempty⟩

/-- The statement that is appended exports the new object. -/
theorem exported?_appendExport (d : Document) :
    ∃ s, d.appendExport.2.program.statements = d.program.statements ++ [s] ∧
      d.appendExport.2.exported? s = some d.appendExport.1 ∧
      d.appendExport.2.expr d.appendExport.1 = .object [] [] := by
  obtain ⟨base, target, root, hs, hroot, htarget, hbase, hobject⟩ := nodes_appendExport d
  refine ⟨_, hs, ?_, congrArg Node.expr hobject⟩
  simp only [exported?, isExportTarget, Document.expr, Forest.expr, hroot, htarget, hbase,
    Expr.asIdentifier?]
  rfl

theorem firstExport?_appendExport (hd : d.Sound) (h : d.firstExport? = none) :
    d.appendExport.2.firstExport? = some d.appendExport.1 := by
  have hold : d.program.statements.findSome? d.appendExport.2.exported? = none := by
    refine List.findSome?_eq_none_iff.mpr fun s hs => ?_
    refine Eq.trans ?_ (List.findSome?_eq_none_iff.mp h s hs)
    exact (Reshaped.of_strayed (strayed_appendExport d)).exported? hd hs
  obtain ⟨s, hs, hexported, -⟩ := exported?_appendExport d
  rw [firstExport?, hs, List.findSome?_append, hold, List.findSome?_singleton, hexported]
  rfl

/-- The exported object was there, or it is one that has been added. -/
theorem settled_locate (hd : d.Sound) (h : d.perform .locate = (.ok config, d')) :
    d'.Sound ∧ d'.firstExport? = some config ∧
      ∃ properties dangling, d'.expr config = .object properties dangling := by
  simp only [Change.locate, perform_bind, perform_get] at h
  cases hexport : d.firstExport? with
  | none =>
    simp only [hexport] at h
    obtain ⟨-, -, -, hobject⟩ := exported?_appendExport d
    cases h
    exact ⟨sound_appendExport hd, firstExport?_appendExport hd hexport, [], [], hobject⟩
  | some id =>
    simp only [hexport] at h
    cases he : d.expr id with
    | object properties dangling =>
      simp only [he, perform_pure] at h
      cases h
      exact ⟨hd, hexport, properties, dangling, he⟩
    | _ =>
      simp only [he, perform_throw] at h
      cases h

theorem not_binds_of_value?_none {x : NodeId} {properties : List (Property NodeId)}
    {dangling : List Comment} {key problem : String} (he : d.expr x = .object properties dangling)
    (h : d.value? x key problem = .ok none) : ∀ q ∈ properties, ¬ q.binds key := by
  have hfind : d.property? x key = properties.find? (·.binds key) := by simp [property?, he]
  rcases bind_cases he h .string with ⟨_, _, _, _, _, -, hfound, -⟩ | ⟨hnone, -, -⟩
  · cases hfound
  · exact List.find?_eq_none.mp (hfind ▸ hnone)

/-- The plugin list was there, or it is one that has been added behind the last property. -/
theorem settled_plugins (hd : d.Sound) (hexport : d.firstExport? = some config)
    (hobject : ∃ properties dangling, d.expr config = .object properties dangling)
    (h : d.perform (.plugins config) = (.ok list, d')) : d'.Settled config list := by
  obtain ⟨properties, dangling, he⟩ := hobject
  have hissued := issued_of_expr_object he
  rcases perform_plugins hissued with
    ⟨e, d'', hp, -⟩ | ⟨id, elements, dangling', hv, harray, hp⟩ |
    ⟨properties', dangling', he', hv, hp⟩
  · rw [hp] at h
    cases h
  · rw [hp] at h
    cases h
    exact ⟨hd, hexport, hv, elements, dangling', harray⟩
  · rw [hp] at h
    cases h
    have hg : ∀ v, Grafted (d.expr config).operands
        (Expr.object (properties' ++ [.ofKey (.forName pluginsKey) v]) dangling').operands v :=
      fun v => he' ▸ grafted_append properties' dangling' _ v
    have hreshaped : Reshaped d (d.withPlugins config properties' dangling') :=
      .graft hissued _ fun v => he' ▸ .object ..
    refine ⟨hd.graft hissued _ hg, (hreshaped.firstExport? hd).trans hexport, ?_, [], [], ?_⟩
    · exact value?_eq_some_iff.mpr ⟨properties', _, [], _, dangling', expr_graft hissued _ _,
        not_binds_of_value?_none he' hv, rfl, rfl⟩
    · rw [withPlugins, expr_graft_root hissued]
      exact congrArg Node.expr (node_add_new d.forest { expr := .array [] [], position := none })

theorem settled_handles (hd : d.Sound)
    (h : d.perform Editor.handles = (.ok (config, list), d')) : d'.Settled config list := by
  simp only [Editor.handles, perform_bind] at h
  rcases hlocate : d.perform .locate with ⟨e | c, d₁⟩
  · rw [hlocate] at h
    cases h
  obtain ⟨hd₁, hexport, hobject⟩ := settled_locate hd hlocate
  rw [hlocate] at h
  simp only at h
  rcases hplugins : d₁.perform (.plugins c) with ⟨e | l, d₂⟩
  · rw [hplugins] at h
    cases h
  · rw [hplugins] at h
    cases h
    exact settled_plugins hd₁ hexport hobject hplugins

end Document

namespace Editor
open Document

/-- A step on the config changes the document of a session and nothing else. -/
theorem perform_eq {α : Type} {e e' : Editor} {c : Change α} {answer : Result α}
    (h : e.perform c = (answer, e')) :
    e.document.perform c = (answer, e'.document) ∧ e'.config = e.config ∧ e'.plugins = e.plugins := by
  obtain ⟨rfl, rfl⟩ := Prod.mk.inj h
  exact ⟨rfl, rfl, rfl⟩

theorem settled_ofSource {source path : String} {e : Editor} (h : ofSource source path = .ok e) :
    e.document.Settled e.config e.plugins := by
  unfold ofSource at h
  cases hs : Document.ofSource source path with
  | error err =>
    rw [hs] at h
    cases h
  | ok d =>
    rw [hs, ok_bind, ofDocument] at h
    rcases hp : d.perform handles with ⟨err | ⟨config, list⟩, d'⟩
    · rw [hp] at h
      cases h
    · rw [hp] at h
      cases h
      exact settled_handles (sound_ofSource hs) hp

/-- The sessions that any run of edits leads to from a script that could be opened. -/
inductive Reached : Editor → Prop where
  | opened {source path : String} {e : Editor} (h : ofSource source path = .ok e) : Reached e
  | setTutorial {e : Editor} (h : Reached e) (index : Option Nat) (o : TutorialOptions) :
    Reached (e.setTutorial index o).2
  | setVersion {e : Editor} (h : Reached e) (id version : String) (r : Record) :
    Reached (e.setVersion id version r).2
  | setOnlyInclude {e : Editor} (h : Reached e) (id : String) (versions : List String) :
    Reached (e.setOnlyInclude id versions).2

theorem Reached.settled {e : Editor} (h : e.Reached) : e.document.Settled e.config e.plugins := by
  induction h with
  | opened h => exact settled_ofSource h
  | setTutorial _ index o ih => exact ih.edited (edited_setTutorial ih.issued index o)
  | setVersion _ id version r ih => exact ih.edited (edited_setVersion ih.sound id version r)
  | setOnlyInclude _ id versions ih => exact ih.edited (edited_setOnlyInclude ih.sound id versions)

theorem Reached.anchored {e : Editor} (h : e.Reached) : e.document.Anchored e.plugins :=
  h.settled.anchored

/-- What the two handles of a session stand for. -/
structure HandlesHold (e : Editor) : Prop where
  /-- The first statement that assigns to `module.exports` assigns the object `config`. -/
  exported : ∃ before s after root left properties dangling,
    e.document.program.statements = before ++ s :: after ∧
    (∀ t ∈ before, e.document.exported? t = none) ∧
    s.body = .expression root ∧ e.document.expr root = .assignment left e.config ∧
    e.document.isExportTarget left ∧ e.document.expr e.config = .object properties dangling
  /-- Its first property with the key of the plugins holds the array `plugins`. -/
  listed : ∃ before p after k dangling elements dangling',
    e.document.expr e.config = .object (before ++ p :: after) dangling ∧
    (∀ q ∈ before, ¬ q.binds pluginsKey) ∧ p.body = .assignment k e.plugins ∧
    k.name = pluginsKey ∧ e.document.expr e.plugins = .array elements dangling'
  /-- Looking for them again finds them and leaves the config as it is. -/
  located : e.document.perform .locate = (.ok e.config, e.document)
  relisted : e.document.perform (.plugins e.config) = (.ok e.plugins, e.document)

/-- In every session that a run of edits leads to, the handles stand for the exported object and
its plugin list, and looking for them again finds them. -/
theorem handlesHold_of_reached {e : Editor} (h : e.Reached) : e.HandlesHold where
  exported := by
    obtain ⟨before, s, after, hsplit, hexported, hbefore⟩ :=
      List.findSome?_eq_some_iff.mp h.settled.exported
    obtain ⟨root, left, hb, hr, ht⟩ := exported?_eq_some hexported
    obtain ⟨properties, dangling, hobject⟩ := h.settled.object
    exact ⟨before, s, after, root, left, properties, dangling, hsplit, hbefore, hb, hr, ht, hobject⟩
  listed := by
    obtain ⟨before, p, after, k, dangling, he, hbefore, hp, hk⟩ :=
      value?_eq_some_iff.mp h.settled.listed
    obtain ⟨elements, dangling', harray⟩ := h.settled.array
    exact ⟨before, p, after, k, dangling, elements, dangling', he, hbefore, hp, hk, harray⟩
  located := h.settled.perform_locate
  relisted := h.settled.perform_plugins

/-- A script with one docs plugin that has no options. -/
def docsSource : String :=
  "module.exports=\x7bplugins:[['@docusaurus/plugin-content-docs',\x7b\x7d]]\x7d"

def docsForest : Forest where
  nodes := #[
    { expr := .identifier "module", position := some ⟨1, 1⟩ },
    { expr := .member ⟨0⟩ "exports", position := some ⟨1, 1⟩ },
    { expr := .string "@docusaurus/plugin-content-docs", position := some ⟨1, 27⟩ },
    { expr := .object [] [], position := some ⟨1, 61⟩ },
    { expr := .array [{ value := ⟨2⟩ }, { value := ⟨3⟩ }] [], position := some ⟨1, 26⟩ },
    { expr := .array [{ value := ⟨4⟩ }] [], position := some ⟨1, 25⟩ },
    { expr := .object [{
        body := .assignment ⟨"plugins", .identifier⟩ ⟨5⟩, position := some ⟨1, 17⟩ }] []
      position := some ⟨1, 16⟩ },
    { expr := .assignment ⟨1⟩ ⟨6⟩, position := some ⟨1, 1⟩ }]

/-- The session that the script opens. -/
def docsEditor : Editor where
  document := {
    path := "a.js"
    forest := docsForest
    program := { statements := [{ body := .expression ⟨7⟩ }] } }
  config := ⟨6⟩
  plugins := ⟨5⟩

set_option maxRecDepth 8000 in
theorem ofSource_docsSource : ofSource docsSource "a.js" = .ok docsEditor := by cbv

theorem reached_docsEditor : docsEditor.Reached :=
  .opened ofSource_docsSource

/-- A version is added, and then an edit of a plugin that is not there is refused. -/
theorem handlesHold_of_reached_docsEditor :
    let added := docsEditor.setVersion "<default>" "next" [("label", .string "Next")]
    let refused := added.2.setOnlyInclude "api" []
    added.1 = .ok () ∧
      refused.1 = .error (.notFound "@docusaurus/plugin-content-docs (id api)") ∧
      refused.2.HandlesHold :=
  ⟨rfl, rfl, handlesHold_of_reached (.setOnlyInclude (.setVersion reached_docsEditor _ _ _) _ _)⟩

end Editor

end SiteConfig
