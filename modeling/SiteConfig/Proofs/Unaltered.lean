import SiteConfig.Proofs.Edits

/-!
Every read looks from a handle at the nodes below it. Where these are as they were, the read gives
the answer that it gave.
-/

namespace SiteConfig.Document
open Forest

variable {d d' d'' : Document} {x o : NodeId}

theorem mapM_congr {α β : Type} {f g : α → Option β} {as : List α} (h : ∀ a ∈ as, f a = g a) :
    as.mapM f = as.mapM g := by
  induction as with
  | nil => rfl
  | cons a rest ih =>
    have hrest := ih fun b hb => h b (List.mem_cons_of_mem a hb)
    simp only [List.mapM_cons, h a List.mem_cons_self, hrest]

theorem operand_of_value? {key problem : String} (h : d.value? x key problem = .ok (some o)) :
    o ∈ (d.expr x).operands := by
  obtain ⟨properties, dangling, p, before, after, he, rfl, hp⟩ := value?_eq_some h
  simp [he, Expr.operands, hp]

theorem mem_operands_of_mem_entries {list entry : NodeId} (h : entry ∈ d.entries list) :
    entry ∈ (d.expr list).operands := by
  unfold entries at h
  split at h
  · rename_i he
    simpa [he, Expr.operands] using h
  · simp at h

/-- The nodes below `x` are in `d'` what they are in `d`. -/
structure Unaltered (d d' : Document) (x : NodeId) : Prop where
  path : d'.path = d.path
  acyclic : d.forest.Acyclic
  acyclic' : d'.forest.Acyclic
  kept : ∀ y, d.forest.Below x y → d'.forest.node y = d.forest.node y

namespace Unaltered

theorem operand (h : Unaltered d d' x) (ho : o ∈ (d.expr x).operands) : Unaltered d d' o where
  path := h.path
  acyclic := h.acyclic
  acyclic' := h.acyclic'
  kept y hy := h.kept y (hy.head ho)

theorem expr (h : Unaltered d d' x) : d'.expr x = d.expr x :=
  congrArg Node.expr (h.kept x .refl)

theorem tree (h : Unaltered d d' x) : d'.tree x = d.tree x :=
  tree_congr h.acyclic h.acyclic' h.kept

theorem location (h : Unaltered d d' x) : d'.location x = d.location x := by
  simp only [Document.location, locationAt, h.path, Forest.position, h.kept x .refl]

theorem value? (h : Unaltered d d' x) (key problem : String) :
    d'.value? x key problem = d.value? x key problem := by
  simp only [Document.value?, property?, h.expr, locationAt, h.path]

theorem entries (h : Unaltered d d' x) : d'.entries x = d.entries x := by
  simp only [Document.entries, h.expr]

theorem entryShape (h : Unaltered d d' x) : d'.entryShape x = d.entryShape x := by
  simp only [Document.entryShape, h.expr]
  split
  · rename_i first second dangling he
    have h1 := h.operand (o := first.value) (by simp [he, Expr.operands])
    have h2 := h.operand (o := second.value) (by simp [he, Expr.operands])
    simp only [h1.expr, h2.expr]
  · rfl
  · rfl

theorem decoded (h : Unaltered d d' x) :
    Record.decode d'.path (d'.tree x) = Record.decode d.path (d.tree x) := by
  rw [h.path, h.tree]

theorem decodedAll (h : Unaltered d d' x) :
    Record.decodeAll d'.path (d'.tree x) = Record.decodeAll d.path (d.tree x) := by
  rw [h.path, h.tree]

/-- What was found below a node stays below it. -/
theorem below (h : Unaltered d d' x) {y : NodeId} (hy : d.forest.Below x y) :
    d'.forest.Below x y := by
  induction hy with
  | refl => exact .refl
  | @step y z hy hz ih =>
    refine .step ih ?_
    rwa [Forest.expr, h.kept y hy]

theorem trans (h : Unaltered d d' x) (h' : Unaltered d' d'' x) : Unaltered d d'' x where
  path := h'.path.trans h.path
  acyclic := h.acyclic
  acyclic' := h'.acyclic'
  kept y hy := (h'.kept y (h.below hy)).trans (h.kept y hy)

end Unaltered

/-- A member of the versions is read alike if its value is as it was. -/
theorem readVersionEntry_congr {p : Property NodeId} (hpath : d'.path = d.path)
    (h : ∀ value, p.value? = some value → Unaltered d d' value) :
    d'.readVersionEntry p = d.readVersionEntry p := by
  rcases hb : p.body with ⟨key, value⟩ | ⟨shape, text⟩
  · have hmember := h value (by simp [Property.value?, hb])
    simp only [readVersionEntry, hb, hmember.expr, hmember.location, hmember.decodedAll]
  · simp only [readVersionEntry, hb, locationAt, hpath]

/-- The same member of the object `x` gives the option `key`, and its value is as it was. -/
structure SameOption (d d' : Document) (x : NodeId) (key problem : String) : Prop where
  found : d'.value? x key problem = d.value? x key problem
  unaltered : ∀ id, d.value? x key problem = .ok (some id) → Unaltered d d' id

theorem Unaltered.option (h : Unaltered d d' x) (key problem : String) :
    SameOption d d' x key problem where
  found := h.value? key problem
  unaltered _ hid := h.operand (operand_of_value? hid)

namespace SameOption

theorem trans {key problem : String} (h : SameOption d d' x key problem)
    (h' : SameOption d' d'' x key problem) : SameOption d d'' x key problem where
  found := h'.found.trans h.found
  unaltered id hid := (h.unaltered id hid).trans (h'.unaltered id (h.found.trans hid))

theorem docsId (h : SameOption d d' x "id" idProblem) : d'.docsId x = d.docsId x := by
  simp only [Document.docsId, h.found]
  cases hv : d.value? x "id" idProblem with
  | error e => rfl
  | ok found =>
    cases found with
    | none => rfl
    | some id =>
      have hid := h.unaltered id hv
      simp only [ok_bind, hid.expr, hid.location]

theorem versionEntries (h : SameOption d d' x versionsKey versionsProblem) :
    d'.versionEntries x = d.versionEntries x := by
  simp only [Document.versionEntries, h.found]
  cases hv : d.value? x versionsKey versionsProblem with
  | error e => rfl
  | ok found =>
    cases found with
    | none => rfl
    | some id =>
      have hid := h.unaltered id hv
      simp only [hid.expr, hid.location]
      cases he : d.expr id with
      | object properties dangling =>
        have hread : properties.map d'.readVersionEntry = properties.map d.readVersionEntry :=
          List.map_congr_left fun p hp => readVersionEntry_congr hid.path fun value hvalue =>
            hid.operand (he ▸ List.mem_filterMap.mpr ⟨p, hp, hvalue⟩)
        simp only [hread]
      | _ => rfl

theorem onlyInclude (h : SameOption d d' x onlyIncludeKey onlyIncludeProblem) :
    d'.onlyInclude x = d.onlyInclude x := by
  simp only [Document.onlyInclude, h.found]
  cases hv : d.value? x onlyIncludeKey onlyIncludeProblem with
  | error e => rfl
  | ok found =>
    cases found with
    | none => rfl
    | some id =>
      have hid := h.unaltered id hv
      simp only [ok_bind, hid.expr, hid.location]
      cases he : d.expr id with
      | array elements dangling =>
        have hread : elements.mapM (fun e => (d'.expr e.value).asString?) =
            elements.mapM fun e => (d.expr e.value).asString? := by
          refine mapM_congr fun e hmem => ?_
          have hvalue : e.value ∈ (d.expr id).operands := by
            rw [he]
            exact List.mem_map_of_mem hmem
          rw [(hid.operand hvalue).expr]
        simp only [hread]
      | _ => rfl

/-- The options of a version. -/
theorem version_options {v : VersionEntry} (h : SameOption d d' x versionsKey versionsProblem)
    (hv : v ∈ (d.versionEntries x).value) : Unaltered d d' v.options := by
  obtain ⟨id, properties, dangling, p, hid, he, hp, hb⟩ := mem_versionEntries hv
  refine (h.unaltered id hid).operand ?_
  rw [he]
  exact List.mem_filterMap.mpr ⟨p, hp, by simp [Property.value?, hb]⟩

end SameOption

namespace Unaltered

/-! Reads of the options of one plugin. -/

theorem readDocsPlugin {entry : PluginEntry} (h : Unaltered d d' entry.options) :
    d'.readDocsPlugin entry = d.readDocsPlugin entry := by
  simp only [Document.readDocsPlugin, (h.option _ _).docsId, (h.option _ _).versionEntries,
    (h.option _ _).onlyInclude]

theorem readTutorialEntry {entry : PluginEntry} (h : Unaltered d d' entry.options) :
    d'.readTutorialEntry entry = d.readTutorialEntry entry := by
  simp only [Document.readTutorialEntry, h.decodedAll, h.location]

theorem namedAt {name : String} {e : NodeId × Nat} (h : Unaltered d d' e.1) :
    d'.namedAt name e = d.namedAt name e := by
  simp only [Document.namedAt, h.entryShape]

/-- The options of an entry. -/
theorem entry_options {options : NodeId} {name : String} (h : Unaltered d d' x)
    (he : d.entryShape x = .entry name options) : Unaltered d d' options := by
  obtain ⟨first, second, dangling, harray, -, -, rfl⟩ := entryShape_eq_entry he
  exact h.operand (by simp [harray, Expr.operands])

/-- The options of a plugin of a list. -/
theorem named_options {list : NodeId} {name : String} {entry : PluginEntry}
    (h : Unaltered d d' list) (he : entry ∈ d.pluginsNamed list name) :
    Unaltered d d' entry.options := by
  obtain ⟨e, hmem, hnamed⟩ := List.mem_filterMap.mp (pluginsNamed_eq d list name ▸ he)
  have hentry := List.mem_of_getElem? (List.mem_zipIdx_iff_getElem?.mp hmem)
  exact (h.operand (mem_operands_of_mem_entries hentry)).entry_options (namedAt_eq_some hnamed).2

/-- The options of a version of a plugin. -/
theorem version_options {options : NodeId} {v : VersionEntry} (h : Unaltered d d' options)
    (hv : v ∈ (d.versionEntries options).value) : Unaltered d d' v.options :=
  (h.option _ _).version_options hv

/-! Reads of a whole list. -/

variable {list : NodeId}

theorem named (h : Unaltered d d' list) (name : String) :
    d'.pluginsNamed list name = d.pluginsNamed list name := by
  simp only [pluginsNamed, h.entries]
  refine List.filterMap_congr fun e he => ?_
  have hentry := List.mem_of_getElem? (List.mem_zipIdx_iff_getElem?.mp (show (e.1, e.2) ∈ _ from he))
  simp only [(h.operand (mem_operands_of_mem_entries hentry)).entryShape]

theorem reported (h : Unaltered d d' list) (name : String) :
    d'.reportPluginsNamed list name = d.reportPluginsNamed list name := by
  have hentry : ∀ e ∈ (d.entries list).zipIdx, Unaltered d d' e.1 := by
    intro e he
    have := List.mem_zipIdx_iff_getElem?.mp (show (e.1, e.2) ∈ _ from he)
    exact h.operand (mem_operands_of_mem_entries (List.mem_of_getElem? this))
  have hm : d'.malformedEntries list = d.malformedEntries list := by
    simp only [malformedEntries, h.entries]
    refine List.filter_congr fun e he => ?_
    simp only [(hentry e he).entryShape]
  simp only [reportPluginsNamed, h.named name, hm, Report.mk.injEq, true_and]
  refine List.map_congr_left fun e he => ?_
  rw [(hentry e (List.mem_of_mem_filter he)).location]

theorem tutorials (h : Unaltered d d' list) : d'.tutorials list = d.tutorials list := by
  have hread : (d.pluginsNamed list Tutorial.pluginName).map d'.readTutorialEntry =
      (d.pluginsNamed list Tutorial.pluginName).map d.readTutorialEntry :=
    List.map_congr_left fun _ he => (h.named_options he).readTutorialEntry
  simp only [Document.tutorials, h.reported]
  simp only [reportPluginsNamed, hread]

theorem tutorial (h : Unaltered d d' list) (index : Nat) :
    d'.tutorial list index = d.tutorial list index := by
  simp only [Document.tutorial, h.named]
  cases hf : (d.pluginsNamed list Tutorial.pluginName).find? (·.index = index) with
  | none => rfl
  | some e =>
    have hx := h.named_options (List.mem_of_find?_eq_some hf)
    simp only [hx.decoded, hx.location]

theorem docsPlugins (h : Unaltered d d' list) : d'.docsPlugins list = d.docsPlugins list := by
  have hread : (d.pluginsNamed list DocsPlugin.pluginName).map d'.readDocsPlugin =
      (d.pluginsNamed list DocsPlugin.pluginName).map d.readDocsPlugin :=
    List.map_congr_left fun _ he => (h.named_options he).readDocsPlugin
  simp only [Document.docsPlugins, h.reported]
  simp only [reportPluginsNamed, hread]

theorem docsPlugin (h : Unaltered d d' list) (id : String) :
    d'.docsPlugin list id = d.docsPlugin list id := by
  simp only [Document.docsPlugin, h.docsPlugins]

end Unaltered

/-- A version is read alike if the plugins are, and if its options are as they were. -/
theorem readVersion_congr {list : NodeId} {id version : String}
    (hplugin : d'.docsPlugin list id = d.docsPlugin list id)
    (h : ∀ p v, d.docsPlugin list id = .ok p → p.version? version = some v →
      Unaltered d d' v.options) :
    d'.readVersion list id version = d.readVersion list id version := by
  simp only [readVersion, hplugin]
  cases hp : d.docsPlugin list id with
  | error e => rfl
  | ok p =>
    simp only [ok_bind]
    cases hv : p.version? version with
    | none => rfl
    | some v => simp only [(h p v hp hv).decoded]

theorem Unaltered.version {list : NodeId} (h : Unaltered d d' list) (id version : String) :
    d'.readVersion list id version = d.readVersion list id version := by
  refine readVersion_congr (h.docsPlugin id) fun p v hp hv => ?_
  have hmem := List.mem_of_find?_eq_some hv
  rw [docsPlugin_versions hp] at hmem
  exact (h.named_options (docsPlugin_entry hp)).version_options hmem

end SiteConfig.Document
