import SiteConfig.Proofs.Binding

/-!
What the edits of a docs plugin do in a session, and when they find no plugin.
-/

namespace SiteConfig

namespace Change
open Document

/-- The step does not fail for want of a plugin. -/
def Fatal {α : Type} (c : Change α) : Prop :=
  ∀ (d : Document) (e : ConfigError), (d.perform c).1 = .error e → e.isFatal

namespace Fatal

variable {α β : Type}

theorem pure (a : α) : Fatal (pure a) := by
  intro d e h
  cases h

theorem throw {e : ConfigError} (he : e.isFatal) : Fatal (throw e : Change α) := by
  intro d e' h
  cases h
  exact he

theorem get : Fatal (get : Change Document) := by
  intro d e h
  cases h

theorem modify (f : Document → Document) : Fatal (modify f : Change Unit) := by
  intro d e h
  cases h

theorem plant (t : Tree) : Fatal (plant t) := by
  intro d e h
  cases h

theorem ask {f : Document → Result α} (hf : ∀ d e, f d = .error e → e.isFatal) :
    Fatal (ask f) := hf

theorem bind {c : Change α} {k : α → Change β} (hc : Fatal c) (hk : ∀ a, Fatal (k a)) :
    Fatal (c >>= k) := by
  intro d e h
  rw [perform_bind] at h
  rcases hp : d.perform c with ⟨e' | a, d'⟩
  · rw [hp] at h
    cases h
    exact hc d e (congrArg Prod.fst hp)
  · rw [hp] at h
    exact hk a d' e h

/-- A key that is no `key: value` is a fault of the config. -/
theorem value? (x : NodeId) (key problem : String) : Fatal (.ask (·.value? x key problem)) := by
  refine .ask fun d e h => ?_
  simp only [Document.value?] at h
  split at h
  · cases h
  · split at h <;> cases h
    rfl

theorem versions (options : NodeId) : Fatal (versions options) := by
  refine (value? _ _ _).bind fun found => ?_
  cases found with
  | some id =>
    refine get.bind fun d => ?_
    split
    · exact pure id
    · exact throw rfl
  | none =>
    refine (plant _).bind fun id => get.bind fun d => ?_
    split
    · exact (modify _).bind fun _ => pure id
    · exact throw rfl

theorem putVersion (options : NodeId) (key : String) (r : Record) :
    Fatal (putVersion options key r) := by
  refine (versions options).bind fun id => (value? _ _ _).bind fun _ => ?_
  refine (plant _).bind fun record => get.bind fun d => ?_
  split
  · exact modify _
  · exact throw rfl

theorem putOption (object : NodeId) (key : String) (value : Value) :
    Fatal (putOption object key value) := by
  refine (value? _ _ _).bind fun _ => (plant _).bind fun id => get.bind fun d => ?_
  split
  · exact modify _
  · exact throw rfl

end Fatal

end Change

namespace Document
open Forest

variable {d d' : Document} {list : NodeId}

/-- Some docs plugin of the list has the id `id`, and it can be read. -/
def HasDocs (d : Document) (list : NodeId) (id : String) : Prop :=
  ∃ entry ∈ d.pluginsNamed list DocsPlugin.pluginName, d.docsId entry.options = .ok id

theorem hasDocs_iff (d : Document) (list : NodeId) (id : String) :
    d.HasDocs list id ↔ ∃ p, d.docsPlugin list id = .ok p := by
  constructor
  · rintro ⟨entry, hentry, hid⟩
    have hmem : d.docsPluginAt entry id ∈ (d.docsPlugins list).value := by
      rw [docsPlugins_value]
      refine List.mem_filterMap.mpr ⟨entry, hentry, ?_⟩
      rw [value_readDocsPlugin, hid]
      rfl
    cases hf : (d.docsPlugins list).value.find? (·.id = id) with
    | some p => exact ⟨p, by simp only [docsPlugin, hf]⟩
    | none =>
      have hid' : (d.docsPluginAt entry id).id = id := rfl
      exact absurd hid' (by simpa using List.find?_eq_none.mp hf _ hmem)
  · rintro ⟨p, hp⟩
    obtain ⟨entry, hentry, hid, -⟩ := docsPlugin_read hp
    exact ⟨entry, hentry, hid⟩

/-- An edit of a plugin that fails otherwise than for want of it misses it exactly if there is
none with the id. -/
theorem missing_iff {id : String} {c : DocsPlugin → Change Unit} (hc : ∀ p, (c p).Fatal) :
    (∃ what, (d.perform (do c (← Change.ask (·.docsPlugin list id)))).1 =
      .error (.notFound what)) ↔ ¬ d.HasDocs list id := by
  rw [hasDocs_iff, perform_bind, perform_ask]
  cases hp : d.docsPlugin list id with
  | ok p =>
    refine ⟨fun ⟨what, h⟩ => ?_, fun h => absurd ⟨p, rfl⟩ h⟩
    have hfatal := hc p d _ h
    cases hfatal
  | error e =>
    obtain ⟨what, rfl⟩ : ∃ what, e = .notFound what := by
      unfold docsPlugin at hp
      split at hp <;> cases hp
      exact ⟨_, rfl⟩
    refine ⟨fun _ => ?_, fun _ => ⟨what, rfl⟩⟩
    rintro ⟨p, h⟩
    cases h

/-! What a version edit does to the options of its plugin. -/

variable {x : NodeId} {version : String} {r : Record}

/-- `version` is bound to `r` in the versions of the options `x`, which may be new. -/
structure VersionBound (d d' : Document) (x : NodeId) (version : String) (r : Record) : Prop where
  confined : Confined d d' x
  other : ∀ key problem, key ≠ versionsKey → SameOption d d' x key problem
  written : VersionWritten d d' x version r
  bound : ∃ old versions, Rebound versionsKey (PropertyKey.forName versionsKey).form old versions
    (d.tree x) (d'.tree x) ∧ ∃ previous, Rebound version .string previous r.encode
      (old.getD (.made (.object [] []))) versions

theorem versionBound_graft (hd : d.Sound) {o : NodeId} {properties : List (Property NodeId)}
    {dangling : List Comment} {found : Option NodeId} {problem : String}
    (hr : (Value.record r).Keyed) (hv : d.value? x versionsKey versionsProblem = .ok (some o))
    (he : d.expr o = .object properties dangling) (hk : d.value? o version problem = .ok found) :
    VersionBound d
      (d.graft o r.encode fun v => .object (bind version .string v properties) dangling) x
      version r := by
  have ho := issued_of_expr_object he
  have hkind : ∀ v, (d.expr o).SameKind (.object (bind version .string v properties) dangling) :=
    fun v => he ▸ .object ..
  have hg := grafted_bind he hk .string
  have hconfined : Confined d
      (d.graft o r.encode fun v => .object (bind version .string v properties) dangling) o :=
    .graft hd .refl ho r.encode hg hkind
  have hbelow : d.forest.Below x o := Below.refl.step (operand_of_value? hv)
  exact {
    confined := .graft hd hbelow ho r.encode hg hkind
    other := fun key problem hkey => hconfined.option hd hv hkey
    written := versionWritten_graft hd hr hv he hk
    bound := ⟨some (d.tree o), _, hconfined.rebound hd hv _, _,
      rebound_graft hd he hk .string r.encode⟩ }

/-- The options get their first versions: an empty object is bound, and then the version in it. -/
theorem versionBound_withVersions (hd : d.Sound) {properties : List (Property NodeId)}
    {dangling : List Comment} (hr : (Value.record r).Keyed)
    (he : d.expr x = .object properties dangling)
    (hv : d.value? x versionsKey versionsProblem = .ok none) :
    VersionBound d ((d.withVersions x properties dangling).graft
      (d.plant (.made (.object [] []))).1 r.encode fun v =>
        .object [.ofKey ⟨version, .string⟩ v] []) x version r := by
  have hx := issued_of_expr_object he
  have hg := grafted_bind he hv (PropertyKey.forName versionsKey).form
  have hnew := expr_withVersions hx properties dangling
  have hk := value?_withVersions hx properties dangling version (versionProblem version)
  have hexpr := expr_graft hx (.made (.object [] [])) fun v =>
    .object (bind versionsKey (PropertyKey.forName versionsKey).form v properties) dangling
  have hconfined : Confined d (d.withVersions x properties dangling) x := by
    rw [withVersions_eq_graft he hv]
    exact .graft hd .refl hx _ hg fun v => he ▸ .object ..
  have hother : ∀ key problem, key ≠ versionsKey →
      SameOption d (d.withVersions x properties dangling) x key problem := by
    intro key problem hkey
    rw [withVersions_eq_graft he hv]
    exact option_bind hd he hv _ _ hkey
  have hempty : Rebound versionsKey (PropertyKey.forName versionsKey).form none
      (.made (.object [] [])) (d.tree x) ((d.withVersions x properties dangling).tree x) := by
    rw [withVersions_eq_graft he hv]
    exact rebound_graft hd he hv _ _
  rw [← withVersions_eq_graft he hv] at hexpr
  -- binding the empty object and writing into it are two edits, one after the other
  generalize (d.withVersions x properties dangling) = d₁ at *
  generalize (d.plant (.made (.object [] []))).1 = o at *
  have hv₁ := value?_bind_self he hv hexpr versionsProblem
  have hbound := versionBound_graft hconfined.sound hr hv₁ hnew hk
  obtain ⟨old, versions, houter, previous, hinner⟩ := hbound.bound
  obtain ⟨rfl, hrebound⟩ := hempty.trans houter
  refine ⟨hconfined.trans hbound.confined,
    fun key problem hkey => (hother key problem hkey).trans (hbound.other key problem hkey),
    ⟨hbound.written.written, fun other hne => ?_⟩, none, versions, hrebound, previous, hinner⟩
  obtain ⟨hfind, -⟩ := hbound.written.kept other hne
  rw [versionEntries_value hv₁ hnew] at hfind
  -- there were no versions, so none can have been lost
  have hnone : (d.versionEntries x).value = [] := by
    simp only [versionEntries, hv]
  rw [hnone]
  exact ⟨hfind, fun v h => by cases h⟩

/-- A version that is written is bound in the versions of the plugin. -/
theorem versionBound_of_setVersion (hd : d.Sound) {id : String} (hr : (Value.record r).Keyed)
    (hok : d.perform (.setVersion list id version r) = (.ok (), d')) :
    ∃ p, d.docsPlugin list id = .ok p ∧ VersionBound d d' p.options version r := by
  rcases perform_setVersion d list id version r with ⟨e, d'', hp, -⟩ | ⟨p, hp, hq⟩
  · rw [hp] at hok
    cases hok
  rw [hq] at hok
  rcases perform_putVersion hd (issued_of_docsPlugin hd hp) version r with
    ⟨e, d'', hp', -⟩ | ⟨d'', hput, hp'⟩
  · rw [hp'] at hok
    cases hok
  rw [hp'] at hok
  cases hok
  refine ⟨p, hp, ?_⟩
  rcases hput with ⟨o, properties, dangling, found, hv, he, hk, rfl⟩ |
    ⟨properties, dangling, he, hv, rfl⟩
  · exact versionBound_graft hd hr hv he hk
  · exact versionBound_withVersions hd hr he hv

/-- The plugin is still read with its id, place and list of versions to include. -/
theorem VersionBound.docsPluginAt (h : VersionBound d d' x version r) (index : Nat) (id : String) :
    d'.docsPluginAt ⟨index, x⟩ id =
      { d.docsPluginAt ⟨index, x⟩ id with versions := (d'.versionEntries x).value } := by
  have honly := (h.other onlyIncludeKey onlyIncludeProblem (by decide)).onlyInclude
  simp only [Document.docsPluginAt, honly]

/-! What an edit of the versions to include does to the options of its plugin. -/

theorem mapM_asString? (hd : d.Sound) {elements : List (Element NodeId)} {names : List String}
    (h : elements.map d.elementTree = Value.encodeItems (names.map .string)) :
    elements.mapM (fun e => (d.expr e.value).asString?) = some names := by
  induction names generalizing elements with
  | nil =>
    obtain rfl := List.map_eq_nil_iff.mp h
    rfl
  | cons name rest ih =>
    obtain ⟨e, es, rfl, he, hes⟩ := List.map_eq_cons_iff.mp h
    have htree : d.tree e.value = .made (.string name) := congrArg Element.value he
    have hexpr : (d.expr e.value).map d.tree = .string name :=
      (congrArg Tree.expr (tree_of_expr hd e.value)).symm.trans (congrArg Tree.expr htree)
    have hstring : d.expr e.value = .string name := by
      cases hx : d.expr e.value <;> rw [hx] at hexpr <;> cases hexpr
      rfl
    rw [List.mapM_cons, hstring, ih hes]
    rfl

/-- A list of names is read as it was written. -/
theorem onlyInclude_of_tree (hd : d.Sound) {o : NodeId} {names : List String}
    (hv : d.value? x onlyIncludeKey onlyIncludeProblem = .ok (some o))
    (ht : d.tree o = (Value.list (names.map .string)).encode) :
    d.onlyInclude x = .ok (some names) := by
  have hexpr : (d.expr o).map d.tree = .array (Value.encodeItems (names.map .string)) [] :=
    (congrArg Tree.expr (tree_of_expr hd o)).symm.trans (congrArg Tree.expr ht)
  cases he : d.expr o with
  | array elements dangling =>
    rw [he, map_array] at hexpr
    have hread := mapM_asString? hd (Expr.array.inj hexpr).1
    simp only [onlyInclude, hv, ok_bind, he, hread]
    rfl
  | _ =>
    rw [he] at hexpr
    cases hexpr

/-- The names are bound in the options of the plugin. -/
theorem onlyInclude_of_setOnlyInclude (hd : d.Sound) {id : String} {names : List String}
    (hok : d.perform (.setOnlyInclude list id names) = (.ok (), d')) :
    ∃ p, d.docsPlugin list id = .ok p ∧ Confined d d' p.options ∧
      (∀ key problem, key ≠ onlyIncludeKey → SameOption d d' p.options key problem) ∧
      d'.onlyInclude p.options = .ok (some names) ∧
      ∃ old, Rebound onlyIncludeKey (PropertyKey.forName onlyIncludeKey).form old
        (Value.list (names.map .string)).encode (d.tree p.options) (d'.tree p.options) := by
  rcases perform_setOnlyInclude d list id names with ⟨e, d'', hp, -⟩ | ⟨p, hp, hq⟩
  · rw [hp] at hok
    cases hok
  rw [hq] at hok
  have ho := issued_of_docsPlugin hd hp
  rcases perform_putOption ho onlyIncludeKey (.list (names.map .string)) with
    ⟨e, d'', hp', -⟩ | ⟨properties, dangling, found, he, hv, hp'⟩
  · rw [hp'] at hok
    cases hok
  rw [hp'] at hok
  cases hok
  have hg := grafted_bind he hv (PropertyKey.forName onlyIncludeKey).form
  have he' := expr_graft ho (Value.list (names.map .string)).encode fun v =>
    .object (bind onlyIncludeKey (PropertyKey.forName onlyIncludeKey).form v properties) dangling
  exact ⟨p, hp, .graft hd .refl ho _ hg fun v => he ▸ .object ..,
    fun key problem hkey => option_bind hd he hv _ _ hkey,
    onlyInclude_of_tree (hd.graft ho _ hg) (value?_bind_self he hv he' _) (tree_graft_new hd ho hg),
    _, rebound_graft hd he hv _ _⟩

end Document

namespace Editor
open Document

/-- What is read in the session `e'` after a version of a docs plugin was written in `e`. -/
structure VersionEdit (e e' : Editor) (id version : String) (r : Record) : Prop where
  written : e'.version id version = .ok (some r)
  kept : ∀ id' version', id' ≠ id ∨ version' ≠ version →
    e'.version id' version' = e.version id' version'
  /-- Every other docs plugin is reported as before, and this one but for its versions. -/
  reported : ∃ p versions, e.docsPlugin id = .ok p ∧
    Relisted id p { p with versions } e.docsPlugins.value e'.docsPlugins.value
  /-- In the text, the version is bound in the versions of the plugin, which are new if it had none,
  and nothing else of the list changes. -/
  bound : ∃ p options old versions previous, e.docsPlugin id = .ok p ∧
    OptionsReplaced p.index (e.document.tree p.options) options
      (e.document.tree e.plugins) (e'.document.tree e'.plugins) ∧
    Rebound versionsKey .identifier old versions (e.document.tree p.options) options ∧
    Rebound version .string previous r.encode (old.getD (.made (.object [] []))) versions

/-- What is read in the session `e'` after the versions to include were written in `e`. -/
structure OnlyIncludeEdit (e e' : Editor) (id : String) (names : List String) : Prop where
  written : ∃ p, e'.docsPlugin id = .ok p ∧ p.onlyInclude = some names
  kept : ∀ id' version, e'.version id' version = e.version id' version
  reported : ∃ p, e.docsPlugin id = .ok p ∧
    Relisted id p { p with onlyInclude := some names } e.docsPlugins.value e'.docsPlugins.value
  bound : ∃ p options old, e.docsPlugin id = .ok p ∧
    OptionsReplaced p.index (e.document.tree p.options) options
      (e.document.tree e.plugins) (e'.document.tree e'.plugins) ∧
    Rebound onlyIncludeKey .identifier old (Value.list (names.map .string)).encode
      (e.document.tree p.options) options

/-- What the edits of a docs plugin do in a session, and when they find no plugin. -/
structure DocsEdits (e : Editor) : Prop where
  version : ∀ id version r e', (Value.record r).Keyed →
    e.setVersion id version r = (.ok (), e') → VersionEdit e e' id version r
  onlyInclude : ∀ id names e', e.setOnlyInclude id names = (.ok (), e') →
    OnlyIncludeEdit e e' id names
  versionMissing : ∀ id version r,
    (∃ what, (e.setVersion id version r).1 = .error (.notFound what)) ↔
      ¬ e.document.HasDocs e.plugins id
  onlyIncludeMissing : ∀ id names,
    (∃ what, (e.setOnlyInclude id names).1 = .error (.notFound what)) ↔
      ¬ e.document.HasDocs e.plugins id

theorem versionEdit {e e' : Editor} (h : e.Reached) {id version : String} {r : Record}
    (hr : (Value.record r).Keyed) (hok : e.setVersion id version r = (.ok (), e')) :
    VersionEdit e e' id version r := by
  have hd := h.settled.sound
  obtain ⟨hok, -, hplugins⟩ := perform_eq hok
  obtain ⟨p, hp, hbound⟩ := versionBound_of_setVersion hd hr hok
  obtain ⟨entry, hentry, hshape⟩ := docsPlugin_shape hp
  have hid := (hbound.other "id" idProblem (by decide)).docsId
  have hlisted := hbound.confined.relisted hd hp hid
  have hp' := hlisted.docsPlugin rfl
  have hat : e'.document.docsPluginAt ⟨p.index, p.options⟩ id =
      { p with versions := (e'.document.versionEntries p.options).value } := by
    rw [hbound.docsPluginAt, docsPlugin_at hp]
  rw [hat] at hlisted hp'
  obtain ⟨old, versions, houter, previous, hinner⟩ := hbound.bound
  have hplugin : e'.document.docsPlugin e.plugins id = .ok { p with
    versions := (e'.document.versionEntries p.options).value } := hp'
  refine ⟨?_, fun id' version' hother => ?_,
    ⟨p, (e'.document.versionEntries p.options).value, hp, ?_⟩,
    ⟨p, e'.document.tree p.options, old, versions, previous, hp, ?_, houter, hinner⟩⟩
  · obtain ⟨v, hfind, hread⟩ := hbound.written.written
    have hversion : DocsPlugin.version? { p with
      versions := (e'.document.versionEntries p.options).value } version = some v := hfind
    rw [Editor.version, hplugins, readVersion_of_docsPlugin hplugin, hversion]
    simp only [hread]
    rfl
  · rw [Editor.version, Editor.version, hplugins]
    -- another version of this plugin, or any version of another one
    by_cases hid' : id' = id
    · subst hid'
      obtain ⟨hfind, hkept⟩ := hbound.written.kept version' (hother.resolve_left fun h => h rfl)
      rw [← docsPlugin_versions hp] at hfind hkept
      have hsame : DocsPlugin.version? { p with
        versions := (e'.document.versionEntries p.options).value } version' = p.version? version' :=
          hfind
      rw [readVersion_of_docsPlugin hplugin, readVersion_of_docsPlugin hp, hsame]
      cases hv : p.version? version' with
      | none => rfl
      | some v => simp only [(hkept v hv).decoded]
    · exact hbound.confined.version_other hd hp hid hid' version'
  · rw [Editor.docsPlugins, Editor.docsPlugins, hplugins]
    exact hlisted
  · rw [hplugins]
    exact hbound.confined.optionsReplaced hd hentry hshape

theorem onlyIncludeEdit {e e' : Editor} (h : e.Reached) {id : String} {names : List String}
    (hok : e.setOnlyInclude id names = (.ok (), e')) : OnlyIncludeEdit e e' id names := by
  have hd := h.settled.sound
  obtain ⟨hok, -, hplugins⟩ := perform_eq hok
  obtain ⟨p, hp, hconfined, hother, hnames, old, hbound⟩ := onlyInclude_of_setOnlyInclude hd hok
  obtain ⟨entry, hentry, hshape⟩ := docsPlugin_shape hp
  have hid := (hother "id" idProblem (by decide)).docsId
  have hversions := hother versionsKey versionsProblem (by decide)
  have hlisted := hconfined.relisted hd hp hid
  have hp' := hlisted.docsPlugin rfl
  have hat : e'.document.docsPluginAt ⟨p.index, p.options⟩ id =
      { p with onlyInclude := some names } := by
    conv_rhs => rw [← docsPlugin_at hp]
    simp only [docsPluginAt, hversions.versionEntries, hnames]
    rfl
  rw [hat] at hlisted hp'
  refine ⟨⟨{ p with onlyInclude := some names }, ?_, rfl⟩, fun id' version => ?_, ⟨p, hp, ?_⟩,
    ⟨p, e'.document.tree p.options, old, hp, ?_, hbound⟩⟩
  · rw [Editor.docsPlugin, hplugins]
    exact hp'
  · rw [Editor.version, Editor.version, hplugins]
    by_cases hid' : id' = id
    · subst hid'
      rw [readVersion_of_docsPlugin hp', readVersion_of_docsPlugin hp]
      cases hv : p.version? version with
      | none => simp only [show DocsPlugin.version? { p with onlyInclude := some names } version =
          none from hv]
      | some v =>
        have hmem := List.mem_of_find?_eq_some hv
        rw [docsPlugin_versions hp] at hmem
        simp only [show DocsPlugin.version? { p with onlyInclude := some names } version =
          some v from hv, (hversions.version_options hmem).decoded]
    · exact hconfined.version_other hd hp hid hid' version
  · rw [Editor.docsPlugins, Editor.docsPlugins, hplugins]
    exact hlisted
  · rw [hplugins]
    exact hconfined.optionsReplaced hd hentry hshape

/-- In every session that a run of edits leads to, what is written of a docs plugin is read back,
nothing else is read in another way, and an edit misses its plugin exactly if there is none with
the id. -/
theorem docsEdits_of_reached {e : Editor} (h : e.Reached) : e.DocsEdits where
  version _ _ _ _ hr hok := versionEdit h hr hok
  onlyInclude _ _ _ hok := onlyIncludeEdit h hok
  versionMissing _ version r := missing_iff fun p => .putVersion p.options version r
  onlyIncludeMissing _ names := missing_iff fun p =>
    .putOption p.options onlyIncludeKey (.list (names.map .string))

/-- A version is added to a plugin that has none. Then it is written again, or the plugin is made
to include no version. -/
theorem docsEdits_of_reached_docsEditor :
    let added := docsEditor.setVersion "<default>" "next" [("label", .string "Next")]
    let again := added.2.setVersion "<default>" "next" [("label", .string "Then")]
    let none := added.2.setOnlyInclude "<default>" []
    added.1 = .ok () ∧ again.1 = .ok () ∧ none.1 = .ok () ∧ added.2.DocsEdits ∧
      VersionEdit added.2 again.2 "<default>" "next" [("label", .string "Then")] ∧
      OnlyIncludeEdit added.2 none.2 "<default>" [] := by
  intro added again none
  have hkeyed : (Value.record [("label", .string "Then")]).Keyed := by
    simp [Value.Keyed, Value.KeyedEntries, Record.keys]
  have hagain : again.1 = .ok () := rfl
  have hnone : none.1 = .ok () := rfl
  have hreached : added.2.Reached := .setVersion reached_docsEditor _ _ _
  have hedits := docsEdits_of_reached hreached
  exact ⟨rfl, hagain, hnone, hedits, hedits.version _ _ _ _ hkeyed (Prod.ext hagain rfl),
    hedits.onlyInclude _ _ _ (Prod.ext hnone rfl)⟩

end Editor

end SiteConfig
