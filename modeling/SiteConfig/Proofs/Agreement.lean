import SiteConfig.Proofs.Collecting
import SiteConfig.Proofs.Sifting

/-!
A listing and the read of one thing in it agree. What is read alone is read in full, and so it is
listed as it is read; and in a listing without problems all that is listed could be read alone.
-/

namespace SiteConfig.Document

variable {d : Document} {list options : NodeId}

theorem find?_pluginsNamed {name : String} {index : Nat}
    (h : ⟨index, options⟩ ∈ d.pluginsNamed list name) :
    (d.pluginsNamed list name).find? (·.index = index) = some ⟨index, options⟩ := by
  obtain ⟨before, after, hsplit⟩ := List.append_of_mem h
  have hpairwise := pairwise_pluginsNamed d list name
  rw [hsplit] at hpairwise ⊢
  refine List.find?_eq_some_iff_append.mpr ⟨by simp, before, after, rfl, fun e he => ?_⟩
  have hlt := (List.pairwise_append.mp hpairwise).2.2 e he _ List.mem_cons_self
  simpa using Nat.ne_of_lt hlt

/-- Options that are read with no problem are read in full. -/
theorem decode_of_clean {x : NodeId} (h : (Record.decodeAll d.path (d.tree x)).errors = []) :
    Record.decode d.path (d.tree x) = .ok (Record.decodeAll d.path (d.tree x)).value := by
  rw [Record.decode_eq]
  exact Report.toResult_eq_ok_iff.mpr ⟨h, rfl⟩

/-! Tutorials. -/

theorem tutorial_eq_ok_iff {index : Nat} {o : TutorialOptions} :
    d.tutorial list index = .ok o ↔
      ∃ options r, ⟨index, options⟩ ∈ d.pluginsNamed list Tutorial.pluginName ∧
        Record.decode d.path (d.tree options) = .ok r ∧ TutorialOptions.ofRecord r = .ok o := by
  refine ⟨tutorial_source, ?_⟩
  rintro ⟨options, r, hmem, hr, ho⟩
  simp only [tutorial, find?_pluginsNamed hmem, hr, ok_bind, ho]
  rfl

theorem tutorials_value (d : Document) (list : NodeId) :
    (d.tutorials list).value =
      (d.pluginsNamed list Tutorial.pluginName).filterMap fun e =>
        (d.readTutorialEntry e).value := by
  rw [tutorials, List.filterMap_map]
  rfl

theorem tutorials_errors (d : Document) (list : NodeId) :
    (d.tutorials list).errors =
      (d.reportPluginsNamed list Tutorial.pluginName).errors ++
        (d.pluginsNamed list Tutorial.pluginName).flatMap fun e =>
          (d.readTutorialEntry e).errors := by
  rw [tutorials, List.flatMap_map]
  rfl

theorem readTutorialEntry_value {entry : PluginEntry} {t : Tutorial} :
    (d.readTutorialEntry entry).value = some t ↔ t.index = entry.index ∧
      TutorialOptions.ofRecord (Record.decodeAll d.path (d.tree entry.options)).value =
        .ok t.options := by
  simp only [readTutorialEntry]
  cases TutorialOptions.ofRecord (Record.decodeAll d.path (d.tree entry.options)).value with
  | error problem => simp
  | ok o =>
    obtain ⟨index, options⟩ := t
    simp only [Option.some.injEq, Tutorial.mk.injEq, Except.ok.injEq]
    exact and_congr_left' eq_comm

/-- A tutorial is listed if its fields can be told from what can be read of its options. -/
theorem mem_tutorials_iff {index : Nat} {o : TutorialOptions} :
    ⟨index, o⟩ ∈ (d.tutorials list).value ↔
      ∃ options, ⟨index, options⟩ ∈ d.pluginsNamed list Tutorial.pluginName ∧
        TutorialOptions.ofRecord (Record.decodeAll d.path (d.tree options)).value = .ok o := by
  rw [tutorials_value, List.mem_filterMap]
  constructor
  · rintro ⟨⟨i, options⟩, hmem, hread⟩
    obtain ⟨hindex, ho⟩ := readTutorialEntry_value.mp hread
    obtain rfl : index = i := hindex
    exact ⟨options, hmem, ho⟩
  · rintro ⟨options, hmem, ho⟩
    exact ⟨⟨index, options⟩, hmem, readTutorialEntry_value.mpr ⟨rfl, ho⟩⟩

/-- An entry that is not listed has for its last problem what its fields lack. -/
theorem readTutorialEntry_problem {entry : PluginEntry}
    (h : (d.readTutorialEntry entry).value = none) :
    ∃ problem, TutorialOptions.ofRecord (Record.decodeAll d.path (d.tree entry.options)).value =
        .error problem ∧
      (d.readTutorialEntry entry).errors.getLast? =
        some (.structural (d.location entry.options) problem) := by
  simp only [readTutorialEntry] at h ⊢
  cases ho : TutorialOptions.ofRecord (Record.decodeAll d.path (d.tree entry.options)).value with
  | error problem => exact ⟨problem, rfl, List.getLast?_concat⟩
  | ok o =>
    rw [ho] at h
    cases h

theorem pairwise_tutorials (d : Document) (list : NodeId) :
    (d.tutorials list).value.Pairwise (·.index < ·.index) := by
  rw [tutorials_value]
  refine (pairwise_pluginsNamed d list Tutorial.pluginName).filterMap _ fun e e' hlt t ht t' ht' => ?_
  rw [index_of_readTutorialEntry ht, index_of_readTutorialEntry ht']
  exact hlt

/-- In a listing without problems every record was read in full. -/
theorem decode_of_tutorials_clean (h : (d.tutorials list).errors = []) {index : Nat}
    (hmem : ⟨index, options⟩ ∈ d.pluginsNamed list Tutorial.pluginName) :
    Record.decode d.path (d.tree options) =
      .ok (Record.decodeAll d.path (d.tree options)).value := by
  rw [tutorials_errors] at h
  have hentry := List.flatMap_eq_nil_iff.mp (List.append_eq_nil_iff.mp h).2 _ hmem
  refine decode_of_clean ?_
  simp only [readTutorialEntry] at hentry
  split at hentry
  · exact hentry
  · exact (List.append_eq_nil_iff.mp hentry).1

/-! Versions. -/

theorem readVersionEntry_value {p : Property NodeId} {v : VersionEntry}
    (h : (d.readVersionEntry p).value = some v) :
    v.record = (Record.decodeAll d.path (d.tree v.options)).value ∧
      (d.readVersionEntry p).errors = (Record.decodeAll d.path (d.tree v.options)).errors := by
  unfold readVersionEntry at h ⊢
  split at h
  · split at h
    · cases h
      exact ⟨rfl, rfl⟩
    · cases h
  · cases h

/-- A version holds what can be read of its options, and its problems are reported. -/
theorem record_of_mem_versionEntries {v : VersionEntry}
    (h : v ∈ (d.versionEntries options).value) :
    v.record = (Record.decodeAll d.path (d.tree v.options)).value ∧
      (Record.decodeAll d.path (d.tree v.options)).errors ⊆ (d.versionEntries options).errors := by
  obtain ⟨id, properties, dangling, -, hv, he, -⟩ := mem_versionEntries h
  simp only [versionEntries, hv, he] at h ⊢
  obtain ⟨report, hreport, hvalue⟩ := List.mem_filterMap.mp h
  obtain ⟨p, hp, rfl⟩ := List.mem_map.mp hreport
  obtain ⟨hrecord, herrors⟩ := readVersionEntry_value hvalue
  refine ⟨hrecord, fun e hmem => List.mem_flatMap.mpr ⟨_, hreport, ?_⟩⟩
  rwa [herrors]

theorem docsPlugins_errors (d : Document) (list : NodeId) :
    (d.docsPlugins list).errors =
      (d.reportPluginsNamed list DocsPlugin.pluginName).errors ++
        (d.pluginsNamed list DocsPlugin.pluginName).flatMap fun e =>
          (d.readDocsPlugin e).errors := by
  rw [docsPlugins, List.flatMap_map]
  rfl

/-- The problems of the versions of a plugin are among its problems. -/
theorem versionEntries_errors {entry : PluginEntry} {p : DocsPlugin}
    (h : (d.readDocsPlugin entry).value = some p) :
    (d.versionEntries entry.options).errors ⊆ (d.readDocsPlugin entry).errors := by
  unfold readDocsPlugin at h ⊢
  split at h
  · cases h
  · exact List.subset_append_left _ _

/-- In a listing without problems every version was read in full. -/
theorem decode_of_docsPlugins_clean (h : (d.docsPlugins list).errors = []) {p : DocsPlugin}
    (hp : p ∈ (d.docsPlugins list).value) {v : VersionEntry} (hv : v ∈ p.versions) :
    Record.decode d.path (d.tree v.options) = .ok v.record := by
  rw [docsPlugins_value] at hp
  obtain ⟨entry, hentry, hread⟩ := List.mem_filterMap.mp hp
  rw [docsPlugins_errors] at h
  have hclean := List.flatMap_eq_nil_iff.mp (List.append_eq_nil_iff.mp h).2 _ hentry
  rw [(readDocsPlugin_eq_some hread).2] at hv
  obtain ⟨hrecord, herrors⟩ := record_of_mem_versionEntries hv
  have hnone := List.Subset.trans herrors (versionEntries_errors hread)
  rw [hclean] at hnone
  rw [hrecord]
  exact decode_of_clean (List.subset_nil.mp hnone)

/-- How the tutorials that are listed and those that are read alone agree. -/
structure TutorialsAgree (d : Document) (list : NodeId) : Prop where
  listed : ∀ index o, d.tutorial list index = .ok o → ⟨index, o⟩ ∈ (d.tutorials list).value
  clean : (d.tutorials list).errors = [] → ∀ index o,
    d.tutorial list index = .ok o ↔ ⟨index, o⟩ ∈ (d.tutorials list).value
  /-- The problems are those of the malformed entries, and behind them those of each tutorial. -/
  problems : (d.tutorials list).errors =
    (d.reportPluginsNamed list Tutorial.pluginName).errors ++
      (d.pluginsNamed list Tutorial.pluginName).flatMap fun e => (d.readTutorialEntry e).errors
  /-- An entry that is not listed has a problem of its own among these. -/
  accounted : ∀ index entry options, (d.entries list)[index]? = some entry →
    d.IsEntry entry Tutorial.pluginName options →
    (∃ o, ⟨index, o⟩ ∈ (d.tutorials list).value) ∨
      ∃ problem, .structural (d.location options) problem ∈
          (d.readTutorialEntry ⟨index, options⟩).errors ∧
        .structural (d.location options) problem ∈ (d.tutorials list).errors
  increasing : (d.tutorials list).value.Pairwise (·.index < ·.index)

theorem tutorialsAgree (d : Document) (list : NodeId) : d.TutorialsAgree list where
  listed index o h := by
    obtain ⟨options, r, hmem, hr, ho⟩ := tutorial_eq_ok_iff.mp h
    refine mem_tutorials_iff.mpr ⟨options, hmem, ?_⟩
    rwa [Record.decodeAll_of_decode hr]
  clean h index o := by
    rw [tutorial_eq_ok_iff, mem_tutorials_iff]
    constructor
    · rintro ⟨options, r, hmem, hr, ho⟩
      refine ⟨options, hmem, ?_⟩
      rwa [Record.decodeAll_of_decode hr]
    · rintro ⟨options, hmem, ho⟩
      exact ⟨options, _, hmem, decode_of_tutorials_clean h hmem, ho⟩
  problems := tutorials_errors d list
  accounted index entry options hentry h := by
    have hmem := mem_pluginsNamed_iff.mpr ⟨entry, hentry, h⟩
    cases hread : (d.readTutorialEntry ⟨index, options⟩).value with
    | none =>
      obtain ⟨problem, -, hlast⟩ := readTutorialEntry_problem hread
      have hown := List.mem_of_getLast? hlast
      refine .inr ⟨problem, hown, ?_⟩
      rw [tutorials_errors]
      exact List.mem_append_right _ (List.mem_flatMap.mpr ⟨_, hmem, hown⟩)
    | some t =>
      exact .inl ⟨t.options, mem_tutorials_iff.mpr
        ⟨options, hmem, (readTutorialEntry_value.mp hread).2⟩⟩
  increasing := pairwise_tutorials d list

/-- How the versions that are listed and those that are read alone agree. -/
structure VersionsAgree (d : Document) (list : NodeId) : Prop where
  listed : ∀ id version r, d.readVersion list id version = .ok (some r) →
    ∃ p v, d.docsPlugin list id = .ok p ∧ p ∈ (d.docsPlugins list).value ∧
      p.versions.find? (·.key.name = version) = some v ∧ v.record = r
  /-- Of plugins with one id the first is read, and of its versions with one name the first. -/
  clean : (d.docsPlugins list).errors = [] → ∀ q ∈ (d.docsPlugins list).value,
    ∃ p, (d.docsPlugins list).value.find? (·.id = q.id) = some p ∧ ∀ version,
      d.readVersion list q.id version =
        .ok ((p.versions.find? (·.key.name = version)).map (·.record))

theorem docsPlugin_of_find? {id : String} {p : DocsPlugin}
    (h : (d.docsPlugins list).value.find? (·.id = id) = some p) :
    d.docsPlugin list id = .ok p := by
  rw [docsPlugin, h]

theorem versionsAgree (d : Document) (list : NodeId) : d.VersionsAgree list where
  listed id version r h := by
    obtain ⟨p, hp, -⟩ := Result.ok_of_bind h
    rw [readVersion_of_docsPlugin hp] at h
    obtain ⟨before, after, hsplit, -⟩ := docsPlugin_eq_ok hp
    cases hv : p.version? version with
    | none =>
      rw [hv] at h
      cases h
    | some v =>
      rw [hv] at h
      obtain ⟨_, hr, ⟨⟩⟩ := Result.ok_of_map h
      have hmem := List.mem_of_find?_eq_some hv
      rw [docsPlugin_versions hp] at hmem
      refine ⟨p, v, hp, by simp [hsplit], hv, ?_⟩
      rw [(record_of_mem_versionEntries hmem).1, Record.decodeAll_of_decode hr]
  clean h q hq := by
    cases hfind : (d.docsPlugins list).value.find? (·.id = q.id) with
    | none => exact absurd (List.find?_eq_none.mp hfind q hq) (by simp)
    | some p =>
      refine ⟨p, rfl, fun version => ?_⟩
      rw [readVersion_of_docsPlugin (docsPlugin_of_find? hfind), DocsPlugin.version?]
      cases hv : p.versions.find? (·.key.name = version) with
      | none => rfl
      | some v =>
        have hdecode := decode_of_docsPlugins_clean h (List.mem_of_find?_eq_some hfind)
          (List.mem_of_find?_eq_some hv)
        simp only [hdecode, Option.map_some]
        rfl

/-- What is listed and what is read alone agree. -/
theorem readsAgree (d : Document) (list : NodeId) :
    d.TutorialsAgree list ∧ d.VersionsAgree list :=
  ⟨tutorialsAgree d list, versionsAgree d list⟩

end SiteConfig.Document
