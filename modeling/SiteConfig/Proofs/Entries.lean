import SiteConfig.Editor

/-!
Where the things that reads report stand in the config.
-/

namespace SiteConfig.Document

theorem ok_bind {α β : Type} (a : α) (k : α → Result β) : (Except.ok a >>= k) = k a := rfl

theorem value?_of_object {d : Document} {x : NodeId} {properties : List (Property NodeId)}
    {dangling : List Comment} (h : d.expr x = .object properties dangling) (key problem : String) :
    d.value? x key problem =
      match properties.find? (·.binds key) with
      | none => .ok none
      | some p =>
        match p.value? with
        | some id => .ok (some id)
        | none => .error (.structural (d.locationAt p.position) problem) := by
  have hproperty : d.property? x key = properties.find? (·.binds key) := by rw [property?, h]
  cases hfound : properties.find? (·.binds key) with
  | none => simp only [value?, hproperty, hfound]
  | some p => cases hvalue : p.value? <;> simp only [value?, hproperty, hfound, hvalue]

theorem value?_eq_some {d : Document} {x id : NodeId} {key problem : String}
    (h : d.value? x key problem = .ok (some id)) :
    ∃ properties dangling p before after, d.expr x = .object properties dangling ∧
      properties = before ++ p :: after ∧ p.value? = some id := by
  cases he : d.expr x with
  | object properties dangling =>
    rw [value?_of_object he] at h
    cases hf : properties.find? (·.binds key) with
    | none => simp [hf] at h
    | some p =>
      have hv : p.value? = some id := by
        rw [hf] at h
        cases hv : p.value? with
        | none => simp [hv] at h
        | some v => simp_all
      obtain ⟨-, before, after, hp, -⟩ := List.find?_eq_some_iff_append.mp hf
      exact ⟨properties, dangling, p, before, after, rfl, hp, hv⟩
  | _ => simp [value?, property?, he] at h

theorem entryShape_eq_entry {d : Document} {x options : NodeId} {name : String}
    (h : d.entryShape x = .entry name options) :
    ∃ first second dangling, d.expr x = .array [first, second] dangling ∧
      d.expr first.value = .string name ∧
      (∃ properties dangling', d.expr second.value = .object properties dangling') ∧
      options = second.value := by
  unfold entryShape at h
  split at h
  · rename_i first second dangling he
    split at h
    · rename_i n properties dangling' hf hs
      cases h
      exact ⟨first, second, dangling, he, hf, ⟨properties, dangling', hs⟩, rfl⟩
    · cases h
  · cases h
  · cases h

/-- The entry of the plugin `name` that stands at a place, if it is one. -/
def namedAt (d : Document) (name : String) (e : NodeId × Nat) : Option PluginEntry :=
  match d.entryShape e.1 with
  | .entry n options => if n = name then some { index := e.2, options } else none
  | _ => none

theorem pluginsNamed_eq (d : Document) (list : NodeId) (name : String) :
    d.pluginsNamed list name = (d.entries list).zipIdx.filterMap (d.namedAt name) := rfl

theorem namedAt_of_shape {d : Document} {name n : String} {e : NodeId × Nat} {options : NodeId}
    (h : d.entryShape e.1 = .entry n options) :
    d.namedAt name e = if n = name then some ⟨e.2, options⟩ else none := by
  simp only [namedAt, h]

theorem namedAt_eq_some {d : Document} {name : String} {e : NodeId × Nat} {p : PluginEntry}
    (h : d.namedAt name e = some p) :
    p.index = e.2 ∧ d.entryShape e.1 = .entry name p.options := by
  unfold namedAt at h
  split at h
  · rename_i n options hshape
    split at h
    · rename_i hn
      cases h
      exact ⟨rfl, hn ▸ hshape⟩
    · cases h
  · cases h

/-- The options of a plugin that was found are an operand of one of the entries. -/
theorem mem_pluginsNamed {d : Document} {list : NodeId} {name : String} {p : PluginEntry}
    (h : p ∈ d.pluginsNamed list name) :
    ∃ entry first second dangling, (d.entries list)[p.index]? = some entry ∧
      d.expr entry = .array [first, second] dangling ∧ d.expr first.value = .string name ∧
      (∃ properties dangling', d.expr second.value = .object properties dangling') ∧
      p.options = second.value := by
  rw [pluginsNamed_eq] at h
  obtain ⟨⟨entry, index⟩, hmem, hp⟩ := List.mem_filterMap.mp h
  obtain ⟨hindex, hshape⟩ := namedAt_eq_some hp
  obtain ⟨first, second, dangling, he⟩ := entryShape_eq_entry hshape
  exact ⟨entry, first, second, dangling, hindex ▸ List.mem_zipIdx_iff_getElem?.mp hmem, he⟩

/-- What is read of an entry whose id is `id`. -/
def docsPluginAt (d : Document) (entry : PluginEntry) (id : String) : DocsPlugin where
  index := entry.index
  id := id
  options := entry.options
  versions := (d.versionEntries entry.options).value
  onlyInclude := (d.onlyInclude entry.options).toOption.join

theorem value_readDocsPlugin (d : Document) (entry : PluginEntry) :
    (d.readDocsPlugin entry).value =
      (d.docsId entry.options).toOption.map (d.docsPluginAt entry) := by
  unfold readDocsPlugin docsPluginAt
  cases d.docsId entry.options with
  | error e => rfl
  | ok id => cases d.onlyInclude entry.options <;> rfl

theorem readDocsPlugin_eq_some {d : Document} {entry : PluginEntry} {p : DocsPlugin}
    (h : (d.readDocsPlugin entry).value = some p) :
    d.docsId entry.options = .ok p.id ∧ p = d.docsPluginAt entry p.id := by
  rw [value_readDocsPlugin] at h
  cases hid : d.docsId entry.options with
  | error e =>
    rw [hid] at h
    cases h
  | ok id =>
    rw [hid] at h
    cases h
    exact ⟨rfl, rfl⟩

theorem docsPlugins_value (d : Document) (list : NodeId) :
    (d.docsPlugins list).value =
      (d.pluginsNamed list DocsPlugin.pluginName).filterMap fun e => (d.readDocsPlugin e).value := by
  rw [docsPlugins, List.filterMap_map]
  rfl

/-- A docs plugin that was found is the first one with its id. -/
theorem docsPlugin_eq_ok {d : Document} {list : NodeId} {id : String} {p : DocsPlugin}
    (h : d.docsPlugin list id = .ok p) :
    ∃ before after, (d.docsPlugins list).value = before ++ p :: after ∧
      (∀ q ∈ before, q.id ≠ id) ∧ p.id = id := by
  unfold docsPlugin at h
  split at h
  · rename_i q hq
    cases h
    obtain ⟨hid, before, after, hsplit, hbefore⟩ := List.find?_eq_some_iff_append.mp hq
    exact ⟨before, after, hsplit, by simpa using hbefore, by simpa using hid⟩
  · cases h

/-- It was read from an entry of the list. -/
theorem docsPlugin_read {d : Document} {list : NodeId} {id : String} {p : DocsPlugin}
    (h : d.docsPlugin list id = .ok p) :
    ∃ entry ∈ d.pluginsNamed list DocsPlugin.pluginName, d.docsId entry.options = .ok id ∧
      p = d.docsPluginAt entry id := by
  obtain ⟨before, after, hsplit, -, hid⟩ := docsPlugin_eq_ok h
  have hmem : p ∈ (d.docsPlugins list).value := by simp [hsplit]
  rw [docsPlugins_value] at hmem
  obtain ⟨entry, hentry, hread⟩ := List.mem_filterMap.mp hmem
  exact ⟨entry, hentry, hid ▸ readDocsPlugin_eq_some hread⟩

theorem docsPlugin_entry {d : Document} {list : NodeId} {id : String} {p : DocsPlugin}
    (h : d.docsPlugin list id = .ok p) :
    ⟨p.index, p.options⟩ ∈ d.pluginsNamed list DocsPlugin.pluginName := by
  obtain ⟨entry, hentry, -, rfl⟩ := docsPlugin_read h
  exact hentry

theorem docsPlugin_id {d : Document} {list : NodeId} {id : String} {p : DocsPlugin}
    (h : d.docsPlugin list id = .ok p) : d.docsId p.options = .ok id := by
  obtain ⟨entry, -, hid, rfl⟩ := docsPlugin_read h
  exact hid

theorem docsPlugin_at {d : Document} {list : NodeId} {id : String} {p : DocsPlugin}
    (h : d.docsPlugin list id = .ok p) : d.docsPluginAt ⟨p.index, p.options⟩ id = p := by
  obtain ⟨entry, -, -, rfl⟩ := docsPlugin_read h
  rfl

theorem docsPlugin_versions {d : Document} {list : NodeId} {id : String} {p : DocsPlugin}
    (h : d.docsPlugin list id = .ok p) : p.versions = (d.versionEntries p.options).value := by
  obtain ⟨entry, -, -, rfl⟩ := docsPlugin_read h
  rfl

/-- A version that was read is the value of a property of the versions object. -/
theorem mem_versionEntries {d : Document} {options : NodeId} {v : VersionEntry}
    (h : v ∈ (d.versionEntries options).value) :
    ∃ id properties dangling p, d.value? options versionsKey versionsProblem = .ok (some id) ∧
      d.expr id = .object properties dangling ∧ p ∈ properties ∧
      p.body = .assignment v.key v.options := by
  unfold versionEntries at h
  cases hv : d.value? options versionsKey versionsProblem with
  | error e => simp [hv] at h
  | ok found =>
    cases found with
    | none => simp [hv] at h
    | some id =>
      cases he : d.expr id with
      | object properties dangling =>
        simp only [hv, he, List.mem_filterMap, List.mem_map] at h
        obtain ⟨r, ⟨p, hp, rfl⟩, hr⟩ := h
        refine ⟨id, properties, dangling, p, rfl, he, hp, ?_⟩
        rcases hb : p.body with ⟨key, value⟩ | ⟨shape, text⟩
        · simp only [readVersionEntry, hb] at hr
          split at hr
          · cases hr
            rfl
          · cases hr
        · simp [readVersionEntry, hb] at hr
      | _ => simp [hv, he] at h

end SiteConfig.Document
