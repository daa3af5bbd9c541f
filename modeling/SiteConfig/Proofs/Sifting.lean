import SiteConfig.Proofs.Confined
import SiteConfig.Proofs.Placing
import SiteConfig.Proofs.Versions

/-!
The entries of a plugin list fall in three classes: those of a plugin, which have its name, those
that are malformed, and what is no array. A search for one plugin and the search that also reports
what is malformed read the same entries, and no entry is lost or counted twice.
-/

namespace SiteConfig.Document

variable {d : Document} {list entry options : NodeId} {name : String}

/-- The entry is written `['name', { ... }]`, and `options` is its object. -/
def IsEntry (d : Document) (entry : NodeId) (name : String) (options : NodeId) : Prop :=
  ∃ first second dangling, d.expr entry = .array [first, second] dangling ∧
    d.expr first.value = .string name ∧ second.value = options ∧ d.IsObject options

def IsArray (d : Document) (x : NodeId) : Prop :=
  ∃ elements dangling, d.expr x = .array elements dangling

/-- An array that is an entry of no plugin. -/
def IsMalformed (d : Document) (entry : NodeId) : Prop :=
  d.IsArray entry ∧ ∀ name options, ¬ d.IsEntry entry name options

theorem isEntry_iff : d.IsEntry entry name options ↔ d.entryShape entry = .entry name options := by
  constructor
  · rintro ⟨first, second, dangling, he, hname, rfl, properties, dangling', hobject⟩
    simp only [entryShape, he, hname, hobject]
  · intro h
    obtain ⟨first, second, dangling, he, hname, hobject, rfl⟩ := entryShape_eq_entry h
    exact ⟨first, second, dangling, he, hname, rfl, hobject⟩

theorem isArray_of_malformed (h : d.entryShape entry = .malformed) : d.IsArray entry := by
  unfold entryShape at h
  split at h
  · exact ⟨_, _, by assumption⟩
  · exact ⟨_, _, by assumption⟩
  · cases h

theorem not_isArray_of_foreign (h : d.entryShape entry = .foreign) : ¬ d.IsArray entry := by
  rintro ⟨elements, dangling, he⟩
  unfold entryShape at h
  split at h
  · split at h <;> cases h
  · cases h
  · rename_i hnot
    exact hnot _ _ he

theorem isMalformed_iff : d.IsMalformed entry ↔ d.entryShape entry = .malformed := by
  refine ⟨fun ⟨harray, hnone⟩ => ?_, fun h => ⟨isArray_of_malformed h, fun name options he => ?_⟩⟩
  · cases hshape : d.entryShape entry with
    | entry name options => exact absurd (isEntry_iff.mpr hshape) (hnone name options)
    | malformed => rfl
    | foreign => exact absurd harray (not_isArray_of_foreign hshape)
  · rw [isEntry_iff.mp he] at h
    cases h

/-- An entry names one plugin and has one object. -/
theorem IsEntry.unique {name' : String} {options' : NodeId} (h : d.IsEntry entry name options)
    (h' : d.IsEntry entry name' options') : name = name' ∧ options = options' := by
  have hshape := (isEntry_iff.mp h).symm.trans (isEntry_iff.mp h')
  cases hshape
  exact ⟨rfl, rfl⟩

def malformed (d : Document) (entry : NodeId) : Bool :=
  match d.entryShape entry with
  | .malformed => true
  | _ => false

theorem malformed_iff : d.malformed entry ↔ d.IsMalformed entry := by
  rw [isMalformed_iff, malformed]
  cases d.entryShape entry <;> simp

instance (d : Document) (entry : NodeId) : Decidable (d.IsMalformed entry) :=
  decidable_of_iff _ malformed_iff

theorem mem_pluginsNamed_iff {index : Nat} :
    ⟨index, options⟩ ∈ d.pluginsNamed list name ↔
      ∃ entry, (d.entries list)[index]? = some entry ∧ d.IsEntry entry name options := by
  constructor
  · intro h
    obtain ⟨⟨entry, i⟩, hmem, hnamed⟩ := List.mem_filterMap.mp (pluginsNamed_eq d list name ▸ h)
    obtain ⟨hindex, hshape⟩ := namedAt_eq_some hnamed
    obtain rfl : index = i := hindex
    exact ⟨entry, List.mem_zipIdx_iff_getElem?.mp hmem, isEntry_iff.mpr hshape⟩
  · rintro ⟨entry, hentry, he⟩
    exact mem_pluginsNamed_of_shape hentry (isEntry_iff.mp he)

/-! The search that reports what is malformed, as one pass over the list. -/

/-- What one more entry adds to what was found of the plugin `name` and to the problems. -/
def sift (d : Document) (name : String) (found : Report (List PluginEntry)) (e : NodeId × Nat) :
    Report (List PluginEntry) :=
  match d.entryShape e.1 with
  | .entry n options =>
    if n = name then ⟨found.value ++ [⟨e.2, options⟩], found.errors⟩ else found
  | .malformed => ⟨found.value, found.errors ++ [.structural (d.location e.1) entryProblem]⟩
  | .foreign => found

theorem sift_eq (d : Document) (name : String) (found : Report (List PluginEntry))
    (e : NodeId × Nat) :
    d.sift name found e =
      ⟨found.value ++ [e].filterMap (d.namedAt name), found.errors ++ d.entryProblems [e]⟩ := by
  cases hshape : d.entryShape e.1 with
  | entry n options =>
    by_cases hname : n = name <;> simp [sift, namedAt, entryProblems, hshape, hname]
  | malformed => simp [sift, namedAt, entryProblems, hshape]
  | foreign => simp [sift, namedAt, entryProblems, hshape]

theorem foldl_sift (d : Document) (name : String) (es : List (NodeId × Nat))
    (found : Report (List PluginEntry)) :
    es.foldl (d.sift name) found =
      ⟨found.value ++ es.filterMap (d.namedAt name), found.errors ++ d.entryProblems es⟩ := by
  induction es generalizing found with
  | nil => simp [entryProblems]
  | cons e rest ih =>
    have hproblems : d.entryProblems (e :: rest) = d.entryProblems [e] ++ d.entryProblems rest :=
      entryProblems_append d [e] rest
    have hnamed : (e :: rest).filterMap (d.namedAt name) =
        [e].filterMap (d.namedAt name) ++ rest.filterMap (d.namedAt name) :=
      List.filterMap_append (l := [e])
    rw [List.foldl_cons, ih, sift_eq, hproblems, hnamed, ← List.append_assoc, ← List.append_assoc]

theorem errors_reportPluginsNamed (d : Document) (list : NodeId) (name : String) :
    (d.reportPluginsNamed list name).errors =
      ((d.entries list).filter d.IsMalformed).map fun e =>
        .structural (d.location e) entryProblem := by
  have hmalformed : (fun e => decide (d.IsMalformed e)) = d.malformed := by
    funext e
    rw [Bool.eq_iff_iff, decide_eq_true_iff, malformed_iff]
  have hentries : d.entries list = (d.entries list).zipIdx.map Prod.fst :=
    (List.zipIdx_map_fst _ _).symm
  rw [hmalformed, hentries, List.filter_map, List.map_map]
  rfl

/-- How the entries of a list are told apart. -/
structure Sifted (d : Document) (list : NodeId) : Prop where
  /-- The search that reports what is malformed goes through the list once, and finds what the
  other one finds. -/
  agree : ∀ name, (d.entries list).zipIdx.foldl (d.sift name) ⟨[], []⟩ =
      d.reportPluginsNamed list name ∧
    (d.reportPluginsNamed list name).value = d.pluginsNamed list name
  increasing : ∀ name, (d.pluginsNamed list name).Pairwise (·.index < ·.index)
  matched : ∀ name index options, ⟨index, options⟩ ∈ d.pluginsNamed list name ↔
    ∃ entry, (d.entries list)[index]? = some entry ∧ d.IsEntry entry name options
  /-- Each malformed entry is reported where it stands, whatever plugin is searched. -/
  reported : ∀ name, (d.reportPluginsNamed list name).errors =
    ((d.entries list).filter d.IsMalformed).map fun e => .structural (d.location e) entryProblem
  /-- An entry that is well-formed is found under one name, and any other under none. -/
  named : ∀ index entry, (d.entries list)[index]? = some entry →
    ((∃ name options, d.IsEntry entry name options) ↔
      ∃! name, ∃ options, ⟨index, options⟩ ∈ d.pluginsNamed list name)

theorem existsUnique_name {index : Nat} (hentry : (d.entries list)[index]? = some entry)
    (h : d.IsEntry entry name options) :
    ∃! name, ∃ options, ⟨index, options⟩ ∈ d.pluginsNamed list name := by
  refine ⟨name, ⟨options, mem_pluginsNamed_iff.mpr ⟨entry, hentry, h⟩⟩, ?_⟩
  rintro other ⟨options', hmem⟩
  obtain ⟨entry', hentry', h'⟩ := mem_pluginsNamed_iff.mp hmem
  obtain rfl := Option.some.inj (hentry.symm.trans hentry')
  exact (h'.unique h).1

/-- No entry is lost and none is counted twice. -/
theorem sifted (d : Document) (list : NodeId) : d.Sifted list where
  agree name := ⟨foldl_sift d name _ _, rfl⟩
  increasing := pairwise_pluginsNamed d list
  matched _ _ _ := mem_pluginsNamed_iff
  reported := errors_reportPluginsNamed d list
  named index entry hentry := by
    refine ⟨fun ⟨name, options, h⟩ => existsUnique_name hentry h, ?_⟩
    rintro ⟨name, ⟨options, hmem⟩, -⟩
    obtain ⟨entry', hentry', h⟩ := mem_pluginsNamed_iff.mp hmem
    obtain rfl := Option.some.inj (hentry.symm.trans hentry')
    exact ⟨name, options, h⟩

end SiteConfig.Document
