import SiteConfig.Proofs.Refusal
import SiteConfig.Proofs.Values

/-!
An edit of a version overwrites what was read of the version, and nothing if nothing was read. The
edit takes the first member of the versions that has the key, and so does the read, as long as the
value of that member is an object.
-/

namespace SiteConfig.Document

variable {d : Document} {list options : NodeId} {id version : String}

/-- The member of the versions that an edit of `version` overwrites. -/
def versionMember? (d : Document) (options : NodeId) (version : String) :
    Option (Property NodeId) :=
  match d.value? options versionsKey versionsProblem with
  | .ok (some id) => d.property? id version
  | _ => none

def IsObject (d : Document) (x : NodeId) : Prop :=
  ∃ properties dangling, d.expr x = .object properties dangling

theorem readVersionEntry_object {p : Property NodeId} {key : PropertyKey} {value : NodeId}
    (hb : p.body = .assignment key value) (ho : d.IsObject value) :
    (d.readVersionEntry p).value =
      some ⟨key, value, (Record.decodeAll d.path (d.tree value)).value⟩ := by
  obtain ⟨properties, dangling, he⟩ := ho
  simp only [readVersionEntry, hb, he]

/-- A version that is read has the key and the value of its member. -/
theorem body_of_readVersionEntry {p : Property NodeId} {v : VersionEntry}
    (h : (d.readVersionEntry p).value = some v) : p.body = .assignment v.key v.options := by
  rcases hb : p.body with ⟨key, value⟩ | ⟨shape, text⟩
  · simp only [readVersionEntry, hb] at h
    split at h
    · cases h
      rfl
    · cases h
  · simp only [readVersionEntry, hb] at h
    cases h

/-- The first version that is read under a key is the first member that has it, unless the member
has a value that is no object. -/
theorem find?_readVersionEntry (d : Document) (version : String)
    {properties : List (Property NodeId)}
    (h : ∀ p, properties.find? (·.binds version) = some p →
      ∃ value, p.value? = some value ∧ d.IsObject value) :
    (((properties.map d.readVersionEntry).filterMap (·.value)).find? (·.key.name = version)).map
        (·.options) =
      (properties.find? (·.binds version)).bind (·.value?) := by
  induction properties with
  | nil => rfl
  | cons p rest ih =>
    by_cases hb : p.binds version
    · rw [List.find?_cons_of_pos hb] at h ⊢
      obtain ⟨value, hvalue, ho⟩ := h p rfl
      obtain ⟨key, hbody⟩ := Property.body_of_value? hvalue
      have hkey : key.name = version := by
        simpa [Property.binds, Property.name?, hbody] using hb
      have hread := readVersionEntry_object hbody ho
      rw [List.map_cons, List.filterMap_cons_some hread, List.find?_cons_of_pos (by simpa using hkey)]
      exact hvalue.symm
    · -- a member of another name is passed over, read or not
      rw [List.find?_cons_of_neg hb] at h ⊢
      rw [← ih h, List.map_cons]
      cases hread : (d.readVersionEntry p).value with
      | none => rw [List.filterMap_cons_none hread]
      | some v =>
        have hname : v.key.name ≠ version := by
          intro hname
          apply hb
          simp [Property.binds, Property.name?, body_of_readVersionEntry hread, hname]
        rw [List.filterMap_cons_some hread, List.find?_cons_of_neg (by simpa using hname)]

/-- A version is written only where every way to it is an object. -/
theorem value?_of_putVersion {r : Record}
    (h : (d.perform (.putVersion options version r)).1 = .ok ()) :
    d.value? options versionsKey versionsProblem = .ok none ∨
    ∃ id properties dangling found,
      d.value? options versionsKey versionsProblem = .ok (some id) ∧
      d.expr id = .object properties dangling ∧
      d.value? id version (versionProblem version) = .ok found := by
  cases hv : d.value? options versionsKey versionsProblem with
  | error e =>
    simp only [Change.putVersion, Change.versions, perform_bind, perform_ask, hv] at h
    cases h
  | ok found =>
    cases found with
    | none => exact .inl rfl
    | some id =>
      right
      simp only [Change.putVersion, Change.versions, perform_bind, perform_ask, perform_get, hv] at h
      cases he : d.expr id with
      | object properties dangling =>
        simp only [he, perform_pure] at h
        cases hk : d.value? id version (versionProblem version) with
        | error e =>
          rw [hk] at h
          cases h
        | ok found => exact ⟨id, properties, dangling, found, rfl, he, hk⟩
      | _ =>
        simp only [he, perform_throw] at h
        cases h

/-- A version that was read is the value of the member that an edit overwrites. -/
theorem map_version? {p : DocsPlugin} {r : Record} (hp : d.docsPlugin list id = .ok p)
    (hobject : ∀ q value, d.versionMember? p.options version = some q → q.value? = some value →
      d.IsObject value)
    (hset : (d.perform (.putVersion p.options version r)).1 = .ok ()) :
    (∀ q, d.versionMember? p.options version = some q → q.value?.isSome) ∧
    (p.version? version).map (·.options) =
      (d.versionMember? p.options version).bind (·.value?) := by
  rcases value?_of_putVersion hset with hv | ⟨x, properties, dangling, found, hv, he, hk⟩
  · -- there are no versions yet
    have hmember : d.versionMember? p.options version = none := by
      simp only [versionMember?, hv]
    have hread : p.version? version = none := by
      rw [DocsPlugin.version?, docsPlugin_versions hp, versionEntries, hv]
      rfl
    rw [hmember, hread]
    exact ⟨by simp, rfl⟩
  · have hmember : d.versionMember? p.options version = properties.find? (·.binds version) := by
      simp only [versionMember?, hv, property?, he]
    -- the edit would have failed at a member without a value
    have hwritable : ∀ q, properties.find? (·.binds version) = some q → q.value?.isSome := by
      intro q hq
      rw [value?_of_object he] at hk
      simp only [hq] at hk
      cases hvalue : q.value? with
      | none =>
        simp only [hvalue] at hk
        cases hk
      | some value => rfl
    rw [hmember] at hobject ⊢
    refine ⟨hwritable, ?_⟩
    rw [DocsPlugin.version?, docsPlugin_versions hp]
    simp only [versionEntries, hv, he]
    apply find?_readVersionEntry
    intro q hq
    obtain ⟨value, hvalue⟩ := Option.isSome_iff_exists.mp (hwritable q hq)
    exact ⟨value, hvalue, hobject q value hq hvalue⟩

theorem readVersion_of_docsPlugin {p : DocsPlugin} (hp : d.docsPlugin list id = .ok p) :
    d.readVersion list id version =
      match p.version? version with
      | none => .ok none
      | some entry => (Record.decode d.path (d.tree entry.options)).map some := by
  simp only [readVersion, hp, ok_bind]
  cases p.version? version with
  | none => rfl
  | some entry => cases Record.decode d.path (d.tree entry.options) <;> rfl

/-- Where the member that an edit of a version overwrites has an object for its value, or there is
no such member, the edit overwrites what was read in full, or nothing. -/
theorem setVersion_overwrites_read {p : DocsPlugin} {r : Record}
    (hp : d.docsPlugin list id = .ok p)
    (hobject : ∀ q value, d.versionMember? p.options version = some q → q.value? = some value →
      d.IsObject value)
    (hset : (d.perform (.setVersion list id version r)).1 = .ok ()) :
    (d.readVersion list id version = .ok none → d.versionMember? p.options version = none) ∧
    ∀ old, d.readVersion list id version = .ok (some old) →
      ∃ q value, d.versionMember? p.options version = some q ∧ q.value? = some value ∧
        Record.decode d.path (d.tree value) = .ok old := by
  have hput : (d.perform (.putVersion p.options version r)).1 = .ok () := by
    simpa only [Change.setVersion, perform_bind, perform_ask, hp] using hset
  obtain ⟨hsome, hmap⟩ := map_version? hp hobject hput
  rw [readVersion_of_docsPlugin hp]
  cases hentry : p.version? version with
  | none =>
    rw [hentry] at hmap
    refine ⟨fun _ => ?_, fun old hread => by cases hread⟩
    cases hmember : d.versionMember? p.options version with
    | none => rfl
    | some q =>
      -- a member that the edit overwrites has a value, so it would have been read
      obtain ⟨value, hvalue⟩ := Option.isSome_iff_exists.mp (hsome q hmember)
      rw [hmember, Option.bind_some, hvalue] at hmap
      cases hmap
  | some entry =>
    rw [hentry] at hmap
    obtain ⟨q, hmember, hvalue⟩ := Option.bind_eq_some_iff.mp hmap.symm
    constructor
    · intro hread
      obtain ⟨found, -, hfound⟩ := Result.ok_of_map hread
      cases hfound
    · intro old hread
      obtain ⟨found, hr, hfound⟩ := Result.ok_of_map hread
      cases hfound
      exact ⟨q, entry.options, hmember, hvalue, hr⟩

/-- A docs plugin with the versions `current`, which is an object, and `next`, which is not. -/
def withVersionText : Document :=
  withEntry DocsPlugin.pluginName
    [("versions", .record [("current", .record [("label", .string "Now")]),
      ("next", .string "soon")])]

theorem setVersion_overwrites_read_withVersionText :
    let r : Record := [("label", .string "Then")]
    ∃ p, withVersionText.docsPlugin ⟨4⟩ "<default>" = .ok p ∧
      (withVersionText.perform (.setVersion ⟨4⟩ "<default>" "current" r)).1 = .ok () ∧
      withVersionText.readVersion ⟨4⟩ "<default>" "current" =
        .ok (some [("label", .string "Now")]) ∧
      ∃ q value, withVersionText.versionMember? p.options "current" = some q ∧
        q.value? = some value ∧
        Record.decode withVersionText.path (withVersionText.tree value) =
          .ok [("label", .string "Now")] := by
  intro r
  have hread : withVersionText.readVersion ⟨4⟩ "<default>" "current" =
      .ok (some [("label", .string "Now")]) := rfl
  have hset : (withVersionText.perform (.setVersion ⟨4⟩ "<default>" "current" r)).1 = .ok () := rfl
  have hobject : withVersionText.IsObject ⟨7⟩ := ⟨_, _, rfl⟩
  refine ⟨_, rfl, hset, hread, (setVersion_overwrites_read rfl ?_ hset).2 _ hread⟩
  intro q value hq hvalue
  cases hq
  cases hvalue
  exact hobject

/-- An edit of a version may overwrite a member that was not read. -/
theorem not_setVersion_overwrites_read :
    ¬ ∀ (d : Document) (list : NodeId) (id version : String) (r : Record) (p : DocsPlugin),
      d.Reached → d.docsPlugin list id = .ok p → d.readVersion list id version = .ok none →
      (d.perform (.setVersion list id version r)).1 = .ok () →
      d.versionMember? p.options version = none := by
  intro h
  have hread : withVersionText.readVersion ⟨4⟩ "<default>" "next" = .ok none := rfl
  have hset : (withVersionText.perform (.setVersion ⟨4⟩ "<default>" "next" [])).1 = .ok () := rfl
  have hnone := h withVersionText ⟨4⟩ "<default>" "next" [] _ (reached_withEntry _ _) rfl hread hset
  cases hnone

end SiteConfig.Document
