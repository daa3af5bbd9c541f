import SiteConfig.Proofs.Answers
import SiteConfig.Proofs.Merging
import SiteConfig.Proofs.Replacing

/-!
A tutorial is edited field by field: a field takes the value that is given, or keeps the one that
it had, or takes the default. All else of the config stays as it was.
-/

namespace SiteConfig

namespace Taxonomy

variable {t : Taxonomy} {category : String}

/-- Some category has a tag with this value. -/
def Knows (t : Taxonomy) (value : String) : Prop :=
  ∃ c ∈ t.categories, ∃ tag ∈ c.2, tag.value = value

theorem unknown_eq_nil_iff {values : List String} :
    t.unknown values = [] ↔ ∀ v ∈ values, t.Knows v := by
  simp [unknown, Knows, defines, List.filter_eq_nil_iff]

end Taxonomy

namespace TutorialOptions

theorem isLocation_of_locationField {r : Record} {key : String} {found : Option Value}
    (h : locationField r key = .ok found) : ∀ v ∈ found, v.IsLocation := by
  unfold locationField at h
  split at h <;> cases h <;> simp [Value.IsLocation]

theorem located_of_ofRecord {r : Record} {o : TutorialOptions} (h : ofRecord r = .ok o) :
    o.Located := by
  obtain ⟨-, -, -, hpreview, hroute, hsource⟩ := ofRecord_eq_ok h
  exact ⟨isLocation_of_locationField hpreview, isLocation_of_locationField hroute,
    isLocation_of_locationField hsource⟩

end TutorialOptions

namespace TutorialEdits

variable {e : TutorialEdits} {t : Taxonomy} {old new : TutorialOptions}

/-- The tags that an edit gives. -/
def given (e : TutorialEdits) : List String :=
  e.tags.getD []

/-- The tutorial `new` is what an edit makes of `old`. -/
structure Applied (e : TutorialEdits) (t : Taxonomy) (defaults : RepositoryDefaults)
    (old new : TutorialOptions) : Prop where
  title : new.title = e.title.getD old.title
  description : new.description = e.description.getD old.description
  preview : new.preview = (e.preview.map .string).or old.preview
  route : new.route = ((e.route.map .string).or old.route).or (defaults.route.map .string)
  source : new.source = ((e.source.map .string).or old.source).or (defaults.source.map .string)
  /-- With a category the tags of this category are replaced. -/
  merged : ∀ category, e.category = some category →
    t.merge old.tags category e.given = .ok new.tags
  /-- Without one all tags are, if any are given. -/
  tags : e.category = none → new.tags = if e.given = [] then old.tags else e.given
  /-- A tag that was not there before is one of the taxonomy. -/
  known : ∀ v ∈ new.tags, v ∉ old.tags → t.Knows v
  /-- A path that no string takes the place of stays a path. -/
  paths : ∀ p,
    (e.preview = none → old.preview = some (.path p) → new.preview = some (.path p)) ∧
    (e.route = none → old.route = some (.path p) → new.route = some (.path p)) ∧
    (e.source = none → old.source = some (.path p) → new.source = some (.path p))

theorem newTags_eq_ok {tags tags' : List String} (h : e.newTags t tags = .ok tags') :
    (∀ v ∈ e.given, t.Knows v) ∧
      (∀ category, e.category = some category → t.merge tags category e.given = .ok tags') ∧
      (e.category = none → tags' = if e.given = [] then tags else e.given) := by
  unfold newTags at h
  unfold given
  generalize e.tags.getD [] = chosen at h ⊢
  by_cases hunknown : (t.unknown chosen).isEmpty
  · refine ⟨Taxonomy.unknown_eq_nil_iff.mp (List.isEmpty_iff.mp hunknown), ?_⟩
    simp only [hunknown, if_true] at h
    cases hcategory : e.category with
    | none =>
      simp only [hcategory] at h
      cases h
      simp [List.isEmpty_iff]
    | some category =>
      simp only [hcategory] at h
      have hmerged : t.merge tags category chosen = .ok tags' := by
        split at h
        · cases h
        · exact Result.mapError_eq_ok.mp h
      simpa using hmerged
  · simp only [hunknown] at h
    cases h

/-- A tag after an edit was there before, or it is one that is given. -/
theorem mem_of_newTags {tags tags' : List String} (h : e.newTags t tags = .ok tags') :
    ∀ v ∈ tags', v ∈ tags ∨ v ∈ e.given := by
  obtain ⟨-, hmerged, hplain⟩ := newTags_eq_ok h
  intro v hv
  cases hcategory : e.category with
  | none =>
    rw [hplain hcategory] at hv
    split at hv
    · exact .inl hv
    · exact .inr hv
  | some category =>
    obtain ⟨-, -, hm⟩ := Taxonomy.merge_eq_ok_iff.mp (hmerged category hcategory)
    exact (hm.only v hv).imp_left And.left

theorem applied_of_apply {o : TutorialOptions} (h : e.apply t old = .ok o)
    (defaults : RepositoryDefaults) : e.Applied t defaults old (o.seeded defaults) := by
  unfold apply at h
  cases htags : e.newTags t old.tags with
  | error err =>
    rw [htags] at h
    cases h
  | ok tags =>
    rw [htags] at h
    cases h
    obtain ⟨hknown, hmerged, hplain⟩ := newTags_eq_ok htags
    exact {
      title := rfl
      description := rfl
      preview := rfl
      route := rfl
      source := rfl
      merged := hmerged
      tags := hplain
      known := fun v hv hnew => hknown v ((mem_of_newTags htags v hv).resolve_left hnew)
      paths := fun p => by
        refine ⟨?_, ?_, ?_⟩ <;> intro hnone hpath <;>
          simp [TutorialOptions.seeded, location, hnone, hpath] }

theorem isLocation_or {a b : Option Value} (ha : ∀ v ∈ a, v.IsLocation)
    (hb : ∀ v ∈ b, v.IsLocation) : ∀ v ∈ a.or b, v.IsLocation := by
  cases a with
  | none => exact hb
  | some _ => exact ha

theorem isLocation_string (given : Option String) :
    ∀ v ∈ given.map Value.string, v.IsLocation := by
  cases given <;> simp [Value.IsLocation]

theorem Applied.located {defaults : RepositoryDefaults} (h : e.Applied t defaults old new)
    (hold : old.Located) : new.Located where
  preview := h.preview ▸ isLocation_or (isLocation_string _) hold.preview
  route := h.route ▸
    isLocation_or (isLocation_or (isLocation_string _) hold.route) (isLocation_string _)
  source := h.source ▸
    isLocation_or (isLocation_or (isLocation_string _) hold.source) (isLocation_string _)

end TutorialEdits

namespace Editor
open Document

variable {e e' : Editor}

/-- The entry at a place of the plugin list, as the config shows it. -/
def shownAt (e : Editor) (place : Nat) : Option Tree :=
  (e.document.entries e.plugins)[place]?.map e.document.tree

/-- The tutorial that a session wrote: what is read of it, and all that it changed. -/
structure WritesTutorial (e e' : Editor) (index : Option Nat) (place : Nat)
    (o : TutorialOptions) : Prop where
  atIndex : place = index.getD e.pluginCount
  within : place ≤ e.pluginCount
  plugins : e'.plugins = e.plugins
  read : e'.tutorial place = .ok o
  others : ∀ j, j ≠ place → e'.shownAt j = e.shownAt j
  entry : e.document.EntryWritten e'.document e.plugins place Tutorial.pluginName o.toRecord

theorem writesTutorial (h : e.Reached) {index : Option Nat} {place : Nat} {o : TutorialOptions}
    (ho : o.Located) (hok : e.setTutorial index o = (.ok place, e')) :
    e.WritesTutorial e' index place o := by
  have hsettled := h.settled
  obtain ⟨elements, dangling, he, hplace, hle, hold, hplugins, hd'⟩ :=
    setTutorial_eq_ok hsettled.issued hok
  have hcount : e.pluginCount = elements.length := pluginCount_of_array he
  obtain ⟨left, gone, right, new, hput⟩ := placed_graft hsettled.sound he hle hold ho
  have hentry := entryWritten_graft hsettled.sound he hle Tutorial.pluginName o.toRecord
  rw [← hd'] at hput hentry
  refine ⟨hcount ▸ hplace, hcount ▸ hle, hplugins, ?_, fun j hj => ?_, hentry⟩
  · rw [tutorial, hplugins]
    exact hput.tutorial
  · -- the list is above its entries, so that none of their trees has it
    have hlist : ∀ entry ∈ e.document.entries e.plugins,
        e'.document.tree entry = e.document.tree entry := by
      intro entry hmem
      have hoperand := mem_operands_of_mem_entries hmem
      exact hentry.trees entry (hsettled.sound.operand_lt hoperand)
        (hsettled.sound.acyclic.not_below_operand hoperand)
    rw [shownAt, shownAt, hplugins, hentry.handles j hj]
    exact Option.map_congr fun entry hat => hlist entry (List.mem_of_getElem? hat)

end Editor

namespace Command

theorem tutorialBefore_eq_ok {e : Editor} {index : Option Nat} {old : TutorialOptions}
    (h : tutorialBefore e index = .ok old) :
    (index.getD e.pluginCount < e.pluginCount →
      e.tutorial (index.getD e.pluginCount) = .ok old) ∧
    (e.pluginCount ≤ index.getD e.pluginCount → old = {}) := by
  cases index with
  | none =>
    cases h
    exact ⟨fun hlt => absurd hlt (Nat.lt_irrefl _), fun _ => rfl⟩
  | some i =>
    simp only [tutorialBefore] at h
    split at h
    · rename_i hlt
      exact ⟨fun _ => h, fun hle => absurd hlt (Nat.not_lt.mpr hle)⟩
    · rename_i hlt
      cases h
      exact ⟨fun hlt' => absurd hlt' hlt, fun _ => rfl⟩

theorem located_of_tutorialBefore {e : Editor} {index : Option Nat} {old : TutorialOptions}
    (h : tutorialBefore e index = .ok old) : old.Located := by
  obtain ⟨hold, hnew⟩ := tutorialBefore_eq_ok h
  rcases Nat.lt_or_ge (index.getD e.pluginCount) e.pluginCount with hlt | hge
  · obtain ⟨_, _, _, _, hr⟩ := Document.tutorial_source (hold hlt)
    exact TutorialOptions.located_of_ofRecord hr
  · rw [hnew hge]
    exact ⟨nofun, nofun, nofun⟩

/-- What a run that sets a tutorial makes of the config that it finds. -/
structure SetsTutorial (f : Folder) (s : Settings) (index : Option Nat) (edits : TutorialEdits)
    (before after : Editor) (t : Taxonomy) (old new : TutorialOptions) (place : Nat)
    (outcome : Outcome) : Prop where
  opened : Editor.load f s.config = .ok before
  taxonomy : s.taxonomyIn f = .ok t
  /-- The edit starts from the tutorial that is at the place, or at the end from nothing. -/
  existing : place < before.pluginCount → before.tutorial place = .ok old
  fresh : place = before.pluginCount → old = {}
  applied : edits.Applied t s.defaults old new
  edited : before.setTutorial index new = (.ok place, after)
  written : before.WritesTutorial after index place new
  finishes : Finishes f s after outcome

/-- The run of an edit of a tutorial that succeeds changes the fields that are given, and no other
entry of the plugins. -/
theorem run_setsTutorial {f : Folder} {env : Environment} {arguments : List String}
    {i : Invocation} {index : Option Nat} {edits : TutorialEdits}
    (h : invocation env arguments = .ok i) (hc : i.command = setTutorial index edits)
    (hexit : (run f env arguments).exit = 0) :
    ∃ before after t old new place,
      SetsTutorial f i.settings index edits before after t old new place
        (run f env arguments) := by
  have hperform : perform i.settings i.command =
      editTutorial i.settings index edits >>= finish i.settings := by rw [hc]; rfl
  rcases run_of_answers (f := f) h hperform (edits_editTutorial _ index edits)
    (answers_editTutorial _ index edits) with ⟨⟨after, notice⟩, hedit, hfinishes⟩ | ⟨_, -, hfailed⟩
  · obtain ⟨before, t, old, o, place, hload, ht, hold, happly, hset⟩ :=
      tutorialEdit_eq_ok.mp ⟨notice, hedit⟩
    have happlied := TutorialEdits.applied_of_apply happly i.settings.defaults
    have hwrites := Editor.writesTutorial (Editor.isAt_load hload).1
      (happlied.located (located_of_tutorialBefore hold)) hset
    obtain ⟨hexisting, hfresh⟩ := tutorialBefore_eq_ok hold
    rw [← hwrites.atIndex] at hexisting hfresh
    exact ⟨before, after, t, old, _, place, hload, ht, hexisting,
      fun hend => hfresh (Nat.le_of_eq hend.symm), happlied, hset, hwrites, hfinishes⟩
  · rw [hfailed] at hexit
    cases hexit

/-- A config with one tutorial, whose preview is a path. -/
def tutorialSource : String :=
  "module.exports=\x7bplugins:[['@iota-wiki/plugin-tutorial',\x7btitle:'A'," ++
    "preview:path.resolve(__dirname,'p'),tags:['text','c']\x7d]]\x7d"

/-- The session that it opens. -/
def tutorialEditor : Editor where
  document := {
    path := "a.js"
    forest := { nodes := #[
      { expr := .identifier "module", position := some ⟨1, 1⟩ },
      { expr := .member ⟨0⟩ "exports", position := some ⟨1, 1⟩ },
      { expr := .string "@iota-wiki/plugin-tutorial", position := some ⟨1, 27⟩ },
      { expr := .string "A", position := some ⟨1, 63⟩ },
      { expr := .identifier "path", position := some ⟨1, 75⟩ },
      { expr := .member ⟨4⟩ "resolve", position := some ⟨1, 75⟩ },
      { expr := .identifier "__dirname", position := some ⟨1, 88⟩ },
      { expr := .string "p", position := some ⟨1, 98⟩ },
      { expr := .call ⟨5⟩ [⟨6⟩, ⟨7⟩], position := some ⟨1, 75⟩ },
      { expr := .string "text", position := some ⟨1, 109⟩ },
      { expr := .string "c", position := some ⟨1, 116⟩ },
      { expr := .array [{ value := ⟨9⟩ }, { value := ⟨10⟩ }] [], position := some ⟨1, 108⟩ },
      { expr := .object [
          { body := .assignment ⟨"title", .identifier⟩ ⟨3⟩, position := some ⟨1, 57⟩ },
          { body := .assignment ⟨"preview", .identifier⟩ ⟨8⟩, position := some ⟨1, 67⟩ },
          { body := .assignment ⟨"tags", .identifier⟩ ⟨11⟩, position := some ⟨1, 103⟩ }] []
        position := some ⟨1, 56⟩ },
      { expr := .array [{ value := ⟨2⟩ }, { value := ⟨12⟩ }] [], position := some ⟨1, 26⟩ },
      { expr := .array [{ value := ⟨13⟩ }] [], position := some ⟨1, 25⟩ },
      { expr := .object [{
          body := .assignment ⟨"plugins", .identifier⟩ ⟨14⟩, position := some ⟨1, 17⟩ }] []
        position := some ⟨1, 16⟩ },
      { expr := .assignment ⟨1⟩ ⟨15⟩, position := some ⟨1, 1⟩ }] }
    program := { statements := [{ body := .expression ⟨16⟩ }] } }
  config := ⟨15⟩
  plugins := ⟨14⟩

set_option maxRecDepth 8000 in
theorem ofSource_tutorialSource :
    Editor.ofSource tutorialSource "a.js" = .ok tutorialEditor := by cbv

/-- A folder with this config. -/
def tutorialFolder : Folder :=
  { files := [(["a.js"], .text tutorialSource)] }

theorem sourceAt_single (text : String) :
    Document.sourceAt { files := [(["a.js"], .text text)] } "a.js" = .ok text := by cbv

theorem load_tutorialFolder : Editor.load tutorialFolder "a.js" = .ok tutorialEditor := by
  have hopen := ofSource_tutorialSource
  rw [Editor.ofSource] at hopen
  rw [Editor.load, Document.load, tutorialFolder, sourceAt_single, Document.ok_bind]
  exact hopen

/-- Its tutorial. -/
def tagged : TutorialOptions :=
  { title := "A", preview := some (.path "p"), tags := ["text", "c"] }

def retag : TutorialEdits :=
  { tags := some ["go"], category := some "Language" }

/-- A command line that asks for the edit. -/
def retagging : List String :=
  ["-c", "a.js", "tutorial", "set", "--dry-run", "--index", "0", "--tags", "go",
    "--category", "Language"]

def retaggingRead : Invocation :=
  { settings := { config := "a.js", dryRun := true }, command := .setTutorial (some 0) retag }

theorem invocation_retagging : invocation (fun _ => none) retagging = .ok retaggingRead := by
  have hsplit : "go".splitOn "," = ["go"] := by cbv
  have hread : invocation (fun _ => none) retagging = .ok { retaggingRead with
    command := .setTutorial (some 0) { retag with tags := some ("go".splitOn "," ++ []) } } := rfl
  rw [hread, hsplit]
  rfl

theorem tutorialBefore_tutorialEditor :
    tutorialBefore tutorialEditor (some 0) = .ok tagged := by rfl

theorem exit_retagging : (run tutorialFolder (fun _ => none) retagging).exit = 0 := by
  let o : TutorialOptions := { tagged with tags := ["text", "go"] }
  have happly : retag.apply .builtin tagged = .ok o := by cbv
  have hanswer : (tutorialEditor.setTutorial (some 0)
      (o.seeded retaggingRead.settings.defaults)).1 = .ok 0 := by cbv
  rcases hset : tutorialEditor.setTutorial (some 0)
    (o.seeded retaggingRead.settings.defaults) with ⟨answer, edited⟩
  rw [hset] at hanswer
  obtain rfl : answer = .ok 0 := hanswer
  obtain ⟨notice, hedit⟩ := tutorialEdit_eq_ok.mpr ⟨tutorialEditor, .builtin, tagged, o, 0,
    load_tutorialFolder, rfl, tutorialBefore_tutorialEditor, happly, hset⟩
  rcases run_of_answers (f := tutorialFolder) invocation_retagging rfl
      (edits_editTutorial _ (some 0) retag) (answers_editTutorial _ (some 0) retag)
    with ⟨e, -, hfinishes⟩ | ⟨_, hfailed, -⟩
  · exact hfinishes.exit.mpr (.inl rfl)
  · cases hedit.symm.trans hfailed

/-- Of the tags that the tutorial had, only the one for the type stays; and its path stays one. -/
theorem run_setsTutorial_retagging :
    ∃ after new, invocation (fun _ => none) retagging = .ok retaggingRead ∧
      (run tutorialFolder (fun _ => none) retagging).exit = 0 ∧
      SetsTutorial tutorialFolder retaggingRead.settings (some 0) retag tutorialEditor after
        .builtin tagged new 0 (run tutorialFolder (fun _ => none) retagging) ∧
      new.title = "A" ∧ new.preview = some (.path "p") ∧ new.tags = ["text", "go"] := by
  obtain ⟨before, after, t, old, new, place, hsets⟩ :=
    run_setsTutorial invocation_retagging rfl exit_retagging
  obtain rfl := Except.ok.inj (load_tutorialFolder.symm.trans hsets.opened)
  obtain rfl : Taxonomy.builtin = t := Except.ok.inj hsets.taxonomy
  obtain rfl : place = 0 := hsets.written.atIndex
  obtain rfl := Except.ok.inj (tutorialBefore_tutorialEditor.symm.trans (hsets.existing (by decide)))
  have htags : Taxonomy.builtin.merge ["text", "c"] "Language" ["go"] = .ok ["text", "go"] := by cbv
  have hmerged := hsets.applied.merged "Language" rfl
  exact ⟨after, new, invocation_retagging, exit_retagging, hsets, hsets.applied.title,
    hsets.applied.preview, Except.ok.inj (hmerged.symm.trans htags)⟩

end Command

end SiteConfig
