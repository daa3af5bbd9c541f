import SiteConfig.Proofs.Handles
import SiteConfig.Proofs.Likeness

/-!
Two configs whose scripts are the same but for positions and blank lines: what can be read from one
can be read from the other.
-/

namespace SiteConfig

/-- The same version: its key as written, and its options. -/
structure VersionEntry.Same (v v' : VersionEntry) : Prop where
  key : v'.key = v.key
  record : v'.record = v.record

/-- The same plugin, wherever its options are. -/
structure DocsPlugin.Same (p p' : DocsPlugin) : Prop where
  index : p'.index = p.index
  id : p'.id = p.id
  versions : List.Forall₂ VersionEntry.Same p.versions p'.versions
  onlyInclude : p'.onlyInclude = p.onlyInclude

namespace Document

/-- The same shape, with related options. -/
inductive EntryShape.Lifts (R : NodeId → NodeId → Prop) : EntryShape → EntryShape → Prop where
  | entry (name : String) {options options' : NodeId} (h : R options options') :
    Lifts R (.entry name options) (.entry name options')
  | foreign : Lifts R .foreign .foreign
  | malformed : Lifts R .malformed .malformed

/-- What the two nodes stand for differs in nothing but positions and blank lines. -/
def Alike (d d' : Document) (x y : NodeId) : Prop :=
  (d.tree x).stripped (fun _ => false) = (d'.tree y).stripped fun _ => false

/-- The outcomes of looking for the value of a key: both times a problem, both times nothing, or
nodes that are alike. -/
inductive FoundAlike (d d' : Document) : Result (Option NodeId) → Result (Option NodeId) → Prop where
  | refused (e e' : ConfigError) : FoundAlike d d' (.error e) (.error e')
  | missing : FoundAlike d d' (.ok none) (.ok none)
  | found {id id' : NodeId} (h : Alike d d' id id') :
    FoundAlike d d' (.ok (some id)) (.ok (some id'))

namespace Alike

variable {d d' : Document} {x y : NodeId}

theorem decodedAll (h : Alike d d' x y) (path path' : String) :
    (Record.decodeAll path' (d'.tree y)).value = (Record.decodeAll path (d.tree x)).value := by
  rw [← Record.decodeAll_stripped path path fun _ => false, h,
    Record.decodeAll_stripped path' path]

theorem decoded (h : Alike d d' x y) (path path' : String) :
    (Record.decode path' (d'.tree y)).toOption = (Record.decode path (d.tree x)).toOption := by
  rw [← Record.decode_stripped path path fun _ => false, h, Record.decode_stripped path' path]

theorem decode_eq_ok {path : String} {r : Record} (h : Alike d d' x y)
    (hr : Record.decode path (d.tree x) = .ok r) (path' : String) :
    Record.decode path' (d'.tree y) = .ok r := by
  have hoption := h.decoded path path'
  rw [hr] at hoption
  cases hread : Record.decode path' (d'.tree y) with
  | error err =>
    rw [hread] at hoption
    cases hoption
  | ok r' =>
    rw [hread] at hoption
    exact congrArg Except.ok (Option.some.inj hoption)

theorem tutorial {p p' : PluginEntry} (hindex : p'.index = p.index)
    (h : Alike d d' p.options p'.options) :
    (d'.readTutorialEntry p').value = (d.readTutorialEntry p).value := by
  simp only [readTutorialEntry, h.decodedAll d.path d'.path, hindex]
  split <;> rfl

variable (hd : d.Sound) (hd' : d'.Sound)

include hd hd'

theorem lifts (h : Alike d d' x y) : (d.expr x).Lifts (Alike d d') (d'.expr y) := by
  rw [Alike, tree_of_expr hd x, tree_of_expr hd' y] at h
  exact Tree.lifts_of_stripped (congrArg Tree.expr h)

theorem value? (h : Alike d d' x y) (key problem : String) :
    FoundAlike d d' (d.value? x key problem) (d'.value? y key problem) := by
  have hlifts := h.lifts hd hd'
  -- only objects have values for keys
  cases he : d.expr x <;> cases he' : d'.expr y <;> rw [he, he'] at hlifts <;> cases hlifts
  case object.object properties dangling properties' dangling' hprops =>
    rw [value?_of_object he, value?_of_object he']
    have hfound := forall₂_find? hprops fun p p' hp => Property.binds_of_lifts hp key
    generalize properties.find? _ = found at hfound
    generalize properties'.find? _ = found' at hfound
    cases hfound with
    | none => exact .missing
    | @some p p' hp =>
      have hvalue := Property.value?_of_lifts hp
      simp only
      generalize p.value? = value at hvalue
      generalize p'.value? = value' at hvalue
      cases hvalue with
      | none => exact .refused _ _
      | some hid => exact .found hid
  all_goals
    simp only [Document.value?, property?, he, he']
    exact .missing

theorem docsId (h : Alike d d' x y) : (d'.docsId y).toOption = (d.docsId x).toOption := by
  have hvalue := h.value? hd hd' "id" idProblem
  simp only [Document.docsId]
  generalize d.value? x "id" idProblem = found at hvalue
  generalize d'.value? y "id" idProblem = found' at hvalue
  cases hvalue with
  | refused => rfl
  | missing => rfl
  | @found id id' hid =>
    have hlifts := hid.lifts hd hd'
    simp only [ok_bind]
    generalize d.expr id = e at hlifts
    generalize d'.expr id' = e' at hlifts
    cases hlifts <;> rfl

theorem onlyInclude (h : Alike d d' x y) :
    (d'.onlyInclude y).toOption = (d.onlyInclude x).toOption := by
  have hvalue := h.value? hd hd' onlyIncludeKey onlyIncludeProblem
  simp only [Document.onlyInclude]
  generalize d.value? x onlyIncludeKey onlyIncludeProblem = found at hvalue
  generalize d'.value? y onlyIncludeKey onlyIncludeProblem = found' at hvalue
  cases hvalue with
  | refused => rfl
  | missing => rfl
  | @found id id' hid =>
    have hlifts := hid.lifts hd hd'
    simp only [ok_bind]
    generalize d.expr id = e at hlifts
    generalize d'.expr id' = e' at hlifts
    cases hlifts with
    | array dangling dangling' hels =>
      have hnames := mapM_of_forall₂ hels fun e e' he => (he.lifts hd hd').asString?
      simp only [← hnames]
      split <;> rfl
    | _ => rfl

theorem versionEntry {p p' : Property NodeId} (h : p.body.Lifts (Alike d d') p'.body) :
    Option.Rel VersionEntry.Same (d.readVersionEntry p).value (d'.readVersionEntry p').value := by
  obtain ⟨body, position, trivia⟩ := p
  obtain ⟨body', position', trivia'⟩ := p'
  obtain ⟨key, hvalue⟩ | ⟨shape, text⟩ := h
  · have hlifts := hvalue.lifts hd hd'
    rename_i value value'
    simp only [readVersionEntry]
    generalize d.expr value = e at hlifts
    generalize d'.expr value' = e' at hlifts
    cases hlifts with
    | object => exact .some ⟨rfl, hvalue.decodedAll _ _⟩
    | _ => exact .none
  · exact .none

theorem versionEntries (h : Alike d d' x y) :
    List.Forall₂ VersionEntry.Same (d.versionEntries x).value (d'.versionEntries y).value := by
  have hvalue := h.value? hd hd' versionsKey versionsProblem
  simp only [Document.versionEntries]
  generalize d.value? x versionsKey versionsProblem = found at hvalue
  generalize d'.value? y versionsKey versionsProblem = found' at hvalue
  cases hvalue with
  | refused => exact .nil
  | missing => exact .nil
  | @found id id' hid =>
    have hlifts := hid.lifts hd hd'
    simp only
    generalize d.expr id = e at hlifts
    generalize d'.expr id' = e' at hlifts
    cases hlifts with
    | object dangling dangling' hprops =>
      simp only [List.filterMap_map]
      exact List.rel_filterMap (fun p p' hp => versionEntry hd hd' hp) hprops
    | _ => exact .nil

theorem docsPlugin {p p' : PluginEntry} (hindex : p'.index = p.index)
    (h : Alike d d' p.options p'.options) :
    Option.Rel DocsPlugin.Same (d.readDocsPlugin p).value (d'.readDocsPlugin p').value := by
  rw [value_readDocsPlugin, value_readDocsPlugin, h.docsId hd hd']
  cases (d.docsId p.options).toOption with
  | none => exact .none
  | some id =>
    exact .some ⟨hindex, rfl, h.versionEntries hd hd', by
      simp only [docsPluginAt, h.onlyInclude hd hd']⟩

/-! The entries of a list. -/

theorem entries (h : Alike d d' x y) :
    List.Forall₂ (Alike d d') (d.entries x) (d'.entries y) := by
  have hlifts := h.lifts hd hd'
  simp only [Document.entries]
  generalize d.expr x = e at hlifts
  generalize d'.expr y = e' at hlifts
  cases hlifts with
  | array dangling dangling' hels =>
    rwa [List.forall₂_map_left_iff, List.forall₂_map_right_iff]
  | _ => exact .nil

theorem entryShape (h : Alike d d' x y) :
    (d.entryShape x).Lifts (Alike d d') (d'.entryShape y) := by
  have hlifts := h.lifts hd hd'
  simp only [Document.entryShape]
  generalize d.expr x = e at hlifts
  generalize d'.expr y = e' at hlifts
  cases hlifts with
  | array dangling dangling' hels =>
    obtain _ | ⟨hfirst, _ | ⟨hsecond, _ | ⟨hthird, hrest⟩⟩⟩ := hels
    · exact .malformed
    · exact .malformed
    · -- the first is to be a name and the second an object
      have hname := hfirst.lifts hd hd'
      have hoptions := hsecond.lifts hd hd'
      rename_i first first' second second'
      simp only
      generalize d.expr first.value = e₁ at hname
      generalize d'.expr first'.value = e₁' at hname
      generalize d.expr second.value = e₂ at hoptions
      generalize d'.expr second'.value = e₂' at hoptions
      cases hname with
      | string name =>
        cases hoptions with
        | object => exact .entry name hsecond
        | _ => exact .malformed
      | _ => exact .malformed
    · exact .malformed
  | _ => exact .foreign

theorem named (h : Alike d d' x y) (name : String) :
    List.Forall₂ (fun p p' => p'.index = p.index ∧ Alike d d' p.options p'.options)
      (d.pluginsNamed x name) (d'.pluginsNamed y name) := by
  rw [pluginsNamed_eq, pluginsNamed_eq]
  refine List.rel_filterMap (fun e e' he => ?_) (forall₂_zipIdx (h.entries hd hd') 0)
  obtain ⟨hindex, halike⟩ := he
  have hshape := halike.entryShape hd hd'
  simp only [namedAt]
  generalize d.entryShape e.1 = shape at hshape
  generalize d'.entryShape e'.1 = shape' at hshape
  cases hshape with
  | entry n hoptions =>
    simp only
    split
    · exact .some ⟨hindex.symm, hoptions⟩
    · exact .none
  | _ => exact .none

theorem tutorials (h : Alike d d' x y) : (d'.tutorials y).value = (d.tutorials x).value := by
  simp only [Document.tutorials, reportPluginsNamed, List.filterMap_map]
  exact (filterMap_of_forall₂ (h.named hd hd' Tutorial.pluginName) fun p p' hp =>
    (tutorial hp.1 hp.2).symm).symm

theorem docsPlugins (h : Alike d d' x y) :
    List.Forall₂ DocsPlugin.Same (d.docsPlugins x).value (d'.docsPlugins y).value := by
  rw [docsPlugins_value, docsPlugins_value]
  exact List.rel_filterMap (fun p p' hp => docsPlugin hd hd' hp.1 hp.2)
    (h.named hd hd' DocsPlugin.pluginName)

/-! The exported object. -/

theorem isExportTarget (h : Alike d d' x y) : d'.isExportTarget y = d.isExportTarget x := by
  have hlifts := h.lifts hd hd'
  simp only [Document.isExportTarget]
  generalize d.expr x = e at hlifts
  generalize d'.expr y = e' at hlifts
  cases hlifts with
  | member property hbase => simp only [(hbase.lifts hd hd').asIdentifier?]
  | _ => rfl

theorem exported? {s s' : Statement NodeId}
    (h : (Program.strippedStatement (fun _ => false) (d.statementTree s)) =
      Program.strippedStatement (fun _ => false) (d'.statementTree s')) :
    Option.Rel (Alike d d') (d.exported? s) (d'.exported? s') := by
  have hbody := congrArg Statement.body h
  obtain ⟨root | text, trivia⟩ := s <;> obtain ⟨root' | text', trivia'⟩ := s' <;>
    simp only [statementTree, Program.strippedStatement, Program.strippedBody, reduceCtorEq,
      StatementBody.expression.injEq] at hbody
  · have halike : Alike d d' root root' := hbody
    have hlifts := halike.lifts hd hd'
    simp only [Document.exported?]
    generalize d.expr root = e at hlifts
    generalize d'.expr root' = e' at hlifts
    cases hlifts with
    | assignment hleft hright =>
      simp only [hleft.isExportTarget hd hd']
      split
      · exact .some hright
      · exact .none
    | _ => exact .none
  · exact .none

theorem firstExport? (h : d.toProgram.unspaced = d'.toProgram.unspaced) :
    Option.Rel (Alike d d') d.firstExport? d'.firstExport? := by
  have hstatements := congrArg Program.statements h
  simp only [toProgram, Program.unspaced, Program.stripped, List.map_map] at hstatements
  exact forall₂_findSome? (forall₂_of_map_eq hstatements) fun s s' hs => exported? hd hd' hs

end Alike

/-- The handles of one config have their like in the other. -/
theorem Settled.alike {d d' : Document} {config list : NodeId} (h : d.Settled config list)
    (hd' : d'.Sound) (hprogram : d.toProgram.unspaced = d'.toProgram.unspaced) :
    ∃ config' list', d'.Settled config' list' ∧ Alike d d' list list' := by
  have hexport := Alike.firstExport? h.sound hd' hprogram
  rw [h.exported] at hexport
  cases hexport' : d'.firstExport? with
  | none =>
    rw [hexport'] at hexport
    cases hexport
  | some config' =>
    rw [hexport'] at hexport
    obtain ⟨halike⟩ := hexport
    have hvalue := halike.value? h.sound hd' pluginsKey pluginsProblem
    rw [h.listed] at hvalue
    generalize hlisted' : d'.value? config' pluginsKey pluginsProblem = found at hvalue
    cases hvalue with
    | @found _ list' hlist =>
      refine ⟨config', list', ⟨hd', hexport', hlisted', ?_⟩, hlist⟩
      obtain ⟨elements, dangling, harray⟩ := h.array
      have hlifts := hlist.lifts h.sound hd'
      rw [harray] at hlifts
      generalize d'.expr list' = e' at hlifts
      cases hlifts
      exact ⟨_, _, rfl⟩

end Document

end SiteConfig
