import SiteConfig.Proofs.Handles
import SiteConfig.Proofs.Tutorials

/-!
A tutorial that is written is read back as it was written, and every other entry of the list is
read as it was before.
-/

namespace SiteConfig

/-- What may say where a tutorial is: a string or a path. -/
def Value.IsLocation : Value → Prop
  | string _ | path _ => True
  | _ => False

namespace TutorialOptions

/-- The locations that are given are strings or paths. -/
structure Located (o : TutorialOptions) : Prop where
  preview : ∀ v ∈ o.preview, v.IsLocation
  route : ∀ v ∈ o.route, v.IsLocation
  source : ∀ v ∈ o.source, v.IsLocation

theorem locationField_of_get? {r : Record} {key : String} {found : Option Value}
    (hfound : ∀ v ∈ found, v.IsLocation) (h : r.get? key = found) :
    locationField r key = .ok found := by
  unfold locationField
  cases found with
  | none => rw [h]
  | some v =>
    rw [h]
    cases v with
    | string | path => rfl
    | _ => exact (hfound _ rfl).elim

theorem mapM_tag (tags : List String) : (tags.map .string).mapM tag = .ok tags := by
  induction tags with
  | nil => rfl
  | cons text rest ih =>
    rw [List.map_cons, List.mapM_cons, ih]
    rfl

/-- Options are read back from the record that they are written as. -/
theorem ofRecord_toRecord {o : TutorialOptions} (h : o.Located) : ofRecord o.toRecord = .ok o := by
  have htitle : stringField o.toRecord "title" = .ok (some o.title) := rfl
  have hdescription : stringField o.toRecord "description" = .ok (some o.description) := rfl
  have htags : Record.get? "tags" o.toRecord = some (.list (o.tags.map .string)) := by
    simp [toRecord, get?_append, get?_optionalEntry, Record.get?]
  have hpreview : locationField o.toRecord "preview" = .ok o.preview :=
    locationField_of_get? h.preview (by
      simp [toRecord, get?_append, get?_optionalEntry, Record.get?])
  have hroute : locationField o.toRecord "route" = .ok o.route :=
    locationField_of_get? h.route (by
      simp [toRecord, get?_append, get?_optionalEntry, Record.get?])
  have hsource : locationField o.toRecord "source" = .ok o.source :=
    locationField_of_get? h.source (by
      simp [toRecord, get?_append, get?_optionalEntry, Record.get?])
  simp only [ofRecord, htitle, hdescription, tagsField, htags, mapM_tag, hpreview, hroute, hsource]
  rfl

end TutorialOptions

namespace Document
open Forest

variable {d d' : Document} {list : NodeId} {place : Nat}

/-- The problems of the entries that are malformed. -/
def entryProblems (d : Document) (es : List (NodeId × Nat)) : List ConfigError :=
  (es.filter fun e =>
    match d.entryShape e.1 with
    | .malformed => true
    | _ => false).map fun e => .structural (d.location e.1) entryProblem

theorem entryProblems_append (d : Document) (es es' : List (NodeId × Nat)) :
    d.entryProblems (es ++ es') = d.entryProblems es ++ d.entryProblems es' := by
  simp only [entryProblems, List.filter_append, List.map_append]

theorem entryProblems_of_entry {es : List (NodeId × Nat)}
    (h : ∀ e ∈ es, ∃ name options, d.entryShape e.1 = .entry name options) :
    d.entryProblems es = [] := by
  refine List.map_eq_nil_iff.mpr (List.filter_eq_nil_iff.mpr fun e he => ?_)
  obtain ⟨name, options, hshape⟩ := h e he
  simp [hshape]

/-- What is read of the tutorials among some entries. -/
def tutorialReports (d : Document) (es : List (NodeId × Nat)) : List (Report (Option Tutorial)) :=
  (es.filterMap (d.namedAt Tutorial.pluginName)).map d.readTutorialEntry

theorem tutorialReports_append (d : Document) (es es' : List (NodeId × Nat)) :
    d.tutorialReports (es ++ es') = d.tutorialReports es ++ d.tutorialReports es' := by
  simp only [tutorialReports, List.filterMap_append, List.map_append]

theorem tutorials_eq (d : Document) (list : NodeId) :
    d.tutorials list = ⟨(d.tutorialReports (d.entries list).zipIdx).filterMap (·.value),
      d.entryProblems (d.entries list).zipIdx ++
        (d.tutorialReports (d.entries list).zipIdx).flatMap (·.errors)⟩ := rfl

theorem readTutorialEntry_of_decode {entry : PluginEntry} {r : Record} {o : TutorialOptions}
    (hr : Record.decode d.path (d.tree entry.options) = .ok r)
    (ho : TutorialOptions.ofRecord r = .ok o) :
    d.readTutorialEntry entry = ⟨some ⟨entry.index, o⟩, []⟩ := by
  simp only [readTutorialEntry, Record.decodeAll_of_decode hr, ho]

theorem index_of_readTutorialEntry {entry : PluginEntry} {t : Tutorial}
    (h : (d.readTutorialEntry entry).value = some t) : t.index = entry.index := by
  simp only [readTutorialEntry] at h
  split at h <;> cases h
  rfl

/-- A tutorial has the place of its entry. -/
theorem index_of_tutorialReports {es : List (NodeId × Nat)} {t : Tutorial}
    (h : t ∈ (d.tutorialReports es).filterMap (·.value)) : ∃ e ∈ es, t.index = e.2 := by
  obtain ⟨report, hreport, ht⟩ := List.mem_filterMap.mp h
  obtain ⟨entry, hentry, rfl⟩ := List.mem_map.mp hreport
  obtain ⟨e, he, hnamed⟩ := List.mem_filterMap.mp hentry
  exact ⟨e, he, (index_of_readTutorialEntry ht).trans (namedAt_eq_some hnamed).1⟩

/-- The entry is a tutorial that is read in full as `o`. -/
def HoldsTutorial (d : Document) (entry : NodeId) (o : TutorialOptions) : Prop :=
  ∃ options r, d.entryShape entry = .entry Tutorial.pluginName options ∧
    Record.decode d.path (d.tree options) = .ok r ∧ TutorialOptions.ofRecord r = .ok o

theorem HoldsTutorial.reports {entry : NodeId} {o : TutorialOptions}
    (h : d.HoldsTutorial entry o) (place : Nat) :
    d.tutorialReports [(entry, place)] = [⟨some ⟨place, o⟩, []⟩] := by
  obtain ⟨options, r, hshape, hr, ho⟩ := h
  have hnamed : d.namedAt Tutorial.pluginName (entry, place) = some ⟨place, options⟩ := by
    rw [namedAt_of_shape hshape, if_pos rfl]
  rw [tutorialReports, List.filterMap_cons_some hnamed]
  exact congrArg (· :: []) (readTutorialEntry_of_decode hr ho)

/-- The entry that a tutorial was read from. -/
theorem holdsTutorial_of_tutorial {o : TutorialOptions} (h : d.tutorial list place = .ok o) :
    ∃ entry, (d.entries list)[place]? = some entry ∧ d.HoldsTutorial entry o := by
  obtain ⟨options, r, hmem, hr, ho⟩ := tutorial_source h
  obtain ⟨⟨entry, index⟩, hentry, hnamed⟩ := List.mem_filterMap.mp (pluginsNamed_eq d list _ ▸ hmem)
  obtain ⟨hindex, hshape⟩ := namedAt_eq_some hnamed
  obtain rfl : place = index := hindex
  exact ⟨entry, List.mem_zipIdx_iff_getElem?.mp hentry, options, r, hshape, hr, ho⟩

/-- The lists of `d` and `d'` have the same entries on both sides of a place. At the place, `d` has
nothing or a tutorial that can be read, and `d'` an entry for a tutorial. -/
structure Inserted (d d' : Document) (list : NodeId) (place : Nat)
    (left gone right : List (NodeId × Nat)) (new : NodeId) : Prop where
  before : (d.entries list).zipIdx = left ++ gone ++ right
  after : (d'.entries list).zipIdx = left ++ [(new, place)] ++ right
  lower : ∀ e ∈ left, e.2 < place ∧ Unaltered d d' e.1
  upper : ∀ e ∈ right, place < e.2 ∧ Unaltered d d' e.1
  replaced : gone = [] ∨ ∃ old o', gone = [(old, place)] ∧ d.HoldsTutorial old o'
  shape : ∃ options, d'.entryShape new = .entry Tutorial.pluginName options

namespace Inserted

variable {left gone right es : List (NodeId × Nat)} {new : NodeId}

theorem unaltered (h : Inserted d d' list place left gone right new) {e : NodeId × Nat}
    (he : e ∈ left ∨ e ∈ right) : Unaltered d d' e.1 :=
  he.elim (fun he => (h.lower e he).2) fun he => (h.upper e he).2

theorem index_gone (h : Inserted d d' list place left gone right new) {e : NodeId × Nat}
    (he : e ∈ gone) : e.2 = place ∧ ∃ o', d.HoldsTutorial e.1 o' := by
  rcases h.replaced with rfl | ⟨old, o', rfl, hold⟩
  · cases he
  · obtain rfl := List.mem_singleton.mp he
    exact ⟨rfl, o', hold⟩

/-- The options of an entry at another place or of another plugin are as they were. -/
theorem named_options (h : Inserted d d' list place left gone right new) {name : String}
    {p : PluginEntry} (hp : p ∈ d.pluginsNamed list name)
    (hother : p.index ≠ place ∨ name ≠ Tutorial.pluginName) : Unaltered d d' p.options := by
  obtain ⟨e, he, hnamed⟩ := List.mem_filterMap.mp (pluginsNamed_eq d list name ▸ hp)
  obtain ⟨hindex, hshape⟩ := namedAt_eq_some hnamed
  rw [h.before, List.mem_append, List.mem_append] at he
  rcases he with (he | he) | he
  · exact (h.unaltered (.inl he)).entry_options hshape
  · obtain ⟨hplace, o', options, r, hshape', -⟩ := h.index_gone he
    rw [hshape] at hshape'
    cases hshape'
    exact hother.elim (absurd (hindex.trans hplace)) (absurd rfl)
  · exact (h.unaltered (.inr he)).entry_options hshape

theorem named_of_unaltered (hes : ∀ e ∈ es, Unaltered d d' e.1) (name : String) :
    es.filterMap (d'.namedAt name) = es.filterMap (d.namedAt name) :=
  List.filterMap_congr fun e he => (hes e he).namedAt

theorem problems_of_unaltered (hes : ∀ e ∈ es, Unaltered d d' e.1) :
    d'.entryProblems es = d.entryProblems es := by
  have hfilter : ∀ e ∈ es, d'.entryShape e.1 = d.entryShape e.1 := fun e he => (hes e he).entryShape
  rw [entryProblems, List.filter_congr fun e he => by rw [hfilter e he]]
  refine List.map_congr_left fun e he => ?_
  rw [(hes e (List.mem_of_mem_filter he)).location]

theorem reports_of_unaltered (hes : ∀ e ∈ es, Unaltered d d' e.1) :
    d'.tutorialReports es = d.tutorialReports es := by
  rw [tutorialReports, named_of_unaltered hes]
  refine List.map_congr_left fun p hp => ?_
  obtain ⟨e, he, hnamed⟩ := List.mem_filterMap.mp hp
  exact ((hes e he).entry_options (namedAt_eq_some hnamed).2).readTutorialEntry

/-- A plugin of another name is listed at the same places. -/
theorem named (h : Inserted d d' list place left gone right new) {name : String}
    (hname : name ≠ Tutorial.pluginName) :
    d'.pluginsNamed list name = d.pluginsNamed list name := by
  have hgone : gone.filterMap (d.namedAt name) = [] := by
    refine List.filterMap_eq_nil_iff.mpr fun e he => ?_
    obtain ⟨-, o', options, r, hshape, -⟩ := h.index_gone he
    rw [namedAt_of_shape hshape, if_neg (Ne.symm hname)]
  have hnew : [(new, place)].filterMap (d'.namedAt name) = [] := by
    obtain ⟨options, hshape⟩ := h.shape
    rw [List.filterMap_cons_none, List.filterMap_nil]
    rw [namedAt_of_shape hshape, if_neg (Ne.symm hname)]
  rw [pluginsNamed_eq, pluginsNamed_eq, h.before, h.after]
  simp only [List.filterMap_append, hgone, hnew]
  rw [named_of_unaltered fun e he => h.unaltered (.inl he),
    named_of_unaltered fun e he => h.unaltered (.inr he)]

/-- The same entries are malformed. -/
theorem problems (h : Inserted d d' list place left gone right new) :
    d'.entryProblems (d'.entries list).zipIdx = d.entryProblems (d.entries list).zipIdx := by
  have hgone : d.entryProblems gone = [] := by
    refine entryProblems_of_entry fun e he => ?_
    obtain ⟨-, o', options, r, hshape, -⟩ := h.index_gone he
    exact ⟨_, options, hshape⟩
  have hnew : d'.entryProblems [(new, place)] = [] := by
    obtain ⟨options, hshape⟩ := h.shape
    refine entryProblems_of_entry fun e he => ?_
    obtain rfl := List.mem_singleton.mp he
    exact ⟨_, options, hshape⟩
  rw [h.before, h.after]
  simp only [entryProblems_append, hgone, hnew]
  rw [problems_of_unaltered fun e he => h.unaltered (.inl he),
    problems_of_unaltered fun e he => h.unaltered (.inr he)]

/-- An entry of another place is found as it was. -/
theorem find?_named (h : Inserted d d' list place left gone right new) (name : String) {j : Nat}
    (hj : j ≠ place) :
    (d'.pluginsNamed list name).find? (·.index = j) =
      (d.pluginsNamed list name).find? (·.index = j) := by
  have hat : ∀ (c : Document) (es : List (NodeId × Nat)), (∀ e ∈ es, e.2 = place) →
      (es.filterMap (c.namedAt name)).find? (·.index = j) = none := by
    intro c es hes
    refine List.find?_eq_none.mpr fun p hp => ?_
    obtain ⟨e, he, hnamed⟩ := List.mem_filterMap.mp hp
    simp [(namedAt_eq_some hnamed).1, hes e he, Ne.symm hj]
  rw [pluginsNamed_eq, pluginsNamed_eq, h.before, h.after]
  simp only [List.filterMap_append, List.find?_append,
    hat d gone fun e he => (h.index_gone he).1, hat d' [(new, place)] (by simp)]
  rw [named_of_unaltered fun e he => h.unaltered (.inl he),
    named_of_unaltered fun e he => h.unaltered (.inr he)]

theorem tutorial_other (h : Inserted d d' list place left gone right new) {j : Nat}
    (hj : j ≠ place) : d'.tutorial list j = d.tutorial list j := by
  simp only [Document.tutorial, h.find?_named _ hj]
  cases hf : (d.pluginsNamed list Tutorial.pluginName).find? (·.index = j) with
  | none => rfl
  | some p =>
    have hindex : p.index = j := by simpa using List.find?_some hf
    have hx := h.named_options (List.mem_of_find?_eq_some hf) (.inl (hindex ▸ hj))
    simp only [hx.decoded, hx.location]

theorem docs_ne : DocsPlugin.pluginName ≠ Tutorial.pluginName := by decide

theorem docsPlugins (h : Inserted d d' list place left gone right new) :
    d'.docsPlugins list = d.docsPlugins list := by
  have hread : (d.pluginsNamed list DocsPlugin.pluginName).map d'.readDocsPlugin =
      (d.pluginsNamed list DocsPlugin.pluginName).map d.readDocsPlugin :=
    List.map_congr_left fun p hp => (h.named_options hp (.inr docs_ne)).readDocsPlugin
  have herrors : (d'.reportPluginsNamed list DocsPlugin.pluginName).errors =
      (d.reportPluginsNamed list DocsPlugin.pluginName).errors := h.problems
  have hvalue : (d'.reportPluginsNamed list DocsPlugin.pluginName).value =
      d.pluginsNamed list DocsPlugin.pluginName := h.named docs_ne
  simp only [Document.docsPlugins, herrors, hvalue, hread]
  rfl

theorem version (h : Inserted d d' list place left gone right new) (id version : String) :
    d'.readVersion list id version = d.readVersion list id version := by
  have hplugin : d'.docsPlugin list id = d.docsPlugin list id := by
    simp only [docsPlugin, h.docsPlugins]
  refine readVersion_congr hplugin fun p v hp hv => ?_
  have hmem := List.mem_of_find?_eq_some hv
  rw [docsPlugin_versions hp] at hmem
  exact (h.named_options (docsPlugin_entry hp) (.inr docs_ne)).version_options hmem

end Inserted

/-- The new entry is read as the options `o`. -/
structure Placed (d d' : Document) (list : NodeId) (place : Nat) (o : TutorialOptions)
    (left gone right : List (NodeId × Nat)) (new : NodeId) : Prop
    extends Inserted d d' list place left gone right new where
  written : d'.HoldsTutorial new o

namespace Placed
open Inserted

variable {o : TutorialOptions} {left gone right : List (NodeId × Nat)} {new : NodeId}

theorem reports (h : Placed d d' list place o left gone right new) :
    d'.tutorialReports (d'.entries list).zipIdx =
      d.tutorialReports left ++ [⟨some ⟨place, o⟩, []⟩] ++ d.tutorialReports right := by
  rw [h.after]
  simp only [tutorialReports_append, h.written.reports]
  rw [reports_of_unaltered fun e he => h.unaltered (.inl he),
    reports_of_unaltered fun e he => h.unaltered (.inr he)]

/-- The tutorial takes its place among the others. -/
theorem tutorials_value (h : Placed d d' list place o left gone right new) :
    (d'.tutorials list).value =
      (d.tutorials list).value.filter (·.index < place) ++
        ⟨place, o⟩ :: (d.tutorials list).value.filter (place < ·.index) := by
  have hleft : ∀ t ∈ (d.tutorialReports left).filterMap (·.value), t.index < place := by
    intro t ht
    obtain ⟨e, he, hindex⟩ := index_of_tutorialReports ht
    exact hindex ▸ (h.lower e he).1
  have hright : ∀ t ∈ (d.tutorialReports right).filterMap (·.value), place < t.index := by
    intro t ht
    obtain ⟨e, he, hindex⟩ := index_of_tutorialReports ht
    exact hindex ▸ (h.upper e he).1
  have hgone : ∀ t ∈ (d.tutorialReports gone).filterMap (·.value), t.index = place := by
    intro t ht
    obtain ⟨e, he, hindex⟩ := index_of_tutorialReports ht
    exact hindex.trans (h.index_gone he).1
  simp only [tutorials_eq, h.reports, h.before, tutorialReports_append, List.filterMap_append,
    List.filter_append]
  generalize (d.tutorialReports left).filterMap (·.value) = ls at hleft
  generalize (d.tutorialReports right).filterMap (·.value) = rs at hright
  generalize (d.tutorialReports gone).filterMap (·.value) = gs at hgone
  -- indices grow along the list, so the two filters cut it at `place`
  have hls : ls.filter (·.index < place) = ls ∧ ls.filter (place < ·.index) = [] := by
    refine ⟨List.filter_eq_self.mpr fun t ht => ?_, List.filter_eq_nil_iff.mpr fun t ht => ?_⟩ <;>
      simp only [decide_eq_true_eq] <;> grind
  have hrs : rs.filter (·.index < place) = [] ∧ rs.filter (place < ·.index) = rs := by
    refine ⟨List.filter_eq_nil_iff.mpr fun t ht => ?_, List.filter_eq_self.mpr fun t ht => ?_⟩ <;>
      simp only [decide_eq_true_eq] <;> grind
  have hgs : gs.filter (·.index < place) = [] ∧ gs.filter (place < ·.index) = [] := by
    refine ⟨List.filter_eq_nil_iff.mpr fun t ht => ?_, List.filter_eq_nil_iff.mpr fun t ht => ?_⟩ <;>
      simp only [decide_eq_true_eq] <;> grind
  simp [hls, hrs, hgs]

theorem tutorials_errors (h : Placed d d' list place o left gone right new) :
    (d'.tutorials list).errors = (d.tutorials list).errors := by
  have hgone : (d.tutorialReports gone).flatMap (·.errors) = [] := by
    rcases h.replaced with rfl | ⟨old, o', rfl, hold⟩
    · rfl
    · rw [hold.reports]
      rfl
  simp only [tutorials_eq, h.problems, h.reports, h.before, tutorialReports_append,
    List.flatMap_append, hgone]
  rfl

/-- The tutorial is read as it was written. -/
theorem tutorial (h : Placed d d' list place o left gone right new) :
    d'.tutorial list place = .ok o := by
  obtain ⟨options, r, hshape, hr, ho⟩ := h.written
  have hfind : (d'.pluginsNamed list Tutorial.pluginName).find? (·.index = place) =
      some ⟨place, options⟩ := by
    have hleft : ∀ p ∈ left.filterMap (d'.namedAt Tutorial.pluginName), p.index ≠ place := by
      intro p hp
      obtain ⟨e, he, hnamed⟩ := List.mem_filterMap.mp hp
      rw [(namedAt_eq_some hnamed).1]
      exact Nat.ne_of_lt (h.lower e he).1
    have hnew : d'.namedAt Tutorial.pluginName (new, place) = some ⟨place, options⟩ := by
      rw [namedAt_of_shape hshape, if_pos rfl]
    rw [pluginsNamed_eq, h.after, List.append_assoc, List.filterMap_append, List.singleton_append,
      List.filterMap_cons_some hnew, List.find?_append, List.find?_eq_none.mpr (by simpa using hleft),
      List.find?_cons_of_pos (by simp)]
    rfl
  simp only [Document.tutorial, hfind, hr, ok_bind, ho]
  rfl

end Placed

theorem mem_zipIdx_values {els : List (Element NodeId)} {k : Nat} {e : NodeId × Nat}
    (h : e ∈ (els.map (·.value)).zipIdx k) :
    k ≤ e.2 ∧ e.2 < k + els.length ∧ ∃ el ∈ els, el.value = e.1 := by
  have hlt := List.snd_lt_of_mem_zipIdx h
  rw [List.length_map, Nat.add_comm] at hlt
  exact ⟨List.le_snd_of_mem_zipIdx h, hlt, List.mem_map.mp (List.fst_mem_of_mem_zipIdx h)⟩

/-- The lists of `d` and `d'` have the same entries on both sides of a place. At the place, `d` has
at most one entry, and `d'` has `new`. -/
structure Spliced (d d' : Document) (list : NodeId) (place : Nat)
    (left gone right : List (NodeId × Nat)) (new : NodeId) : Prop where
  before : (d.entries list).zipIdx = left ++ gone ++ right
  after : (d'.entries list).zipIdx = left ++ [(new, place)] ++ right
  lower : ∀ e ∈ left, e.2 < place ∧ Unaltered d d' e.1
  upper : ∀ e ∈ right, place < e.2 ∧ Unaltered d d' e.1
  gone : gone = [] ∨ ∃ old, gone = [(old, place)]

section Graft

variable (hd : d.Sound) {elements : List (Element NodeId)} {dangling : List Comment}
  (he : d.expr list = .array elements dangling) (hle : place ≤ elements.length)

include hd he hle

/-- What is grafted to a list stands at its place. -/
theorem spliced_graft (t : Tree) :
    ∃ left gone right, Spliced d
      (d.graft list t fun v => .array (putElement v place elements) dangling) list place
      left gone right (d.plant t).1 := by
  have hlist := issued_of_expr_array he
  have hg : ∀ v, Grafted (d.expr list).operands
      (Expr.array (putElement v place elements) dangling).operands v :=
    fun v => he ▸ grafted_putElement hle dangling v
  have hkept : ∀ el ∈ elements, Unaltered d
      (d.graft list t fun v => .array (putElement v place elements) dangling) el.value := by
    intro el hel
    apply Unaltered.graft_operand hd hlist hg
    rw [he]
    exact List.mem_map_of_mem hel
  have hexpr := expr_graft hlist t fun v => .array (putElement v place elements) dangling
  have hentries : d.entries list = elements.map (·.value) := by rw [entries, he]
  generalize (d.graft list t fun v => .array (putElement v place elements) dangling) = d'
    at hkept hexpr ⊢
  generalize (d.plant t).1 = new at hexpr ⊢
  have hentries' : d'.entries list = (putElement new place elements).map (·.value) := by
    rw [entries, hexpr]
  rcases putElement_cases hle with ⟨before, el, after, rfl, rfl, hput⟩ | ⟨rfl, hput⟩
  · -- an entry is replaced
    refine ⟨(before.map (·.value)).zipIdx, [(el.value, before.length)],
      (after.map (·.value)).zipIdx (before.length + 1), ?_, ?_, ?_, ?_, .inr ⟨_, rfl⟩⟩
    · simp [hentries, List.zipIdx_append]
    · simp [hentries', hput, List.zipIdx_append]
    · intro e hmem
      obtain ⟨-, hlt, el', hel, hvalue⟩ := mem_zipIdx_values hmem
      exact ⟨by omega, hvalue ▸ hkept el' (by simp [hel])⟩
    · intro e hmem
      obtain ⟨hlt, -, el', hel, hvalue⟩ := mem_zipIdx_values hmem
      exact ⟨hlt, hvalue ▸ hkept el' (by simp [hel])⟩
  · -- the entry is added behind the last one
    refine ⟨(elements.map (·.value)).zipIdx, [], [], ?_, ?_, ?_, by simp, .inl rfl⟩
    · simp [hentries]
    · simp [hentries', hput, List.zipIdx_append]
    · intro e hmem
      obtain ⟨-, hlt, el, hel, hvalue⟩ := mem_zipIdx_values hmem
      exact ⟨by omega, hvalue ▸ hkept el hel⟩

variable (hold : place < elements.length → ∃ old, d.tutorial list place = .ok old)

include hold

/-- A tutorial that is grafted stands at its place. -/
theorem inserted_graft (o : TutorialOptions) :
    ∃ left gone right, Inserted d
      (d.graft list (entryTree Tutorial.pluginName o.toRecord) fun v =>
        .array (putElement v place elements) dangling) list place left gone right
      (d.plant (entryTree Tutorial.pluginName o.toRecord)).1 := by
  obtain ⟨left, gone, right, h⟩ :=
    spliced_graft hd he hle (entryTree Tutorial.pluginName o.toRecord)
  obtain ⟨options, hshape, -⟩ := entryShape_graft (issued_of_expr_array he) Tutorial.pluginName
    o.toRecord fun v => .array (putElement v place elements) dangling
  refine ⟨left, gone, right, h.before, h.after, h.lower, h.upper, ?_, options, hshape⟩
  apply h.gone.imp_right
  rintro ⟨old, rfl⟩
  -- what was at the place is the tutorial that was read there
  have hmem : (old, place) ∈ (d.entries list).zipIdx := by simp [h.before]
  have hat := List.mem_zipIdx_iff_getElem?.mp hmem
  have hlt : place < (d.entries list).length := (List.getElem?_eq_some_iff.mp hat).1
  obtain ⟨o', htutorial⟩ := hold (by rwa [entries, he, List.length_map] at hlt)
  obtain ⟨entry, hentry, hholds⟩ := holdsTutorial_of_tutorial htutorial
  obtain rfl : old = entry := Option.some.inj (hat.symm.trans hentry)
  exact ⟨old, o', rfl, hholds⟩

/-- A tutorial whose locations are strings or paths is read from its place as it was written. -/
theorem placed_graft {o : TutorialOptions} (ho : o.Located) :
    ∃ left gone right new, Placed d
      (d.graft list (entryTree Tutorial.pluginName o.toRecord) fun v =>
        .array (putElement v place elements) dangling) list place o left gone right new := by
  obtain ⟨left, gone, right, hinserted⟩ := inserted_graft hd he hle hold o
  refine ⟨left, gone, right, _, hinserted, ?_⟩
  have hread := TutorialOptions.ofRecord_toRecord ho
  obtain ⟨options, hshape, htree⟩ := entryShape_graft (issued_of_expr_array he) Tutorial.pluginName
    o.toRecord fun v => .array (putElement v place elements) dangling
  refine ⟨options, o.toRecord, hshape, ?_, hread⟩
  rw [htree]
  exact Record.decode_encode _ (TutorialOptions.keyed_toRecord hread)

end Graft

/-- A tutorial is written at the end of the list, or over one that can be read. -/
theorem perform_setTutorial_eq_ok {elements : List (Element NodeId)} {dangling : List Comment}
    (he : d.expr list = .array elements dangling) (index : Option Nat) (o : TutorialOptions)
    (hplace : index.getD elements.length = place) (hle : place ≤ elements.length)
    (hold : place < elements.length → ∃ old, d.tutorial list place = .ok old) :
    d.perform (.setTutorial list index o) = (.ok place,
      d.graft list (entryTree Tutorial.pluginName o.toRecord) fun v =>
        .array (putElement v place elements) dangling) := by
  have hcount := pluginCount_of_array he
  rw [perform_setTutorial_eq d list index o (hcount ▸ hplace)]
  have hput := perform_putEntry_of_array he hle Tutorial.pluginName o.toRecord
  by_cases hlt : place < elements.length
  · obtain ⟨old, htutorial⟩ := hold hlt
    simp only [hcount, hlt, if_true, htutorial, perform_bind, hput, perform_pure]
  · simp only [hcount, hlt, if_false, perform_bind, hput, perform_pure]

theorem length_putElement {value : NodeId} {elements : List (Element NodeId)}
    (h : place ≤ elements.length) :
    (putElement value place elements).length =
      if place = elements.length then elements.length + 1 else elements.length := by
  rcases putElement_cases h with ⟨before, e, after, rfl, rfl, hput⟩ | ⟨rfl, hput⟩
  · rw [hput, if_neg (by simp)]
    simp
  · rw [hput, if_pos rfl]
    simp

end Document

namespace Editor
open Document

/-- A tutorial that was written, in terms of the list. -/
theorem setTutorial_eq_ok {e e' : Editor} (hl : e.document.Issued e.plugins)
    {index : Option Nat} {o : TutorialOptions} {place : Nat}
    (hok : e.setTutorial index o = (.ok place, e')) :
    ∃ elements dangling, e.document.expr e.plugins = .array elements dangling ∧
      place = index.getD elements.length ∧ place ≤ elements.length ∧
      (place < elements.length → ∃ old, e.tutorial place = .ok old) ∧ e'.plugins = e.plugins ∧
      e'.document = e.document.graft e.plugins (entryTree Tutorial.pluginName o.toRecord) fun v =>
        .array (putElement v place elements) dangling := by
  obtain ⟨hok, -, hplugins⟩ := perform_eq hok
  rcases perform_setTutorial hl index o rfl with
    ⟨err, d', hp, -⟩ | ⟨elements, dangling, he, hle, hold, hp⟩
  · rw [hp] at hok
    cases hok
  · obtain ⟨hplace, hd'⟩ := Prod.mk.inj (hp.symm.trans hok)
    obtain rfl := Except.ok.inj hplace
    rw [pluginCount_of_array he] at hle hold hd' ⊢
    exact ⟨elements, dangling, he, rfl, hle, hold, hplugins, hd'.symm⟩

/-- What an edit of a tutorial does in a session, and which edits are made. -/
structure TutorialEdits (e : Editor) : Prop where
  /-- A tutorial is added at the end of the list, or put over one that can be read. -/
  accepted : ∀ index o, (∃ place, (e.setTutorial index o).1 = .ok place) ↔
    index = none ∨ index = some e.pluginCount ∨
      ∃ i old, index = some i ∧ i < e.pluginCount ∧ e.tutorial i = .ok old
  /-- It stands where it was to stand, and is read as it was written. -/
  written : ∀ index o place e', o.Located → e.setTutorial index o = (.ok place, e') →
    place = index.getD e.pluginCount ∧ e'.tutorial place = .ok o
  /-- The tutorials are those that there were, with this one in its place. -/
  listed : ∀ index o place e', o.Located → e.setTutorial index o = (.ok place, e') →
    e'.tutorials.value = e.tutorials.value.filter (·.index < place) ++
      ⟨place, o⟩ :: e.tutorials.value.filter (place < ·.index) ∧
    e'.tutorials.errors = e.tutorials.errors
  counted : ∀ index o place e', e.setTutorial index o = (.ok place, e') →
    e'.pluginCount = if place = e.pluginCount then e.pluginCount + 1 else e.pluginCount
  /-- Nothing else is read in another way. -/
  kept : ∀ index o place e', o.Located → e.setTutorial index o = (.ok place, e') →
    (∀ j, j ≠ place → e'.tutorial j = e.tutorial j) ∧ e'.docsPlugins = e.docsPlugins ∧
    ∀ id version, e'.version id version = e.version id version

/-- In every session that a run of edits leads to, a tutorial that is written is read back as it
was written, and nothing else is read in another way. -/
theorem tutorialEdits_of_reached {e : Editor} (h : e.Reached) : e.TutorialEdits := by
  have hsettled := h.settled
  have hplaced : ∀ {index o place e'}, o.Located → e.setTutorial index o = (.ok place, e') →
      e'.plugins = e.plugins ∧ place = index.getD e.pluginCount ∧ ∃ left gone right new,
        Placed e.document e'.document e.plugins place o left gone right new := by
    intro index o place e' ho hok
    obtain ⟨elements, dangling, he, hplace, hle, hold, hplugins, hd'⟩ :=
      setTutorial_eq_ok hsettled.issued hok
    rw [hd', pluginCount, pluginCount_of_array he]
    exact ⟨hplugins, hplace, placed_graft hsettled.sound he hle hold ho⟩
  refine ⟨?_, ?_, ?_, ?_, ?_⟩
  · intro index o
    obtain ⟨elements, dangling, he⟩ := hsettled.array
    rw [pluginCount, pluginCount_of_array he]
    constructor
    · rintro ⟨place, hanswer⟩
      obtain ⟨elements', dangling', he', hplace, hle, hold, -⟩ :=
        setTutorial_eq_ok hsettled.issued (Prod.ext hanswer rfl)
      obtain ⟨rfl, -⟩ := Expr.array.inj (he.symm.trans he')
      cases index with
      | none => exact .inl rfl
      | some i =>
        obtain rfl : place = i := hplace
        rcases Nat.lt_or_eq_of_le hle with hlt | heq
        · obtain ⟨old, htutorial⟩ := hold hlt
          exact .inr (.inr ⟨place, old, rfl, hlt, htutorial⟩)
        · exact .inr (.inl (congrArg some heq))
    · intro hindex
      have hperform := perform_setTutorial_eq_ok he index o rfl
      rcases hindex with rfl | rfl | ⟨i, old, rfl, hlt, htutorial⟩
      · exact ⟨_, congrArg Prod.fst (hperform (Nat.le_refl _) fun hlt => absurd hlt (Nat.lt_irrefl _))⟩
      · exact ⟨_, congrArg Prod.fst (hperform (Nat.le_refl _) fun hlt => absurd hlt (Nat.lt_irrefl _))⟩
      · exact ⟨_, congrArg Prod.fst (hperform (Nat.le_of_lt hlt) fun _ => ⟨old, htutorial⟩)⟩
  · intro index o place e' ho hok
    obtain ⟨hplugins, hplace, left, gone, right, new, hput⟩ := hplaced ho hok
    exact ⟨hplace, by rw [tutorial, hplugins]; exact hput.tutorial⟩
  · intro index o place e' ho hok
    obtain ⟨hplugins, -, left, gone, right, new, hput⟩ := hplaced ho hok
    rw [tutorials, hplugins]
    exact ⟨hput.tutorials_value, hput.tutorials_errors⟩
  · intro index o place e' hok
    obtain ⟨elements, dangling, he, -, hle, -, hplugins, hd'⟩ :=
      setTutorial_eq_ok hsettled.issued hok
    have he' := expr_graft hsettled.issued (entryTree Tutorial.pluginName o.toRecord) fun v =>
      .array (putElement v place elements) dangling
    rw [pluginCount, pluginCount, hplugins, hd', pluginCount_of_array he, pluginCount_of_array he',
      length_putElement hle]
  · intro index o place e' ho hok
    obtain ⟨hplugins, -, left, gone, right, new, hput⟩ := hplaced ho hok
    simp only [tutorial, docsPlugins, version, hplugins]
    exact ⟨fun j hj => hput.tutorial_other hj, hput.docsPlugins, hput.version⟩

/-- A tutorial is added behind a docs plugin and is then replaced; the plugin itself cannot be. -/
theorem tutorialEdits_of_reached_docsEditor :
    let added := docsEditor.setTutorial none { title := "One", source := some (.path "./one") }
    let replaced := added.2.setTutorial (some 1) { title := "Two" }
    added.1 = .ok 1 ∧ replaced.1 = .ok 1 ∧
      (∃ err, (added.2.setTutorial (some 0) { title := "Two" }).1 = .error err) ∧
      added.2.TutorialEdits ∧ replaced.2.TutorialEdits := by
  intro added replaced
  have hadded : added.2.Reached := .setTutorial reached_docsEditor _ _
  exact ⟨rfl, rfl, ⟨_, rfl⟩, tutorialEdits_of_reached hadded,
    tutorialEdits_of_reached (.setTutorial hadded _ _)⟩

end Editor

end SiteConfig
