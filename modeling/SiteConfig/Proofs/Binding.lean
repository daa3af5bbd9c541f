import SiteConfig.Proofs.Confined
import SiteConfig.Proofs.Versions

/-!
The edits of a docs plugin: what is written is read back, and nothing else is read in another way.
-/

namespace SiteConfig

/-- The tree of an object in which `key` is bound to `new`: in the place of the value `old` of the
first property of that name, or behind the last property if there is none. -/
inductive Rebound (key : String) (form : KeyForm) : Option Tree → Tree → Tree → Tree → Prop where
  | replaced (before after : List (Property Tree)) (k : PropertyKey) (old new : Tree)
      (place position : Option Position) (trivia : Trivia) (dangling : List Comment)
      (hk : k.name = key) (h : ∀ p ∈ before, ¬ p.binds key) :
    Rebound key form (some old) new
      (.node place (.object (before ++ ⟨.assignment k old, position, trivia⟩ :: after) dangling))
      (.node place (.object (before ++ ⟨.assignment k new, position, trivia⟩ :: after) dangling))
  | added (properties : List (Property Tree)) (new : Tree) (place : Option Position)
      (dangling : List Comment) (h : ∀ p ∈ properties, ¬ p.binds key) :
    Rebound key form none new
      (.node place (.object properties dangling))
      (.node place (.object (properties ++ [.ofKey ⟨key, form⟩ new]) dangling))

/-- A list splits in one way at the first of its items that fits. -/
theorem split_unique {α : Type} {fits : α → Bool} {before before' after after' : List α} {x x' : α}
    (hx : fits x) (hx' : fits x') (hbefore : ∀ y ∈ before, ¬ fits y)
    (hbefore' : ∀ y ∈ before', ¬ fits y) (h : before ++ x :: after = before' ++ x' :: after') :
    before = before' ∧ x = x' ∧ after = after' := by
  induction before generalizing before' with
  | nil =>
    cases before' with
    | nil => exact ⟨rfl, List.cons.inj h⟩
    | cons y ys =>
      obtain rfl : x = y := (List.cons.inj h).1
      exact absurd hx (hbefore' x List.mem_cons_self)
  | cons y ys ih =>
    obtain ⟨-, hys⟩ := List.forall_mem_cons.mp hbefore
    cases before' with
    | nil =>
      obtain rfl : y = x' := (List.cons.inj h).1
      exact absurd hx' (hbefore y List.mem_cons_self)
    | cons z zs =>
      obtain ⟨rfl, htail⟩ := List.cons.inj h
      obtain ⟨rfl, hrest⟩ := ih hys (List.forall_mem_cons.mp hbefore').2 htail
      exact ⟨rfl, hrest⟩

namespace Rebound

variable {key : String} {form : KeyForm}

/-- A key that is bound first by one property is bound again in its place. -/
theorem of_bound {before after : List (Property Tree)} {k : PropertyKey} {t t' a : Tree}
    {old : Option Tree} {place position : Option Position} {trivia : Trivia}
    {dangling : List Comment} (hk : k.name = key) (hbefore : ∀ p ∈ before, ¬ p.binds key)
    (h : Rebound key form old t'
      (.node place (.object (before ++ ⟨.assignment k t, position, trivia⟩ :: after) dangling)) a) :
    old = some t ∧ a = .node place
      (.object (before ++ ⟨.assignment k t', position, trivia⟩ :: after) dangling) := by
  have hbinds : ∀ (k : PropertyKey) (t : Tree) (position : Option Position) (trivia : Trivia),
      k.name = key → (⟨.assignment k t, position, trivia⟩ : Property Tree).binds key :=
    fun _ _ _ _ hk => by simp [Property.binds, Property.name?, hk]
  generalize heq : Tree.node place _ = b at h
  cases h with
  | replaced before' after' k' old new place' position' trivia' dangling' hk' hbefore' =>
    simp only [Tree.node.injEq, Expr.object.injEq] at heq
    obtain ⟨rfl, hproperties, rfl⟩ := heq
    obtain ⟨rfl, hproperty, rfl⟩ :=
      split_unique (hbinds k t _ _ hk) (hbinds k' old _ _ hk') hbefore hbefore' hproperties
    cases hproperty
    exact ⟨rfl, rfl⟩
  | added properties new place' dangling' hnone =>
    simp only [Tree.node.injEq, Expr.object.injEq] at heq
    obtain ⟨rfl, rfl, rfl⟩ := heq
    exact absurd (hbinds k t position trivia hk) (hnone _ (by simp))

/-- What is bound and then bound again is bound to the later tree. -/
theorem trans {old old' : Option Tree} {t t' a b c : Tree} (h : Rebound key form old t a b)
    (h' : Rebound key form old' t' b c) : old' = some t ∧ Rebound key form old t' a c := by
  cases h with
  | replaced before after k old new place position trivia dangling hk hbefore =>
    obtain ⟨hold, rfl⟩ := h'.of_bound hk hbefore
    exact ⟨hold, .replaced before after k old t' place position trivia dangling hk hbefore⟩
  | added properties new place dangling hnone =>
    obtain ⟨hold, rfl⟩ := of_bound (k := ⟨key, form⟩) rfl hnone h'
    exact ⟨hold, .added properties t' place dangling hnone⟩

end Rebound

namespace Document
open Forest

variable {d d' : Document} {list o x y : NodeId}

@[simp] theorem binds_propertyTree (d : Document) (key : String) (p : Property NodeId) :
    (d.propertyTree p).binds key = p.binds key := by
  rcases p with ⟨_ | _, position, trivia⟩ <;> rfl

theorem rebound_replaced (hd : d.Sound) (hd' : d'.Sound) {before after : List (Property NodeId)}
    {p : Property NodeId} {k : PropertyKey} {dangling : List Comment} (form : KeyForm)
    (he : d.expr x = .object (before ++ p :: after) dangling) (hp : p.body = .assignment k o)
    (he' : d'.expr x = .object (before ++ { p with body := .assignment k y } :: after) dangling)
    (hposition : d'.forest.position x = d.forest.position x)
    (hkept : ∀ s ∈ before.filterMap (·.value?) ++ after.filterMap (·.value?),
      d'.tree s = d.tree s)
    (hbefore : ∀ q ∈ before, ¬ q.binds k.name) :
    Rebound k.name form (some (d.tree o)) (d'.tree y) (d.tree x) (d'.tree x) := by
  have hold : d.propertyTree p = ⟨.assignment k (d.tree o), p.position, p.trivia⟩ := by
    simp only [propertyTree, hp]
  have hnew : d'.propertyTree { p with body := .assignment k y } =
      ⟨.assignment k (d'.tree y), p.position, p.trivia⟩ := rfl
  rw [tree_of_expr hd x, tree_of_expr hd' x, hposition, he, he', map_object, map_object,
    List.map_append, List.map_append, List.map_cons, List.map_cons, hold, hnew,
    properties_congr fun s hs => hkept s (List.mem_append_left _ hs),
    properties_congr fun s hs => hkept s (List.mem_append_right _ hs)]
  refine .replaced _ _ _ _ _ _ _ _ _ rfl fun q hq => ?_
  obtain ⟨q', hq', rfl⟩ := List.mem_map.mp hq
  simpa using hbefore q' hq'

theorem rebound_added (hd : d.Sound) (hd' : d'.Sound) {properties : List (Property NodeId)}
    {dangling : List Comment} {key : String} (form : KeyForm)
    (he : d.expr x = .object properties dangling)
    (he' : d'.expr x = .object (properties ++ [.ofKey ⟨key, form⟩ y]) dangling)
    (hposition : d'.forest.position x = d.forest.position x)
    (hkept : ∀ s ∈ properties.filterMap (·.value?), d'.tree s = d.tree s)
    (hnone : ∀ q ∈ properties, ¬ q.binds key) :
    Rebound key form none (d'.tree y) (d.tree x) (d'.tree x) := by
  have hnew : d'.propertyTree (.ofKey ⟨key, form⟩ y) = .ofKey ⟨key, form⟩ (d'.tree y) := rfl
  rw [tree_of_expr hd x, tree_of_expr hd' x, hposition, he, he', map_object, map_object,
    List.map_append, List.map_singleton, hnew, properties_congr hkept]
  refine .added _ _ _ _ fun q hq => ?_
  obtain ⟨q', hq', rfl⟩ := List.mem_map.mp hq
  simpa using hnone q' hq'

/-- A tree that is grafted as the value of a key. -/
theorem rebound_graft (hd : d.Sound) {properties : List (Property NodeId)}
    {dangling : List Comment} {key problem : String} {found : Option NodeId}
    (he : d.expr x = .object properties dangling) (hv : d.value? x key problem = .ok found)
    (form : KeyForm) (t : Tree) :
    Rebound key form (found.map d.tree) t (d.tree x)
      ((d.graft x t fun v => .object (bind key form v properties) dangling).tree x) := by
  have hx := issued_of_expr_object he
  have hg : ∀ v, Grafted (d.expr x).operands
      (Expr.object (bind key form v properties) dangling).operands v := grafted_bind he hv form
  have hd' := hd.graft hx t hg
  have he' := expr_graft hx t fun v => .object (bind key form v properties) dangling
  have hposition := (Reshaped.graft hx t
    (e := fun v => .object (bind key form v properties) dangling) fun v => he ▸ .object ..).position
      x hx
  have hkept : ∀ s ∈ properties.filterMap (·.value?),
      (d.graft x t fun v => .object (bind key form v properties) dangling).tree s = d.tree s := by
    intro s hs
    refine tree_graft_operand hd hx hg ?_
    rw [he]
    exact hs
  have hnew := tree_graft_new hd hx hg (t := t)
  -- from here on it matters what the graft did, not how it was made
  generalize (d.graft x t fun v => .object (bind key form v properties) dangling) = d'
    at hd' he' hposition hkept hnew ⊢
  cases found with
  | none =>
    have hbind := congrFun (bind_of_value?_none he hv form)
    rw [hbind] at he'
    rw [← hnew]
    exact rebound_added hd hd' form he he' hposition hkept (not_binds_of_value?_none he hv)
  | some old =>
    obtain ⟨before, p, after, k, dangling', hx', hbefore, hb, rfl⟩ := value?_eq_some_iff.mp hv
    obtain ⟨rfl, rfl⟩ := Expr.object.inj (he.symm.trans hx')
    rw [bind_eq_replaced hbefore hb rfl] at he'
    rw [← hnew]
    refine rebound_replaced hd hd' form he hb he' hposition (fun s hs => hkept s ?_) hbefore
    have hvalue : p.value? = some old := by simp [Property.value?, hb]
    simp only [List.filterMap_append, List.filterMap_cons_some hvalue, List.mem_append,
      List.mem_cons] at hs ⊢
    tauto

/-- A change at the value of a key is seen as that key bound to another tree. -/
theorem Confined.rebound (h : Confined d d' o) (hd : d.Sound) {key problem : String}
    (hv : d.value? x key problem = .ok (some o)) (form : KeyForm) :
    Rebound key form (some (d.tree o)) (d'.tree o) (d.tree x) (d'.tree x) := by
  have hx := operand_of_value? hv
  obtain ⟨before, p, after, k, dangling, he, hbefore, hb, rfl⟩ := value?_eq_some_iff.mp hv
  have hvalue : p.value? = some o := by simp [Property.value?, hb]
  have hself : { p with body := .assignment k o } = p := by rw [← hb]
  have he' : d'.expr x = .object (before ++ { p with body := .assignment k o } :: after) dangling := by
    rw [h.above x o hx .refl, he, hself]
  refine rebound_replaced hd h.sound form he hb he'
    (h.reshaped.position x (index_lt_of_mem_operands hx)) (fun s hs => ?_) hbefore
  refine (h.beside x o s (before.filterMap (·.value?)) (after.filterMap (·.value?)) ?_ .refl hs).tree
  rw [he, operands_object_append, List.filterMap_cons_some hvalue]

/-! The listing of the docs plugins. -/

/-- The first plugin with the id `id` is `p` in one list and `p'` in the other, and all other
plugins are the same. -/
def Relisted (id : String) (p p' : DocsPlugin) (plugins plugins' : List DocsPlugin) : Prop :=
  ∃ before after, plugins = before ++ p :: after ∧ (∀ q ∈ before, q.id ≠ id) ∧ p.id = id ∧
    plugins' = before ++ p' :: after

theorem Relisted.docsPlugin {id : String} {p p' : DocsPlugin}
    (h : Relisted id p p' (d.docsPlugins list).value (d'.docsPlugins list).value)
    (hid : p'.id = id) : d'.docsPlugin list id = .ok p' := by
  obtain ⟨before, after, -, hbefore, -, h'⟩ := h
  have hfind : (d'.docsPlugins list).value.find? (·.id = id) = some p' :=
    List.find?_eq_some_iff_append.mpr ⟨by simpa using hid, before, after, h', by simpa using hbefore⟩
  simp only [Document.docsPlugin, hfind]

theorem Relisted.docsPlugin_other {id other : String} {p p' : DocsPlugin}
    (h : Relisted id p p' (d.docsPlugins list).value (d'.docsPlugins list).value)
    (hid : p'.id = id) (hother : other ≠ id) :
    d'.docsPlugin list other = d.docsPlugin list other := by
  obtain ⟨before, after, hold, -, hp, hnew⟩ := h
  have hskip : ∀ q : DocsPlugin, q.id = id →
      (q :: after).find? (·.id = other) = after.find? (·.id = other) :=
    fun q hq => List.find?_cons_of_neg (by simp [hq, Ne.symm hother])
  simp only [Document.docsPlugin, hold, hnew, List.find?_append, hskip p hp, hskip p' hid]

/-- The entry of the list that a docs plugin was read from. -/
theorem docsPlugin_shape {id : String} {p : DocsPlugin} (h : d.docsPlugin list id = .ok p) :
    ∃ entry, (d.entries list)[p.index]? = some entry ∧
      d.entryShape entry = .entry DocsPlugin.pluginName p.options := by
  obtain ⟨⟨entry, index⟩, hmem, hnamed⟩ :=
    List.mem_filterMap.mp (pluginsNamed_eq d list _ ▸ docsPlugin_entry h)
  obtain ⟨hindex, hshape⟩ := namedAt_eq_some hnamed
  obtain rfl : p.index = index := hindex
  exact ⟨entry, List.mem_zipIdx_iff_getElem?.mp hmem, hshape⟩

/-- Docs plugins with two ids stand at two places. -/
theorem docsPlugin_index_ne {id other : String} {p q : DocsPlugin}
    (hp : d.docsPlugin list id = .ok p) (hq : d.docsPlugin list other = .ok q)
    (hother : other ≠ id) : q.index ≠ p.index := by
  intro heq
  obtain ⟨entry, hentry, hshape⟩ := docsPlugin_shape hp
  obtain ⟨entry', hentry', hshape'⟩ := docsPlugin_shape hq
  obtain rfl : entry = entry' := Option.some.inj (hentry.symm.trans (heq ▸ hentry'))
  obtain ⟨-, hoptions⟩ := EntryShape.entry.inj (hshape.symm.trans hshape')
  exact hother (Except.ok.inj ((docsPlugin_id hq).symm.trans (hoptions ▸ docsPlugin_id hp)))

section Options

variable {id : String} {p : DocsPlugin} (h : Confined d d' p.options) (hd : d.Sound)
  (hp : d.docsPlugin list id = .ok p)

include h hp

/-- The options of every other docs plugin are as they were. -/
theorem Confined.docs_other {q : PluginEntry}
    (hq : q ∈ d.pluginsNamed list DocsPlugin.pluginName) (hi : q.index ≠ p.index) :
    Unaltered d d' q.options := by
  obtain ⟨entry, hentry, hshape⟩ := docsPlugin_shape hp
  exact h.named_options hentry hshape hq hi

include hd

/-- A change to the options of one plugin that leaves the id alone shows in that plugin only. -/
theorem Confined.relisted (hid : d'.docsId p.options = d.docsId p.options) :
    Relisted id p (d'.docsPluginAt ⟨p.index, p.options⟩ id) (d.docsPlugins list).value
      (d'.docsPlugins list).value := by
  obtain ⟨before, after, hsplit, hbefore, hpid⟩ := docsPlugin_eq_ok hp
  refine ⟨before, after, hsplit, hbefore, hpid, ?_⟩
  obtain ⟨entry, hentry, hshape⟩ := docsPlugin_shape hp
  have hnamed := h.named hd hentry hshape DocsPlugin.pluginName
  -- the plugins are those entries that can be read: some may be skipped before the one of `p`
  rw [docsPlugins_value] at hsplit
  obtain ⟨es, rest, hes, rfl, hrest⟩ := List.filterMap_eq_append_iff.mp hsplit
  obtain ⟨skipped, e, others, rfl, hskipped, he, rfl⟩ := List.filterMap_eq_cons_iff.mp hrest
  obtain ⟨hdocs, hpe⟩ := readDocsPlugin_eq_some he
  have heq : e = ⟨p.index, p.options⟩ := by rw [hpe]; rfl
  have hother : ∀ q ∈ es ++ skipped ++ others,
      (d'.readDocsPlugin q).value = (d.readDocsPlugin q).value := by
    intro q hq
    have hmem : q ∈ d.pluginsNamed list DocsPlugin.pluginName := by
      rw [hes]
      simp only [List.mem_append, List.mem_cons] at hq ⊢
      tauto
    have hne : q.index ≠ e.index :=
      index_ne_of_pluginsNamed (hes.trans (List.append_assoc ..).symm) hq
    rw [heq] at hne
    rw [(h.docs_other hp hmem hne).readDocsPlugin]
  have hread : (d'.readDocsPlugin e).value = some (d'.docsPluginAt ⟨p.index, p.options⟩ id) := by
    rw [heq] at hdocs ⊢
    rw [value_readDocsPlugin, hid, hdocs, hpid]
    rfl
  have hnone : ∀ q ∈ skipped, (d'.readDocsPlugin q).value = none := fun q hq =>
    (hother q (by simp [hq])).trans (hskipped q hq)
  rw [docsPlugins_value, hnamed, hes, List.filterMap_append, List.filterMap_append,
    List.filterMap_eq_nil_iff.mpr hnone, List.filterMap_cons, hread,
    List.filterMap_congr fun q hq => hother q (by simp [hq]),
    List.filterMap_congr fun q hq => hother q (by simp [hq])]
  rfl

/-- A version of another plugin is read as it was. -/
theorem Confined.version_other (hid : d'.docsId p.options = d.docsId p.options) {other : String}
    (hother : other ≠ id) (version : String) :
    d'.readVersion list other version = d.readVersion list other version := by
  have hplugin := (h.relisted hd hp hid).docsPlugin_other rfl hother
  refine readVersion_congr hplugin fun q v hq hv => ?_
  have hmem := List.mem_of_find?_eq_some hv
  rw [docsPlugin_versions hq] at hmem
  have hindex := docsPlugin_index_ne hp hq hother
  exact (h.docs_other hp (docsPlugin_entry hq) hindex).version_options hmem

end Options

/-! The members of the versions of a plugin. -/

/-- The versions that some members of a `versions` object give. -/
def versionsOf (d : Document) (properties : List (Property NodeId)) : List VersionEntry :=
  (properties.map d.readVersionEntry).filterMap (·.value)

theorem versionsOf_append (d : Document) (before after : List (Property NodeId)) :
    d.versionsOf (before ++ after) = d.versionsOf before ++ d.versionsOf after := by
  simp only [versionsOf, List.map_append, List.filterMap_append]

theorem versionEntries_value {properties : List (Property NodeId)} {dangling : List Comment}
    (hv : d.value? x versionsKey versionsProblem = .ok (some o))
    (he : d.expr o = .object properties dangling) :
    (d.versionEntries x).value = d.versionsOf properties := by
  simp only [versionEntries, hv, he]
  rfl

theorem versionsOf_congr {properties : List (Property NodeId)} (hpath : d'.path = d.path)
    (h : ∀ s ∈ properties.filterMap (·.value?), Unaltered d d' s) :
    d'.versionsOf properties = d.versionsOf properties := by
  have hread : properties.map d'.readVersionEntry = properties.map d.readVersionEntry :=
    List.map_congr_left fun p hp => readVersionEntry_congr hpath fun value hvalue =>
      h value (List.mem_filterMap.mpr ⟨p, hp, hvalue⟩)
  rw [versionsOf, hread, versionsOf]

theorem body_of_versionsOf {properties : List (Property NodeId)} {v : VersionEntry}
    (h : v ∈ d.versionsOf properties) :
    ∃ p ∈ properties, p.body = .assignment v.key v.options := by
  obtain ⟨report, hreport, hv⟩ := List.mem_filterMap.mp h
  obtain ⟨p, hp, rfl⟩ := List.mem_map.mp hreport
  exact ⟨p, hp, body_of_readVersionEntry hv⟩

/-- Members that do not bind a name give no version of that name. -/
theorem name_of_versionsOf {properties : List (Property NodeId)} {version : String}
    (h : ∀ p ∈ properties, ¬ p.binds version) {v : VersionEntry}
    (hv : v ∈ d.versionsOf properties) : v.key.name ≠ version := by
  obtain ⟨p, hp, hb⟩ := body_of_versionsOf hv
  intro hname
  exact h p hp (by simp [Property.binds, Property.name?, hb, hname])

/-- The versions of the options `x` in `d'` are those in `d` but for `version`, which is read
as `r`. -/
structure VersionWritten (d d' : Document) (x : NodeId) (version : String) (r : Record) : Prop where
  written : ∃ v, (d'.versionEntries x).value.find? (·.key.name = version) = some v ∧
    Record.decode d'.path (d'.tree v.options) = .ok r
  kept : ∀ other, other ≠ version →
    (d'.versionEntries x).value.find? (·.key.name = other) =
      (d.versionEntries x).value.find? (·.key.name = other) ∧
    ∀ v, (d.versionEntries x).value.find? (·.key.name = other) = some v → Unaltered d d' v.options

/-- Members whose values are not altered give the versions that they gave. -/
theorem versionsOf_kept {properties ps : List (Property NodeId)} (hpath : d'.path = d.path)
    (hkept : ∀ s ∈ properties.filterMap (·.value?), Unaltered d d' s) (hps : ps ⊆ properties) :
    d'.versionsOf ps = d.versionsOf ps ∧ ∀ v ∈ d.versionsOf ps, Unaltered d d' v.options := by
  have hmem : ∀ s ∈ ps.filterMap (·.value?), Unaltered d d' s := by
    intro s hs
    obtain ⟨p, hp, hvalue⟩ := List.mem_filterMap.mp hs
    exact hkept s (List.mem_filterMap.mpr ⟨p, hps hp, hvalue⟩)
  refine ⟨versionsOf_congr hpath hmem, fun v hv => ?_⟩
  obtain ⟨p, hp, hb⟩ := body_of_versionsOf hv
  exact hmem _ (List.mem_filterMap.mpr ⟨p, hp, by simp [Property.value?, hb]⟩)

/-- The new version stands among the old ones, in the place of those of its name. -/
theorem versionsOf_bind {version problem : String} {properties : List (Property NodeId)}
    {dangling : List Comment} {found : Option NodeId} {r : Record}
    (he : d.expr o = .object properties dangling)
    (hk : d.value? o version problem = .ok found) (hpath : d'.path = d.path)
    (hkept : ∀ s ∈ properties.filterMap (·.value?), Unaltered d d' s)
    (hread : ∀ k position trivia, (d'.readVersionEntry ⟨.assignment k y, position, trivia⟩).value =
      some ⟨k, y, r⟩) :
    ∃ left gone k right, k.name = version ∧ d.versionsOf properties = left ++ gone ++ right ∧
      d'.versionsOf (bind version .string y properties) =
        left ++ ⟨k, y, r⟩ :: right ∧
      (∀ v ∈ left, v.key.name ≠ version) ∧ (∀ v ∈ gone, v.key.name = version) ∧
      ∀ v ∈ left ++ right, Unaltered d d' v.options := by
  have hone : ∀ k position trivia, d'.versionsOf [⟨.assignment k y, position, trivia⟩] =
      [⟨k, y, r⟩] := by
    intro k position trivia
    simp only [versionsOf, List.map_cons, List.map_nil, List.filterMap_cons, hread,
      List.filterMap_nil]
  cases found with
  | none =>
    have hnone := not_binds_of_value?_none he hk
    obtain ⟨hsame, hunaltered⟩ := versionsOf_kept hpath hkept (List.Subset.refl _)
    have hput := congrFun (bind_of_value?_none he hk .string) y
    refine ⟨d.versionsOf properties, [], ⟨version, .string⟩, [], rfl, by simp, ?_,
      fun v hv => name_of_versionsOf hnone hv, by simp, by simpa using hunaltered⟩
    rw [hput, versionsOf_append, hsame, Property.ofKey, hone]
  | some old =>
    obtain ⟨before, p, after, k, dangling', hx, hbefore, hb, rfl⟩ := value?_eq_some_iff.mp hk
    obtain ⟨rfl, rfl⟩ := Expr.object.inj (he.symm.trans hx)
    have hfirst : before ⊆ before ++ p :: after := by simp
    have hlast : after ⊆ before ++ p :: after := fun q hq => by simp [hq]
    obtain ⟨hsame, hunaltered⟩ := versionsOf_kept hpath hkept hfirst
    obtain ⟨hsame', hunaltered'⟩ := versionsOf_kept hpath hkept hlast
    -- `gone` is the member that is overwritten, if it was read as a version at all
    refine ⟨d.versionsOf before, d.versionsOf [p], k, d.versionsOf after, rfl, ?_, ?_,
      fun v hv => name_of_versionsOf hbefore hv, ?_, ?_⟩
    · rw [← versionsOf_append, ← versionsOf_append]
      simp
    · rw [bind_eq_replaced hbefore hb rfl, ← List.singleton_append, versionsOf_append,
        versionsOf_append, hsame, hsame', hone]
      rfl
    · intro v hv
      obtain ⟨q, hq, hbody⟩ := body_of_versionsOf hv
      obtain rfl := List.mem_singleton.mp hq
      rw [hb] at hbody
      exact congrArg PropertyKey.name (PropertyBody.assignment.inj hbody).1.symm
    · intro v hv
      exact (List.mem_append.mp hv).elim (hunaltered v) (hunaltered' v)

/-- A record that is written is read back as a version. -/
theorem readVersionEntry_encoded {r : Record} (hr : (Value.record r).Keyed)
    (ht : d.tree y = r.encode) : Record.decode d.path (d.tree y) = .ok r ∧
      ∀ k position trivia,
        (d.readVersionEntry ⟨.assignment k y, position, trivia⟩).value = some ⟨k, y, r⟩ := by
  have hdecode : Record.decode d.path (d.tree y) = .ok r := by
    rw [ht]
    exact Record.decode_encode _ hr
  refine ⟨hdecode, fun k position trivia => ?_⟩
  obtain ⟨properties, hobject⟩ := expr_of_tree_object (congrArg Tree.expr ht)
  rw [readVersionEntry_object rfl ⟨properties, [], hobject⟩, Record.decodeAll_of_decode hdecode]

section Spliced

variable {version : String} {left gone right : List VersionEntry} {v : VersionEntry}
  (hname : v.key.name = version)

include hname

theorem find?_spliced_self (hleft : ∀ w ∈ left, w.key.name ≠ version) :
    (left ++ v :: right).find? (·.key.name = version) = some v :=
  List.find?_eq_some_iff_append.mpr
    ⟨by simpa using hname, left, right, rfl, by simpa using hleft⟩

theorem find?_spliced_other (hgone : ∀ w ∈ gone, w.key.name = version) {other : String}
    (hother : other ≠ version) : (left ++ v :: right).find? (·.key.name = other) =
      (left ++ gone ++ right).find? (·.key.name = other) := by
  have hskip : gone.find? (·.key.name = other) = none :=
    List.find?_eq_none.mpr fun w hw => by simp [hgone w hw, Ne.symm hother]
  rw [List.find?_append, List.find?_append, List.find?_append, hskip,
    List.find?_cons_of_neg (by simp [hname, Ne.symm hother]), Option.or_none]

end Spliced

theorem versionWritten_graft (hd : d.Sound) {version problem : String}
    {properties : List (Property NodeId)} {dangling : List Comment} {found : Option NodeId}
    {r : Record} (hr : (Value.record r).Keyed)
    (hv : d.value? x versionsKey versionsProblem = .ok (some o))
    (he : d.expr o = .object properties dangling) (hk : d.value? o version problem = .ok found) :
    VersionWritten d
      (d.graft o r.encode fun v => .object (bind version .string v properties) dangling) x
      version r := by
  have ho := issued_of_expr_object he
  have hg := grafted_bind he hk .string
  have hkept : ∀ s ∈ properties.filterMap (·.value?), Unaltered d
      (d.graft o r.encode fun v => .object (bind version .string v properties) dangling) s := by
    intro s hs
    refine .graft_operand hd ho hg ?_
    rw [he]
    exact hs
  have hx := operand_of_value? hv
  have hexpr := expr_graft_ne (index_lt_of_mem_operands hx) (ne_of_operand hd hx .refl) r.encode
    fun v => .object (bind version .string v properties) dangling
  have he' := expr_graft ho r.encode fun v => .object (bind version .string v properties) dangling
  obtain ⟨hdecode, hread⟩ := readVersionEntry_encoded hr (tree_graft_new hd ho hg (t := r.encode))
  have hpath : (d.graft o r.encode fun v =>
    .object (bind version .string v properties) dangling).path = d.path := rfl
  generalize (d.graft o r.encode fun v => .object (bind version .string v properties) dangling) = d'
    at *
  generalize (d.plant r.encode).1 = y at *
  -- a look-up takes the first version of a name, so the lists around the new one decide
  obtain ⟨left, gone, k, right, hname, hold, hnew, hleft, hgone, hunaltered⟩ :=
    versionsOf_bind he hk hpath hkept hread
  have hentries := (versionEntries_value hv he).trans hold
  have hentries' : (d'.versionEntries x).value = left ++ ⟨k, y, r⟩ :: right := by
    rw [versionEntries_value ((value?_congr hpath hexpr _ _).trans hv) he', hnew]
  refine ⟨⟨⟨k, y, r⟩, hentries' ▸ find?_spliced_self hname hleft, hdecode⟩, fun other hother => ?_⟩
  rw [hentries, hentries']
  refine ⟨find?_spliced_other hname hgone hother, fun v hfind => ?_⟩
  have hv : v.key.name = other := by simpa using List.find?_some hfind
  have hmem := List.mem_of_find?_eq_some hfind
  rw [List.mem_append, List.mem_append] at hmem
  rcases hmem with (hmem | hmem) | hmem
  · exact hunaltered v (List.mem_append_left _ hmem)
  · exact absurd (hv.symm.trans (hgone v hmem)) hother
  · exact hunaltered v (List.mem_append_right _ hmem)

end Document

end SiteConfig
