import SiteConfig.Proofs.DocsEdits
import SiteConfig.Proofs.Patching
import SiteConfig.Proofs.Placing

/-!
What an edit looks at before it writes, and the place it writes to. What is written to one slot
does not change how another one is found.
-/

namespace SiteConfig

/-- What an edit writes: the tutorial at a place of the plugin list, a version of a docs plugin, or
the versions that the plugin includes. -/
inductive Slot where
  | tutorial (index : Nat)
  | version (id key : String)
  | onlyInclude (id : String)

inductive SlotEdit where
  | tutorial (index : Nat) (o : TutorialOptions)
  | version (id key : String) (r : Record)
  | onlyInclude (id : String) (names : List String)

namespace SlotEdit

def slot : SlotEdit → Slot
  | tutorial index _ => .tutorial index
  | version id key _ => .version id key
  | onlyInclude id _ => .onlyInclude id

/-- The tree that the edit puts into its slot. -/
def tree : SlotEdit → Tree
  | tutorial _ o => Document.entryTree Tutorial.pluginName o.toRecord
  | version _ _ r => r.encode
  | onlyInclude _ names => (Value.list (names.map .string)).encode

def change (list : NodeId) : SlotEdit → Change Unit
  | tutorial index o => (fun _ => ()) <$> Change.setTutorial list (some index) o
  | version id key r => .setVersion list id key r
  | onlyInclude id names => .setOnlyInclude list id names

end SlotEdit

namespace Document
open Forest

variable {d d' : Document} {list x o : NodeId} {s : Slot} {w w' : Spot} {found : Result Unit}

theorem write_element {elements : List (Element NodeId)} {dangling : List Comment}
    (he : d.expr x = .array elements dangling) (index : Nat) (t : Tree) :
    d.write ⟨x, .element index⟩ t =
      d.graft x t fun v => .array (putElement v index elements) dangling := by
  simp only [write, Place.put, he]

theorem write_member {properties : List (Property NodeId)} {dangling : List Comment}
    (he : d.expr x = .object properties dangling) (key : String) (form : KeyForm) (t : Tree) :
    d.write ⟨x, .member key form⟩ t =
      d.graft x t fun v => .object (bind key form v properties) dangling := by
  simp only [write, Place.put, he]

theorem fits_member {properties : List (Property NodeId)} {dangling : List Comment}
    {key problem : String} {value : Option NodeId} (he : d.expr x = .object properties dangling)
    (hv : d.value? x key problem = .ok value) (form : KeyForm) : d.Fits ⟨x, .member key form⟩ where
  issued := issued_of_expr_object he
  grafted v := by
    have hg := grafted_bind he hv form v
    simp only [he, Place.put] at hg ⊢
    exact hg

/-- The options of a docs plugin are an object. -/
theorem docsPlugin_object {id : String} {p : DocsPlugin} (hp : d.docsPlugin list id = .ok p) :
    ∃ properties dangling, d.expr p.options = .object properties dangling := by
  obtain ⟨entry, -, hshape⟩ := docsPlugin_shape hp
  obtain ⟨first, second, -, -, -, hobject, hsecond⟩ := entryShape_eq_entry hshape
  exact hsecond ▸ hobject

theorem array_of_lt_pluginCount {index : Nat} (h : index < d.pluginCount list) :
    ∃ elements dangling, d.expr list = .array elements dangling ∧ index < elements.length := by
  cases he : d.expr list with
  | array elements dangling => exact ⟨elements, dangling, rfl, by rwa [pluginCount_of_array he] at h⟩
  | _ => simp [pluginCount, entries, he] at h

/-- An edit of the slot `s` writes to `w` if what it looks at before is `found` to be right. The
entry of a tutorial, the versions of a plugin and its options must be there. -/
inductive Target (d : Document) (list : NodeId) : Slot → Spot → Result Unit → Prop where
  | tutorial {index : Nat} {found : Result Unit} (h : index < d.pluginCount list)
      (hfound : (d.tutorial list index).map (fun _ => ()) = found) :
    Target d list (.tutorial index) ⟨list, .element index⟩ found
  | version {id key : String} {p : DocsPlugin} {o : NodeId} {properties : List (Property NodeId)}
      {dangling : List Comment} {found : Result Unit} (hp : d.docsPlugin list id = .ok p)
      (hv : d.value? p.options versionsKey versionsProblem = .ok (some o))
      (he : d.expr o = .object properties dangling)
      (hfound : (d.value? o key (versionProblem key)).map (fun _ => ()) = found) :
    Target d list (.version id key) ⟨o, .member key .string⟩ found
  | onlyInclude {id : String} {p : DocsPlugin} {found : Result Unit}
      (hp : d.docsPlugin list id = .ok p)
      (hfound : (d.value? p.options onlyIncludeKey (optionProblem onlyIncludeKey)).map
        (fun _ => ()) = found) :
    Target d list (.onlyInclude id)
      ⟨p.options, .member onlyIncludeKey (PropertyKey.forName onlyIncludeKey).form⟩ found

namespace Target

theorem fits (ht : d.Target list s w (.ok ())) : d.Fits w := by
  cases ht with
  | @tutorial index _ h _ =>
    obtain ⟨elements, dangling, he, hlt⟩ := array_of_lt_pluginCount h
    refine ⟨issued_of_expr_array he, fun v => ?_⟩
    have hg := grafted_putElement (Nat.le_of_lt hlt) dangling v
    simp only [he, Place.put]
    exact hg
  | version hp hv he hfound =>
    obtain ⟨value, hvalue, -⟩ := Result.ok_of_map hfound
    exact fits_member he hvalue _
  | onlyInclude hp hfound =>
    obtain ⟨value, hvalue, -⟩ := Result.ok_of_map hfound
    obtain ⟨properties, dangling, he⟩ := docsPlugin_object hp
    exact fits_member he hvalue _

/-- What stands at a target is let go of when the next tree is written. -/
theorem overwrites (ht : d.Target list s w found) :
    w.place.Held (d.expr w.node) ∨ ∃ key form, w.place = .member key form := by
  cases ht with
  | tutorial h _ =>
    obtain ⟨elements, dangling, he, hlt⟩ := array_of_lt_pluginCount h
    left
    simpa only [he, Place.Held] using hlt
  | version => exact .inr ⟨_, _, rfl⟩
  | onlyInclude => exact .inr ⟨_, _, rfl⟩

end Target

theorem perform_putVersion_of_object (hd : d.Sound) {options : NodeId} {key : String}
    {properties : List (Property NodeId)} {dangling : List Comment}
    (hv : d.value? options versionsKey versionsProblem = .ok (some o))
    (he : d.expr o = .object properties dangling) (r : Record) :
    d.perform (.putVersion options key r) =
      match d.value? o key (versionProblem key) with
      | .error e => (.error e, d)
      | .ok _ => (.ok (), d.write ⟨o, .member key .string⟩ r.encode) := by
  have hexpr := (Strayed.plant d r.encode).expr (issued_of_value? hd hv)
  simp only [Change.putVersion, Change.versions, perform_bind, perform_ask, hv, perform_get, he,
    perform_pure]
  cases hk : d.value? o key (versionProblem key) with
  | error e => rfl
  | ok value =>
    simp only [perform_plant, hexpr, he, perform_modify, bindProperty, write_member he]
    rfl

theorem perform_putOption_of_object {key : String} {properties : List (Property NodeId)}
    {dangling : List Comment} (he : d.expr x = .object properties dangling) (value : Value) :
    d.perform (.putOption x key value) =
      match d.value? x key (optionProblem key) with
      | .error e => (.error e, d)
      | .ok _ =>
        (.ok (), d.write ⟨x, .member key (PropertyKey.forName key).form⟩ value.encode) := by
  have hexpr := (Strayed.plant d value.encode).expr (issued_of_expr_object he)
  simp only [Change.putOption, perform_bind, perform_ask]
  cases hk : d.value? x key (optionProblem key) with
  | error e => rfl
  | ok found =>
    simp only [perform_plant, perform_get, hexpr, he, perform_modify, bindProperty, write_member he]
    rfl

/-- What an edit does that is checked first: it changes nothing, or it leaves `d'`. -/
def checked (d d' : Document) : Result Unit → Result Unit × Document
  | .error e => (.error e, d)
  | .ok _ => (.ok (), d')

/-- An edit of a target writes its tree there if what it looks at is right. -/
theorem Target.perform (hd : d.Sound) {a : SlotEdit} (ht : d.Target list a.slot w found) :
    d.perform (a.change list) = d.checked (d.write w a.tree) found := by
  cases a with
  | tutorial index o =>
    cases ht with
    | tutorial h hfound =>
      subst hfound
      obtain ⟨elements, dangling, he, hlt⟩ := array_of_lt_pluginCount h
      have hplace : (some index).getD (d.pluginCount list) = index := rfl
      rw [SlotEdit.change, perform_map, perform_setTutorial_eq d list (some index) o hplace, if_pos h]
      cases htutorial : d.tutorial list index with
      | error e => rfl
      | ok old =>
        simp only [perform_bind, perform_putEntry_of_array he (Nat.le_of_lt hlt), perform_pure]
        exact congrArg (Prod.mk _) (write_element he index _).symm
  | version id key r =>
    cases ht with
    | version hp hv he hfound =>
      subst hfound
      simp only [SlotEdit.change, Change.setVersion, perform_bind, perform_ask, hp,
        perform_putVersion_of_object hd hv he]
      cases d.value? _ key (versionProblem key) <;> rfl
  | onlyInclude id names =>
    cases ht with
    | onlyInclude hp hfound =>
      subst hfound
      obtain ⟨properties, dangling, he⟩ := docsPlugin_object hp
      simp only [SlotEdit.change, Change.setOnlyInclude, perform_bind, perform_ask, hp,
        perform_putOption_of_object he]
      cases d.value? _ onlyIncludeKey (optionProblem onlyIncludeKey) <;> rfl

/-! What a write leaves as it was. -/

/-- The docs plugin `id` is found with the same options as before, and of these `key` is as it
was. -/
def OptionKept (d d' : Document) (list : NodeId) (id key : String) : Prop :=
  ∀ p problem, d.docsPlugin list id = .ok p → ∃ p', d'.docsPlugin list id = .ok p' ∧
    p'.options = p.options ∧ SameOption d d' p.options key problem

namespace Target

theorem version_kept {id key : String} (h : OptionKept d d' list id versionsKey)
    (ht : d.Target list (.version id key) w found) : d'.Target list (.version id key) w found := by
  cases ht with
  | version hp hv he hfound =>
    obtain ⟨p', hp', hoptions, hsame⟩ := h _ versionsProblem hp
    have ho := hsame.unaltered _ hv
    refine .version hp' ?_ (ho.expr.trans he) ?_
    · rw [hoptions, hsame.found, hv]
    · rw [ho.value?, hfound]

theorem onlyInclude_kept {id : String} (h : OptionKept d d' list id onlyIncludeKey)
    (ht : d.Target list (.onlyInclude id) w found) : d'.Target list (.onlyInclude id) w found := by
  cases ht with
  | onlyInclude hp hfound =>
    obtain ⟨p', hp', hoptions, hsame⟩ := h _ (optionProblem onlyIncludeKey) hp
    rw [← hoptions]
    refine .onlyInclude hp' ?_
    rw [hoptions, hsame.found, hfound]

theorem tutorial_kept {index : Nat} (hcount : d'.pluginCount list = d.pluginCount list)
    (h : d'.tutorial list index = d.tutorial list index)
    (ht : d.Target list (.tutorial index) w found) : d'.Target list (.tutorial index) w found := by
  cases ht with
  | tutorial hlt hfound => exact .tutorial (hcount ▸ hlt) (h ▸ hfound)

end Target

/-! A tutorial is written. -/

theorem Inserted.optionKept {place : Nat} {left gone right : List (NodeId × Nat)} {new : NodeId}
    (h : Inserted d d' list place left gone right new) (id key : String) :
    OptionKept d d' list id key := by
  intro p problem hp
  have hplugin : d'.docsPlugin list id = d.docsPlugin list id := by
    simp only [docsPlugin, h.docsPlugins]
  exact ⟨p, hplugin.trans hp, rfl,
    (h.named_options (docsPlugin_entry hp) (.inr Inserted.docs_ne)).option key problem⟩

theorem Target.inserted (hd : d.Sound) {index : Nat}
    (ht : d.Target list (.tutorial index) w (.ok ())) (o : TutorialOptions) :
    ∃ left gone right new,
      Inserted d (d.write w (entryTree Tutorial.pluginName o.toRecord)) list index left gone right
        new ∧
      (d.write w (entryTree Tutorial.pluginName o.toRecord)).pluginCount list =
        d.pluginCount list := by
  cases ht with
  | tutorial h hfound =>
    obtain ⟨elements, dangling, he, hlt⟩ := array_of_lt_pluginCount h
    obtain ⟨left, gone, right, hinserted⟩ := inserted_graft hd he (Nat.le_of_lt hlt)
      (fun _ => (Result.ok_of_map hfound).imp fun _ => And.left) o
    have he' := expr_graft (issued_of_expr_array he) (entryTree Tutorial.pluginName o.toRecord)
      fun v => .array (putElement v index elements) dangling
    rw [← write_element he] at hinserted he'
    refine ⟨left, gone, right, _, hinserted, ?_⟩
    rw [pluginCount_of_array he', pluginCount_of_array he, length_putElement (Nat.le_of_lt hlt),
      if_neg (Nat.ne_of_lt hlt)]

/-! An option of a docs plugin is written. -/

/-- `d'` is `d` with a change below one option of the docs plugin `id`. -/
structure OptionWritten (d d' : Document) (list : NodeId) (id key : String) : Prop where
  sound : d.Sound
  other : key ≠ "id"
  plugin : ∃ p, d.docsPlugin list id = .ok p ∧ Confined d d' p.options ∧
    ∀ k problem, k ≠ key → SameOption d d' p.options k problem

namespace OptionWritten

variable {id key : String}

/-- An option is bound to a tree. -/
theorem bound (hd : d.Sound) {p : DocsPlugin} {problem : String} {value : Option NodeId}
    (hp : d.docsPlugin list id = .ok p) (hv : d.value? p.options key problem = .ok value)
    (hkey : key ≠ "id") (form : KeyForm) (t : Tree) :
    OptionWritten d (d.write ⟨p.options, .member key form⟩ t) list id key := by
  obtain ⟨properties, dangling, he⟩ := docsPlugin_object hp
  rw [write_member he]
  exact ⟨hd, hkey, p, hp,
    .graft hd .refl (issued_of_expr_object he) t (grafted_bind he hv form) fun v => he ▸ .object ..,
    fun k problem hk => option_bind hd he hv form t hk⟩

/-- The plugin is found with the same options. -/
theorem docsPlugin (h : OptionWritten d d' list id key) {p : DocsPlugin}
    (hp : d.docsPlugin list id = .ok p) :
    ∃ p', d'.docsPlugin list id = .ok p' ∧ p'.options = p.options := by
  obtain ⟨p₀, hp₀, hconfined, hother⟩ := h.plugin
  obtain rfl := Except.ok.inj (hp.symm.trans hp₀)
  have hid := (hother "id" idProblem h.other.symm).docsId
  exact ⟨_, (hconfined.relisted h.sound hp hid).docsPlugin rfl, rfl⟩

/-- Every other option of a docs plugin is as it was. -/
theorem optionKept (h : OptionWritten d d' list id key) {id' key' : String}
    (hne : id' ≠ id ∨ key' ≠ key) : OptionKept d d' list id' key' := by
  intro q problem hq
  obtain ⟨p, hp, hconfined, hother⟩ := h.plugin
  by_cases hid : id' = id
  · subst hid
    obtain rfl := Except.ok.inj (hp.symm.trans hq)
    obtain ⟨p', hp', hoptions⟩ := h.docsPlugin hp
    exact ⟨p', hp', hoptions, hother _ _ (hne.resolve_left fun hid => hid rfl)⟩
  · have hrelisted := hconfined.relisted h.sound hp (hother "id" idProblem h.other.symm).docsId
    have hindex := docsPlugin_index_ne hp hq hid
    exact ⟨q, (hrelisted.docsPlugin_other rfl hid).trans hq, rfl,
      (hconfined.docs_other hp (docsPlugin_entry hq) hindex).option _ _⟩

theorem pluginCount (h : OptionWritten d d' list id key) :
    d'.pluginCount list = d.pluginCount list := by
  obtain ⟨p, hp, hconfined, -⟩ := h.plugin
  obtain ⟨entry, hentry, hshape⟩ := docsPlugin_shape hp
  simp only [Document.pluginCount, entries, (hconfined.expr_list hentry hshape).1]

/-- A tutorial does not stand at the place of a docs plugin. -/
theorem tutorial (h : OptionWritten d d' list id key) (index : Nat) :
    d'.tutorial list index = d.tutorial list index := by
  obtain ⟨p, hp, hconfined, -⟩ := h.plugin
  obtain ⟨entry, hentry, hshape⟩ := docsPlugin_shape hp
  simp only [Document.tutorial, hconfined.named h.sound hentry hshape]
  cases hf : (d.pluginsNamed list Tutorial.pluginName).find? (·.index = index) with
  | none => rfl
  | some q =>
    have hq := List.mem_of_find?_eq_some hf
    have hindex : q.index ≠ p.index := by
      intro heq
      obtain ⟨⟨entry', index'⟩, hmem, hnamed⟩ :=
        List.mem_filterMap.mp (pluginsNamed_eq d list _ ▸ hq)
      obtain ⟨hindex', hshape'⟩ := namedAt_eq_some hnamed
      have hentry' := List.mem_zipIdx_iff_getElem?.mp hmem
      obtain rfl : p.index = index' := heq.symm.trans hindex'
      obtain rfl : entry = entry' := Option.some.inj (hentry.symm.trans hentry')
      exact Inserted.docs_ne (EntryShape.entry.inj (hshape.symm.trans hshape')).1
    have hx := hconfined.named_options hentry hshape hq hindex
    simp only [hx.decoded, hx.location]

end OptionWritten

namespace Target

variable {id key : String}

theorem written_version (hd : d.Sound) (ht : d.Target list (.version id key) w (.ok ()))
    (t : Tree) : OptionWritten d (d.write w t) list id versionsKey := by
  cases ht with
  | @version _ _ p o properties dangling _ hp hv he hfound =>
    obtain ⟨value, hvalue, -⟩ := Result.ok_of_map hfound
    have ho := issued_of_expr_object he
    have hg := grafted_bind he hvalue .string
    have hkind : ∀ v,
        (d.expr o).SameKind (.object (bind key .string v properties) dangling) :=
      fun v => he ▸ .object ..
    have hconfined : Confined d (d.write ⟨o, .member key .string⟩ t) o := by
      rw [write_member he]
      exact .graft hd .refl ho t hg hkind
    refine ⟨hd, by decide, p, hp, ?_, fun k problem hk => hconfined.option hd hv hk⟩
    rw [write_member he]
    exact .graft hd (Below.refl.step (operand_of_value? hv)) ho t hg hkind

theorem written_onlyInclude (hd : d.Sound) (ht : d.Target list (.onlyInclude id) w (.ok ()))
    (t : Tree) : OptionWritten d (d.write w t) list id onlyIncludeKey := by
  cases ht with
  | onlyInclude hp hfound =>
    obtain ⟨value, hvalue, -⟩ := Result.ok_of_map hfound
    exact .bound hd hp hvalue (by decide) _ t

/-- After a version was written, the versions are found with that version bound. -/
theorem versions_bound (hd : d.Sound) (ht : d.Target list (.version id key) w (.ok ()))
    (t : Tree) : ∃ p p' o properties dangling,
      d.docsPlugin list id = .ok p ∧
      d.value? p.options versionsKey versionsProblem = .ok (some o) ∧
      d.expr o = .object properties dangling ∧
      (∃ value, d.value? o key (versionProblem key) = .ok value) ∧ w = ⟨o, .member key .string⟩ ∧
      (d.write w t).docsPlugin list id = .ok p' ∧
      (d.write w t).value? p'.options versionsKey versionsProblem = .ok (some o) ∧
      (d.write w t).expr o = .object (bind key .string (d.plant t).1 properties) dangling := by
  have hwritten := ht.written_version hd t
  cases ht with
  | @version _ _ p o properties dangling _ hp hv he hfound =>
    obtain ⟨p', hp', hoptions⟩ := hwritten.docsPlugin hp
    have hx := operand_of_value? hv
    have hexpr : (d.write ⟨o, .member key .string⟩ t).expr p.options = d.expr p.options :=
      expr_write_other (index_lt_of_mem_operands hx) (ne_of_operand hd hx .refl) t
    obtain ⟨found, hvalue, -⟩ := Result.ok_of_map hfound
    refine ⟨p, p', o, properties, dangling, hp, hv, he, ⟨found, hvalue⟩, rfl, hp', ?_, ?_⟩
    · have hpath : (d.write ⟨o, .member key .string⟩ t).path = d.path := rfl
      rw [hoptions, value?_congr hpath hexpr, hv]
    · rw [write_member he]
      exact expr_graft (issued_of_expr_object he) t _

/-- Another version of the plugin is found as before. -/
theorem version_other (hd : d.Sound) (ha : d.Target list (.version id key) w (.ok ())) {key' : String}
    (hkey : key' ≠ key) (ht : d.Target list (.version id key') w' found) (t : Tree) :
    (d.write w t).Target list (.version id key') w' found := by
  obtain ⟨p, p', o, properties, dangling, hp, hv, he, -, rfl, hp', hv', he'⟩ :=
    ha.versions_bound hd t
  cases ht with
  | version hq hvq heq hfound =>
    obtain rfl := Except.ok.inj (hp.symm.trans hq)
    obtain rfl := Option.some.inj (Except.ok.inj (hv.symm.trans hvq))
    refine .version hp' hv' he' ?_
    rw [value?_bind hkey he he' rfl, hfound]

/-- What is written to one slot does not change how another one is found. -/
theorem kept (hd : d.Sound) {a : SlotEdit} (ha : d.Target list a.slot w (.ok ()))
    (ht : d.Target list s w' found) (hs : s ≠ a.slot) :
    (d.write w a.tree).Target list s w' found := by
  -- one case for each pair of slots; only two versions of one plugin share a node
  cases a with
  | tutorial index o =>
    obtain ⟨left, gone, right, new, hinserted, hcount⟩ := ha.inserted hd o
    cases s with
    | tutorial j =>
      have hj : j ≠ index := fun hj => hs (congrArg Slot.tutorial hj)
      exact ht.tutorial_kept hcount (hinserted.tutorial_other hj)
    | version id' key' => exact ht.version_kept (hinserted.optionKept id' versionsKey)
    | onlyInclude id' => exact ht.onlyInclude_kept (hinserted.optionKept id' onlyIncludeKey)
  | version id key r =>
    have hwritten := ha.written_version hd r.encode
    cases s with
    | tutorial j => exact ht.tutorial_kept hwritten.pluginCount (hwritten.tutorial j)
    | version id' key' =>
      by_cases hid : id' = id
      · subst hid
        have hkey : key' ≠ key := fun hkey => hs (congrArg (Slot.version id') hkey)
        exact ha.version_other hd hkey ht r.encode
      · exact ht.version_kept (hwritten.optionKept (.inl hid))
    | onlyInclude id' => exact ht.onlyInclude_kept (hwritten.optionKept (.inr (by decide)))
  | onlyInclude id names =>
    have hwritten := ha.written_onlyInclude hd (Value.list (names.map .string)).encode
    cases s with
    | tutorial j => exact ht.tutorial_kept hwritten.pluginCount (hwritten.tutorial j)
    | version id' key' => exact ht.version_kept (hwritten.optionKept (.inr (by decide)))
    | onlyInclude id' =>
      have hid : id' ≠ id := fun hid => hs (congrArg Slot.onlyInclude hid)
      exact ht.onlyInclude_kept (hwritten.optionKept (.inl hid))

end Target

end Document

end SiteConfig
