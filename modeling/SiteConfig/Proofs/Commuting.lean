import SiteConfig.Proofs.Targets

/-!
Edits of one slot overwrite each other, and edits of two slots commute. The two orders give other
handles to the nodes that they add, and the same text.
-/

namespace SiteConfig

namespace Document
open Forest

variable {d : Document} {list x y o : NodeId} {s s' : Slot} {w w' : Spot} {t t' : Tree}
  {found found' : Result Unit}

/-- The config has something at the slot. -/
def Has (d : Document) (list : NodeId) : Slot → Prop
  | .tutorial index => index < d.pluginCount list
  | .version id key => ∃ p o q, d.docsPlugin list id = .ok p ∧
      d.value? p.options versionsKey versionsProblem = .ok (some o) ∧ d.property? o key = some q
  | .onlyInclude id => ∃ p q, d.docsPlugin list id = .ok p ∧
      d.property? p.options onlyIncludeKey = some q

theorem object_of_property? {key : String} {q : Property NodeId}
    (h : d.property? x key = some q) : ∃ properties dangling,
      d.expr x = .object properties dangling ∧ ∃ p ∈ properties, p.binds key := by
  cases he : d.expr x with
  | object properties dangling =>
    simp only [property?, he] at h
    exact ⟨properties, dangling, rfl, q, List.mem_of_find?_eq_some h, List.find?_some h⟩
  | _ => simp [property?, he] at h

/-- An edit of a slot that exists has a target, at which something stands. -/
theorem Has.target (h : d.Has list s) :
    ∃ w found, d.Target list s w found ∧ w.place.Held (d.expr w.node) := by
  cases s with
  | tutorial index =>
    obtain ⟨elements, dangling, he, hlt⟩ := array_of_lt_pluginCount h
    exact ⟨_, _, .tutorial h rfl, by simpa only [he, Place.Held] using hlt⟩
  | version id key =>
    obtain ⟨p, o, q, hp, hv, hq⟩ := h
    obtain ⟨properties, dangling, he, hheld⟩ := object_of_property? hq
    exact ⟨_, _, .version hp hv he rfl, by simpa only [he, Place.Held] using hheld⟩
  | onlyInclude id =>
    obtain ⟨p, q, hp, hq⟩ := h
    obtain ⟨properties, dangling, he, hheld⟩ := object_of_property? hq
    exact ⟨_, _, .onlyInclude hp rfl, by simpa only [he, Place.Held] using hheld⟩

/-! The targets of two slots are two places. -/

/-- No plugin has its options in the versions of one. -/
theorem versions_ne_options (hd : d.Sound) {id id' : String} {p q : DocsPlugin}
    (hp : d.docsPlugin list id = .ok p)
    (hv : d.value? p.options versionsKey versionsProblem = .ok (some o))
    (hq : d.docsPlugin list id' = .ok q) : o ≠ q.options := by
  rintro rfl
  obtain ⟨entry, -, hshape⟩ := docsPlugin_shape hq
  obtain ⟨first, second, dangling, he, -, -, hsecond⟩ := entryShape_eq_entry hshape
  have hentry : q.options ∈ (d.expr entry).operands := by simp [he, hsecond, Expr.operands]
  have hsame : p.options = entry := hd.unshared.parent_unique _ _ _ (Nat.zero_le _) (Nat.zero_le _)
    (operand_of_value? hv) hentry
  obtain ⟨properties, dangling', hobject⟩ := docsPlugin_object hp
  rw [hsame, he] at hobject
  cases hobject

/-- Plugins with the same options have the same id. -/
theorem docsPlugin_id_eq {id id' : String} {p q : DocsPlugin} (hp : d.docsPlugin list id = .ok p)
    (hq : d.docsPlugin list id' = .ok q) (h : p.options = q.options) : id = id' :=
  Except.ok.inj ((docsPlugin_id hp).symm.trans (h ▸ docsPlugin_id hq))

theorem Target.apart (hd : d.Sound) (ht : d.Target list s w found)
    (ht' : d.Target list s' w' found') (hs : s ≠ s') (hnode : w.node = w'.node) :
    w.place.Apart w'.place := by
  cases ht with
  | tutorial =>
    cases ht' with
    | tutorial => exact fun hindex => hs (congrArg Slot.tutorial hindex)
    | version => trivial
    | onlyInclude => trivial
  | version hp hv =>
    cases ht' with
    | tutorial => trivial
    | version hq hv' =>
      rintro rfl
      cases hnode
      have hoptions := hd.unshared.parent_unique _ _ _ (Nat.zero_le _) (Nat.zero_le _)
        (operand_of_value? hv) (operand_of_value? hv')
      exact hs (by rw [docsPlugin_id_eq hp hq hoptions])
    | onlyInclude hq => exact absurd hnode (versions_ne_options hd hp hv hq)
  | onlyInclude hp =>
    cases ht' with
    | tutorial => trivial
    | version hq hv => exact absurd hnode.symm (versions_ne_options hd hq hv hp)
    | onlyInclude hq => exact absurd (congrArg Slot.onlyInclude (docsPlugin_id_eq hp hq hnode)) hs

/-! Edits of two slots. -/

section Commuting

variable (hd : d.Sound)

include hd

/-- Two trees are written to two places in either order. -/
theorem write_comm (hw : d.Fits w) (hw' : d.Fits w') (h : (d.write w t).Fits w')
    (h' : (d.write w' t').Fits w) (hheld : w.place.Held (d.expr w.node))
    (hheld' : w'.place.Held (d.expr w'.node))
    (hapart : w.node = w'.node → w.place.Apart w'.place) :
    ((d.write w t).write w' t').render = ((d.write w' t').write w t).render := by
  have hs := (patch_write hd hw t).shown_write h hw'.issued t'
  have hs' := (patch_write hd hw' t').shown_write h' hw.issued t
  refine hs.render_eq hd hs' fun x look _ => Spot.fill_comm hapart ?_ ?_ t t'
  · rintro rfl
    exact (Place.held_map _ _ _).mpr hheld
  · rintro rfl
    exact (Place.held_map _ _ _).mpr hheld'

/-- An edit of another slot answers as it would have before. -/
theorem Target.perform_after {a b : SlotEdit} (hs : a.slot ≠ b.slot)
    (ha : d.Target list a.slot w found) (hb : d.Target list b.slot w' found') :
    (d.perform (a.change list)).2.perform (b.change list) =
      (d.perform (a.change list)).2.checked ((d.perform (a.change list)).2.write w' b.tree)
        found' := by
  rw [ha.perform hd]
  cases found with
  | error e => exact hb.perform hd
  | ok => exact (ha.kept hd hb hs.symm).perform (hd.write ha.fits a.tree)

theorem perform_comm {a b : SlotEdit} (hs : a.slot ≠ b.slot) (ha : d.Has list a.slot)
    (hb : d.Has list b.slot) :
    ((d.perform (a.change list)).2.perform (b.change list)).1 = (d.perform (b.change list)).1 ∧
    ((d.perform (b.change list)).2.perform (a.change list)).1 = (d.perform (a.change list)).1 ∧
    ((d.perform (a.change list)).2.perform (b.change list)).2.render =
      ((d.perform (b.change list)).2.perform (a.change list)).2.render := by
  obtain ⟨w, found, hta, hheld⟩ := ha.target
  obtain ⟨w', found', htb, hheld'⟩ := hb.target
  rw [hta.perform_after hd hs htb, htb.perform_after hd hs.symm hta, hta.perform hd, htb.perform hd]
  cases found with
  | error e => cases found' <;> exact ⟨rfl, rfl, rfl⟩
  | ok =>
    cases found' with
    | error e => exact ⟨rfl, rfl, rfl⟩
    | ok =>
      exact ⟨rfl, rfl, write_comm hd hta.fits htb.fits (hta.kept hd htb hs.symm).fits
        (htb.kept hd hta hs).fits hheld hheld' (hta.apart hd htb hs)⟩

end Commuting

/-! Edits of one slot. -/

section Overwriting

variable (hd : d.Sound)

include hd

/-- A slot that was written is found again. -/
theorem Target.again {a : SlotEdit} (ha : d.Target list a.slot w (.ok ()))
    (hwell : ∀ index o, a = .tutorial index o → o.Located) :
    (d.write w a.tree).Target list a.slot w (.ok ()) := by
  cases a with
  | tutorial index o =>
    change (d.write w (entryTree Tutorial.pluginName o.toRecord)).Target list (.tutorial index) w
      (.ok ())
    obtain ⟨-, -, -, -, -, hcount⟩ := ha.inserted hd o
    cases ha with
    | tutorial h hfound =>
      obtain ⟨elements, dangling, he, hlt⟩ := array_of_lt_pluginCount h
      obtain ⟨left, gone, right, new, hplaced⟩ := placed_graft hd he (Nat.le_of_lt hlt)
        (fun _ => (Result.ok_of_map hfound).imp fun _ => And.left) (hwell index o rfl)
      rw [← write_element he] at hplaced
      -- what was written is a tutorial, so its place can be written again
      refine .tutorial (Nat.lt_of_lt_of_eq h hcount.symm) ?_
      rw [hplaced.tutorial]
      rfl
  | version id key r =>
    change (d.write w r.encode).Target list (.version id key) w (.ok ())
    obtain ⟨p, p', o, properties, dangling, -, -, he, ⟨value, hvalue⟩, rfl, hp', hv', he'⟩ :=
      ha.versions_bound hd r.encode
    refine .version hp' hv' he' ?_
    rw [value?_bind_self he hvalue he']
    rfl
  | onlyInclude id names =>
    have hwritten := ha.written_onlyInclude hd (SlotEdit.onlyInclude id names).tree
    cases ha with
    | onlyInclude hp hfound =>
      obtain ⟨value, hvalue, -⟩ := Result.ok_of_map hfound
      obtain ⟨properties, dangling, he⟩ := docsPlugin_object hp
      obtain ⟨p', hp', hoptions⟩ := hwritten.docsPlugin hp
      rw [← hoptions] at he hvalue hp' ⊢
      refine .onlyInclude hp' ?_
      rw [write_member he, value?_bind_self he hvalue (expr_graft (issued_of_expr_object he) _ _)]
      rfl

/-- The edit that comes second is the one that is seen. -/
theorem Target.overwritten {a b : SlotEdit} (hslot : a.slot = b.slot)
    (ha : d.Target list b.slot w (.ok ()))
    (hwell : ∀ index o, a = .tutorial index o → o.Located) :
    ((d.perform (a.change list)).2.perform (b.change list)).1 = .ok () ∧
    (d.perform (b.change list)).1 = .ok () ∧
    ((d.perform (a.change list)).2.perform (b.change list)).2.render =
      (d.perform (b.change list)).2.render := by
  have ha' : d.Target list a.slot w (.ok ()) := hslot ▸ ha
  have hagain : (d.write w a.tree).Target list b.slot w (.ok ()) := hslot ▸ ha'.again hd hwell
  have hp := patch_write hd ha.fits a.tree
  have hp' := patch_write hd ha.fits b.tree
  have hsecond := hagain.perform hp.sound
  have halone := ha.perform hd
  rw [ha'.perform hd]
  refine ⟨congrArg Prod.fst hsecond, congrArg Prod.fst halone, ?_⟩
  rw [halone]
  refine (congrArg (·.2.render) hsecond).trans ?_
  exact (hp.shown_again hagain.fits ha.overwrites b.tree).render_eq hd hp'.shown_fill
    fun _ _ _ => rfl

omit hd in
theorem perform_versions_first {properties : List (Property NodeId)} {dangling : List Comment}
    (he : d.expr x = .object properties dangling)
    (hv : d.value? x versionsKey versionsProblem = .ok none) :
    d.perform (.versions x) =
      (.ok (d.plant (.made (.object [] []))).1, d.withVersions x properties dangling) := by
  have hexpr := (Strayed.plant d (.made (.object [] []))).expr (issued_of_expr_object he)
  simp only [Change.versions, perform_bind, perform_ask, hv, perform_plant, perform_get, hexpr, he,
    perform_modify, perform_pure, appendProperty, withVersions, Document.graft]

/-- The first version of a plugin is written as if the plugin had had versions before, but none of
them. -/
theorem perform_setVersion_first {id : String} {p : DocsPlugin} (hp : d.docsPlugin list id = .ok p)
    (hv : d.value? p.options versionsKey versionsProblem = .ok none) (key : String) :
    ∃ (d₀ : Document) (w : Spot), d₀.Sound ∧ d₀.Target list (.version id key) w (.ok ()) ∧
      ∀ r, d.perform (.setVersion list id key r) = d₀.perform (.setVersion list id key r) := by
  obtain ⟨properties, dangling, he⟩ := docsPlugin_object hp
  have hx := issued_of_expr_object he
  have hfirst := perform_versions_first he hv
  have hnew := expr_withVersions hx properties dangling
  have hnone := value?_withVersions hx properties dangling key (versionProblem key)
  have hwrite : d.withVersions p.options properties dangling =
      d.write ⟨p.options, .member versionsKey (PropertyKey.forName versionsKey).form⟩
        (.made (.object [] [])) := by
    rw [withVersions_eq_graft he hv, write_member he]
  have hexpr : (d.withVersions p.options properties dangling).expr p.options =
      .object (bind versionsKey (PropertyKey.forName versionsKey).form
        (d.plant (.made (.object [] []))).1 properties) dangling := by
    rw [hwrite, write_member he]
    exact expr_graft hx _ _
  have hwritten : OptionWritten d (d.withVersions p.options properties dangling) list id
      versionsKey := hwrite ▸ .bound hd hp hv (by decide) _ _
  have hsound : (d.withVersions p.options properties dangling).Sound :=
    hwrite ▸ hd.write (fits_member he hv _) _
  -- `d₀` is the config in which the empty object is bound: both edits pass through it
  generalize (d.plant (.made (.object [] []))).1 = o at *
  generalize d.withVersions p.options properties dangling = d₀ at *
  obtain ⟨p', hp', hoptions⟩ := hwritten.docsPlugin hp
  have hbound : d₀.value? p'.options versionsKey versionsProblem = .ok (some o) :=
    hoptions ▸ value?_bind_self he hv hexpr _
  refine ⟨d₀, ⟨o, .member key .string⟩, hsound, .version hp' hbound hnew (by rw [hnone]; rfl),
    fun r => ?_⟩
  have hsecond : d₀.perform (.versions p'.options) = (.ok o, d₀) := by
    simp only [Change.versions, perform_bind, perform_ask, hbound, perform_get, hnew, perform_pure]
  simp only [Change.setVersion, Change.putVersion, perform_bind, perform_ask, hp, hp', hfirst,
    hsecond]

omit hd in
theorem checked_fst (d d' : Document) (found : Result Unit) : (d.checked d' found).1 = found := by
  cases found <;> rfl

/-- An edit that is made has a target, or it writes the first version of a plugin. -/
theorem target_of_perform_eq_ok {a : SlotEdit} (hok : (d.perform (a.change list)).1 = .ok ())
    (hplace : ∀ index o, a = .tutorial index o → index < d.pluginCount list) :
    (∃ w, d.Target list a.slot w (.ok ())) ∨
      ∃ id key p, a.slot = .version id key ∧ d.docsPlugin list id = .ok p ∧
        d.value? p.options versionsKey versionsProblem = .ok none := by
  -- an edit that was made found all that it had to look at
  have hfound : ∀ {w found}, d.Target list a.slot w found → d.Target list a.slot w (.ok ()) := by
    intro w found ht
    rw [ht.perform hd, checked_fst] at hok
    exact hok ▸ ht
  cases a with
  | tutorial index o => exact .inl ⟨_, hfound (.tutorial (hplace index o rfl) rfl)⟩
  | version id key r =>
    simp only [SlotEdit.change] at hok
    rcases perform_setVersion d list id key r with ⟨e, d', hp, -⟩ | ⟨p, hp, hq⟩
    · rw [hp] at hok
      cases hok
    rw [hq] at hok
    rcases perform_putVersion hd (issued_of_docsPlugin hd hp) key r with
      ⟨e, d', hput, -⟩ | ⟨d', hput, -⟩
    · rw [hput] at hok
      cases hok
    rcases hput with ⟨o, properties, dangling, value, hv, he, -, -⟩ | ⟨-, -, -, hv, -⟩
    · exact .inl ⟨_, hfound (.version hp hv he rfl)⟩
    · exact .inr ⟨id, key, p, rfl, hp, hv⟩
  | onlyInclude id names =>
    simp only [SlotEdit.change] at hok
    rcases perform_setOnlyInclude d list id names with ⟨e, d', hp, -⟩ | ⟨p, hp, -⟩
    · rw [hp] at hok
      cases hok
    · exact .inl ⟨_, hfound (.onlyInclude hp rfl)⟩

/-- An edit that is made and then made with other content leaves what the second one leaves. -/
theorem perform_overwrite {a b : SlotEdit} (hslot : a.slot = b.slot)
    (hwell : ∀ index o, a = .tutorial index o → index < d.pluginCount list ∧ o.Located)
    (hok : (d.perform (a.change list)).1 = .ok ()) :
    ((d.perform (a.change list)).2.perform (b.change list)).1 = .ok () ∧
    (d.perform (b.change list)).1 = .ok () ∧
    ((d.perform (a.change list)).2.perform (b.change list)).2.render =
      (d.perform (b.change list)).2.render := by
  have hlocated : ∀ index o, a = .tutorial index o → o.Located := fun i o h => (hwell i o h).2
  rcases target_of_perform_eq_ok hd hok fun i o h => (hwell i o h).1 with
    ⟨w, ht⟩ | ⟨id, key, p, hversion, hp, hv⟩
  · exact Target.overwritten hd hslot (hslot ▸ ht) hlocated
  · obtain ⟨d₀, w, hsound, ht, hsame⟩ := perform_setVersion_first hd hp hv key
    have hperform : ∀ c : SlotEdit, c.slot = .version id key →
        d.perform (c.change list) = d₀.perform (c.change list) := by
      intro c hc
      cases c <;> cases hc
      exact hsame _
    have hb : b.slot = .version id key := hslot ▸ hversion
    rw [hperform a hversion, hperform b hb]
    exact Target.overwritten hsound hslot (hb ▸ ht) hlocated

end Overwriting

end Document

namespace Editor
open Document

/-- The answer of an edit of a session, and the session behind it. -/
def edit (e : Editor) : SlotEdit → Result Unit × Editor
  | .tutorial index o => ((e.setTutorial (some index) o).1.map fun _ => (),
      (e.setTutorial (some index) o).2)
  | .version id key r => e.setVersion id key r
  | .onlyInclude id names => e.setOnlyInclude id names

theorem edit_eq (e : Editor) (a : SlotEdit) :
    e.edit a = ((e.document.perform (a.change e.plugins)).1,
      { e with document := (e.document.perform (a.change e.plugins)).2 }) := by
  cases a with
  | tutorial index o =>
    rw [SlotEdit.change, perform_map]
    rfl
  | version | onlyInclude => rfl

theorem Reached.edit {e : Editor} (h : e.Reached) (a : SlotEdit) : (e.edit a).2.Reached := by
  cases a with
  | tutorial index o => exact .setTutorial h (some index) o
  | version id key r => exact .setVersion h id key r
  | onlyInclude id names => exact .setOnlyInclude h id names

/-- What becomes of two edits that are made one after the other in a session. -/
structure EditsCompose (e : Editor) : Prop where
  /-- Of two edits of one slot the second is the one that is seen. The slot of a tutorial has to be
  there, and the first tutorial has to be one that can be read. -/
  overwritten : ∀ a b, a.slot = b.slot →
    (∀ index o, a = .tutorial index o → index < e.pluginCount ∧ o.Located) →
    (e.edit a).1 = .ok () →
    ((e.edit a).2.edit b).1 = .ok () ∧ (e.edit b).1 = .ok () ∧
      ((e.edit a).2.edit b).2.render = (e.edit b).2.render
  /-- Two edits of slots that are there answer alike and leave the same text in either order. -/
  commuted : ∀ a b, a.slot ≠ b.slot → e.document.Has e.plugins a.slot →
    e.document.Has e.plugins b.slot →
    ((e.edit a).2.edit b).1 = (e.edit b).1 ∧ ((e.edit b).2.edit a).1 = (e.edit a).1 ∧
      ((e.edit a).2.edit b).2.render = ((e.edit b).2.edit a).2.render

/-- In every session that a run of edits leads to, the later of two edits of one slot stays, and
edits of two slots commute. -/
theorem editsCompose_of_reached {e : Editor} (h : e.Reached) : e.EditsCompose where
  overwritten a b hslot hwell hok := by
    simp only [edit_eq] at hok ⊢
    exact perform_overwrite h.settled.sound hslot hwell hok
  commuted a b hslot ha hb := by
    simp only [edit_eq]
    exact perform_comm h.settled.sound hslot ha hb

/-- The session with a version and with versions to include. -/
def versionedEditor : Editor :=
  ((docsEditor.edit (.version "<default>" "next" [("label", .string "Next")])).2.edit
    (.onlyInclude "<default>" [])).2

theorem has_versionedEditor :
    versionedEditor.document.Has versionedEditor.plugins (.version "<default>" "next") ∧
      versionedEditor.document.Has versionedEditor.plugins (.onlyInclude "<default>") :=
  ⟨⟨_, _, _, rfl, rfl, rfl⟩, _, _, rfl, rfl⟩

/-- The first version of a plugin is written over. Where there are versions and versions to include,
both are written again in either order. -/
theorem editsCompose_of_reached_versionedEditor :
    let first := docsEditor.edit (.version "<default>" "next" [("label", .string "Next")])
    let next := SlotEdit.version "<default>" "next" [("label", .string "Then")]
    let only := SlotEdit.onlyInclude "<default>" ["next"]
    (first.2.edit next).2.render = (docsEditor.edit next).2.render ∧
      (versionedEditor.edit next).1 = .ok () ∧ (versionedEditor.edit only).1 = .ok () ∧
      ((versionedEditor.edit next).2.edit only).2.render =
        ((versionedEditor.edit only).2.edit next).2.render := by
  intro first next only
  have hreached : versionedEditor.Reached := (reached_docsEditor.edit _).edit _
  obtain ⟨hnext, honly⟩ := has_versionedEditor
  obtain ⟨-, -, hagain⟩ := (editsCompose_of_reached reached_docsEditor).overwritten
    (.version "<default>" "next" [("label", .string "Next")]) next rfl
    (fun _ _ h => SlotEdit.noConfusion h) rfl
  obtain ⟨-, -, horder⟩ := (editsCompose_of_reached hreached).commuted next only
    (fun h => Slot.noConfusion h) hnext honly
  exact ⟨hagain, rfl, rfl, horder⟩

end Editor

end SiteConfig
