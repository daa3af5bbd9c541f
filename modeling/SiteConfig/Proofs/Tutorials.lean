import SiteConfig.Proofs.Locality
import SiteConfig.Proofs.Refusal
import SiteConfig.Proofs.Values

/-!
A tutorial that is read and written back keeps every option that a tutorial can carry. Any other
option of the entry is gone.
-/

namespace SiteConfig

namespace TutorialOptions
open Value

/-- The options that a tutorial can carry. -/
def fields : List String :=
  ["title", "description", "preview", "route", "source", "tags"]

/-- What is written for an option that the entry did not have. -/
def defaults : Record :=
  [("description", .string ""), ("tags", .list [])]

variable {r : Record}

theorem stringField_eq_ok {key : String} {found : Option String}
    (h : stringField r key = .ok found) : r.get? key = found.map .string := by
  unfold stringField at h
  split at h <;> simp_all

theorem locationField_eq_ok {key : String} {found : Option Value}
    (h : locationField r key = .ok found) : r.get? key = found := by
  unfold locationField at h
  split at h <;> simp_all

theorem mapM_tag_eq_ok {items : List Value} {tags : List String} (h : items.mapM tag = .ok tags) :
    items = tags.map .string := by
  induction items generalizing tags with
  | nil =>
    cases h
    rfl
  | cons v rest ih =>
    rw [List.mapM_cons] at h
    cases v with
    | string text =>
      obtain ⟨_, htag, h⟩ := Result.ok_of_bind h
      obtain ⟨ts, hrest, h⟩ := Result.ok_of_bind h
      cases htag
      cases h
      rw [ih hrest, List.map_cons]
    | _ => cases h

theorem tagsField_eq_ok {tags : List String} (h : tagsField r = .ok tags) :
    (r.get? "tags").or (some (.list [])) = some (.list (tags.map .string)) := by
  unfold tagsField at h
  split at h
  · rename_i hnone
    cases h
    rw [hnone]
    rfl
  · rename_i items hsome
    rw [hsome, mapM_tag_eq_ok h]
    rfl
  · cases h

theorem get?_append (key : String) (r s : Record) :
    Record.get? key (r ++ s) = (Record.get? key r).or (Record.get? key s) := by
  induction r with
  | nil => rfl
  | cons e rest ih =>
    obtain ⟨k, v⟩ := e
    rw [List.cons_append, Record.get?, Record.get?]
    split
    · rfl
    · exact ih

theorem get?_optionalEntry (key name : String) (v : Option Value) :
    Record.get? key (optionalEntry name v) = if name = key then v else none := by
  cases v with
  | none => exact (ite_self none).symm
  | some v => rfl

theorem ofRecord_eq_ok {o : TutorialOptions} (h : ofRecord r = .ok o) :
    stringField r "title" = .ok (some o.title) ∧ tagsField r = .ok o.tags ∧
    (∃ found, stringField r "description" = .ok found ∧ o.description = found.getD "") ∧
    locationField r "preview" = .ok o.preview ∧ locationField r "route" = .ok o.route ∧
    locationField r "source" = .ok o.source := by
  unfold ofRecord at h
  obtain ⟨found, htitle, h⟩ := Result.ok_of_bind h
  cases found with
  | none => cases h
  | some title =>
    obtain ⟨_, hgiven, h⟩ := Result.ok_of_bind h
    cases hgiven
    obtain ⟨tags, htags, h⟩ := Result.ok_of_bind h
    obtain ⟨description, hdescription, h⟩ := Result.ok_of_bind h
    obtain ⟨preview, hpreview, h⟩ := Result.ok_of_bind h
    obtain ⟨route, hroute, h⟩ := Result.ok_of_bind h
    obtain ⟨source, hsource, h⟩ := Result.ok_of_bind h
    cases h
    exact ⟨htitle, htags, ⟨description, hdescription, rfl⟩, hpreview, hroute, hsource⟩

/-- Writing a tutorial back keeps the options that a tutorial has, fills in the defaults, and
leaves out all else. -/
theorem get?_toRecord {o : TutorialOptions} (h : ofRecord r = .ok o) (key : String) :
    o.toRecord.get? key =
      if key ∈ fields then (r.get? key).or (defaults.get? key) else none := by
  obtain ⟨htitle, htags, ⟨found, hfound, htext⟩, hpreview, hroute, hsource⟩ := ofRecord_eq_ok h
  have hdescription : (r.get? "description").or (some (.string "")) =
      some (.string o.description) := by
    rw [stringField_eq_ok hfound, htext]
    cases found <;> rfl
  simp only [toRecord, get?_append, get?_optionalEntry]
  by_cases hkey : key ∈ fields
  · rw [if_pos hkey]
    simp only [fields, List.mem_cons, List.not_mem_nil, or_false] at hkey
    rcases hkey with rfl | rfl | rfl | rfl | rfl | rfl
    · simp [Record.get?, stringField_eq_ok htitle]
    · simpa [Record.get?, defaults] using hdescription.symm
    · simp [Record.get?, defaults, locationField_eq_ok hpreview]
    · simp [Record.get?, defaults, locationField_eq_ok hroute]
    · simp [Record.get?, defaults, locationField_eq_ok hsource]
    · simpa [Record.get?, defaults] using (tagsField_eq_ok htags).symm
  · rw [if_neg hkey]
    simp only [fields, List.mem_cons, List.not_mem_nil, or_false, not_or] at hkey
    simp [Record.get?, Ne.symm, hkey, eq_comm]

theorem nodup_keys_toRecord (o : TutorialOptions) : (Record.keys o.toRecord).Nodup := by
  rcases o with ⟨title, description, _ | preview, _ | route, _ | source, tags⟩ <;>
    simp [toRecord, optionalEntry, Record.keys]

theorem keyedItems_strings (texts : List String) : KeyedItems (texts.map .string) := by
  induction texts with
  | nil => trivial
  | cons text rest ih => exact ⟨trivial, ih⟩

theorem keyedEntries_of_forall {entries : List (String × Value)} (h : ∀ e ∈ entries, e.2.Keyed) :
    KeyedEntries entries := by
  induction entries with
  | nil => trivial
  | cons e rest ih =>
    exact ⟨h e List.mem_cons_self, ih fun e' he' => h e' (List.mem_cons_of_mem e he')⟩

theorem keyed_of_locationField {key : String} {found : Option Value}
    (h : locationField r key = .ok found) : ∀ v ∈ found, v.Keyed := by
  unfold locationField at h
  split at h
  · cases h
    simp
  · cases h
    simp [Keyed]
  · cases h
    simp [Keyed]
  · cases h

theorem keyed_optionalEntry {key : String} {found : Option Value} (h : ∀ v ∈ found, v.Keyed) :
    ∀ e ∈ optionalEntry key found, e.2.Keyed := by
  cases found with
  | none => simp [optionalEntry]
  | some v => simpa [optionalEntry] using h

theorem keyed_toRecord {o : TutorialOptions} (h : ofRecord r = .ok o) :
    (Value.record o.toRecord).Keyed := by
  obtain ⟨-, -, -, hpreview, hroute, hsource⟩ := ofRecord_eq_ok h
  refine ⟨nodup_keys_toRecord o, keyedEntries_of_forall ?_⟩
  intro e he
  simp only [toRecord, List.mem_append, List.mem_cons, List.not_mem_nil, or_false] at he
  rcases he with ((((rfl | rfl) | he) | he) | he) | rfl
  · trivial
  · trivial
  · exact keyed_optionalEntry (keyed_of_locationField hpreview) e he
  · exact keyed_optionalEntry (keyed_of_locationField hroute) e he
  · exact keyed_optionalEntry (keyed_of_locationField hsource) e he
  · exact keyedItems_strings o.tags

end TutorialOptions

namespace Forest

/-- A node that was there and is now another is not seen from what was planted. -/
theorem Planted.treeWithin_set {f g : Forest} {ids : List NodeId} (p : Planted f g ids)
    {o : NodeId} (ho : o.index < f.size) (e : Expr NodeId) (n : Nat) {x : NodeId}
    (hx : f.size ≤ x.index) : (g.set o e).treeWithin n x = g.treeWithin n x := by
  induction n generalizing x with
  | zero => simp only [treeWithin, position_set]
  | succ n ih =>
    have hne : x ≠ o := by
      intro h
      subst h
      omega
    have hexpr : (g.set o e).expr x = g.expr x := congrArg Node.expr (node_set_ne e hne)
    simp only [treeWithin, position_set, hexpr]
    congr 1
    apply Expr.map_congr
    intro a ha
    exact ih (p.operands x hx a ha).1

end Forest

namespace Document
open Forest

variable {d : Document} {list : NodeId}

theorem tree_graft_fresh {o : NodeId} (ho : d.Issued o) (t : Tree) (e : NodeId → Expr NodeId)
    {x : NodeId} (hx : d.forest.size ≤ x.index) : (d.graft o t e).tree x = (d.plant t).2.tree x := by
  have hsize : (d.graft o t e).forest.size = (d.plant t).2.forest.size := size_set _ o _
  rw [tree, Forest.tree, hsize]
  exact (planted d.forest t).treeWithin_set ho _ _ hx

/-- The nodes of an entry that was planted: its name, and the object that holds its options. -/
theorem plant_entryTree (d : Document) (name : String) (r : Record) :
    ∃ first second : NodeId,
      (d.plant (entryTree name r)).2.expr (d.plant (entryTree name r)).1 =
        .array [{ value := first }, { value := second }] [] ∧
      (d.plant (entryTree name r)).2.expr first = .string name ∧
      (d.plant (entryTree name r)).2.tree second = r.encode ∧
      d.forest.size ≤ first.index ∧ d.forest.size ≤ second.index := by
  -- the name is planted first, the options behind it, the entry over both
  let f := (d.forest.plant (.made (.string name))).2
  let g := (f.plant r.encode).2
  have hfirst : Planted d.forest f [(d.forest.plant (.made (.string name))).1] := planted _ _
  have hsecond : Planted f g [(f.plant r.encode).1] := planted _ _
  have hf : f.size = d.forest.size + 1 := size_add _ _
  have hlt := (hsecond.fresh (f.plant r.encode).1 List.mem_cons_self)
  have hname : f.expr (d.forest.plant (.made (.string name))).1 = .string name :=
    congrArg Node.expr (node_add_new _ _)
  have hextends : (d.plant (entryTree name r)).2.forest.Extends g := fun x hx => node_add_old hx
  refine ⟨(d.forest.plant (.made (.string name))).1, (f.plant r.encode).1,
    congrArg Node.expr (node_add_new _ _), ?_, ?_, Nat.le_refl _, by omega⟩
  · have hissued : (d.forest.plant (.made (.string name))).1.index < f.size := by
      rw [hf]
      exact Nat.lt_succ_self _
    refine Eq.trans ?_ hname
    refine Eq.trans ?_ (hsecond.expr_old hissued)
    exact congrArg Node.expr (node_add_old (Nat.lt_of_lt_of_le hissued hsecond.size_le))
  · refine treeWithin_plant r.encode hextends _ ?_
    have hsize : (d.plant (entryTree name r)).2.forest.size = g.size + 1 := size_add _ _
    change g.size - f.size ≤ _
    omega

theorem mem_pluginsNamed_of_shape {index : Nat} {name : String} {entry options : NodeId}
    (hentry : (d.entries list)[index]? = some entry)
    (hshape : d.entryShape entry = .entry name options) :
    ⟨index, options⟩ ∈ d.pluginsNamed list name := by
  refine List.mem_filterMap.mpr ⟨(entry, index), List.mem_zipIdx_iff_getElem?.mpr hentry, ?_⟩
  simp only [hshape, if_true]

/-- An entry that is grafted has the name and the options it was made of. -/
theorem entryShape_graft (hlist : d.Issued list) (name : String) (r : Record)
    (e : NodeId → Expr NodeId) :
    ∃ options, (d.graft list (entryTree name r) e).entryShape (d.plant (entryTree name r)).1 =
        .entry name options ∧
      (d.graft list (entryTree name r) e).tree options = r.encode := by
  obtain ⟨first, second, hentry, hfirst, hsecond, hle₁, hle₂⟩ := plant_entryTree d name r
  -- the list is an old node, and all nodes of the entry are new
  have hne : first ≠ list := by
    rintro rfl
    exact Nat.lt_irrefl _ (Nat.lt_of_lt_of_le hlist hle₁)
  have harray := (expr_graft_root hlist (entryTree name r) e).trans hentry
  have hname : (d.graft list (entryTree name r) e).expr first = .string name :=
    (expr_set_of_ne _ hne).trans hfirst
  have htree := (tree_graft_fresh hlist (entryTree name r) e hle₂).trans hsecond
  obtain ⟨properties, hoptions⟩ := expr_of_tree_object (congrArg Tree.expr htree)
  refine ⟨second, ?_, htree⟩
  simp only [entryShape, harray, hname, hoptions]

theorem perform_putEntry_of_array {elements : List (Element NodeId)} {dangling : List Comment}
    {index : Nat} (he : d.expr list = .array elements dangling) (hle : index ≤ elements.length)
    (name : String) (r : Record) :
    d.perform (.putEntry list index name r) =
      (.ok (), d.graft list (entryTree name r) fun v =>
        .array (putElement v index elements) dangling) := by
  have hexpr := (Strayed.plant d (entryTree name r)).expr (issued_of_expr_array he)
  have hcount : ¬ d.pluginCount list < index := by
    rw [pluginCount_of_array he]
    omega
  simp only [Change.putEntry, perform_bind, perform_get, hcount, if_false, perform_plant, hexpr, he]
  rfl

/-- An entry that takes the place of another one is read as the record it was written from. -/
theorem entry_graft {elements : List (Element NodeId)} {dangling : List Comment} {index : Nat}
    (he : d.expr list = .array elements dangling) (hlt : index < elements.length) (name : String)
    {r : Record} (hr : (Value.record r).Keyed) :
    ∃ options, ⟨index, options⟩ ∈ (d.graft list (entryTree name r) fun v =>
        .array (putElement v index elements) dangling).pluginsNamed list name ∧
      Record.decode d.path ((d.graft list (entryTree name r) fun v =>
        .array (putElement v index elements) dangling).tree options) = .ok r := by
  have hissued := issued_of_expr_array he
  have hlist := expr_graft hissued (entryTree name r) fun v =>
    .array (putElement v index elements) dangling
  obtain ⟨options, hshape, htree⟩ := entryShape_graft hissued name r fun v =>
    .array (putElement v index elements) dangling
  refine ⟨options, mem_pluginsNamed_of_shape ?_ hshape, ?_⟩
  · -- the place is taken, so the entry is not put behind the last one
    rcases putElement_cases (Nat.le_of_lt hlt) with ⟨before, e, after, -, hlen, hput⟩ | ⟨hlast, -⟩
    · rw [hput] at hlist
      rw [entries, hlist, ← hlen]
      simp
    · omega
  · rw [htree]
    exact Record.decode_encode d.path hr

/-- The entry that a tutorial was read from: all its options could be read. -/
theorem tutorial_source {index : Nat} {o : TutorialOptions} (h : d.tutorial list index = .ok o) :
    ∃ options r, ⟨index, options⟩ ∈ d.pluginsNamed list Tutorial.pluginName ∧
      Record.decode d.path (d.tree options) = .ok r ∧ TutorialOptions.ofRecord r = .ok o := by
  unfold tutorial at h
  split at h
  · cases h
  · rename_i entry hf
    obtain ⟨r, hr, h⟩ := Result.ok_of_bind h
    have hindex : entry.index = index := by simpa using List.find?_some hf
    split at h
    · rename_i options ho
      cases h
      exact ⟨entry.options, r, hindex ▸ List.mem_of_find?_eq_some hf, hr, ho⟩
    · cases h

/-- A tutorial that was read is written back to its place. The entry then has the options that it
had among those of a tutorial, with the defaults of those it did not have, and no other option. -/
theorem setTutorial_keeps_fields {index : Nat} {o : TutorialOptions}
    (h : d.tutorial list index = .ok o) :
    ∃ options r d' options' r',
      ⟨index, options⟩ ∈ d.pluginsNamed list Tutorial.pluginName ∧
      Record.decode d.path (d.tree options) = .ok r ∧
      d.perform (.setTutorial list (some index) o) = (.ok index, d') ∧
      ⟨index, options'⟩ ∈ d'.pluginsNamed list Tutorial.pluginName ∧
      Record.decode d'.path (d'.tree options') = .ok r' ∧
      ∀ key, r'.get? key = if key ∈ TutorialOptions.fields
        then (r.get? key).or (TutorialOptions.defaults.get? key) else none := by
  obtain ⟨options, r, hmem, hr, ho⟩ := tutorial_source h
  obtain ⟨entry, first, second, dangling', hentry, -⟩ := mem_pluginsNamed hmem
  obtain ⟨before, el, after, dangling, he, hlen, -⟩ := split_entries hentry
  have hlt : index < (before ++ el :: after).length := by
    rw [← show before.length = index from hlen]
    simp only [List.length_append, List.length_cons]
    omega
  have hcount := pluginCount_of_array he
  obtain ⟨options', hmem', hr'⟩ := entry_graft he hlt Tutorial.pluginName
    (TutorialOptions.keyed_toRecord ho)
  refine ⟨options, r, _, options', o.toRecord, hmem, hr, ?_, hmem', hr',
    TutorialOptions.get?_toRecord ho⟩
  have hplace : (some index).getD (d.pluginCount list) = index := rfl
  rw [perform_setTutorial_eq d list (some index) o hplace, if_pos (hcount ▸ hlt), h]
  simp only [perform_bind, perform_putEntry_of_array he (Nat.le_of_lt hlt), perform_pure]

/-- A config with one tutorial, whose source is a path and which has an option of no tutorial. -/
def withOrder : Document :=
  withEntry Tutorial.pluginName
    [("order", .string "first"), ("source", .path "./one"), ("title", .string "One")]

theorem setTutorial_keeps_fields_withOrder :
    let o : TutorialOptions := { title := "One", source := some (.path "./one") }
    withOrder.tutorial ⟨4⟩ 0 = .ok o ∧
    ∃ options r d' options' r',
      ⟨0, options⟩ ∈ withOrder.pluginsNamed ⟨4⟩ Tutorial.pluginName ∧
      Record.decode withOrder.path (withOrder.tree options) = .ok r ∧
      withOrder.perform (.setTutorial ⟨4⟩ (some 0) o) = (.ok 0, d') ∧
      ⟨0, options'⟩ ∈ d'.pluginsNamed ⟨4⟩ Tutorial.pluginName ∧
      Record.decode d'.path (d'.tree options') = .ok r' ∧
      r.get? "source" = some (.path "./one") ∧ r'.get? "source" = some (.path "./one") ∧
      r.get? "tags" = none ∧ r'.get? "tags" = some (.list []) := by
  intro o
  have h : withOrder.tutorial ⟨4⟩ 0 = .ok o := rfl
  obtain ⟨options, r, d', options', r', hmem, hr, hp, hmem', hr', hkeys⟩ :=
    setTutorial_keeps_fields h
  have hoptions : options = ⟨13⟩ := by
    have hnamed : withOrder.pluginsNamed ⟨4⟩ Tutorial.pluginName = [⟨0, ⟨13⟩⟩] := rfl
    simpa [hnamed] using hmem
  subst hoptions
  obtain rfl := Except.ok.inj hr
  exact ⟨h, _, _, d', options', r', hmem, rfl, hp, hmem', hr', rfl, hkeys "source", rfl,
    hkeys "tags"⟩

/-- An entry may have an option that the tutorial read from it does not carry. -/
theorem not_setTutorial_keeps_all :
    ¬ ∀ (d d' : Document) (list options options' : NodeId) (index : Nat) (o : TutorialOptions)
      (r r' : Record), d.Reached → d.tutorial list index = .ok o →
      ⟨index, options⟩ ∈ d.pluginsNamed list Tutorial.pluginName →
      Record.decode d.path (d.tree options) = .ok r →
      d.perform (.setTutorial list (some index) o) = (.ok index, d') →
      ⟨index, options'⟩ ∈ d'.pluginsNamed list Tutorial.pluginName →
      Record.decode d'.path (d'.tree options') = .ok r' →
      ∀ key v, r.get? key = some v → r'.get? key = some v := by
  intro h
  generalize ho : ({ title := "One", source := some (.path "./one") } : TutorialOptions) = o
  have hread : withOrder.tutorial ⟨4⟩ 0 = .ok o := ho ▸ rfl
  have hoptions : Record.decode withOrder.path (withOrder.tree ⟨13⟩) =
      .ok [("order", .string "first"), ("source", .path "./one"), ("title", .string "One")] := rfl
  have hp : withOrder.perform (.setTutorial ⟨4⟩ (some 0) o) =
      (.ok 0, (withOrder.perform (.setTutorial ⟨4⟩ (some 0) o)).2) := ho ▸ rfl
  have hnamed : (withOrder.perform (.setTutorial ⟨4⟩ (some 0) o)).2.pluginsNamed ⟨4⟩
      Tutorial.pluginName = [⟨0, ⟨24⟩⟩] := ho ▸ rfl
  have hwritten : Record.decode (withOrder.perform (.setTutorial ⟨4⟩ (some 0) o)).2.path
      ((withOrder.perform (.setTutorial ⟨4⟩ (some 0) o)).2.tree ⟨24⟩) = .ok o.toRecord := ho ▸ rfl
  have hlost := h withOrder _ ⟨4⟩ ⟨13⟩ ⟨24⟩ 0 o _ _ (reached_withEntry _ _) hread List.mem_cons_self
    hoptions hp (hnamed ▸ List.mem_cons_self) hwritten "order" (.string "first") rfl
  subst ho
  cases hlost

end Document

end SiteConfig
