import SiteConfig.Proofs.Handles

/-!
A change below the options of one plugin. The list still has the same plugins in the same places,
every other entry is as it was, and so is every other option of the plugin.
-/

namespace SiteConfig

theorem Property.name?_withValue {α : Type} (p : Property α) (value : α) :
    (p.withValue value).name? = p.name? := by
  rcases hb : p.body with ⟨k, old⟩ | ⟨shape, text⟩ <;> simp [withValue, name?, hb]

namespace Document
open Forest

variable {d d' d'' : Document} {list o x y : NodeId}

theorem value?_congr (hpath : d'.path = d.path) (he : d'.expr x = d.expr x) (key problem : String) :
    d'.value? x key problem = d.value? x key problem := by
  simp only [value?, property?, he, locationAt, hpath]

theorem find?_bind {key k : String} (hk : k ≠ key) (form : KeyForm) (v : NodeId)
    (properties : List (Property NodeId)) :
    (bind key form v properties).find? (·.binds k) = properties.find? (·.binds k) := by
  induction properties with
  | nil => simp [bind, Property.ofKey, Property.binds, Property.name?, Ne.symm hk]
  | cons p rest ih =>
    rw [bind]
    split
    · rename_i hb
      have hname : p.name? = some key := by simpa [Property.binds] using hb
      have hold : ¬ p.binds k := by simp [Property.binds, hname, Ne.symm hk]
      have hnew : ¬ (p.withValue v).binds k := by
        simp [Property.binds, Property.name?_withValue, hname, Ne.symm hk]
      rw [List.find?_cons_of_neg hnew, List.find?_cons_of_neg hold]
    · by_cases hb : p.binds k
      · rw [List.find?_cons_of_pos hb, List.find?_cons_of_pos hb]
      · rw [List.find?_cons_of_neg hb, List.find?_cons_of_neg hb, ih]

/-- To bind one key is not to bind another. -/
theorem value?_bind {key k : String} {properties : List (Property NodeId)}
    {dangling : List Comment} {form : KeyForm} {v : NodeId} (hk : k ≠ key)
    (he : d.expr x = .object properties dangling)
    (he' : d'.expr x = .object (bind key form v properties) dangling) (hpath : d'.path = d.path)
    (problem : String) :
    d'.value? x k problem = d.value? x k problem := by
  rw [value?_of_object he, value?_of_object he', find?_bind hk]
  simp only [locationAt, hpath]

theorem bind_eq_replaced {before after : List (Property NodeId)} {p : Property NodeId}
    {k : PropertyKey} {key : String} {form : KeyForm} (hbefore : ∀ q ∈ before, ¬ q.binds key)
    (hp : p.body = .assignment k o) (hk : k.name = key) (v : NodeId) :
    bind key form v (before ++ p :: after) =
      before ++ { p with body := .assignment k v } :: after := by
  induction before with
  | nil =>
    have hb : p.binds key := by simp [Property.binds, Property.name?, hp, hk]
    rw [List.nil_append, bind, if_pos hb]
    simp [Property.withValue, hp]
  | cons q rest ih =>
    rw [List.cons_append, bind, if_neg (hbefore q List.mem_cons_self),
      ih fun q' hq' => hbefore q' (List.mem_cons_of_mem q hq')]
    rfl

/-- A key that is bound has the value that it is bound to. -/
theorem value?_bind_self {key problem : String} {properties : List (Property NodeId)}
    {dangling : List Comment} {found : Option NodeId} {form : KeyForm} {v : NodeId}
    (he : d.expr x = .object properties dangling) (hv : d.value? x key problem = .ok found)
    (he' : d'.expr x = .object (bind key form v properties) dangling) (problem' : String) :
    d'.value? x key problem' = .ok (some v) := by
  cases found with
  | none =>
    rw [congrFun (bind_of_value?_none he hv form) v] at he'
    exact value?_eq_some_iff.mpr
      ⟨properties, _, [], _, dangling, he', not_binds_of_value?_none he hv, rfl, rfl⟩
  | some old =>
    obtain ⟨before, p, after, k, dangling', hx, hbefore, hp, hk⟩ := value?_eq_some_iff.mp hv
    obtain ⟨rfl, rfl⟩ := Expr.object.inj (he.symm.trans hx)
    rw [bind_eq_replaced hbefore hp hk] at he'
    exact value?_eq_some_iff.mpr ⟨before, _, after, k, dangling, he', hbefore, rfl, hk⟩

theorem eq_of_nodup_filterMap {α β : Type} {f : α → Option β} {as : List α}
    (h : (as.filterMap f).Nodup) {a b : α} {c : β} (ha : a ∈ as) (hb : b ∈ as)
    (hac : f a = some c) (hbc : f b = some c) : a = b := by
  induction as with
  | nil => cases ha
  | cons e rest ih =>
    have hmem : ∀ a' ∈ rest, f a' = some c → c ∈ rest.filterMap f :=
      fun a' ha' hc => List.mem_filterMap.mpr ⟨a', ha', hc⟩
    rcases List.mem_cons.mp ha with rfl | ha' <;> rcases List.mem_cons.mp hb with rfl | hb'
    · rfl
    · rw [List.filterMap_cons_some hac] at h
      exact absurd (hmem b hb' hbc) (List.nodup_cons.mp h).1
    · rw [List.filterMap_cons_some hbc] at h
      exact absurd (hmem a ha' hac) (List.nodup_cons.mp h).1
    · refine ih (h.sublist ?_) ha' hb'
      exact (List.sublist_cons_self e rest).filterMap f

/-- Two keys do not give the same node. -/
theorem key_of_value? (hd : d.Sound) {key key' problem problem' : String}
    (h : d.value? x key problem = .ok (some y)) (h' : d.value? x key' problem' = .ok (some y)) :
    key = key' := by
  obtain ⟨before, p, after, k, dangling, he, -, hp, rfl⟩ := value?_eq_some_iff.mp h
  obtain ⟨before', p', after', k', dangling', he', -, hp', rfl⟩ := value?_eq_some_iff.mp h'
  have hnodup : ((before ++ p :: after).filterMap (·.value?)).Nodup := by
    have := hd.unshared.operands_nodup x (Nat.zero_le _)
    change (d.expr x).operands.Nodup at this
    rwa [he] at this
  have hmem : p' ∈ before ++ p :: after := by
    obtain ⟨hsame, -⟩ := Expr.object.inj (he.symm.trans he')
    simp [hsame]
  have heq : p = p' := eq_of_nodup_filterMap hnodup (by simp) hmem
    (c := y) (by simp [Property.value?, hp]) (by simp [Property.value?, hp'])
  rw [heq, hp'] at hp
  exact (congrArg PropertyKey.name (PropertyBody.assignment.inj hp).1).symm

/-- `d'` is `d` with changes at `o` or below it. -/
structure Confined (d d' : Document) (o : NodeId) : Prop where
  sound : d'.Sound
  reshaped : Reshaped d d'
  above : ∀ x y, y ∈ (d.expr x).operands → d.forest.Below y o → d'.expr x = d.expr x
  beside : ∀ x y s before after, (d.expr x).operands = before ++ y :: after → d.forest.Below y o →
    s ∈ before ++ after → Unaltered d d' s

namespace Confined

theorem graft (hd : d.Sound) {v : NodeId} (hov : d.forest.Below o v) (hv : d.Issued v) (t : Tree)
    {e : NodeId → Expr NodeId} (hg : ∀ w, Grafted (d.expr v).operands (e w).operands w)
    (hkind : ∀ w, (d.expr v).SameKind (e w)) : Confined d (d.graft v t e) o where
  sound := hd.graft hv t hg
  reshaped := .graft hv t hkind
  above x y hy hyo :=
    expr_graft_ne (index_lt_of_mem_operands hy) (ne_of_operand hd hy (hyo.trans hov)) t e
  beside x y s before after hx hyo hs := by
    have hmem : s ∈ (d.expr x).operands := by
      rw [hx]
      simp only [List.mem_append, List.mem_cons] at hs ⊢
      tauto
    exact .graft hd hv hg (hd.operand_lt hmem)
      (hd.unshared.not_below_sibling hd.acyclic hx hs (hyo.trans hov))

theorem below (h : Confined d d' o) (hxy : d.forest.Below x y) (hyo : d.forest.Below y o) :
    d'.forest.Below x y := by
  induction hxy with
  | refl => exact .refl
  | @step y z _ hz ih =>
    refine .step (ih (hyo.head hz)) ?_
    change z ∈ (d'.expr y).operands
    rwa [h.above y z hz hyo]

theorem trans (h : Confined d d' o) (h' : Confined d' d'' o) : Confined d d'' o where
  sound := h'.sound
  reshaped := h.reshaped.trans h'.reshaped
  above x y hy hyo := by
    have he := h.above x y hy hyo
    exact (h'.above x y (he ▸ hy) (h.below hyo .refl)).trans he
  beside x y s before after hx hyo hs := by
    have hy : y ∈ (d.expr x).operands := by simp [hx]
    have he := h.above x y hy hyo
    exact (h.beside x y s before after hx hyo hs).trans
      (h'.beside x y s before after (he ▸ hx) (h.below hyo .refl) hs)

/-- Another option of the object that holds `o` is as it was. -/
theorem option (h : Confined d d' o) (hd : d.Sound) {key k problem problem' : String}
    (ho : d.value? x key problem = .ok (some o)) (hk : k ≠ key) :
    SameOption d d' x k problem' where
  found := value?_congr h.reshaped.path (h.above x o (operand_of_value? ho) .refl) k problem'
  unaltered y hy := by
    have hne : y ≠ o := fun heq => hk (key_of_value? hd (heq ▸ hy) ho)
    obtain ⟨before, after, hx⟩ := List.append_of_mem (operand_of_value? ho)
    refine h.beside x o y before after hx .refl ?_
    have hmem := operand_of_value? hy
    rw [hx, List.mem_append, List.mem_cons] at hmem
    rw [List.mem_append]
    exact hmem.imp_right fun hmem => hmem.resolve_left hne

end Confined

/-- Another option of an object in which a key is bound is as it was. -/
theorem option_bind (hd : d.Sound) {properties : List (Property NodeId)} {dangling : List Comment}
    {key k problem problem' : String} {found : Option NodeId}
    (he : d.expr x = .object properties dangling) (hv : d.value? x key problem = .ok found)
    (form : KeyForm) (t : Tree) (hk : k ≠ key) :
    SameOption d (d.graft x t fun v => .object (bind key form v properties) dangling) x k
      problem' where
  found := by
    have he' := expr_graft (issued_of_expr_object he) t fun v =>
      .object (bind key form v properties) dangling
    exact value?_bind hk he he' rfl problem'
  unaltered y hy := .graft_operand hd (issued_of_expr_object he)
    (fun v => grafted_bind he hv form v) (operand_of_value? hy)

/-! Changes to the options of one entry of a list. -/

theorem pairwise_pluginsNamed (d : Document) (list : NodeId) (name : String) :
    (d.pluginsNamed list name).Pairwise (·.index < ·.index) := by
  rw [pluginsNamed_eq]
  refine List.Pairwise.filterMap (R := fun a b : NodeId × Nat => a.2 < b.2) _ ?_ ?_
  · intro a b hab p hp q hq
    rw [(namedAt_eq_some hp).1, (namedAt_eq_some hq).1]
    exact hab
  · rw [← List.pairwise_map (f := Prod.snd) (R := (· < ·)), List.zipIdx_map_snd]
    exact List.pairwise_lt_range'

/-- Besides an entry, no entry of its name stands at its place. -/
theorem index_ne_of_pluginsNamed {name : String} {left right : List PluginEntry} {e q : PluginEntry}
    (h : d.pluginsNamed list name = left ++ e :: right) (hq : q ∈ left ++ right) :
    q.index ≠ e.index := by
  have hpairwise := pairwise_pluginsNamed d list name
  rw [h, List.pairwise_append, List.pairwise_cons] at hpairwise
  obtain ⟨-, ⟨hright, -⟩, hleft⟩ := hpairwise
  rcases List.mem_append.mp hq with hq | hq
  · exact Nat.ne_of_lt (hleft q hq e List.mem_cons_self)
  · exact Nat.ne_of_gt (hright q hq)

namespace Confined

variable {i j : Nat} {entry s : NodeId} {name : String}

theorem expr_list (h : Confined d d' o) (hentry : (d.entries list)[i]? = some entry)
    (hshape : d.entryShape entry = .entry name o) :
    d'.expr list = d.expr list ∧ d'.expr entry = d.expr entry := by
  obtain ⟨first, second, dangling, he, -, -, rfl⟩ := entryShape_eq_entry hshape
  have hoptions : second.value ∈ (d.expr entry).operands := by simp [he, Expr.operands]
  exact ⟨h.above list entry (operand_of_entries hentry) (Below.refl.step hoptions),
    h.above entry second.value hoptions .refl⟩

theorem entry_other (h : Confined d d' o) (hentry : (d.entries list)[i]? = some entry)
    (hshape : d.entryShape entry = .entry name o) (hs : (d.entries list)[j]? = some s)
    (hj : j ≠ i) : Unaltered d d' s := by
  obtain ⟨first, second, dangling', he', -, -, rfl⟩ := entryShape_eq_entry hshape
  obtain ⟨before, el, after, dangling, he, rfl, rfl⟩ := split_entries hentry
  have hoptions : second.value ∈ (d.expr el.value).operands := by simp [he', Expr.operands]
  refine h.beside list el.value s (before.map (·.value)) (after.map (·.value))
    (by simp [he, Expr.operands]) (Below.refl.step hoptions) ?_
  have hentries : d.entries list = before.map (·.value) ++ el.value :: after.map (·.value) := by
    simp [entries, he]
  rw [hentries] at hs
  rcases Nat.lt_or_gt_of_ne hj with hlt | hgt
  · rw [List.getElem?_append_left (by simpa using hlt)] at hs
    exact List.mem_append_left _ (List.mem_of_getElem? hs)
  · obtain ⟨k, rfl⟩ : ∃ k, j = before.length + 1 + k := ⟨j - (before.length + 1), by omega⟩
    rw [List.getElem?_append_right (by simp; omega), List.length_map,
      show before.length + 1 + k - before.length = k + 1 by omega, List.getElem?_cons_succ] at hs
    exact List.mem_append_right _ (List.mem_of_getElem? hs)

/-- The list has the same plugins in the same places. -/
theorem named (h : Confined d d' o) (hd : d.Sound) (hentry : (d.entries list)[i]? = some entry)
    (hshape : d.entryShape entry = .entry name o) (n : String) :
    d'.pluginsNamed list n = d.pluginsNamed list n := by
  obtain ⟨hlist, he⟩ := h.expr_list hentry hshape
  have hentries : d'.entries list = d.entries list := by simp only [entries, hlist]
  rw [pluginsNamed_eq, pluginsNamed_eq, hentries]
  refine List.filterMap_congr fun e hmem => ?_
  have hmem := List.mem_zipIdx_iff_getElem?.mp (show (e.1, e.2) ∈ _ from hmem)
  by_cases hi : e.2 = i
  · obtain rfl : entry = e.1 := Option.some.inj (hentry.symm.trans (hi ▸ hmem))
    simp only [namedAt, h.reshaped.entryShape hd he]
  · exact (h.entry_other hentry hshape hmem hi).namedAt

/-- The options of another plugin are as they were. -/
theorem named_options (h : Confined d d' o) (hentry : (d.entries list)[i]? = some entry)
    (hshape : d.entryShape entry = .entry name o) {n : String} {p : PluginEntry}
    (hp : p ∈ d.pluginsNamed list n) (hi : p.index ≠ i) : Unaltered d d' p.options := by
  obtain ⟨⟨s, j⟩, hmem, hnamed⟩ := List.mem_filterMap.mp (pluginsNamed_eq d list n ▸ hp)
  obtain ⟨hindex, hshape'⟩ := namedAt_eq_some hnamed
  have hs := List.mem_zipIdx_iff_getElem?.mp hmem
  exact (h.entry_other hentry hshape hs (hindex ▸ hi)).entry_options hshape'

end Confined

/-- The tree of a list in which the options of the entry at one place are replaced. -/
inductive OptionsReplaced (place : Nat) (old new : Tree) : Tree → Tree → Prop where
  | intro (left right : List (Element Tree)) (first : Element Tree)
      (listPosition entryPosition : Option Position) (entryTrivia trivia : Trivia)
      (dangling dangling' : List Comment) (h : left.length = place) :
    OptionsReplaced place old new
      (.node listPosition (.array (left ++ ⟨.node entryPosition
        (.array [first, ⟨old, trivia⟩] dangling'), entryTrivia⟩ :: right) dangling))
      (.node listPosition (.array (left ++ ⟨.node entryPosition
        (.array [first, ⟨new, trivia⟩] dangling'), entryTrivia⟩ :: right) dangling))

theorem Confined.optionsReplaced (h : Confined d d' o) (hd : d.Sound) {i : Nat} {entry : NodeId}
    {name : String} (hentry : (d.entries list)[i]? = some entry)
    (hshape : d.entryShape entry = .entry name o) :
    OptionsReplaced i (d.tree o) (d'.tree o) (d.tree list) (d'.tree list) := by
  obtain ⟨hlist', hentry'⟩ := h.expr_list hentry hshape
  obtain ⟨first, second, dangling', he', -, -, rfl⟩ := entryShape_eq_entry hshape
  obtain ⟨before, el, after, dangling, he, rfl, rfl⟩ := split_entries hentry
  have hoptions : second.value ∈ (d.expr el.value).operands := by simp [he', Expr.operands]
  have hops : (d.expr list).operands =
      before.map (·.value) ++ el.value :: after.map (·.value) := by simp [he, Expr.operands]
  have hside : ∀ s ∈ before.map (·.value) ++ after.map (·.value), d'.tree s = d.tree s :=
    fun s hs => (h.beside list el.value s _ _ hops (Below.refl.step hoptions) hs).tree
  have hfirst : d'.tree first.value = d.tree first.value :=
    (h.beside el.value second.value first.value [first.value] []
      (by simp [he', Expr.operands]) .refl (by simp)).tree
  have hissued : ∀ x y, y ∈ (d.expr x).operands → d.Issued x := fun x y hy =>
    index_lt_of_mem_operands hy
  have hlistPosition := h.reshaped.position list (hissued list el.value (by simp [hops]))
  have hentryPosition := h.reshaped.position el.value (hissued el.value second.value hoptions)
  -- list and entry are taken apart; of their elements only the options are not as they were
  rw [tree_of_expr hd list, tree_of_expr h.sound list, hlist', hlistPosition, he, map_array,
    map_array, List.map_append, List.map_append, List.map_cons, List.map_cons,
    elements_congr fun s hs => hside s (List.mem_append_left _ hs),
    elements_congr fun s hs => hside s (List.mem_append_right _ hs), elementTree, elementTree,
    tree_of_expr hd el.value, tree_of_expr h.sound el.value, hentry', hentryPosition, he', map_array,
    map_array]
  simp only [List.map_cons, List.map_nil, elementTree, hfirst]
  exact .intro _ _ _ _ _ _ _ _ _ (by simp)

end Document

end SiteConfig
