import SiteConfig.Proofs.Entries
import SiteConfig.Proofs.Grafting

/-!
What each change does to a sound config. A change that fails has at most planted nodes that
nothing refers to; one that succeeds has grafted a tree to a node, or appended a statement.
-/

namespace SiteConfig

namespace Statement

/-- The expression of a statement that is kept as one. -/
def root? {α : Type} (s : Statement α) : Option α :=
  match s.body with
  | .expression value => some value
  | .verbatim _ => none

end Statement

namespace Document
open Forest

variable {α β : Type}

theorem perform_bind (d : Document) (c : Change α) (k : α → Change β) :
    d.perform (c >>= k) =
      match d.perform c with
      | (.ok a, d') => d'.perform (k a)
      | (.error e, d') => (.error e, d') := by
  have h : d.perform (c >>= k) =
      (ExceptT.bindCont k (d.perform c).1 : StateM Document _) (d.perform c).2 := rfl
  rw [h]
  rcases d.perform c with ⟨e | a, d'⟩ <;> rfl

@[simp] theorem perform_pure (d : Document) (a : α) : d.perform (pure a) = (.ok a, d) := rfl

@[simp] theorem perform_throw (d : Document) (e : ConfigError) :
    d.perform (throw e : Change α) = (.error e, d) := rfl

@[simp] theorem perform_get (d : Document) : d.perform (get : Change Document) = (.ok d, d) := rfl

@[simp] theorem perform_modify (d : Document) (f : Document → Document) :
    d.perform (modify f : Change Unit) = (.ok (), f d) := rfl

@[simp] theorem perform_modifyGet (d : Document) (f : Document → α × Document) :
    d.perform (modifyGet f : Change α) = (.ok (f d).1, (f d).2) := rfl

@[simp] theorem perform_ask (d : Document) (f : Document → Result α) :
    d.perform (.ask f) = (f d, d) := rfl

@[simp] theorem perform_plant (d : Document) (t : Tree) :
    d.perform (.plant t) = (.ok (d.plant t).1, (d.plant t).2) := rfl

/-- The expressions of the script, in the order of its statements. -/
def roots (d : Document) : List NodeId :=
  d.program.statements.filterMap (·.root?)

/-- No node lies below itself and no handle stands in two places. -/
def Sound (d : Document) : Prop :=
  d.forest.Sound d.roots

/-- A handle that the config gave out. -/
def Issued (d : Document) (x : NodeId) : Prop :=
  x.index < d.forest.size

theorem plantStatements_planted (f : Forest) : (ss : List (Statement Tree)) →
    Planted f (f.plantStatements ss).2 ((f.plantStatements ss).1.filterMap (·.root?))
  | [] => .nil f
  | ⟨.expression t, _⟩ :: rest => by
    simp only [plantStatements, List.filterMap_cons, Statement.root?]
    exact (planted f t).trans (plantStatements_planted (f.plant t).2 rest)
  | ⟨.verbatim _, _⟩ :: rest => by
    simp only [plantStatements, List.filterMap_cons, Statement.root?]
    exact plantStatements_planted f rest

/-- A config as it was read is sound. -/
theorem sound_ofSource {source path : String} {d : Document}
    (h : ofSource source path = .ok d) : d.Sound := by
  unfold ofSource at h
  split at h
  · rename_i p _
    cases h
    exact Forest.Sound.empty.grow (plantStatements_planted {} p.statements)
  · cases h

theorem ofSource_empty (path : String) : ofSource "" path = .ok ⟨path, {}, {}⟩ := by
  have h : Program.ofSource? "" = some {} := rfl
  simp only [ofSource, h]
  rfl

/-- `d'` is `d` with nodes that nothing refers to. -/
structure Strayed (d d' : Document) : Prop where
  path : d'.path = d.path
  program : d'.program = d.program
  planted : ∃ ids, Planted d.forest d'.forest ids

namespace Strayed

variable {d d' : Document}

theorem refl (d : Document) : Strayed d d :=
  ⟨rfl, rfl, [], .nil d.forest⟩

theorem plant (d : Document) (t : Tree) : Strayed d (d.plant t).2 :=
  ⟨rfl, rfl, _, Forest.planted d.forest t⟩

theorem sound (h : Strayed d d') (hd : d.Sound) : d'.Sound := by
  obtain ⟨ids, p⟩ := h.planted
  rw [Document.Sound, roots, h.program]
  exact (Forest.Sound.grow hd p).weaken

theorem expr (h : Strayed d d') {x : NodeId} (hx : d.Issued x) : d'.expr x = d.expr x := by
  obtain ⟨ids, p⟩ := h.planted
  exact p.expr_old hx

theorem issued (h : Strayed d d') {x : NodeId} (hx : d.Issued x) : d'.Issued x := by
  obtain ⟨ids, p⟩ := h.planted
  exact Nat.lt_of_lt_of_le hx p.size_le

end Strayed

theorem issued_of_expr_object {d : Document} {x : NodeId} {properties : List (Property NodeId)}
    {dangling : List Comment} (h : d.expr x = .object properties dangling) : d.Issued x := by
  by_contra hx
  have hv : d.expr x = .verbatim "" := expr_of_size_le (Nat.le_of_not_lt hx)
  rw [hv] at h
  cases h

theorem issued_of_expr_array {d : Document} {x : NodeId} {elements : List (Element NodeId)}
    {dangling : List Comment} (h : d.expr x = .array elements dangling) : d.Issued x := by
  by_contra hx
  have hv : d.expr x = .verbatim "" := expr_of_size_le (Nat.le_of_not_lt hx)
  rw [hv] at h
  cases h

/-- Plants a tree and lets a node refer to it. -/
def graft (d : Document) (o : NodeId) (t : Tree) (e : NodeId → Expr NodeId) : Document :=
  (d.plant t).2.set o (e (d.plant t).1)

theorem Sound.graft {d : Document} (hd : d.Sound) {o : NodeId} (ho : d.Issued o) (t : Tree)
    {e : NodeId → Expr NodeId}
    (he : ∀ v, Grafted (d.expr o).operands (e v).operands v) : (d.graft o t e).Sound :=
  Forest.Sound.graft hd (planted d.forest t) ho (he _)

/-- The step was refused, and has at most planted nodes that nothing refers to. -/
def Refused (d : Document) (out : Result α × Document) : Prop :=
  ∃ e d', out = (.error e, d') ∧ Strayed d d'

theorem Refused.unchanged (d : Document) (e : ConfigError) :
    Refused d ((.error e, d) : Result α × Document) :=
  ⟨e, d, rfl, .refl d⟩

theorem Refused.planted (d : Document) (t : Tree) (e : ConfigError) :
    Refused d ((.error e, (d.plant t).2) : Result α × Document) :=
  ⟨e, _, rfl, .plant d t⟩

/-- Where `bind` puts a value: into the first property that binds the key, or behind the last. -/
theorem bind_cases {d : Document} {x : NodeId} {properties : List (Property NodeId)}
    {dangling : List Comment} {key problem : String} {found : Option NodeId}
    (he : d.expr x = .object properties dangling) (h : d.value? x key problem = .ok found)
    (form : KeyForm) :
    (∃ old before p after k, d.property? x key = some p ∧ found = some old ∧
      properties = before ++ p :: after ∧ p.body = .assignment k old ∧ k.name = key ∧
      ∀ v, bind key form v properties =
        before ++ { p with body := .assignment k v } :: after) ∨
    (d.property? x key = none ∧ found = none ∧
      ∀ v, bind key form v properties = properties ++ [.ofKey ⟨key, form⟩ v]) := by
  have hfind : d.property? x key = properties.find? (·.binds key) := by simp [property?, he]
  rw [hfind]
  rw [value?_of_object he] at h
  clear hfind he
  -- the look-up and `bind` pass over the same properties
  induction properties with
  | nil => exact .inr ⟨rfl, by simpa using h.symm, fun v => rfl⟩
  | cons p rest ih =>
    by_cases hb : p.binds key
    · rw [List.find?_cons_of_pos hb] at h
      rcases hp : p.body with ⟨k, old⟩ | ⟨shape, text⟩
      · have hk : k.name = key := by
          simpa [Property.binds, Property.name?, hp] using hb
        have hf : found = some old := by
          simpa [Property.value?, hp] using h.symm
        refine .inl ⟨old, [], p, rest, k, List.find?_cons_of_pos hb, hf, rfl, hp, hk, fun v => ?_⟩
        simp [bind, hb, Property.withValue, hp]
      · simp [Property.value?, hp] at h
    · rw [List.find?_cons_of_neg hb] at h
      rw [List.find?_cons_of_neg hb]
      rcases ih h with ⟨old, before, q, after, k, hfind, hf, rfl, hq, hk, hv⟩ | ⟨hfind, hf, hv⟩
      · exact .inl ⟨old, p :: before, q, after, k, hfind, hf, rfl, hq, hk,
          fun v => by simp [bind, hb, hv v]⟩
      · exact .inr ⟨hfind, hf, fun v => by simp [bind, hb, hv v]⟩

theorem operands_object_append (before after : List (Property NodeId)) (dangling : List Comment) :
    (Expr.object (before ++ after) dangling).operands =
      before.filterMap (·.value?) ++ after.filterMap (·.value?) := by
  simp [Expr.operands]

theorem grafted_bind {d : Document} {x : NodeId} {properties : List (Property NodeId)}
    {dangling : List Comment} {key problem : String} {found : Option NodeId}
    (he : d.expr x = .object properties dangling) (h : d.value? x key problem = .ok found)
    (form : KeyForm) (v : NodeId) :
    Grafted (d.expr x).operands (Expr.object (bind key form v properties) dangling).operands v := by
  rw [he]
  rcases bind_cases he h form with ⟨old, before, p, after, k, -, -, rfl, hp, -, hv⟩ | ⟨-, -, hv⟩
  · have hold : p.value? = some old := by simp [Property.value?, hp]
    refine ⟨before.filterMap (·.value?), [old], after.filterMap (·.value?), ?_, ?_⟩
    · rw [operands_object_append, List.filterMap_cons, hold]
      simp
    · rw [hv v, operands_object_append, List.filterMap_cons]
      rfl
  · refine ⟨properties.filterMap (·.value?), [], [], by simp [Expr.operands], ?_⟩
    rw [hv v, operands_object_append]
    rfl

theorem grafted_append (properties : List (Property NodeId)) (dangling : List Comment)
    (key : PropertyKey) (v : NodeId) :
    Grafted (Expr.object properties dangling).operands
      (Expr.object (properties ++ [.ofKey key v]) dangling).operands v :=
  ⟨properties.filterMap (·.value?), [], [], by simp [Expr.operands],
    by rw [operands_object_append]; rfl⟩

theorem putElement_cases {index : Nat} {elements : List (Element NodeId)}
    (h : index ≤ elements.length) :
    (∃ before e after, elements = before ++ e :: after ∧ before.length = index ∧
      ∀ v, putElement v index elements = before ++ { e with value := v } :: after) ∨
    (index = elements.length ∧
      ∀ v, putElement v index elements = elements ++ [{ value := v }]) := by
  induction elements generalizing index with
  | nil => exact .inr ⟨by simpa using h, fun v => by simp [putElement]⟩
  | cons e rest ih =>
    cases index with
    | zero => exact .inl ⟨[], e, rest, rfl, rfl, fun v => rfl⟩
    | succ index =>
      rcases ih (Nat.le_of_succ_le_succ h) with ⟨before, e', after, rfl, hl, hv⟩ | ⟨hl, hv⟩
      · exact .inl ⟨e :: before, e', after, rfl, by simp [hl], fun v => by simp [putElement, hv v]⟩
      · exact .inr ⟨by simp [hl], fun v => by simp [putElement, hv v]⟩

theorem grafted_putElement {index : Nat} {elements : List (Element NodeId)}
    (h : index ≤ elements.length) (dangling : List Comment) (v : NodeId) :
    Grafted (Expr.array elements dangling).operands
      (Expr.array (putElement v index elements) dangling).operands v := by
  rcases putElement_cases h with ⟨before, e, after, rfl, -, hv⟩ | ⟨-, hv⟩
  · exact ⟨before.map (·.value), [e.value], after.map (·.value), by simp [Expr.operands],
      by simp [Expr.operands, hv v]⟩
  · exact ⟨elements.map (·.value), [], [], by simp [Expr.operands], by simp [Expr.operands, hv v]⟩

theorem pluginCount_of_array {d : Document} {list : NodeId} {elements : List (Element NodeId)}
    {dangling : List Comment} (h : d.expr list = .array elements dangling) :
    d.pluginCount list = elements.length := by
  simp [pluginCount, entries, h]

theorem perform_putEntry {d : Document} {list : NodeId} (hl : d.Issued list) (index : Nat)
    (name : String) (r : Record) :
    Refused d (d.perform (.putEntry list index name r)) ∨
    ∃ elements dangling, d.expr list = .array elements dangling ∧ index ≤ elements.length ∧
      d.perform (.putEntry list index name r) = (.ok (), d.graft list (entryTree name r) fun v =>
        .array (putElement v index elements) dangling) := by
  have hexpr := (Strayed.plant d (entryTree name r)).expr hl
  simp only [Change.putEntry, perform_bind, perform_get]
  by_cases hc : d.pluginCount list < index
  · simp only [hc, if_true, perform_bind, perform_throw]
    exact .inl (.unchanged d _)
  · simp only [hc, if_false, perform_bind, perform_plant, perform_get, hexpr]
    cases he : d.expr list with
    | array elements dangling =>
      have hlen := pluginCount_of_array he
      refine .inr ⟨elements, dangling, rfl, by omega, rfl⟩
    | _ => exact .inl (.planted d _ _)

theorem perform_putOption {d : Document} {object : NodeId} (ho : d.Issued object) (key : String)
    (value : Value) :
    Refused d (d.perform (.putOption object key value)) ∨
    ∃ properties dangling found, d.expr object = .object properties dangling ∧
      d.value? object key (optionProblem key) = .ok found ∧
      d.perform (.putOption object key value) = (.ok (), d.graft object value.encode fun v =>
        .object (bind key (PropertyKey.forName key).form v properties) dangling) := by
  have hexpr := (Strayed.plant d value.encode).expr ho
  simp only [Change.putOption, perform_bind, perform_ask]
  cases hv : d.value? object key (optionProblem key) with
  | error e => exact .inl (.unchanged d e)
  | ok found =>
    simp only [perform_plant, perform_get, hexpr]
    cases he : d.expr object with
    | object properties dangling =>
      refine .inr ⟨properties, dangling, found, rfl, rfl, ?_⟩
      simp only [perform_modify, bindProperty, Document.graft]
      rw [hexpr, he]
    | _ => exact .inl (.planted d _ _)

/-- The config after `versions` has added an empty object to the options `properties`. -/
def withVersions (d : Document) (options : NodeId) (properties : List (Property NodeId))
    (dangling : List Comment) : Document :=
  d.graft options (.made (.object [] [])) fun v =>
    .object (properties ++ [.ofKey (.forName versionsKey) v]) dangling

theorem perform_versions {d : Document} {options : NodeId} (ho : d.Issued options) :
    Refused d (d.perform (.versions options)) ∨
    (∃ id properties dangling, d.value? options versionsKey versionsProblem = .ok (some id) ∧
      d.expr id = .object properties dangling ∧ d.perform (.versions options) = (.ok id, d)) ∨
    ∃ properties dangling, d.expr options = .object properties dangling ∧
      d.value? options versionsKey versionsProblem = .ok none ∧
      d.perform (.versions options) =
        (.ok (d.plant (.made (.object [] []))).1, d.withVersions options properties dangling) := by
  -- what is planted leaves the node alone that was looked at
  have hexpr := (Strayed.plant d (.made (.object [] []))).expr ho
  simp only [Change.versions, perform_bind, perform_ask]
  cases hv : d.value? options versionsKey versionsProblem with
  | error e => exact .inl (.unchanged d e)
  | ok found =>
    cases found with
    | some id =>
      simp only [perform_bind, perform_get]
      cases he : d.expr id with
      | object properties dangling =>
        exact .inr (.inl ⟨id, properties, dangling, rfl, he, rfl⟩)
      | _ => exact .inl (.unchanged d _)
    | none =>
      simp only [perform_bind, perform_plant, perform_get, hexpr]
      cases he : d.expr options with
      | object properties dangling =>
        refine .inr (.inr ⟨properties, dangling, rfl, trivial, ?_⟩)
        simp only [perform_bind, perform_modify, perform_pure, appendProperty, withVersions,
          Document.graft]
        rw [hexpr, he]
      | _ => exact .inl (.planted d _ _)

theorem expr_set_of_ne {d : Document} {o x : NodeId} (e : Expr NodeId) (h : x ≠ o) :
    (d.set o e).expr x = d.expr x :=
  congrArg Node.expr (node_set_ne e h)

theorem expr_graft {d : Document} {o : NodeId} (ho : d.Issued o) (t : Tree)
    (e : NodeId → Expr NodeId) : (d.graft o t e).expr o = e (d.plant t).1 :=
  expr_set (Nat.lt_of_lt_of_le ho (planted d.forest t).size_le)

/-- The root of what is grafted holds the expression that was planted. -/
theorem expr_graft_root {d : Document} {o : NodeId} (ho : d.Issued o) (t : Tree)
    (e : NodeId → Expr NodeId) :
    (d.graft o t e).expr (d.plant t).1 = (d.plant t).2.expr (d.plant t).1 := by
  apply expr_set_of_ne
  intro h
  have := ((planted d.forest t).fresh (d.plant t).1 (by simp [plant])).1
  rw [h] at this
  exact Nat.lt_irrefl _ (Nat.lt_of_lt_of_le ho this)

/-- A new `versions` object is empty. -/
theorem expr_withVersions {d : Document} {options : NodeId} (ho : d.Issued options)
    (properties : List (Property NodeId)) (dangling : List Comment) :
    (d.withVersions options properties dangling).expr (d.plant (.made (.object [] []))).1 =
      .object [] [] := by
  rw [withVersions, expr_graft_root ho]
  exact congrArg Node.expr (node_add_new d.forest { expr := .object [] [], position := none })

/-- So it binds no key. -/
theorem value?_withVersions {d : Document} {options : NodeId} (ho : d.Issued options)
    (properties : List (Property NodeId)) (dangling : List Comment) (key problem : String) :
    (d.withVersions options properties dangling).value? (d.plant (.made (.object [] []))).1 key
      problem = .ok none := by
  rw [value?_of_object (expr_withVersions ho properties dangling)]
  rfl

/-- What `putVersion` has done when it succeeds: it has bound the version in the object that the
options held, or in one that it has added. -/
def VersionPut (d : Document) (options : NodeId) (key : String) (r : Record) (d' : Document) :
    Prop :=
  (∃ id properties dangling found,
    d.value? options versionsKey versionsProblem = .ok (some id) ∧
    d.expr id = .object properties dangling ∧
    d.value? id key (versionProblem key) = .ok found ∧
    d' = d.graft id r.encode fun v => .object (bind key .string v properties) dangling) ∨
  ∃ properties dangling, d.expr options = .object properties dangling ∧
    d.value? options versionsKey versionsProblem = .ok none ∧
    d' = (d.withVersions options properties dangling).graft
      (d.plant (.made (.object [] []))).1 r.encode fun v => .object [.ofKey ⟨key, .string⟩ v] []

theorem issued_of_value? {d : Document} (hd : d.Sound) {x id : NodeId} {key problem : String}
    (h : d.value? x key problem = .ok (some id)) : d.Issued id := by
  obtain ⟨properties, dangling, p, before, after, he, rfl, hp⟩ := value?_eq_some h
  refine Forest.Sound.operand_lt hd (x := x) ?_
  change id ∈ (d.expr x).operands
  rw [he, operands_object_append, List.filterMap_cons, hp]
  simp

theorem perform_putVersion {d : Document} (hd : d.Sound) {options : NodeId}
    (ho : d.Issued options) (key : String) (r : Record) :
    Refused d (d.perform (.putVersion options key r)) ∨
    ∃ d', d.VersionPut options key r d' ∧
      d.perform (.putVersion options key r) = (.ok (), d') := by
  simp only [Change.putVersion, perform_bind]
  rcases perform_versions ho with ⟨e, d', hp, hs⟩ | ⟨id, properties, dangling, hv, he, hp⟩ |
    ⟨properties, dangling, he, hv, hp⟩
  · rw [hp]
    exact .inl ⟨e, d', rfl, hs⟩
  · have hexpr := (Strayed.plant d r.encode).expr (issued_of_value? hd hv)
    simp only [hp, perform_ask]
    cases hk : d.value? id key (versionProblem key) with
    | error e => exact .inl (.unchanged d e)
    | ok found =>
      simp only [perform_plant, perform_get, hexpr, he]
      refine .inr ⟨_, .inl ⟨id, properties, dangling, found, hv, he, hk, rfl⟩, ?_⟩
      simp only [perform_modify, bindProperty, Document.graft]
      rw [hexpr, he]
  · -- nothing can fail any more: the new object binds no key and is an object
    have hnew := expr_withVersions ho properties dangling
    have hissued : (d.withVersions options properties dangling).Issued
        (d.plant (.made (.object [] []))).1 :=
      issued_of_expr_object hnew
    have hexpr := (Strayed.plant _ r.encode).expr hissued
    have hk := value?_withVersions ho properties dangling key (versionProblem key)
    simp only [hp, perform_ask, hk, perform_plant, perform_get, hexpr, hnew]
    refine .inr ⟨_, .inr ⟨properties, dangling, he, hv, rfl⟩, ?_⟩
    simp only [perform_modify, bindProperty, Document.graft]
    rw [hexpr, hnew]
    rfl

theorem perform_locate (d : Document) :
    Refused d (d.perform .locate) ∨
    (∃ s id properties dangling, s ∈ d.program.statements ∧ d.exported? s = some id ∧
      d.expr id = .object properties dangling ∧ d.perform .locate = (.ok id, d)) ∨
      d.perform .locate = (.ok d.appendExport.1, d.appendExport.2) := by
  simp only [Change.locate, perform_bind, perform_get]
  cases hf : d.firstExport? with
  | none => exact .inr (.inr rfl)
  | some id =>
    obtain ⟨s, hs, hid⟩ := List.exists_of_findSome?_eq_some hf
    simp only
    cases he : d.expr id with
    | object properties dangling =>
      exact .inr (.inl ⟨s, id, properties, dangling, hs, hid, he, rfl⟩)
    | _ => exact .inl (.unchanged d _)

theorem sound_appendExport {d : Document} (hd : d.Sound) : d.appendExport.2.Sound := by
  have ht := planted d.forest exportTarget
  have ho := planted (d.forest.plant exportTarget).2 (.made (.object [] []))
  have hs := (ht.trans ho).add (e := .assignment _ _) none
  have hgrown := Forest.Sound.grow hd hs
  have hroots : d.appendExport.2.roots =
      d.roots ++ [(((d.forest.plant exportTarget).2.plant (.made (.object [] []))).2.add
        { expr := .assignment (d.forest.plant exportTarget).1
            ((d.forest.plant exportTarget).2.plant (.made (.object [] []))).1 }).1] := by
    simp [roots, appendExport, plant, Statement.root?]
  rw [Document.Sound, hroots]
  exact hgrown

/-- The config after `plugins` has added an empty list to the exported object. -/
def withPlugins (d : Document) (config : NodeId) (properties : List (Property NodeId))
    (dangling : List Comment) : Document :=
  d.graft config (.made (.array [] [])) fun v =>
    .object (properties ++ [.ofKey (.forName pluginsKey) v]) dangling

theorem perform_plugins {d : Document} {config : NodeId} (hc : d.Issued config) :
    Refused d (d.perform (.plugins config)) ∨
    (∃ id elements dangling, d.value? config pluginsKey pluginsProblem = .ok (some id) ∧
      d.expr id = .array elements dangling ∧ d.perform (.plugins config) = (.ok id, d)) ∨
    ∃ properties dangling, d.expr config = .object properties dangling ∧
      d.value? config pluginsKey pluginsProblem = .ok none ∧
      d.perform (.plugins config) =
        (.ok (d.plant (.made (.array [] []))).1, d.withPlugins config properties dangling) := by
  -- what is planted leaves the node alone that was looked at
  have hexpr := (Strayed.plant d (.made (.array [] []))).expr hc
  simp only [Change.plugins, perform_bind, perform_ask]
  cases hv : d.value? config pluginsKey pluginsProblem with
  | error e => exact .inl (.unchanged d e)
  | ok found =>
    cases found with
    | some id =>
      simp only [perform_bind, perform_get]
      cases he : d.expr id with
      | array elements dangling =>
        exact .inr (.inl ⟨id, elements, dangling, rfl, he, rfl⟩)
      | _ => exact .inl (.unchanged d _)
    | none =>
      simp only [perform_bind, perform_plant, perform_get, hexpr]
      cases he : d.expr config with
      | object properties dangling =>
        refine .inr (.inr ⟨properties, dangling, rfl, trivial, ?_⟩)
        simp only [perform_bind, perform_modify, perform_pure, appendProperty, withPlugins,
          Document.graft]
        rw [hexpr, he]
      | _ => exact .inl (.planted d _ _)

/-- An entry that is there is read before it is written. -/
theorem perform_setTutorial_eq (d : Document) (list : NodeId) (index : Option Nat)
    (o : TutorialOptions) {place : Nat} (hp : index.getD (d.pluginCount list) = place) :
    d.perform (.setTutorial list index o) =
      if place < d.pluginCount list then
        match d.tutorial list place with
        | .error e => (.error e, d)
        | .ok _ =>
          d.perform (do Change.putEntry list place Tutorial.pluginName o.toRecord; return place)
      else d.perform (do Change.putEntry list place Tutorial.pluginName o.toRecord; return place) := by
  by_cases hc : place < d.pluginCount list
  · simp only [Change.setTutorial, perform_bind, perform_get, hp, hc, if_true, perform_ask]
    cases d.tutorial list place <;> rfl
  · simp only [Change.setTutorial, perform_bind, perform_get, hp, hc, if_false]

theorem perform_setTutorial {d : Document} {list : NodeId} (hl : d.Issued list)
    (index : Option Nat) (o : TutorialOptions) {place : Nat}
    (hp : index.getD (d.pluginCount list) = place) :
    Refused d (d.perform (.setTutorial list index o)) ∨
    ∃ elements dangling, d.expr list = .array elements dangling ∧ place ≤ elements.length ∧
      (place < elements.length → ∃ old, d.tutorial list place = .ok old) ∧
      d.perform (.setTutorial list index o) = (.ok place,
        d.graft list (entryTree Tutorial.pluginName o.toRecord) fun v =>
          .array (putElement v place elements) dangling) := by
  rw [perform_setTutorial_eq d list index o hp]
  have hput := perform_putEntry hl place Tutorial.pluginName o.toRecord
  -- a place that exists must hold a tutorial, and a new one is not looked at
  by_cases hc : place < d.pluginCount list
  · rw [if_pos hc]
    cases ht : d.tutorial list place with
    | error e => exact .inl (.unchanged d e)
    | ok old =>
      rcases hput with ⟨e, d', hq, hs⟩ | ⟨elements, dangling, he, hle, hq⟩
      · exact .inl ⟨e, d', by simp only [perform_bind, hq], hs⟩
      · refine .inr ⟨elements, dangling, he, hle, fun _ => ⟨old, rfl⟩, ?_⟩
        simp only [perform_bind, hq, perform_pure]
  · rw [if_neg hc]
    rcases hput with ⟨e, d', hq, hs⟩ | ⟨elements, dangling, he, hle, hq⟩
    · exact .inl ⟨e, d', by simp only [perform_bind, hq], hs⟩
    · refine .inr ⟨elements, dangling, he, hle, fun h => ?_, ?_⟩
      · exact absurd (pluginCount_of_array he ▸ h) hc
      · simp only [perform_bind, hq, perform_pure]

theorem perform_setVersion (d : Document) (list : NodeId) (id version : String) (r : Record) :
    Refused d (d.perform (.setVersion list id version r)) ∨
    ∃ p, d.docsPlugin list id = .ok p ∧
      d.perform (.setVersion list id version r) = d.perform (.putVersion p.options version r) := by
  simp only [Change.setVersion, perform_bind, perform_ask]
  cases d.docsPlugin list id with
  | error e => exact .inl (.unchanged d e)
  | ok p => exact .inr ⟨p, rfl, rfl⟩

theorem perform_setOnlyInclude (d : Document) (list : NodeId) (id : String)
    (versions : List String) :
    Refused d (d.perform (.setOnlyInclude list id versions)) ∨
    ∃ p, d.docsPlugin list id = .ok p ∧
      d.perform (.setOnlyInclude list id versions) =
        d.perform (.putOption p.options onlyIncludeKey (.list (versions.map .string))) := by
  simp only [Change.setOnlyInclude, perform_bind, perform_ask]
  cases d.docsPlugin list id with
  | error e => exact .inl (.unchanged d e)
  | ok p => exact .inr ⟨p, rfl, rfl⟩

theorem issued_of_docsPlugin {d : Document} (hd : d.Sound) {list : NodeId} {id : String}
    {p : DocsPlugin} (h : d.docsPlugin list id = .ok p) : d.Issued p.options := by
  obtain ⟨entry, first, second, dangling, -, he, -, -, hp⟩ :=
    mem_pluginsNamed (docsPlugin_entry h)
  refine Forest.Sound.operand_lt hd (x := entry) ?_
  change p.options ∈ (d.expr entry).operands
  rw [he]
  simp only at hp
  simp [Expr.operands, hp]

end Document

end SiteConfig
