import SiteConfig.Proofs.Unaltered

/-!
A change that is refused is not seen: the nodes that it leaves behind are below no handle that the
config has given out.
-/

namespace SiteConfig.Document
open Forest

/-- All that can be read from a config, by handles that it has given out, reads alike from another
one. -/
structure ReadsAlike (d d' : Document) : Prop where
  render : d'.render = d.render
  named : ∀ list name, d.Issued list → d'.pluginsNamed list name = d.pluginsNamed list name
  reported : ∀ list name, d.Issued list →
    d'.reportPluginsNamed list name = d.reportPluginsNamed list name
  decoded : ∀ x, d.Issued x → Record.decode d'.path (d'.tree x) = Record.decode d.path (d.tree x)
  decodedAll : ∀ x, d.Issued x →
    Record.decodeAll d'.path (d'.tree x) = Record.decodeAll d.path (d.tree x)
  tutorials : ∀ list, d.Issued list → d'.tutorials list = d.tutorials list
  tutorial : ∀ list index, d.Issued list → d'.tutorial list index = d.tutorial list index
  docsPlugins : ∀ list, d.Issued list → d'.docsPlugins list = d.docsPlugins list
  docsPlugin : ∀ list id, d.Issued list → d'.docsPlugin list id = d.docsPlugin list id
  version : ∀ list id version, d.Issued list →
    d'.readVersion list id version = d.readVersion list id version

variable {d d' : Document}

theorem Sound.issued_root (hd : d.Sound) {s : Statement NodeId} {x : NodeId}
    (hs : s ∈ d.program.statements) (h : s.root? = some x) : d.Issued x :=
  Forest.Sound.issued hd x (List.mem_filterMap.mpr ⟨s, hs, h⟩)

namespace Strayed

theorem unaltered (h : Strayed d d') (hd : d.Sound) {x : NodeId} (hx : d.Issued x) :
    Unaltered d d' x := by
  obtain ⟨ids, p⟩ := h.planted
  exact ⟨h.path, hd.acyclic, (h.sound hd).acyclic, fun y hy => p.old y (hd.below_lt hx hy)⟩

theorem statements (h : Strayed d d') (hd : d.Sound) :
    d.program.statements.map d'.statementTree = d.program.statements.map d.statementTree := by
  refine List.map_congr_left fun s hs => ?_
  rcases s with ⟨value | text, trivia⟩
  · simp only [statementTree, (h.unaltered hd (hd.issued_root hs rfl)).tree]
  · rfl

theorem render (h : Strayed d d') (hd : d.Sound) : d'.render = d.render := by
  simp only [Document.render, toProgram, h.program, h.statements hd]

/-- Stray nodes are not seen by any read. -/
theorem readsAlike (h : Strayed d d') (hd : d.Sound) : ReadsAlike d d' where
  render := h.render hd
  named _ name hl := (h.unaltered hd hl).named name
  reported _ name hl := (h.unaltered hd hl).reported name
  decoded _ hx := (h.unaltered hd hx).decoded
  decodedAll _ hx := (h.unaltered hd hx).decodedAll
  tutorials _ hl := (h.unaltered hd hl).tutorials
  tutorial _ index hl := (h.unaltered hd hl).tutorial index
  docsPlugins _ hl := (h.unaltered hd hl).docsPlugins
  docsPlugin _ id hl := (h.unaltered hd hl).docsPlugin id
  version _ id version hl := (h.unaltered hd hl).version id version

end Strayed

end SiteConfig.Document

namespace SiteConfig

/-- What a step answers when it succeeds. -/
inductive Answer where
  | handle (x : NodeId)
  | place (index : Nat)
  | done

/-- The steps that may change a config. -/
inductive Operation where
  | locate
  | plugins (config : NodeId)
  | putEntry (list : NodeId) (index : Nat) (name : String) (r : Record)
  | putOption (object : NodeId) (key : String) (value : Value)
  | putVersion (options : NodeId) (key : String) (r : Record)
  | setTutorial (list : NodeId) (index : Option Nat) (o : TutorialOptions)
  | setVersion (list : NodeId) (id version : String) (r : Record)
  | setOnlyInclude (list : NodeId) (id : String) (versions : List String)

namespace Operation

/-- The handle that an operation is given. -/
def handle? : Operation → Option NodeId
  | locate => none
  | plugins config => some config
  | putEntry list .. => some list
  | putOption object .. => some object
  | putVersion options .. => some options
  | setTutorial list .. => some list
  | setVersion list .. => some list
  | setOnlyInclude list .. => some list

def change : Operation → Change Answer
  | locate => .handle <$> Change.locate
  | plugins config => .handle <$> Change.plugins config
  | putEntry list index name r => (fun _ => .done) <$> Change.putEntry list index name r
  | putOption object key value => (fun _ => .done) <$> Change.putOption object key value
  | putVersion options key r => (fun _ => .done) <$> Change.putVersion options key r
  | setTutorial list index o => .place <$> Change.setTutorial list index o
  | setVersion list id version r => (fun _ => .done) <$> Change.setVersion list id version r
  | setOnlyInclude list id versions => (fun _ => .done) <$> Change.setOnlyInclude list id versions

end Operation

namespace Document

/-- The operation is given a handle that the config gave out, if it is given one. The node of the
handle may be of any kind, and may have left the script since. -/
def Accepts (d : Document) (op : Operation) : Prop :=
  ∀ x ∈ op.handle?, d.Issued x

/-- The configs that any run of operations leads to from a script that could be read. -/
inductive Reached : Document → Prop where
  | opened {source path : String} {d : Document} (h : ofSource source path = .ok d) : Reached d
  | step {d : Document} (h : Reached d) (op : Operation) (hop : d.Accepts op) :
    Reached (d.perform op.change).2

/-- A step on a sound config either was refused, or has left a sound config. -/
def Orderly {α : Type} (d : Document) (out : Result α × Document) : Prop :=
  Refused d out ∨ (∃ a, out.1 = .ok a) ∧ out.2.Sound

theorem perform_map {α β : Type} (d : Document) (f : α → β) (c : Change α) :
    d.perform (f <$> c) = ((d.perform c).1.map f, (d.perform c).2) := by
  have h : f <$> c = c >>= fun a => pure (f a) := (bind_pure_comp f c).symm
  rw [h, perform_bind]
  rcases d.perform c with ⟨e | a, d'⟩ <;> rfl

theorem Orderly.map {α β : Type} {d : Document} {c : Change α} (f : α → β)
    (h : Orderly d (d.perform c)) : Orderly d (d.perform (f <$> c)) := by
  rw [perform_map]
  rcases h with ⟨e, d', hp, hs⟩ | ⟨⟨a, ha⟩, hs⟩
  · exact .inl ⟨e, d', by rw [hp]; rfl, hs⟩
  · exact .inr ⟨⟨f a, by rw [ha]; rfl⟩, hs⟩

variable {d : Document}

theorem orderly_locate (hd : d.Sound) : Orderly d (d.perform .locate) := by
  rcases perform_locate d with h | ⟨s, id, _, _, -, -, -, hp⟩ | hp
  · exact .inl h
  · rw [hp]
    exact .inr ⟨⟨id, rfl⟩, hd⟩
  · rw [hp]
    exact .inr ⟨⟨_, rfl⟩, sound_appendExport hd⟩

theorem orderly_plugins (hd : d.Sound) {config : NodeId} (hc : d.Issued config) :
    Orderly d (d.perform (.plugins config)) := by
  rcases perform_plugins hc with h | ⟨id, _, _, -, -, hp⟩ | ⟨properties, dangling, he, -, hp⟩
  · exact .inl h
  · rw [hp]
    exact .inr ⟨⟨id, rfl⟩, hd⟩
  · rw [hp]
    refine .inr ⟨⟨_, rfl⟩, hd.graft hc _ fun v => ?_⟩
    rw [he]
    exact grafted_append properties dangling _ v

theorem orderly_putEntry (hd : d.Sound) {list : NodeId} (hl : d.Issued list) (index : Nat)
    (name : String) (r : Record) : Orderly d (d.perform (.putEntry list index name r)) := by
  rcases perform_putEntry hl index name r with h | ⟨elements, dangling, he, hle, hp⟩
  · exact .inl h
  · rw [hp]
    refine .inr ⟨⟨(), rfl⟩, hd.graft hl _ fun v => ?_⟩
    rw [he]
    exact grafted_putElement hle dangling v

theorem orderly_putOption (hd : d.Sound) {object : NodeId} (ho : d.Issued object) (key : String)
    (value : Value) : Orderly d (d.perform (.putOption object key value)) := by
  rcases perform_putOption ho key value with h | ⟨properties, dangling, found, he, hv, hp⟩
  · exact .inl h
  · rw [hp]
    exact .inr ⟨⟨(), rfl⟩, hd.graft ho _ fun v => grafted_bind he hv _ v⟩

theorem sound_withVersions (hd : d.Sound) {options : NodeId} (ho : d.Issued options)
    {properties : List (Property NodeId)} {dangling : List Comment}
    (he : d.expr options = .object properties dangling) :
    (d.withVersions options properties dangling).Sound := by
  refine hd.graft ho _ fun v => ?_
  rw [he]
  exact grafted_append properties dangling _ v

theorem VersionPut.sound (hd : d.Sound) {options : NodeId} (ho : d.Issued options) {key : String}
    {r : Record} {d' : Document} (h : d.VersionPut options key r d') : d'.Sound := by
  rcases h with ⟨id, properties, dangling, found, hv, he, hk, rfl⟩ |
    ⟨properties, dangling, he, -, rfl⟩
  · exact hd.graft (issued_of_value? hd hv) _ fun v => grafted_bind he hk _ v
  · have hnew := expr_withVersions ho properties dangling
    refine (sound_withVersions hd ho he).graft (issued_of_expr_object hnew) _ fun v => ?_
    rw [hnew]
    exact grafted_append [] [] _ v

theorem orderly_putVersion (hd : d.Sound) {options : NodeId} (ho : d.Issued options) (key : String)
    (r : Record) : Orderly d (d.perform (.putVersion options key r)) := by
  rcases perform_putVersion hd ho key r with h | ⟨d', hput, hp⟩
  · exact .inl h
  · rw [hp]
    exact .inr ⟨⟨(), rfl⟩, hput.sound hd ho⟩

theorem orderly_setTutorial (hd : d.Sound) {list : NodeId} (hl : d.Issued list)
    (index : Option Nat) (o : TutorialOptions) :
    Orderly d (d.perform (.setTutorial list index o)) := by
  rcases perform_setTutorial hl index o rfl with h | ⟨elements, dangling, he, hle, -, hp⟩
  · exact .inl h
  · rw [hp]
    refine .inr ⟨⟨_, rfl⟩, hd.graft hl _ fun v => ?_⟩
    rw [he]
    exact grafted_putElement hle dangling v

theorem orderly_setVersion (hd : d.Sound) (list : NodeId) (id version : String) (r : Record) :
    Orderly d (d.perform (.setVersion list id version r)) := by
  rcases perform_setVersion d list id version r with h | ⟨p, hp, hq⟩
  · exact .inl h
  · rw [hq]
    exact orderly_putVersion hd (issued_of_docsPlugin hd hp) version r

theorem orderly_setOnlyInclude (hd : d.Sound) (list : NodeId) (id : String)
    (versions : List String) : Orderly d (d.perform (.setOnlyInclude list id versions)) := by
  rcases perform_setOnlyInclude d list id versions with h | ⟨p, hp, hq⟩
  · exact .inl h
  · rw [hq]
    exact orderly_putOption hd (issued_of_docsPlugin hd hp) _ _

/-- What one operation does to a sound config. -/
theorem orderly_change (hd : d.Sound) (op : Operation) (hop : d.Accepts op) :
    Orderly d (d.perform op.change) := by
  cases op with
  | locate => exact (orderly_locate hd).map _
  | plugins config => exact (orderly_plugins hd (hop config rfl)).map _
  | putEntry list index name r => exact (orderly_putEntry hd (hop list rfl) index name r).map _
  | putOption object key value => exact (orderly_putOption hd (hop object rfl) key value).map _
  | putVersion options key r => exact (orderly_putVersion hd (hop options rfl) key r).map _
  | setTutorial list index o => exact (orderly_setTutorial hd (hop list rfl) index o).map _
  | setVersion list id version r => exact (orderly_setVersion hd list id version r).map _
  | setOnlyInclude list id versions => exact (orderly_setOnlyInclude hd list id versions).map _

theorem Sound.operated (hd : d.Sound) (op : Operation) (hop : d.Accepts op) :
    (d.perform op.change).2.Sound := by
  rcases orderly_change hd op hop with ⟨e, d', hp, hs⟩ | ⟨-, hs⟩
  · rw [hp]
    exact hs.sound hd
  · exact hs

/-- Every config that a run leads to is sound. -/
theorem Reached.sound (h : d.Reached) : d.Sound := by
  induction h with
  | opened h => exact sound_ofSource h
  | step _ op hop ih => exact ih.operated op hop

/-- An operation that is refused changes nothing that can be seen. -/
theorem readsAlike_of_refused (hd : d.Reached) (op : Operation) (hop : d.Accepts op)
    {e : ConfigError} (h : (d.perform op.change).1 = .error e) :
    ReadsAlike d (d.perform op.change).2 := by
  rcases orderly_change hd.sound op hop with ⟨e', d', hp, hs⟩ | ⟨⟨a, ha⟩, -⟩
  · rw [hp]
    exact hs.readsAlike hd.sound
  · rw [ha] at h
    cases h

/-- An entry is to go into the exported object, which is no list. Its three nodes stay behind. -/
theorem readsAlike_of_refused_putEntry :
    let d := ((⟨"a.js", {}, {}⟩ : Document).perform Operation.locate.change).2
    let op := Operation.putEntry ⟨2⟩ 0 "x" []
    (d.perform op.change).1 = .error (.invalidInput "plugin list is not an array") ∧
      (d.perform op.change).2.forest.size = d.forest.size + 3 ∧
      ReadsAlike d (d.perform op.change).2 := by
  intro d op
  have hlocate : (⟨"a.js", {}, {}⟩ : Document).Accepts .locate := by
    intro x hx
    cases hx
  have hd : d.Reached := .step (.opened (ofSource_empty "a.js")) .locate hlocate
  have hop : d.Accepts op := by
    intro x hx
    cases hx
    change 2 < 4
    decide
  have h : (d.perform op.change).1 = .error (.invalidInput "plugin list is not an array") := rfl
  exact ⟨h, rfl, readsAlike_of_refused hd op hop h⟩

/-- An empty config that was given an exported object, a plugin list and one entry in it. -/
def withEntry (name : String) (r : Record) : Document :=
  let opened : Document := ⟨"a.js", {}, {}⟩
  let located := (opened.perform Operation.locate.change).2
  let listed := (located.perform (Operation.plugins ⟨2⟩).change).2
  (listed.perform (Operation.putEntry ⟨4⟩ 0 name r).change).2

theorem reached_withEntry (name : String) (r : Record) : (withEntry name r).Reached := by
  refine .step (.step (.step (.opened (ofSource_empty "a.js")) .locate ?_) (.plugins ⟨2⟩) ?_)
    (.putEntry ⟨4⟩ 0 name r) ?_
  · intro x hx
    cases hx
  · intro x hx
    cases hx
    change 2 < 4
    decide
  · intro x hx
    cases hx
    change 4 < 5
    decide

end Document

end SiteConfig
