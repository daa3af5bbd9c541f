import SiteConfig.Proofs.Opening
import SiteConfig.Proofs.Standing

/-!
What the problems of a config are about. Each problem that a read reports names a value or a
property that it looked at, and is right about it.
-/

namespace SiteConfig
open Document

/-- An expression that is evaluated, and so is no value of an option. -/
def Expr.isCode {α : Type} : Expr α → Bool
  | .identifier _ | .member .. | .assignment .. | .verbatim _ => true
  | _ => false

namespace Tree

def isEntry (t : Tree) : Bool :=
  match t.expr with
  | .array [first, second] _ =>
    first.value.expr.asString?.isSome && second.value.expr.asObject?.isSome
  | _ => false

def isStrings (t : Tree) : Bool :=
  match t.expr with
  | .array elements _ => elements.all (·.value.expr.asString?.isSome)
  | _ => false

/-- A problem that a value has because something else is expected where it stands. -/
inductive Unfit (path : String) (t : Tree) : String → Prop where
  | export (h : t.expr.asObject? = none) : Unfit path t exportProblem
  | plugins (h : t.isArray = false) : Unfit path t pluginsProblem
  | entry (h : t.isArray) (h' : t.isEntry = false) : Unfit path t entryProblem
  | id (h : t.expr.asString? = none) : Unfit path t idProblem
  | versions (h : t.expr.asObject? = none) : Unfit path t versionsProblem
  | version (h : t.expr.asObject? = none) (name : String) : Unfit path t (versionProblem name)
  | onlyInclude (h : t.isStrings = false) : Unfit path t onlyIncludeProblem
  | record (h : t.expr.asObject? = none) : Unfit path t Record.objectProblem
  /-- What can be read of the options makes no tutorial. -/
  | tutorial {problem : String}
    (h : TutorialOptions.ofRecord (Record.decodeAll path t).value = .error problem) :
    Unfit path t problem

/-- A problem that a value has because no option is written that way. -/
inductive Unreadable (t : Tree) : String → Prop where
  | code (h : t.expr.isCode) : Unreadable t (Value.kindProblem t.expr)
  | call {callee : Tree} {arguments : List Tree} (he : t.expr = .call callee arguments)
    (h : Value.pathArgument? callee arguments = none) : Unreadable t Value.pathProblem

end Tree

/-- The keys whose values are looked up, each with the problem of a property that binds it but has
no value. -/
def Document.lookups : List (String × String) :=
  [(pluginsKey, pluginsProblem), ("id", idProblem), (versionsKey, versionsProblem),
    (onlyIncludeKey, onlyIncludeProblem)]

/-- The error is about this part of a script, and is right about it. -/
inductive Fragment.Offends (path : String) : Fragment → ConfigError → Prop where
  | unfit {t : Tree} {problem : String} (h : t.Unfit path problem) :
    Offends path (.value t) (.structural ⟨path, t.position⟩ problem)
  | unreadable {t : Tree} {problem : String} (h : t.Unreadable problem) :
    Offends path (.value t) (.unsupported ⟨path, t.position⟩ problem)
  | valueless {q : Property Tree} {key problem : String} (hb : q.binds key)
    (hv : q.value? = none) (hk : (key, problem) ∈ lookups) :
    Offends path (.member q) (.structural ⟨path, q.position⟩ problem)
  | option {q : Property Tree} {shape : IrregularShape} {text : String}
    (hq : q.body = .irregular shape text) :
    Offends path (.member q) (.unsupported ⟨path, q.position⟩ (Value.shapeProblem shape))
  | version {q : Property Tree} {shape : IrregularShape} {text : String}
    (hq : q.body = .irregular shape text) :
    Offends path (.member q) (.unsupported ⟨path, q.position⟩ (shape.describe ++ " in versions"))

/-- The error is about a part of the tree. -/
def Tree.Blames (t : Tree) (path : String) (e : ConfigError) : Prop :=
  ∃ x, t.Has x ∧ x.Offends path e

/-- The error is about the property or a part of its value. -/
def Property.Blames (q : Property Tree) (path : String) (e : ConfigError) : Prop :=
  (Fragment.member q).Offends path e ∨ ∃ value ∈ q.value?, value.Blames path e

variable {path : String} {e : ConfigError} {t : Tree}

theorem Fragment.Offends.blames (h : (Fragment.value t).Offends path e) : t.Blames path e :=
  ⟨_, .self t, h⟩

theorem Tree.Blames.operand {s : Tree} (h : s.Blames path e) (hs : s ∈ t.expr.operands) :
    t.Blames path e := by
  obtain ⟨x, hx, he⟩ := h
  exact ⟨x, .operand hs hx, he⟩

theorem Property.Blames.member {properties : List (Property Tree)} {q : Property Tree}
    (h : q.Blames path e) (ht : t.expr.asObject? = some properties) (hq : q ∈ properties) :
    t.Blames path e := by
  rcases h with h | ⟨value, hvalue, h⟩
  · exact ⟨_, .member ht hq, h⟩
  · apply h.operand
    cases he : t.expr <;> rw [he] at ht <;> cases ht
    exact List.mem_filterMap.mpr ⟨q, hq, hvalue⟩

/-! Values of options. -/

namespace Value

mutual

theorem blames_of_decode : ∀ t : Tree, decode path t = .error e → t.Blames path e
  | .node position ex, h => by
    rw [decode] at h
    exact blames_of_decodeExpr position ex h

theorem blames_of_decodeExpr (position : Option Position) :
    ∀ ex : Expr Tree, decodeExpr path position ex = .error e →
      (Tree.node position ex).Blames path e
  | .string _, h | .boolean _, h => by cases h
  | .array elements dangling, h => by
    obtain ⟨el, hel, hb⟩ := blames_of_decodeElements elements (Result.error_of_map h)
    exact hb.operand (List.mem_map_of_mem hel)
  | .object properties dangling, h => by
    obtain ⟨q, hq, hb⟩ := blames_of_decodeProperties properties (Result.error_of_map h)
    exact hb.member rfl hq
  | .call callee arguments, h => by
    rw [decodeExpr] at h
    cases hp : pathArgument? callee arguments with
    | some text => rw [hp] at h; cases h
    | none =>
      rw [hp] at h
      cases h
      exact (Fragment.Offends.unreadable (.call rfl hp)).blames
  | .identifier _, h | .member .., h | .assignment .., h | .verbatim _, h => by
    cases h
    exact (Fragment.Offends.unreadable (t := .node position _) (.code rfl)).blames

theorem blames_of_decodeElements : ∀ elements : List (Element Tree),
    decodeElements path elements = .error e → ∃ el ∈ elements, el.value.Blames path e
  | [], h => by cases h
  | ⟨value, trivia⟩ :: rest, h => by
    rcases Result.error_of_bind h with hv | ⟨v, -, h⟩
    · exact ⟨_, List.mem_cons_self, blames_of_decode value hv⟩
    rcases Result.error_of_bind h with hrest | ⟨_, -, h⟩
    · obtain ⟨el, hel, hb⟩ := blames_of_decodeElements rest hrest
      exact ⟨el, List.mem_cons_of_mem _ hel, hb⟩
    · cases h

theorem blames_of_decodeProperties : ∀ properties : List (Property Tree),
    decodeProperties path properties = .error e → ∃ q ∈ properties, q.Blames path e
  | [], h => by cases h
  | ⟨body, position, trivia⟩ :: rest, h => by
    rcases Result.error_of_bind h with hbody | ⟨_, -, h⟩
    · exact ⟨_, List.mem_cons_self, blames_of_decodeBody position trivia body hbody⟩
    rcases Result.error_of_bind h with hrest | ⟨_, -, h⟩
    · obtain ⟨q, hq, hb⟩ := blames_of_decodeProperties rest hrest
      exact ⟨q, List.mem_cons_of_mem _ hq, hb⟩
    · cases h

theorem blames_of_decodeBody (position : Option Position) (trivia : Trivia) :
    ∀ body : PropertyBody Tree, decodeBody path position body = .error e →
      (Property.mk body position trivia).Blames path e
  | .assignment key value, h => by
    rcases Result.error_of_bind h with hv | ⟨_, -, h⟩
    · exact .inr ⟨value, rfl, blames_of_decode value hv⟩
    · cases h
  | .irregular shape text, h => by
    cases h
    exact .inl (.option rfl)

end

end Value

namespace Record

theorem blames_of_decode (h : decode path t = .error e) : t.Blames path e := by
  unfold decode at h
  cases ht : t.expr.asObject? with
  | none =>
    rw [ht] at h
    cases h
    exact (Fragment.Offends.unfit (.record ht)).blames
  | some properties =>
    rw [ht] at h
    obtain ⟨q, hq, hb⟩ := Value.blames_of_decodeProperties properties (Result.error_of_map h)
    exact hb.member ht hq

theorem blames_of_decodeAll (h : e ∈ (decodeAll path t).errors) : t.Blames path e := by
  unfold decodeAll at h
  cases ht : t.expr.asObject? with
  | none =>
    rw [ht] at h
    cases List.mem_singleton.mp h
    exact (Fragment.Offends.unfit (.record ht)).blames
  | some properties =>
    simp only [ht, List.mem_filterMap, List.mem_map] at h
    obtain ⟨r, ⟨q, hq, rfl⟩, hr⟩ := h
    cases hd : decodeProperty path q with
    | ok entry => rw [hd] at hr; cases hr
    | error e' =>
      rw [hd] at hr
      cases hr
      exact (Value.blames_of_decodeBody q.position q.trivia q.body hd).member ht hq

end Record

/-! What a read of a config looks at. -/

namespace Document

variable {d : Document} {x o list : NodeId} {path : String} {e : ConfigError}

theorem mapM_of_isSome {α β : Type} {f : α → Option β} {as : List α}
    (h : ∀ a ∈ as, (f a).isSome) : ∃ bs, as.mapM f = some bs := by
  induction as with
  | nil => exact ⟨[], rfl⟩
  | cons a rest ih =>
    obtain ⟨ha, hrest⟩ := List.forall_mem_cons.mp h
    obtain ⟨b, hb⟩ := Option.isSome_iff_exists.mp ha
    obtain ⟨bs, hbs⟩ := ih hrest
    exact ⟨b :: bs, by rw [List.mapM_cons, hb, hbs]; rfl⟩

section Reads

variable (hd : d.Sound)

include hd

theorem location_eq (x : NodeId) : d.location x = ⟨d.path, (d.tree x).position⟩ := by
  rw [tree_of_expr hd]
  rfl

theorem operand_tree (ho : o ∈ (d.expr x).operands) : d.tree o ∈ (d.tree x).expr.operands := by
  rw [expr_tree hd, Expr.operands_map]
  exact List.mem_map_of_mem ho

theorem asObject?_tree {properties : List (Property NodeId)} {dangling : List Comment}
    (he : d.expr x = .object properties dangling) :
    (d.tree x).expr.asObject? = some (properties.map d.propertyTree) := by
  rw [expr_tree hd, he, map_object]
  rfl

theorem asObject?_tree_eq_none
    (he : ∀ properties dangling, d.expr x ≠ .object properties dangling) :
    (d.tree x).expr.asObject? = none := by
  rw [expr_tree hd]
  cases h : d.expr x with
  | object properties dangling => exact absurd h (he properties dangling)
  | _ => rfl

theorem asString?_tree (x : NodeId) : (d.tree x).expr.asString? = (d.expr x).asString? := by
  rw [expr_tree hd]
  cases d.expr x <;> rfl

/-- A problem that a node has is located at it. -/
theorem blames_unfit {problem : String} (h : (d.tree x).Unfit d.path problem) :
    (d.tree x).Blames d.path (.structural (d.location x) problem) := by
  rw [location_eq hd]
  exact (Fragment.Offends.unfit h).blames

theorem blames_of_value? {key problem : String} (h : d.value? x key problem = .error e)
    (hk : (key, problem) ∈ lookups) : (d.tree x).Blames d.path e := by
  cases he : d.expr x with
  | object properties dangling =>
    rw [value?_of_object he] at h
    cases hf : properties.find? (·.binds key) with
    | none => simp [hf] at h
    | some q =>
      rw [hf] at h
      cases hv : q.value? with
      | some id => simp [hv] at h
      | none =>
        simp only [hv, Except.error.injEq] at h
        subst h
        have hoffends : (Fragment.member (d.propertyTree q)).Offends d.path
            (.structural ⟨d.path, (d.propertyTree q).position⟩ problem) := by
          apply Fragment.Offends.valueless _ _ hk
          · rw [binds_propertyTree]
            exact List.find?_some hf
          · rw [value?_propertyTree, hv]
            rfl
        have hmem := List.mem_map_of_mem (f := d.propertyTree) (List.mem_of_find?_eq_some hf)
        exact ⟨_, .member (asObject?_tree hd he) hmem, hoffends⟩
  | _ => simp [value?, property?, he] at h

/-! The parts of a docs plugin. -/

theorem blames_of_docsId (h : d.docsId x = .error e) : (d.tree x).Blames d.path e := by
  rcases Result.error_of_bind h with hv | ⟨found, hv, h⟩
  · exact blames_of_value? hd hv (by simp [lookups])
  cases found with
  | none => cases h
  | some id =>
    simp only at h
    split at h
    · cases h
    · next hid =>
      cases h
      apply (blames_unfit hd (.id _)).operand (operand_tree hd (operand_of_value? hv))
      rw [asString?_tree hd]
      cases he : d.expr id <;> first | rfl | exact absurd he (hid _)

theorem blames_of_readVersionEntry {p : Property NodeId} (h : e ∈ (d.readVersionEntry p).errors) :
    (d.propertyTree p).Blames d.path e := by
  rcases hb : p.body with ⟨key, value⟩ | ⟨shape, text⟩
  · have hvalue : (d.propertyTree p).value? = some (d.tree value) := by
      rw [value?_propertyTree, Property.value?, hb]
      rfl
    simp only [readVersionEntry, hb] at h
    refine .inr ⟨_, hvalue, ?_⟩
    split at h
    · exact Record.blames_of_decodeAll h
    · next hobject =>
      cases List.mem_singleton.mp h
      exact blames_unfit hd (.version (asObject?_tree_eq_none hd hobject) _)
  · simp only [readVersionEntry, hb] at h
    cases List.mem_singleton.mp h
    have hbody : (d.propertyTree p).body = .irregular shape text := by
      rw [propertyTree, hb]
    exact .inl (.version hbody)

theorem blames_of_versionEntries (h : e ∈ (d.versionEntries x).errors) :
    (d.tree x).Blames d.path e := by
  unfold versionEntries at h
  cases hv : d.value? x versionsKey versionsProblem with
  | error e' =>
    simp only [hv, List.mem_singleton] at h
    subst h
    exact blames_of_value? hd hv (by simp [lookups])
  | ok found =>
    cases found with
    | none => simp [hv] at h
    | some id =>
      have hid := operand_tree hd (operand_of_value? hv)
      cases he : d.expr id with
      | object properties dangling =>
        simp only [hv, he, List.mem_flatMap, List.mem_map] at h
        obtain ⟨r, ⟨p, hp, rfl⟩, hr⟩ := h
        exact ((blames_of_readVersionEntry hd hr).member (asObject?_tree hd he)
          (List.mem_map_of_mem hp)).operand hid
      | _ =>
        simp only [hv, he, List.mem_singleton] at h
        subst h
        exact (blames_unfit hd (.versions (asObject?_tree_eq_none hd (by simp [he])))).operand hid

theorem isStrings_tree {elements : List (Element NodeId)} {dangling : List Comment}
    (he : d.expr x = .array elements dangling)
    (h : elements.mapM (fun e => (d.expr e.value).asString?) = none) :
    (d.tree x).isStrings = false := by
  rw [Tree.isStrings, expr_tree hd, he, Expr.map]
  by_contra hall
  simp only [Bool.not_eq_false, List.all_map, List.all_eq_true, Function.comp_apply,
    asString?_tree hd] at hall
  obtain ⟨names, hnames⟩ := mapM_of_isSome hall
  rw [hnames] at h
  cases h

theorem blames_of_onlyInclude (h : d.onlyInclude x = .error e) : (d.tree x).Blames d.path e := by
  rcases Result.error_of_bind h with hv | ⟨found, hv, h⟩
  · exact blames_of_value? hd hv (by simp [lookups])
  cases found with
  | none => cases h
  | some id =>
    have hid := operand_tree hd (operand_of_value? hv)
    cases he : d.expr id with
    | array elements dangling =>
      simp only [he] at h
      split at h
      · cases h
      · next hnone =>
        cases h
        exact (blames_unfit hd (.onlyInclude (isStrings_tree hd he hnone))).operand hid
    | _ =>
      simp only [he] at h
      cases h
      refine (blames_unfit hd (.onlyInclude ?_)).operand hid
      rw [Tree.isStrings, expr_tree hd, he]
      rfl

theorem blames_of_readDocsPlugin {entry : PluginEntry} (h : e ∈ (d.readDocsPlugin entry).errors) :
    (d.tree entry.options).Blames d.path e := by
  unfold readDocsPlugin at h
  cases hid : d.docsId entry.options with
  | error e' =>
    simp only [hid, List.mem_singleton] at h
    subst h
    exact blames_of_docsId hd hid
  | ok id =>
    simp only [hid, List.mem_append] at h
    rcases h with h | h
    · exact blames_of_versionEntries hd h
    · cases ho : d.onlyInclude entry.options with
      | ok names => simp [ho] at h
      | error e' =>
        simp only [ho, List.mem_singleton] at h
        subst h
        exact blames_of_onlyInclude hd ho

/-! The entries of a plugin list. -/

theorem blames_entry {name : String} {p : PluginEntry} (hp : p ∈ d.pluginsNamed list name)
    (h : (d.tree p.options).Blames path e) : (d.tree list).Blames path e := by
  obtain ⟨entry, first, second, dangling, hentry, he, -, -, hoptions⟩ := mem_pluginsNamed hp
  have hlist := mem_operands_of_mem_entries (List.mem_of_getElem? hentry)
  have hoperand : p.options ∈ (d.expr entry).operands := by simp [he, Expr.operands, hoptions]
  exact (h.operand (operand_tree hd hoperand)).operand (operand_tree hd hlist)

theorem isEntry_of_malformed (h : d.entryShape x = .malformed) :
    (d.tree x).isArray ∧ (d.tree x).isEntry = false := by
  rw [isArray_tree hd, Tree.isEntry, expr_tree hd]
  unfold entryShape at h
  split at h
  · next first second dangling he =>
    -- two elements, of which the first is no string or the second no object
    refine ⟨⟨_, _, he⟩, ?_⟩
    simp only [he, Expr.map, List.map_cons, List.map_nil, asString?_tree hd, Bool.and_eq_false_iff]
    split at h
    · cases h
    · next hnot =>
      by_cases hfirst : ∃ s, d.expr first.value = .string s
      · obtain ⟨s, hs⟩ := hfirst
        right
        rw [asObject?_tree_eq_none hd fun ps dangling he => hnot s ps dangling hs he]
        rfl
      · left
        cases hf : d.expr first.value with
        | string s => exact absurd ⟨s, hf⟩ hfirst
        | _ => rfl
  · next elements dangling hnot he =>
    -- any other number of elements
    refine ⟨⟨_, _, he⟩, ?_⟩
    rw [he, Expr.map]
    rcases elements with _ | ⟨first, _ | ⟨second, _ | ⟨third, rest⟩⟩⟩
    · rfl
    · rfl
    · exact absurd rfl (hnot first second)
    · rfl
  · cases h

theorem blames_of_reportPluginsNamed {name : String}
    (h : e ∈ (d.reportPluginsNamed list name).errors) : (d.tree list).Blames d.path e := by
  simp only [reportPluginsNamed, malformedEntries, List.mem_map, List.mem_filter] at h
  obtain ⟨⟨entry, index⟩, ⟨hentry, hshape⟩, rfl⟩ := h
  have hlist := mem_operands_of_mem_entries (List.mem_of_getElem?
    (List.mem_zipIdx_iff_getElem?.mp hentry))
  cases hs : d.entryShape entry with
  | malformed =>
    obtain ⟨harray, hnot⟩ := isEntry_of_malformed hd hs
    exact (blames_unfit hd (.entry harray hnot)).operand (operand_tree hd hlist)
  | _ => simp [hs] at hshape

theorem blames_of_readTutorialEntry {entry : PluginEntry}
    (h : e ∈ (d.readTutorialEntry entry).errors) : (d.tree entry.options).Blames d.path e := by
  unfold readTutorialEntry at h
  cases ho : TutorialOptions.ofRecord (Record.decodeAll d.path (d.tree entry.options)).value with
  | ok options =>
    simp only [ho] at h
    exact Record.blames_of_decodeAll h
  | error problem =>
    simp only [ho, List.mem_append, List.mem_singleton] at h
    rcases h with h | rfl
    · exact Record.blames_of_decodeAll h
    · exact blames_unfit hd (.tutorial ho)

theorem blames_of_tutorials (h : e ∈ (d.tutorials list).errors) :
    (d.tree list).Blames d.path e := by
  simp only [tutorials, List.mem_append, List.mem_flatMap, List.mem_map] at h
  rcases h with h | ⟨r, ⟨entry, hentry, rfl⟩, hr⟩
  · exact blames_of_reportPluginsNamed hd h
  · exact blames_entry hd hentry (blames_of_readTutorialEntry hd hr)

theorem blames_of_docsPlugins (h : e ∈ (d.docsPlugins list).errors) :
    (d.tree list).Blames d.path e := by
  simp only [docsPlugins, List.mem_append, List.mem_flatMap, List.mem_map] at h
  rcases h with h | ⟨r, ⟨entry, hentry, rfl⟩, hr⟩
  · exact blames_of_reportPluginsNamed hd h
  · exact blames_entry hd hentry (blames_of_readDocsPlugin hd hr)

/-- A place without a tutorial has no location. -/
theorem blames_of_tutorial {index : Nat} (h : d.tutorial list index = .error e) :
    e.location? = none ∨ (d.tree list).Blames d.path e := by
  unfold tutorial at h
  split at h
  · cases h
    exact .inl rfl
  · next entry hfind =>
    right
    refine blames_entry hd (List.mem_of_find?_eq_some hfind) ?_
    rcases Result.error_of_bind h with hr | ⟨r, hr, h⟩
    · exact Record.blames_of_decode hr
    split at h
    · cases h
    · next problem ho =>
      cases h
      apply blames_unfit hd
      apply Tree.Unfit.tutorial
      rw [Record.decodeAll_of_decode hr]
      exact ho

theorem blames_of_readVersion {id version : String} (h : d.readVersion list id version = .error e) :
    e.location? = none ∨ (d.tree list).Blames d.path e := by
  rcases Result.error_of_bind h with hp | ⟨p, hp, h⟩
  · left
    unfold docsPlugin at hp
    split at hp
    · cases hp
    · cases hp
      rfl
  right
  cases hv : p.version? version with
  | none =>
    rw [hv] at h
    cases h
  | some entry =>
    simp only [hv] at h
    have hmem : entry ∈ p.versions := List.mem_of_find?_eq_some hv
    rw [docsPlugin_versions hp] at hmem
    obtain ⟨vs, properties, dangling, q, hvalue, he, hq, hbody⟩ := mem_versionEntries hmem
    have hoperand : entry.options ∈ (d.expr vs).operands := by
      rw [he]
      exact List.mem_filterMap.mpr ⟨q, hq, by rw [Property.value?, hbody]⟩
    have hb : (d.tree entry.options).Blames d.path e := by
      rcases Result.error_of_bind h with hr | ⟨_, -, h⟩
      · exact Record.blames_of_decode hr
      · cases h
    have hoptions := operand_tree hd (operand_of_value? hvalue)
    exact blames_entry hd (docsPlugin_entry hp)
      ((hb.operand (operand_tree hd hoperand)).operand hoptions)

end Reads

end Document

end SiteConfig
