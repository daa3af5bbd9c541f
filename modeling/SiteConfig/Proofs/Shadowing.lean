import SiteConfig.Proofs.Keys
import SiteConfig.Proofs.Pointing

/-!
A key that a member of an object binds is not bound a second time: where the member is a pair its
value is replaced, and any other member makes the edit fail.
-/

namespace SiteConfig
open Script

namespace Document

variable {d : Document} {x : NodeId} {key : String}

/-- An object has a member of this name. -/
def HasMember (d : Document) (x : NodeId) (name : Option String) : Prop :=
  ∃ properties dangling p, d.expr x = .object properties dangling ∧ p ∈ properties ∧ p.name? = name

/-- The step was refused, or a pair with this key has been given the tree for its value. -/
def Replaces (d : Document) (x : NodeId) (key : String) (t : Tree) (out : Result Unit × Document) :
    Prop :=
  Refused d out ∨ ∃ before p after k old dangling,
    d.expr x = .object (before ++ p :: after) dangling ∧ p.body = .assignment k old ∧
      k.name = key ∧ out = (.ok (), d.graft x t fun v =>
        .object (before ++ { p with body := .assignment k v } :: after) dangling)

/-- No edit adds a property with this key to the object. -/
structure Guarded (d : Document) (x : NodeId) (key : String) : Prop where
  option : ∀ value, d.Replaces x key value.encode (d.perform (.putOption x key value))
  version : ∀ options, d.value? options versionsKey versionsProblem = .ok (some x) →
    ∀ r, d.Replaces x key r.encode (d.perform (.putVersion options key r))
  /-- The list that is there is found. -/
  plugins : key = pluginsKey → Refused d (d.perform (.plugins x)) ∨
    ∃ list, d.value? x key pluginsProblem = .ok (some list) ∧ d.perform (.plugins x) = (.ok list, d)
  /-- A version is written into the object that is there. -/
  versions : key = versionsKey → ∀ version r, Refused d (d.perform (.putVersion x version r)) ∨
    ∃ id properties dangling, d.value? x key versionsProblem = .ok (some id) ∧
      d.expr id = .object properties dangling ∧
      d.perform (.putVersion x version r) = (.ok (), d.graft id r.encode fun v =>
        .object (bind version .string v properties) dangling)

namespace HasMember

theorem issued {name : Option String} (h : d.HasMember x name) : d.Issued x := by
  obtain ⟨properties, dangling, p, he, -⟩ := h
  exact issued_of_expr_object he

theorem property? (h : d.HasMember x (some key)) : d.property? x key ≠ none := by
  obtain ⟨properties, dangling, p, he, hp, hname⟩ := h
  intro hnone
  simp only [Document.property?, he, List.find?_eq_none] at hnone
  exact hnone p hp (by simp [Property.binds, hname])

/-- A member that binds the key is found. -/
theorem value? (h : d.HasMember x (some key)) (problem : String) :
    d.value? x key problem ≠ .ok none := by
  intro hnone
  obtain ⟨p, hp⟩ := Option.ne_none_iff_exists'.mp h.property?
  simp only [Document.value?, hp] at hnone
  split at hnone <;> cases hnone

theorem replaces (h : d.HasMember x (some key)) {properties : List (Property NodeId)}
    {dangling : List Comment} {problem : String} {found : Option NodeId}
    (he : d.expr x = .object properties dangling) (hv : d.value? x key problem = .ok found)
    (form : KeyForm) (t : Tree) : d.Replaces x key t
      (.ok (), d.graft x t fun v => .object (bind key form v properties) dangling) := by
  rcases bind_cases he hv form with ⟨old, before, p, after, k, -, -, rfl, hp, hk, hbind⟩ |
    ⟨hnone, -, -⟩
  · refine .inr ⟨before, p, after, k, old, dangling, he, hp, hk, ?_⟩
    simp only [hbind]
  · exact absurd hnone h.property?

theorem guarded (hd : d.Sound) (h : d.HasMember x (some key)) : d.Guarded x key where
  -- whatever looks for the key finds this member and adds none
  option value := by
    rcases perform_putOption h.issued key value with hrefused |
      ⟨properties, dangling, found, he, hv, hout⟩
    · exact .inl hrefused
    · rw [hout]
      exact h.replaces he hv _ _
  version options hversions r := by
    obtain ⟨ps, ds, -, -, -, hoptions, -⟩ := value?_eq_some hversions
    rcases perform_putVersion hd (issued_of_expr_object hoptions) key r with hrefused |
      ⟨d', hput, hout⟩
    · exact .inl hrefused
    · rw [hout]
      obtain ⟨id, properties, dangling, found, hid, he, hv, rfl⟩ | ⟨-, -, -, hnone, -⟩ := hput
      · rw [hversions] at hid
        cases hid
        exact h.replaces he hv _ _
      · rw [hversions] at hnone
        cases hnone
  plugins hkey := by
    subst hkey
    rcases perform_plugins h.issued with hrefused | ⟨list, elements, dangling, hv, -, hout⟩ |
      ⟨-, -, -, hnone, -⟩
    · exact .inl hrefused
    · exact .inr ⟨list, hv, hout⟩
    · exact absurd hnone (h.value? _)
  versions hkey version r := by
    subst hkey
    rcases perform_putVersion hd h.issued version r with hrefused | ⟨d', hput, hout⟩
    · exact .inl hrefused
    · obtain ⟨id, properties, dangling, found, hid, he, -, rfl⟩ | ⟨-, -, -, hnone, -⟩ := hput
      · exact .inr ⟨id, properties, dangling, hid, he, hout⟩
      · exact absurd hnone (h.value? _)

end HasMember

theorem name?_propertyTree (d : Document) (p : Property NodeId) :
    (d.propertyTree p).name? = p.name? := by
  obtain ⟨body, position, trivia⟩ := p
  cases body <;> rfl

/-- An accessor is written from one place to a later one. -/
theorem written_getter {c m c' : Cursor} {n : Nat} (hget : Scan.wordOf c.rest = some "get")
    (hm : Apart (c.forward 3) m) (hname : Lexeme.name m.rest = some n)
    (hparen : (m.forward n).rest.head? = some '(') (h : ((m.forward n).forward 1).Reaches c') :
    Written c (.method [("get", (c.forward 3).slice m)] (.word (m.slice (m.forward n)))
      ((m.forward n).slice (m.forward n))) (.irregular .method (c.slice c')) c' :=
  .method (.word .none hget (by decide) hm) (.name (.word hname)) (.refl _) hparen h

theorem object_of_read {source path : String} {e : Expr NodeId}
    (h : ((ofSource source path).toOption.bind fun d =>
      d.firstExport?.bind fun config => some (d.expr config)) = some e) :
    ∃ d config, ofSource source path = .ok d ∧ d.Holds config ∧ d.expr config = e := by
  obtain ⟨d, hd, h⟩ := Option.bind_eq_some_iff.mp h
  obtain ⟨config, hconfig, h⟩ := Option.bind_eq_some_iff.mp h
  exact ⟨d, config, ok_of_toOption hd, .of_export hconfig, Option.some.inj h⟩

/-- Each member of an object is written in the text where its position says. What it is written as
binds the key that the member is read to have, and no edit shadows that key on any object with a
member of this name. -/
theorem unshadowed {source path : String} (h : ofSource source path = .ok d) (hx : d.Holds x)
    {properties : List (Property NodeId)} {dangling : List Comment}
    (he : d.expr x = .object properties dangling) {p : Property NodeId} (hp : p ∈ properties) :
    (∃ c form c', (Cursor.ofString source).Reaches c ∧ p.position = some c.position ∧
      Written c form (d.propertyTree p).body c') ∧
    ∀ c (form : MemberForm) c', Written c form (d.propertyTree p).body c' → form.isPlain →
      p.name? = form.bound? ∧ ∀ key, form.bound? = some key →
        ∀ d' y, Sound d' → d'.HasMember y p.name? → d'.Guarded y key := by
  refine ⟨?_, fun c form c' hform hplain => ?_⟩
  · have hmember : (d.tree x).Has (.member (d.propertyTree p)) :=
      .member (asObject?_tree (sound_ofSource h) he) (List.mem_map_of_mem hp)
    obtain ⟨c, ⟨hreaches, -, hposition, c', -, form, hwritten⟩, -⟩ := hx.standsIn h _ hmember
    exact ⟨c, form, c', hreaches, hposition, hwritten⟩
  · have hname : p.name? = form.bound? := by
      rw [← name?_propertyTree d, hform.name?_eq hplain]
    refine ⟨hname, fun key hkey d' y hd' hmember => ?_⟩
    rw [hname, hkey] at hmember
    exact hmember.guarded hd'

set_option maxRecDepth 10000 in
theorem unshadowed_getter : ∃ d config p,
    ofSource "module.exports = \x7b get plugins() \x7b\x7d \x7d;" "a.js" = .ok d ∧
    d.Holds config ∧ d.expr config = .object [p] [] ∧ p.name? = some pluginsKey ∧
    d.Guarded config pluginsKey := by
  have hread : ((ofSource "module.exports = \x7b get plugins() \x7b\x7d \x7d;"
      "a.js").toOption.bind fun d => d.firstExport?.bind fun config => some (d.expr config)) =
      some (.object [⟨.irregular .method "get plugins() \x7b\x7d", some ⟨1, 20⟩, {}⟩] []) := by cbv
  obtain ⟨d, config, hok, hholds, he⟩ := object_of_read hread
  obtain ⟨-, hnames⟩ := unshadowed hok hholds he (List.mem_singleton_self _)
  have hform := written_getter (c := .ofString "get plugins() \x7b\x7d") (n := 7)
    (m := (Cursor.ofString "get plugins() \x7b\x7d").forward 4) (by cbv)
    ⟨[], .blank rfl rfl (.none _)⟩ (by cbv) rfl (.forward _ 4)
  obtain ⟨hname, hguarded⟩ := hnames _ _ _ hform (by cbv)
  have hbound : (NameForm.word "plugins").bound? = some pluginsKey := by cbv
  exact ⟨d, config, _, hok, hholds, he, hname.trans hbound, hguarded _ hbound d config
    (sound_ofSource hok) ⟨_, _, _, he, List.mem_singleton_self _, rfl⟩⟩

set_option maxRecDepth 10000 in
/-- A line break in place of the space hides the name behind it. -/
theorem not_unshadowed : ∃ d config p c form c',
    ofSource "module.exports = \x7b get\nplugins() \x7b\x7d \x7d;" "a.js" = .ok d ∧
    d.Holds config ∧ d.expr config = .object [p] [] ∧
    Written c form (d.propertyTree p).body c' ∧ form.bound? = some pluginsKey ∧
    p.name? = some "get" ∧
    ∃ list, d.perform (.plugins config) = (.ok list, d.withPlugins config [p] []) := by
  have hread : ((ofSource "module.exports = \x7b get\nplugins() \x7b\x7d \x7d;"
      "a.js").toOption.bind fun d => d.firstExport?.bind fun config => some (d.expr config)) =
      some (.object [⟨.irregular .method "get\nplugins() \x7b\x7d", some ⟨1, 20⟩, {}⟩] []) := by cbv
  obtain ⟨d, config, hok, hholds, he⟩ := object_of_read hread
  have hform := written_getter (c := .ofString "get\nplugins() \x7b\x7d") (n := 7)
    (m := (Cursor.ofString "get\nplugins() \x7b\x7d").forward 4) (by cbv)
    ⟨[], .blank rfl rfl (.none _)⟩ (by cbv) rfl (.forward _ 4)
  have hbound : (NameForm.word "plugins").bound? = some pluginsKey := by cbv
  have hname : IrregularShape.method.name? "get\nplugins() \x7b\x7d" = some "get" := by
    have hdrop : IrregularShape.dropModifiers (Text.trimStart "get\nplugins() \x7b\x7d".toList) =
        "get\nplugins() \x7b\x7d".toList := IrregularShape.dropModifiers_of_none rfl
    rw [IrregularShape.name?, IrregularShape.methodName?_eq, hdrop]
    rfl
  refine ⟨d, config, _, _, _, _, hok, hholds, he, hform, hbound, hname, _,
    perform_plugins_of_none he ?_⟩
  rw [List.find?_cons_of_neg]
  · rfl
  · simp [Property.binds, Property.name?, hname, pluginsKey]

end Document

end SiteConfig
