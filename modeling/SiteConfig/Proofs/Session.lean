import SiteConfig.Proofs.Handles

/-!
Sessions on a config. In every session the plugin list is anchored in the script, so an edit that
puts a value into a slot changes the text of that slot and no other.
-/

namespace SiteConfig

namespace Editor
open Document SiteConfig.Tree Layout

theorem tutorial_entry {d : Document} {list : NodeId} {index : Nat} {o : TutorialOptions}
    (h : d.tutorial list index = .ok o) :
    ∃ entry first second dangling, (d.entries list)[index]? = some entry ∧
      d.expr entry = .array [first, second] dangling := by
  unfold Document.tutorial at h
  split at h
  · cases h
  · rename_i p hf
    obtain ⟨entry, first, second, dangling, hentry, he, -⟩ :=
      mem_pluginsNamed (List.mem_of_find?_eq_some hf)
    have hindex : p.index = index := by simpa using List.find?_some hf
    exact ⟨entry, first, second, dangling, hindex ▸ hentry, he⟩

/-- What each edit of a session that is made shows of itself in the text. -/
structure EditsLocally (e : Editor) : Prop where
  /-- A tutorial takes the place of an entry. -/
  tutorial : ∀ index o place e', e.setTutorial index o = (.ok place, e') → place < e.pluginCount →
    ∃ entry, (e.document.entries e.plugins)[place]? = some entry ∧
      Replaced e.render e'.render ((e.document.tree entry).layout 2 4)
        ((entryTree Tutorial.pluginName o.toRecord).layout 2 4)
  /-- The options of a version that is there are replaced. -/
  version : ∀ id version r e' p versions q, e.setVersion id version r = (.ok (), e') →
    e.docsPlugin id = .ok p →
    e.document.value? p.options versionsKey versionsProblem = .ok (some versions) →
    e.document.property? versions version = some q →
    ∃ k old, q.body = .assignment k old ∧
      Replaced e.render e'.render ((e.document.tree old).layout 5 (valueColumn 5 k))
        (r.encode.layout 5 (valueColumn 5 k))
  /-- A new version takes lines of its own behind the last one. -/
  newVersion : ∀ id version r e' p versions properties dangling,
    e.setVersion id version r = (.ok (), e') → e.docsPlugin id = .ok p →
    e.document.value? p.options versionsKey versionsProblem = .ok (some versions) →
    e.document.property? versions version = none →
    e.document.expr versions = .object properties dangling → properties ≠ [] →
    ∃ head lines tail,
      layoutProperties 5 false (properties.map e.document.propertyTree) = lines ++ "\n" ∧
      e.render = head ++ lines ++ "\n" ++ commentLines 5 true dangling ++ tail ∧
      e'.render = head ++ lines ++ "\n" ++
        (indent 5 ++ key ⟨version, .string⟩ ++ ": " ++
          r.encode.layout 5 (valueColumn 5 ⟨version, .string⟩) ++ ",\n") ++
        commentLines 5 true dangling ++ tail
  /-- The option that is there is replaced. -/
  onlyInclude : ∀ id names e' p q, e.setOnlyInclude id names = (.ok (), e') →
    e.docsPlugin id = .ok p → e.document.property? p.options onlyIncludeKey = some q →
    ∃ k old, q.body = .assignment k old ∧
      Replaced e.render e'.render ((e.document.tree old).layout 4 (valueColumn 4 k))
        ((Value.list (names.map .string)).encode.layout 4 (valueColumn 4 k))

variable {d : Document} {list : NodeId}

theorem replaced_setTutorial (h : d.Anchored list) {index : Option Nat} {o : TutorialOptions}
    {place : Nat} {d' : Document} (hok : d.perform (.setTutorial list index o) = (.ok place, d'))
    (hlt : place < d.pluginCount list) :
    ∃ entry, (d.entries list)[place]? = some entry ∧
      Replaced d.render d'.render ((d.tree entry).layout 2 4)
        ((entryTree Tutorial.pluginName o.toRecord).layout 2 4) := by
  rcases perform_setTutorial h.issued index o rfl with
    ⟨e, d'', hp, -⟩ | ⟨elements, dangling, he, hle, hread, hp⟩
  · rw [hp] at hok
    cases hok
  rw [hp] at hok
  cases hok
  have hcount := pluginCount_of_array he
  obtain ⟨old, hold⟩ := hread (by omega)
  obtain ⟨entry, first, second, dangling', hentry, harray⟩ := tutorial_entry hold
  obtain ⟨before, el, after, dangling'', he', hlen, hv⟩ := split_entries hentry
  have hlist : (d.tree el.value).isList := by
    rw [tree_isList h.sound.acyclic, hv, harray]
    rfl
  rcases putElement_cases hle with ⟨before', el', after', hsplit, hlen', hput⟩ | ⟨hlast, -⟩
  · obtain ⟨hel, hdangling⟩ := Expr.array.inj (he.symm.trans he')
    rw [hsplit] at hel
    obtain ⟨rfl, htail⟩ := List.append_inj hel (hlen'.trans hlen.symm)
    obtain ⟨rfl, rfl⟩ := List.cons.inj htail
    obtain ⟨column, hframed⟩ := h.framed .refl
    refine ⟨entry, hentry, ?_⟩
    simp only [hput, hdangling]
    rw [← hv]
    exact hframed.replaced_element h.sound he' hlist rfl
  · omega

/-- The versions object that is there takes a new version or has one replaced. -/
theorem graft_setVersion (h : d.Anchored list) {id version : String} {r : Record}
    {d' : Document} {p : DocsPlugin} {versions : NodeId}
    (hok : d.perform (.setVersion list id version r) = (.ok (), d'))
    (hplugin : d.docsPlugin list id = .ok p)
    (hversions : d.value? p.options versionsKey versionsProblem = .ok (some versions)) :
    (∃ column, d.Framed versions 4 column versions) ∧
    ∃ properties dangling found, d.expr versions = .object properties dangling ∧
      d.value? versions version (versionProblem version) = .ok found ∧
      d' = d.graft versions r.encode fun v =>
        .object (bind version .string v properties) dangling := by
  rcases perform_setVersion d list id version r with ⟨e, d'', hp, -⟩ | ⟨p', hp', hq⟩
  · rw [hp] at hok
    cases hok
  obtain rfl : p = p' := Except.ok.inj (hplugin.symm.trans hp')
  rw [hq] at hok
  rcases perform_putVersion h.sound (issued_of_docsPlugin h.sound hplugin) version r with
    ⟨e, d'', hp, -⟩ | ⟨d'', hput, hp⟩
  · rw [hp] at hok
    cases hok
  rw [hp] at hok
  cases hok
  rcases hput with ⟨x, properties, dangling, found, hv, he, hk, hd'⟩ | ⟨_, _, -, hv, -⟩
  · obtain rfl : versions = x := by simpa [hversions] using hv
    have hbelow : d.forest.Below p.options versions := .step .refl (operand_of_value? hversions)
    have hframed := h.framed_options hplugin hbelow
    exact ⟨hframed.value? h.sound hversions .refl, properties, dangling, found, he, hk, hd'⟩
  · rw [hversions] at hv
    cases hv

theorem replaced_setVersion (h : d.Anchored list) {id version : String} {r : Record}
    {d' : Document} {p : DocsPlugin} {versions : NodeId} {q : Property NodeId}
    (hok : d.perform (.setVersion list id version r) = (.ok (), d'))
    (hplugin : d.docsPlugin list id = .ok p)
    (hversions : d.value? p.options versionsKey versionsProblem = .ok (some versions))
    (hbound : d.property? versions version = some q) :
    ∃ k old, q.body = .assignment k old ∧
      Replaced d.render d'.render ((d.tree old).layout 5 (valueColumn 5 k))
        (r.encode.layout 5 (valueColumn 5 k)) := by
  obtain ⟨⟨column, hframed⟩, properties, dangling, found, he, hk, rfl⟩ :=
    graft_setVersion h hok hplugin hversions
  rcases bind_cases he hk .string with ⟨old, before, q', after, k, hq, -, rfl, hb, -, hput⟩ | ⟨hq, -⟩
  · obtain rfl : q = q' := by simpa [hbound] using hq
    refine ⟨k, old, hb, ?_⟩
    simp only [hput]
    exact hframed.replaced_property h.sound he hb
  · rw [hbound] at hq
    cases hq

theorem added_setVersion (h : d.Anchored list) {id version : String} {r : Record}
    {d' : Document} {p : DocsPlugin} {versions : NodeId} {properties : List (Property NodeId)}
    {dangling : List Comment} (hok : d.perform (.setVersion list id version r) = (.ok (), d'))
    (hplugin : d.docsPlugin list id = .ok p)
    (hversions : d.value? p.options versionsKey versionsProblem = .ok (some versions))
    (hnew : d.property? versions version = none)
    (he : d.expr versions = .object properties dangling) (hne : properties ≠ []) :
    ∃ head lines tail,
      layoutProperties 5 false (properties.map d.propertyTree) = lines ++ "\n" ∧
      d.render = head ++ lines ++ "\n" ++ commentLines 5 true dangling ++ tail ∧
      d'.render = head ++ lines ++ "\n" ++
        (indent 5 ++ key ⟨version, .string⟩ ++ ": " ++
          r.encode.layout 5 (valueColumn 5 ⟨version, .string⟩) ++ ",\n") ++
        commentLines 5 true dangling ++ tail := by
  obtain ⟨⟨column, hframed⟩, properties', dangling', found, he', hk, rfl⟩ :=
    graft_setVersion h hok hplugin hversions
  obtain ⟨rfl, rfl⟩ := Expr.object.inj (he.symm.trans he')
  rcases bind_cases he hk .string with ⟨old, before, q', after, k, hq, -⟩ | ⟨-, -, hput⟩
  · rw [hnew] at hq
    cases hq
  · have hmap : properties.map d.propertyTree ≠ [] := by simpa using hne
    obtain ⟨lines, hlines⟩ := layoutProperties_ends hmap 5 false
    obtain ⟨head, tail, hold, hadded⟩ := hframed.added_property (t := r.encode) h.sound he hne
      ⟨version, .string⟩
    refine ⟨head, lines, tail, hlines, ?_, ?_⟩
    · rw [hold, hlines]
      simp only [String.append_assoc]
    · simp only [hput]
      rw [hadded, hlines]
      simp only [String.append_assoc]

theorem replaced_setOnlyInclude (h : d.Anchored list) {id : String} {names : List String}
    {d' : Document} {p : DocsPlugin} {q : Property NodeId}
    (hok : d.perform (.setOnlyInclude list id names) = (.ok (), d'))
    (hplugin : d.docsPlugin list id = .ok p)
    (hbound : d.property? p.options onlyIncludeKey = some q) :
    ∃ k old, q.body = .assignment k old ∧
      Replaced d.render d'.render ((d.tree old).layout 4 (valueColumn 4 k))
        ((Value.list (names.map .string)).encode.layout 4 (valueColumn 4 k)) := by
  rcases perform_setOnlyInclude d list id names with ⟨e, d'', hp, -⟩ | ⟨p', hp', hq⟩
  · rw [hp] at hok
    cases hok
  obtain rfl : p = p' := Except.ok.inj (hplugin.symm.trans hp')
  rw [hq] at hok
  rcases perform_putOption (issued_of_docsPlugin h.sound hplugin) onlyIncludeKey
      (.list (names.map .string)) with
    ⟨e, d'', hp, -⟩ | ⟨properties, dangling, found, he, hv, hp⟩
  · rw [hp] at hok
    cases hok
  rw [hp] at hok
  cases hok
  rcases bind_cases he hv (PropertyKey.forName onlyIncludeKey).form with
    ⟨old, before, q', after, k, hq', -, rfl, hb, -, hput⟩ | ⟨hq', -⟩
  · obtain rfl : q = q' := by simpa [hbound] using hq'
    have hframed := h.framed_options hplugin .refl
    refine ⟨k, old, hb, ?_⟩
    simp only [hput]
    exact hframed.replaced_property h.sound he hb
  · rw [hbound] at hq'
    cases hq'

/-- In every session that a run of edits leads to, an edit that is made changes the text of its
slot and no other text. -/
theorem editsLocally_of_reached {e : Editor} (h : e.Reached) : e.EditsLocally where
  tutorial index o place e' hok hlt := by
    obtain ⟨hanswer, rfl⟩ := Prod.mk.inj hok
    exact replaced_setTutorial h.anchored (Prod.ext hanswer rfl) hlt
  version id version r e' p versions q hok hplugin hversions hbound := by
    obtain ⟨hanswer, rfl⟩ := Prod.mk.inj hok
    exact replaced_setVersion h.anchored (Prod.ext hanswer rfl) hplugin hversions hbound
  newVersion id version r e' p versions properties dangling hok hplugin hversions hnew he hne := by
    obtain ⟨hanswer, rfl⟩ := Prod.mk.inj hok
    exact added_setVersion h.anchored (Prod.ext hanswer rfl) hplugin hversions hnew he hne
  onlyInclude id names e' p q hok hplugin hbound := by
    obtain ⟨hanswer, rfl⟩ := Prod.mk.inj hok
    exact replaced_setOnlyInclude h.anchored (Prod.ext hanswer rfl) hplugin hbound

/-- A tutorial is added to an empty script, and then takes another title. -/
theorem editsLocally_of_reached_retitled :
    ∃ e, ofSource "" "a.js" = .ok e ∧
      (e.setTutorial none { title := "One" }).1 = .ok 0 ∧
      ((e.setTutorial none { title := "One" }).2.setTutorial (some 0) { title := "Two" }).1 = .ok 0 ∧
      (e.setTutorial none { title := "One" }).2.EditsLocally := by
  have h : ∃ e, ofDocument ⟨"a.js", {}, {}⟩ = .ok e := ⟨_, rfl⟩
  obtain ⟨e, he⟩ := h
  have hopened : ofSource "" "a.js" = .ok e := by
    rw [ofSource, ofSource_empty, ok_bind, he]
  refine ⟨e, hopened, ?_, ?_, editsLocally_of_reached (.setTutorial (.opened hopened) none _)⟩
  · cases he
    rfl
  · cases he
    rfl

end Editor

end SiteConfig
