import SiteConfig.Proofs.Binding
import SiteConfig.Proofs.Reopening

/-!
Opening a config. It succeeds if what is exported and the plugins in it are of the right kind, and
adds no more than what is missing: an exported object behind the last statement, and a plugin list
behind the last property of the object.
-/

namespace SiteConfig
open Document

/-! What is exported, as it is seen in a tree. -/

namespace Tree

def isExportTarget (t : Tree) : Bool :=
  match t.expr with
  | .member object property => property = "exports" && object.expr.asIdentifier? = some "module"
  | _ => false

def isArray (t : Tree) : Bool :=
  match t.expr with
  | .array .. => true
  | _ => false

end Tree

/-- The value that a statement exports. -/
def Statement.exported? (s : Statement Tree) : Option Tree :=
  match s.body with
  | .expression t =>
    match t.expr with
    | .assignment left right => if left.isExportTarget then some right else none
    | _ => none
  | .verbatim _ => none

/-- The first property with the key of the plugins, if there is one, is a `key: value` and its value
an array. -/
def AreOpenable (properties : List (Property Tree)) : Prop :=
  ∀ q ∈ properties.find? (·.binds pluginsKey), ∃ list ∈ q.value?, list.isArray

namespace Program

def exported? (p : Program Tree) : Option Tree :=
  p.statements.findSome? (·.exported?)

/-- What is exported first, if anything is, is an object and can be opened. -/
def IsOpenable (p : Program Tree) : Prop :=
  ∀ t ∈ p.exported?, ∃ properties dangling,
    t.expr = .object properties dangling ∧ AreOpenable properties

/-- `p` with an export behind the last statement if it has none. -/
inductive Located (p : Program Tree) : Program Tree → Prop where
  | found {t : Tree} (h : p.exported? = some t) : Located p p
  | added (h : p.exported? = none) : Located p { p with
      statements := p.statements ++ [{
        body := .expression (.made (.assignment exportTarget (.made (.object [] []))))
        trivia := { spaced := !p.statements.isEmpty } }] }

/-- `p` with a list of plugins behind the last property of the exported object if it has none. -/
inductive Listed (p : Program Tree) : Program Tree → Prop where
  | found {t : Tree} {properties : List (Property Tree)} {dangling : List Comment}
    {q : Property Tree} (h : p.exported? = some t) (ht : t.expr = .object properties dangling)
    (hq : properties.find? (·.binds pluginsKey) = some q) : Listed p p
  | added {before after : List (Statement Tree)} {left : Tree} {position position' : Option Position}
    {trivia : Trivia} {properties : List (Property Tree)} {dangling : List Comment}
    (hs : p.statements = before ++
      ⟨.expression (.node position (.assignment left (.node position'
        (.object properties dangling)))), trivia⟩ :: after)
    (hbefore : ∀ s ∈ before, s.exported? = none) (hleft : left.isExportTarget)
    (hnone : properties.find? (·.binds pluginsKey) = none) :
    Listed p { p with statements := before ++
      ⟨.expression (.node position (.assignment left (.node position'
        (.object (properties ++ [.ofKey (.forName pluginsKey) (.made (.array [] []))])
          dangling)))), trivia⟩ :: after }

/-- `p'` is `p` with an export and a list of plugins, each added only if it is missing. -/
def Opened (p p' : Program Tree) : Prop :=
  ∃ m, p.Located m ∧ m.Listed p'

end Program

namespace Document
open Forest SiteConfig.Tree

variable {d d' : Document} {config list x : NodeId}

section Seen

variable (hd : d.Sound)

include hd

theorem expr_tree (x : NodeId) : (d.tree x).expr = (d.expr x).map d.tree := by
  rw [tree_of_expr hd]
  rfl

theorem isExportTarget_tree (x : NodeId) : (d.tree x).isExportTarget = d.isExportTarget x := by
  unfold Tree.isExportTarget isExportTarget
  rw [expr_tree hd]
  cases d.expr x with
  | member object property =>
    have hobject : (d.tree object).expr.asIdentifier? = (d.expr object).asIdentifier? := by
      rw [expr_tree hd]
      cases d.expr object <;> rfl
    simp only [Expr.map, hobject]
  | _ => rfl

theorem isArray_tree (x : NodeId) :
    (d.tree x).isArray ↔ ∃ elements dangling, d.expr x = .array elements dangling := by
  unfold Tree.isArray
  rw [expr_tree hd]
  cases d.expr x <;> simp [Expr.map]

theorem exported?_statementTree (s : Statement NodeId) :
    (d.statementTree s).exported? = (d.exported? s).map d.tree := by
  rcases s with ⟨root | text, trivia⟩
  · simp only [Statement.exported?, statementTree, exported?, expr_tree hd]
    cases d.expr root with
    | assignment left right =>
      simp only [Expr.map, isExportTarget_tree hd]
      split <;> rfl
    | _ => rfl
  · rfl

theorem exported?_toProgram : d.toProgram.exported? = d.firstExport?.map d.tree := by
  rw [Program.exported?, toProgram, List.findSome?_map, firstExport?, List.map_findSome?]
  congr 1
  funext s
  exact exported?_statementTree hd s

end Seen

theorem find?_propertyTree (d : Document) (key : String) (properties : List (Property NodeId)) :
    (properties.map d.propertyTree).find? (·.binds key) =
      (properties.find? (·.binds key)).map d.propertyTree := by
  rw [List.find?_map]
  congr 2
  funext p
  exact binds_propertyTree d key p

theorem value?_propertyTree (d : Document) (p : Property NodeId) :
    (d.propertyTree p).value? = p.value?.map d.tree := by
  rcases p with ⟨_ | _, position, trivia⟩ <;> rfl

/-! The export that is added. -/

theorem tree_appendExport (hd : d.Sound) :
    ∃ root, d.appendExport.2.program.statements = d.program.statements ++
        [⟨.expression root, { spaced := !d.program.statements.isEmpty }⟩] ∧
      d.appendExport.2.tree root = .made (.assignment exportTarget (.made (.object [] []))) := by
  obtain ⟨base, target, root, hs, hroot, htarget, hbase, hobject⟩ := nodes_appendExport d
  have hnode : ∀ x, d.appendExport.2.tree x =
      .node (d.appendExport.2.forest.node x).position
        ((d.appendExport.2.forest.node x).expr.map d.appendExport.2.tree) :=
    tree_of_expr (sound_appendExport hd)
  refine ⟨root, hs, ?_⟩
  rw [hnode root, hroot, Expr.map, hnode target, htarget, Expr.map, hnode base, hbase,
    hnode d.appendExport.1, hobject]
  rfl

theorem located_appendExport (hd : d.Sound) (h : d.firstExport? = none) :
    d.toProgram.Located d.appendExport.2.toProgram := by
  obtain ⟨root, hs, hroot⟩ := tree_appendExport hd
  have hold : d.program.statements.map d.appendExport.2.statementTree =
      d.program.statements.map d.statementTree := (strayed_appendExport d).statements hd
  have hprogram : d.appendExport.2.toProgram = { d.toProgram with
      statements := d.toProgram.statements ++ [{
        body := .expression (.made (.assignment exportTarget (.made (.object [] []))))
        trivia := { spaced := !d.toProgram.statements.isEmpty } }] } := by
    simp only [toProgram, hs, List.map_append, hold, List.map_singleton, statementTree, hroot,
      List.isEmpty_map]
    rfl
  rw [hprogram]
  apply Program.Located.added
  rw [exported?_toProgram hd, h]
  rfl

/-! The list of plugins that is added. -/

theorem areOpenable_map (hd : d.Sound) (properties : List (Property NodeId)) :
    AreOpenable (properties.map d.propertyTree) ↔
      ∀ q ∈ properties.find? (·.binds pluginsKey), ∃ id ∈ q.value?, ∃ elements dangling,
        d.expr id = .array elements dangling := by
  unfold AreOpenable
  rw [find?_propertyTree]
  cases properties.find? (·.binds pluginsKey) with
  | none => simp
  | some q => simp [value?_propertyTree, isArray_tree hd]

/-- What the plugin list is added to. -/
theorem tree_withPlugins (hd : d.Sound) {properties : List (Property NodeId)}
    {dangling : List Comment} (he : d.expr config = .object properties dangling) :
    d.Rewritten (d.withPlugins config properties dangling) config ∧
    (d.withPlugins config properties dangling).tree (d.plant (.made (.array [] []))).1 =
      .made (.array [] []) ∧
    (d.withPlugins config properties dangling).tree config =
      .node (d.forest.position config) (.object
        (properties.map d.propertyTree ++ [.ofKey (.forName pluginsKey) (.made (.array [] []))])
        dangling) := by
  have hissued := issued_of_expr_object he
  have hg : ∀ v, Grafted (d.expr config).operands
      (Expr.object (properties ++ [.ofKey (.forName pluginsKey) v]) dangling).operands v :=
    fun v => he ▸ grafted_append properties dangling _ v
  have hold : properties.map (d.withPlugins config properties dangling).propertyTree =
      properties.map d.propertyTree :=
    properties_congr fun x hx => tree_graft_operand hd hissued hg (by rw [he]; exact hx)
  have hlist : (d.withPlugins config properties dangling).tree
      (d.plant (.made (.array [] []))).1 = .made (.array [] []) := tree_graft_new hd hissued hg
  refine ⟨rewritten_graft hd hissued hg rfl, hlist, ?_⟩
  rw [withPlugins, tree_graft_self hd hissued hg, map_object, List.map_append]
  rw [withPlugins] at hold hlist
  rw [hold, List.map_singleton, Property.ofKey, propertyTree_assignment, hlist]
  rfl

theorem listed_withPlugins (hd : d.Sound) (hexport : d.firstExport? = some config)
    {properties : List (Property NodeId)} {dangling : List Comment}
    (he : d.expr config = .object properties dangling)
    (hnone : properties.find? (·.binds pluginsKey) = none) :
    d.toProgram.Listed (d.withPlugins config properties dangling).toProgram := by
  obtain ⟨before, s, after, hs, hexported, hbefore⟩ := List.findSome?_eq_some_iff.mp hexport
  obtain ⟨root, left, hbody, hroot, hleft⟩ := exported?_eq_some hexported
  obtain ⟨hr, -, hconfig'⟩ := tree_withPlugins hd he
  have hbelow : d.forest.Below root config := by
    apply Below.head (o := config) _ .refl
    rw [show d.forest.expr root = .assignment left config from hroot]
    simp [Expr.operands]
  have hconfig : d.tree config =
      .node (d.forest.position config) (.object (properties.map d.propertyTree) dangling) := by
    rw [tree_of_expr hd, he, map_object]
  rw [hr.toProgram hd hs hbody hbelow, hr.tree_right hd hroot .refl, hconfig']
  apply Program.Listed.added (p := d.toProgram)
  · rw [toProgram, hs, List.map_append, List.map_cons, statementTree, hbody]
    simp only [tree_of_expr hd root, hroot, Expr.map, hconfig]
  · intro t ht
    obtain ⟨s, hs, rfl⟩ := List.mem_map.mp ht
    rw [exported?_statementTree hd, hbefore s hs]
    rfl
  · rw [isExportTarget_tree hd]
    exact hleft
  · rw [find?_propertyTree, hnone]
    rfl

theorem perform_plugins_of_none {properties : List (Property NodeId)} {dangling : List Comment}
    (he : d.expr config = .object properties dangling)
    (hnone : properties.find? (·.binds pluginsKey) = none) :
    d.perform (.plugins config) =
      (.ok (d.plant (.made (.array [] []))).1, d.withPlugins config properties dangling) := by
  have hvalue : d.value? config pluginsKey pluginsProblem = .ok none := by
    rw [value?_of_object he, hnone]
  have hexpr := (Strayed.plant d (.made (.array [] []))).expr (issued_of_expr_object he)
  simp only [Change.plugins, perform_bind, perform_ask, hvalue, perform_plant, perform_get, hexpr,
    he, perform_modify, perform_pure, appendProperty]
  rfl

/-- The plugin list is found or added, or what stands in its place is refused. -/
theorem plugins_cases (hd : d.Sound) (hexport : d.firstExport? = some config)
    {properties : List (Property NodeId)} {dangling : List Comment}
    (he : d.expr config = .object properties dangling) :
    (∃ list d', d.perform (.plugins config) = (.ok list, d') ∧
      AreOpenable (properties.map d.propertyTree) ∧ d.toProgram.Listed d'.toProgram) ∨
    ∃ e d', d.perform (.plugins config) = (.error e, d') ∧
      ¬ AreOpenable (properties.map d.propertyTree) := by
  rw [areOpenable_map hd]
  cases hfind : properties.find? (·.binds pluginsKey) with
  | none =>
    exact .inl ⟨_, _, perform_plugins_of_none he hfind, by simp,
      listed_withPlugins hd hexport he hfind⟩
  | some q =>
    have hvalue := value?_of_object he pluginsKey pluginsProblem
    rw [hfind] at hvalue
    have hlisted : d.toProgram.Listed d.toProgram := by
      have hobject : (d.tree config).expr =
          .object (properties.map d.propertyTree) dangling := by
        rw [expr_tree hd, he, map_object]
      refine .found ?_ hobject (q := d.propertyTree q) ?_
      · rw [exported?_toProgram hd, hexport]
        rfl
      · rw [find?_propertyTree, hfind]
        rfl
    simp only [Change.plugins, perform_bind, perform_ask, hvalue]
    cases hq : q.value? with
    | none => exact .inr ⟨_, _, rfl, by simp [hq]⟩
    | some id =>
      simp only [perform_bind, perform_get]
      cases hid : d.expr id with
      | array elements dangling' =>
        exact .inl ⟨id, d, rfl, by simp [hq, hid], hlisted⟩
      | _ => exact .inr ⟨_, _, rfl, by simp [hq, hid]⟩

/-! The two steps. -/

theorem isOpenable_toProgram (hd : d.Sound) :
    d.toProgram.IsOpenable ↔ ∀ id ∈ d.firstExport?, ∃ properties dangling,
      d.expr id = .object properties dangling ∧ AreOpenable (properties.map d.propertyTree) := by
  unfold Program.IsOpenable
  rw [exported?_toProgram hd]
  cases d.firstExport? with
  | none => simp
  | some id =>
    simp only [Option.map_some, Option.mem_some_iff, forall_eq', expr_tree hd]
    cases d.expr id with
    | object properties dangling => simp [map_object]
    | _ => simp [Expr.map]

/-- Both handles are found or what they stand for is added, or what stands in its place is
refused. -/
theorem handles_cases (hd : d.Sound) :
    (∃ config list d', d.perform Editor.handles = (.ok (config, list), d') ∧
      d.toProgram.IsOpenable ∧ d.toProgram.Opened d'.toProgram) ∨
    ∃ e d', d.perform Editor.handles = (.error e, d') ∧ ¬ d.toProgram.IsOpenable := by
  rw [isOpenable_toProgram hd]
  simp only [Editor.handles, Change.locate, perform_bind, perform_get]
  cases hexport : d.firstExport? with
  | none =>
    -- the object of the appended statement is empty, so a list can always be added to it
    have hd' := sound_appendExport hd
    have hlocated := located_appendExport hd hexport
    obtain ⟨-, -, -, hobject⟩ := exported?_appendExport d
    obtain ⟨list, d', hp, -, hlisted⟩ | ⟨e, d', -, hnot⟩ :=
      plugins_cases hd' (firstExport?_appendExport hd hexport) hobject
    · simp only [perform_modifyGet, hp, perform_pure]
      exact .inl ⟨_, _, _, rfl, by simp, _, hlocated, hlisted⟩
    · exact absurd (by simp [AreOpenable]) hnot
  | some id =>
    have hlocated : d.toProgram.Located d.toProgram :=
      .found (t := d.tree id) (by rw [exported?_toProgram hd, hexport]; rfl)
    cases he : d.expr id with
    | object properties dangling =>
      simp only [he, perform_pure]
      obtain ⟨list, d', hp, hopen, hlisted⟩ | ⟨e, d', hp, hnot⟩ := plugins_cases hd hexport he
      · simp only [hp]
        exact .inl ⟨_, _, _, rfl, by simpa [he] using hopen, _, hlocated, hlisted⟩
      · simp only [hp]
        exact .inr ⟨_, _, rfl, by simpa [he] using hnot⟩
    | _ =>
      simp only [he, perform_throw]
      exact .inr ⟨_, _, rfl, by simp [he]⟩

end Document

namespace Editor

/-- A script that can be read is opened if what it exports is an object, and the plugins in it are
an array, as far as the script has them. Then no more is added than what is missing. -/
theorem opens_ofSource {source path : String} {p : Program Tree}
    (h : Program.ofSource? source = some p) :
    ((∃ e, ofSource source path = .ok e) ↔ p.IsOpenable) ∧
      ∀ e, ofSource source path = .ok e → p.Opened e.document.toProgram := by
  have hsource : Document.ofSource source path = .ok (ofProgram path p) := by
    rw [Document.ofSource, h]
  have htree := toProgram_ofProgram path p
  have hopen : ofSource source path = ofDocument (ofProgram path p) := by
    rw [ofSource, hsource]
    rfl
  rw [hopen, ofDocument]
  obtain ⟨config, list, d', hp, hopenable, hopened⟩ | ⟨e, d', hp, hnot⟩ :=
    handles_cases (sound_ofSource hsource)
  · rw [htree] at hopenable hopened
    rw [hp]
    refine ⟨⟨fun _ => hopenable, fun _ => ⟨_, rfl⟩⟩, ?_⟩
    rintro e ⟨⟩
    exact hopened
  · rw [htree] at hnot
    rw [hp]
    constructor
    · constructor
      · rintro ⟨e, he⟩
        cases he
      · intro h
        exact absurd h hnot
    · intro e he
      cases he

set_option maxRecDepth 10000 in
theorem opens_ofSource_unlisted : ∃ p,
    Program.ofSource? "module.exports = \x7b title: 'A' \x7d // a" = some p ∧
    ((∃ e, ofSource "module.exports = \x7b title: 'A' \x7d // a" "a.js" = .ok e) ↔ p.IsOpenable) ∧
    (∀ e, ofSource "module.exports = \x7b title: 'A' \x7d // a" "a.js" = .ok e →
      p.Opened e.document.toProgram) ∧
    p.IsOpenable := by
  have hopen : ((Program.ofSource? "module.exports = \x7b title: 'A' \x7d // a").map fun p =>
      match ofSource "module.exports = \x7b title: 'A' \x7d // a" "a.js" with
      | .ok _ => true
      | .error _ => false) = some true := by cbv
  obtain ⟨p, hp, hopen⟩ := Option.map_eq_some_iff.mp hopen
  have hopens := @opens_ofSource _ "a.js" _ hp
  refine ⟨p, hp, hopens.1, hopens.2, hopens.1.mp ?_⟩
  split at hopen
  · exact ⟨_, by assumption⟩
  · cases hopen

end Editor

end SiteConfig
