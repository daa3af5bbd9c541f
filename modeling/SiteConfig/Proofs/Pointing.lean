import SiteConfig.Proofs.Offences
import SiteConfig.Proofs.Sentences

/-!
Where the problems of a config are located. Opening adds nodes that stand nowhere in the text, but
no problem is about one of them.
-/

namespace SiteConfig
open Script Document

/-! No two places of a text have the same position. -/

theorem Position.column_after (p : Position) (text : List Char) (h : text.count '\n' = 0) :
    p.column + text.length ≤ (p.after text).column := by
  induction text generalizing p with
  | nil => exact Nat.le_refl _
  | cons ch rest ih =>
    rw [List.count_eq_zero, List.mem_cons, not_or] at h
    have hnext : (p.next ch).column = p.column + ch.utf8Size := by
      rw [next, if_neg (Ne.symm h.1)]
    have hbehind := ih (p.next ch) (List.count_eq_zero.mpr h.2)
    have hsize := ch.utf8Size_pos
    rw [after_cons, List.length_cons]
    omega

theorem Position.eq_nil_of_after {p : Position} {text : List Char} (h : p.after text = p) :
    text = [] := by
  have hline := line_after p text
  rw [h, Nat.left_eq_add] at hline
  have hcolumn := p.column_after text hline
  rw [h] at hcolumn
  exact List.length_eq_zero_iff.mp (by omega)

theorem Script.Cursor.Reaches.unique {origin c d : Cursor} (hc : origin.Reaches c)
    (hd : origin.Reaches d) (htc : c.rest ≠ []) (htd : d.rest ≠ [])
    (h : c.position = d.position) : c = d := by
  obtain ⟨m, rfl⟩ := hc
  obtain ⟨n, rfl⟩ := hd
  -- the later place is so many characters behind the other
  have hbehind : ∀ {c : Cursor} {k : Nat}, c.rest ≠ [] → (c.forward k).position = c.position →
      k = 0 := by
    intro c k hrest hk
    have htake := Position.eq_nil_of_after hk
    rw [List.take_eq_nil_iff] at htake
    exact htake.resolve_right hrest
  rcases Nat.le_total m n with hmn | hmn
  · obtain ⟨k, rfl⟩ := Nat.exists_eq_add_of_le hmn
    rw [← Cursor.forward_forward] at h ⊢
    rw [hbehind htc h.symm, Cursor.forward_zero]
  · obtain ⟨k, rfl⟩ := Nat.exists_eq_add_of_le hmn
    rw [← Cursor.forward_forward] at h ⊢
    rw [hbehind htd h, Cursor.forward_zero]

/-- A part stands in one place only. -/
theorem Fragment.StandsAt.unique {x : Fragment} {origin c d : Cursor} (h : x.StandsAt origin c)
    (h' : x.StandsAt origin d) : c = d :=
  h.reaches.unique h'.reaches h.text h'.text
    (Option.some.inj (h.position.symm.trans h'.position))

/-- A part of an expression in the script. -/
def Program.Has (p : Program Tree) (x : Fragment) : Prop :=
  ∃ s ∈ p.statements, ∃ t, s.body = .expression t ∧ t.Has x

/-- The whole text is a script that has the part, and spells each part of it where its position
says; this one at `c`. -/
structure Fragment.StandsIn (x : Fragment) (source : String) (c : Cursor) : Prop
    extends x.StandsAt (.ofString source) c where
  script : ∃ p, Program.ofSource? source = some p ∧ Scripted (.ofString source) p ∧ p.Has x

/-- Each part of a tree stands in the text. -/
def Tree.StandsIn (t : Tree) (source : String) : Prop :=
  ∀ x, t.Has x → ∃ c, x.StandsIn source c

theorem Tree.StandsIn.operand {s t : Tree} {source : String} (h : t.StandsIn source)
    (hs : s ∈ t.expr.operands) : s.StandsIn source :=
  fun x hx => h x (.operand hs hx)

/-- Each part of a script that was read stands where its position says. -/
theorem Program.standsIn_ofSource {source : String} {p : Program Tree}
    (h : ofSource? source = some p) {s : Statement Tree} (hs : s ∈ p.statements) {t : Tree}
    (ht : s.body = .expression t) : t.StandsIn source := by
  have hread := h
  obtain ⟨⟨p', c⟩, hrun, rfl⟩ := Option.map_eq_some_iff.mp hread
  obtain ⟨pieces, c', hlisted, hend, rfl⟩ :=
    Scan.triple_iff.mp spec_programPieces _ rfl p' c hrun
  have hstands : t.Stands (.ofString source) := by
    apply hlisted.stands
    rw [← bodies_ofPieces, ← ht]
    exact List.mem_map_of_mem hs
  intro x hx
  obtain ⟨d, hd⟩ := hstands x hx
  exact ⟨d, hd, _, h, hlisted.scripted hend, s, hs, t, ht, hx⟩

/-- The text before a place gives its position. -/
theorem Script.Cursor.Reaches.before {source : String} {c : Cursor}
    (h : (Cursor.ofString source).Reaches c) :
    ∃ before, source.toList = before ++ c.rest ∧ c.position = Position.first.after before := by
  obtain ⟨n, rfl⟩ := h
  have hstart : ∃ mark, source.toList = mark ++ (Cursor.ofString source).rest ∧
      (Cursor.ofString source).position = Position.first.after mark := by
    unfold Cursor.ofString
    split
    · next rest hrest => exact ⟨['\ufeff'], hrest, rfl⟩
    · exact ⟨[], rfl, rfl⟩
  obtain ⟨mark, hsource, hposition⟩ := hstart
  refine ⟨mark ++ (Cursor.ofString source).rest.take n, ?_, ?_⟩
  · rw [hsource, List.append_assoc, Cursor.rest_forward, List.take_append_drop]
  · rw [Position.after_append, ← hposition]
    rfl

/-- The error is about this part of the script, and located where it starts in the text. -/
def ConfigError.PointsAt (e : ConfigError) (source path : String) (x : Fragment) : Prop :=
  x.Offends path e ∧ ∃ c before, x.StandsIn source c ∧
    source.toList = before ++ c.rest ∧
    e.location? = some ⟨path, some (Position.first.after before)⟩

/-- The error is about a part of the tree, if it has a location at all. -/
def ConfigError.PointsInto (e : ConfigError) (source path : String) (t : Tree) : Prop :=
  e.location? = none ∨ ∃ x, t.Has x ∧ e.PointsAt source path x

theorem Fragment.Offends.location {x : Fragment} {path : String} {e : ConfigError}
    (h : x.Offends path e) : e.location? = some ⟨path, x.position⟩ := by
  cases h <;> rfl

theorem Fragment.Offends.pointsAt {source path : String} {e : ConfigError} {t : Tree} {x : Fragment}
    (h : x.Offends path e) (ht : t.StandsIn source) (hx : t.Has x) :
    e.PointsAt source path x := by
  obtain ⟨c, hc⟩ := ht x hx
  obtain ⟨before, hbefore, hposition⟩ := hc.reaches.before
  refine ⟨h, c, before, hc, hbefore, ?_⟩
  rw [h.location, hc.position, hposition]

theorem Tree.Blames.pointsInto {source path : String} {e : ConfigError} {t : Tree}
    (h : t.Blames path e) (ht : t.StandsIn source) : e.PointsInto source path t := by
  obtain ⟨x, hx, hoffends⟩ := h
  exact .inr ⟨x, hx, hoffends.pointsAt ht hx⟩

/-! Decoding a tree that opening has added to. -/

/-- The problem of an answer. -/
def problemOf {α : Type} : Result α → List ConfigError
  | .ok _ => []
  | .error e => [e]

theorem mem_problemOf {α : Type} {r : Result α} {e : ConfigError} :
    e ∈ problemOf r ↔ r = .error e := by
  cases r <;> simp [problemOf, eq_comm]

namespace Tree

variable {path : String}

/-- The problems of reading a tree as a value, as options, and as far as its options can be read. -/
def problems (path : String) (t : Tree) : List ConfigError :=
  problemOf (Value.decode path t) ++ problemOf (Record.decode path t) ++
    (Record.decodeAll path t).errors

theorem mem_problems {t : Tree} {e : ConfigError} :
    e ∈ t.problems path ↔ Value.decode path t = .error e ∨ Record.decode path t = .error e ∨
      e ∈ (Record.decodeAll path t).errors := by
  simp [problems, mem_problemOf]

theorem blames_of_problems {t : Tree} {e : ConfigError} (h : e ∈ t.problems path) :
    t.Blames path e := by
  rcases mem_problems.mp h with h | h | h
  · exact Value.blames_of_decode t h
  · exact Record.blames_of_decode h
  · exact Record.blames_of_decodeAll h

/-- An assignment is no option, whatever is assigned. -/
theorem blames_assignment {position : Option Position} (left right : Tree) {left' right' : Tree}
    {e : ConfigError} (h : e ∈ (node position (.assignment left' right')).problems path) :
    (node position (.assignment left right)).Blames path e := by
  have hkind : (node position (.assignment left right)).Unreadable
      (Value.kindProblem (.assignment left right)) := .code rfl
  have hrecord : (node position (.assignment left right)).Unfit path Record.objectProblem :=
    .record rfl
  rcases mem_problems.mp h with h | h | h
  · cases h
    exact (Fragment.Offends.unreadable hkind).blames
  · cases h
    exact (Fragment.Offends.unfit hrecord).blames
  · cases List.mem_singleton.mp h
    exact (Fragment.Offends.unfit hrecord).blames

theorem decodeProperties_concat {q : Property Tree} {entry : String × Value}
    (hq : Record.decodeProperty path q = .ok entry) (properties : List (Property Tree)) :
    Value.decodeProperties path (properties ++ [q]) =
      (Value.decodeProperties path properties).map (· ++ [entry]) := by
  induction properties with
  | nil =>
    obtain ⟨body, position, trivia⟩ := q
    have hq : Value.decodeBody path position body = .ok entry := hq
    simp only [List.nil_append, Value.decodeProperties, hq]
    rfl
  | cons p rest ih =>
    obtain ⟨body, position, trivia⟩ := p
    rw [List.cons_append, Value.decodeProperties, Value.decodeProperties, ih]
    cases Value.decodeBody path position body with
    | error e => rfl
    | ok v => cases Value.decodeProperties path rest <;> rfl

/-- A property that is an option adds no problem. -/
theorem blames_object {position : Option Position} {properties : List (Property Tree)}
    {q : Property Tree} {entry : String × Value} {dangling : List Comment} {e : ConfigError}
    (hq : Record.decodeProperty path q = .ok entry)
    (h : e ∈ (node position (.object (properties ++ [q]) dangling)).problems path) :
    (node position (.object properties dangling)).Blames path e := by
  have hproperties : ∀ e, Value.decodeProperties path (properties ++ [q]) = .error e →
      (node position (.object properties dangling)).Blames path e := by
    intro e h
    rw [decodeProperties_concat hq] at h
    cases hd : Value.decodeProperties path properties with
    | ok entries => rw [hd] at h; cases h
    | error e' =>
      rw [hd] at h
      cases h
      obtain ⟨p, hp, hb⟩ := Value.blames_of_decodeProperties properties hd
      exact hb.member rfl hp
  rcases mem_problems.mp h with h | h | h
  · rw [Value.decode, Value.decodeExpr] at h
    cases hd : Value.decodeProperties path (properties ++ [q]) with
    | ok entries => rw [hd] at h; cases h
    | error e' =>
      rw [hd] at h
      cases h
      exact hproperties _ hd
  · simp only [Record.decode, expr, Expr.asObject?] at h
    cases hd : Value.decodeProperties path (properties ++ [q]) with
    | ok entries => rw [hd] at h; cases h
    | error e' =>
      rw [hd] at h
      cases h
      exact hproperties _ hd
  · apply Record.blames_of_decodeAll
    simpa [Record.decodeAll, expr, Expr.asObject?, hq] using h

end Tree

namespace Document
open Forest

variable {d d' : Document} {config list x : NodeId} {path : String}

/-- A node of the script. -/
def Holds (d : Document) (x : NodeId) : Prop :=
  ∃ root ∈ d.roots, d.forest.Below root x

theorem Holds.issued (hd : d.Sound) (h : d.Holds x) : d.Issued x := by
  obtain ⟨root, hroot, hbelow⟩ := h
  exact hd.below_lt (Forest.Sound.issued hd root hroot) hbelow

theorem Holds.operand {o : NodeId} (h : d.Holds x) (ho : o ∈ (d.expr x).operands) : d.Holds o := by
  obtain ⟨root, hroot, hbelow⟩ := h
  exact ⟨root, hroot, .step hbelow ho⟩

theorem Holds.of_export (h : d.firstExport? = some config) : d.Holds config := by
  obtain ⟨s, hs, hexported⟩ := List.exists_of_findSome?_eq_some h
  obtain ⟨root, left, hbody, hroot, -⟩ := exported?_eq_some hexported
  exact ⟨root, List.mem_filterMap.mpr ⟨s, hs, by rw [Statement.root?, hbody]⟩,
    .step .refl (by simp [show d.forest.expr root = _ from hroot, Expr.operands])⟩

/-- A node of a script that was read stands in its text. -/
theorem Holds.standsIn {source : String} (h : ofSource source path = .ok d) (hx : d.Holds x) :
    (d.tree x).StandsIn source := by
  have hd := sound_ofSource h
  obtain ⟨root, hroot, hbelow⟩ := hx
  induction hbelow with
  | refl =>
    unfold ofSource at h
    split at h
    · next p hp =>
      cases h
      obtain ⟨s, hs, hbody⟩ := List.mem_filterMap.mp hroot
      have hmem := List.mem_map_of_mem (f := (ofProgram path p).statementTree) hs
      have htree : (ofProgram path p).program.statements.map (ofProgram path p).statementTree =
          p.statements := congrArg Program.statements (toProgram_ofProgram path p)
      rw [htree] at hmem
      apply Program.standsIn_ofSource hp hmem
      rcases s with ⟨body | body, trivia⟩
      · cases hbody
        rfl
      · cases hbody
    · cases h
  | step _ ho ih => exact ih.operand (operand_tree hd ho)

/-- Only the statement that exports a value is above it. -/
theorem above_export (hd : d.Sound) {root left : NodeId} (hroot : root ∈ d.roots)
    (he : d.expr root = .assignment left config) (hx : d.forest.Below x config) (hne : x ≠ config) :
    x = root := by
  have hconfig : config ∈ (d.expr root).operands := by simp [he, Expr.operands]
  cases hx with
  | refl => exact absurd rfl hne
  | @step y _ hxy hy =>
    obtain rfl : y = root :=
      hd.unshared.parent_unique _ _ _ (Nat.zero_le _) (Nat.zero_le _) hy hconfig
    cases hxy with
    | refl => rfl
    | @step z _ _ hz => exact absurd hz (hd.unshared.roots_free y hroot z (Nat.zero_le _))

/-- A plugin list that is added brings no problem. -/
theorem blames_withPlugins (hd : d.Sound) (hexport : d.firstExport? = some config)
    {properties : List (Property NodeId)} {dangling : List Comment}
    (he : d.expr config = .object properties dangling) (hx : d.Issued x) {e : ConfigError}
    (h : e ∈ ((d.withPlugins config properties dangling).tree x).problems path) :
    (d.tree x).Blames path e := by
  obtain ⟨hr, hlist, hconfig⟩ := tree_withPlugins hd he
  by_cases hbelow : d.forest.Below x config
  · by_cases hxc : x = config
    · rw [hxc, hconfig] at h
      rw [hxc, tree_of_expr hd, he, map_object]
      have hlist : Record.decodeProperty path
          (.ofKey (.forName pluginsKey) (.made (.array [] []))) = .ok (pluginsKey, .list []) := rfl
      exact Tree.blames_object hlist h
    · obtain ⟨s, hs, hexported⟩ := List.exists_of_findSome?_eq_some hexport
      obtain ⟨root, left, hbody, hroot, -⟩ := exported?_eq_some hexported
      have hmem : root ∈ d.roots := List.mem_filterMap.mpr ⟨s, hs, by rw [Statement.root?, hbody]⟩
      obtain rfl := above_export hd hmem hroot hbelow hxc
      rw [hr.tree_right hd hroot .refl] at h
      rw [tree_of_expr hd, hroot]
      exact Tree.blames_assignment _ _ h
  · rw [hr.tree_of_not_below hd hx hbelow] at h
    exact Tree.blames_of_problems h

/-- An empty plugin list is found, or one is added. -/
theorem plugins_eq_ok (hc : d.Issued config) (h : d.perform (.plugins config) = (.ok list, d')) :
    (d' = d ∧ list ∈ (d.expr config).operands) ∨
      ∃ properties dangling, d.expr config = .object properties dangling ∧
        d' = d.withPlugins config properties dangling ∧
        list = (d.plant (.made (.array [] []))).1 := by
  obtain ⟨e, d'', hout, -⟩ | ⟨id, elements, dangling, hvalue, -, hout⟩ |
    ⟨properties, dangling, he, -, hout⟩ := perform_plugins hc
  · rw [hout] at h
    cases h
  · rw [hout] at h
    cases h
    exact .inl ⟨rfl, operand_of_value? hvalue⟩
  · rw [hout] at h
    cases h
    exact .inr ⟨properties, dangling, he, rfl, rfl⟩

/-- The problem of a plugin list is about the property that it is the value of, or about that
value. -/
theorem blames_of_plugins (hd : d.Sound) {properties : List (Property NodeId)}
    {dangling : List Comment} (he : d.expr config = .object properties dangling) {e : ConfigError}
    (h : (d.perform (.plugins config)).1 = .error e) : (d.tree config).Blames d.path e := by
  cases hv : d.value? config pluginsKey pluginsProblem with
  | error e' =>
    simp only [Change.plugins, perform_bind, perform_ask, hv] at h
    cases h
    exact blames_of_value? hd hv (by simp [lookups])
  | ok found =>
    cases found with
    | some id =>
      simp only [Change.plugins, perform_bind, perform_ask, hv, perform_get] at h
      split at h
      · cases h
      · next hid =>
        cases h
        refine (blames_unfit hd (.plugins ?_)).operand (operand_tree hd (operand_of_value? hv))
        rw [Bool.eq_false_iff, ne_eq, isArray_tree hd]
        rintro ⟨elements, dangling, harray⟩
        exact hid _ _ harray
    | none =>
      have hnone : properties.find? (·.binds pluginsKey) = none := by
        rw [value?_of_object he] at hv
        split at hv
        · assumption
        · split at hv <;> cases hv
      rw [perform_plugins_of_none he hnone] at h
      cases h

/-! Reads of the plugin list. -/

/-- A read of the plugin list meets this problem. -/
inductive ReadProblem (d : Document) (list : NodeId) : ConfigError → Prop where
  | pluginsNamed {name : String} {e : ConfigError}
    (h : e ∈ (d.reportPluginsNamed list name).errors) : ReadProblem d list e
  | tutorials {e : ConfigError} (h : e ∈ (d.tutorials list).errors) : ReadProblem d list e
  | tutorial {index : Nat} {e : ConfigError} (h : d.tutorial list index = .error e) :
    ReadProblem d list e
  | docsPlugins {e : ConfigError} (h : e ∈ (d.docsPlugins list).errors) : ReadProblem d list e
  | version {id version : String} {e : ConfigError}
    (h : d.readVersion list id version = .error e) : ReadProblem d list e

namespace ReadProblem

variable {e : ConfigError}

theorem blames (h : d.ReadProblem list e) (hd : d.Sound) :
    e.location? = none ∨ (d.tree list).Blames d.path e := by
  cases h with
  | pluginsNamed h => exact .inr (blames_of_reportPluginsNamed hd h)
  | tutorials h => exact .inr (blames_of_tutorials hd h)
  | tutorial h => exact blames_of_tutorial hd h
  | docsPlugins h => exact .inr (blames_of_docsPlugins hd h)
  | version h => exact blames_of_readVersion hd h

/-- Nothing is wrong with an empty list. -/
theorem of_empty (h : d.ReadProblem list e) (hlist : d.entries list = []) : e.location? = none := by
  have hnamed : ∀ name, d.reportPluginsNamed list name = ⟨[], []⟩ := by
    intro name
    simp [reportPluginsNamed, Document.pluginsNamed, malformedEntries, hlist]
  cases h with
  | @pluginsNamed name _ h => simp [hnamed] at h
  | tutorials h => simp [Document.tutorials, hnamed] at h
  | tutorial h =>
    have hnone : d.pluginsNamed list Tutorial.pluginName = [] := by
      simp [Document.pluginsNamed, hlist]
    simp only [Document.tutorial, hnone, List.find?_nil] at h
    cases h
    rfl
  | docsPlugins h => simp [Document.docsPlugins, hnamed] at h
  | version h =>
    simp only [readVersion, docsPlugin, Document.docsPlugins, hnamed] at h
    cases h
    rfl

end ReadProblem

/-- A new plugin list is empty. -/
theorem entries_withPlugins (hd : d.Sound) {properties : List (Property NodeId)}
    {dangling : List Comment} (he : d.expr config = .object properties dangling) :
    (d.withPlugins config properties dangling).entries (d.plant (.made (.array [] []))).1 = [] := by
  obtain ⟨hr, hlist, -⟩ := tree_withPlugins hd he
  have hexpr : ((d.withPlugins config properties dangling).expr
      (d.plant (.made (.array [] []))).1).map (d.withPlugins config properties dangling).tree =
        .array [] [] := by
    rw [Document.tree, tree_eq hr.acyclic] at hlist
    exact congrArg Tree.expr hlist
  unfold entries
  split
  · next elements dangling harray =>
    rw [harray, Expr.map, Expr.array.injEq, List.map_eq_nil_iff] at hexpr
    rw [hexpr.1]
    rfl
  · rfl

/-- What opening adds is not below a node that was there. -/
theorem tree_appendExport_old (hd : d.Sound) (hx : d.Issued x) :
    d.appendExport.2.tree x = d.tree x ∧ d.appendExport.2.Issued x ∧
      ¬ d.appendExport.2.forest.Below x d.appendExport.1 := by
  have hkept := (strayed_appendExport d).unaltered hd hx
  refine ⟨hkept.tree, (strayed_appendExport d).issued hx, fun hbelow => ?_⟩
  have hold : ∀ y, d.appendExport.2.forest.Below x y → d.forest.Below x y := by
    intro y hy
    induction hy with
    | refl => exact .refl
    | @step y _ _ ho ih =>
      have hexpr : d.appendExport.2.forest.expr y = d.forest.expr y :=
        congrArg Node.expr (hkept.kept y ih)
      exact .step ih (hexpr ▸ ho)
  have hlt : d.appendExport.1.index < d.forest.size := hd.below_lt hx (hold _ hbelow)
  have htarget := (planted d.forest exportTarget).size_le
  have hobject := (planted (d.forest.plant exportTarget).2 (.made (.object [] []))).fresh
    d.appendExport.1 (List.mem_singleton_self _)
  omega

theorem ok_of_toOption {α : Type} {r : Result α} {a : α} (h : r.toOption = some a) : r = .ok a := by
  cases r with
  | error e => cases h
  | ok b => rw [Option.some.inj h]

end Document

end SiteConfig
