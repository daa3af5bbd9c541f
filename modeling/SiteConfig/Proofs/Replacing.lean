import SiteConfig.Proofs.Opening
import SiteConfig.Proofs.Placing
import SiteConfig.Proofs.Walks

/-!
Writing a plugin entry. The entry at the place is the one that was written, and all else in the
script is as it was.
-/

namespace SiteConfig

/-! One subtree in the place of another. -/

namespace Tree

/-- `t'` is `t` with `new` in the place of a subtree `old`. -/
inductive Swapped (old new : Tree) : Tree → Tree → Prop where
  | here : Swapped old new old new
  | member {t t' : Tree} (h : Swapped old new t t') (position : Option Position)
    (property : String) :
    Swapped old new (.node position (.member t property)) (.node position (.member t' property))
  | left {t t' : Tree} (h : Swapped old new t t') (position : Option Position) (right : Tree) :
    Swapped old new (.node position (.assignment t right)) (.node position (.assignment t' right))
  | right {t t' : Tree} (h : Swapped old new t t') (position : Option Position) (left : Tree) :
    Swapped old new (.node position (.assignment left t)) (.node position (.assignment left t'))
  | callee {t t' : Tree} (h : Swapped old new t t') (position : Option Position)
    (arguments : List Tree) :
    Swapped old new (.node position (.call t arguments)) (.node position (.call t' arguments))
  | argument {t t' : Tree} (h : Swapped old new t t') (position : Option Position) (callee : Tree)
    (before after : List Tree) :
    Swapped old new (.node position (.call callee (before ++ t :: after)))
      (.node position (.call callee (before ++ t' :: after)))
  | element {t t' : Tree} (h : Swapped old new t t') (position : Option Position)
    (before after : List (Element Tree)) (trivia : Trivia) (dangling : List Comment) :
    Swapped old new (.node position (.array (before ++ ⟨t, trivia⟩ :: after) dangling))
      (.node position (.array (before ++ ⟨t', trivia⟩ :: after) dangling))
  | property {t t' : Tree} (h : Swapped old new t t') (position : Option Position)
    (before after : List (Property Tree)) (key : PropertyKey) (position' : Option Position)
    (trivia : Trivia) (dangling : List Comment) :
    Swapped old new
      (.node position (.object (before ++ ⟨.assignment key t, position', trivia⟩ :: after) dangling))
      (.node position (.object (before ++ ⟨.assignment key t', position', trivia⟩ :: after) dangling))

theorem Swapped.trans {old new t t' u u' : Tree} (h : Swapped old new t t')
    (h' : Swapped t t' u u') : Swapped old new u u' := by
  induction h' with
  | here => exact h
  | member _ position property ih => exact .member ih position property
  | left _ position right ih => exact .left ih position right
  | right _ position left ih => exact .right ih position left
  | callee _ position arguments ih => exact .callee ih position arguments
  | argument _ position callee before after ih => exact .argument ih position callee before after
  | element _ position before after trivia dangling ih =>
    exact .element ih position before after trivia dangling
  | property _ position before after key position' trivia dangling ih =>
    exact .property ih position before after key position' trivia dangling

end Tree

/-- `p'` is `p` with `new` in the place of a subtree `old` of one of its statements. -/
inductive Program.Swapped (old new : Tree) (p : Program Tree) : Program Tree → Prop where
  | statement {before after : List (Statement Tree)} {t t' : Tree} {trivia : Trivia}
    (hs : p.statements = before ++ ⟨.expression t, trivia⟩ :: after) (h : Tree.Swapped old new t t') :
    Swapped old new p { p with statements := before ++ ⟨.expression t', trivia⟩ :: after }

namespace Document
open Forest SiteConfig.Tree

variable {d d' : Document} {list o x y z : NodeId}

namespace Rewritten

variable (h : d.Rewritten d' o) (hd : d.Sound)

include h hd

/-- Where one operand of a node changes, the tree changes there only. -/
theorem swapped_operand (hz : z ∈ (d.expr y).operands) (hzo : d.forest.Below z o) :
    Swapped (d.tree z) (d'.tree z) (d.tree y) (d'.tree y) := by
  have hy := h.tree_above hd hz hzo
  have hold := tree_of_expr hd y
  -- beside `z` no operand lies above `o`, so it is as it was
  cases he : d.expr y with
  | string | boolean | identifier | verbatim => simp [he, Expr.operands] at hz
  | member object property =>
    obtain rfl : z = object := by simpa [he, Expr.operands] using hz
    rw [hy, hold, he]
    exact .member .here _ property
  | assignment left right =>
    rw [hy, hold, he, Expr.map, Expr.map]
    obtain rfl | rfl : z = left ∨ z = right := by simpa [he, Expr.operands] using hz
    · have hops : (d.expr y).operands = [] ++ z :: [right] := by rw [he]; rfl
      rw [h.tree_sibling hd hops hzo (s := right) (by simp)]
      exact .left .here _ _
    · have hops : (d.expr y).operands = [left] ++ z :: [] := by rw [he]; rfl
      rw [h.tree_sibling hd hops hzo (s := left) (by simp)]
      exact .right .here _ _
  | call callee arguments =>
    rw [hy, hold, he, Expr.map, Expr.map]
    obtain rfl | hz : z = callee ∨ z ∈ arguments := by simpa [he, Expr.operands] using hz
    · have hops : (d.expr y).operands = [] ++ z :: arguments := by rw [he]; rfl
      have hkept : arguments.map d'.tree = arguments.map d.tree :=
        List.map_congr_left fun s hs => h.tree_sibling hd hops hzo hs
      rw [hkept]
      exact .callee .here _ _
    · obtain ⟨before, after, rfl⟩ := List.append_of_mem hz
      have hops : (d.expr y).operands = (callee :: before) ++ z :: after := by rw [he]; rfl
      have hkept := fun s hs => h.tree_sibling hd hops hzo (s := s) hs
      simp only [List.cons_append, List.forall_mem_cons, List.forall_mem_append] at hkept
      rw [hkept.1, List.map_append, List.map_append, List.map_cons, List.map_cons,
        List.map_congr_left hkept.2.1, List.map_congr_left hkept.2.2]
      exact .argument .here _ _ _ _
  | array elements dangling =>
    obtain ⟨e, hmem, rfl⟩ : ∃ e ∈ elements, e.value = z := by simpa [he, Expr.operands] using hz
    obtain ⟨before, after, rfl⟩ := List.append_of_mem hmem
    rw [h.tree_element hd he hzo, hold, he, map_array, List.map_append, List.map_cons]
    exact .element .here _ _ _ e.trivia dangling
  | object properties dangling =>
    obtain ⟨p, hmem, hp⟩ : ∃ p ∈ properties, p.value? = some z := by
      simpa [he, Expr.operands] using hz
    obtain ⟨before, after, rfl⟩ := List.append_of_mem hmem
    obtain ⟨k, hbody⟩ := Property.body_of_value? hp
    rw [h.tree_property hd he hbody hzo, hold, he, map_object, List.map_append, List.map_cons,
      propertyTree, hbody]
    exact .property .here _ _ _ k p.position p.trivia dangling

/-- Above a node, trees change in the place of its tree only. -/
theorem swapped (hx : d.forest.Below x y) (hyo : d.forest.Below y o) :
    Swapped (d.tree y) (d'.tree y) (d.tree x) (d'.tree x) := by
  induction hx with
  | refl => exact .here
  | step _ hz ih => exact (h.swapped_operand hd hz hyo).trans (ih (hyo.head hz))

/-- So does the script, if the node is in it. -/
theorem program_swapped (hx : x ∈ d.roots) (hxo : d.forest.Below x o) :
    Program.Swapped (d.tree o) (d'.tree o) d.toProgram d'.toProgram := by
  obtain ⟨s, hs, hroot⟩ := List.mem_filterMap.mp hx
  obtain ⟨before, after, hsplit⟩ := List.append_of_mem hs
  have hbody : s.body = .expression x := by
    unfold Statement.root? at hroot
    split at hroot
    · cases hroot
      assumption
    · cases hroot
  rw [h.toProgram hd hsplit hbody hxo]
  apply Program.Swapped.statement (p := d.toProgram) _ (h.swapped hd hxo .refl)
  show d.program.statements.map d.statementTree = _
  rw [hsplit, List.map_append, List.map_cons, statementTree, hbody]

/-- A node that is not in the script is not seen. -/
theorem toProgram_eq (hno : ∀ x ∈ d.roots, ¬ d.forest.Below x o) : d'.toProgram = d.toProgram := by
  have hkept : d.program.statements.map d'.statementTree =
      d.program.statements.map d.statementTree := by
    refine List.map_congr_left fun s hs => ?_
    rcases s with ⟨value | text, trivia⟩
    · have hroot : value ∈ d.roots := List.mem_filterMap.mpr ⟨_, hs, rfl⟩
      simp only [statementTree, h.tree_of_not_below hd (hd.issued value hroot) (hno value hroot)]
    · rfl
  simp only [Document.toProgram, h.program, hkept]

end Rewritten

/-! The entries of the plugins, by their names. -/

namespace Spliced

variable {place : Nat} {left gone right : List (NodeId × Nat)} {new : NodeId}

/-- The entries of a plugin that stand at places with a property. -/
theorem filter_named {es : List (NodeId × Nat)} {p : Nat → Bool} {b : Bool} (name : String)
    (h : ∀ e ∈ es, p e.2 = b) :
    (es.filterMap (d.namedAt name)).filter (fun q => p q.index) =
      if b then es.filterMap (d.namedAt name) else [] := by
  have hindex : ∀ q ∈ es.filterMap (d.namedAt name), p q.index = b := by
    intro q hq
    obtain ⟨e, he, hnamed⟩ := List.mem_filterMap.mp hq
    rw [(namedAt_eq_some hnamed).1, h e he]
  cases b with
  | true => exact List.filter_eq_self.mpr hindex
  | false =>
    apply List.filter_eq_nil_iff.mpr
    intro q hq
    rw [hindex q hq]
    exact Bool.false_ne_true

/-- Of each plugin, the entries on both sides of the place are found as before, and the new one
between them if it is one of them. -/
theorem pluginsNamed (h : Spliced d d' list place left gone right new) {name : String}
    {options : NodeId} (hshape : d'.entryShape new = .entry name options) (other : String) :
    d'.pluginsNamed list other =
      (d.pluginsNamed list other).filter (fun q => decide (q.index < place)) ++
        (if name = other then [⟨place, options⟩] else []) ++
        (d.pluginsNamed list other).filter (fun q => decide (place < q.index)) := by
  have hgone : ∀ e ∈ gone, e.2 = place := by
    rcases h.gone with rfl | ⟨old, rfl⟩ <;> simp
  have hleft := Inserted.named_of_unaltered (fun e he => (h.lower e he).2) other
  have hright := Inserted.named_of_unaltered (fun e he => (h.upper e he).2) other
  have hnew : [(new, place)].filterMap (d'.namedAt other) =
      if name = other then [⟨place, options⟩] else [] := by
    rw [List.filterMap_cons, namedAt_of_shape hshape]
    by_cases hname : name = other
    · simp [hname]
    · simp [hname]
  have hnot : ∀ e ∈ gone, decide (e.2 < place) = false ∧ decide (place < e.2) = false :=
    fun e he => by simp [hgone e he]
  have hbelow : ∀ e ∈ right, decide (e.2 < place) = false :=
    fun e he => decide_eq_false (Nat.lt_asymm (h.upper e he).1)
  have habove : ∀ e ∈ left, decide (place < e.2) = false :=
    fun e he => decide_eq_false (Nat.lt_asymm (h.lower e he).1)
  rw [pluginsNamed_eq, pluginsNamed_eq, h.before, h.after]
  simp only [List.filterMap_append, List.filter_append, hnew, hleft, hright]
  rw [filter_named (p := fun i => decide (i < place)) other fun e he =>
      decide_eq_true (h.lower e he).1,
    filter_named (p := fun i => decide (i < place)) other fun e he => (hnot e he).1,
    filter_named (p := fun i => decide (i < place)) other hbelow,
    filter_named (p := fun i => decide (place < i)) other habove,
    filter_named (p := fun i => decide (place < i)) other fun e he => (hnot e he).2,
    filter_named (p := fun i => decide (place < i)) other fun e he =>
      decide_eq_true (h.upper e he).1]
  simp

end Spliced

theorem getElem?_putElement {α : Type} {value : α} {index j : Nat} {elements : List (Element α)}
    (hle : index ≤ elements.length) (hj : j ≠ index) :
    (putElement value index elements)[j]? = elements[j]? := by
  induction elements generalizing index j with
  | nil =>
    obtain rfl : index = 0 := by simpa using hle
    cases j with
    | zero => exact absurd rfl hj
    | succ j => rfl
  | cons e rest ih =>
    cases index with
    | zero =>
      cases j with
      | zero => exact absurd rfl hj
      | succ j => rfl
    | succ index =>
      cases j with
      | zero => rfl
      | succ j => exact ih (Nat.le_of_succ_le_succ hle) fun h => hj (congrArg _ h)

/-- What the entry at `index` of a list was replaced by, and what is left as it was. -/
structure EntryWritten (d d' : Document) (list : NodeId) (index : Nat) (name : String)
    (r : Record) : Prop where
  path : d'.path = d.path
  count : d'.pluginCount list = max (d.pluginCount list) (index + 1)
  /-- The entry has the name and the options that were given, and no others. -/
  entry : ∃ entry options, (d'.entries list)[index]? = some entry ∧
    d'.entryShape entry = .entry name options ∧ d'.tree options = r.encode ∧
    ((Value.record r).Keyed → Record.decode d'.path (d'.tree options) = .ok r) ∧
    ∀ other, d'.pluginsNamed list other =
      (d.pluginsNamed list other).filter (fun q => decide (q.index < index)) ++
        (if name = other then [⟨index, options⟩] else []) ++
        (d.pluginsNamed list other).filter (fun q => decide (index < q.index))
  /-- The comments around the entry before it stay, and so do all other elements. -/
  elements : ∃ before gone after trivia position dangling,
    d.tree list = .node position (.array (before ++ gone ++ after) dangling) ∧
    before.length = index ∧
    (gone = [] ∧ after = [] ∧ trivia = {} ∨ ∃ t, gone = [⟨t, trivia⟩]) ∧
    d'.tree list =
      .node position (.array (before ++ ⟨entryTree name r, trivia⟩ :: after) dangling)
  handles : ∀ j, j ≠ index → (d'.entries list)[j]? = (d.entries list)[j]?
  /-- No other node changes, and no tree that the list is not below. -/
  nodes : ∀ x, d.Issued x → x ≠ list → d'.forest.node x = d.forest.node x
  trees : ∀ x, d.Issued x → ¬ d.forest.Below x list → d'.tree x = d.tree x
  program : d'.program = d.program
  /-- If the list is in the script, the script changes in the place of the list only. -/
  script : ∀ x ∈ d.roots, d.forest.Below x list →
    Program.Swapped (d.tree list) (d'.tree list) d.toProgram d'.toProgram
  unseen : (∀ x ∈ d.roots, ¬ d.forest.Below x list) → d'.toProgram = d.toProgram

section Graft

variable (hd : d.Sound) {elements : List (Element NodeId)} {dangling : List Comment} {index : Nat}
  (he : d.expr list = .array elements dangling) (hle : index ≤ elements.length)

include hd he hle

/-- The list with another tree for the element at `index`, or with one more element. -/
theorem tree_putElement (t : Tree) :
    ∃ before gone after trivia, d.tree list =
        .node (d.forest.position list) (.array (before ++ gone ++ after) dangling) ∧
      before.length = index ∧
      (gone = [] ∧ after = [] ∧ trivia = {} ∨ ∃ t, gone = [⟨t, trivia⟩]) ∧
      (d.graft list t fun v => .array (putElement v index elements) dangling).tree list =
        .node (d.forest.position list) (.array (before ++ ⟨t, trivia⟩ :: after) dangling) := by
  have hlist := issued_of_expr_array he
  have hg : ∀ v, Grafted (d.expr list).operands
      (Expr.array (putElement v index elements) dangling).operands v :=
    fun v => he ▸ grafted_putElement hle dangling v
  have hself := tree_graft_self (t := t) hd hlist hg
  have hnew := tree_graft_new (t := t) hd hlist hg
  have hkept : ∀ s ∈ elements.map (·.value), (d.graft list t fun v =>
      .array (putElement v index elements) dangling).tree s = d.tree s := by
    intro s hs
    apply tree_graft_operand hd hlist hg
    rw [he]
    exact hs
  rw [tree_of_expr hd, he, map_array, hself]
  rcases putElement_cases hle with ⟨before, e, after, rfl, hlen, hput⟩ | ⟨hlen, hput⟩
  · simp only [List.map_append, List.map_cons, List.forall_mem_append,
      List.forall_mem_cons] at hkept
    refine ⟨before.map d.elementTree, [d.elementTree e], after.map d.elementTree, e.trivia,
      by simp, by simpa using hlen, .inr ⟨_, rfl⟩, ?_⟩
    rw [hput, map_array, List.map_append, List.map_cons, elementTree, hnew,
      elements_congr hkept.1, elements_congr hkept.2.2]
  · refine ⟨elements.map d.elementTree, [], [], {}, by simp, by simpa using hlen.symm,
      .inl ⟨rfl, rfl, rfl⟩, ?_⟩
    rw [hput, map_array, List.map_append, List.map_singleton, elementTree, hnew,
      elements_congr hkept]

theorem entryWritten_graft (name : String) (r : Record) :
    d.EntryWritten (d.graft list (entryTree name r) fun v =>
      .array (putElement v index elements) dangling) list index name r := by
  have hlist := issued_of_expr_array he
  have hg : ∀ v, Grafted (d.expr list).operands
      (Expr.array (putElement v index elements) dangling).operands v :=
    fun v => he ▸ grafted_putElement hle dangling v
  have hr : d.Rewritten (d.graft list (entryTree name r) fun v =>
      .array (putElement v index elements) dangling) list := rewritten_graft hd hlist hg rfl
  have hexpr := expr_graft hlist (entryTree name r) fun v =>
    .array (putElement v index elements) dangling
  obtain ⟨options, hshape, htree⟩ := entryShape_graft hlist name r fun v =>
    .array (putElement v index elements) dangling
  obtain ⟨left, gone, right, hspliced⟩ := spliced_graft hd he hle (entryTree name r)
  obtain ⟨before, old, after, trivia, helements⟩ := tree_putElement hd he hle (entryTree name r)
  have hentry : ((d.graft list (entryTree name r) fun v =>
      .array (putElement v index elements) dangling).entries list)[index]? =
        some (d.plant (entryTree name r)).1 := by
    apply List.mem_zipIdx_iff_getElem? (x := ((d.plant (entryTree name r)).1, index)).mp
    simp [hspliced.after]
  exact {
    path := rfl
    count := by
      rw [pluginCount_of_array he, pluginCount_of_array hexpr, length_putElement hle]
      split <;> omega
    entry := by
      refine ⟨_, options, hentry, hshape, htree, fun hkeyed => ?_, hspliced.pluginsNamed hshape⟩
      rw [htree]
      exact Record.decode_encode _ hkeyed
    elements := ⟨before, old, after, trivia, _, dangling, helements⟩
    handles := by
      intro j hj
      simp only [entries, hexpr, he, List.getElem?_map, getElem?_putElement hle hj]
    nodes := hr.kept
    trees := fun _ hx hno => hr.tree_of_not_below hd hx hno
    program := rfl
    script := fun _ hx hxl => hr.program_swapped hd hx hxl
    unseen := hr.toProgram_eq hd }

end Graft

/-- An entry is written exactly where the list has an entry or ends, and it takes the place of
nothing but the entry that was there. -/
theorem putEntry_replaces (hd : d.Tended) (hl : d.Issued list) (index : Nat) (name : String)
    (r : Record) :
    ((∃ d', d.perform (.putEntry list index name r) = (.ok (), d')) ↔
      ∃ elements dangling, d.expr list = .array elements dangling ∧ index ≤ elements.length) ∧
    ∀ d', d.perform (.putEntry list index name r) = (.ok (), d') →
      d.EntryWritten d' list index name r := by
  rcases perform_putEntry hl index name r with ⟨e, d', hp, -⟩ | ⟨elements, dangling, he, hle, hp⟩
  · refine ⟨⟨fun ⟨d'', h⟩ => ?_, fun ⟨elements, dangling, he, hle⟩ => ?_⟩, fun d'' h => ?_⟩
    · rw [hp] at h
      cases h
    · exact ⟨_, perform_putEntry_of_array he hle name r⟩
    · rw [hp] at h
      cases h
  · refine ⟨⟨fun _ => ⟨elements, dangling, he, hle⟩, fun _ => ⟨_, hp⟩⟩, ?_⟩
    intro d' h
    rw [hp] at h
    cases h
    exact entryWritten_graft hd.sound he hle name r

/-- The only entry of a list is replaced. -/
theorem putEntry_replaces_withEntry :
    let d := withEntry "x" [("old", .boolean true)]
    (∃ d', d.perform (.putEntry ⟨4⟩ 0 "y" [("new", .string "z")]) = (.ok (), d')) ∧
      ∀ d', d.perform (.putEntry ⟨4⟩ 0 "y" [("new", .string "z")]) = (.ok (), d') →
        d.EntryWritten d' ⟨4⟩ 0 "y" [("new", .string "z")] := by
  intro d
  have hissued : d.Issued ⟨4⟩ := by
    change 4 < 9
    decide
  have h := putEntry_replaces (reached_withEntry "x" [("old", .boolean true)]).tended hissued 0 "y"
    [("new", .string "z")]
  exact ⟨h.1.mpr ⟨_, _, rfl, Nat.zero_le _⟩, h.2⟩

end Document

end SiteConfig
