import SiteConfig.Proofs.Confined
import SiteConfig.Proofs.Naming
import SiteConfig.Proofs.Values

/-!
Edits write nothing that is verbatim, and nothing that is no option value. In a config that held
nothing else before them, they leave it so.
-/

namespace SiteConfig
open Script

theorem Trivia.Plain.blank : ({} : Trivia).Plain :=
  ⟨by simp, by simp⟩

namespace Expr

variable {α : Type}

/-- Comments and keys are plain, so that nothing but the operands decides what can be read. -/
def Tidy : Expr α → Prop
  | .string _ | .boolean _ => True
  | .array elements dangling =>
    (∀ e ∈ elements, e.trivia.Plain) ∧ ∀ c ∈ dangling, IsComment c.text
  | .object properties dangling =>
    (∀ p ∈ properties, (∃ k value, p.body = .assignment k value ∧ k.Plain) ∧ p.trivia.Plain) ∧
      ∀ c ∈ dangling, IsComment c.text
  | _ => False

theorem tidy_map {β : Type} (g : α → β) (e : Expr α) : (e.map g).Tidy ↔ e.Tidy := by
  cases e with
  | array elements dangling => simp only [Expr.map, Tidy, List.forall_mem_map]
  | object properties dangling =>
    simp only [Expr.map, Tidy, List.forall_mem_map]
    refine and_congr_left' (forall₂_congr fun p _ => and_congr_left' ?_)
    rcases hb : p.body with ⟨k, value⟩ | ⟨shape, text⟩ <;> simp
  | _ => rfl

theorem tidy_putElement {value : NodeId} {index : Nat} {elements : List (Element NodeId)}
    {dangling : List Comment} (hi : index ≤ elements.length)
    (h : (Expr.array elements dangling).Tidy) :
    (Expr.array (Document.putElement value index elements) dangling).Tidy := by
  refine ⟨fun e he => ?_, h.2⟩
  rcases Document.putElement_cases hi with ⟨before, old, after, rfl, -, hput⟩ | ⟨-, hput⟩ <;>
    rw [hput, List.mem_append] at he
  · rcases he with he | he
    · exact h.1 e (List.mem_append_left _ he)
    · rcases List.mem_cons.mp he with rfl | he
      · exact h.1 old (by simp)
      · exact h.1 e (by simp [he])
  · rcases he with he | he
    · exact h.1 e he
    · obtain rfl := List.mem_singleton.mp he
      exact .blank

theorem tidy_bind {d : Document} {x : NodeId} {properties : List (Property NodeId)}
    {dangling : List Comment} {key problem : String} {found : Option NodeId} {form : KeyForm}
    (hk : (⟨key, form⟩ : PropertyKey).Plain) (he : d.expr x = .object properties dangling)
    (hv : d.value? x key problem = .ok found) (h : (d.expr x).Tidy) (value : NodeId) :
    (Expr.object (Document.bind key form value properties) dangling).Tidy := by
  rw [he] at h
  refine ⟨fun p hp => ?_, h.2⟩
  rcases Document.bind_cases he hv form with
    ⟨old, before, q, after, k, -, -, rfl, hq, -, hbind⟩ | ⟨-, -, hbind⟩ <;>
    rw [hbind, List.mem_append] at hp
  · obtain ⟨⟨k', value', hb, hk'⟩, htrivia⟩ := h.1 q (by simp)
    obtain ⟨rfl, -⟩ := PropertyBody.assignment.inj (hq.symm.trans hb)
    rcases hp with hp | hp
    · exact h.1 p (List.mem_append_left _ hp)
    · rcases List.mem_cons.mp hp with rfl | hp
      · exact ⟨⟨k, value, rfl, hk'⟩, htrivia⟩
      · exact h.1 p (by simp [hp])
  · rcases hp with hp | hp
    · exact h.1 p hp
    · obtain rfl := List.mem_singleton.mp hp
      exact ⟨⟨_, value, rfl, hk⟩, .blank⟩

end Expr

namespace Tree

/-- The expressions that edits write: option values without verbatim parts. -/
structure IsDraft (t : Tree) : Prop where
  plain : t.Plain
  option : t.IsOption

theorem isDraft_string (position : Option Position) (text : String) :
    IsDraft (.node position (.string text)) :=
  ⟨.string position text, .string position text⟩

theorem isDraft_boolean (position : Option Position) (value : Bool) :
    IsDraft (.node position (.boolean value)) :=
  ⟨.boolean position value, .boolean position value⟩

/-- But for paths, an expression is a draft if it is tidy and its operands are drafts. -/
theorem isDraft_iff {position : Option Position} {e : Expr Tree}
    (he : ∀ callee arguments, e ≠ .call callee arguments) :
    IsDraft (.node position e) ↔ e.Tidy ∧ ∀ s ∈ e.operands, s.IsDraft := by
  constructor
  · rintro ⟨hplain, hoption⟩
    cases hoption with
    | string | boolean => exact ⟨trivial, by simp [Expr.operands]⟩
    | path => exact absurd rfl (he _ _)
    | array _ _ hoptions =>
      cases hplain with | array _ hvalues htrivia hdangling
      refine ⟨⟨htrivia, hdangling⟩, List.forall_mem_map.mpr fun e he => ?_⟩
      exact ⟨hvalues e he, hoptions e he⟩
    | object _ _ _ hoptions =>
      cases hplain with | object _ hkeys hvalues htrivia hdangling
      refine ⟨⟨fun p hp => ⟨hkeys p hp, htrivia p hp⟩, hdangling⟩, fun s hs => ?_⟩
      obtain ⟨p, hp, hs⟩ := List.mem_filterMap.mp hs
      exact ⟨hvalues p hp s hs, hoptions p hp s hs⟩
  · rintro ⟨htidy, hdrafts⟩
    cases e with
    | string text => exact isDraft_string position text
    | boolean value => exact isDraft_boolean position value
    | array elements dangling =>
      have hvalues := List.forall_mem_map.mp hdrafts
      exact ⟨.array _ (fun e he => (hvalues e he).plain) htidy.1 htidy.2,
        .array _ _ fun e he => (hvalues e he).option⟩
    | object properties dangling =>
      have hvalues : ∀ p ∈ properties, ∀ value ∈ p.value?, value.IsDraft := fun p hp value hv =>
        hdrafts value (List.mem_filterMap.mpr ⟨p, hp, hv⟩)
      refine ⟨.object _ (fun p hp => (htidy.1 p hp).1)
          (fun p hp value hv => (hvalues p hp value hv).plain) (fun p hp => (htidy.1 p hp).2) htidy.2,
        .object _ _ (fun p hp => ?_) fun p hp value hv => (hvalues p hp value hv).option⟩
      obtain ⟨⟨k, value, hb, -⟩, -⟩ := htidy.1 p hp
      simp [Property.value?, hb]
    | call callee arguments => exact absurd rfl (he callee arguments)
    | _ => exact htidy.elim

/-- Nothing in the tree is an array or object, so no edit changes it. -/
inductive Fixed : Tree → Prop where
  | node (position : Option Position) {e : Expr Tree} (hlist : e.isList = false)
    (h : ∀ s ∈ e.operands, Fixed s) : Fixed (.node position e)

theorem fixed_path (position position₁ position₂ position₃ position₄ : Option Position)
    (text : String) :
    Fixed (.node position (.call
      (.node position₁ (.member (.node position₂ (.identifier "path")) "resolve"))
      [.node position₃ (.identifier "__dirname"), .node position₄ (.string text)])) := by
  have hleaf : ∀ {position} {e : Expr Tree}, e.isList = false → e.operands = [] →
      Fixed (.node position e) := fun hlist he => .node _ hlist (by simp [he])
  refine .node _ rfl fun s hs => ?_
  simp only [Expr.operands, List.mem_cons, List.not_mem_nil, or_false] at hs
  rcases hs with rfl | rfl | rfl
  · refine .node _ rfl fun s hs => ?_
    obtain rfl := List.mem_singleton.mp hs
    exact hleaf rfl rfl
  · exact hleaf rfl rfl
  · exact hleaf rfl rfl

end Tree

namespace Value
open SiteConfig.Tree

theorem isDraft_ofPath (text : String) : (ofPath text).IsDraft := by
  have hpath : IsIdentifier "path" := isIdentifier_of_isPlainName rfl (by decide)
  have hdirectory : IsIdentifier "__dirname" := isIdentifier_of_isPlainName rfl (by decide)
  have hresolve : Lexeme.IsName "resolve" := Lexeme.isName_of_isPlainName rfl
  refine ⟨.call none (.member none (.identifier none hpath) rfl hresolve) rfl fun t ht => ?_,
    .path none none none none none text⟩
  simp only [List.mem_cons, List.not_mem_nil, or_false] at ht
  rcases ht with rfl | rfl
  · exact .identifier none hdirectory
  · exact .string none text

mutual

theorem isDraft_encode : ∀ v : Value, v.encode.IsDraft
  | .string text => isDraft_string none text
  | .boolean value => isDraft_boolean none value
  | .path text => isDraft_ofPath text
  | .list items => by
    obtain ⟨htrivia, hvalues⟩ := isDraft_encodeItems items
    exact (isDraft_iff (by simp)).mpr ⟨⟨htrivia, by simp⟩, List.forall_mem_map.mpr hvalues⟩
  | .record entries => by
    obtain ⟨hproperties, hvalues⟩ := isDraft_encodeEntries entries
    refine (isDraft_iff (by simp)).mpr ⟨⟨hproperties, by simp⟩, fun s hs => ?_⟩
    obtain ⟨p, hp, hs⟩ := List.mem_filterMap.mp hs
    exact hvalues p hp s hs

theorem isDraft_encodeItems : ∀ items : List Value,
    (∀ e ∈ encodeItems items, e.trivia.Plain) ∧ ∀ e ∈ encodeItems items, e.value.IsDraft
  | [] => by simp [encodeItems]
  | v :: rest => by
    simp only [encodeItems, List.forall_mem_cons]
    obtain ⟨htrivia, hvalues⟩ := isDraft_encodeItems rest
    exact ⟨⟨.blank, htrivia⟩, isDraft_encode v, hvalues⟩

theorem isDraft_encodeEntries : ∀ entries : List (String × Value),
    (∀ p ∈ encodeEntries entries,
      (∃ k value, p.body = .assignment k value ∧ k.Plain) ∧ p.trivia.Plain) ∧
    ∀ p ∈ encodeEntries entries, ∀ value ∈ p.value?, value.IsDraft
  | [] => by simp [encodeEntries]
  | (key, v) :: rest => by
    simp only [encodeEntries, List.forall_mem_cons]
    obtain ⟨hproperties, hvalues⟩ := isDraft_encodeEntries rest
    refine ⟨⟨⟨⟨_, _, rfl, .forName key⟩, .blank⟩, hproperties⟩, fun value hvalue => ?_, hvalues⟩
    obtain rfl := Option.some.inj hvalue
    exact isDraft_encode v

end

end Value

namespace Document
open Forest SiteConfig.Tree

variable {d d' : Document} {list o x : NodeId} {t : Tree} {e : NodeId → Expr NodeId}

theorem ne_call_of_isList {α : Type} {e : Expr α} (h : e.isList) (callee : α) (arguments : List α) :
    e ≠ .call callee arguments := by
  rintro rfl
  cases h

theorem isDraft_tree_iff (hd : d.Sound) (hx : ∀ callee arguments, d.expr x ≠ .call callee arguments) :
    (d.tree x).IsDraft ↔ (d.expr x).Tidy ∧ ∀ s ∈ (d.expr x).operands, (d.tree s).IsDraft := by
  rw [tree_of_expr hd x, isDraft_iff, Expr.tidy_map, Expr.operands_map, List.forall_mem_map]
  intro callee arguments h
  cases he : d.expr x <;> rw [he] at h <;> cases h
  exact hx _ _ he

theorem isDraft_operand (hd : d.Sound) (hlist : (d.expr x).isList) (h : (d.tree x).IsDraft)
    (ho : o ∈ (d.expr x).operands) : (d.tree o).IsDraft :=
  ((isDraft_tree_iff hd (ne_call_of_isList hlist)).mp h).2 o ho

/-- What is grafted is a draft, and so is all that it is grafted to. -/
theorem isDraft_graft (hd : d.Sound) (ho : d.Issued o)
    (hg : ∀ v, Grafted (d.expr o).operands (e v).operands v) (hlist : (d.expr o).isList)
    (hlist' : ∀ v, (e v).isList) (htidy : ∀ v, (d.expr o).Tidy → (e v).Tidy) (ht : t.IsDraft)
    (h : (d.tree o).IsDraft) : ((d.graft o t e).tree o).IsDraft := by
  have he := expr_graft ho t e
  obtain ⟨htidyo, hoperands⟩ := (isDraft_tree_iff hd (ne_call_of_isList hlist)).mp h
  rw [isDraft_tree_iff (hd.graft ho t hg) (he ▸ ne_call_of_isList (hlist' _)), he]
  refine ⟨htidy _ htidyo, fun s hs => ?_⟩
  rcases (hg _).mem hs with rfl | hs
  · rwa [tree_graft_new hd ho hg]
  · rw [tree_graft_operand hd ho hg hs]
    exact hoperands s hs

theorem Reshaped.tree_fixed (h : Reshaped d d') (hd : d.Sound) (hd' : d'.Sound) (hx : d.Issued x)
    (hfixed : (d.tree x).Fixed) : d'.tree x = d.tree x := by
  generalize ht : d.tree x = t at hfixed ⊢
  induction hfixed generalizing x with
  | @node position e hlist _ ih =>
    rw [tree_of_expr hd x] at ht
    obtain ⟨hposition, he⟩ := Tree.node.inj ht
    have hexpr : d'.expr x = d.expr x := by
      have hkind := h.kind x hx
      have hold : (d.expr x).isList = false := by rw [← Expr.isList_map d.tree, he, hlist]
      generalize d.expr x = e₁ at hkind hold
      generalize d'.expr x = e₂ at hkind
      cases hkind with
      | same => rfl
      | array | object => cases hold
    rw [tree_of_expr hd' x, h.position x hx, hposition, hexpr, ← he]
    congr 1
    refine Expr.map_congr fun s hs => ?_
    have hmem : d.tree s ∈ e.operands := by
      rw [← he, Expr.operands_map]
      exact List.mem_map_of_mem hs
    exact ih _ hmem (hd.operand_lt hs) rfl

namespace Confined

theorem of_operand (h : Confined d d' o) (hx : o ∈ (d.expr x).operands) : Confined d d' x where
  sound := h.sound
  reshaped := h.reshaped
  above z y hy hyx := h.above z y hy (hyx.step hx)
  beside z y s before after hz hyx hs := h.beside z y s before after hz (hyx.step hx) hs

theorem isDraft_above (h : Confined d d' o) (hd : d.Sound) (hx : o ∈ (d.expr x).operands)
    (ho : (d.tree o).IsDraft → (d'.tree o).IsDraft) (hdraft : (d.tree x).IsDraft) :
    (d'.tree x).IsDraft := by
  have he := h.above x o hx .refl
  by_cases hcall : ∃ callee arguments, d.expr x = .call callee arguments
  · -- a path, which no edit changes
    obtain ⟨callee, arguments, hcall⟩ := hcall
    have hfixed : (d.tree x).Fixed := by
      have htree := tree_of_expr hd x
      rw [hcall, Expr.map] at htree
      have hoption := hdraft.option
      rw [htree] at hoption ⊢
      generalize d.tree callee = c at hoption ⊢
      generalize arguments.map d.tree = ts at hoption ⊢
      cases hoption
      exact fixed_path _ _ _ _ _ _
    rwa [h.reshaped.tree_fixed hd h.sound (index_lt_of_mem_operands hx) hfixed]
  · push Not at hcall
    obtain ⟨htidy, hoperands⟩ := (isDraft_tree_iff hd hcall).mp hdraft
    rw [isDraft_tree_iff h.sound (he ▸ hcall), he]
    refine ⟨htidy, fun s hs => ?_⟩
    -- the operand that leads to the change, and those beside it
    by_cases hso : s = o
    · exact hso ▸ ho (hoperands o hx)
    · obtain ⟨before, after, hsplit⟩ := List.append_of_mem hx
      have hside : s ∈ before ++ after := by
        rw [hsplit, List.mem_append, List.mem_cons] at hs
        rw [List.mem_append]
        exact hs.imp_right fun hs => hs.resolve_left hso
      rw [(h.beside x o s before after hsplit .refl hside).tree]
      exact hoperands s hs

/-- A change at a node that leaves a draft there leaves drafts above it. -/
theorem isDraft (h : Confined d d' o) (hd : d.Sound) (hxo : d.forest.Below x o)
    (ho : (d.tree o).IsDraft → (d'.tree o).IsDraft) (hdraft : (d.tree x).IsDraft) :
    (d'.tree x).IsDraft := by
  -- on the way up from the change
  induction hxo with
  | refl => exact ho hdraft
  | step _ hyo ih => exact ih (h.of_operand hyo) fun hy => h.isDraft_above hd hyo ho hy

end Confined

/-- A step leaves a draft above the list. -/
theorem Step.isDraft (h : Step list d d') (hd : d.Sound) (hx : d.forest.Below x list)
    (hissued : d.Issued x) (hdraft : (d.tree x).IsDraft) : (d'.tree x).IsDraft := by
  cases h with
  | strayed h =>
    rwa [(h.unaltered hd hissued).tree]
  | @element o elements dangling index value hlo he hi =>
    have ho := issued_of_expr_array he
    have hg : ∀ v, Grafted (d.expr o).operands
        (Expr.array (putElement v index elements) dangling).operands v :=
      fun v => he ▸ grafted_putElement hi dangling v
    refine (Confined.graft hd .refl ho value.encode hg fun v => he ▸ .array ..).isDraft hd
      (hx.trans hlo) (fun h => ?_) hdraft
    exact isDraft_graft hd ho hg (he ▸ rfl) (fun v => rfl)
      (fun v htidy => Expr.tidy_putElement hi (he ▸ htidy)) (Value.isDraft_encode value) h
  | @member o properties dangling key problem found form hform value hlo he hv =>
    have ho := issued_of_expr_object he
    have hg := grafted_bind he hv form
    have hk : (⟨key, form⟩ : PropertyKey).Plain := by
      rcases hform with rfl | rfl
      · exact .inr rfl
      · exact .forName key
    refine (Confined.graft hd .refl ho value.encode hg fun v => he ▸ .object ..).isDraft hd
      (hx.trans hlo) (fun h => ?_) hdraft
    exact isDraft_graft hd ho hg (he ▸ rfl) (fun v => rfl)
      (fun v htidy => Expr.tidy_bind hk he hv htidy v) (Value.isDraft_encode value) h

end Document

end SiteConfig
