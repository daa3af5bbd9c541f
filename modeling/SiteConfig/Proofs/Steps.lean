import Mathlib.Logic.Relation
import SiteConfig.Proofs.Refusal
import SiteConfig.Proofs.Locality

/-!
All edits of a session are made of steps of one kind: an option value is written, and an array or
object that lies below the plugin list takes it up. What every step keeps, every edit keeps.
-/

namespace SiteConfig

/-- The same expression, or two arrays, or two objects. -/
inductive Expr.SameKind {α : Type} : Expr α → Expr α → Prop where
  | same (e : Expr α) : SameKind e e
  | array (elements elements' : List (Element α)) (dangling dangling' : List Comment) :
    SameKind (.array elements dangling) (.array elements' dangling')
  | object (properties properties' : List (Property α)) (dangling dangling' : List Comment) :
    SameKind (.object properties dangling) (.object properties' dangling')

theorem Expr.SameKind.trans {α : Type} {a b c : Expr α} (h : SameKind a b) (h' : SameKind b c) :
    SameKind a c := by
  cases h with
  | same => exact h'
  | array => cases h' <;> exact .array ..
  | object => cases h' <;> exact .object ..

namespace Document
open Forest

variable {d d' d'' : Document} {list o x : NodeId}

/-- `d'` has the nodes of `d`, of which some arrays and objects may hold other things. -/
structure Reshaped (d d' : Document) : Prop where
  path : d'.path = d.path
  program : d'.program = d.program
  issued : ∀ x, d.Issued x → d'.Issued x
  kind : ∀ x, d.Issued x → (d.expr x).SameKind (d'.expr x)
  position : ∀ x, d.Issued x → d'.forest.position x = d.forest.position x

namespace Reshaped

theorem refl (d : Document) : Reshaped d d :=
  ⟨rfl, rfl, fun _ h => h, fun _ _ => .same _, fun _ _ => rfl⟩

theorem trans (h : Reshaped d d') (h' : Reshaped d' d'') : Reshaped d d'' where
  path := h'.path.trans h.path
  program := h'.program.trans h.program
  issued x hx := h'.issued x (h.issued x hx)
  kind x hx := (h.kind x hx).trans (h'.kind x (h.issued x hx))
  position x hx := (h'.position x (h.issued x hx)).trans (h.position x hx)

theorem of_strayed (h : Strayed d d') : Reshaped d d' where
  path := h.path
  program := h.program
  issued _ hx := h.issued hx
  kind x hx := by
    rw [h.expr hx]
    exact .same _
  position x hx := by
    obtain ⟨ids, p⟩ := h.planted
    exact congrArg Node.position (p.old x hx)

theorem graft (ho : d.Issued o) (t : Tree) {e : NodeId → Expr NodeId}
    (he : ∀ v, (d.expr o).SameKind (e v)) : Reshaped d (d.graft o t e) where
  path := rfl
  program := rfl
  issued x hx := by
    rw [Issued, show (d.graft o t e).forest.size = (d.plant t).2.forest.size from size_set _ o _]
    exact Nat.lt_of_lt_of_le hx (planted d.forest t).size_le
  kind x hx := by
    by_cases hxo : x = o
    · subst hxo
      rw [expr_graft ho]
      exact he _
    · rw [expr_graft_ne hx hxo]
      exact .same _
  position x hx :=
    (position_set o x _).trans (congrArg Node.position ((planted d.forest t).old x hx))

theorem asArray (h : Reshaped d d') {elements : List (Element NodeId)}
    {dangling : List Comment} (hx : d.expr x = .array elements dangling) :
    ∃ elements' dangling', d'.expr x = .array elements' dangling' := by
  have hkind := h.kind x (issued_of_expr_array hx)
  rw [hx] at hkind
  generalize d'.expr x = e at hkind
  cases hkind <;> exact ⟨_, _, rfl⟩

theorem asIdentifier? (h : Reshaped d d') (hx : d.Issued x) :
    (d'.expr x).asIdentifier? = (d.expr x).asIdentifier? := by
  have hkind := h.kind x hx
  generalize d.expr x = e at hkind
  generalize d'.expr x = e' at hkind
  cases hkind <;> rfl

theorem isExportTarget (h : Reshaped d d') (hd : d.Sound) (hx : d.Issued x) :
    d'.isExportTarget x = d.isExportTarget x := by
  have hkind := h.kind x hx
  unfold Document.isExportTarget
  generalize hold : d.expr x = e at hkind
  generalize d'.expr x = e' at hkind
  cases hkind with
  | array | object => rfl
  | same =>
    cases e with
    | member base property =>
      have hbase : d.Issued base := hd.operand_lt (x := x) (by
        change base ∈ (d.expr x).operands
        simp [hold, Expr.operands])
      simp only [h.asIdentifier? hbase]
    | _ => rfl

theorem exported? (h : Reshaped d d') (hd : d.Sound) {s : Statement NodeId}
    (hs : s ∈ d.program.statements) : d'.exported? s = d.exported? s := by
  rcases s with ⟨root | text, trivia⟩
  · have hroot := hd.issued_root hs rfl
    have hkind := h.kind root hroot
    simp only [Document.exported?]
    generalize hold : d.expr root = e at hkind
    generalize d'.expr root = e' at hkind
    cases hkind with
    | array | object => rfl
    | same =>
      cases e with
      | assignment left right =>
        have hleft : d.Issued left := hd.operand_lt (x := root) (by
          change left ∈ (d.expr root).operands
          simp [hold, Expr.operands])
        simp only [h.isExportTarget hd hleft]
      | _ => rfl
  · rfl

theorem firstExport? (h : Reshaped d d') (hd : d.Sound) : d'.firstExport? = d.firstExport? := by
  simp only [Document.firstExport?, h.program]
  generalize hall : d.program.statements = statements
  have hmem : ∀ s ∈ statements, d'.exported? s = d.exported? s :=
    fun s hs => h.exported? hd (hall ▸ hs)
  clear hall
  induction statements with
  | nil => rfl
  | cons s rest ih =>
    rw [List.findSome?_cons, List.findSome?_cons, hmem s List.mem_cons_self,
      ih fun t ht => hmem t (List.mem_cons_of_mem s ht)]

/-- An entry is told apart by its kind and that of its two elements. -/
theorem entryShape (h : Reshaped d d') (hd : d.Sound) (he : d'.expr x = d.expr x) :
    d'.entryShape x = d.entryShape x := by
  simp only [Document.entryShape, he]
  split
  · rename_i first second dangling hx
    have h1 : d.Issued first.value := hd.operand_lt (x := x) (by
      change first.value ∈ (d.expr x).operands
      simp [hx, Expr.operands])
    have h2 : d.Issued second.value := hd.operand_lt (x := x) (by
      change second.value ∈ (d.expr x).operands
      simp [hx, Expr.operands])
    have hfirst := h.kind _ h1
    have hsecond := h.kind _ h2
    generalize d.expr first.value = e₁ at hfirst
    generalize d'.expr first.value = e₁' at hfirst
    generalize d.expr second.value = e₂ at hsecond
    generalize d'.expr second.value = e₂' at hsecond
    cases hfirst with
    | same => cases e₁ <;> cases hsecond <;> rfl
    | array | object => rfl
  · rfl
  · rfl

end Reshaped

/-- An edit has left nodes behind that nothing refers to, or it has written a value, and an array
or object below `list` has taken it up. A new key is quoted, or written as the key of an option. -/
inductive Step (list : NodeId) (d : Document) : Document → Prop where
  | strayed {d' : Document} (h : Strayed d d') : Step list d d'
  | element {o : NodeId} {elements : List (Element NodeId)} {dangling : List Comment} {index : Nat}
    (value : Value) (hlo : d.forest.Below list o) (he : d.expr o = .array elements dangling)
    (hi : index ≤ elements.length) :
    Step list d (d.graft o value.encode fun v => .array (putElement v index elements) dangling)
  | member {o : NodeId} {properties : List (Property NodeId)} {dangling : List Comment}
    {key problem : String} {found : Option NodeId} {form : KeyForm}
    (hform : form = .string ∨ form = (PropertyKey.forName key).form) (value : Value)
    (hlo : d.forest.Below list o) (he : d.expr o = .object properties dangling)
    (hv : d.value? o key problem = .ok found) :
    Step list d (d.graft o value.encode fun v => .object (bind key form v properties) dangling)

/-- Any number of steps. -/
def Edited (list : NodeId) : Document → Document → Prop :=
  Relation.ReflTransGen (Step list)

namespace Step

/-- What a step grafts, and where. -/
theorem grafted (h : Step list d d') :
    Strayed d d' ∨ ∃ o t e, d.forest.Below list o ∧ d.Issued o ∧
      (∀ v, Grafted (d.expr o).operands (e v).operands v) ∧
      (∀ v, (d.expr o).SameKind (e v)) ∧ d' = d.graft o t e := by
  cases h with
  | strayed h => exact .inl h
  | element value hlo he hi =>
    refine .inr ⟨_, _, _, hlo, issued_of_expr_array he, fun v => ?_, fun v => ?_, rfl⟩
    · rw [he]
      exact grafted_putElement hi _ v
    · rw [he]
      exact .array ..
  | member _ value hlo he hv =>
    refine .inr ⟨_, _, _, hlo, issued_of_expr_object he, fun v => grafted_bind he hv _ v,
      fun v => ?_, rfl⟩
    rw [he]
    exact .object ..

theorem reshaped (h : Step list d d') : Reshaped d d' := by
  rcases h.grafted with h | ⟨o, t, e, -, ho, -, hkind, rfl⟩
  · exact .of_strayed h
  · exact .graft ho t hkind

theorem sound (h : Step list d d') (hd : d.Sound) : d'.Sound := by
  rcases h.grafted with h | ⟨o, t, e, -, ho, he, -, rfl⟩
  · exact h.sound hd
  · exact hd.graft ho t he

/-- A node above the list keeps its expression. -/
theorem expr_above (h : Step list d d') (hd : d.Sound) (hx : list ∈ (d.expr x).operands) :
    d'.expr x = d.expr x := by
  have hissued : d.Issued x := index_lt_of_mem_operands hx
  rcases h.grafted with h | ⟨o, t, e, hlo, -, -, -, rfl⟩
  · exact h.expr hissued
  · exact expr_graft_ne hissued (ne_of_operand hd hx hlo) t e

end Step

/-! Each edit is made of steps. -/

theorem bind_of_value?_none {properties : List (Property NodeId)} {dangling : List Comment}
    {key problem : String} (he : d.expr x = .object properties dangling)
    (h : d.value? x key problem = .ok none) (form : KeyForm) :
    (fun v => bind key form v properties) = fun v => properties ++ [.ofKey ⟨key, form⟩ v] := by
  rcases bind_cases he h form with ⟨old, _, _, _, _, -, hfound, -⟩ | ⟨-, -, hv⟩
  · cases hfound
  · exact funext hv

/-- The first versions of a plugin are bound as any option is. -/
theorem withVersions_eq_graft {options : NodeId} {properties : List (Property NodeId)}
    {dangling : List Comment} (he : d.expr options = .object properties dangling)
    (hv : d.value? options versionsKey versionsProblem = .ok none) :
    d.withVersions options properties dangling =
      d.graft options (.made (.object [] [])) fun v => .object
        (bind versionsKey (PropertyKey.forName versionsKey).form v properties) dangling := by
  simp only [congrFun (bind_of_value?_none he hv _)]
  rfl

theorem Step.withVersions {options : NodeId} {properties : List (Property NodeId)}
    {dangling : List Comment} (hlo : d.forest.Below list options)
    (he : d.expr options = .object properties dangling)
    (hv : d.value? options versionsKey versionsProblem = .ok none) :
    Step list d (d.withVersions options properties dangling) := by
  rw [withVersions_eq_graft he hv]
  exact .member (.inr rfl) (.record []) hlo he hv

theorem edited_putEntry (hl : d.Issued list) (index : Nat) (name : String) (r : Record) :
    Edited list d (d.perform (.putEntry list index name r)).2 := by
  rcases perform_putEntry hl index name r with ⟨e, d', hp, hs⟩ | ⟨elements, dangling, he, hle, hp⟩
  · rw [hp]
    exact .single (.strayed hs)
  · rw [hp]
    exact .single (.element (.list [.string name, .record r]) .refl he hle)

theorem edited_setTutorial (hl : d.Issued list) (index : Option Nat) (o : TutorialOptions) :
    Edited list d (d.perform (.setTutorial list index o)).2 := by
  rcases perform_setTutorial hl index o rfl with ⟨e, d', hp, hs⟩ | ⟨elements, dangling, he, hle, -, hp⟩
  · rw [hp]
    exact .single (.strayed hs)
  · rw [hp]
    exact .single (.element (.list [.string Tutorial.pluginName, .record o.toRecord]) .refl he hle)

theorem edited_putVersion (hd : d.Sound) {options : NodeId} (hlo : d.forest.Below list options)
    (ho : d.Issued options) (key : String) (r : Record) :
    Edited list d (d.perform (.putVersion options key r)).2 := by
  rcases perform_putVersion hd ho key r with ⟨e, d', hp, hs⟩ | ⟨d', hput, hp⟩
  · rw [hp]
    exact .single (.strayed hs)
  rw [hp]
  rcases hput with ⟨id, properties, dangling, found, hv, he, hk, rfl⟩ |
    ⟨properties, dangling, he, hv, rfl⟩
  · exact .single (.member (.inl rfl) (.record r) (hlo.step (operand_of_value? hv)) he hk)
  · -- the new object lies below the options, which hold it by now
    have hnew := expr_withVersions ho properties dangling
    have hbelow : (d.withVersions options properties dangling).forest.Below list options :=
      below_graft hd hlo .refl _ _
    have hmem : (d.plant (.made (.object [] []))).1 ∈
        ((d.withVersions options properties dangling).expr options).operands := by
      rw [Document.withVersions, expr_graft ho]
      simp [Expr.operands, Property.ofKey, Property.value?]
    have hk := value?_withVersions ho properties dangling key (versionProblem key)
    exact (Relation.ReflTransGen.single (.withVersions hlo he hv)).tail
      (.member (.inl rfl) (.record r) (hbelow.step hmem) hnew hk)

theorem edited_setVersion (hd : d.Sound) (id version : String) (r : Record) :
    Edited list d (d.perform (.setVersion list id version r)).2 := by
  rcases perform_setVersion d list id version r with ⟨e, d', hp, hs⟩ | ⟨p, hp, hq⟩
  · rw [hp]
    exact .single (.strayed hs)
  · rw [hq]
    exact edited_putVersion hd (below_docsPlugin hp) (issued_of_docsPlugin hd hp) version r

theorem edited_setOnlyInclude (hd : d.Sound) (id : String) (versions : List String) :
    Edited list d (d.perform (.setOnlyInclude list id versions)).2 := by
  rcases perform_setOnlyInclude d list id versions with ⟨e, d', hp, hs⟩ | ⟨p, hp, hq⟩
  · rw [hp]
    exact .single (.strayed hs)
  rw [hq]
  rcases perform_putOption (issued_of_docsPlugin hd hp) onlyIncludeKey
      (.list (versions.map .string)) with
    ⟨e, d', hp', hs⟩ | ⟨properties, dangling, found, he, hv, hp'⟩
  · rw [hp']
    exact .single (.strayed hs)
  · rw [hp']
    exact .single (.member (.inr rfl) (.list (versions.map .string)) (below_docsPlugin hp) he hv)

end Document

end SiteConfig
