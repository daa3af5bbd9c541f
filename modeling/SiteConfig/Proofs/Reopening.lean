import SiteConfig.Proofs.Drafts
import SiteConfig.Proofs.Rereading
import SiteConfig.Proofs.Scripts

/-!
What a session writes is what the next session reads. A session that starts without a config, or
from the template, writes nothing but drafts; the text of its config can be opened again, and all
that was read before is read again.
-/

namespace SiteConfig

namespace Record

/-- An object that is built as options are can be read. -/
theorem decode_ok (path : String) {t : Tree} {properties : List (Property Tree)}
    {dangling : List Comment} (ht : t.expr = .object properties dangling) (h : t.IsOption) :
    ∃ r, decode path t = .ok r := by
  obtain ⟨v, hv⟩ := Value.decode_ok path h
  obtain ⟨position, e⟩ := t
  obtain rfl : e = _ := ht
  obtain ⟨entries, -, rfl⟩ := Result.ok_of_map hv
  exact ⟨_, (decode_eq_ok_iff rfl).mpr hv⟩

end Record

namespace Document
open Forest SiteConfig.Tree SiteConfig.Script

variable {d d' : Document} {config list : NodeId}

/-! A script that is planted is seen as it was. -/

theorem statementTree_planted {d : Document} {f : Forest} : (ss : List (Statement Tree)) →
    d.forest.Extends (f.plantStatements ss).2 → (f.plantStatements ss).2.size ≤ d.forest.size →
    (f.plantStatements ss).1.map d.statementTree = ss
  | [], _, _ => rfl
  | ⟨.expression t, _⟩ :: rest, hext, hsize => by
    simp only [plantStatements, List.map_cons, statementTree] at hext hsize ⊢
    have hrest := plantStatements_planted (f.plant t).2 rest
    have htree : d.tree (f.plant t).1 = t :=
      treeWithin_plant t (hext.of_planted hrest) _ (by have := hrest.size_le; omega)
    rw [htree, statementTree_planted rest hext hsize]
  | ⟨.verbatim _, _⟩ :: rest, hext, hsize => by
    simp only [plantStatements, List.map_cons, statementTree] at hext hsize ⊢
    rw [statementTree_planted rest hext hsize]

theorem toProgram_ofProgram (path : String) (p : Program Tree) : (ofProgram path p).toProgram = p := by
  have hstatements : (ofProgram path p).program.statements.map (ofProgram path p).statementTree =
      p.statements :=
    statementTree_planted p.statements (fun _ _ => rfl) (Nat.le_refl _)
  rw [toProgram, hstatements]
  rfl

/-- A config with settled handles can be taken up as it is. -/
theorem Settled.ofDocument (h : d.Settled config list) :
    Editor.ofDocument d = .ok ⟨d, config, list⟩ := by
  simp only [Editor.ofDocument, Editor.handles, perform_bind, h.perform_locate, h.perform_plugins,
    perform_pure]
  rfl

/-- A config with no statement but the one that exports a draft. -/
structure Draft (d : Document) (config list : NodeId) : Prop where
  settled : d.Settled config list
  single : ∃ s, d.program = { statements := [s] } ∧ s.trivia.Plain
  draft : (d.tree config).IsDraft

namespace Draft

theorem step (h : d.Draft config list) (hs : Step list d d') : d'.Draft config list where
  settled := h.settled.step hs
  single := hs.reshaped.program ▸ h.single
  draft := by
    have hlist := operand_of_value? h.settled.listed
    exact hs.isDraft h.settled.sound (Below.refl.step hlist) (index_lt_of_mem_operands hlist) h.draft

theorem edited (h : d.Draft config list) (hs : Edited list d d') : d'.Draft config list := by
  induction hs with
  | refl => exact h
  | tail _ hs ih => exact ih.step hs

/-- The script holds nothing verbatim. -/
theorem plain (h : d.Draft config list) : d.toProgram.Plain := by
  obtain ⟨s, hprogram, htrivia⟩ := h.single
  have hexport : d.exported? s = some config := by
    have hfirst := h.settled.exported
    rw [firstExport?, hprogram, List.findSome?_singleton] at hfirst
    exact hfirst
  obtain ⟨root, left, hb, hroot, htarget⟩ := exported?_eq_some hexport
  have hstatements : d.toProgram.statements = [d.statementTree s] := by
    rw [toProgram, hprogram, List.map_singleton]
  refine ⟨?_, ?_, ?_⟩
  · rw [hstatements, List.forall_mem_singleton]
    refine ⟨d.tree root, by simp only [statementTree, hb], ?_⟩
    -- the tree of the statement is `module.exports = ` and the exported object
    have hd := h.settled.sound
    unfold isExportTarget at htarget
    split at htarget
    · rename_i base property hleft
      simp only [Bool.and_eq_true, decide_eq_true_eq] at htarget
      obtain ⟨rfl, hmodule⟩ := htarget
      have hbase : d.expr base = .identifier "module" := by
        cases hx : d.expr base <;> simp_all [Expr.asIdentifier?]
      have hname : IsIdentifier "module" := isIdentifier_of_isPlainName rfl (by decide)
      rw [tree_of_expr hd root, hroot, Expr.map, tree_of_expr hd left, hleft, Expr.map,
        tree_of_expr hd base, hbase, Expr.map]
      exact .memberAssignment _ _ (.member _ (.identifier _ hname) rfl
        (Lexeme.isName_of_isPlainName rfl)) h.draft.plain
    · cases htarget
  · rw [hstatements, List.forall_mem_singleton]
    exact htrivia
  · rw [toProgram, hprogram]
    simp

/-- The text can be read again, and the handles of what is read are like those that there were. -/
theorem reopened (h : d.Draft config list) (path : String) :
    ∃ d' config' list', ofSource d.render path = .ok d' ∧ d'.Settled config' list' ∧
      Alike d d' list list' := by
  -- what is read is the script as its layout shows it: the same but for positions and blank lines
  obtain ⟨q, hq, hshown⟩ := Program.ofSource?_layout h.plain.lexical h.plain.settled
  have hsource : ofSource d.render path = .ok (ofProgram path q) := by
    rw [render, ofSource, hq]
  have hunspaced : d.toProgram.unspaced = (ofProgram path q).toProgram.unspaced := by
    rw [toProgram_ofProgram, ← Program.unspaced_unplaced q, hshown, Program.unspaced_shown]
  obtain ⟨config', list', hsettled, halike⟩ := h.settled.alike (sound_ofSource hsource) hunspaced
  exact ⟨_, config', list', hsource, hsettled, halike⟩

/-- The options of every entry can be read. -/
theorem decode_options (h : d.Draft config list) {name : String} {p : PluginEntry}
    (hp : p ∈ d.pluginsNamed list name) (path : String) :
    ∃ r, Record.decode path (d.tree p.options) = .ok r := by
  have hd := h.settled.sound
  obtain ⟨_, _, hconfig⟩ := h.settled.object
  obtain ⟨_, _, hlist⟩ := h.settled.array
  obtain ⟨entry, first, second, _, hentry, harray, -, ⟨_, _, hobject⟩, hoptions⟩ :=
    mem_pluginsNamed hp
  -- every node from the exported object down to the options is a draft
  have hdraft := isDraft_operand hd (hconfig ▸ rfl) h.draft (operand_of_value? h.settled.listed)
  have hdraft := isDraft_operand hd (hlist ▸ rfl) hdraft (operand_of_entries hentry)
  have hdraft := isDraft_operand hd (harray ▸ rfl) hdraft (o := p.options)
    (by simp [harray, hoptions, Expr.operands])
  obtain ⟨_, htree⟩ := tree_expr_object (hoptions ▸ hobject)
  exact Record.decode_ok path htree hdraft.option

end Draft

/-- The script that exports an empty object. -/
def emptyExport : Program Tree where
  statements := [{
    body := .expression (.node (some ⟨1, 1⟩) (.assignment
      (.node (some ⟨1, 1⟩) (.member (.node (some ⟨1, 1⟩) (.identifier "module")) "exports"))
      (.node (some ⟨1, 18⟩) (.object [] [])))) }]

set_option maxRecDepth 8000 in
theorem ofSource?_emptyExport :
    Program.ofSource? "module.exports = \x7b\x7d;" = some emptyExport := by cbv

set_option maxRecDepth 8000 in
theorem ofSource?_template : Program.ofSource? template = some emptyExport := by cbv

/-- The texts that a session on a new config starts from. -/
def starts : List String :=
  ["", "module.exports = \x7b\x7d;", template]

/-- The exported object has an empty plugin list and nothing else. -/
theorem isDraft_opened (position : Option Position) :
    IsDraft (.node position (.object [.ofKey (.forName pluginsKey) (.made (.array [] []))] [])) := by
  have hlist : IsDraft (.made (.array [] [])) :=
    (isDraft_iff (by simp)).mpr (by simp [Expr.Tidy, Expr.operands])
  refine (isDraft_iff (by simp)).mpr ⟨⟨?_, by simp⟩, ?_⟩
  · exact List.forall_mem_singleton.mpr ⟨⟨_, _, rfl, .forName pluginsKey⟩, .blank⟩
  · exact List.forall_mem_singleton.mpr hlist

end Document

namespace Editor
open Document

theorem draft_opened {source path : String} {e : Editor} (hsource : source ∈ starts)
    (h : ofSource source path = .ok e) : e.document.Draft e.config e.plugins := by
  have hsettled := settled_ofSource h
  simp only [starts, List.mem_cons, List.not_mem_nil, or_false] at hsource
  unfold ofSource Document.ofSource at h
  rcases hsource with rfl | rfl | rfl
  · have hread : Program.ofSource? "" = some {} := rfl
    rw [hread] at h
    obtain rfl := Except.ok.inj h
    exact ⟨hsettled, ⟨_, rfl, .blank⟩, isDraft_opened none⟩
  · rw [ofSource?_emptyExport] at h
    obtain rfl := Except.ok.inj h
    exact ⟨hsettled, ⟨_, rfl, .blank⟩, isDraft_opened (some ⟨1, 18⟩)⟩
  · rw [ofSource?_template] at h
    obtain rfl := Except.ok.inj h
    exact ⟨hsettled, ⟨_, rfl, .blank⟩, isDraft_opened (some ⟨1, 18⟩)⟩

/-- The sessions on a new config: any run of edits, from no text at all or from the template. -/
inductive Drafted : Editor → Prop where
  | opened {source path : String} {e : Editor} (hsource : source ∈ starts)
    (h : ofSource source path = .ok e) : Drafted e
  | putEntry {e : Editor} (h : Drafted e) (index : Nat) (name : String) (r : Record) :
    Drafted (e.perform (.putEntry e.plugins index name r)).2
  | setTutorial {e : Editor} (h : Drafted e) (index : Option Nat) (o : TutorialOptions) :
    Drafted (e.setTutorial index o).2
  | setVersion {e : Editor} (h : Drafted e) (id version : String) (r : Record) :
    Drafted (e.setVersion id version r).2
  | setOnlyInclude {e : Editor} (h : Drafted e) (id : String) (versions : List String) :
    Drafted (e.setOnlyInclude id versions).2

theorem Drafted.draft {e : Editor} (h : e.Drafted) : e.document.Draft e.config e.plugins := by
  induction h with
  | opened hsource h => exact draft_opened hsource h
  | putEntry _ index name r ih => exact ih.edited (edited_putEntry ih.settled.issued index name r)
  | setTutorial _ index o ih => exact ih.edited (edited_setTutorial ih.settled.issued index o)
  | setVersion _ id version r ih => exact ih.edited (edited_setVersion ih.settled.sound id version r)
  | setOnlyInclude _ id versions ih =>
    exact ih.edited (edited_setOnlyInclude ih.settled.sound id versions)

/-- What is read in the session `e'` is what is read in `e`. -/
structure SameReads (e e' : Editor) : Prop where
  count : e'.pluginCount = e.pluginCount
  /-- The entries of a plugin stand in the same places, and the options of each can be read and are
  the same. -/
  named : ∀ name, List.Forall₂ (fun p p' => p'.index = p.index ∧ ∃ r,
      Record.decode e.document.path (e.document.tree p.options) = .ok r ∧
      Record.decode e'.document.path (e'.document.tree p'.options) = .ok r)
    (e.document.pluginsNamed e.plugins name) (e'.document.pluginsNamed e'.plugins name)
  tutorials : e'.tutorials.value = e.tutorials.value
  docsPlugins : List.Forall₂ DocsPlugin.Same e.docsPlugins.value e'.docsPlugins.value

/-- What a session on a new config has written can be opened again, and is read as it was. -/
theorem reopens_drafted {e : Editor} (h : e.Drafted) (path : String) :
    ∃ e', ofSource e.render path = .ok e' ∧ SameReads e e' := by
  have hd := h.draft.settled.sound
  obtain ⟨d', config', list', hsource, hsettled, halike⟩ := h.draft.reopened path
  have hd' := hsettled.sound
  refine ⟨⟨d', config', list'⟩, ?_, ?_, fun name => ?_, ?_, ?_⟩
  · rw [ofSource, render, hsource, ok_bind, hsettled.ofDocument]
  · exact (halike.entries hd hd').length_eq.symm
  · have hread : ∀ p ∈ e.document.pluginsNamed e.plugins name,
        ∃ r, Record.decode e.document.path (e.document.tree p.options) = .ok r :=
      fun p hp => h.draft.decode_options hp _
    have hboth := (List.forall₂_and_left _ _).mpr ⟨hread, halike.named hd hd' name⟩
    refine hboth.imp fun p p' hp => ?_
    obtain ⟨⟨r, hr⟩, hindex, hoptions⟩ := hp
    exact ⟨hindex, r, hr, hoptions.decode_eq_ok hr _⟩
  · exact halike.tutorials hd hd'
  · exact halike.docsPlugins hd hd'

def templateForest : Forest where
  nodes := #[
    { expr := .identifier "module", position := some ⟨1, 1⟩ },
    { expr := .member ⟨0⟩ "exports", position := some ⟨1, 1⟩ },
    { expr := .object [{ body := .assignment ⟨"plugins", .identifier⟩ ⟨4⟩ }] []
      position := some ⟨1, 18⟩ },
    { expr := .assignment ⟨1⟩ ⟨2⟩, position := some ⟨1, 1⟩ },
    { expr := .array [] [] }]

/-- The session that the template opens. -/
def templateEditor : Editor where
  document := {
    path := "a.js"
    forest := templateForest
    program := { statements := [{ body := .expression ⟨3⟩ }] } }
  config := ⟨2⟩
  plugins := ⟨4⟩

theorem drafted_templateEditor : templateEditor.Drafted := by
  have h : ofSource Document.template "a.js" = .ok templateEditor := by
    rw [ofSource, Document.ofSource, ofSource?_template]
    rfl
  exact .opened (by simp [starts]) h

/-- A docs plugin with quotes and line breaks in its options is added, and is given a version whose
key and options need quotes. -/
theorem reopens_drafted_templateEditor :
    let added := templateEditor.perform (.putEntry templateEditor.plugins 0 DocsPlugin.pluginName
      [("on it", .string "it's\n\"new\""), ("label", .list [.boolean true, .path "./a"])])
    let versioned := added.2.setVersion "<default>" "2.0" [("class", .string "\\")]
    added.1 = .ok () ∧ versioned.1 = .ok () ∧ versioned.2.Drafted ∧
      ∃ e', ofSource versioned.2.render "b.js" = .ok e' ∧ SameReads versioned.2 e' := by
  intro added versioned
  have hversioned : versioned.2.Drafted := .setVersion (.putEntry drafted_templateEditor _ _ _) _ _ _
  exact ⟨rfl, rfl, hversioned, reopens_drafted hversioned "b.js"⟩

end Editor

end SiteConfig
