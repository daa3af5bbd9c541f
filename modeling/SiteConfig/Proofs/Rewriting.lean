import Mathlib
import SiteConfig.Proofs.Scripts
import SiteConfig.Proofs.Sentences

/-!
A script that was read is written, read and written again: the text is the same, unless a statement
is taken for another one where it starts, or a piece that is kept runs on.
-/

namespace SiteConfig

namespace Script
open Text Layout SiteConfig.Tree Expression

variable {c c' : Cursor} {cs rest : List Char} {n : Nat} {tail : Bool} {place : Place}

theorem Listed.lexical_ofPieces {pieces : List (Piece (StatementBody Tree))}
    (h : Listed (.ofDepth n) c pieces c') : (ofPieces pieces).Lexical := by
  obtain ⟨htrivia, hdangling⟩ := Piece.plain_attach h.comments
  refine ⟨fun s hs => ?_, fun s hs => ?_, hdangling⟩
  · have hmem : s.body ∈ (ofPieces pieces).statements.map (·.body) := List.mem_map_of_mem hs
    rw [bodies_ofPieces] at hmem
    cases hbody : s.body with
    | expression t =>
      rw [hbody] at hmem
      exact .expression (h.lexical t hmem).1 (h.lexical t hmem).2
    | verbatim text =>
      rw [hbody] at hmem
      exact .verbatim (h.kept text hmem)
  · obtain ⟨x, hx, rfl⟩ := List.mem_map.mp hs
    exact htrivia x hx

/-! Pieces that run on nowhere. -/

/-- The marks that decide how an operand or a sign in front of it is read start no number. -/
theorem head_number_ne (h : Lexeme.number cs = some n) : ∃ ch rest, cs = ch :: rest ∧
    (isDigit ch || decide (ch = '.')) = true ∧
    ∀ d ∈ ['\'', '"', '`', '(', '[', '\x7b', '/', '<', '@', '#', '+', '-', '!', '~'], ch ≠ d := by
  obtain ⟨ch, rest, hrest, hch, -⟩ := head_number h
  refine ⟨ch, rest, hrest, by simpa using hch, ?_⟩
  rintro d hd rfl
  revert hch
  fin_cases hd <;> decide

theorem prefixLength?_number (h : Lexeme.number cs = some n) : prefixLength? cs = none := by
  obtain ⟨ch, rest, rfl, -, hne⟩ := head_number_ne h
  have hsign : ∀ d ∈ ['+', '-', '!', '~'], d ≠ ch := fun d hd heq =>
    hne d (List.mem_append_right ['\'', '"', '`', '(', '[', '\x7b', '/', '<', '@', '#'] hd) heq.symm
  simp only [List.forall_mem_cons, List.not_mem_nil, false_imp_iff, implies_true,
    and_true] at hsign
  rw [prefixLength?, (keyHead_number h).2.1]
  simp [signLength?, prefixSigns, hsign]

theorem primary_number {g : Grammar} {fuel : Nat} {text : List Char} (h : c.rest = text ++ rest)
    (hn : Lexeme.number c.rest = some text.length) :
    (primary g tail (fuel + 1)).run c =
      some ({ operand := .verbatim c.position (String.ofList text) }, c.forward text.length) := by
  obtain ⟨ch, cs, hrest, hch, hne⟩ := head_number_ne hn
  simp only [List.forall_mem_cons, List.not_mem_nil, false_imp_iff, implies_true,
    and_true] at hne
  have hspan : c.Reaches (c.forward text.length) := .forward c _
  have hslice : c.slice (c.forward text.length) = String.ofList text :=
    hspan.slice (by rw [Cursor.rest_behind h, h])
  rw [primary, Scan.run_bind (Scan.run_get c), hrest]
  simp only [hne, hch, decide_false, Bool.or_self, Bool.false_eq_true, if_false, if_true]
  rw [Scan.run_bind (Scan.run_lexeme h (h ▸ hn)), ← hslice]
  rfl

/-- A number runs on neither as an item nor as a value. -/
theorem not_runsOn_number (h : Lexeme.number cs = some n) (hplace : place = .item ∨ place = .value)
    (hitem : place = .item → tail = false) :
    ¬place.RunsOn tail (String.ofList (cs.take n)) := by
  rintro ⟨-, m, c, rest, hm, hrest, hbefore, hnot⟩
  obtain ⟨s, rest', hs, rfl⟩ : ∃ s rest', Stops s ∧ rest = s :: rest' := by
    rcases hplace with rfl | rfl <;> exact hbefore
  have hends : Lexeme.EndsNumber s := by
    rcases hs with rfl | rfl | rfl | rfl <;> simp [Lexeme.EndsNumber]
  obtain ⟨hnumber, hlength⟩ := Lexeme.number_take hends h rest'
  have hrest' : c.rest = cs.take n ++ s :: rest' := by rw [hrest, String.toList_ofList]
  have htext : (cs.take n).length = n := by rw [List.length_take, Nat.min_eq_left hlength]
  rw [← hrest', ← htext] at hnumber
  have hbehind := Cursor.rest_behind hrest'
  obtain ⟨room, hroom⟩ : ∃ k, (Grammar.ofDepth m).room = k + 1 := ⟨m - 1, by simp; omega⟩
  have hreads : Reads (.ofDepth m) tail c (.verbatim c.position (String.ofList (cs.take n)))
      (c.forward (cs.take n).length) :=
    .primary (keyHead_number hnumber).1.solid.atStart (prefixLength?_number hnumber)
      (by rw [hroom]; exact primary_number hrest' hnumber)
  refine hnot _ _ (hreads.takes (by omega) (hbehind ▸ hbefore) hitem) ?_ hbehind ?_ <;>
    rcases hplace with rfl | rfl <;> rfl

/-- A declaration of a name runs on nowhere, if no piece of its value does. -/
theorem keptAgain_declaration (first : Bool) {name : String} (hname : Lexeme.IsName name)
    {t : Tree} (hs : t.Settled true .value) (hl : t.Lexical) (depth column : Nat)
    (rest : List Char) :
    KeptAgain rest first ("const " ++ name ++ " = " ++ t.layout depth column ++ ";") := by
  have hconst : Lexeme.IsName "const" := by unfold Lexeme.IsName; cbv
  refine .statement first fun n c hn h => ?_
  obtain ⟨n, rfl⟩ : ∃ k, n = k + 1 := ⟨n - 1, by omega⟩
  have hsplit : c.rest = "const".toList ++ ' ' :: (name.toList ++
      ' ' :: '=' :: ' ' :: ((t.layout depth column).toList ++ ';' :: rest)) := by
    rw [h]
    simp [String.toList_append]
  obtain ⟨hsolid, hhead⟩ := Lexeme.solid_of_name hconst (' ' :: (name.toList ++
      ' ' :: '=' :: ' ' :: ((t.layout depth column).toList ++ ';' :: rest)))
  have hword := Scan.wordOf_append hconst (endsName_blank (name.toList ++
      ' ' :: '=' :: ' ' :: ((t.layout depth column).toList ++ ';' :: rest)))
  rw [← hsplit] at hsolid hhead hword
  have hbehind := Cursor.rest_behind hsplit
  -- behind the word stand the name and its value
  have hblank : ((c.forward "const".toList.length).forward (name.toList.length + 3)).rest =
      ' ' :: ((t.layout depth column).toList ++ ';' :: rest) := by
    rw [Cursor.rest_forward, hbehind]
    simp
  have hback : t.ReadsBack true .value :=
    readsBack_settled hs hl rfl (by rintro ⟨⟩) (by rintro ⟨⟩)
  have hle := ((Cursor.Reaches.forward c "const".toList.length).trans
    (.forward _ (name.toList.length + 3))).left_le
  obtain ⟨o, c', hrun, hvalue, hreach, -, hrest, -⟩ :=
    value_run (n := n) hback (by omega) stops_semicolon hblank
  have hspan : c.Reaches (c'.forward 1) := (Cursor.Reaches.forward c "const".toList.length).trans
    ((Cursor.Reaches.forward _ (name.toList.length + 3)).trans (hreach.trans (.forward c' 1)))
  have hend := (Cursor.pass hrest).1
  have hslice := hspan.slice (by rw [hend, h])
  rw [String.ofList_toList] at hslice
  refine ⟨hsolid.atStart, c'.forward 1, ?_, hend⟩
  rw [Statement.read, Scan.run_bind (Scan.run_get c), hword]
  split
  · next heq => exact absurd heq (hhead _ (by simp [isPunctuation]) (by decide))
  · next heq => exact absurd heq (hhead _ (by simp [isPunctuation]) (by decide))
  · next heq => exact absurd heq (hhead _ (by simp [isPunctuation]) (by decide))
  · next heq _ _ _ =>
    obtain rfl := Option.some.inj heq
    have htail : (Statement.wordTail (.ofDepth (n + 1)) "const").run (c.forward "const".length) =
        some ((), c'.forward 1) :=
      Statement.declarators_run hname (by simp) hbehind hrun hvalue hrest
    rw [if_pos (by decide), Scan.run_bind (Scan.run_skip _ c), Scan.run_bind htail,
      Statement.verbatimFrom, Scan.run_bind (Scan.run_get _), hslice]
    rfl
  · next heq _ _ _ => cases heq

end Script

namespace Program
open Script SiteConfig.Tree

/-- What is read has names, keys, comments and kept pieces where one stands, and no assignment
stands in front of a link. -/
theorem lexical_ofSource? {source : String} {p : Program Tree} (h : ofSource? source = some p) :
    p.Lexical := by
  obtain ⟨⟨p', c⟩, hrun, rfl⟩ := Option.map_eq_some_iff.mp h
  obtain ⟨pieces, c', hlisted, -, rfl⟩ :=
    Scan.triple_iff.mp spec_programPieces _ rfl p' c hrun
  exact hlisted.lexical_ofPieces

/-- A script with a declaration, a number and parentheses that are dropped. -/
def exported : Program Tree where
  statements := [
    { body := .verbatim "const f = require('f');", trivia := { leading := [⟨"// first", false⟩] } },
    { body := .expression (.node (some ⟨3, 1⟩) (.assignment
        (.node (some ⟨3, 1⟩) (.member (.node (some ⟨3, 1⟩) (.identifier "module")) "exports"))
        (.node (some ⟨3, 18⟩) (.array [
          ⟨.node (some ⟨3, 19⟩) (.verbatim "1"), {}⟩,
          ⟨.node (some ⟨3, 22⟩) (.call (.node (some ⟨3, 23⟩) (.identifier "f"))
            [.node (some ⟨3, 26⟩) (.boolean true)]), {}⟩] []))))
      trivia := { trailing := some "// behind" } }]
  dangling := []

set_option maxRecDepth 10000 in
theorem ofSource?_exported :
    ofSource? "// first\nconst f = require('f');\nmodule.exports = [1, (f)(true),]; // behind" =
      some exported := by
  cbv

theorem exported_settled : exported.Settled := by
  have hone : Lexeme.number ['1'] = some 1 := by cbv
  have hnumber : ¬Place.item.RunsOn false (String.ofList (['1'].take 1)) :=
    not_runsOn_number hone (.inl rfl) fun _ => rfl
  have hlexical := (lexical_ofSource? ofSource?_exported).statements _
    (List.mem_cons_of_mem _ List.mem_cons_self)
  obtain ⟨hlexical, -⟩ := hlexical
  have hname : Lexeme.IsName "f" ∧ Lexeme.IsName "require" := by
    refine ⟨?_, ?_⟩ <;> unfold Lexeme.IsName <;> cbv
  have hvalue : Tree.Plain (.made (.call (.made (.identifier "require")) [.made (.string "f")])) :=
    .call none (.identifier none ⟨hname.2, by decide⟩) rfl
      (List.forall_mem_singleton.mpr (.string none "f"))
  have hagain := keptAgain_declaration true hname.1 (hvalue.settled true .value) hvalue.lexical 0 0
  refine ⟨.verbatim fun h => h.2 (hagain _),
    StatementBody.settled_first false hlexical ?_ ?_ _, trivial⟩
  · refine .assignment .alone _ rfl (.member .target _ _ (.identifier ..)) ?_
    refine .array true .value _ [] (List.forall_mem_cons.mpr ⟨.verbatim _ hnumber, ?_⟩)
    exact List.forall_mem_singleton.mpr
      (.call .item _ (.identifier ..) (List.forall_mem_singleton.mpr (.boolean ..)))
  · exact (show "module" ∉ Statement.leadWords by decide)

end Program

end SiteConfig
