import SiteConfig.Proofs.Lexing
import SiteConfig.Script.Grammar

/-!
What the readers between two tokens do to a place in a script whose text is known.
-/

namespace SiteConfig.Script
open Text

namespace Cursor

variable {c : Cursor} {text rest : List Char}

@[simp] theorem rest_forward (c : Cursor) (n : Nat) : (c.forward n).rest = c.rest.drop n := rfl

@[simp] theorem left_forward (c : Cursor) (n : Nat) : (c.forward n).left = c.left - n := rfl

@[simp] theorem forward_zero (c : Cursor) : c.forward 0 = c := by
  obtain ⟨rest, position, left, h⟩ := c
  simp [forward]

theorem forward_forward (c : Cursor) (m n : Nat) :
    (c.forward m).forward n = c.forward (m + n) := by
  obtain ⟨rest, position, left, h⟩ := c
  simp only [forward, Cursor.mk.injEq, List.drop_drop, ← Position.after_append, true_and]
  refine ⟨?_, by omega⟩
  rw [List.take_add]

theorem forward_min (c : Cursor) (n : Nat) : c.forward n = c.forward (min n c.rest.length) := by
  have hleft := c.left_eq
  have hdrop : c.rest.drop (min n c.rest.length) = c.rest.drop n := by
    rcases Nat.le_total n c.rest.length with h | h
    · rw [Nat.min_eq_left h]
    · rw [Nat.min_eq_right h, List.drop_length, List.drop_of_length_le h]
  have htake : c.rest.take (min n c.rest.length) = c.rest.take n := by
    rw [← List.take_take, List.take_length]
  simp only [forward, hdrop, htake, Cursor.mk.injEq, true_and]
  omega

/-- A later place of the same script. -/
def Reaches (c c' : Cursor) : Prop :=
  ∃ n, c' = c.forward n

namespace Reaches

variable {c' c'' : Cursor}

theorem refl (c : Cursor) : c.Reaches c :=
  ⟨0, (forward_zero c).symm⟩

theorem forward (c : Cursor) (n : Nat) : c.Reaches (c.forward n) :=
  ⟨n, rfl⟩

theorem trans (h : c.Reaches c') (h' : c'.Reaches c'') : c.Reaches c'' := by
  obtain ⟨m, rfl⟩ := h
  obtain ⟨n, rfl⟩ := h'
  exact ⟨m + n, forward_forward c m n⟩

theorem left_le (h : c.Reaches c') : c'.left ≤ c.left := by
  obtain ⟨n, rfl⟩ := h
  exact Nat.sub_le _ _

/-- What was read tells how far the later place is. -/
theorem eq_forward (h : c.Reaches c') (ht : c.rest = text ++ c'.rest) :
    c' = c.forward text.length := by
  obtain ⟨n, rfl⟩ := h
  have hlen : text.length = min n c.rest.length := by
    have := congrArg List.length ht
    simp only [List.length_append, rest_forward, List.length_drop] at this
    omega
  rw [hlen, ← forward_min]

theorem slice (h : c.Reaches c') (ht : c.rest = text ++ c'.rest) :
    c.slice c' = String.ofList text := by
  have hleft := c.left_eq
  have hlen := congrArg List.length ht
  rw [List.length_append] at hlen
  have hcount : c.left - c'.left = text.length := by
    rw [h.eq_forward ht, left_forward]
    omega
  rw [Cursor.slice, textTo, hcount, ht, List.take_left]

end Reaches

theorem left_of_rest {c' : Cursor} (ht : c.rest = text ++ c'.rest) :
    c.left = text.length + c'.left := by
  rw [c.left_eq, c'.left_eq, ht, List.length_append]

/-- What is behind one character. -/
theorem pass {ch : Char} (h : c.rest = ch :: rest) :
    (c.forward 1).rest = rest ∧ c.left = (c.forward 1).left + 1 := by
  have hrest : (c.forward 1).rest = rest := by rw [rest_forward, h, List.drop_one, List.tail_cons]
  have hsplit : c.rest = [ch] ++ (c.forward 1).rest := by rw [h, hrest, List.singleton_append]
  exact ⟨hrest, (left_of_rest hsplit).trans (Nat.add_comm ..)⟩

theorem rest_behind (h : c.rest = text ++ rest) : (c.forward text.length).rest = rest := by
  simp [h]

theorem rest_behind_cons {ch : Char} (h : c.rest = text ++ ch :: rest) :
    (c.forward (text.length + 1)).rest = rest := by
  rw [rest_forward, h, ← List.drop_drop, List.drop_left, List.drop_one, List.tail_cons]

end Cursor

theorem line_next (p : Position) (ch : Char) :
    (p.next ch).line = p.line + [ch].count '\n' := by
  by_cases h : ch = '\n' <;> simp [Position.next, h]

theorem line_after (p : Position) (text : List Char) :
    (p.after text).line = p.line + text.count '\n' := by
  induction text generalizing p with
  | nil => rfl
  | cons ch rest ih =>
    have hcount : (ch :: rest).count '\n' = [ch].count '\n' + rest.count '\n' := by
      rw [← List.count_append, List.singleton_append]
    rw [Position.after_cons, ih, line_next, hcount]
    omega

theorem Cursor.Reaches.line {c c' : Cursor} {text : List Char} (h : c.Reaches c')
    (ht : c.rest = text ++ c'.rest) : c'.position.line = c.position.line + text.count '\n' := by
  rw [h.eq_forward ht]
  simp [Cursor.forward, line_after, ht]

namespace Scan

variable {α β : Type} {c c' : Cursor}

theorem run_bind {s : Scan α} {a : α} (h : s.run c = some (a, c')) (f : α → Scan β) :
    (s >>= f).run c = (f a).run c' := by
  rw [StateT.run_bind, h]
  rfl

@[simp] theorem run_pure (a : α) (c : Cursor) : (pure a : Scan α).run c = some (a, c) := rfl

@[simp] theorem run_get (c : Cursor) : (get : Scan Cursor).run c = some (c, c) := rfl

@[simp] theorem run_set (c c' : Cursor) : (set c' : Scan Unit).run c = some ((), c') := rfl

@[simp] theorem run_rest (c : Cursor) : rest.run c = some (c.rest, c) := rfl

@[simp] theorem run_skip (n : Nat) (c : Cursor) : (skip n).run c = some ((), c.forward n) := rfl

@[simp] theorem run_sees (s : String) (c : Cursor) :
    (sees s).run c = some (s.toList.isPrefixOf c.rest, c) := rfl

theorem run_guard {p : Prop} [Decidable p] (h : p) (c : Cursor) :
    (guard p : Scan Unit).run c = some ((), c) := by
  have hguard : (guard p : Scan Unit) = pure () := if_pos h
  rw [hguard, run_pure]

theorem run_bind_pure (s : Scan α) (f : α → β) (c : Cursor) :
    (s >>= fun a => pure (f a)).run c = (s.run c).map fun out => (f out.1, out.2) := by
  rw [StateT.run_bind]
  cases s.run c <;> rfl

theorem run_lexeme {l : Lexeme} {text rest : List Char} (h : c.rest = text ++ rest)
    (hl : l (text ++ rest) = some text.length) :
    (lexeme l).run c = some (String.ofList text, c.forward text.length) := by
  have hslice := (Cursor.Reaches.forward c text.length).slice
    (h.trans (by rw [Cursor.rest_behind h]))
  rw [← h] at hl
  rw [← hslice]
  simp only [lexeme, run_bind (run_get c), hl]
  rfl

end Scan

/-- A token starts here that is no comment and behind which the script goes on: no semicolon is
inserted before it. -/
def Steady (cs : List Char) : Prop :=
  Lexeme.Solid cs ∧ cs.head? ≠ some '\x7d'

theorem Steady.not_inserted {cs : List Char} (h : Steady cs) (afterValue : Bool) (fuel : Nat) :
    Semicolon.inserted afterValue fuel cs = false := by
  obtain ⟨⟨c, rest, rfl, hb, hslash, -⟩, hbrace⟩ := h
  have hbrace : c ≠ '\x7d' := by simpa using hbrace
  have hspace : isAsciiSpace c = false := by
    cases hs : isAsciiSpace c with
    | false => rfl
    | true => rw [isBlank_of_isAsciiSpace hs] at hb; cases hb
  have hline : isLineEnd c = false := by
    simp only [isBlank, Bool.or_eq_false_iff, decide_eq_false_iff_not] at hb
    have hfeed : c ≠ '\n' := by
      rintro rfl
      simp [isAsciiSpace] at hspace
    simp [isLineEnd, hb, hfeed]
  cases fuel with
  | zero => rw [Semicolon.inserted]
  | succ fuel =>
    rw [Semicolon.inserted, Semicolon.inserted.step, if_neg hbrace, hline, hspace]
    · rfl
    · simp
    · intro rest' heq
      exact hslash (List.cons.inj heq).1

/-- A blank before such a token changes nothing. -/
theorem Steady.not_inserted_blank {cs : List Char} (h : Steady cs) (afterValue : Bool)
    (fuel : Nat) : Semicolon.inserted afterValue fuel (' ' :: cs) = false := by
  cases fuel with
  | zero => rw [Semicolon.inserted]
  | succ fuel =>
    rw [Semicolon.inserted, Semicolon.inserted.step]
    · exact h.not_inserted afterValue fuel
    · simp
    · simp

namespace Ending

variable {c : Cursor}

theorem not_inserts (e : Ending) {cs : List Char} (hs : Steady cs)
    (h : c.rest = cs ∨ c.rest = ' ' :: cs) : e.inserts c = false := by
  cases e with
  | never => rfl
  | word | value =>
    rcases h with h | h
    · rw [inserts, h, hs.not_inserted]
    · rw [inserts, h, hs.not_inserted_blank]

end Ending

namespace Scan

variable {α β : Type} {c : Cursor} {blank rest : List Char}

theorem run_gap (h : c.rest = blank ++ rest) (hb : ∀ ch ∈ blank, isBlank ch)
    (hs : Lexeme.Solid rest) : gap.run c = some ((), c.forward blank.length) := by
  rw [gap, run_bind (run_rest c), h, Lexeme.gap_blank hb hs, run_skip]

/-- Right in front of a token there is nothing to pass. -/
theorem run_gap_solid (hs : Lexeme.Solid c.rest) : gap.run c = some ((), c) := by
  have h : c.rest = [] ++ c.rest := rfl
  simpa using run_gap h (fun ch hch => by cases hch) hs

theorem run_token {s : String} (h : c.rest = blank ++ (s.toList ++ rest))
    (hb : ∀ ch ∈ blank, isBlank ch) (hs : Lexeme.Solid (s.toList ++ rest)) :
    (token s).run c = some ((), c.forward (blank.length + s.length)) := by
  have hprefix : s.toList.isPrefixOf (s.toList ++ rest) = true :=
    List.isPrefixOf_iff_prefix.mpr (List.prefix_append _ _)
  rw [token, run_bind (run_gap h hb hs), run_bind (run_sees s _), Cursor.rest_behind h, hprefix,
    run_bind (run_guard rfl _), run_skip, Cursor.forward_forward]

/-- A mark right here. -/
theorem run_token_solid {s : String} (h : c.rest = s.toList ++ rest)
    (hs : Lexeme.Solid c.rest) : (token s).run c = some ((), c.forward s.length) := by
  have h' : c.rest = [] ++ (s.toList ++ rest) := h
  simpa using run_token h' (fun ch hch => by cases hch) (h ▸ hs)

theorem next?_solid (e : Ending) (hs : Steady rest)
    (h : c.rest = rest ∨ c.rest = ' ' :: rest) (fuel : Nat) :
    c.next? e (fuel + 1) = some (c.forward (Lexeme.run isBlank c.rest)) ∧
      (c.forward (Lexeme.run isBlank c.rest)).rest = rest := by
  have hrest : (c.forward (Lexeme.run isBlank c.rest)).rest = rest := by
    rcases h with h | h
    · rw [h, hs.1.run_eq_zero, Cursor.forward_zero, h]
    · have hblank : ∀ ch ∈ [' '], isBlank ch := List.forall_mem_singleton.mpr rfl
      have hrun : Lexeme.run isBlank ([' '] ++ rest) = 1 := Lexeme.run_blank hblank hs.1
      rw [h, ← List.singleton_append, hrun, Cursor.rest_forward, h]
      rfl
  refine ⟨?_, hrest⟩
  rw [Cursor.next?, e.not_inserts hs h, if_neg (by decide)]
  simp only [hrest, hs.1.comment]

theorem run_upcoming (e : Ending) (hs : Steady rest) (h : c.rest = rest ∨ c.rest = ' ' :: rest) :
    (upcoming e).run c = some (rest, c) := by
  obtain ⟨hnext, hrest⟩ := next?_solid e hs h c.left
  rw [upcoming, run_bind (run_get c)]
  simp only [hnext, run_pure, hrest]

theorem run_upcoming_steady (e : Ending) (hs : Steady c.rest) :
    (upcoming e).run c = some (c.rest, c) :=
  run_upcoming e hs (.inl rfl)

theorem run_semicolon (e : Ending) (h : c.rest = ';' :: rest) :
    (semicolon e).run c = some ((), c.forward 1) := by
  have hsolid : Lexeme.Solid c.rest := ⟨';', rest, h, by decide⟩
  have hsteady : Steady c.rest := ⟨hsolid, by simp [h]⟩
  have hnone : c.insertion? e (c.left + 1) = none := by
    rw [Cursor.insertion?, e.not_inserts hsteady (.inl rfl), if_neg (by decide)]
    simp only [hsolid.run_eq_zero, Cursor.forward_zero, hsolid.comment]
  rw [semicolon, run_bind (run_get c), hnone]
  exact run_token_solid (s := ";") h hsolid

end Scan

end SiteConfig.Script
