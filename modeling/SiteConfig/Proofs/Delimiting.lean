import Mathlib.Algebra.Group.Nat.Even
import SiteConfig.Proofs.Literals

/-!
A text between quotes ends where its own closing quote stands, whatever follows: a scan that only
looks for a quote without a backslash in force before it stops there, and so does whoever reads a
literal by the grammar.
-/

namespace SiteConfig.Quoted
open Text Script Lexeme

/-- How many backslashes a text ends with. -/
def backslashes (text : List Char) : Nat :=
  (text.reverse.takeWhile (· = '\\')).length

/-- A character behind the text is escaped: an odd number of backslashes stands before it. -/
def Escapes (text : List Char) : Prop :=
  Odd (backslashes text)

theorem backslashes_concat (text : List Char) (c : Char) :
    backslashes (text ++ [c]) = if c = '\\' then backslashes text + 1 else 0 := by
  unfold backslashes
  rw [List.reverse_append, List.reverse_singleton, List.singleton_append, List.takeWhile_cons]
  by_cases hc : c = '\\' <;> simp [hc]

theorem escapes_concat (text : List Char) (c : Char) :
    Escapes (text ++ [c]) ↔ c = '\\' ∧ ¬ Escapes text := by
  unfold Escapes
  rw [backslashes_concat]
  by_cases hc : c = '\\'
  · simp [hc, Nat.odd_add_one]
  · simp [hc]

/-- Whether the next character is escaped, for a scan that is told so of the first one. -/
def inForce (escaped : Bool) (text : List Char) : Bool :=
  text.foldl (fun e c => !e && c = '\\') escaped

theorem escapes_iff_inForce (text : List Char) : Escapes text ↔ inForce false text := by
  induction text using List.reverseRecOn with
  | nil => simp [Escapes, backslashes, inForce]
  | append_singleton text c ih =>
    rw [escapes_concat, ih, inForce, inForce, List.foldl_concat]
    simp [and_comm]

/-- A quote behind the text is in force, and no quote in the text is. -/
structure Closes (q : Char) (escaped : Bool) (text : List Char) : Prop where
  free : inForce escaped text = false
  inside : ∀ before after, text = before ++ q :: after → inForce escaped before = true

theorem Closes.nil (q : Char) : Closes q false [] where
  free := rfl
  inside before after h := by simp at h

theorem Closes.cons {q c : Char} {escaped : Bool} {text : List Char} (hq : c = q → escaped = true)
    (h : Closes q (!escaped && c = '\\') text) : Closes q escaped (c :: text) where
  free := h.free
  inside before after heq := by
    cases before with
    | nil => exact hq (List.cons.inj heq).1
    | cons d before =>
      obtain ⟨rfl, htext⟩ := List.cons.inj heq
      exact h.inside before after htext

/-- Such a scan ends at the first quote that is in force. -/
theorem upTo_spec {q : Char} {escaped : Bool} {cs : List Char} {n : Nat}
    (h : upTo q escaped cs = some n) :
    ∃ body rest, cs = body ++ q :: rest ∧ n = 1 + body.length ∧ Closes q escaped body := by
  induction cs generalizing escaped n with
  | nil => cases escaped <;> cases h
  | cons c cs ih =>
    cases escaped with
    | true =>
      obtain ⟨m, hm, rfl⟩ := Option.map_eq_some_iff.mp h
      obtain ⟨body, rest, rfl, rfl, hbody⟩ := ih hm
      exact ⟨c :: body, rest, rfl, by rw [List.length_cons, Nat.add_comm body.length],
        hbody.cons fun _ => rfl⟩
    | false =>
      rw [upTo] at h
      split at h
      · rename_i hc
        cases h
        exact ⟨[], cs, by rw [hc]; rfl, rfl, .nil q⟩
      · rename_i hc
        obtain ⟨m, hm, rfl⟩ := Option.map_eq_some_iff.mp h
        obtain ⟨body, rest, rfl, rfl, hbody⟩ := ih hm
        exact ⟨c :: body, rest, rfl, by rw [List.length_cons, Nat.add_comm body.length],
          hbody.cons fun h => absurd h hc⟩

theorem upTo_plain {q : Char} {ds : List Char} (h : ∀ d ∈ ds, d ≠ q ∧ d ≠ '\\') (cs : List Char) :
    upTo q false (ds ++ cs) = (upTo q false cs).map (ds.length + ·) := by
  induction ds with
  | nil => simp
  | cons d ds ih =>
    obtain ⟨⟨hq, hb⟩, hds⟩ := List.forall_mem_cons.mp h
    rw [List.cons_append, upTo, if_neg hq, decide_eq_false hb, ih hds, Option.map_map]
    congr 1
    funext n
    simp only [Function.comp_apply, List.length_cons]
    omega

/-- Only the character right behind a backslash can be a quote or a backslash. -/
theorem Escape.shape {text rest : List Char} {codes : List Nat} (h : Escape text codes rest)
    {q : Char} (hq : q = '\'' ∨ q = '"') :
    ∃ c ds, text = c :: ds ∧ ∀ d ∈ ds, d ≠ q ∧ d ≠ '\\' := by
  -- a quote is no digit of any kind and no brace, and neither is a backslash
  have hhex : hexDigit? q = none ∧ isOctalDigit q = false ∧ q ≠ '\x7b' ∧ q ≠ '\x7d' ∧ q ≠ '\n' := by
    rcases hq with rfl | rfl <;> decide
  obtain ⟨hhex, hoctal, hleft, hright, hlf⟩ := hhex
  cases h with
  | single | self | nul | decimal => exact ⟨_, [], rfl, by simp⟩
  | octal h =>
    obtain ⟨c, ds, rfl, -, hds, -⟩ := h.shape
    exact ⟨c, ds, rfl, fun d hd =>
      ⟨ne_of_isOctalDigit (hds d hd) hoctal, ne_of_isOctalDigit (hds d hd) rfl⟩⟩
  | @hex cs _ _ h | @unit cs _ _ h =>
    exact ⟨_, cs, rfl, fun d hd => ⟨h.mem_ne hhex d hd, h.mem_ne rfl d hd⟩⟩
  | @point cs _ _ h =>
    refine ⟨'u', _, rfl, fun d hd => ?_⟩
    rcases List.mem_cons.mp hd with rfl | hd
    · exact ⟨hleft.symm, by decide⟩
    rcases List.mem_append.mp hd with hd | hd
    · exact ⟨h.mem_ne hhex d hd, h.mem_ne rfl d hd⟩
    · obtain rfl := List.mem_singleton.mp hd
      exact ⟨hright.symm, by decide⟩
  | continued h =>
    cases h with
    | crlf => exact ⟨'\r', ['\n'], rfl, by simpa using hlf.symm⟩
    | _ => exact ⟨_, [], rfl, by simp⟩

/-- The text of a literal is passed over up to its closing quote. -/
theorem Body.upTo {q : Char} (hq : q = '\'' ∨ q = '"') {body : List Char} {codes : List Nat}
    (h : Body q body codes) (rest : List Char) :
    Lexeme.upTo q false (body ++ q :: rest) = some (body.length + 1) := by
  have hb : '\\' ≠ q := by rcases hq with rfl | rfl <;> decide
  induction h with
  | nil => rw [List.nil_append, Lexeme.upTo, if_pos rfl]; rfl
  | @plain c cs _ hne hbackslash _ _ _ ih =>
    have hplain := @upTo_plain q [c] (by simpa using ⟨hne, hbackslash⟩) (cs ++ q :: rest)
    rw [List.cons_append, ← List.singleton_append, hplain, ih]
    simp [Nat.add_comm]
  | @escape text cs _ _ he _ ih =>
    obtain ⟨c, ds, rfl, hds⟩ := he.shape hq
    rw [List.cons_append, Lexeme.upTo, if_neg hb, List.cons_append, List.cons_append,
      decide_eq_true rfl, Lexeme.upTo, List.append_assoc, upTo_plain hds, ih]
    simp only [Option.map_some, List.length_cons, List.length_append]
    congr 1
    omega

/-- Two literals that start one text are the same. -/
theorem Literal.prefix_unique {token token' behind behind' : List Char} {codes codes' : List Nat}
    (h : Literal token codes) (h' : Literal token' codes')
    (heq : token ++ behind = token' ++ behind') : token = token' := by
  cases h with
  | @quoted q body _ hq hbody =>
    cases h' with
    | @quoted q' body' _ hq' hbody' =>
      simp only [List.cons_append, List.append_assoc, List.nil_append] at heq
      obtain ⟨rfl, heq⟩ := List.cons.inj heq
      have hscan := hbody.upTo hq behind
      rw [heq, hbody'.upTo hq' behind'] at hscan
      have hlength : body.length = body'.length := by
        have := Option.some.inj hscan
        omega
      rw [List.append_inj_left heq hlength]

theorem isControl_hexDigits (width n : Nat) : ∀ c ∈ hexDigits width n, isControl c = false := by
  have hdigit : ∀ k < 16, isControl (Nat.digitChar k) = false := by decide
  induction width generalizing n with
  | zero => simp [hexDigits]
  | succ width ih =>
    rw [hexDigits]
    refine List.forall_mem_append.mpr ⟨ih (n / 16), ?_⟩
    simpa using hdigit _ (Nat.mod_lt n (by decide))

theorem isControl_encodeChar {q : Char} (hq : isControl q = false) (c : Char) :
    ∀ d ∈ encodeChar q c, isControl d = false := by
  have hescape : ∀ e, isControl e = false → ∀ d ∈ ['\\', e], isControl d = false := by
    intro e he
    exact List.forall_mem_cons.mpr ⟨rfl, by simpa using he⟩
  unfold encodeChar
  split
  · exact hescape '\\' rfl
  split
  · exact hescape 'n' rfl
  split
  · exact hescape 'r' rfl
  split
  · exact hescape 't' rfl
  split
  · subst_vars
    exact hescape c hq
  split
  · exact List.forall_mem_cons.mpr ⟨rfl, List.forall_mem_cons.mpr
      ⟨rfl, isControl_hexDigits 4 c.toNat⟩⟩
  · rename_i hc
    simpa using hc

theorem isControl_quote (text : String) : ∀ c ∈ (quote text).toList, isControl c = false := by
  have hq : isControl (delimiter text.toList) = false := by
    rcases delimiter_eq text.toList with h | h <;> rw [h] <;> rfl
  rw [quote, String.toList_ofList, encode]
  intro c hc
  simp only [List.mem_append, List.mem_cons, List.mem_flatMap, List.not_mem_nil, or_false] at hc
  rcases hc with (rfl | ⟨d, -, hd⟩) | rfl
  · exact hq
  · exact isControl_encodeChar hq d c hd
  · exact hq

/-- A text is read back from its literal, and the literal ends where it ends. It holds no control
character, no quote without a backslash in force before it but the two at its ends, and in front of
any text it is the literal that is read, here and by the grammar. -/
theorem quote_delimits (text : String) :
    unquote (quote text) = some text ∧
      (∀ c ∈ (quote text).toList, isControl c = false) ∧
      (∃ q body, (q = '\'' ∨ q = '"') ∧ (quote text).toList = q :: (body ++ [q]) ∧
        (∀ before after, body = before ++ q :: after → Escapes before) ∧ ¬ Escapes body) ∧
      Literal (quote text).toList (text.toList.map Char.toNat) ∧
      ∀ rest, Lexeme.string ((quote text).toList ++ rest) = some (quote text).toList.length ∧
        ∀ token codes behind, Literal token codes → token ++ behind = (quote text).toList ++ rest →
          token = (quote text).toList := by
  have hliteral := literal_quote text
  refine ⟨unquote_quote text, isControl_quote text, ?_, hliteral, fun rest =>
    ⟨Lexeme.string_quote text rest, fun token codes behind h heq => h.prefix_unique hliteral heq⟩⟩
  have hq := delimiter_eq text.toList
  have hbody := Body.flatMap hq text.toList
  -- the scan of the body stops at the quote behind it, so it met no quote in force before
  obtain ⟨body, rest, heq, hlength, hcloses⟩ := upTo_spec (hbody.upTo hq [])
  obtain ⟨rfl, -⟩ := List.append_inj heq (by omega)
  refine ⟨_, _, hq, by rw [quote, String.toList_ofList, encode]; rfl, ?_, ?_⟩
  · intro before after hbefore
    rw [escapes_iff_inForce]
    exact hcloses.inside before after hbefore
  · rw [escapes_iff_inForce, hcloses.free]
    exact Bool.false_ne_true

end SiteConfig.Quoted
