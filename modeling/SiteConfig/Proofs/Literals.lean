import Mathlib.Data.List.TakeWhile
import SiteConfig.Proofs.Grouping

/-!
String literals as the language defines them, apart from how they are read here: the grammar of
escapes with the number of what each stands for, and the value of a literal in 16-bit units.
-/

namespace SiteConfig.Quoted
open Text

/-- A code point in units of 16 bits, two for one above 0xFFFF. -/
def unitsOfCode (n : Nat) : List Nat :=
  if n < 0x10000 then [n] else [0xd800 + (n - 0x10000) / 0x400, 0xdc00 + (n - 0x10000) % 0x400]

def units (codes : List Nat) : List Nat :=
  codes.flatMap unitsOfCode

/-- The value of a text. -/
def unitsOf (text : List Char) : List Nat :=
  units (text.map Char.toNat)

/-- The line feed, the carriage return and the two Unicode line terminators. -/
def isTerminator (c : Char) : Bool :=
  c = '\n' || c = '\r' || c = '\u2028' || c = '\u2029'

/-- What the single character behind a backslash stands for, if it is one of these. -/
def single? : Char → Option Nat
  | '\'' => some 0x27
  | '"' => some 0x22
  | '\\' => some 0x5c
  | 'b' => some 0x08
  | 't' => some 0x09
  | 'n' => some 0x0a
  | 'v' => some 0x0b
  | 'f' => some 0x0c
  | 'r' => some 0x0d
  | _ => none

def octalDigit? (c : Char) : Option Nat :=
  if isOctalDigit c then some (c.toNat - '0'.toNat) else none

/-- Hexadecimal digits and their number. -/
inductive HexDigits : List Char → Nat → Prop where
  | one {c : Char} {a : Nat} (h : hexDigit? c = some a) : HexDigits [c] a
  | snoc {cs : List Char} {c : Char} {n a : Nat} (hs : HexDigits cs n) (h : hexDigit? c = some a) :
    HexDigits (cs ++ [c]) (16 * n + a)

/-- The digits of an octal escape with their number, and the text behind them. No more than three
are taken, and none that would bring the number above 255. -/
inductive OctalDigits : List Char → Nat → List Char → Prop where
  | zero {rest : List Char} (h : rest.head? = some '8' ∨ rest.head? = some '9') :
    OctalDigits ['0'] 0 rest
  | one {c : Char} {a : Nat} {rest : List Char} (hc : octalDigit? c = some a) (ha : a ≠ 0)
      (h : ¬ rest.head?.any isOctalDigit) : OctalDigits [c] a rest
  | two {c d : Char} {a b : Nat} {rest : List Char} (hc : octalDigit? c = some a) (ha : a ≤ 3)
      (hd : octalDigit? d = some b) (h : ¬ rest.head?.any isOctalDigit) :
    OctalDigits [c, d] (8 * a + b) rest
  | twoHigh {c d : Char} {a b : Nat} {rest : List Char} (hc : octalDigit? c = some a) (ha : 4 ≤ a)
      (hd : octalDigit? d = some b) : OctalDigits [c, d] (8 * a + b) rest
  | three {c d e : Char} {a b k : Nat} {rest : List Char} (hc : octalDigit? c = some a) (ha : a ≤ 3)
      (hd : octalDigit? d = some b) (he : octalDigit? e = some k) :
    OctalDigits [c, d, e] (64 * a + 8 * b + k) rest

/-- The end of a line, and the text behind it. -/
inductive LineEnd : List Char → List Char → Prop where
  | lf {rest : List Char} : LineEnd ['\n'] rest
  | cr {rest : List Char} (h : rest.head? ≠ some '\n') : LineEnd ['\r'] rest
  | crlf {rest : List Char} : LineEnd ['\r', '\n'] rest
  | ls {rest : List Char} : LineEnd ['\u2028'] rest
  | ps {rest : List Char} : LineEnd ['\u2029'] rest

/-- What may stand behind a backslash, the code points or units it stands for, and the text behind
it, of which some escapes depend on the first character. -/
inductive Escape : List Char → List Nat → List Char → Prop where
  | single {c : Char} {n : Nat} {rest : List Char} (h : single? c = some n) : Escape [c] [n] rest
  /-- Any other character but the digits, `x`, `u` and the ends of lines stands for itself. -/
  | self {c : Char} {rest : List Char} (hs : single? c = none) (hd : isDigit c = false)
      (hx : c ≠ 'x') (hu : c ≠ 'u') (ht : isTerminator c = false) : Escape [c] [c.toNat] rest
  | nul {rest : List Char} (h : ¬ rest.head?.any isDigit) : Escape ['0'] [0] rest
  | octal {cs : List Char} {n : Nat} {rest : List Char} (h : OctalDigits cs n rest) :
    Escape cs [n] rest
  | decimal {c : Char} {rest : List Char} (h : c = '8' ∨ c = '9') : Escape [c] [c.toNat] rest
  | hex {cs : List Char} {n : Nat} {rest : List Char} (h : HexDigits cs n) (hl : cs.length = 2) :
    Escape ('x' :: cs) [n] rest
  | unit {cs : List Char} {n : Nat} {rest : List Char} (h : HexDigits cs n) (hl : cs.length = 4) :
    Escape ('u' :: cs) [n] rest
  | point {cs : List Char} {n : Nat} {rest : List Char} (h : HexDigits cs n) (hn : n ≤ 0x10ffff) :
    Escape ('u' :: '\x7b' :: (cs ++ ['\x7d'])) [n] rest
  /-- A line that goes on behind its end. -/
  | continued {cs rest : List Char} (h : LineEnd cs rest) : Escape cs [] rest

/-- The text between two quotes `q`, and the code points or units it stands for. The quote behind
the text is no digit and no line feed, so an escape at its end sees nothing there. -/
inductive Body (q : Char) : List Char → List Nat → Prop where
  | nil : Body q [] []
  | plain {c : Char} {cs : List Char} {codes : List Nat} (hq : c ≠ q) (hb : c ≠ '\\')
      (hn : c ≠ '\n') (hr : c ≠ '\r') (h : Body q cs codes) : Body q (c :: cs) (c.toNat :: codes)
  | escape {text cs : List Char} {out codes : List Nat} (he : Escape text out cs)
      (h : Body q cs codes) : Body q ('\\' :: (text ++ cs)) (out ++ codes)

/-- A string literal of the language. -/
inductive Literal : List Char → List Nat → Prop where
  | quoted {q : Char} {body : List Char} {codes : List Nat} (hq : q = '\'' ∨ q = '"')
      (h : Body q body codes) : Literal (q :: (body ++ [q])) codes

/-! The digits of an escape. -/

theorem octalDigit?_eq_some {c : Char} {a : Nat} (h : octalDigit? c = some a) :
    isOctalDigit c = true ∧ c.toNat = a + 48 ∧ a < 8 := by
  unfold octalDigit? at h
  split at h
  · rename_i hc
    have hc' : '0' ≤ c ∧ c ≤ '7' := by simpa [isOctalDigit] using hc
    have h0 : 48 ≤ c.toNat := hc'.1
    have h7 : c.toNat ≤ 55 := hc'.2
    simp at h
    exact ⟨hc, by omega, by omega⟩
  · cases h

theorem ne_of_isOctalDigit {c d : Char} (h : isOctalDigit c = true) (hd : isOctalDigit d = false) :
    c ≠ d := by
  rintro rfl
  rw [h] at hd
  cases hd

theorem ne_of_hexDigit? {c d : Char} {a : Nat} (h : hexDigit? c = some a)
    (hd : hexDigit? d = none) : c ≠ d := by
  rintro rfl
  rw [h] at hd
  cases hd

theorem HexDigits.mem_ne {cs : List Char} {n : Nat} (h : HexDigits cs n) {d : Char}
    (hd : hexDigit? d = none) : ∀ c ∈ cs, c ≠ d := by
  induction h with
  | one h => simpa using ne_of_hexDigit? h hd
  | snoc _ h ih => simpa [or_imp, forall_and] using ⟨ih, ne_of_hexDigit? h hd⟩

theorem HexDigits.foldlM_eq {cs : List Char} {n : Nat} (h : HexDigits cs n) :
    cs.foldlM (fun n c => (hexDigit? c).map (16 * n + ·)) 0 = some n := by
  induction h with
  | one h => simp [h]
  | snoc _ h ih => simp [List.foldlM_append, ih, h]

theorem HexDigits.hexValue?_eq {cs : List Char} {n : Nat} (h : HexDigits cs n)
    (hn : n < UInt32.size) : hexValue? cs = some n := by
  have hplus := h.mem_ne (d := '+') rfl
  have hne : cs ≠ [] := by cases h <;> simp
  have hfold := h.foldlM_eq
  unfold hexValue?
  split
  · exact absurd rfl (hplus '+' (by simp))
  · simp [hne, hfold, hn, guard]

theorem hexDigit?_lt {c : Char} {a : Nat} (h : hexDigit? c = some a) : a < 16 := by
  simp only [hexDigit?, isDigit, Bool.and_eq_true, decide_eq_true_eq, Char.le_def,
    UInt32.le_iff_toNat_le] at h
  change (if 48 ≤ c.toNat ∧ c.toNat ≤ 57 then some (c.toNat - 48)
    else if 97 ≤ c.toNat ∧ c.toNat ≤ 102 then some (c.toNat - 97 + 10)
    else if 65 ≤ c.toNat ∧ c.toNat ≤ 70 then some (c.toNat - 65 + 10) else none) = some a at h
  grind

theorem HexDigits.lt {cs : List Char} {n : Nat} (h : HexDigits cs n) : n < 16 ^ cs.length := by
  induction h with
  | one h => simpa using hexDigit?_lt h
  | snoc _ h ih =>
    have := hexDigit?_lt h
    rw [List.length_append, List.length_singleton, Nat.pow_succ]
    omega

theorem OctalDigits.shape {cs rest : List Char} {n : Nat} (h : OctalDigits cs n rest) :
    ∃ c ds, cs = c :: ds ∧ isOctalDigit c = true ∧ (∀ d ∈ ds, isOctalDigit d = true) ∧
      (c ≠ '0' ∨ (ds ++ rest).head?.any isDigit) ∧ n < 256 ∧ (ds = [] → n ≠ c.toNat) := by
  have hdigit : ∀ d, isOctalDigit d = true → isDigit d = true := by
    intro d hd
    simp only [isOctalDigit, isDigit, Bool.and_eq_true, decide_eq_true_eq] at hd ⊢
    exact ⟨hd.1, Char.le_trans hd.2 (by decide)⟩
  cases h with
  | zero h =>
    refine ⟨'0', [], rfl, rfl, by simp, .inr ?_, by decide, by decide⟩
    rcases h with h | h <;> rw [List.nil_append, h] <;> rfl
  | @one c a _ hc ha _ =>
    obtain ⟨ho, htoNat, hlt⟩ := octalDigit?_eq_some hc
    refine ⟨c, [], rfl, ho, by simp, .inl ?_, by omega, fun _ => by omega⟩
    rintro rfl
    exact ha (Option.some.inj hc).symm
  | @two c d a b _ hc ha hd _ | @twoHigh c d a b _ hc ha hd =>
    obtain ⟨ho, -, hlt⟩ := octalDigit?_eq_some hc
    obtain ⟨ho', -, hlt'⟩ := octalDigit?_eq_some hd
    exact ⟨c, [d], rfl, ho, by simpa using ho', .inr (hdigit d ho'), by omega, by simp⟩
  | @three c d e a b k _ hc ha hd he =>
    obtain ⟨ho, -, hlt⟩ := octalDigit?_eq_some hc
    obtain ⟨ho', -, hlt'⟩ := octalDigit?_eq_some hd
    obtain ⟨ho'', -, hlt''⟩ := octalDigit?_eq_some he
    exact ⟨c, [d, e], rfl, ho, by simp [ho', ho''], .inr (hdigit d ho'), by omega, by simp⟩

/-! What is read for one escape. -/

theorem charOfCode?_eq_none {n : Nat} (h : ¬ n.isValidChar) : charOfCode? n = none := by
  rw [charOfCode?, dif_neg h]

theorem isStandard_append {cs : List Char} (h : ∀ c ∈ cs, c ≠ '\\') (rest : List Char) :
    isStandard (cs ++ rest) = isStandard rest := by
  induction cs with
  | nil => rfl
  | cons c cs ih =>
    obtain ⟨hc, hcs⟩ := List.forall_mem_cons.mp h
    rw [List.cons_append, isStandard_plain hc, ih hcs]

theorem decodeBody_append {cs : List Char} (h : ∀ c ∈ cs, c ≠ '\\') (rest : List Char) :
    decodeBody (cs ++ rest) = (decodeBody rest).map (cs ++ ·) := by
  induction cs with
  | nil => simp
  | cons c cs ih =>
    obtain ⟨hc, hcs⟩ := List.forall_mem_cons.mp h
    rw [List.cons_append, decodeBody_plain hc, ih hcs, Option.map_map]
    rfl

theorem simpleEscape?_eq_none {c : Char} (h : ∀ d ∈ ['n', 'r', 't', 'b', 'f', 'v'], c ≠ d) :
    simpleEscape? c = none := by
  unfold simpleEscape?
  split <;> first | rfl | exact absurd rfl (h _ (by decide))

/-- A backslash is dropped in front of a character with no meaning of its own. -/
theorem decodeBody_kept {c : Char} (hs : simpleEscape? c = none) {rest : List Char}
    (h0 : c ≠ '0' ∨ rest.head?.any isDigit) (hx : c ≠ 'x') (hu : c ≠ 'u') (hn : c ≠ '\n')
    (hr : c ≠ '\r') : decodeBody ('\\' :: c :: rest) = (decodeBody rest).map (c :: ·) := by
  rw [decodeBody.eq_def]
  rcases h0 with h0 | h0 <;> simp [hs, h0, hx, hu, hn, hr]

theorem decodeBody_nul {rest : List Char} (h : ¬ rest.head?.any isDigit) :
    decodeBody ('\\' :: '0' :: rest) = (decodeBody rest).map ('\x00' :: ·) := by
  rw [decodeBody.eq_def]
  simp [simpleEscape?, h]

theorem decodeBody_cr {rest : List Char} (h : rest.head? ≠ some '\n') :
    decodeBody ('\\' :: '\r' :: rest) = decodeBody rest := by
  rw [decodeBody.eq_def]
  have hsimple : simpleEscape? '\r' = none := rfl
  simp only [hsimple, Char.reduceEq, decide_false, Bool.false_and, Bool.false_eq_true, if_false,
    if_true]
  split
  · rename_i h
    exact absurd rfl h
  · rfl

theorem decodeBody_hex {cs : List Char} {n : Nat} (h : HexDigits cs n) (hl : cs.length = 2)
    (rest : List Char) : decodeBody ('\\' :: 'x' :: (cs ++ rest)) =
      (charOfCode? n).bind fun c => (decodeBody rest).map (c :: ·) := by
  have hn : n < UInt32.size := h.lt.trans (by rw [hl]; decide)
  rw [decodeBody.eq_def]
  simp [simpleEscape?, List.take_left' hl, List.drop_left' hl, h.hexValue?_eq hn]

theorem unicodeDigits_unit {cs : List Char} {n : Nat} (h : HexDigits cs n) (hl : cs.length = 4)
    (rest : List Char) : unicodeDigits (cs ++ rest) = (cs, rest) := by
  have hbrace := h.mem_ne (d := '\x7b') rfl
  unfold unicodeDigits
  split
  · rename_i heq
    cases cs with
    | nil => cases hl
    | cons c cs => exact absurd (List.cons.inj heq).1 (hbrace c (by simp))
  · rw [List.take_left' hl, List.drop_left' hl]

theorem unicodeDigits_point {cs : List Char} {n : Nat} (h : HexDigits cs n) (rest : List Char) :
    unicodeDigits ('\x7b' :: (cs ++ '\x7d' :: rest)) = (cs, rest) := by
  have hbrace : ∀ c ∈ cs, (c != '\x7d') = true := by
    simpa using h.mem_ne (d := '\x7d') rfl
  rw [unicodeDigits, List.takeWhile_append_of_pos hbrace, List.dropWhile_append_of_pos hbrace]
  simp

theorem decodeBody_unicode {digits cs rest : List Char} {n : Nat}
    (hdigits : unicodeDigits digits = (cs, rest)) (h : HexDigits cs n) (hn : n < UInt32.size) :
    decodeBody ('\\' :: 'u' :: digits) =
      (charOfCode? n).bind fun c => (decodeBody rest).map (c :: ·) := by
  rw [decodeBody.eq_def]
  simp [simpleEscape?, hdigits, h.hexValue?_eq hn]

theorem isStandard_escape {c : Char} {rest : List Char}
    (h : isOctalDigit c = false ∨ c = '0' ∧ ¬ rest.head?.any isDigit) (hls : c ≠ '\u2028')
    (hps : c ≠ '\u2029') : isStandard ('\\' :: c :: rest) = isStandard rest := by
  rw [isStandard]
  rcases h with h | ⟨rfl, h⟩ <;> simp [h, hls, hps]

/-- The first value is longer, or as long but another one. -/
def Outgrows (a b : List Nat) : Prop :=
  b.length ≤ a.length ∧ a ≠ b

theorem units_append (a b : List Nat) : units (a ++ b) = units a ++ units b :=
  List.flatMap_append

theorem unitsOf_append (a b : List Char) : unitsOf (a ++ b) = unitsOf a ++ unitsOf b := by
  rw [unitsOf, List.map_append, units_append]
  rfl

theorem unitsOfCode_of_lt {n : Nat} (h : n < 0x10000) : unitsOfCode n = [n] :=
  if_pos h

theorem length_le_length_unitsOf (text : List Char) : text.length ≤ (unitsOf text).length := by
  induction text with
  | nil => exact Nat.le_refl 0
  | cons c rest ih =>
    have hpos : 1 ≤ (unitsOfCode c.toNat).length := by
      unfold unitsOfCode
      split <;> simp
    change (c :: rest).length ≤ (unitsOfCode c.toNat ++ unitsOf rest).length
    rw [List.length_cons, List.length_append]
    omega

/-- What becomes of an escape: it names no character and spoils the literal, it is read as what it
stands for, or it is read as its own text, of which the value is another. -/
inductive Read (text : List Char) (codes : List Nat) (rest : List Char) : Prop where
  | unreadable (n : Nat) (hn : n ∈ codes) (hv : ¬ n.isValidChar)
    (h : decodeBody ('\\' :: (text ++ rest)) = none)
  | meant (out : List Char) (hout : out.map Char.toNat = codes)
    (hs : isStandard ('\\' :: (text ++ rest)) = isStandard rest)
    (h : decodeBody ('\\' :: (text ++ rest)) = (decodeBody rest).map (out ++ ·))
  | misread (hv : ∀ n ∈ codes, n.isValidChar)
    (hs : isStandard ('\\' :: (text ++ rest)) = false) (hu : Outgrows (unitsOf text) (units codes))
    (h : decodeBody ('\\' :: (text ++ rest)) = (decodeBody rest).map (text ++ ·))

theorem read_code {n : Nat} {text rest : List Char}
    (hs : isStandard ('\\' :: (text ++ rest)) = isStandard rest)
    (h : decodeBody ('\\' :: (text ++ rest)) =
      (charOfCode? n).bind fun c => (decodeBody rest).map (c :: ·)) : Read text [n] rest := by
  by_cases hv : n.isValidChar
  · have hc : charOfCode? n = some (Char.ofNatAux n hv) := dif_pos hv
    rw [hc] at h
    exact .meant [Char.ofNatAux n hv] rfl hs h
  · rw [charOfCode?_eq_none hv] at h
    exact .unreadable n (by simp) hv h

theorem read_single {c : Char} {n : Nat} (h : single? c = some n) (rest : List Char) :
    Read [c] [n] rest := by
  have hmeant : ∀ {d : Char}, d.toNat = n → isOctalDigit c = false → c ≠ '\u2028' → c ≠ '\u2029' →
      decodeBody ('\\' :: c :: rest) = (decodeBody rest).map (d :: ·) → Read [c] [n] rest :=
    fun {d} hd hc hls hps hread =>
      .meant [d] (by rw [List.map_singleton, hd]) (isStandard_escape (.inl hc) hls hps) hread
  unfold single? at h
  split at h <;> cases h
  · exact hmeant rfl rfl (by decide) (by decide) (decodeBody_self (by simp) rest)
  · exact hmeant rfl rfl (by decide) (by decide) (decodeBody_self (by simp) rest)
  · exact hmeant rfl rfl (by decide) (by decide) (decodeBody_self (by simp) rest)
  all_goals exact hmeant rfl rfl (by decide) (by decide) (decodeBody_simple rfl rest)

theorem read_self {c : Char} (hs : single? c = none) (hd : isDigit c = false ∨ c = '8' ∨ c = '9')
    (hx : c ≠ 'x') (hu : c ≠ 'u') (ht : isTerminator c = false) (rest : List Char) :
    Read [c] [c.toNat] rest := by
  have hne : ∀ d, single? d ≠ none → c ≠ d := by
    rintro d hd rfl
    exact hd hs
  have hsimple : simpleEscape? c = none :=
    simpleEscape?_eq_none fun d hd => hne d (by fin_cases hd <;> decide)
  have hoctal : isOctalDigit c = false := by
    rcases hd with hd | rfl | rfl
    · simp only [isDigit, isOctalDigit, Bool.and_eq_false_iff, decide_eq_false_iff_not] at hd ⊢
      exact hd.imp_right fun h h7 => h (Char.le_trans h7 (by decide))
    · rfl
    · rfl
  have hzero : c ≠ '0' := by
    rintro rfl
    cases hoctal
  simp only [isTerminator, Bool.or_eq_false_iff, decide_eq_false_iff_not] at ht
  obtain ⟨⟨⟨hn, hr⟩, hls⟩, hps⟩ := ht
  exact .meant [c] rfl (isStandard_escape (.inl hoctal) hls hps)
    (decodeBody_kept hsimple (.inl hzero) hx hu hn hr)

/-- The digits of an octal escape are more characters than the one they stand for, or another. -/
theorem OctalDigits.outgrows {cs rest : List Char} {n : Nat} (h : OctalDigits cs n rest) :
    Outgrows (unitsOf cs) (units [n]) := by
  obtain ⟨c, ds, rfl, hc, -, -, hn, hne⟩ := h.shape
  have hcode : c.toNat < 0x10000 := by
    have : c ≤ '7' := by
      simp only [isOctalDigit, Bool.and_eq_true, decide_eq_true_eq] at hc
      exact hc.2
    exact Nat.lt_of_le_of_lt (show c.toNat ≤ 55 from this) (by decide)
  have hone : units [n] = [n] := by
    rw [units, List.flatMap_singleton, unitsOfCode_of_lt (by omega)]
  have hlength := length_le_length_unitsOf (c :: ds)
  rw [hone]
  refine ⟨Nat.le_trans (by simp) hlength, ?_⟩
  cases ds with
  | nil =>
    rw [unitsOf, List.map_singleton, units, List.flatMap_singleton, unitsOfCode_of_lt hcode]
    exact fun heq => hne rfl (List.head_eq_of_cons_eq heq).symm
  | cons d ds =>
    intro heq
    rw [heq, List.length_cons, List.length_cons, List.length_singleton] at hlength
    omega

theorem read_octal {cs rest : List Char} {n : Nat} (h : OctalDigits cs n rest) :
    Read cs [n] rest := by
  have hgrows := h.outgrows
  obtain ⟨c, ds, rfl, hc, hds, hzero, hn, -⟩ := h.shape
  have hne : ∀ d, isOctalDigit d = false → c ≠ d := fun d => ne_of_isOctalDigit hc
  have hsimple : simpleEscape? c = none :=
    simpleEscape?_eq_none fun d hd => hne d (by fin_cases hd <;> rfl)
  have hvalid : ∀ m ∈ [n], m.isValidChar := by
    intro m hm
    obtain rfl := List.mem_singleton.mp hm
    exact .inl (by omega)
  have hstandard : isStandard ('\\' :: (c :: ds ++ rest)) = false := by
    rw [List.cons_append, isStandard]
    rcases hzero with h | h <;> simp [hc, h, -List.head?_append]
  refine .misread hvalid hstandard hgrows ?_
  -- only the backslash is dropped; the other digits are read one by one behind it
  rw [List.cons_append, decodeBody_kept hsimple hzero (hne _ rfl) (hne _ rfl) (hne _ rfl)
    (hne _ rfl), decodeBody_append fun d hd => ne_of_isOctalDigit (hds d hd) rfl, Option.map_map]
  rfl

/-- A line that goes on is read as such, unless its end is one of the two that are kept. -/
theorem read_continued {cs rest : List Char} (h : LineEnd cs rest) : Read cs [] rest := by
  have hstandard : ∀ c, isOctalDigit c = false → c ≠ '\u2028' → c ≠ '\u2029' → ∀ rest,
      isStandard ('\\' :: c :: rest) = isStandard rest :=
    fun c hc hls hps rest => isStandard_escape (.inl hc) hls hps
  cases h with
  | lf =>
    refine .meant [] rfl (hstandard '\n' rfl (by decide) (by decide) rest) ?_
    rw [decodeBody.eq_def]
    simp [simpleEscape?]
  | cr hrest =>
    refine .meant [] rfl (hstandard '\r' rfl (by decide) (by decide) rest) ?_
    rw [List.singleton_append, decodeBody_cr hrest]
    simp
  | crlf =>
    refine .meant [] rfl ?_ ?_
    · refine (hstandard '\r' rfl (by decide) (by decide) _).trans ?_
      exact isStandard_plain (by decide) rest
    · rw [decodeBody.eq_def]
      simp [simpleEscape?]
  | ls | ps =>
    refine .misread (by simp) rfl ⟨by simp [units], by decide⟩ ?_
    exact decodeBody_kept rfl (.inl (by decide)) (by decide) (by decide) (by decide) (by decide)

theorem Escape.read {text rest : List Char} {codes : List Nat} (h : Escape text codes rest) :
    Read text codes rest := by
  have hstandard : ∀ {c : Char} {cs : List Char}, isOctalDigit c = false →
      c ≠ '\u2028' → c ≠ '\u2029' → (∀ d ∈ cs, d ≠ '\\') →
      isStandard ('\\' :: ((c :: cs) ++ rest)) = isStandard rest := by
    intro c cs hc hls hps hcs
    rw [List.cons_append, isStandard_escape (.inl hc) hls hps, isStandard_append hcs]
  cases h with
  | single h => exact read_single h rest
  | self hs hd hx hu ht => exact read_self hs (.inl hd) hx hu ht rest
  | nul h =>
    exact .meant ['\x00'] rfl (isStandard_escape (.inr ⟨rfl, h⟩) (by decide) (by decide))
      (decodeBody_nul h)
  | octal h => exact read_octal h
  | decimal h =>
    rcases h with rfl | rfl <;>
      exact read_self rfl (.inr (by decide)) (by decide) (by decide) rfl rest
  | @hex cs n _ h hl =>
    refine read_code (hstandard rfl (by decide) (by decide) (h.mem_ne rfl)) ?_
    exact decodeBody_hex h hl rest
  | @unit cs n _ h hl =>
    refine read_code (hstandard rfl (by decide) (by decide) (h.mem_ne rfl)) ?_
    have hn : n < UInt32.size := h.lt.trans (by rw [hl]; decide)
    exact decodeBody_unicode (unicodeDigits_unit h hl rest) h hn
  | @point cs n _ h hn =>
    refine read_code (hstandard rfl (by decide) (by decide) ?_) ?_
    · have := h.mem_ne (d := '\\') rfl
      grind
    · have hbrace := decodeBody_unicode (unicodeDigits_point h rest) h
        (Nat.lt_of_le_of_lt hn (by decide))
      simpa using hbrace
  | continued h => exact read_continued h

/-! What is read for a literal. -/

theorem Outgrows.prepend {a b : List Nat} (h : Outgrows a b) (p : List Nat) :
    Outgrows (p ++ a) (p ++ b) := by
  refine ⟨?_, fun heq => h.2 (List.append_cancel_left heq)⟩
  have := h.1
  rw [List.length_append, List.length_append]
  omega

/-- What is behind cannot make up for a difference. -/
theorem Outgrows.append {a b p s : List Nat} (h : Outgrows p s) (hle : b.length ≤ a.length) :
    Outgrows (p ++ a) (s ++ b) := by
  have hps := h.1
  refine ⟨?_, fun heq => h.2 (List.append_inj_left heq ?_)⟩
  · rw [List.length_append, List.length_append]
    omega
  · have := congrArg List.length heq
    rw [List.length_append, List.length_append] at this
    omega

/-- The text between two quotes cannot be read, is read with its value, or is read with another one
because it has an escape that is not read as what it stands for. -/
inductive ReadBody (body : List Char) (codes : List Nat) : Prop where
  | unreadable (n : Nat) (hn : n ∈ codes) (hv : ¬ n.isValidChar) (h : decodeBody body = none)
  | meant (out : List Char) (hout : out.map Char.toNat = codes) (hs : isStandard body = true)
    (h : decodeBody body = some out)
  | misread (out : List Char) (hv : ∀ n ∈ codes, n.isValidChar) (hs : isStandard body = false)
    (hu : Outgrows (unitsOf out) (units codes)) (h : decodeBody body = some out)

theorem isValidChar_of_mem {out : List Char} {codes : List Nat} (hout : out.map Char.toNat = codes)
    {n : Nat} (hn : n ∈ codes) : n.isValidChar := by
  rw [← hout, List.mem_map] at hn
  obtain ⟨c, -, rfl⟩ := hn
  exact c.valid

theorem ReadBody.plain {c : Char} {body : List Char} {codes : List Nat} (hb : c ≠ '\\')
    (h : ReadBody body codes) : ReadBody (c :: body) (c.toNat :: codes) := by
  cases h with
  | unreadable n hn hv h =>
    exact .unreadable n (List.mem_cons_of_mem _ hn) hv (by rw [decodeBody_plain hb, h]; rfl)
  | meant out hout hs h =>
    exact .meant (c :: out) (congrArg (c.toNat :: ·) hout) (by rw [isStandard_plain hb, hs])
      (by rw [decodeBody_plain hb, h]; rfl)
  | misread out hv hs hu h =>
    refine .misread (c :: out) (List.forall_mem_cons.mpr ⟨c.valid, hv⟩)
      (by rw [isStandard_plain hb, hs]) ?_ (by rw [decodeBody_plain hb, h]; rfl)
    exact hu.prepend (unitsOfCode c.toNat)

theorem ReadBody.escape {text body : List Char} {out codes : List Nat} (hr : Read text out body)
    (h : ReadBody body codes) : ReadBody ('\\' :: (text ++ body)) (out ++ codes) := by
  -- a misreading stays one whatever is read behind it, because no value gets shorter by being misread
  cases hr with
  | unreadable n hn hv hnone => exact .unreadable n (List.mem_append_left _ hn) hv hnone
  | meant cs hcs hstandard hread =>
    cases h with
    | unreadable n hn hv h =>
      exact .unreadable n (List.mem_append_right _ hn) hv (by rw [hread, h]; rfl)
    | meant out' hout hs h =>
      refine .meant (cs ++ out') ?_ (by rw [hstandard, hs]) (by rw [hread, h]; rfl)
      rw [List.map_append, hcs, hout]
    | misread out' hv hs hu h =>
      refine .misread (cs ++ out') ?_ (by rw [hstandard, hs]) ?_ (by rw [hread, h]; rfl)
      · exact List.forall_mem_append.mpr ⟨fun n hn => isValidChar_of_mem hcs hn, hv⟩
      · rw [unitsOf_append, units_append, unitsOf, hcs]
        exact hu.prepend (units out)
  | misread hvalid hstandard hgrows hread =>
    cases h with
    | unreadable n hn hv h =>
      exact .unreadable n (List.mem_append_right _ hn) hv (by rw [hread, h]; rfl)
    | meant out' hout hs h =>
      refine .misread (text ++ out') ?_ hstandard ?_ (by rw [hread, h]; rfl)
      · exact List.forall_mem_append.mpr ⟨hvalid, fun n hn => isValidChar_of_mem hout hn⟩
      · rw [unitsOf_append, units_append]
        exact hgrows.append (by rw [unitsOf, hout])
    | misread out' hv hs hu h =>
      refine .misread (text ++ out') (List.forall_mem_append.mpr ⟨hvalid, hv⟩) hstandard ?_
        (by rw [hread, h]; rfl)
      rw [unitsOf_append, units_append]
      exact hgrows.append hu.1

theorem Body.read {q : Char} {body : List Char} {codes : List Nat} (h : Body q body codes) :
    ReadBody body codes := by
  induction h with
  | nil => exact .meant [] rfl rfl (by rw [decodeBody])
  | plain _ hb _ _ _ ih => exact ih.plain hb
  | escape he _ ih => exact ih.escape he.read

theorem isStandard_concat {q : Char} (hq : q = '\'' ∨ q = '"') (cs : List Char) :
    isStandard (cs ++ [q]) = isStandard cs := by
  have hq' : isOctalDigit q = false ∧ isDigit q = false ∧ q ≠ '\u2028' ∧ q ≠ '\u2029' := by
    rcases hq with rfl | rfl <;> decide
  fun_induction isStandard cs with
  | case1 c rest ih =>
    have hhead : (rest ++ [q]).head?.any isDigit = rest.head?.any isDigit := by
      cases rest with
      | nil => exact hq'.2.1
      | cons d rest => rfl
    rw [List.cons_append, List.cons_append, isStandard, hhead, ih]
  | case2 c rest h ih =>
    by_cases hc : c = '\\'
    · cases rest with
      | nil => simp [hc, isStandard, hq']
      | cons d rest => exact absurd rfl (h d rest hc)
    · rw [List.cons_append, isStandard_plain hc, ih]
  | case3 => rcases hq with rfl | rfl <;> rfl

theorem decode_quoted {q : Char} (hq : q = '\'' ∨ q = '"') (body : List Char) :
    decode (q :: (body ++ [q])) = decodeBody body := by
  have hquote : (q = '\'' || q = '"') = true := by simpa using hq
  simp [decode, hquote]

theorem Literal.read {text : List Char} {codes : List Nat} (h : Literal text codes) :
    ∃ body, ReadBody body codes ∧ decode text = decodeBody body ∧
      isStandard text = isStandard body := by
  cases h with
  | @quoted q body _ hq h =>
    -- the closing quote is no digit, so the escape of a zero in front of it stays standard
    have hb : q ≠ '\\' := by rcases hq with rfl | rfl <;> decide
    refine ⟨body, h.read, decode_quoted hq body, ?_⟩
    rw [isStandard_plain hb, isStandard_concat hq]

/-- A literal cannot be read exactly if it has an escape for half of a pair of units. What is read
is its value exactly if each escape is standard. -/
theorem Literal.unquote {text : String} {codes : List Nat} (h : Literal text.toList codes) :
    (Quoted.unquote text = none ↔ ∃ n ∈ codes, ¬ n.isValidChar) ∧
      ∀ value, Quoted.unquote text = some value →
        (unitsOf value.toList = units codes ↔ isStandard text.toList) := by
  obtain ⟨body, hread, hdecode, hstandard⟩ := h.read
  rw [Quoted.unquote, hdecode, hstandard]
  cases hread with
  | unreadable n hn hv hbody =>
    rw [hbody]
    exact ⟨iff_of_true rfl ⟨n, hn, hv⟩, by simp⟩
  | meant out hout hs hbody =>
    rw [hbody, hs]
    have hvalid : ¬ ∃ n ∈ codes, ¬ n.isValidChar := by
      rintro ⟨n, hn, hv⟩
      exact hv (isValidChar_of_mem hout hn)
    refine ⟨iff_of_false (by simp) hvalid, ?_⟩
    rintro value ⟨⟩
    rw [String.toList_ofList, unitsOf, hout]
    simp
  -- an escape that is not standard is read as other units than it stands for
  | misread out hv hs hu hbody =>
    rw [hbody, hs]
    have hvalid : ¬ ∃ n ∈ codes, ¬ n.isValidChar := by
      rintro ⟨n, hn, hv'⟩
      exact hv' (hv n hn)
    refine ⟨iff_of_false (by simp) hvalid, ?_⟩
    rintro value ⟨⟩
    rw [String.toList_ofList]
    simpa using hu.2

/-! What is written between quotes. -/

theorem hexDigits_number (width n : Nat) :
    HexDigits (hexDigits (width + 1) n) (n % 16 ^ (width + 1)) := by
  have hlow : ∀ n, hexDigit? (Nat.digitChar (n % 16)) = some (n % 16) :=
    fun n => hexDigit?_digitChar (Nat.mod_lt n (by decide))
  induction width generalizing n with
  | zero => exact .one (hlow n)
  | succ width ih =>
    have hsnoc := (ih (n / 16)).snoc (hlow n)
    rwa [show 16 * (n / 16 % 16 ^ (width + 1)) + n % 16 = n % 16 ^ (width + 1 + 1) by
      rw [Nat.pow_succ' (n := width + 1), Nat.mod_mul]
      omega] at hsnoc

theorem Body.encodeChar {q : Char} (hq : q = '\'' ∨ q = '"') (c : Char) {cs : List Char}
    {codes : List Nat} (h : Body q cs codes) :
    Body q (encodeChar q c ++ cs) (c.toNat :: codes) := by
  have hsingle : ∀ {e : Char}, single? e = some c.toNat →
      Body q ('\\' :: e :: cs) (c.toNat :: codes) := fun he => .escape (.single he) h
  unfold Quoted.encodeChar
  split
  · subst_vars
    exact hsingle rfl
  split
  · subst_vars
    exact hsingle rfl
  split
  · subst_vars
    exact hsingle rfl
  split
  · subst_vars
    exact hsingle rfl
  split
  · subst_vars
    rcases hq with rfl | rfl <;> exact hsingle rfl
  split
  · have hlt := toNat_lt_of_isControl ‹_›
    have hdigits := hexDigits_number 3 c.toNat
    rw [Nat.mod_eq_of_lt (by omega)] at hdigits
    exact .escape (.unit hdigits rfl) h
  · exact .plain ‹_› ‹_› ‹_› ‹_› h

theorem Body.flatMap {q : Char} (hq : q = '\'' ∨ q = '"') (text : List Char) :
    Body q (text.flatMap (Quoted.encodeChar q)) (text.map Char.toNat) := by
  induction text with
  | nil => exact .nil
  | cons c rest ih => exact ih.encodeChar hq c

/-- A quoted text is a literal, and the text is its value. -/
theorem literal_quote (text : String) :
    Literal (quote text).toList (text.toList.map Char.toNat) := by
  have hq := delimiter_eq text.toList
  rw [quote, String.toList_ofList, encode]
  exact .quoted hq (Body.flatMap hq text.toList)

/-- The text is a string literal, and `value` is the value of it. -/
def Denotes (text : String) (value : List Nat) : Prop :=
  (∃ codes, Literal text.toList codes) ∧ ∀ codes, Literal text.toList codes → units codes = value

theorem isStandard_quote (text : String) : isStandard (quote text).toList :=
  ((literal_quote text).unquote.2 text (unquote_quote text)).mp rfl

theorem denotes_quote (text : String) (value : List Nat) :
    Denotes (quote text) value ↔ unitsOf text.toList = value := by
  refine ⟨fun h => h.2 _ (literal_quote text), fun h =>
    ⟨⟨_, literal_quote text⟩, fun codes hc => ?_⟩⟩
  rw [← h]
  exact ((hc.unquote.2 text (unquote_quote text)).mpr (isStandard_quote text)).symm

open Script in
/-- A literal that cannot be read has an escape for one unit of a pair, and is printed as it is
written. What is read is its value, and what is printed for it as an expression or as a key has
that value, exactly if each escape is standard: neither an octal escape nor a line that goes on
behind a Unicode line terminator. -/
theorem unquote_exact {text : String} {codes : List Nat} (h : Literal text.toList codes) :
    (unquote text = none ↔ ∃ n ∈ codes, ¬ n.isValidChar) ∧
      (∀ value, unquote text = some value →
        (unitsOf value.toList = units codes ↔ isStandard text.toList)) ∧
      (∀ position depth column,
        let printed := (Operand.string position text).tree.layout depth column
        (unquote text = none → printed = text) ∧
          (unquote text ≠ none → (Denotes printed (units codes) ↔ isStandard text.toList))) ∧
      (unquote text = none → Member.key? (.string text) = none) ∧
      ∀ key, Member.key? (.string text) = some key →
        (Denotes (Layout.key key) (units codes) ↔ isStandard text.toList) := by
  obtain ⟨hnone, hsome⟩ := h.unquote
  refine ⟨hnone, hsome, fun position depth column => ?_, fun hn => by rw [Member.key?, hn]; rfl,
    fun key hkey => ?_⟩
  · cases hv : unquote text with
    | none => simp [Operand.string, hv, Tree.layout, Tree.layoutExpr]
    | some value =>
      simp only [Operand.string, hv, Tree.layout, Tree.layoutExpr, denotes_quote, hsome value hv]
      simp
  · obtain ⟨value, hv, rfl⟩ := Option.map_eq_some_iff.mp hkey
    rw [Layout.key, denotes_quote, hsome value hv]

theorem unquote_exact_pair :
    let text := "'\\x41\\u\x7b1f600\x7d\\0'"
    let value := [0x41, 0xd83d, 0xde00, 0]
    Literal text.toList [0x41, 0x1f600, 0] ∧ units [0x41, 0x1f600, 0] = value ∧
      unquote text = some "A😀\x00" ∧ unitsOf "A😀\x00".toList = value ∧
      Denotes ((Script.Operand.string ⟨1, 1⟩ text).tree.layout 0 0) value := by
  intro text value
  have hx : HexDigits ['4', '1'] 0x41 := hexDigits_number 1 0x41
  have hu : HexDigits ['1', 'f', '6', '0', '0'] 0x1f600 := hexDigits_number 4 0x1f600
  have hbody : Body '\'' ['\\', 'x', '4', '1', '\\', 'u', '\x7b', '1', 'f', '6', '0', '0', '\x7d',
      '\\', '0'] [0x41, 0x1f600, 0] :=
    .escape (.hex hx rfl) (.escape (.point hu (by decide)) (.escape (.nul (by decide)) .nil))
  have htext : text.toList = '\'' :: (['\\', 'x', '4', '1', '\\', 'u', '\x7b', '1', 'f', '6', '0',
      '0', '\x7d', '\\', '0'] ++ ['\'']) := by decide
  have hliteral : Literal text.toList [0x41, 0x1f600, 0] := by
    rw [htext]
    exact .quoted (.inl rfl) hbody
  have hread : unquote text = some "A😀\x00" := by cbv
  obtain ⟨-, hvalue, hprinted, -⟩ := unquote_exact hliteral
  have hstandard : isStandard text.toList := by decide
  refine ⟨hliteral, rfl, hread, (hvalue _ hread).mpr hstandard, ?_⟩
  exact ((hprinted ⟨1, 1⟩ 0 0).2 (by rw [hread]; simp)).mpr hstandard

/-- The literal `'\101'` is the letter `A`, and it is read as `101`. -/
theorem not_unquote_exact :
    ¬ ∀ (text value : String) (codes : List Nat), Literal text.toList codes →
      unquote text = some value → unitsOf value.toList = units codes := by
  intro h
  have hdigits : OctalDigits ['1', '0', '1'] 0x41 [] :=
    @OctalDigits.three '1' '0' '1' 1 0 1 [] rfl (by decide) rfl rfl
  have hbody : Body '\'' ['\\', '1', '0', '1'] [0x41] := .escape (.octal hdigits) .nil
  have htext : "'\\101'".toList = '\'' :: (['\\', '1', '0', '1'] ++ ['\'']) := by decide
  have hliteral : Literal "'\\101'".toList [0x41] := by
    rw [htext]
    exact .quoted (.inl rfl) hbody
  have hread : unquote "'\\101'" = some "101" := by cbv
  have := h _ _ _ hliteral hread
  revert this
  decide

end SiteConfig.Quoted
