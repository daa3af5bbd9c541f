import SiteConfig.Proofs.Expressions
import SiteConfig.Proofs.Phrases

/-!
What the layout of a tree denotes: the phrase of the tree, if each piece that is kept is read back
from its text.
-/

namespace SiteConfig.Script
open Text Layout SiteConfig.Tree Expression

variable {c c' : Cursor} {rest : List Char}

/-! Texts between two places. -/

/-- The text stands from one place to a later one. -/
structure Cursor.Spans (c : Cursor) (text : List Char) (c' : Cursor) : Prop where
  reaches : c.Reaches c'
  rest : c.rest = text ++ c'.rest

namespace Cursor.Spans

variable {s t : List Char}

theorem of_rest (h : c.rest = s ++ rest) : c.Spans s (c.forward s.length) :=
  ⟨.forward c _, by rw [Cursor.rest_behind h, h]⟩

theorem eq_forward (h : c.Spans s c') : c' = c.forward s.length :=
  h.reaches.eq_forward h.rest

/-- What leaves the same rest ends at the same place. -/
theorem eq_of_rest {d : Cursor} (h : c.Spans s c') (hr : c.Reaches d) (hd : d.rest = c'.rest) :
    d = c' := by
  rw [hr.eq_forward (by rw [hd]; exact h.rest), h.eq_forward]

theorem nil (h : c.Spans [] c') : c' = c := by
  rw [h.eq_forward, List.length_nil, Cursor.forward_zero]

theorem append (h : c.Spans (s ++ t) c') : ∃ d, c.Spans s d ∧ d.Spans t c' := by
  have hrest := h.rest
  rw [List.append_assoc] at hrest
  have hreach : (c.forward s.length).Reaches c' :=
    ⟨t.length, by rw [h.eq_forward, List.length_append, Cursor.forward_forward]⟩
  exact ⟨_, of_rest hrest, hreach, Cursor.rest_behind hrest⟩

theorem cons {ch : Char} (h : c.Spans (ch :: t) c') :
    c.rest.head? = some ch ∧ (c.forward 1).Spans t c' := by
  obtain ⟨d, hd, hd'⟩ := (List.singleton_append ▸ h : c.Spans ([ch] ++ t) c').append
  rw [hd.eq_forward] at hd'
  exact ⟨by rw [h.rest]; rfl, hd'⟩

/-- A text in brackets. -/
theorem bracket {start stop : Char} (h : c.Spans (start :: (s ++ [stop])) c') :
    ∃ d, c.rest.head? = some start ∧ (c.forward 1).Spans s d ∧ d.rest = stop :: c'.rest ∧
      c' = d.forward 1 := by
  obtain ⟨hstart, hs⟩ := h.cons
  obtain ⟨d, hd, hstop⟩ := hs.append
  exact ⟨d, hstart, hd, hstop.rest, hstop.eq_forward⟩

theorem slice {text : String} (h : c.Spans text.toList c') : c.slice c' = text := by
  rw [h.reaches.slice h.rest, String.ofList_toList]

end Cursor.Spans

/-! What is laid out between the items of a list. -/

/-- The text holds blanks and comments only. -/
def Passed (text : List Char) : Prop :=
  ∀ ⦃c c' : Cursor⦄, c.Spans text c' → ∃ comments, Gap (fun _ => none) c comments c'

theorem Passed.append {s t : List Char} (hs : Passed s) (ht : Passed t) : Passed (s ++ t) := by
  intro c c' h
  obtain ⟨d, hd, hd'⟩ := h.append
  obtain ⟨comments, hgap⟩ := hs hd
  obtain ⟨comments', hgap'⟩ := ht hd'
  exact ⟨comments ++ comments', hgap.trans hgap'⟩

theorem passed_blank {text : List Char} (hb : Blank text) : Passed text := by
  induction text with
  | nil =>
    intro c c' h
    rw [h.nil]
    exact ⟨[], .none c⟩
  | cons ch text ih =>
    intro c c' h
    obtain ⟨hch, htext⟩ := List.forall_mem_cons.mp hb
    obtain ⟨hhead, hrest⟩ := h.cons
    obtain ⟨comments, hgap⟩ := ih htext hrest
    exact ⟨comments, .blank hhead hch hgap⟩

theorem passed_comment {text : String} (h : IsComment text) : Passed (text.toList ++ ['\n']) := by
  intro c c' hspan
  obtain ⟨d, hd, hd'⟩ := hspan.append
  have hcomment : Lexeme.comment c.rest = some text.toList.length := by
    rw [hd.rest, hd'.rest]
    exact Lexeme.comment_append h _
  obtain ⟨comments, hgap⟩ := passed_blank (blank_singleton rfl) hd'
  rw [hd.eq_forward] at hgap
  exact ⟨_, .comment hcomment hgap⟩

theorem passed_commentLines {depth : Nat} {comments : List Comment}
    (h : ∀ c ∈ comments, IsComment c.text) (begun : Bool) :
    Passed (commentLines depth begun comments).toList := by
  induction comments generalizing begun with
  | nil => exact passed_blank blank_nil
  | cons c comments ih =>
    obtain ⟨hc, hrest⟩ := List.forall_mem_cons.mp h
    have hblank := passed_blank (blank_before depth (c.spaced && begun)).1
    have hsplit : (commentLines depth begun (c :: comments)).toList =
        ((if c.spaced && begun then "\n" else "") ++ indent depth).toList ++
          (c.text.toList ++ ['\n']) ++ (commentLines depth true comments).toList := by
      simp [commentLines, commentLine, String.toList_append]
    rw [hsplit]
    exact (hblank.append (passed_comment hc)).append (ih hrest true)

theorem passed_leading {t : Trivia} (ht : t.Plain) (depth : Nat) (begun : Bool) :
    Passed (leading depth begun t).toList := by
  rw [leading, String.append_assoc, String.toList_append]
  exact (passed_commentLines ht.leading begun).append (passed_blank (blank_before depth _).1)

theorem passed_trailing {t : Trivia} (ht : t.Plain) : Passed ((trailing t).toList ++ ['\n']) := by
  unfold trailing
  split
  · rename_i text htext
    rw [String.toList_append, List.append_assoc]
    exact (passed_blank (blank_singleton rfl)).append (passed_comment (ht.trailing text htext))
  · exact passed_blank (blank_singleton rfl)

/-! Lists that are laid out. -/

/-- The text denotes the phrase wherever what is behind it is as `Before` says. -/
def Says (item : Cursor → Phrase → Cursor → Prop) (Before : List Char → Prop) (text : List Char)
    (a : Phrase) : Prop :=
  ∀ ⦃c c' : Cursor⦄, c.Spans text c' → Before c'.rest → item c a c'

section Items

variable {β : Type} {item : Cursor → Phrase → Cursor → Prop} {Before : List Char → Prop}
  {text : β → String} {phrase : β → Phrase} {d : Cursor} {items : List (Option Phrase)}

theorem Passed.series {s : List Char} (hs : Passed s) (h : c.Spans s d) {due : Bool}
    (hitems : Series item due d items c') : Series item due c items c' :=
  (hs h).elim fun _ hgap => .gap hgap hitems

variable (hcomma : ∀ rest, Before (',' :: rest))
include hcomma

/-- An item with a comma behind it. -/
theorem Says.series {t s : List Char} {a : Phrase} (ht : Says item Before t a) (hs : Passed s)
    (h : c.Spans (t ++ ',' :: s) d) (hitems : Series item true d items c') :
    Series item true c (some a :: items) c' := by
  obtain ⟨m, hm, hm'⟩ := h.append
  obtain ⟨hhead, hrest⟩ := hm'.cons
  exact .item (ht hm (by rw [hm'.rest]; exact hcomma _)) (.comma hhead (hs.series hrest hitems))

/-- Items on one line. -/
theorem series_intercalate {entries : List β}
    (hitem : ∀ b ∈ entries, Says item Before (text b).toList (phrase b))
    (h : c.Spans (", ".intercalate (entries.map text)).toList c') (hc' : Before c'.rest) :
    Series item true c (entries.map fun b => some (phrase b)) c' := by
  induction entries generalizing c with
  | nil =>
    rw [h.nil]
    exact .none true c
  | cons b entries ih =>
    obtain ⟨hb, hrest⟩ := List.forall_mem_cons.mp hitem
    cases entries with
    | nil =>
      rw [List.map_singleton, String.intercalate_singleton] at h
      exact .item (hb h hc') (.none false c')
    | cons b' entries =>
      have hsplit : (", ".intercalate ((b :: b' :: entries).map text)).toList =
          ((text b).toList ++ ',' :: [' ']) ++
            (", ".intercalate ((b' :: entries).map text)).toList := by
        simp [String.intercalate_cons_cons, String.toList_append]
      rw [hsplit] at h
      obtain ⟨d, hd, hd'⟩ := h.append
      exact hb.series hcomma (passed_blank (blank_singleton rfl)) hd (ih hrest hd')

/-- Items on lines of their own, in front of other items. -/
theorem series_lines {entries : List β} {trivia : β → Trivia} {depth : Nat} {begun : Bool}
    (hitem : ∀ b ∈ entries, Says item Before (text b).toList (phrase b))
    (ht : ∀ b ∈ entries, (trivia b).Plain)
    (h : c.Spans (lines depth "," begun (entries.map fun b => (text b, trivia b))).toList d)
    (hitems : Series item true d items c') :
    Series item true c ((entries.map fun b => some (phrase b)) ++ items) c' := by
  induction entries generalizing c begun with
  | nil =>
    rw [h.nil] at hitems
    exact hitems
  | cons b entries ih =>
    obtain ⟨hb, hitem⟩ := List.forall_mem_cons.mp hitem
    obtain ⟨htb, ht⟩ := List.forall_mem_cons.mp ht
    have hsplit : (lines depth "," begun
          ((b :: entries).map fun b => (text b, trivia b))).toList =
        (leading depth begun (trivia b)).toList ++
          (((text b).toList ++ ',' :: ((trailing (trivia b)).toList ++ ['\n'])) ++
            (lines depth "," true (entries.map fun b => (text b, trivia b))).toList) := by
      simp [lines, String.toList_append]
    rw [hsplit] at h
    obtain ⟨m, hm, hm'⟩ := h.append
    obtain ⟨m', hm', hrest⟩ := hm'.append
    exact (passed_leading htb depth begun).series hm
      (hb.series hcomma (passed_trailing htb) hm' (ih hitem ht hrest))

/-- Items and comments on lines of their own. -/
theorem series_expanded {entries : List β} {trivia : β → Trivia} {dangling : List Comment}
    {depth : Nat} {begun : Bool}
    (hitem : ∀ b ∈ entries, Says item Before (text b).toList (phrase b))
    (ht : ∀ b ∈ entries, (trivia b).Plain) (hd : ∀ c ∈ dangling, IsComment c.text)
    (h : c.Spans ("\n" ++ lines (depth + 1) "," false (entries.map fun b => (text b, trivia b)) ++
      commentLines (depth + 1) begun dangling ++ indent depth).toList c') :
    Series item true c (entries.map fun b => some (phrase b)) c' := by
  simp only [String.toList_append, List.append_assoc] at h
  obtain ⟨m, hm, h⟩ := h.append
  obtain ⟨m', hlines, h⟩ := h.append
  have hpassed : Passed ((commentLines (depth + 1) begun dangling).toList ++
      (indent depth).toList) :=
    (passed_commentLines hd begun).append (passed_blank (blank_indent depth))
  have hlast : Series item true m' [] c' := hpassed.series h (.none true c')
  have hitems := series_lines hcomma hitem ht hlines hlast
  rw [List.append_nil] at hitems
  exact (passed_blank (blank_singleton rfl)).series hm hitems

end Items

/-! Each kind of expression. -/

variable {tail : Bool} {place : Place} {t : Tree}

/-- The tree is laid out as what denotes its phrase. -/
def SaysPhrase (place : Place) (t : Tree) : Prop :=
  ∀ depth column, Says (Denotes place) place.Before (t.layout depth column).toList t.phrase

theorem expr_of_stripped {text : String} (h : t.stripped id = .node none (.verbatim text)) :
    t.expr = .verbatim text := by
  obtain ⟨position, e⟩ := t
  rw [stripped] at h
  cases e <;> simp_all [strippedExpr, Tree.expr]

/-- What is read back is kept. -/
theorem saysPhrase_kept (position : Option Position) {text : String}
    (h : (made (.verbatim text)).ReadsBack tail place) :
    SaysPhrase place (node position (.verbatim text)) := by
  intro depth column c c' hspan hbefore
  obtain ⟨o, d, htakes, -, hd, htree⟩ :=
    h (n := 4 * c.left + 1) (Nat.lt_succ_self _) hspan.rest hbefore
  obtain rfl := hspan.eq_of_rest (Place.Takes.reaches htakes) hd
  have hslice : c.slice d = text := hspan.slice
  have hkeeps : place.Keeps c d :=
    ⟨_, tail, o, htakes, by rw [hslice]; exact expr_of_stripped htree⟩
  have hdenotes := Denotes.kept hspan.reaches hkeeps
  rwa [hslice] at hdenotes

theorem saysPhrase_string (position : Option Position) (value : String) (place : Place) :
    SaysPhrase place (node position (.string value)) := by
  intro depth column c c' h _
  have h' : c.Spans (Quoted.quote value).toList c' := h
  have hstring : Lexeme.string c.rest = some (Quoted.quote value).toList.length := by
    rw [h'.rest]
    exact Lexeme.string_quote _ _
  have hliteral := Denotes.literal hstring
  rw [← h'.eq_forward, h'.slice] at hliteral
  exact hliteral.anywhere place

theorem saysPhrase_boolean (position : Option Position) (value : Bool) (place : Place) :
    SaysPhrase place (node position (.boolean value)) := by
  intro depth column c c' h hc'
  have h' : c.Spans (if value then "true" else "false").toList c' := h
  have hname := Lexeme.name_append (isName_boolean value) hc'.follows.endsName
  rw [← h'.rest] at hname
  have hboolean := Denotes.boolean hname (by rw [← h'.eq_forward, h'.slice])
  rw [← h'.eq_forward] at hboolean
  exact hboolean.anywhere place

theorem saysPhrase_identifier (position : Option Position) {name : String}
    (hn : Lexeme.IsName name) (ho : name ∉ ownWords) (hp : name ∉ prefixWords) (place : Place) :
    SaysPhrase place (node position (.identifier name)) := by
  intro depth column c c' h hc'
  have h' : c.Spans name.toList c' := h
  have hname := Lexeme.name_append hn hc'.follows.endsName
  rw [← h'.rest] at hname
  have hslice : c.slice (c.forward name.toList.length) = name := by rw [← h'.eq_forward, h'.slice]
  have hdenotes := Denotes.name hname (by rwa [hslice]) (by rwa [hslice])
  rw [hslice, ← h'.eq_forward] at hdenotes
  exact hdenotes.anywhere place

theorem saysPhrase_member (position : Option Position) {object : Tree} {property : String}
    (hp : Lexeme.IsName property) (ho : SaysPhrase .object object) (place : Place) :
    SaysPhrase place (node position (.member object property)) := by
  intro depth column c c' h hc'
  have hsplit : ((node position (.member object property)).layout depth column).toList =
      (object.layout depth column).toList ++ '.' :: property.toList := by
    simp [layout, layoutExpr, String.toList_append]
  rw [hsplit] at h
  obtain ⟨d, hd, hd'⟩ := h.append
  obtain ⟨hdot, hspan⟩ := hd'.cons
  have hname := Lexeme.name_append hp hc'.follows.endsName
  rw [← hspan.rest] at hname
  have hobject := ho depth column hd ⟨_, hd'.rest⟩
  have hmember := Denotes.member hobject (.refl d) hdot (.refl _) hname
  rw [← hspan.eq_forward, hspan.slice] at hmember
  exact hmember.anywhere place

theorem saysPhrase_assignment (position : Option Position) {left right : Tree}
    (hl : SaysPhrase .target left) (hr : SaysPhrase .value right) :
    SaysPhrase .value (node position (.assignment left right)) := by
  intro depth column c c' h hc'
  have hsplit : ((node position (.assignment left right)).layout depth column).toList =
      (left.layout depth column).toList ++ ' ' :: '=' :: ' ' ::
        (right.layout depth (after column (left.layout depth column ++ " = "))).toList := by
    simp [layout, layoutExpr, String.toList_append]
  rw [hsplit] at h
  obtain ⟨d, hd, hd'⟩ := h.append
  have hbefore := hd'.rest
  obtain ⟨hblank, hd'⟩ := hd'.cons
  obtain ⟨hequals, hd'⟩ := hd'.cons
  obtain ⟨hblank', hspan⟩ := hd'.cons
  exact .assignment (hl depth column hd ⟨_, hbefore⟩) ⟨[], .blank hblank rfl (.none _)⟩ hequals
    ⟨[], .blank hblank' rfl (.none _)⟩ (hr depth _ hspan hc')

theorem map_fst_placedArguments (depth column : Nat) (arguments : List Tree) :
    (placedArguments depth column arguments).map (·.1) = arguments := by
  induction arguments generalizing column with
  | nil => rfl
  | cons t rest ih => rw [placedArguments, List.map_cons, ih]

theorem stops_comma (rest : List Char) : Place.item.Before (',' :: rest) :=
  ⟨',', rest, .inl rfl, rfl⟩

theorem saysPhrase_call (position : Option Position) {callee : Tree} {arguments : List Tree}
    (hf : SaysPhrase .callee callee) (ha : ∀ t ∈ arguments, SaysPhrase .item t) (place : Place) :
    SaysPhrase place (node position (.call callee arguments)) := by
  intro depth column c c' h hc'
  have hsplit : ((node position (.call callee arguments)).layout depth column).toList =
      (callee.layout depth column).toList ++ '(' :: ((layoutArguments depth
        (after column (callee.layout depth column ++ "(")) arguments).toList ++ [')']) := by
    simp [layout, layoutExpr, String.toList_append]
  rw [hsplit] at h
  obtain ⟨d, hd, hd'⟩ := h.append
  have hcallee := hf depth column hd ⟨_, hd'.rest⟩
  generalize after column (callee.layout depth column ++ "(") = start at hd'
  obtain ⟨m, hopen, hinside, hclose, rfl⟩ := hd'.bracket
  have harguments : phraseArguments arguments =
      (placedArguments depth start arguments).map fun b => some b.1.phrase := by
    conv_lhs => rw [← map_fst_placedArguments depth start arguments]
    rw [phraseArguments_eq, List.map_map]
    rfl
  have hseries : Series (Denotes .item) true (d.forward 1) (phraseArguments arguments) m := by
    rw [layoutArguments_eq] at hinside
    rw [harguments]
    exact series_intercalate stops_comma
      (fun b hb => ha _ (mem_of_mem_placedArguments hb) depth b.2) hinside
      ⟨')', _, .inr (.inl rfl), hclose⟩
  exact Denotes.anywhere (.call hcallee (.refl d) hopen hseries (by rw [hclose]; rfl)) place

theorem saysPhrase_array (position : Option Position) {elements : List (Element Tree)}
    {dangling : List Comment} (ht : ∀ e ∈ elements, e.trivia.Plain)
    (hd : ∀ c ∈ dangling, IsComment c.text) (he : ∀ e ∈ elements, SaysPhrase .item e.value)
    (place : Place) : SaysPhrase place (node position (.array elements dangling)) := by
  intro depth column
  obtain ⟨inner, hlayout, hinner⟩ := layout_array depth column position elements dangling
  intro c c' hspan hc'
  rw [hlayout] at hspan
  obtain ⟨d, hopen, hinside, hclose, rfl⟩ := hspan.bracket
  have hseries : Series (Denotes .item) true (c.forward 1) (phraseElements elements) d := by
    rw [phraseElements_eq]
    rcases hinner with ⟨rfl, -⟩ | ⟨rfl, -⟩
    · exact series_intercalate stops_comma (fun e hmem => he e hmem 0 0) hinside
        ⟨']', _, .inr (.inr (.inl rfl)), hclose⟩
    · exact series_expanded stops_comma (fun e hmem => he e hmem _ _) ht hd hinside
  exact Denotes.anywhere (.array hopen hseries (by rw [hclose]; rfl)) place

theorem names_key {k : PropertyKey} (hk : k.Lexical) (h : c.Spans (key k).toList c')
    (hc' : ∃ rest, c'.rest = ':' :: rest) : Names c (.ofKey k) c' := by
  obtain ⟨rest, hrest⟩ := hc'
  have hspan := h.rest
  have hslice := h.slice
  have hforward := h.eq_forward
  obtain ⟨name, form⟩ := k
  rcases hk with (⟨hform, hname⟩ | hform) | ⟨hform, hnumber⟩
  all_goals
    simp only at hform
    subst hform
    simp only [key] at hspan hslice hforward
    subst hforward
  · have hword := Names.word (c := c) (n := name.toList.length) (by
      rw [hspan]
      exact Lexeme.name_append hname (by rw [hrest]; exact endsName_colon _))
    rwa [hslice] at hword
  · have hstring := Names.string (c := c) (n := (Quoted.quote name).toList.length) (by
      rw [hspan]
      exact Lexeme.string_quote _ _)
    rwa [hslice] at hstring
  · have hdigits := Names.number (c := c) (n := name.toList.length) (by
      rw [hspan, hrest]
      exact hnumber rest)
    rwa [hslice] at hdigits

theorem says_body {depth : Nat} {body : PropertyBody Tree}
    (hk : ∀ k value, body = .assignment k value → k.Lexical)
    (hv : ∀ k value, body = .assignment k value → SaysPhrase .value value)
    (hi : ∀ shape text, body = .irregular shape text → shape.ReadsBack text) :
    Says DenotesMember (fun cs => ∃ rest, cs = ',' :: rest) (layoutBody depth body).toList
      (phraseBody body) := by
  rintro c c' h ⟨rest, hc'⟩
  cases body with
  | assignment k value =>
    have hsplit : (layoutBody depth (.assignment k value)).toList = (key k).toList ++
        (':' :: (' ' :: (value.layout depth (after (2 * depth) (key k ++ ": "))).toList)) := by
      simp [layoutBody, String.toList_append]
    rw [hsplit] at h
    obtain ⟨d, hd, hd'⟩ := h.append
    have hkey := names_key (hk k value rfl) hd ⟨_, hd'.rest⟩
    obtain ⟨hcolon, hm⟩ := hd'.cons
    obtain ⟨hblank, hvalue⟩ := hm.cons
    exact .pair hkey (.refl d) hcolon ⟨[], .blank hblank rfl (.none _)⟩
      (hv k value rfl depth _ hvalue ⟨',', rest, .inl rfl, hc'⟩)
  | irregular shape text =>
    have h' : c.Spans text.toList c' := h
    obtain ⟨hstart, m, d, hrun, -, hd, hbody⟩ :=
      hi shape text rfl (n := 4 * c.left + 1) (Nat.lt_succ_self _) (hc' ▸ h'.rest)
    have hr : c.Reaches d :=
      Scan.triple_iff.mp (Grammar.ofDepth (4 * c.left + 2)).ahead_property c (.refl c) m d hrun
    obtain rfl := h'.eq_of_rest hr (by rw [hd, hc'])
    have hkept := DenotesMember.kept hr ⟨hstart, _, m, shape, hrun, by rw [hbody, h'.slice]⟩
    rwa [h'.slice] at hkept

theorem saysPhrase_object (position : Option Position) {properties : List (Property Tree)}
    {dangling : List Comment} (ht : ∀ p ∈ properties, p.trivia.Plain)
    (hd : ∀ c ∈ dangling, IsComment c.text)
    (hk : ∀ p ∈ properties, ∀ key ∈ p.key?, key.Lexical)
    (hv : ∀ p ∈ properties, ∀ value ∈ p.value?, SaysPhrase .value value)
    (hi : ∀ p ∈ properties, ∀ shape text, p.body = .irregular shape text → shape.ReadsBack text)
    (place : Place) : SaysPhrase place (node position (.object properties dangling)) := by
  intro depth column
  obtain ⟨inner, hlayout, hinner⟩ := layout_object depth column position properties dangling
  intro c c' hspan hc'
  rw [hlayout] at hspan
  obtain ⟨d, hopen, hinside, hclose, rfl⟩ := hspan.bracket
  have hbody : ∀ p ∈ properties, Says DenotesMember (fun cs => ∃ rest, cs = ',' :: rest)
      (layoutBody (depth + 1) p.body).toList (phraseBody p.body) := fun p hp =>
    says_body (fun k value heq => hk p hp k (by rw [Property.key?, heq]; rfl))
      (fun k value heq => hv p hp value (by rw [Property.value?, heq]; rfl)) (hi p hp)
  have hseries : Series DenotesMember true (c.forward 1) (phraseProperties properties) d := by
    rw [phraseProperties_eq]
    rcases hinner with ⟨rfl, rfl, -⟩ | rfl
    · rw [hinside.nil]
      exact .none true _
    · exact series_expanded (fun rest => ⟨rest, rfl⟩) hbody ht hd hinside
  exact Denotes.anywhere (.object hopen hseries (by rw [hclose]; rfl)) place

/-- What a tree is laid out as denotes its phrase, where no kept piece runs on. -/
theorem saysPhrase_settled (hs : t.Settled tail place) (hl : t.Lexical) (hk : place.admits t.kind)
    (hplace : place ≠ .alone) : SaysPhrase place t := by
  induction hs with
  | string tail place position value => exact saysPhrase_string position value place
  | boolean tail place position value => exact saysPhrase_boolean position value place
  | identifier tail place position name =>
    cases hl with
    | identifier _ hname ho hp => exact saysPhrase_identifier position hname ho hp place
  | verbatim position h =>
    cases hl with
    | verbatim _ hp => exact saysPhrase_kept position (readsBack_verbatim hp h none)
  | member place position property ho ih =>
    cases hl with
    | member _ hlo hko hp => exact saysPhrase_member position hp (ih hlo hko nofun) place
  | assignment place position hkl hls hrs ihl ihr =>
    cases hl with
    | assignment _ hll hlr =>
    have hvalue := saysPhrase_assignment position (ihl hll hkl nofun) (ihr hlr rfl nofun)
    cases place with
    | value => exact hvalue
    | item => exact fun depth column c c' h hc' => .value (hvalue depth column h hc')
    | alone => exact absurd rfl hplace
    | object | callee | target => cases hk
  | call place position hf ha ihf iha =>
    cases hl with
    | call _ hlf hkf hla =>
    exact saysPhrase_call position (ihf hlf hkf nofun) (fun t ht => iha t ht (hla t ht) rfl nofun)
      place
  | array tail place position dangling he ih =>
    cases hl with
    | array _ hle ht hd =>
    exact saysPhrase_array position ht hd (fun e hmem => ih e hmem (hle e hmem) rfl nofun) place
  | object tail place position dangling hv hi ih =>
    cases hl with
    | object _ hkeys hlv hli ht hd =>
    exact saysPhrase_object position ht hd hkeys
      (fun p hmem value hvalue => ih p hmem value hvalue (hlv p hmem value hvalue) rfl nofun)
      (fun p hmem shape text hbody =>
        IrregularShape.readsBack (hli p hmem shape text hbody) (hi p hmem shape text hbody)) place

end SiteConfig.Script
