import SiteConfig.Proofs.Numbers
import SiteConfig.Proofs.Phrases
import SiteConfig.Proofs.Standing

/-!
What each form of expression spells, of which the parts are spelled.
-/

set_option mvcgen.warning false

namespace SiteConfig.Script
open Text Std.Do

/-! What a list reader has passed. -/

section Lists

variable {α β : Type} {note : String → List Mark} {separators : List Char}
  {item : Cursor → α → List Mark → Cursor → Prop} {c c' : Cursor} {items : List α}
  {marks : List Mark}

theorem Gap.between {d : Cursor} {comments : List String}
    (hg : Gap (fun _ => Option.none) c comments d)
    (h : Between note separators item d items marks c') :
    Between note separators item c items (comments.flatMap note ++ marks) c' := by
  induction hg with
  | none c => exact h
  | blank hc hb _ ih => exact .blank hc (.inl hb) (ih h)
  | comment hc _ ih =>
    rw [List.flatMap_cons, List.append_assoc]
    exact .comment hc (ih h)
  | other hc => cases hc

theorem Between.blanks (h : Between note separators item
    (c.forward (Lexeme.run isBlank c.rest)) items marks c') :
    Between note separators item c items marks c' :=
  (Gap.blanks _ c).between h

theorem Between.map {γ : Type} {f : γ → α} {f' : γ → β} {xs : List γ}
    {item' : Cursor → β → List Mark → Cursor → Prop}
    (hi : ∀ c x marks c', item c (f x) marks c' → item' c (f' x) marks c')
    (hitems : xs.map f = items) (h : Between note separators item c items marks c') :
    Between note separators item' c (xs.map f') marks c' := by
  induction h generalizing xs with
  | none c =>
    rw [List.map_eq_nil_iff] at hitems
    exact hitems ▸ .none c
  | blank h hb _ ih => exact .blank h hb (ih hitems)
  | comment h _ ih => exact .comment h (ih hitems)
  | item hc h _ ih =>
    obtain ⟨x, xs, rfl, rfl, rfl⟩ := List.map_eq_cons_iff.mp hitems
    exact .item hc (hi _ _ _ _ h) (ih rfl)

theorem Between.append {d : Cursor} {items' : List α} {marks' : List Mark}
    (h : Between note separators item c items marks d)
    (h' : Between note separators item d items' marks' c') :
    Between note separators item c (items ++ items') (marks ++ marks') c' := by
  induction h with
  | none c => exact h'
  | blank h hb _ ih => exact .blank h hb (ih h')
  | comment h _ ih =>
    rw [List.append_assoc]
    exact .comment h (ih h')
  | item hc h _ ih =>
    rw [List.append_assoc]
    exact .item hc h (ih h')

end Lists

/-! Nothing can be read behind the end of a script. -/

theorem Cursor.Reaches.rest_nil {c c' : Cursor} (h : c.Reaches c') (hc : c.rest = []) :
    c'.rest = [] := by
  obtain ⟨n, rfl⟩ := h
  rw [rest_forward, hc, List.drop_nil]

@[grind =]
theorem Lexeme.name_nil : Lexeme.name [] = none := rfl

@[grind =]
theorem Lexeme.string_nil : Lexeme.string [] = none := rfl

@[grind =]
theorem Lexeme.number_nil : Lexeme.number [] = none := rfl

@[grind =]
theorem Lexeme.privateName_nil : Lexeme.privateName [] = none := rfl

@[grind =]
theorem Lexeme.pageComment_nil : Lexeme.pageComment [] = none := rfl

/-! Comments. -/

theorem isComment_slice {c : Cursor} {n : Nat} (h : Lexeme.comment c.rest = some n) :
    IsComment (c.slice (c.forward n)) := by
  rw [IsComment, c.toList_slice, c.textTo_forward]
  exact Lexeme.comment_take h

theorem Between.isComment {α : Type} {separators : List Char}
    {item : Cursor → α → List Mark → Cursor → Prop} {c c' : Cursor} {items : List α}
    {marks : List Mark} {text : String} (h : Between Piece.noted separators item c items marks c')
    (hi : ∀ c x ms c', item c x ms c' → ms = []) (hm : .comment text ∈ marks) :
    IsComment text := by
  induction h with
  | none c => cases hm
  | blank h hb _ ih => exact ih hm
  | comment h _ ih =>
    rcases List.mem_append.mp hm with hm | hm
    · cases List.mem_singleton.mp hm
      exact isComment_slice h
    · exact ih hm
  | item hc h _ ih =>
    rw [hi _ _ _ _ h, List.nil_append] at hm
    exact ih hm

/-- Comments that are given to the items of a list stay comments. -/
theorem Piece.plain_attach {α : Type} {pieces : List (Piece α)}
    (h : ∀ text, .comment text ∈ Piece.marksOf (fun _ => []) Piece.noted pieces → IsComment text) :
    (∀ x ∈ (Piece.attach pieces).1, x.2.Plain) ∧
      ∀ comment ∈ (Piece.attach pieces).2, IsComment comment.text := by
  rw [← Piece.marksOfItems_attach] at h
  simp only [Piece.marksOfItems, List.mem_append, List.mem_flatMap] at h
  refine ⟨fun x hx => ⟨fun comment hc => ?_, fun text ht => ?_⟩, fun comment hc => ?_⟩
  · exact h _ (.inl ⟨x, hx, by simpa [Trivia.around] using .inl ⟨comment, hc, rfl⟩⟩)
  · exact h _ (.inl ⟨x, hx, by simpa [Trivia.around] using .inr ht⟩)
  · exact h _ (.inr (List.mem_map.mpr ⟨comment, hc, rfl⟩))

variable {start : Cursor}

/-- The text from one place to a later one spells an operand, with its parentheses and without. -/
structure SpelledBy (tree core : Tree) (kind : Kind) (c c' : Cursor) : Prop where
  reaches : c.Reaches c'
  text : c.rest ≠ []
  kind : core.kind = kind ∨ core.kind = .other
  stands : tree.Stands c
  coreStands : core.Stands c
  tree : Spells c tree tree.marks c'
  core : Spells c core core.marks c'

abbrev Operand.Spelled (o : Operand) (c c' : Cursor) : Prop :=
  SpelledBy o.tree o.core o.kind c c'

theorem SpelledBy.of_tree {t : Tree} {kind : Kind} {c c' : Cursor} (hr : c.Reaches c')
    (htext : c.rest ≠ []) (h : Spells c t t.marks c')
    (hk : t.kind = kind ∨ t.kind = .other) (hp : t.position = some c.position)
    (hoperands : ∀ s ∈ t.expr.operands, s.Stands c)
    (hmembers : ∀ q ∈ t.expr.asObject?.getD [], ∃ d, (Fragment.member q).StandsAt c d) :
    SpelledBy t t kind c c' := by
  have hstands : t.Stands c :=
    Tree.stands_of_root htext hp ⟨_, h⟩ hoperands hmembers
  exact ⟨hr, htext, hk, hstands, hstands, h, h⟩

/-- A tree without parts. -/
theorem SpelledBy.of_leaf {t : Tree} {kind : Kind} {c c' : Cursor} (hr : c.Reaches c')
    (htext : c.rest ≠ []) (h : Spells c t t.marks c')
    (hk : t.kind = kind ∨ t.kind = .other) (hp : t.position = some c.position)
    (hoperands : t.expr.operands = []) (hmembers : t.expr.asObject? = none) :
    SpelledBy t t kind c c' := by
  apply SpelledBy.of_tree hr htext h hk hp
  · simp [hoperands]
  · simp [hmembers]

namespace Listing

variable {α : Type} {P : Cursor → α → Cursor → Prop} {l : Listing α} {due : Bool}
  {c d m : Cursor}

/-- A listing is what stands between two places, whatever is noted of its comments and items. -/
structure From (P : Cursor → α → Cursor → Prop) (l : Listing α) (due : Bool) (c m : Cursor) :
    Prop where
  between : ∀ note marks, Between note [','] (fun c x ms c' => P c x c' ∧ ms = marks x) c l.items
    (Piece.marksOf marks note l.pieces) m
  series : ∃ xs, Series P due c xs m ∧ xs.filterMap id = l.items ∧ (none ∈ xs → l.holes = true)

theorem from_nil (trailing due : Bool) : From P { trailing } due m m :=
  ⟨fun _ _ => .none m, [], .none due m, rfl, nofun⟩

theorem From.blanks (h : From P l due (c.forward (Lexeme.run isBlank c.rest)) m) :
    From P l due c m := by
  obtain ⟨hbetween, xs, hxs, hitems, hholes⟩ := h
  exact ⟨fun note marks => (hbetween note marks).blanks, xs, .gap (.blanks _ c) hxs, hitems, hholes⟩

theorem From.comma {tail : List Char} (hc : c.rest = ',' :: tail)
    (h : From P l true (c.forward 1) m) : From P { l with holes := l.holes || due } due c m := by
  have hhead : c.rest.head? = some ',' := by rw [hc]; rfl
  obtain ⟨hbetween, xs, hxs, hitems, hholes⟩ := h
  refine ⟨fun note marks => .blank hhead (.inr (by simp)) (hbetween note marks), ?_⟩
  cases due with
  | false => exact ⟨xs, .comma hhead hxs, hitems, fun h => by simp [hholes h]⟩
  | true => exact ⟨.none :: xs, .hole hhead hxs, hitems, fun _ => Bool.or_true _⟩

theorem From.comment {n : Nat} (hc : Lexeme.comment c.rest = some n)
    (h : From P l due (c.forward n) m) (first last : Nat) :
    From P (l.add (.comment (c.slice (c.forward n)) first last)) due c m := by
  obtain ⟨hbetween, xs, hxs, hitems, hholes⟩ := h
  exact ⟨fun note marks => .comment hc (hbetween note marks), xs, .gap (.comment hc (.none _)) hxs,
    hitems, hholes⟩

theorem From.item {x : α} (hc : AtToken c) (hx : P c x d) (hdue : due = true)
    (h : From P l false d m) (first last : Nat) :
    From P (l.add (.item x first last)) due c m := by
  subst hdue
  obtain ⟨hbetween, xs, hxs, hitems, hholes⟩ := h
  exact ⟨fun note marks => .item hc ⟨hx, rfl⟩ (hbetween note marks), some x :: xs, .item hx hxs,
    congrArg (x :: ·) hitems, fun h => hholes (by simpa using h)⟩

theorem From.page {x : α} {n : Nat} (hc : AtToken c) (hn : Lexeme.pageComment c.rest = some n)
    (hx : P c x (c.forward n)) (hdue : due = true) (h : From P l due (c.forward n) m)
    (first last : Nat) : From P (l.add (.item x first last)) due c m := by
  subst hdue
  obtain ⟨hbetween, xs, hxs, hitems, hholes⟩ := h
  exact ⟨fun note marks => .item hc ⟨hx, rfl⟩ (hbetween note marks), some x :: xs,
    .page hn hx hxs, congrArg (x :: ·) hitems, fun h => hholes (by simpa using h)⟩

theorem items_attached {β : Type} (l : Listing α) (f : α → β) :
    (Piece.attach l.pieces).1.map (fun x => f x.1) = l.items.map f := by
  have hfst : (Piece.attach l.pieces).1.map (·.1) = l.items := Piece.map_fst_attach l.pieces
  rw [← hfst, List.map_map]
  rfl

theorem mem_items_of_attached (l : Listing α) {x : α × Trivia}
    (h : x ∈ (Piece.attach l.pieces).1) : x.1 ∈ l.items := by
  rw [← List.map_id l.items, ← l.items_attached id]
  exact List.mem_map_of_mem h

variable {β : Type} {item : Cursor → β → List Mark → Cursor → Prop} {f : α → β}
  {marks : α → List Mark}

/-- The items of a listing whose comments are not kept. -/
theorem From.passed (h : From P l due c m)
    (hi : ∀ c x c', P c x c' → item c (f x) (marks x) c') :
    Between Piece.unnoted [','] item c (l.items.map f) (l.items.flatMap marks) m := by
  have hlist := h.between Piece.unnoted marks
  have hmarks : Piece.marksOf marks Piece.unnoted l.pieces = l.items.flatMap marks :=
    Piece.marksOf_nil marks l.pieces
  rw [hmarks] at hlist
  refine hlist.map ?_ (List.map_id l.items)
  rintro c x _ c' ⟨hx, rfl⟩
  exact hi c x c' hx

/-- The items of a listing with the comments given to them. -/
theorem From.attached {f : α × Trivia → β} (h : From P l due c m)
    (hi : ∀ c x c', P c x.1 c' → item c (f x) (marks x.1) c') :
    Between Piece.noted [','] item c ((Piece.attach l.pieces).1.map f)
      (Piece.marksOfItems marks (Piece.attach l.pieces).1 (Piece.attach l.pieces).2) m := by
  have hlist := h.between Piece.noted marks
  rw [← Piece.marksOfItems_attach] at hlist
  refine hlist.map ?_ (Piece.map_fst_attach l.pieces)
  rintro c x _ c' ⟨hx, rfl⟩
  exact hi c x c' hx

/-- The comments that are given to the items are comments. -/
theorem From.comments (h : From P l due c m) :
    (∀ x ∈ (Piece.attach l.pieces).1, x.2.Plain) ∧
      ∀ comment ∈ (Piece.attach l.pieces).2, IsComment comment.text := by
  have hlist := h.between Piece.noted fun _ => []
  exact Piece.plain_attach fun text => hlist.isComment fun _ _ _ _ h => h.2

/-- What holds of every item that can be read holds of the items of a listing. -/
theorem From.all (h : From P l due c m) {Q : α → Prop} (hi : ∀ c x c', P c x c' → Q x) :
    ∀ x ∈ l.items, Q x := by
  have hlist := h.between Piece.unnoted fun _ => []
  clear h
  generalize Piece.marksOf (fun _ => []) Piece.unnoted l.pieces = marks at hlist
  generalize l.items = items at hlist ⊢
  induction hlist with
  | none c => nofun
  | blank _ _ _ ih => exact ih
  | comment _ _ ih => exact ih
  | item _ h _ ih => exact List.forall_mem_cons.mpr ⟨hi _ _ _ h.1, ih⟩

/-- What holds of every item that can be read behind a place holds of the items of a listing that
starts there. -/
theorem From.forall {origin : Cursor} (h : From P l due c m) (hc : origin.Reaches c)
    (hr : ∀ c x c', P c x c' → c.Reaches c') {Q : α → Prop}
    (hi : ∀ c x c', origin.Reaches c → P c x c' → Q x) : ∀ x ∈ l.items, Q x := by
  have hlist := h.between Piece.unnoted fun _ => []
  clear h
  generalize Piece.marksOf (fun _ => []) Piece.unnoted l.pieces = marks at hlist
  generalize l.items = items at hlist ⊢
  induction hlist with
  | none c => nofun
  | blank _ _ _ ih => exact ih (hc.trans (.forward _ _))
  | comment _ _ ih => exact ih (hc.trans (.forward _ _))
  | item _ h _ ih =>
    exact List.forall_mem_cons.mpr ⟨hi _ _ _ hc h.1, ih (hc.trans (hr _ _ _ h.1))⟩

theorem spec_read {element : Scan α} {page : Position → String → α}
    (he : ∀ c₀, ⦃fun c => ⌜c = c₀ ∧ AtStart c⌝⦄ element ⦃⇓? x c => ⌜c₀.Reaches c ∧ P c₀ x c⌝⦄)
    (hp : ∀ c n, Lexeme.pageComment c.rest = some n →
      P c (page c.position (c.slice (c.forward n))) (c.forward n))
    (close : Char) (n : Nat) (begun due : Bool) :
    ⦃fun c => ⌜c = start⌝⦄ read close element page n begun due
    ⦃⇓? l c => ⌜start.Reaches c ∧ ∃ m, m.rest.head? = some close ∧ c = m.forward 1 ∧
      From P l due start m⌝⦄ := by
  induction n generalizing start begun due with
  | zero => mvcgen [read]
  | succ n ih =>
    unfold read
    mvcgen [ih, he]
    -- a comment, a page comment, the closing bracket, a comma and an element, in this order
    case vc1 => grind [From.blanks, From.comment]
    case vc2 s hs _ _ hrest _ _ hblank hcomment k hpage _ _ hguard _ _ hskip l _ hrun =>
      subst hs
      obtain ⟨rfl, rfl⟩ := hrest
      subst hblank
      obtain ⟨rfl, hdue⟩ := hguard
      subst hskip
      obtain ⟨hreach, m, hm, rfl, hfrom⟩ := hrun
      exact ⟨by grind, m, hm, rfl,
        .blanks (.page (atToken_behind hcomment) hpage (hp _ _ hpage) hdue hfrom _ _)⟩
    case vc3 => grind [From.blanks, from_nil]
    case vc4 => grind [From.blanks, From.comma]
    case vc5 => grind [AtStart, atToken_behind]
    case vc6 => grind [From.blanks, From.item, atToken_behind]

end Listing

namespace Operand

variable {c c' d : Cursor} {n : Nat}

/-- Any text may be kept as a piece of any kind. -/
theorem spelled_verbatim (h : c.Reaches c') (ht : c.rest ≠ []) (kind : Kind) :
    SpelledBy (verbatim c.position (c.slice c')).tree (verbatim c.position (c.slice c')).core kind
      c c' :=
  .of_leaf h ht (.verbatim h) (.inr rfl) rfl rfl rfl

theorem Kept.spelled {o : Operand} (ho : o.Kept c c') (h : c.Reaches c') (ht : c.rest ≠ []) :
    o.Spelled c c' := by
  rw [Operand.Spelled, ho.core, ho.tree]
  exact spelled_verbatim h ht o.kind

theorem spelled_page (h : Lexeme.pageComment c.rest = some n) :
    (verbatim c.position (c.slice (c.forward n))).Spelled c (c.forward n) :=
  spelled_verbatim (.forward c n) (by grind) .other

theorem spelled_string (h : Lexeme.string c.rest = some n) :
    (string c.position (c.slice (c.forward n))).Spelled c (c.forward n) := by
  have ht : c.rest ≠ [] := by grind
  unfold string
  split
  · next hv =>
    exact .of_leaf (.forward c n) ht (.string h hv) (.inl rfl) rfl rfl rfl
  · next hv =>
    exact .of_leaf (.forward c n) ht (.verbatim (.forward c n)) (.inr rfl) rfl rfl rfl

theorem spelled_boolean {value : Bool} (h : Lexeme.name c.rest = some n)
    (hv : c.slice (c.forward n) = if value then "true" else "false") :
    (boolean c.position value).Spelled c (c.forward n) :=
  .of_leaf (.forward c n) (by grind) (.boolean h hv) (.inl rfl) rfl rfl rfl

theorem spelled_name (h : Lexeme.name c.rest = some n) :
    (name c.position (c.slice (c.forward n))).Spelled c (c.forward n) :=
  .of_leaf (.forward c n) (by grind) (.identifier h) (.inl rfl) rfl rfl rfl

attribute [grind →] SpelledBy.reaches SpelledBy.text
attribute [grind ←] spelled_verbatim

end Operand

theorem Operand.spelled_wrap {l : Listing Operand} {o : Operand} {c m : Cursor}
    (hc : c.rest.head? = some '(')
    (h : l.From (fun c o c' => o.Spelled c c') true (c.forward 1) m) (hl : l.items = [o])
    (hm : m.rest.head? = some ')') (hr : c.Reaches (m.forward 1)) :
    (o.wrap c.position (c.slice (m.forward 1))).Spelled c (m.forward 1) := by
  have hlist : Between Piece.unnoted [','] Spells (c.forward 1) (l.items.map Operand.core)
      (l.items.flatMap fun o => o.core.marks) m := h.passed fun _ _ _ h => h.core
  rw [hl, List.map_singleton, List.flatMap_singleton] at hlist
  have hcore : Spells c o.core o.core.marks (m.forward 1) := .parentheses hc hlist hm
  have htext : c.rest ≠ [] := by grind
  have hall : ∀ o ∈ l.items, (o.core.kind = o.kind ∨ o.core.kind = .other) ∧ o.core.Stands c :=
    h.forall (.forward c 1) (fun _ _ _ h => h.reaches) fun _ _ _ hr h =>
      ⟨h.kind, h.coreStands.mono hr⟩
  obtain ⟨hkind, hstands⟩ := hall o (by simp [hl])
  unfold wrap
  split
  · exact ⟨hr, htext, hkind, hstands, hstands, hcore, hcore⟩
  · have hkept := spelled_verbatim hr htext .other
    exact ⟨hr, htext, hkind, hkept.stands, hstands, .verbatim hr, hcore⟩

theorem Expression.spelled_call {l : Listing Operand} {o : Operand} {c d e m : Cursor}
    (ho : o.Spelled c d) (hd : Apart d e) (he : e.rest.head? = some '(')
    (h : l.From (fun c o c' => o.Spelled c c') true (e.forward 1) m)
    (hm : m.rest.head? = some ')') (hr : c.Reaches (m.forward 1)) :
    (callOf c o l).Spelled c (m.forward 1) := by
  have hlist : Between Piece.unnoted [','] Spells (e.forward 1) (l.items.map Operand.tree)
      (l.items.flatMap fun o => o.tree.marks) m := h.passed fun _ _ _ h => h.tree
  have hmarks : (l.items.flatMap fun o => o.tree.marks) =
      Tree.marksArguments (l.items.map Operand.tree) := by
    rw [Tree.marksArguments_eq, List.flatMap_map]
  rw [hmarks] at hlist
  have hopen : c.Reaches (e.forward 1) := ho.reaches.trans (hd.reaches.trans (.forward e 1))
  have harguments : ∀ o ∈ l.items, o.tree.Stands c :=
    h.forall hopen (fun _ _ _ h => h.reaches) fun _ _ _ hr h => h.stands.mono hr
  refine .of_tree hr ho.text (.call ho.tree hd he hlist hm) (.inl rfl) rfl ?_
    (List.forall_mem_nil _)
  simpa [callOf, Tree.expr, Expr.operands] using ⟨ho.stands, harguments⟩

/-- The text from one place to a later one spells a property, without its comments. -/
structure SpelledBody (body : PropertyBody Tree) (position : Position) (c c' : Cursor) :
    Prop where
  reaches : c.Reaches c'
  text : c.rest ≠ []
  starts : position = c.position
  written : ∃ form, Written c form body c'
  stands : ∀ k t, body = .assignment k t → t.Stands c
  property : ∀ trivia, SpellsProperty c ⟨body, some position, trivia⟩ (Tree.marksBody body) c'

abbrev Member.Spelled (m : Member) (c c' : Cursor) : Prop :=
  SpelledBody m.body m.position c c'

theorem SpelledBody.irregular {c c' : Cursor} {shape : IrregularShape} (h : c.Reaches c')
    (ht : c.rest ≠ []) (hw : ∃ form, Written c form (.irregular shape (c.slice c')) c') :
    (Member.irregular shape c c').Spelled c c' :=
  ⟨h, ht, rfl, hw, nofun, .irregular h shape⟩

theorem SpelledBody.page {c : Cursor} {n : Nat} (h : Lexeme.pageComment c.rest = some n) :
    (Grammar.pageMember c.position (c.slice (c.forward n))).Spelled c (c.forward n) := by
  have ht : c.rest ≠ [] := by grind
  exact ⟨.forward c n, ht, rfl, ⟨_, .page h⟩, nofun, .irregular (.forward c n) _⟩

theorem SpelledBody.method {c e d k p c' : Cursor} {name : NameForm} (ht : c.rest ≠ [])
    (hh : Heads c e) (hd : Apart e d) (hk : Keyed d name k) (hp : Apart k p)
    (hparen : p.rest.head? = some '(') (h : (p.forward 1).Reaches c') (hr : c.Reaches c') :
    (Member.irregular .method c c').Spelled c c' := by
  obtain ⟨ms, hms⟩ := hh d hd
  exact .irregular hr ht ⟨_, .method hms hk hp hparen h⟩

theorem SpelledBody.shorthand {c k : Cursor} {word : String} (ht : c.rest ≠ [])
    (hk : Keyed c (.word word) k) : (Member.irregular .shorthand c k).Spelled c k :=
  .irregular hk.reaches ht ⟨_, .shorthand hk.names_word⟩

theorem SpelledBody.withDefault {c k d c' : Cursor} {word : String} (ht : c.rest ≠ [])
    (hk : Keyed c (.word word) k) (hd : Apart k d) (heq : d.rest.head? = some '=')
    (h : (d.forward 1).Reaches c') (hr : c.Reaches c') :
    (Member.irregular .unrecognized c c').Spelled c c' :=
  .irregular hr ht ⟨_, .withDefault hk.names_word hd heq h⟩

theorem SpelledBody.spread {c c' : Cursor} (ht : c.rest ≠ []) (h : "...".toList.isPrefixOf c.rest)
    (hr : c.Reaches c') : (Member.irregular .spread c c').Spelled c c' :=
  .irregular hr ht ⟨_, .spread h hr⟩

theorem SpelledBody.decorated {c c' : Cursor} (ht : c.rest ≠ []) (h : c.rest.head? = some '@')
    (hr : c.Reaches c') : (Member.irregular .method c c').Spelled c c' :=
  .irregular hr ht ⟨_, .decorated h hr⟩

attribute [grind →] SpelledBody.reaches Keyed.reaches

theorem Names.lexical {c k : Cursor} {form : NameForm} {key : PropertyKey} (h : Names c form k)
    (hkey : Member.key? form = some key) : key.Lexical := by
  cases h with
  | word h =>
    cases hkey
    exact .inl (.inl ⟨rfl, isName_slice h⟩)
  | string h =>
    obtain ⟨value, -, rfl⟩ := Option.map_eq_some_iff.mp hkey
    exact .inl (.inr rfl)
  | number h =>
    cases hkey
    refine .inr ⟨rfl, fun rest => ?_⟩
    obtain ⟨htake, hlength⟩ := Lexeme.number_take (.inl rfl) h rest
    rwa [Cursor.toList_slice, Cursor.textTo_forward, List.length_take, Nat.min_eq_left hlength]

theorem SpelledBody.assignment {c k d m c' : Cursor} {form : NameForm} {key : PropertyKey}
    {o : Operand} (hk : Keyed c form k) (hkey : Member.key? form = some key) (hd : Apart k d)
    (hc : d.rest.head? = some ':') (hm : Apart (d.forward 1) m) (ho : o.Spelled m c')
    (hr : c.Reaches c') (ht : c.rest ≠ []) :
    SpelledBody (.assignment key o.tree) c.position c c' := by
  have hnames := hk.names hkey
  have hvalue : c.Reaches m :=
    hk.reaches.trans (hd.reaches.trans ((Cursor.Reaches.forward d 1).trans hm.reaches))
  have hbehind : (d.forward 1).Reaches c' := hm.reaches.trans ho.reaches
  refine ⟨hr, ht, rfl, ⟨_, .pair hk hkey hd hc hbehind o.tree⟩, ?_,
    .assignment hnames hkey hd hc hm ho.tree⟩
  rintro _ _ ⟨⟩
  exact ho.stands.mono hvalue

theorem spelled_object {l : Listing Member} {c m : Cursor} (hc : c.rest.head? = some '\x7b')
    (h : l.From (fun c m c' => m.Spelled c c') true (c.forward 1) m)
    (hm : m.rest.head? = some '\x7d') (hr : c.Reaches (m.forward 1)) :
    (objectOf c l).Spelled c (m.forward 1) := by
  have hlist : Between Piece.noted [','] SpellsProperty (c.forward 1)
      ((Piece.attach l.pieces).1.map fun x => x.1.toProperty x.2) (Piece.marksOfItems
        (fun m => Tree.marksBody m.body) (Piece.attach l.pieces).1 (Piece.attach l.pieces).2) m :=
    h.attached fun _ x _ h => h.property x.2
  have htext : c.rest ≠ [] := by grind
  have hall := h.forall (.forward c 1) (fun _ _ _ h => h.reaches) fun d _ d' hr h =>
    (⟨d, d', hr, h⟩ : ∃ d d', c.Reaches d ∧ Member.Spelled _ d d')
  -- the marks, then where the operands and members stand
  refine .of_tree hr htext (.object hc ?_ hm _) (.inl rfl) rfl ?_ ?_
  · rw [objectOf, Tree.marks, Tree.marksExpr, Tree.marksProperties_eq, List.flatMap_map]
    exact hlist
  · intro s hs
    obtain ⟨q, hq, hvalue⟩ := List.mem_filterMap.mp hs
    obtain ⟨x, hx, rfl⟩ := List.mem_map.mp hq
    obtain ⟨d, d', hd, hx⟩ := hall x.1 (l.mem_items_of_attached hx)
    obtain ⟨k, hbody⟩ := Property.body_of_value? hvalue
    exact (hx.stands _ _ hbody).mono hd
  · intro q hq
    obtain ⟨x, hx, rfl⟩ := List.mem_map.mp hq
    obtain ⟨d, d', hd, hx⟩ := hall x.1 (l.mem_items_of_attached hx)
    exact ⟨d, hd, hx.text, congrArg some hx.starts, d', ⟨_, hx.property x.2⟩, hx.written⟩

theorem spelled_array {l : Listing Operand} {c m : Cursor} (hc : c.rest.head? = some '[')
    (h : l.From (fun c o c' => o.Spelled c c') true (c.forward 1) m)
    (hm : m.rest.head? = some ']') (hr : c.Reaches (m.forward 1)) :
    (arrayOf c l).Spelled c (m.forward 1) := by
  have hlist : Between Piece.noted [','] Spells (c.forward 1)
      ((Piece.attach l.pieces).1.map fun x => x.1.tree) (Piece.marksOfItems
        (fun o => o.tree.marks) (Piece.attach l.pieces).1 (Piece.attach l.pieces).2) m :=
    h.attached fun _ _ _ h => h.tree
  have htext : c.rest ≠ [] := by grind
  have hall : ∀ o ∈ l.items, o.tree.Stands c :=
    h.forall (.forward c 1) (fun _ _ _ h => h.reaches) fun _ _ _ hr h => h.stands.mono hr
  refine .of_tree hr htext (.array hc ?_ hm _) (.inl rfl) rfl ?_ (List.forall_mem_nil _)
  · rw [arrayOf, List.map_map, Tree.marks, Tree.marksExpr, Tree.marksElements_eq, List.flatMap_map]
    exact hlist
  · simp only [arrayOf, Tree.expr, Expr.operands, List.map_map, List.forall_mem_map]
    intro x hx
    exact hall x.1 (l.mem_items_of_attached hx)

namespace Expression

theorem spelled_member {o : Operand} {c d e m : Cursor} {n : Nat} (ho : o.Spelled c d)
    (hd : Apart d e) (he : e.rest.head? = some '.') (hm : Apart (e.forward 1) m)
    (h : Lexeme.name m.rest = some n) (hr : c.Reaches (m.forward n)) :
    (memberOf c o (m.slice (m.forward n))).Spelled c (m.forward n) := by
  refine .of_tree hr ho.text (.member ho.tree hd he hm h) (.inl rfl) rfl ?_ (List.forall_mem_nil _)
  simpa [memberOf, Tree.expr, Expr.operands] using ho.stands

theorem spelled_assignment {o right : Operand} {c d e m c' : Cursor} (ho : o.Spelled c d)
    (hd : Apart d e) (he : e.rest.head? = some '=') (hm : Apart (e.forward 1) m)
    (hright : right.Spelled m c') (hr : c.Reaches c') :
    (assignmentOf c o d right).Spelled c c' := by
  -- the left side of a destructuring assignment is its text, any other the operand before it
  obtain ⟨core, kind, hl⟩ : ∃ core kind, SpelledBy (o.target c d) core kind c d := by
    unfold Operand.target
    split
    · exact ⟨_, _, Operand.spelled_verbatim ho.reaches ho.text .other⟩
    · exact ⟨_, _, ho⟩
  have hvalue : c.Reaches m :=
    hl.reaches.trans (hd.reaches.trans ((Cursor.Reaches.forward e 1).trans hm.reaches))
  refine .of_tree hr hl.text (.assignment hl.tree hd he hm hright.tree) (.inl rfl) rfl ?_
    (List.forall_mem_nil _)
  simpa [assignmentOf, Tree.expr, Expr.operands] using ⟨hl.stands, hright.stands.mono hvalue⟩

end Expression

end SiteConfig.Script
