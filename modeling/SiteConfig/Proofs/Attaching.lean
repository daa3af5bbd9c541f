import Mathlib.Data.List.Basic
import SiteConfig.Proofs.Marks

/-!
Giving the comments of a list to its items loses nothing and moves nothing. Written out again, the
list is the one that was read, and of all ways to give the comments away only one says which of
them stand behind an item on its last row, and what has a blank line before it.
-/

namespace SiteConfig

/-- What a piece of a list is once the comments have been given to the items. -/
inductive Assigned (α : Type) where
  /-- A comment that leads an item or dangles. -/
  | apart (comment : Comment)
  | item (value : α) (spaced : Bool)
  /-- A comment that trails the item before it. -/
  | trailing (text : String)

namespace Assigned

variable {α : Type}

/-- An item or the text of a comment. -/
def content : Assigned α → α ⊕ String
  | apart comment => .inr comment.text
  | item value _ => .inl value
  | trailing text => .inr text

/-- Whether a blank line stands before it, which is not kept of a trailing comment. -/
def spaced? : Assigned α → Option Bool
  | apart comment => some comment.spaced
  | item _ spaced => some spaced
  | trailing _ => none

theorem ext {x y : Assigned α} (hcontent : x.content = y.content)
    (htrailing : (∃ text, x = .trailing text) ↔ ∃ text, y = .trailing text)
    (hspaced : ∀ s t, x.spaced? = some s → y.spaced? = some t → s = t) : x = y := by
  cases x with
  | apart c =>
    cases y with
    | apart c' =>
      obtain ⟨text, spaced⟩ := c
      obtain ⟨text', spaced'⟩ := c'
      obtain rfl : text = text' := Sum.inr.inj hcontent
      rw [hspaced spaced spaced' rfl rfl]
    | item value spaced => cases hcontent
    | trailing text =>
      obtain ⟨_, h⟩ := htrailing.mpr ⟨text, rfl⟩
      cases h
  | item value spaced =>
    cases y with
    | item value' spaced' =>
      obtain rfl : value = value' := Sum.inl.inj hcontent
      rw [hspaced spaced spaced' rfl rfl]
    | apart c => cases hcontent
    | trailing text => cases hcontent
  | trailing text =>
    obtain ⟨text', rfl⟩ := htrailing.mp ⟨text, rfl⟩
    rw [show text = text' from Sum.inr.inj hcontent]

/-- An item between its leading comments and its trailing one. -/
def ofItem (x : α × Trivia) : List (Assigned α) :=
  x.2.leading.map .apart ++ .item x.1 x.2.spaced :: x.2.trailing.toList.map .trailing

/-- The items with their comments, and the dangling comments behind them. -/
def writeOut (items : List (α × Trivia)) (dangling : List Comment) : List (Assigned α) :=
  items.flatMap ofItem ++ dangling.map .apart

theorem writeOut_nil (dangling : List Comment) :
    writeOut ([] : List (α × Trivia)) dangling = dangling.map .apart := by
  rw [writeOut, List.flatMap_nil, List.nil_append]

theorem writeOut_cons (value : α) (leading : List Comment) (t : Option String) (spaced : Bool)
    (items : List (α × Trivia)) (dangling : List Comment) :
    writeOut ((value, ⟨leading, t, spaced⟩) :: items) dangling =
      leading.map .apart ++ .item value spaced ::
        (t.toList.map .trailing ++ writeOut items dangling) := by
  simp [writeOut, ofItem]

/-- No trailing comment comes first. -/
theorem head?_writeOut (items : List (α × Trivia)) (dangling : List Comment) (text : String) :
    (writeOut items dangling).head? ≠ some (.trailing text) := by
  cases items with
  | nil => cases dangling <;> simp [writeOut_nil]
  | cons x items =>
    obtain ⟨value, leading, t, spaced⟩ := x
    rw [writeOut_cons]
    cases leading <;> simp

theorem map_apart_inj {comments comments' : List Comment}
    (h : comments.map (@apart α) = comments'.map .apart) : comments = comments' :=
  List.map_injective_iff.mpr (fun _ _ => apart.inj) h

/-- Comments with no item behind them are not those before an item. -/
theorem map_apart_ne {comments comments' : List Comment} {value : α} {spaced : Bool}
    {rest : List (Assigned α)} :
    comments.map .apart ≠ comments'.map .apart ++ .item value spaced :: rest := by
  intro h
  have hmem : .item value spaced ∈ comments.map (@apart α) := by simp [h]
  simp at hmem

/-- The comments before the first item. -/
theorem leading_inj {comments comments' : List Comment} {value value' : α} {spaced spaced' : Bool}
    {rest rest' : List (Assigned α)}
    (h : comments.map .apart ++ .item value spaced :: rest =
      comments'.map .apart ++ .item value' spaced' :: rest') :
    comments = comments' ∧ value = value' ∧ spaced = spaced' ∧ rest = rest' := by
  induction comments generalizing comments' with
  | nil =>
    cases comments' with
    | nil => simpa [and_assoc] using h
    | cons c comments' => simp at h
  | cons c comments ih =>
    cases comments' with
    | nil => simp at h
    | cons c' comments' =>
      rw [List.map_cons, List.map_cons, List.cons_append, List.cons_append, List.cons.injEq,
        apart.injEq] at h
      obtain ⟨rfl, h⟩ := h
      obtain ⟨rfl, hrest⟩ := ih h
      exact ⟨rfl, hrest⟩

theorem trailing_inj {t t' : Option String} {items items' : List (α × Trivia)}
    {dangling dangling' : List Comment}
    (h : t.toList.map .trailing ++ writeOut items dangling =
      t'.toList.map .trailing ++ writeOut items' dangling') :
    t = t' ∧ writeOut items dangling = writeOut items' dangling' := by
  cases t with
  | none =>
    cases t' with
    | none => exact ⟨rfl, h⟩
    | some text' =>
      refine absurd ?_ (head?_writeOut items dangling text')
      simpa using congrArg List.head? h
  | some text =>
    cases t' with
    | none =>
      refine absurd ?_ (head?_writeOut items' dangling' text)
      simpa using (congrArg List.head? h).symm
    | some text' =>
      obtain ⟨htext, hrest⟩ := List.cons.inj h
      exact ⟨congrArg some (trailing.inj htext), hrest⟩

/-- What is written out tells which comments each item has. -/
theorem writeOut_inj {items items' : List (α × Trivia)} {dangling dangling' : List Comment}
    (h : writeOut items dangling = writeOut items' dangling') :
    items = items' ∧ dangling = dangling' := by
  induction items generalizing items' with
  | nil =>
    cases items' with
    | nil =>
      rw [writeOut_nil, writeOut_nil] at h
      exact ⟨rfl, map_apart_inj h⟩
    | cons x items' =>
      obtain ⟨value, leading, t, spaced⟩ := x
      rw [writeOut_nil, writeOut_cons] at h
      exact absurd h map_apart_ne
  | cons x items ih =>
    obtain ⟨value, leading, t, spaced⟩ := x
    cases items' with
    | nil =>
      rw [writeOut_nil, writeOut_cons] at h
      exact absurd h.symm map_apart_ne
    | cons x' items' =>
      obtain ⟨value', leading', t', spaced'⟩ := x'
      rw [writeOut_cons, writeOut_cons] at h
      obtain ⟨rfl, rfl, rfl, hbehind⟩ := leading_inj h
      obtain ⟨rfl, hrest⟩ := trailing_inj hbehind
      obtain ⟨rfl, rfl⟩ := ih hrest
      exact ⟨rfl, rfl⟩

end Assigned

namespace Piece
open Assigned

variable {α : Type}

def content : Piece α → α ⊕ String
  | comment text _ _ => .inr text
  | item value _ _ => .inl value

/-- The piece before is an item that ends on the row. -/
def endsItem (row : Nat) : Option (Piece α) → Bool
  | some (item _ _ last) => last = row
  | _ => false

/-- The role of a piece, for which nothing counts but the piece before it. -/
def role (before : Option (Piece α)) : Piece α → Assigned α
  | comment text first _ =>
    if endsItem first before then .trailing text
    else .apart ⟨text, spacedAfter (before.map last) first⟩
  | item value first _ => .item value (spacedAfter (before.map last) first)

def roles (before : Option (Piece α)) : List (Piece α) → List (Assigned α)
  | [] => []
  | p :: rest => role before p :: roles (some p) rest

theorem roles_item (before : Option (Piece α)) (value : α) (first last : Nat)
    (rest : List (Piece α)) :
    roles before (.item value first last :: rest) =
      .item value (spacedAfter (before.map Piece.last) first) ::
        roles (some (.item value first last)) rest :=
  rfl

theorem content_role (before : Option (Piece α)) (p : Piece α) :
    (role before p).content = p.content := by
  cases p with
  | comment text first last =>
    rw [role]
    split <;> rfl
  | item value first last => rfl

theorem map_content_roles (before : Option (Piece α)) (pieces : List (Piece α)) :
    (roles before pieces).map Assigned.content = pieces.map content := by
  induction pieces generalizing before with
  | nil => rfl
  | cons p rest ih => rw [roles, List.map_cons, List.map_cons, content_role, ih]

theorem getElem?_roles_zero (before : Option (Piece α)) (pieces : List (Piece α)) :
    (roles before pieces)[0]? = pieces[0]?.map (role before) := by
  cases pieces <;> rfl

theorem getElem?_roles_succ (before : Option (Piece α)) (pieces : List (Piece α)) (k : Nat) :
    (roles before pieces)[k + 1]? = pieces[k + 1]?.map (role pieces[k]?) := by
  induction pieces generalizing before k with
  | nil => rfl
  | cons p rest ih =>
    rw [roles, List.getElem?_cons_succ, List.getElem?_cons_succ]
    cases k with
    | zero => rw [getElem?_roles_zero, List.getElem?_cons_zero]
    | succ k => rw [ih, List.getElem?_cons_succ]

/-- Read on with comments that wait for an item, the pieces get their roles. -/
theorem writeOut_attachFrom {before : Option (Piece α)} {pending : List Comment}
    {previous : Option Nat} {pieces : List (Piece α)} (hprevious : before.map last = previous)
    (hfree : ∀ text first stop rest, pieces = .comment text first stop :: rest →
      endsItem first before = false) :
    writeOut (attachFrom pending previous pieces).1 (attachFrom pending previous pieces).2 =
      pending.map .apart ++ roles before pieces := by
  -- the piece before stands for the row it ended on; after a trailing comment it is that comment
  fun_induction attachFrom pending previous pieces generalizing before with
  | case1 pending previous => rw [writeOut_nil, roles, List.append_nil]
  | case2 pending previous text first stop rest ih =>
    -- a comment that trails nothing joins those that wait
    have hrest := @ih (some (.comment text first stop)) rfl (fun _ _ _ _ _ => rfl)
    rw [hrest, roles, role, hfree text first stop rest rfl, hprevious]
    simp
  | @case3 pending previous value first spaced text last stop rest items dangling heq ih =>
    have hrest := @ih (some (.comment text last stop)) rfl (fun _ _ _ _ _ => rfl)
    rw [heq] at hrest
    rw [writeOut_cons, hrest, roles_item, hprevious, roles, role, if_pos (by simp [endsItem])]
    rfl
  | @case4 pending previous value first last spaced text start stop rest hne items dangling heq ih =>
    have hrest := @ih (some (.item value first last)) rfl (by
      rintro _ _ _ _ ⟨⟩
      simpa [endsItem, eq_comm] using hne)
    rw [heq] at hrest
    rw [writeOut_cons, hrest, roles_item, hprevious]
    rfl
  | @case5 pending previous value first last spaced rest hitem items dangling heq ih =>
    have hrest := @ih (some (.item value first last)) rfl (by
      rintro text start stop rest rfl
      exact (hitem text start stop rest rfl).elim)
    rw [heq] at hrest
    rw [writeOut_cons, hrest, roles_item, hprevious]
    rfl

theorem writeOut_attach (pieces : List (Piece α)) :
    writeOut (attach pieces).1 (attach pieces).2 = roles none pieces :=
  writeOut_attachFrom rfl fun _ _ _ _ _ => rfl

/-- Piece `k` is an item, and the next one a comment that starts on its last row. -/
def TrailsAt (pieces : List (Piece α)) (k : Nat) : Prop :=
  ∃ value first row text stop, pieces[k]? = some (.item value first row) ∧
    pieces[k + 1]? = some (.comment text row stop)

/-- A blank line stands between piece `k` and the one before it. -/
def SpacedAt (pieces : List (Piece α)) : (k : Nat) → Prop
  | 0 => False
  | k + 1 => ∃ p q, pieces[k]? = some p ∧ pieces[k + 1]? = some q ∧ p.last + 1 < q.first

/-- The comments of a list with its items. -/
structure Attached (pieces : List (Piece α)) (items : List (α × Trivia))
    (dangling : List Comment) : Prop where
  /-- Written out again, the list is what it was. -/
  whole : (writeOut items dangling).map Assigned.content = pieces.map content
  trailing : ∀ k, (∃ text, (writeOut items dangling)[k + 1]? = some (.trailing text)) ↔
    TrailsAt pieces k
  spaced : ∀ k x spaced, (writeOut items dangling)[k]? = some x → x.spaced? = some spaced →
    (spaced = true ↔ SpacedAt pieces k)

theorem role_eq_trailing_iff {before : Option (Piece α)} {p : Piece α} :
    (∃ text, role before p = .trailing text) ↔
      ∃ value first row text stop, before = some (.item value first row) ∧
        p = .comment text row stop := by
  constructor
  · rintro ⟨text, h⟩
    rcases p with ⟨text', row, stop⟩ | ⟨value, first, last⟩
    · rcases before with _ | ⟨text'', first, last⟩ | ⟨value, first, last⟩
      · cases h
      · cases h
      · by_cases hrow : last = row
        · exact ⟨value, first, last, text', stop, rfl, by rw [hrow]⟩
        · rw [role, endsItem, if_neg (by simpa using hrow)] at h
          cases h
    · cases h
  · rintro ⟨value, first, row, text, stop, rfl, rfl⟩
    exact ⟨text, by rw [role, endsItem, if_pos (by simp)]⟩

theorem spaced?_role {before : Option (Piece α)} {p : Piece α} {spaced : Bool}
    (h : (role before p).spaced? = some spaced) : spaced = spacedAfter (before.map last) p.first := by
  rcases p with ⟨text, first, last⟩ | ⟨value, first, last⟩
  · rw [role] at h
    split at h
    · cases h
    · exact (Option.some.inj h).symm
  · exact (Option.some.inj h).symm

theorem attached_attach (pieces : List (Piece α)) :
    Attached pieces (attach pieces).1 (attach pieces).2 where
  whole := by rw [writeOut_attach, map_content_roles]
  trailing k := by
    rw [writeOut_attach]
    simp only [getElem?_roles_succ, Option.map_eq_some_iff]
    constructor
    · rintro ⟨text, p, hp, hrole⟩
      obtain ⟨value, first, row, text, stop, hbefore, rfl⟩ := role_eq_trailing_iff.mp ⟨text, hrole⟩
      exact ⟨value, first, row, text, stop, hbefore, hp⟩
    · rintro ⟨value, first, row, text, stop, hbefore, hp⟩
      obtain ⟨text', hrole⟩ := role_eq_trailing_iff.mpr ⟨value, first, row, text, stop, hbefore, rfl⟩
      exact ⟨text', _, hp, hrole⟩
  spaced k x spaced hx hspaced := by
    rw [writeOut_attach] at hx
    cases k with
    | zero =>
      rw [getElem?_roles_zero, Option.map_eq_some_iff] at hx
      obtain ⟨p, -, rfl⟩ := hx
      rw [spaced?_role hspaced]
      simp [SpacedAt, spacedAfter]
    | succ k =>
      rw [getElem?_roles_succ, Option.map_eq_some_iff] at hx
      obtain ⟨p, hp, rfl⟩ := hx
      obtain ⟨hk, -⟩ := List.getElem?_eq_some_iff.mp hp
      have hbefore : pieces[k]? = some pieces[k] := List.getElem?_eq_getElem (by omega)
      rw [spaced?_role hspaced, hbefore]
      simp [SpacedAt, spacedAfter, hbefore, hp]

namespace Attached

variable {pieces : List (Piece α)} {items items' : List (α × Trivia)}
  {dangling dangling' : List Comment}

theorem trailing_iff (h : Attached pieces items dangling) (h' : Attached pieces items' dangling')
    (k : Nat) : (∃ text, (writeOut items dangling)[k]? = some (.trailing text)) ↔
      ∃ text, (writeOut items' dangling')[k]? = some (.trailing text) := by
  cases k with
  | zero =>
    simp only [← List.head?_eq_getElem?]
    constructor
    · exact fun ⟨text, h⟩ => absurd h (head?_writeOut items dangling text)
    · exact fun ⟨text, h⟩ => absurd h (head?_writeOut items' dangling' text)
  | succ k => exact (h.trailing k).trans (h'.trailing k).symm

/-- There is one way only to give the comments to the items. -/
theorem unique (h : Attached pieces items dangling) (h' : Attached pieces items' dangling') :
    items = items' ∧ dangling = dangling' := by
  refine writeOut_inj (List.ext_getElem? fun k => ?_)
  have hcontent : (writeOut items dangling)[k]?.map Assigned.content =
      (writeOut items' dangling')[k]?.map Assigned.content := by
    rw [← List.getElem?_map, ← List.getElem?_map, h.whole, h'.whole]
  have htrailing := h.trailing_iff h' k
  have hspaced := h.spaced k
  have hspaced' := h'.spaced k
  cases hx : (writeOut items dangling)[k]? with
  | none =>
    rw [hx, Option.map_none] at hcontent
    exact (Option.map_eq_none_iff.mp hcontent.symm).symm
  | some x =>
    cases hy : (writeOut items' dangling')[k]? with
    | none => simp [hx, hy] at hcontent
    | some y =>
      simp only [hx, hy, Option.map_some, Option.some.injEq] at hcontent htrailing
      refine congrArg some (Assigned.ext hcontent htrailing fun s t hs ht => ?_)
      rw [Bool.eq_iff_iff, hspaced x s hx hs, hspaced' y t hy ht]

end Attached

/-- The comments of a list are given to its items in the one way that keeps all of them in place,
puts a comment on the last row of the item before it behind this item, and notes where a blank line
stands. -/
theorem attach_eq_iff (pieces : List (Piece α)) (items : List (α × Trivia))
    (dangling : List Comment) :
    attach pieces = (items, dangling) ↔ Attached pieces items dangling := by
  have hattach := attached_attach pieces
  constructor
  · intro h
    rwa [h] at hattach
  · intro h
    obtain ⟨rfl, rfl⟩ := h.unique hattach
    rfl

/-- Of two comments on the last row of an item the second leads the next item. -/
example : attach [.item 'a' 1 2, .comment "/* b */" 2 2, .comment "/* c */" 2 3, .item 'd' 5 5] =
    ([('a', ⟨[], some "/* b */", false⟩), ('d', ⟨[⟨"/* c */", false⟩], none, true⟩)], []) :=
  rfl

end Piece

end SiteConfig
