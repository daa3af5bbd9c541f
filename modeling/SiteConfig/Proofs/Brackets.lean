import SiteConfig.Proofs.Operands

/-!
How brackets are laid out, and arrays are read back if their elements are.
-/

namespace SiteConfig

theorem Tree.kind_ne_spread (t : Tree) : t.kind ≠ .spread := by
  unfold Tree.kind
  split <;> simp

namespace Script
open Text Layout SiteConfig.Tree Expression

/-- The operand is a value whose tree shows as `shown`. -/
structure Operand.ShownAs (o : Operand) (shown : Tree) : Prop where
  isValue : o.isValue = true
  tree : o.tree.stripped id = shown

/-- The operand is a reading of `t` that shows as `shown`. -/
structure Operand.Shows (o : Operand) (t shown : Tree) : Prop extends o.ShownAs shown where
  core : o.core = o.tree
  kind : o.kind = t.kind
  isTarget : t.kind = .name ∨ t.kind = .member → o.isTarget = true

namespace Operand.Shows

variable {o : Operand} {t shown : Tree} {place : Place}

theorem allows (h : o.Shows t shown) (hk : place.admits t.kind) (ht : t.kind ≠ .other) :
    place.allows o := by
  cases place with
  | item | object | callee => exact h.isValue
  | value =>
    have hspread := t.kind_ne_spread
    simpa [Place.allows, h.isValue, h.kind] using hspread
  | target =>
    have hkind : t.kind = .name ∨ t.kind = .member := by simpa [Place.admits, ht] using hk
    simp [Place.allows, Operand.isAssignable, h.isTarget hkind]
  | alone =>
    have hkind : t.kind.standsAlone := by simpa [Place.admits, ht] using hk
    simp [Place.allows, h.isValue, h.kind, hkind]

theorem tree_eq (h : o.Shows t shown) (hk : place.admits t.kind) (c c' : Cursor) :
    (place.tree c o c').stripped id = shown := by
  rw [← h.tree]
  cases place with
  | item | value | object | callee => rfl
  | alone => rw [Place.tree, h.core]
  | target =>
    -- the left side of an assignment is no pattern, so it is not kept as its text
    have hpattern : (!o.wrapped && (o.kind = .array || o.kind = .object)) = false := by
      rw [h.kind]
      cases hkind : t.kind <;> simp_all [Place.admits]
    rw [Place.tree, Operand.target, hpattern, if_neg Bool.false_ne_true]

end Operand.Shows

/-- What is read back as an item of a list. -/
theorem readsAs_item {t : Tree} (h : t.ReadsBack false .item) {n bound : Nat}
    (hn : 4 * bound < n) (depth column : Nat) {close : Char} (hclose : close = ')' ∨ close = ']') :
    Listing.ReadsAs close (Grammar.ofDepth (n + 1)).element
      (Operand.ShownAs · (t.shown depth column)) Stops bound (t.layout depth column).toList := by
  intro c s rest hrest hs hbound
  obtain ⟨o, c', htakes, hallows, hrest', htree⟩ := h (n := n) (by omega) hrest ⟨s, rest, hs, rfl⟩
  obtain ⟨ch, cs, hhead, hne⟩ := htakes.head
  simp only [List.mem_cons, List.not_mem_nil, or_false, not_or] at hne
  have hopens : Listing.Opens close c := by
    refine ⟨htakes.atStart, ch, cs, hhead, ?_, hne.1⟩
    rcases hclose with rfl | rfl
    · exact hne.2.1
    · exact hne.2.2.1
  refine ⟨hopens, o, c', htakes.2, htakes.reaches, hrest', ?_, hallows, htree⟩
  -- an item starts with no mark that could stand behind it, so it is not empty
  rw [c.left_eq, c'.left_eq, hrest, hrest', List.length_append]
  have hpos : (t.layout depth column).toList ≠ [] := by
    intro hnil
    rw [hnil, List.nil_append, hhead] at hrest
    obtain rfl : ch = s := (List.cons.inj hrest).1
    rcases hs with rfl | rfl | rfl | rfl <;> simp at hne
  have := List.length_pos_iff.mpr hpos
  omega

/-! The layout of arrays and objects. -/

theorem flatElements?_eq_some {elements : List (Element Tree)} {texts : List String}
    (h : flatElements? elements = some texts) :
    texts = (elements.map fun e => e.value.layout 0 0) ∧
      ∀ e ∈ elements, e.trivia.hasComments = false := by
  induction elements generalizing texts with
  | nil => simpa [flatElements?] using h.symm
  | cons e rest ih =>
    rw [flatElements?] at h
    split at h
    · cases h
    · rename_i hplain
      simp only at h
      split at h
      · cases h
      · obtain ⟨texts', htexts, rfl⟩ := Option.map_eq_some_iff.mp h
        obtain ⟨hrest, hcomments⟩ := ih htexts
        simp only [Bool.or_eq_true, not_or, Bool.not_eq_true] at hplain
        exact ⟨by rw [hrest, List.map_cons], List.forall_mem_cons.mpr ⟨hplain.1, hcomments⟩⟩

/-- An array is written on one line or with a line for each element, and so it is shown. -/
theorem layout_array (depth column : Nat) (position : Option Position)
    (elements : List (Element Tree)) (dangling : List Comment) :
    ∃ inner : String,
      ((node position (.array elements dangling)).layout depth column).toList =
          '[' :: (inner.toList ++ [']']) ∧
        ((inner = ", ".intercalate (elements.map fun e => e.value.layout 0 0) ∧ dangling = [] ∧
            (∀ e ∈ elements, e.trivia.hasComments = false) ∧
            (node position (.array elements dangling)).shown depth column =
              node none (.array (shownFlat elements) dangling)) ∨
          (inner = "\n" ++ lines (depth + 1) "," false (elements.map fun e =>
                (e.value.layout (depth + 1) (2 * (depth + 1)), e.trivia)) ++
              commentLines (depth + 1) (!elements.isEmpty) dangling ++ indent depth ∧
            (node position (.array elements dangling)).shown depth column =
              node none (.array (shownElements (depth + 1) false elements)
                (Comment.shown (!elements.isEmpty) dangling)))) := by
  by_cases hnil : elements = [] ∧ dangling = []
  · obtain ⟨rfl, rfl⟩ := hnil
    refine ⟨"", by simp [layout, layoutExpr], .inl ⟨rfl, rfl, by simp, ?_⟩⟩
    rw [shown, shownExpr]
    split <;> rfl
  have hexpr := layoutExpr_array hnil depth column
  cases hflat : (flatElements? elements).bind (flat? column dangling) with
  | none =>
    -- a line for each element
    refine ⟨_, ?_, .inr ⟨rfl, by rw [shown, shownExpr, hflat]⟩⟩
    rw [layout, hexpr, hflat, layoutElements_eq_lines]
    simp [String.toList_append]
  | some flat =>
    -- one line, where no element has a comment
    obtain ⟨texts, htexts, hline⟩ := Option.bind_eq_some_iff.mp hflat
    obtain ⟨htexts, hcomments⟩ := flatElements?_eq_some htexts
    simp only [flat?] at hline
    split at hline
    · rename_i hfits
      cases hline
      simp only [Bool.and_eq_true, List.isEmpty_iff] at hfits
      refine ⟨_, ?_, .inl ⟨rfl, hfits.1, hcomments, by rw [shown, shownExpr, hflat]⟩⟩
      rw [layout, hexpr, hflat, htexts]
      simp [String.toList_append]
    · cases hline

/-- An object is written with a line for each property, unless it holds nothing. -/
theorem layout_object (depth column : Nat) (position : Option Position)
    (properties : List (Property Tree)) (dangling : List Comment) :
    ∃ inner : String,
      ((node position (.object properties dangling)).layout depth column).toList =
          '\x7b' :: (inner.toList ++ ['\x7d']) ∧
        ((inner = "" ∧ properties = [] ∧ dangling = []) ∨
          inner = "\n" ++ lines (depth + 1) "," false (properties.map fun p =>
              (layoutBody (depth + 1) p.body, p.trivia)) ++
            commentLines (depth + 1) (!properties.isEmpty) dangling ++ indent depth) := by
  by_cases hnil : properties = [] ∧ dangling = []
  · obtain ⟨rfl, rfl⟩ := hnil
    exact ⟨"", by simp [layout, layoutExpr], .inl ⟨rfl, rfl, rfl⟩⟩
  refine ⟨_, ?_, .inr rfl⟩
  rw [layout, layoutExpr_object hnil, layoutProperties_eq_lines]
  simp [String.toList_append]

/-! Arrays. -/

variable {g : Grammar} {c c' : Cursor} {rest : List Char} {bound : Nat}

theorem array_run {l : Listing Operand} (h : (g.elements ']').run (c.forward 1) = some (l, c')) :
    g.array.run c = some (arrayOf c l, c') := by
  rw [Grammar.array, Scan.run_bind (Scan.run_get c), Scan.run_bind (Scan.run_skip 1 c),
    Scan.run_bind h]
  rfl

theorem all_of_forall₂ {α β : Type} {R : α → β → Prop} {p : α → Bool} {as : List α} {bs : List β}
    (h : List.Forall₂ R as bs) (hp : ∀ {a b}, R a b → p a = true) : as.all p = true := by
  induction h with
  | nil => rfl
  | cons h _ ih => rw [List.all_cons, hp h, ih, Bool.and_self]

theorem strippedElements_flat {os : List Operand} {elements : List (Element Tree)}
    (h : List.Forall₂ (fun o e => o.ShownAs (e.value.shown 0 0)) os elements)
    (hcomments : ∀ e ∈ elements, e.trivia.hasComments = false) :
    strippedElements id ((os.map fun o => (o, {})).map fun item =>
      { value := item.1.tree, trivia := item.2 }) = shownFlat elements := by
  induction h with
  | nil => rfl
  | @cons o e os elements h _ ih =>
    obtain ⟨hcomments, hrest⟩ := List.forall_mem_cons.mp hcomments
    obtain ⟨value, ⟨leading, trailing, spaced⟩⟩ := e
    simp only [Trivia.hasComments, Bool.or_eq_false_iff, Bool.not_eq_false',
      List.isEmpty_iff, Option.isSome_eq_false_iff, Option.isNone_iff_eq_none] at hcomments
    obtain ⟨rfl, rfl⟩ := hcomments
    simp only [List.map_cons, strippedElements, shownFlat, Trivia.flagged_id, h.tree]
    rw [ih hrest]

theorem strippedElements_lines {os : List Operand} {elements : List (Element Tree)} {depth : Nat}
    (h : List.Forall₂ (fun o e => o.ShownAs (e.value.shown depth (2 * depth))) os elements)
    (begun : Bool) (f : Element Tree → Nat) :
    strippedElements id ((Piece.shownItems begun
        (List.zipWith (fun o e => (o, f e, e.trivia)) os elements)).map fun item =>
          { value := item.1.tree, trivia := item.2 }) = shownElements depth begun elements := by
  induction h generalizing begun with
  | nil => rfl
  | cons h _ ih =>
    simp only [List.zipWith_cons_cons, Piece.shownItems, List.map_cons, strippedElements,
      shownElements, Trivia.flagged_id, h.tree, ih]

/-- An array is read as it is shown. -/
theorem read_array {elements : List (Element Tree)} {dangling : List Comment}
    {position : Option Position} {depth column : Nat}
    (ht : ∀ e ∈ elements, e.trivia.Plain) (hd : ∀ c ∈ dangling, IsComment c.text)
    (hread : ∀ e ∈ elements, ∀ depth column, Listing.ReadsAs ']' g.element
      (Operand.ShownAs · (e.value.shown depth column)) Stops bound
      (e.value.layout depth column).toList)
    (h : c.rest = ((node position (.array elements dangling)).layout depth column).toList ++ rest)
    (hbound : c.left ≤ bound + 1) (hroom : c.left ≤ g.room) :
    ∃ o c', g.array.run c = some (o, c') ∧ c'.rest = rest ∧
      o.Shows (node position (.array elements dangling))
        ((node position (.array elements dangling)).shown depth column) := by
  obtain ⟨inner, hlayout, hinner⟩ := layout_array depth column position elements dangling
  have hhead : c.rest = '[' :: (inner.toList ++ ']' :: rest) := by
    rw [h, hlayout]
    simp
  obtain ⟨hbehind, hleft⟩ := Cursor.pass hhead
  have hend : ∀ rest, Lexeme.Solid (']' :: rest) := fun rest => ⟨_, rest, rfl, by decide⟩
  -- both ways of writing an array are read by one loop, which skips different blanks
  rcases hinner with ⟨hinline, rfl, hcomments, hshown⟩ | ⟨hexpanded, hshown⟩
  · obtain ⟨l, c', hrun, -, hrest', hitems, hattach⟩ :=
      Listing.read_inline .verbatim g.room (by decide) hend (.inl rfl) (.inr (.inr (.inl rfl)))
        (fun e hmem => hread e hmem 0 0) (by rw [hbehind, hinline]) (by omega) (by omega)
    refine ⟨_, c', array_run hrun, hrest', ⟨all_of_forall₂ hitems (·.isValue), ?_⟩, rfl, rfl,
      by simp [Tree.kind, Tree.expr]⟩
    rw [hshown, arrayOf, hattach, stripped, strippedExpr, strippedElements_flat hitems hcomments]
    rfl
  · obtain ⟨l, c', hrun, -, hrest', hitems, hattach⟩ :=
      Listing.read_expanded .verbatim g.room (by decide) hend (.inl rfl)
        (fun e hmem => hread e hmem _ _) ht hd (by rw [hbehind, hexpanded]) (by omega) (by omega)
    refine ⟨_, c', array_run hrun, hrest', ⟨all_of_forall₂ hitems (·.isValue), ?_⟩, rfl, rfl,
      by simp [Tree.kind, Tree.expr]⟩
    rw [hshown, arrayOf, hattach, stripped, strippedExpr, strippedElements_lines hitems,
      Comment.map_flagged_id]

end Script

end SiteConfig
