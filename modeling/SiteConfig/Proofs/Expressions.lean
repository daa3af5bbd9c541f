import SiteConfig.Proofs.Objects

/-!
Every expression whose kept pieces are read back from their texts is read back as it is shown.
-/

namespace SiteConfig.Script
open Text Layout SiteConfig.Tree Expression

variable {c c' : Cursor} {rest : List Char} {tail : Bool} {t : Tree} {n : Nat} {place : Place}

@[simp] theorem Grammar.room_ofDepth (n : Nat) : (Grammar.ofDepth n).room = n := by
  induction n with
  | zero => rfl
  | succ n ih => rw [ofDepth, deepen, ih]

/-! From an operand with its links to the place where it stands. -/

theorem Expression.Reads.takes {o : Operand} (h : Reads (.ofDepth n) tail c o c') (hn : c.left < n)
    (hbefore : place.Before c'.rest) (hitem : place = .item → tail = false) :
    place.Takes (.ofDepth n) tail c o c' := by
  have hroom : c.left < (Grammar.ofDepth n).room := by simpa using hn
  cases place with
  | item =>
    obtain ⟨s, rest, hs, hrest⟩ := hbefore
    obtain rfl := hitem rfl
    obtain ⟨ch, cs, -, -, hspread, -⟩ := h.leads
    refine ⟨h.atStart, ?_⟩
    rw [element_run hspread]
    exact h.read_stop hroom hs hrest
  | value =>
    obtain ⟨s, rest, hs, hrest⟩ := hbefore
    exact ⟨h.atStart, h.read_stop hroom hs hrest⟩
  | alone =>
    obtain ⟨rest, hrest⟩ := hbefore
    exact ⟨h.atStart, h.read_stop hroom (.inr (.inr (.inr rfl))) hrest⟩
  | object | callee | target => exact h

/-- In front of `rest` the tree is read as an operand with its links. -/
def ReadsFrom (tail : Bool) (rest : List Char) (t : Tree) : Prop :=
  ∀ ⦃n depth column : Nat⦄ ⦃c : Cursor⦄, 4 * c.left < n →
    c.rest = (t.layout depth column).toList ++ rest →
    ∃ o c', Reads (.ofDepth n) tail c o c' ∧ c'.rest = rest ∧ o.Shows t (t.shown depth column)

theorem Place.Before.head_ne (h : place.Before rest) (hplace : place ≠ .callee) :
    rest.head? ≠ some '(' := by
  cases place with
  | item | value =>
    obtain ⟨s, rest, hs, rfl⟩ := h
    rcases hs with rfl | rfl | rfl | rfl <;> simp
  | object | target | alone =>
    obtain ⟨rest, rfl⟩ := h
    simp
  | callee => exact absurd rfl hplace

theorem readsBack_of (h : ∀ rest, place.Before rest → ReadsFrom tail rest t)
    (hk : place.admits t.kind) (ht : t.kind ≠ .other) (hitem : place = .item → tail = false) :
    t.ReadsBack tail place := by
  intro n depth column c rest hn hrest hbefore
  obtain ⟨o, c', hreads, hrest', hshows⟩ := h rest hbefore hn hrest
  exact ⟨o, c', hreads.takes (by omega) (hrest' ▸ hbefore) hitem, hshows.allows hk ht, hrest',
    hshows.tree_eq hk c c'⟩

/-! Arguments behind an operand. -/

/-- The arguments of a call with the columns where they start. -/
def placedArguments (depth column : Nat) : List Tree → List (Tree × Nat)
  | [] => []
  | t :: rest =>
    (t, column) :: placedArguments depth (after column (t.layout depth column ++ ", ")) rest

theorem layoutArguments_eq (depth column : Nat) (arguments : List Tree) :
    layoutArguments depth column arguments =
      ", ".intercalate ((placedArguments depth column arguments).map fun b =>
        b.1.layout depth b.2) := by
  induction arguments generalizing column with
  | nil => rfl
  | cons t rest ih =>
    cases rest with
    | nil => simp [layoutArguments, placedArguments]
    | cons t' rest =>
      have := ih (after column (t.layout depth column ++ ", "))
      simp only [layoutArguments, placedArguments, List.map_cons] at this ⊢
      rw [String.intercalate_cons_cons, ← this]

theorem shownArguments_eq (depth column : Nat) (arguments : List Tree) :
    shownArguments depth column arguments =
      (placedArguments depth column arguments).map fun b => b.1.shown depth b.2 := by
  induction arguments generalizing column with
  | nil => rfl
  | cons t rest ih => rw [shownArguments, placedArguments, List.map_cons, ih]

theorem mem_of_mem_placedArguments {depth column : Nat} {arguments : List Tree} {b : Tree × Nat}
    (h : b ∈ placedArguments depth column arguments) : b.1 ∈ arguments := by
  induction arguments generalizing column with
  | nil => cases h
  | cons t rest ih =>
    rcases List.mem_cons.mp h with rfl | h
    · exact List.mem_cons_self
    · exact List.mem_cons_of_mem _ (ih h)

theorem strippedArguments_eq {os : List Operand} {entries : List (Tree × Nat)} {depth : Nat}
    (h : List.Forall₂ (fun o b => o.ShownAs (b.1.shown depth b.2)) os entries) :
    strippedArguments id (os.map (·.tree)) = entries.map fun b => b.1.shown depth b.2 := by
  induction h with
  | nil => rfl
  | cons h _ ih => simp only [List.map_cons, strippedArguments, h.tree, ih]

theorem arguments_run {arguments : List Tree} {depth column : Nat} (hn : 4 * c.left < n)
    (ha : ∀ t ∈ arguments, t.ReadsBack false .item)
    (h : c.rest = (layoutArguments depth column arguments).toList ++ ')' :: rest) :
    ∃ l c', ((Grammar.ofDepth (n + 1)).elements ')').run c = some (l, c') ∧ c'.rest = rest ∧
      l.items.all (·.isValue) ∧
      strippedArguments id (l.items.map (·.tree)) = shownArguments depth column arguments := by
  have hread : ∀ b ∈ placedArguments depth column arguments,
      Listing.ReadsAs ')' (Grammar.ofDepth (n + 1)).element
        (Operand.ShownAs · (b.1.shown depth b.2)) Stops c.left (b.1.layout depth b.2).toList :=
    fun b hb => readsAs_item (ha _ (mem_of_mem_placedArguments hb)) hn depth b.2 (.inl rfl)
  obtain ⟨l, c', hrun, -, hrest, hitems, -⟩ :=
    Listing.read_inline .verbatim (n + 1) (by decide) (fun rest => ⟨_, rest, rfl, by decide⟩)
      (.inl rfl) (.inr (.inl rfl)) hread (by rw [h, layoutArguments_eq]) (Nat.le_refl _) (by omega)
  refine ⟨l, c', by rw [Grammar.elements, Grammar.room_ofDepth, hrun], hrest,
    all_of_forall₂ hitems (·.isValue), ?_⟩
  rw [strippedArguments_eq hitems, shownArguments_eq]

/-! Each kind of expression. -/

theorem readsFrom_string (position : Option Position) (value : String) (rest : List Char) :
    ReadsFrom tail rest (node position (.string value)) := by
  intro n depth column c hn hrest
  have hrest' : c.rest = (Quoted.quote value).toList ++ rest := hrest
  obtain ⟨q, cs, heq, hq⟩ := head_quote value
  have hhead : c.rest = q :: (cs ++ rest) := by rw [hrest', heq, List.cons_append]
  have hunsigned : prefixLength? c.rest = none := by
    rw [hhead]
    exact prefixLength?_mark (by rcases hq with rfl | rfl <;> simp) _
  have hstart : AtStart c := (hrest' ▸ keyHead_quote value rest : KeyHead c.rest).solid.atStart
  obtain ⟨room, hroom⟩ : ∃ k, (Grammar.ofDepth n).room = k + 1 := ⟨n - 1, by simp; omega⟩
  refine ⟨.string c.position (Quoted.quote value), _,
    .primary hstart hunsigned (by rw [hroom]; exact primary_string hrest'),
    Cursor.rest_behind hrest', ⟨rfl, ?_⟩, rfl, rfl, by simp [Tree.kind, Tree.expr]⟩
  rw [Operand.string, Quoted.unquote_quote]
  rfl

theorem readsFrom_boolean (position : Option Position) (value : Bool) (hrest : Follows rest) :
    ReadsFrom tail rest (node position (.boolean value)) := by
  intro n depth column c hn h
  have h' : c.rest = (if value then "true" else "false").toList ++ rest := h
  have hname := isName_boolean value
  have hunsigned := prefixLength?_word hname (by cases value <;> decide) hrest.endsName
  have hstart : AtStart c := (h' ▸ keyHead_name hname rest : KeyHead c.rest).solid.atStart
  obtain ⟨room, hroom⟩ : ∃ k, (Grammar.ofDepth n).room = k + 1 := ⟨n - 1, by simp; omega⟩
  exact ⟨.boolean c.position value, _,
    .primary hstart (h' ▸ hunsigned) (by rw [hroom]; exact primary_boolean hrest.endsName h'),
    Cursor.rest_behind h', ⟨rfl, rfl⟩, rfl, rfl, by simp [Tree.kind, Tree.expr]⟩

theorem readsFrom_identifier (position : Option Position) {name : String}
    (hname : Lexeme.IsName name) (ho : name ∉ ownWords) (hp : name ∉ prefixWords)
    (hrest : Follows rest) (hasync : name = "async" → rest.head? ≠ some '(') :
    ReadsFrom tail rest (node position (.identifier name)) := by
  intro n depth column c hn h
  have h' : c.rest = name.toList ++ rest := h
  have hunsigned := prefixLength?_word hname hp hrest.endsName
  have hstart : AtStart c := (h' ▸ keyHead_name hname rest : KeyHead c.rest).solid.atStart
  obtain ⟨room, hroom⟩ : ∃ k, (Grammar.ofDepth n).room = k + 1 := ⟨n - 1, by simp; omega⟩
  exact ⟨.name c.position name, _,
    .primary hstart (h' ▸ hunsigned) (by rw [hroom]; exact primary_name hname ho hrest hasync h'),
    Cursor.rest_behind h', ⟨rfl, rfl⟩, rfl, rfl, fun _ => rfl⟩

theorem readsFrom_member (position : Option Position) {object : Tree} {property : String}
    (hp : Lexeme.IsName property) (ho : object.ReadsBack tail .object) (hrest : Follows rest) :
    ReadsFrom tail rest (node position (.member object property)) := by
  intro n depth column c hn h
  have hsplit : c.rest =
      (object.layout depth column).toList ++ '.' :: (property.toList ++ rest) := by
    rw [h, layout, layoutExpr]
    simp [String.toList_append]
  obtain ⟨o, c', hreads, hvalue, hrest', htree⟩ := ho hn hsplit ⟨_, rfl⟩
  refine ⟨memberOf c o property, _, .link hreads (link_member hp hrest.endsName hvalue hrest'), ?_,
    ⟨rfl, ?_⟩, rfl, rfl, fun _ => rfl⟩
  · rw [Cursor.rest_forward, hrest', Nat.add_comm, List.drop_succ_cons, List.drop_left]
  · rw [memberOf, stripped, strippedExpr]
    exact congrArg (fun base => node none (.member base property)) htree

theorem layout_call (depth column : Nat) (position : Option Position) (callee : Tree)
    (arguments : List Tree) (rest : List Char) :
    ((node position (.call callee arguments)).layout depth column).toList ++ rest =
      (callee.layout depth column).toList ++ '(' :: ((layoutArguments depth
        (after column (callee.layout depth column ++ "(")) arguments).toList ++ ')' :: rest) := by
  rw [layout, layoutExpr]
  simp [String.toList_append]

theorem readsFrom_call (position : Option Position) {callee : Tree} {arguments : List Tree}
    (hf : callee.ReadsBack tail .callee) (ha : ∀ t ∈ arguments, t.ReadsBack false .item) :
    ReadsFrom tail rest (node position (.call callee arguments)) := by
  intro n depth column c hn h
  obtain ⟨n, rfl⟩ : ∃ k, n = k + 1 := ⟨n - 1, by omega⟩
  rw [layout_call] at h
  obtain ⟨o, c', hreads, hvalue, hrest', htree⟩ := hf hn h ⟨_, rfl⟩
  obtain ⟨hbehind, hleft⟩ := Cursor.pass hrest'
  have hreach : c.Reaches c' := Reads.reaches hreads
  have hle := hreach.left_le
  obtain ⟨l, c'', hrun, hrest'', hvalues, hargs⟩ := arguments_run (n := n) (by omega) ha hbehind
  refine ⟨callOf c o l, c'', .link hreads (link_call hvalue hrest' hrun hvalues), hrest'',
    ⟨rfl, ?_⟩, rfl, rfl, by simp [Tree.kind, Tree.expr]⟩
  rw [callOf, stripped, strippedExpr, hargs]
  exact congrArg (fun callee => node none (.call callee _)) htree

/-- A call of the function `async` is no link behind its name. -/
theorem readsFrom_async (position position' : Option Position) {arguments : List Tree}
    (ha : ∀ t ∈ arguments, t.ReadsBack false .item) (hrest : Follows rest) :
    ReadsFrom tail rest
      (node position (.call (node position' (.identifier "async")) arguments)) := by
  intro n depth column c hn h
  obtain ⟨n, rfl⟩ : ∃ k, n = k + 1 := ⟨n - 1, by omega⟩
  rw [layout_call] at h
  have h' : c.rest = "async".toList ++ '(' :: _ := h
  have hbehind : (c.forward 6).rest = _ := Cursor.rest_behind_cons h'
  have hname : Lexeme.IsName "async" := by
    unfold Lexeme.IsName
    cbv
  have hleft := Cursor.left_forward_lt (c := c) (n := 6) (by simp [h']) (by decide)
  obtain ⟨l, c', hrun, hrest', hvalues, hargs⟩ := arguments_run (n := n) (by omega) ha hbehind
  have hunsigned : prefixLength? c.rest = none := by
    rw [h']
    exact prefixLength?_word hname (by decide) (Follows.arguments _).endsName
  have hsolid : Lexeme.Solid c.rest := by
    rw [h']
    exact (Lexeme.solid_of_name hname _).1
  obtain ⟨room, hroom⟩ : ∃ k, (Grammar.ofDepth (n + 1)).room = k + 1 := ⟨n, by simp⟩
  refine ⟨_, c', .primary hsolid.atStart hunsigned
    (by rw [hroom]; exact primary_call h' hrun hvalues (hrest' ▸ hrest)), hrest',
    ⟨rfl, ?_⟩, rfl, rfl, by simp [Tree.kind, Tree.expr]⟩
  rw [callOf, stripped, strippedExpr, hargs]
  rfl

/-- A bracket starts an operand. -/
theorem reads_bracket {o : Operand} {ch : Char} {cs : List Char} (hch : ch = '[' ∨ ch = '\x7b')
    (hhead : c.rest = ch :: cs) (h : (primary (.ofDepth (n + 1)) tail (n + 1)).run c =
      some (⟨o, false⟩, c')) :
    Reads (.ofDepth (n + 1)) tail c o c' := by
  have hsolid : Lexeme.Solid c.rest := by
    rw [hhead]
    rcases hch with rfl | rfl <;> exact ⟨_, cs, rfl, by decide⟩
  have hunsigned : prefixLength? c.rest = none := by
    rw [hhead]
    exact prefixLength?_mark (by rcases hch with rfl | rfl <;> simp) cs
  exact .primary hsolid.atStart hunsigned (by rwa [Grammar.room_ofDepth])

theorem readsFrom_array (position : Option Position) {elements : List (Element Tree)}
    {dangling : List Comment} (ht : ∀ e ∈ elements, e.trivia.Plain)
    (hd : ∀ c ∈ dangling, IsComment c.text)
    (he : ∀ e ∈ elements, e.value.ReadsBack false .item) :
    ReadsFrom tail rest (node position (.array elements dangling)) := by
  intro n depth column c hn h
  obtain ⟨inner, hlayout, -⟩ := layout_array depth column position elements dangling
  have hhead : c.rest = '[' :: (inner.toList ++ [']'] ++ rest) := by
    rw [h, hlayout, List.cons_append]
  have hleft := (Cursor.pass hhead).2
  obtain ⟨n, rfl⟩ : ∃ k, n = k + 1 := ⟨n - 1, by omega⟩
  have hitems : ∀ e ∈ elements, ∀ depth column,
      Listing.ReadsAs ']' (Grammar.ofDepth (n + 1)).element
        (Operand.ShownAs · (e.value.shown depth column)) Stops (c.forward 1).left
        (e.value.layout depth column).toList := fun e hmem depth column =>
    readsAs_item (he e hmem) (by omega) depth column (.inr rfl)
  obtain ⟨o, c', hrun, hrest', hshows⟩ := read_array ht hd hitems h (by omega)
    (by rw [Grammar.room_ofDepth]; omega)
  refine ⟨o, c', reads_bracket (.inl rfl) hhead ?_, hrest', hshows⟩
  rw [primary_array hhead, hrun, Option.map_some]

theorem readsFrom_object (position : Option Position) {properties : List (Property Tree)}
    {dangling : List Comment} (ht : ∀ p ∈ properties, p.trivia.Plain)
    (hd : ∀ c ∈ dangling, IsComment c.text)
    (hk : ∀ p ∈ properties, ∀ key ∈ p.key?, key.Lexical)
    (hv : ∀ p ∈ properties, ∀ value ∈ p.value?, value.ReadsBack false .value)
    (hi : ∀ p ∈ properties, ∀ shape text, p.body = .irregular shape text →
      shape.ReadsBack text) :
    ReadsFrom tail rest (node position (.object properties dangling)) := by
  intro n depth column c hn h
  obtain ⟨inner, hlayout, -⟩ := layout_object depth column position properties dangling
  have hhead : c.rest = '\x7b' :: (inner.toList ++ ['\x7d'] ++ rest) := by
    rw [h, hlayout, List.cons_append]
  have hleft := (Cursor.pass hhead).2
  obtain ⟨n, rfl⟩ : ∃ k, n = k + 1 := ⟨n - 1, by omega⟩
  have hread : ∀ p ∈ properties, Listing.ReadsAs '\x7d' (Grammar.ofDepth (n + 1)).property
      (Member.ShownAs · (shownBody (depth + 1) p.body)) (· = ',') (c.forward 1).left
      (layoutBody (depth + 1) p.body).toList := by
    intro p hmem
    cases hbody : p.body with
    | assignment key value =>
      rw [← hbody]
      exact readsAs_pair _ hbody (hk p hmem key (by simp [Property.key?, hbody]))
        (hv p hmem value (by simp [Property.value?, hbody])) (by omega)
    | irregular shape text =>
      rw [← hbody]
      exact readsAs_irregular _ hbody (hi p hmem shape text hbody) (by omega)
  obtain ⟨o, c', hrun, hrest', hshows⟩ := read_object (g := .ofDepth (n + 1)) ht hd hread h
    (by omega) (by rw [Grammar.room_ofDepth]; omega)
  refine ⟨o, c', reads_bracket (.inr rfl) hhead ?_, hrest', hshows⟩
  rw [primary_object hhead, hrun, Option.map_some]

/-- An assignment is no operand, so it is read back only where nothing can be appended to it. -/
theorem readsBack_assignment (position : Option Position) {left right : Tree}
    (hl : left.ReadsBack tail .target) (hr : right.ReadsBack tail .value)
    (hplace : place = .item ∨ place = .value ∨ place = .alone)
    (hitem : place = .item → tail = false) :
    (node position (.assignment left right)).ReadsBack tail place := by
  intro n depth column c rest hn h hbefore
  obtain ⟨n, rfl⟩ : ∃ k, n = k + 1 := ⟨n - 1, by omega⟩
  obtain ⟨s, rest', hs, rfl⟩ : ∃ s rest', Stops s ∧ rest = s :: rest' := by
    rcases hplace with rfl | rfl | rfl
    · exact hbefore
    · exact hbefore
    · obtain ⟨rest', rfl⟩ := hbefore
      exact ⟨';', rest', .inr (.inr (.inr rfl)), rfl⟩
  generalize hbehind : after column (left.layout depth column ++ " = ") = start
  have hsplit : c.rest = (left.layout depth column).toList ++
      ' ' :: '=' :: ' ' :: ((right.layout depth start).toList ++ s :: rest') := by
    rw [h, layout, layoutExpr, hbehind]
    simp [String.toList_append]
  obtain ⟨o, c', hreads, hassignable, hequals, hleft⟩ := hl hn hsplit ⟨_, rfl⟩
  have hreach : c.Reaches c' := Reads.reaches hreads
  have hle := hreach.left_le
  have hblank : (c'.forward 2).rest =
      ' ' :: ((right.layout depth start).toList ++ s :: rest') := by
    rw [Cursor.rest_forward, hequals]
    rfl
  have hle' := (Cursor.Reaches.forward c' 2).left_le
  obtain ⟨right', c'', hrun, hvalue, -, -, hrest, hshown⟩ :=
    value_run (n := n) hr (by omega) hs hblank
  have hread := Reads.read_equals hreads (by rw [Grammar.room_ofDepth]; omega) hassignable hequals
    hrun hvalue hs hrest
  have hstart := Reads.atStart hreads
  -- the whole assignment is its tree at each of the three places
  have htree : (assignmentOf c o c' right').tree.stripped id =
      (node position (.assignment left right)).shown depth column := by
    rw [assignmentOf, stripped, strippedExpr, shown, shownExpr, hbehind]
    exact congrArg (node none) (congrArg₂ Expr.assignment hleft hshown)
  rcases hplace with rfl | rfl | rfl
  · obtain rfl := hitem rfl
    obtain ⟨ch, cs, -, -, hspread, -⟩ := leads_read hstart hread
    exact ⟨_, c'', ⟨hstart, (element_run hspread).trans hread⟩, rfl, hrest, htree⟩
  · exact ⟨_, c'', ⟨hstart, hread⟩, rfl, hrest, htree⟩
  · exact ⟨_, c'', ⟨hstart, hread⟩, rfl, hrest, htree⟩

/-- Where no kept piece runs on, the whole is read back. -/
theorem readsBack_settled (hs : t.Settled tail place) (hl : t.Lexical) (hk : place.admits t.kind)
    (hitem : place = .item → tail = false)
    (hasync : place = .callee → t.expr ≠ .identifier "async") : t.ReadsBack tail place := by
  induction hs with
  | string tail place position value =>
    exact readsBack_of (fun rest _ => readsFrom_string position value rest) hk (by rintro ⟨⟩) hitem
  | boolean tail place position value =>
    exact readsBack_of (fun rest h => readsFrom_boolean position value h.follows) hk
      (by rintro ⟨⟩) hitem
  | identifier tail place position name =>
    cases hl with
    | identifier _ hname ho hp =>
    refine readsBack_of (fun rest h => ?_) hk (by rintro ⟨⟩) hitem
    refine readsFrom_identifier position hname ho hp h.follows ?_
    rintro rfl
    exact h.head_ne fun hplace => hasync hplace rfl
  | verbatim position h =>
    cases hl with
    | verbatim _ hp => exact readsBack_verbatim hp h position
  | member place position property ho ih =>
    cases hl with
    | member _ hlo hko hp =>
    have hobject := ih hlo hko (by rintro ⟨⟩) (by rintro ⟨⟩)
    exact readsBack_of (fun rest h => readsFrom_member position hp hobject h.follows) hk
      (by rintro ⟨⟩) hitem
  | assignment place position hkl hls hrs ihl ihr =>
    cases hl with
    | assignment _ hll hlr =>
    have hleft := ihl hll hkl (by rintro ⟨⟩) (by rintro ⟨⟩)
    have hright := ihr hlr rfl (by rintro ⟨⟩) (by rintro ⟨⟩)
    refine readsBack_assignment position hleft hright ?_ hitem
    cases place <;> simp_all [Place.admits, Tree.kind, Tree.expr]
  | @call tail place position callee arguments hf ha ihf iha =>
    cases hl with
    | call _ hlf hkf hla =>
    have harguments : ∀ t ∈ arguments, t.ReadsBack false .item := fun t ht =>
      iha t ht (hla t ht) rfl (fun _ => rfl) (by rintro ⟨⟩)
    by_cases hname : callee.expr = .identifier "async"
    · obtain ⟨position', rfl⟩ : ∃ p, callee = .node p (.identifier "async") := by
        cases callee
        exact ⟨_, congrArg _ hname⟩
      exact readsBack_of
        (fun rest h => readsFrom_async position position' harguments h.follows) hk
        (by rintro ⟨⟩) hitem
    · have hcallee := ihf hlf hkf (by rintro ⟨⟩) fun _ => hname
      exact readsBack_of (fun rest _ => readsFrom_call position hcallee harguments) hk
        (by rintro ⟨⟩) hitem
  | array tail place position dangling he ih =>
    cases hl with
    | array _ hle ht hd =>
    refine readsBack_of (fun rest _ => readsFrom_array position ht hd fun e hmem => ?_) hk
      (by rintro ⟨⟩) hitem
    exact ih e hmem (hle e hmem) rfl (fun _ => rfl) (by rintro ⟨⟩)
  | @object tail place position properties dangling hv hi ih =>
    cases hl with
    | object _ hkeys hlv hli ht hd =>
    have hback : ∀ p ∈ properties, ∀ shape text, p.body = .irregular shape text →
        shape.ReadsBack text := fun p hmem shape text hbody =>
      IrregularShape.readsBack (hli p hmem shape text hbody) (hi p hmem shape text hbody)
    refine readsBack_of (fun rest _ =>
      readsFrom_object position ht hd hkeys (fun p hmem value hvalue => ?_) hback) hk
      (by rintro ⟨⟩) hitem
    exact ih p hmem value hvalue (hlv p hmem value hvalue) rfl (by rintro ⟨⟩) (by rintro ⟨⟩)

end SiteConfig.Script
