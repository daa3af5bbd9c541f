import Mathlib.Data.List.Induction
import SiteConfig.Proofs.Edits

/-!
Writing option values and reading them are inverse to each other: what is written is read as it
was, and what can be read is written again but for its spacing, its comments, the form of its keys
and what a later property of the same name replaces.
-/

namespace SiteConfig

namespace Record

theorem insert_of_notMem {key : String} {r : Record} (h : key ∉ r.keys) (v : Value) :
    r.insert key v = r ++ [(key, v)] := by
  induction r with
  | nil => rfl
  | cons e rest ih =>
    obtain ⟨k, w⟩ := e
    simp only [keys, List.map_cons, List.mem_cons, not_or] at h
    rw [insert, if_neg (Ne.symm h.1), ih h.2, List.cons_append]

theorem foldl_insert_of_nodup {entries : List (String × Value)} (r : Record)
    (h : (r ++ entries).keys.Nodup) :
    entries.foldl (fun r e => r.insert e.1 e.2) r = r ++ entries := by
  induction entries generalizing r with
  | nil => simp
  | cons e rest ih =>
    have hkey : e.1 ∉ Record.keys r := by
      simp only [keys, List.map_append, List.map_cons] at h
      have := (List.nodup_middle.mp h)
      rw [List.nodup_cons] at this
      exact fun hmem => this.1 (List.mem_append_left _ hmem)
    rw [List.foldl_cons, insert_of_notMem hkey, ih, List.append_assoc, List.singleton_append]
    rwa [List.append_assoc, List.singleton_append]

/-- Entries with distinct names are a record already. -/
theorem ofEntries_of_nodup {entries : List (String × Value)} (h : (keys entries).Nodup) :
    ofEntries entries = entries :=
  foldl_insert_of_nodup [] h

theorem nodup_keys_insert {r : Record} (h : r.keys.Nodup) (key : String) (v : Value) :
    (r.insert key v).keys.Nodup := by
  rw [keys_insert]
  split
  · exact h
  · rename_i hkey
    exact List.nodup_append.mpr ⟨h, List.nodup_singleton key, by
      simp only [List.mem_singleton, forall_eq]
      exact fun k hk heq => hkey (heq ▸ hk)⟩

theorem nodup_keys_ofEntries (entries : List (String × Value)) : (ofEntries entries).keys.Nodup := by
  suffices h : ∀ r : Record, r.keys.Nodup →
      (entries.foldl (fun r e => r.insert e.1 e.2) r).keys.Nodup from h [] List.nodup_nil
  induction entries with
  | nil => exact fun r h => h
  | cons e rest ih => exact fun r h => ih _ (nodup_keys_insert h e.1 e.2)

theorem filter_insert (key k : String) (v : Value) (r : Record) :
    (r.insert key v).filter (fun e => e.1 ≠ k) =
      if key = k then r.filter (fun e => e.1 ≠ k)
      else insert key v (r.filter fun e => e.1 ≠ k) := by
  fun_induction insert key v r <;> grind [insert]

/-- The first name stands first, with the value it was given last. -/
theorem ofEntries_cons (key : String) (v : Value) (entries : List (String × Value)) :
    ofEntries ((key, v) :: entries) =
      (key, ((ofEntries entries).get? key).getD v) ::
        (ofEntries entries).filter fun e => e.1 ≠ key := by
  induction entries using List.reverseRecOn with
  | nil => rfl
  | append_singleton entries e ih =>
    obtain ⟨k, w⟩ := e
    have hsnoc : ∀ es : List (String × Value),
        ofEntries (es ++ [(k, w)]) = (ofEntries es).insert k w := by
      intro es
      simp [ofEntries]
    rw [← List.cons_append, hsnoc, hsnoc, ih, get?_insert, filter_insert, insert]
    by_cases hk : key = k
    · simp [hk]
    · simp [hk, Ne.symm hk]

end Record

namespace Tree

/-- Each key once: in the place of the first property that has it, with the value of the last. -/
def latest : List (Property Tree) → List (Property Tree)
  | [] => []
  | p :: rest =>
    match p.key? with
    | none => p :: latest rest
    | some key =>
      ((latest rest).find? fun q => q.key? = some key).getD p ::
        (latest rest).filter fun q => q.key? ≠ some key

mutual

/-- The tree without positions, comments and blank lines, its keys written as an edit writes them
and each of them once. -/
def plain : Tree → Tree
  | .node _ e => .made (plainExpr e)

def plainExpr : Expr Tree → Expr Tree
  | .string value => .string value
  | .boolean value => .boolean value
  | .identifier name => .identifier name
  | .verbatim text => .verbatim text
  | .member object property => .member (plain object) property
  | .assignment left right => .assignment (plain left) (plain right)
  | .call callee arguments => .call (plain callee) (plainArguments arguments)
  | .array elements _ => .array (plainElements elements) []
  | .object properties _ => .object (latest (plainProperties properties)) []

def plainArguments : List Tree → List Tree
  | [] => []
  | t :: rest => plain t :: plainArguments rest

def plainElements : List (Element Tree) → List (Element Tree)
  | [] => []
  | ⟨value, _⟩ :: rest => { value := plain value } :: plainElements rest

def plainProperties : List (Property Tree) → List (Property Tree)
  | [] => []
  | ⟨body, _, _⟩ :: rest => { body := plainBody body } :: plainProperties rest

def plainBody : PropertyBody Tree → PropertyBody Tree
  | .assignment key value => .assignment (.forName key.name) (plain value)
  | .irregular shape text => .irregular shape text

end

/-- The expressions that write an option. -/
inductive IsOption : Tree → Prop where
  | string (position : Option Position) (text : String) : IsOption (.node position (.string text))
  | boolean (position : Option Position) (value : Bool) :
    IsOption (.node position (.boolean value))
  | array (position : Option Position) {elements : List (Element Tree)} (dangling : List Comment)
    (he : ∀ e ∈ elements, IsOption e.value) : IsOption (.node position (.array elements dangling))
  | object (position : Option Position) {properties : List (Property Tree)}
    (dangling : List Comment) (hp : ∀ p ∈ properties, p.value?.isSome)
    (hv : ∀ p ∈ properties, ∀ value ∈ p.value?, IsOption value) :
    IsOption (.node position (.object properties dangling))
  /-- `path.resolve(__dirname, '<path>')`. -/
  | path (position position₁ position₂ position₃ position₄ : Option Position) (text : String) :
    IsOption (.node position (.call
      (.node position₁ (.member (.node position₂ (.identifier "path")) "resolve"))
      [.node position₃ (.identifier "__dirname"), .node position₄ (.string text)]))

end Tree

namespace Value
open SiteConfig.Tree

mutual

/-- No record in the value has a name twice. -/
def Keyed : Value → Prop
  | .list items => KeyedItems items
  | .record entries => (Record.keys entries).Nodup ∧ KeyedEntries entries
  | _ => True

def KeyedItems : List Value → Prop
  | [] => True
  | v :: rest => v.Keyed ∧ KeyedItems rest

def KeyedEntries : List (String × Value) → Prop
  | [] => True
  | (_, v) :: rest => v.Keyed ∧ KeyedEntries rest

end

/-! What is written is read as it was. -/

mutual

theorem decode_encode (path : String) : ∀ v : Value, v.Keyed → decode path v.encode = .ok v
  | .string _, _ => rfl
  | .boolean _, _ => rfl
  | .path _, _ => rfl
  | .list items, h => by
    rw [Keyed] at h
    rw [encode, Tree.made, decode, decodeExpr, decodeElements_encodeItems path items h]
    rfl
  | .record entries, h => by
    rw [Keyed] at h
    rw [encode, Tree.made, decode, decodeExpr, decodeProperties_encodeEntries path entries h.2]
    simp only [Except.map, Record.ofEntries_of_nodup h.1]

theorem decodeElements_encodeItems (path : String) : ∀ items : List Value, KeyedItems items →
    decodeElements path (encodeItems items) = .ok items
  | [], _ => rfl
  | v :: rest, h => by
    rw [KeyedItems] at h
    rw [encodeItems, decodeElements, decode_encode path v h.1,
      decodeElements_encodeItems path rest h.2]
    rfl

theorem decodeProperties_encodeEntries (path : String) : ∀ entries : List (String × Value),
    KeyedEntries entries → decodeProperties path (encodeEntries entries) = .ok entries
  | [], _ => rfl
  | (key, v) :: rest, h => by
    rw [KeyedEntries] at h
    rw [encodeEntries, Property.ofKey, decodeProperties, decodeBody, decode_encode path v h.1,
      decodeProperties_encodeEntries path rest h.2]
    rfl

end

/-! What can be read is built as options are. -/

theorem asIdentifier?_eq_some {e : Expr Tree} {name : String} (h : e.asIdentifier? = some name) :
    e = .identifier name := by
  cases e <;> simp_all [Expr.asIdentifier?]

theorem asString?_eq_some {e : Expr Tree} {text : String} (h : e.asString? = some text) :
    e = .string text := by
  cases e <;> simp_all [Expr.asString?]

theorem pathArgument?_eq_some {callee : Tree} {arguments : List Tree} {text : String}
    (h : pathArgument? callee arguments = some text) :
    ∃ position₁ position₂ position₃ position₄,
      callee = .node position₁ (.member (.node position₂ (.identifier "path")) "resolve") ∧
      arguments = [.node position₃ (.identifier "__dirname"), .node position₄ (.string text)] := by
  unfold pathArgument? at h
  split at h
  · rename_i object property directory target hcallee
    obtain ⟨position₁, e₁⟩ := callee
    obtain ⟨position₂, e₂⟩ := object
    obtain ⟨position₃, e₃⟩ := directory
    obtain ⟨position₄, e₄⟩ := target
    simp only [Option.ite_none_right_eq_some, Bool.and_eq_true, decide_eq_true_eq] at h
    obtain ⟨⟨⟨hpath, rfl⟩, hdirectory⟩, htext⟩ := h
    obtain rfl : e₁ = _ := hcallee
    obtain rfl : e₂ = _ := asIdentifier?_eq_some hpath
    obtain rfl : e₃ = _ := asIdentifier?_eq_some hdirectory
    obtain rfl : e₄ = _ := asString?_eq_some htext
    exact ⟨_, _, _, _, rfl, rfl⟩
  · cases h

mutual

/-- The trees that are read, each with the value it is read as. -/
inductive Writes : Tree → Value → Prop where
  | string (position : Option Position) (text : String) :
    Writes (.node position (.string text)) (.string text)
  | boolean (position : Option Position) (value : Bool) :
    Writes (.node position (.boolean value)) (.boolean value)
  | path {callee : Tree} {arguments : List Tree} {text : String} (position : Option Position)
    (h : pathArgument? callee arguments = some text) :
    Writes (.node position (.call callee arguments)) (.path text)
  | list {elements : List (Element Tree)} {items : List Value} (position : Option Position)
    (dangling : List Comment) (h : WritesItems elements items) :
    Writes (.node position (.array elements dangling)) (.list items)
  /-- Of the entries of one name the last one counts. -/
  | record {properties : List (Property Tree)} {entries : List (String × Value)}
    (position : Option Position) (dangling : List Comment) (h : WritesEntries properties entries) :
    Writes (.node position (.object properties dangling)) (.record (Record.ofEntries entries))

inductive WritesItems : List (Element Tree) → List Value → Prop where
  | nil : WritesItems [] []
  | cons {value : Tree} {v : Value} {rest : List (Element Tree)} {items : List Value}
    (trivia : Trivia) (hv : Writes value v) (h : WritesItems rest items) :
    WritesItems (⟨value, trivia⟩ :: rest) (v :: items)

inductive WritesEntries : List (Property Tree) → List (String × Value) → Prop where
  | nil : WritesEntries [] []
  | cons {value : Tree} {v : Value} {rest : List (Property Tree)}
    {entries : List (String × Value)} (key : PropertyKey) (position : Option Position)
    (trivia : Trivia) (hv : Writes value v) (h : WritesEntries rest entries) :
    WritesEntries (⟨.assignment key value, position, trivia⟩ :: rest) ((key.name, v) :: entries)

end

mutual

theorem writes_of_decode (path : String) : ∀ (t : Tree) {v : Value}, decode path t = .ok v →
    Writes t v
  | .node position (.string text), _, h => by
    cases h
    exact .string position text
  | .node position (.boolean value), _, h => by
    cases h
    exact .boolean position value
  | .node position (.array elements dangling), _, h => by
    obtain ⟨items, hitems, rfl⟩ := Result.ok_of_map h
    exact .list position dangling (writesItems_of_decode path elements hitems)
  | .node position (.object properties dangling), _, h => by
    obtain ⟨entries, hentries, rfl⟩ := Result.ok_of_map h
    exact .record position dangling (writesEntries_of_decode path properties hentries)
  | .node position (.call callee arguments), _, h => by
    rw [decode, decodeExpr] at h
    split at h
    · rename_i text hpath
      cases h
      exact .path position hpath
    · cases h

theorem writesItems_of_decode (path : String) : ∀ (elements : List (Element Tree))
    {items : List Value}, decodeElements path elements = .ok items → WritesItems elements items
  | [], _, h => by
    cases h
    exact .nil
  | ⟨value, trivia⟩ :: rest, _, h => by
    obtain ⟨v, hv, h⟩ := Result.ok_of_bind h
    obtain ⟨vs, hvs, h⟩ := Result.ok_of_bind h
    cases h
    exact .cons trivia (writes_of_decode path value hv) (writesItems_of_decode path rest hvs)

theorem writesEntries_of_decode (path : String) : ∀ (properties : List (Property Tree))
    {entries : List (String × Value)}, decodeProperties path properties = .ok entries →
    WritesEntries properties entries
  | [], _, h => by
    cases h
    exact .nil
  | ⟨.assignment key value, position, trivia⟩ :: rest, _, h => by
    obtain ⟨e, he, h⟩ := Result.ok_of_bind h
    obtain ⟨v, hv, hk⟩ := Result.ok_of_bind he
    obtain ⟨es, hes, h⟩ := Result.ok_of_bind h
    cases hk
    cases h
    exact .cons key position trivia (writes_of_decode path value hv)
      (writesEntries_of_decode path rest hes)
  | ⟨.irregular shape text, position, trivia⟩ :: rest, _, h => by
    obtain ⟨e, he, -⟩ := Result.ok_of_bind h
    cases he

end

mutual

theorem Writes.isOption : ∀ {t : Tree} {v : Value}, Writes t v → t.IsOption
  | _, _, .string position text => .string position text
  | _, _, .boolean position value => .boolean position value
  | _, _, .path position h => by
    obtain ⟨position₁, position₂, position₃, position₄, rfl, rfl⟩ := pathArgument?_eq_some h
    exact .path position position₁ position₂ position₃ position₄ _
  | _, _, .list position dangling h => .array position dangling h.isOption
  | _, _, .record position dangling h =>
    .object position dangling (fun p hp => (h.isOption p hp).1) fun p hp => (h.isOption p hp).2

theorem WritesItems.isOption : ∀ {elements : List (Element Tree)} {items : List Value},
    WritesItems elements items → ∀ e ∈ elements, e.value.IsOption
  | _, _, .nil, e, he => by cases he
  | _, _, .cons trivia hv h, e, he => by
    rcases List.mem_cons.mp he with rfl | he
    · exact hv.isOption
    · exact h.isOption e he

theorem WritesEntries.isOption : ∀ {properties : List (Property Tree)}
    {entries : List (String × Value)}, WritesEntries properties entries →
    ∀ p ∈ properties, p.value?.isSome ∧ ∀ value ∈ p.value?, value.IsOption
  | _, _, .nil, p, hp => by cases hp
  | _, _, .cons key position trivia hv h, p, hp => by
    rcases List.mem_cons.mp hp with rfl | hp
    · refine ⟨rfl, fun t ht => ?_⟩
      cases ht
      exact hv.isOption
    · exact h.isOption p hp

end

theorem decodeElements_ok {path : String} {elements : List (Element Tree)}
    (h : ∀ e ∈ elements, ∃ v, decode path e.value = .ok v) :
    ∃ items, decodeElements path elements = .ok items := by
  induction elements with
  | nil => exact ⟨[], rfl⟩
  | cons e rest ih =>
    obtain ⟨v, hv⟩ := h e List.mem_cons_self
    obtain ⟨vs, hvs⟩ := ih fun e' he' => h e' (List.mem_cons_of_mem e he')
    exact ⟨v :: vs, by rw [decodeElements, hv, hvs]; rfl⟩

theorem decodeProperties_ok {path : String} {properties : List (Property Tree)}
    (hp : ∀ p ∈ properties, p.value?.isSome)
    (hv : ∀ p ∈ properties, ∀ value ∈ p.value?, ∃ v, decode path value = .ok v) :
    ∃ entries, decodeProperties path properties = .ok entries := by
  induction properties with
  | nil => exact ⟨[], rfl⟩
  | cons p rest ih =>
    obtain ⟨es, hes⟩ := ih (fun q hq => hp q (List.mem_cons_of_mem p hq))
      fun q hq => hv q (List.mem_cons_of_mem p hq)
    have hsome := hp p List.mem_cons_self
    have hvalue := hv p List.mem_cons_self
    obtain ⟨key, value⟩ | ⟨shape, text⟩ := p
    · obtain ⟨v, hv⟩ := hvalue value rfl
      exact ⟨(key.name, v) :: es, by rw [decodeProperties, decodeBody, hv, hes]; rfl⟩
    · cases hsome

theorem decode_ok (path : String) {t : Tree} (h : t.IsOption) : ∃ v, decode path t = .ok v := by
  induction h with
  | string position text => exact ⟨.string text, rfl⟩
  | boolean position value => exact ⟨.boolean value, rfl⟩
  | path _ _ _ _ _ text => exact ⟨.path text, rfl⟩
  | array position dangling _ ih =>
    obtain ⟨items, hitems⟩ := decodeElements_ok ih
    exact ⟨.list items, by rw [decode, decodeExpr, hitems]; rfl⟩
  | object position dangling hp _ ih =>
    obtain ⟨entries, hentries⟩ := decodeProperties_ok hp ih
    exact ⟨.record (Record.ofEntries entries), by rw [decode, decodeExpr, hentries]; rfl⟩

/-! What can be read is written again in its plain form. -/

theorem key?_ofKey (key : PropertyKey) (t : Tree) : (Property.ofKey key t).key? = some key := rfl

theorem forName_inj {k key : String} : PropertyKey.forName k = .forName key ↔ k = key :=
  ⟨congrArg PropertyKey.name, congrArg PropertyKey.forName⟩

theorem find?_encodeEntries (key : String) (entries : List (String × Value)) :
    ((encodeEntries entries).find? fun q => q.key? = some (.forName key)) =
      (Record.get? key entries).map fun v => .ofKey (.forName key) v.encode := by
  induction entries with
  | nil => rfl
  | cons e rest ih =>
    obtain ⟨k, v⟩ := e
    rw [encodeEntries, Record.get?]
    by_cases hk : k = key
    · rw [hk, List.find?_cons_of_pos (by simp [key?_ofKey]), if_pos rfl, Option.map_some]
    · rw [List.find?_cons_of_neg (by simp [key?_ofKey, forName_inj, hk]), ih, if_neg hk]

theorem filter_encodeEntries (key : String) (entries : List (String × Value)) :
    ((encodeEntries entries).filter fun q => q.key? ≠ some (.forName key)) =
      encodeEntries (entries.filter fun e => e.1 ≠ key) := by
  induction entries with
  | nil => rfl
  | cons e rest ih =>
    obtain ⟨k, v⟩ := e
    rw [encodeEntries]
    by_cases hk : k = key
    · rw [List.filter_cons_of_neg (by simp [key?_ofKey, hk]),
        List.filter_cons_of_neg (by simp [hk]), ih]
    · rw [List.filter_cons_of_pos (by simp [key?_ofKey, forName_inj, hk]),
        List.filter_cons_of_pos (by simp [hk]), ih, encodeEntries]

theorem latest_encodeEntries (entries : List (String × Value)) :
    latest (encodeEntries entries) = encodeEntries (Record.ofEntries entries) := by
  induction entries with
  | nil => rfl
  | cons e rest ih =>
    obtain ⟨key, v⟩ := e
    rw [Record.ofEntries_cons, encodeEntries, encodeEntries, latest, ih, key?_ofKey]
    simp only [find?_encodeEntries, filter_encodeEntries]
    cases Record.get? key (Record.ofEntries rest) <;> rfl

mutual

theorem Writes.plain : ∀ {t : Tree} {v : Value}, Writes t v → t.plain = v.encode
  | _, _, .string _ _ => rfl
  | _, _, .boolean _ _ => rfl
  | _, _, .path _ h => by
    obtain ⟨position₁, position₂, position₃, position₄, rfl, rfl⟩ := pathArgument?_eq_some h
    rfl
  | _, _, .list _ _ h => by rw [Tree.plain, plainExpr, h.plain, encode]
  | _, _, .record _ _ h => by rw [Tree.plain, plainExpr, h.plain, latest_encodeEntries, encode]

theorem WritesItems.plain : ∀ {elements : List (Element Tree)} {items : List Value},
    WritesItems elements items → plainElements elements = encodeItems items
  | _, _, .nil => rfl
  | _, _, .cons _ hv h => by rw [plainElements, hv.plain, h.plain, encodeItems]

theorem WritesEntries.plain : ∀ {properties : List (Property Tree)}
    {entries : List (String × Value)}, WritesEntries properties entries →
    plainProperties properties = encodeEntries entries
  | _, _, .nil => rfl
  | _, _, .cons _ _ _ hv h => by
    rw [plainProperties, plainBody, hv.plain, h.plain, encodeEntries, Property.ofKey]

end

/-! What was read has distinct names at every level. -/

theorem keyedEntries_insert {key : String} {v : Value} {r : Record} (hv : v.Keyed)
    (h : KeyedEntries r) : KeyedEntries (r.insert key v) := by
  fun_induction Record.insert key v r with
  | case1 => exact ⟨hv, trivial⟩
  | case2 => exact ⟨hv, h.2⟩
  | case3 _ _ _ _ ih => exact ⟨h.1, ih h.2⟩

theorem keyedEntries_ofEntries {entries : List (String × Value)} (h : KeyedEntries entries) :
    KeyedEntries (Record.ofEntries entries) := by
  suffices hr : ∀ r : Record, KeyedEntries r →
      KeyedEntries (entries.foldl (fun r e => Record.insert e.1 e.2 r) r) from hr [] trivial
  induction entries with
  | nil => exact fun r hr => hr
  | cons e rest ih => exact fun r hr => ih h.2 _ (keyedEntries_insert h.1 hr)

mutual

theorem Writes.keyed : ∀ {t : Tree} {v : Value}, Writes t v → v.Keyed
  | _, _, .string _ _ => trivial
  | _, _, .boolean _ _ => trivial
  | _, _, .path _ _ => trivial
  | _, _, .list _ _ h => h.keyed
  | _, _, .record _ _ h =>
    ⟨Record.nodup_keys_ofEntries _, keyedEntries_ofEntries h.keyed⟩

theorem WritesItems.keyed : ∀ {elements : List (Element Tree)} {items : List Value},
    WritesItems elements items → KeyedItems items
  | _, _, .nil => trivial
  | _, _, .cons _ hv h => ⟨hv.keyed, h.keyed⟩

theorem WritesEntries.keyed : ∀ {properties : List (Property Tree)}
    {entries : List (String × Value)}, WritesEntries properties entries → KeyedEntries entries
  | _, _, .nil => trivial
  | _, _, .cons _ _ _ hv h => ⟨hv.keyed, h.keyed⟩

end

end Value

namespace Record

/-- On an object the options are the record that its value is. -/
theorem decode_eq_ok_iff {path : String} {t : Tree} {properties : List (Property Tree)}
    {dangling : List Comment} (ht : t.expr = .object properties dangling) {r : Record} :
    decode path t = .ok r ↔ Value.decode path t = .ok (.record r) := by
  obtain ⟨position, e⟩ := t
  obtain rfl : e = _ := ht
  have hvalue : Value.decode path (.node position (.object properties dangling)) =
      (decode path (.node position (.object properties dangling))).map .record := by
    simp only [decode, Value.decode, Value.decodeExpr, Tree.expr, Expr.asObject?]
    cases Value.decodeProperties path properties <;> rfl
  rw [hvalue]
  cases decode path (.node position (.object properties dangling)) <;> simp [Except.map]

theorem decode_encode (path : String) {r : Record} (hr : (Value.record r).Keyed) :
    decode path r.encode = .ok r :=
  (decode_eq_ok_iff rfl).mpr (Value.decode_encode path (.record r) hr)

theorem results_of_decodeProperties {path : String} {properties : List (Property Tree)}
    {entries : List (String × Value)} (h : Value.decodeProperties path properties = .ok entries) :
    properties.map (decodeProperty path) = entries.map .ok := by
  induction properties generalizing entries with
  | nil =>
    cases h
    rfl
  | cons p rest ih =>
    obtain ⟨e, he, h⟩ := Result.ok_of_bind h
    obtain ⟨es, hes, h⟩ := Result.ok_of_bind h
    cases h
    rw [List.map_cons, List.map_cons, ih hes, decodeProperty, he]

/-- Options that can be read in full are read with no problem. -/
theorem decodeAll_of_decode {path : String} {t : Tree} {r : Record} (h : decode path t = .ok r) :
    decodeAll path t = ⟨r, []⟩ := by
  unfold decode at h
  unfold decodeAll
  cases hp : t.expr.asObject? with
  | none =>
    rw [hp] at h
    cases h
  | some properties =>
    rw [hp] at h
    obtain ⟨entries, hentries, rfl⟩ := Result.ok_of_map h
    have hvalues : (entries.map Except.ok).filterMap
        (Except.toOption (ε := ConfigError)) = entries := by
      rw [List.filterMap_map]
      exact List.filterMap_some
    simp only [results_of_decodeProperties hentries, hvalues, List.filterMap_map]
    simp

end Record

namespace Document

theorem tree_expr_object {d : Document} {x : NodeId} {properties : List (Property NodeId)}
    {dangling : List Comment} (h : d.expr x = .object properties dangling) :
    ∃ properties', (d.tree x).expr = .object properties' dangling := by
  have hissued : x.index < d.forest.size := issued_of_expr_object h
  obtain ⟨n, hn⟩ : ∃ n, d.forest.size = n + 1 := ⟨d.forest.size - 1, by omega⟩
  have hx : d.forest.expr x = .object properties dangling := h
  rw [tree, Forest.tree, hn, Forest.treeWithin, hx]
  exact ⟨_, rfl⟩

theorem expr_of_tree_object {d : Document} {x : NodeId} {properties : List (Property Tree)}
    {dangling : List Comment} (h : (d.tree x).expr = .object properties dangling) :
    ∃ properties', d.expr x = .object properties' dangling := by
  cases hsize : d.forest.size with
  | zero =>
    rw [tree, Forest.tree, hsize] at h
    cases h
  | succ n =>
    rw [tree, Forest.tree, hsize] at h
    change (d.expr x).map _ = _ at h
    cases hx : d.expr x with
    | object properties' dangling' =>
      rw [hx] at h
      cases h
      exact ⟨properties', rfl⟩
    | _ =>
      rw [hx] at h
      cases h

theorem tree_plant (d : Document) (t : Tree) : (d.plant t).2.tree (d.plant t).1 = t :=
  Forest.tree_plant d.forest t

/-- A record that is written into a config is read as it was and leaves all other nodes as they
were. An object is read exactly if it is built as options are, and what is read from it is written
as its plain form. -/
theorem options_exact (d : Document) :
    (∀ r : Record, (Value.record r).Keyed →
      Record.decode (d.plant r.encode).2.path ((d.plant r.encode).2.tree (d.plant r.encode).1) =
        .ok r ∧
      ∀ x, d.Issued x → (d.plant r.encode).2.forest.node x = d.forest.node x) ∧
    ∀ x properties dangling, d.expr x = .object properties dangling →
      ((∃ r, Record.decode d.path (d.tree x) = .ok r) ↔ (d.tree x).IsOption) ∧
      ∀ r, Record.decode d.path (d.tree x) = .ok r → (Value.record r).Keyed ∧
        (d.plant r.encode).2.tree (d.plant r.encode).1 = (d.tree x).plain := by
  refine ⟨fun r hr => ⟨?_, fun x hx => (Forest.planted d.forest r.encode).old x hx⟩,
    fun x properties dangling hx => ?_⟩
  · rw [tree_plant]
    exact (Record.decode_eq_ok_iff rfl).mpr (Value.decode_encode d.path (.record r) hr)
  · obtain ⟨properties', hobject⟩ := tree_expr_object hx
    refine ⟨⟨fun ⟨r, hr⟩ => ?_, fun h => ?_⟩, fun r hr => ?_⟩
    · exact (Value.writes_of_decode d.path _ ((Record.decode_eq_ok_iff hobject).mp hr)).isOption
    · obtain ⟨v, hv⟩ := Value.decode_ok d.path h
      generalize d.tree x = t at hobject hv ⊢
      obtain ⟨position, e⟩ := t
      obtain rfl : e = _ := hobject
      obtain ⟨entries, -, rfl⟩ := Result.ok_of_map hv
      exact ⟨_, (Record.decode_eq_ok_iff rfl).mpr hv⟩
    · have hw := Value.writes_of_decode d.path _ ((Record.decode_eq_ok_iff hobject).mp hr)
      rw [tree_plant]
      exact ⟨hw.keyed, hw.plain.symm⟩

/-- The object `{ 'a b': true, /* c */ n: [path.resolve(__dirname, './x')], 'a b': 'two' }`. -/
def repeatedOption : Tree :=
  .node none (.object [
    { body := .assignment ⟨"a b", .string⟩ (.node none (.boolean true)) },
    { body := .assignment ⟨"n", .identifier⟩ (.node none (.array [{
        value := Value.ofPath "./x" }] []))
      trivia := { leading := [⟨"/* c */", false⟩] } },
    { body := .assignment ⟨"a b", .string⟩ (.node none (.string "two")) }] [])

theorem options_exact_repeated :
    let d := ((⟨"a.js", {}, {}⟩ : Document).plant repeatedOption).2
    let x := ((⟨"a.js", {}, {}⟩ : Document).plant repeatedOption).1
    let r : Record := [("a b", .string "two"), ("n", .list [.path "./x"])]
    Record.decode d.path (d.tree x) = .ok r ∧ (d.tree x).IsOption ∧ (Value.record r).Keyed ∧
      (d.plant r.encode).2.tree (d.plant r.encode).1 = (d.tree x).plain ∧
      Record.decode d.path ((d.plant r.encode).2.tree (d.plant r.encode).1) = .ok r ∧
      (d.plant r.encode).2.forest.node x = d.forest.node x := by
  intro d x r
  have hr : Record.decode d.path (d.tree x) = .ok r := rfl
  obtain ⟨hwritten, hread⟩ := options_exact d
  obtain ⟨hiff, hplain⟩ := hread x _ _ rfl
  obtain ⟨hkeyed, htree⟩ := hplain r hr
  obtain ⟨hback, hold⟩ := hwritten r hkeyed
  exact ⟨hr, hiff.mp ⟨r, hr⟩, hkeyed, htree, hback, hold x (issued_of_expr_object rfl)⟩

end Document

end SiteConfig
