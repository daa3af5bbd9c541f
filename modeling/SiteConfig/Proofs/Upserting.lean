import SiteConfig.Proofs.Opening
import SiteConfig.Proofs.Targets

/-!
What an option that is written into an object changes in the record that the object is read as.
The edit looks for the first member of a name, and of two members of one name the reader takes the
last, so the two agree on every name that the object binds once.
-/

namespace SiteConfig

namespace Record

/-- The second record is the first with `key` mapped to `v`: in the place of the entry of that name,
or behind the last one if there is none. All other entries stay where they are. -/
inductive Upserted (key : String) (v : Value) : Record → Record → Prop where
  | replaced (before after : Record) (old : Value) (h : key ∉ before.keys) :
    Upserted key v (before ++ (key, old) :: after) (before ++ (key, v) :: after)
  | added {r : Record} (h : key ∉ r.keys) : Upserted key v r (r ++ [(key, v)])

theorem Upserted.mem {key : String} {v : Value} {r r' : Record} (h : Upserted key v r r') :
    (key, v) ∈ r' := by
  cases h <;> simp

theorem upserted_insert (key : String) (v : Value) (r : Record) :
    Upserted key v r (r.insert key v) := by
  induction r with
  | nil => exact .added (List.not_mem_nil)
  | cons e rest ih =>
    obtain ⟨k, w⟩ := e
    by_cases hk : k = key
    · subst hk
      rw [insert, if_pos rfl]
      exact .replaced [] rest w List.not_mem_nil
    · rw [insert, if_neg hk]
      generalize insert key v rest = rest' at ih
      cases ih with
      | replaced before after old h =>
        refine .replaced ((k, w) :: before) after old ?_
        simp only [keys, List.map_cons, List.mem_cons, not_or]
        exact ⟨Ne.symm hk, h⟩
      | added h =>
        refine .added ?_
        simp only [keys, List.map_cons, List.mem_cons, not_or]
        exact ⟨Ne.symm hk, h⟩

theorem insert_insert_self (key : String) (v w : Value) (r : Record) :
    (r.insert key v).insert key w = r.insert key w := by
  fun_induction insert key v r <;> grind [insert]

/-- Names that are there keep their places, so the order of two inserts does not matter. -/
theorem insert_insert_of_mem {key : String} {r : Record} (h : key ∈ r.keys) (v : Value)
    {k : String} (hk : k ≠ key) (w : Value) :
    (r.insert key v).insert k w = (r.insert k w).insert key v := by
  induction r with
  | nil => cases h
  | cons e rest ih =>
    obtain ⟨k', w'⟩ := e
    simp only [keys, List.map_cons, List.mem_cons] at h
    grind [insert, keys]

/-- An insert that comes first is still there behind others, unless one of them has its name. -/
theorem foldl_insert_insert {key : String} {r : Record} (h : key ∈ r.keys) (v : Value)
    (entries : List (String × Value)) :
    entries.foldl (fun r e => r.insert e.1 e.2) (r.insert key v) =
      if key ∈ keys entries then entries.foldl (fun r e => r.insert e.1 e.2) r
      else insert key v (entries.foldl (fun r e => r.insert e.1 e.2) r) := by
  induction entries generalizing r with
  | nil => simp [keys]
  | cons e rest ih =>
    obtain ⟨k, w⟩ := e
    rw [List.foldl_cons, List.foldl_cons]
    by_cases hk : k = key
    · subst hk
      rw [insert_insert_self, if_pos (by simp [keys])]
    · have hmem : key ∈ keys (r.insert k w) := by
        rw [keys_insert]
        split
        · exact h
        · exact List.mem_append_left _ h
      have hkeys : key ∈ keys ((k, w) :: rest) ↔ key ∈ keys rest := by
        simp [keys, Ne.symm hk]
      rw [insert_insert_of_mem h v hk w, ih hmem]
      simp only [hkeys]

theorem ofEntries_append (before after : List (String × Value)) :
    ofEntries (before ++ after) = after.foldl (fun r e => r.insert e.1 e.2) (ofEntries before) :=
  List.foldl_append

/-- Another value for a name shows in the record, unless a later entry of that name hides it. -/
theorem ofEntries_replaced (key : String) (old v : Value) (before after : List (String × Value)) :
    ofEntries (before ++ (key, v) :: after) =
      if key ∈ keys after then ofEntries (before ++ (key, old) :: after)
      else insert key v (ofEntries (before ++ (key, old) :: after)) := by
  have hmem : key ∈ keys ((ofEntries before).insert key old) := by
    rw [keys_insert]
    split
    · assumption
    · simp
  rw [ofEntries_append, ofEntries_append, List.foldl_cons, List.foldl_cons,
    ← insert_insert_self key old v, foldl_insert_insert hmem]

theorem ofEntries_concat (entries : List (String × Value)) (key : String) (v : Value) :
    ofEntries (entries ++ [(key, v)]) = (ofEntries entries).insert key v :=
  ofEntries_append entries [(key, v)]

end Record

namespace Value

theorem decodeProperties_append (path : String) (before after : List (Property Tree)) :
    decodeProperties path (before ++ after) = (do
      let entries ← decodeProperties path before
      return entries ++ (← decodeProperties path after)) := by
  induction before with
  | nil =>
    rw [List.nil_append, decodeProperties]
    cases decodeProperties path after <;> rfl
  | cons p rest ih =>
    rw [List.cons_append, decodeProperties, decodeProperties, ih]
    cases decodeBody path p.position p.body with
    | error e => rfl
    | ok e =>
      cases decodeProperties path rest with
      | error e => rfl
      | ok entries => cases decodeProperties path after <;> rfl

/-- A member that is read binds the name of its entry. -/
theorem keys_of_decodeProperties {path : String} {properties : List (Property Tree)}
    {entries : List (String × Value)} (h : decodeProperties path properties = .ok entries) :
    properties.map (·.name?) = (Record.keys entries).map some := by
  have hw := writesEntries_of_decode path properties h
  clear h
  induction properties generalizing entries with
  | nil =>
    cases hw
    rfl
  | cons p rest ih =>
    cases hw with
    | cons key position trivia hv hw =>
      rw [List.map_cons, ih hw]
      rfl

theorem countP_binds {path : String} {properties : List (Property Tree)}
    {entries : List (String × Value)} (h : decodeProperties path properties = .ok entries)
    (key : String) : properties.countP (·.binds key) = (Record.keys entries).count key := by
  have hname : (properties.map (·.name?)).count (some key) =
      ((Record.keys entries).map some).count (some key) := by
    rw [keys_of_decodeProperties h]
  rw [List.count_map_of_injective _ _ (Option.some_injective _)] at hname
  rw [← hname, List.count, List.countP_map]
  refine List.countP_congr fun p _ => ?_
  simp [Property.binds]

end Value

namespace Tree

/-- How many members of an object bind a name. -/
def bindings (t : Tree) (key : String) : Nat :=
  (t.expr.asObject?.getD []).countP (·.binds key)

end Tree

namespace Record

theorem decode_object (path : String) (position : Option Position)
    (properties : List (Property Tree)) (dangling : List Comment) :
    decode path (.node position (.object properties dangling)) =
      (Value.decodeProperties path properties).map ofEntries := rfl

theorem object_of_decode {path : String} {t : Tree} {r : Record} (h : decode path t = .ok r) :
    ∃ properties dangling, t.expr = .object properties dangling := by
  obtain ⟨position, e⟩ := t
  cases e with
  | object properties dangling => exact ⟨properties, dangling, rfl⟩
  | _ => cases h

/-- What an object is read as once a name is bound to another tree. -/
theorem decode_rebound {path key : String} {form : KeyForm} {old : Option Tree} {new t t' : Tree}
    {r : Record} {v : Value} (h : Rebound key form old new t t') (hr : decode path t = .ok r)
    (hv : Value.decode path new = .ok v) :
    decode path t' = .ok (if t.bindings key ≤ 1 then r.insert key v else r) := by
  cases h with
  | replaced before after k old new place position trivia dangling hk hbefore =>
    subst hk
    obtain ⟨entries, hentries, rfl⟩ := Result.ok_of_map hr
    rw [Value.decodeProperties_append] at hentries
    obtain ⟨eb, heb, hentries⟩ := Result.ok_of_bind hentries
    obtain ⟨ec, hec, hentries⟩ := Result.ok_of_bind hentries
    cases hentries
    obtain ⟨e, he, hec⟩ := Result.ok_of_bind hec
    obtain ⟨w, hw, he⟩ := Result.ok_of_bind he
    cases he
    obtain ⟨ea, hea, hec⟩ := Result.ok_of_bind hec
    cases hec
    -- no member in front binds the name, so those behind tell whether the new value is hidden
    have hbefore : before.countP (·.binds k.name) = 0 := List.countP_eq_zero.mpr hbefore
    have hcount : (Tree.node place (.object
        (before ++ ⟨.assignment k old, position, trivia⟩ :: after) dangling)).bindings k.name =
          (keys ea).count k.name + 1 := by
      have hp : (⟨.assignment k old, position, trivia⟩ : Property Tree).binds k.name := by
        simp [Property.binds, Property.name?]
      change (before ++ ⟨.assignment k old, position, trivia⟩ :: after).countP _ = _
      rw [List.countP_append, List.countP_cons_of_pos hp, hbefore, Value.countP_binds hea,
        Nat.zero_add]
    have hnew : Value.decodeProperties path
        (before ++ ⟨.assignment k new, position, trivia⟩ :: after) =
          .ok (eb ++ (k.name, v) :: ea) := by
      rw [Value.decodeProperties_append, heb, Value.decodeProperties, Value.decodeBody, hv, hea]
      rfl
    rw [decode_object, hnew, Except.map, ofEntries_replaced k.name w v eb ea, hcount]
    by_cases hmem : k.name ∈ keys ea
    · have := List.count_pos_iff.mpr hmem
      rw [if_pos hmem, if_neg (by omega)]
    · rw [if_neg hmem, if_pos (by rw [List.count_eq_zero.mpr hmem])]
  | added properties new place dangling hnone =>
    obtain ⟨entries, hentries, rfl⟩ := Result.ok_of_map hr
    have hcount : (Tree.node place (.object properties dangling)).bindings key = 0 :=
      List.countP_eq_zero.mpr hnone
    have hnew : Value.decodeProperties path (properties ++ [.ofKey ⟨key, form⟩ new]) =
        .ok (entries ++ [(key, v)]) := by
      rw [Value.decodeProperties_append, hentries, Property.ofKey, Value.decodeProperties,
        Value.decodeBody, hv]
      rfl
    rw [decode_object, hnew, Except.map, ofEntries_concat, hcount, if_pos (Nat.zero_le 1)]

end Record

namespace Document

variable {d : Document} {x : NodeId} {r : Record}

/-- An object that can be read has a value for each of its members. -/
theorem value?_of_decode (hd : d.Sound) (hr : Record.decode d.path (d.tree x) = .ok r)
    (key problem : String) :
    ∃ properties dangling found, d.expr x = .object properties dangling ∧
      d.value? x key problem = .ok found := by
  obtain ⟨properties', dangling, ht⟩ := Record.object_of_decode hr
  obtain ⟨properties, he⟩ := expr_of_tree_object ht
  have hoption := (Value.writes_of_decode d.path _ ((Record.decode_eq_ok_iff ht).mp hr)).isOption
  rw [tree_of_expr hd x, he, map_object] at hoption
  have hvalue : ∀ p ∈ properties, p.value?.isSome := by
    intro p hp
    cases hoption with
    | object _ _ hsome _ =>
      have := hsome _ (List.mem_map_of_mem hp)
      rwa [value?_propertyTree, Option.isSome_map] at this
  rw [value?_of_object he]
  cases hfind : properties.find? (·.binds key) with
  | none => exact ⟨properties, dangling, none, he, rfl⟩
  | some p =>
    obtain ⟨value, hp⟩ := Option.isSome_iff_exists.mp (hvalue p (List.mem_of_find?_eq_some hfind))
    exact ⟨properties, dangling, some value, he, by simp only [hp]⟩

/-- An option is written into every object that can be read. The object is then read as before but
for that option, if it binds the name at most once; of two members of the name the edit writes the
first, which the last one hides. -/
theorem putOption_upserts (hd : d.Sound) (hr : Record.decode d.path (d.tree x) = .ok r)
    (key : String) {v : Value} (hv : v.Keyed) :
    ∃ d', d.perform (.putOption x key v) = (.ok (), d') ∧
      ((d.tree x).bindings key ≤ 1 →
        ∃ r', Record.decode d'.path (d'.tree x) = .ok r' ∧ r.Upserted key v r') ∧
      (1 < (d.tree x).bindings key → Record.decode d'.path (d'.tree x) = .ok r) := by
  obtain ⟨properties, dangling, found, he, hfound⟩ := value?_of_decode hd hr key (optionProblem key)
  have hrebound := rebound_graft hd he hfound (PropertyKey.forName key).form v.encode
  have hread := Record.decode_rebound hrebound hr (Value.decode_encode d.path v hv)
  have hput : d.perform (.putOption x key v) = _ := perform_putOption_of_object he v
  rw [hfound, write_member he] at hput
  refine ⟨_, hput, fun hle => ⟨_, ?_, Record.upserted_insert key v r⟩, fun hlt => ?_⟩
  · rwa [if_pos hle] at hread
  · rwa [if_neg (Nat.not_le.mpr hlt)] at hread

/-- The config `module.exports = { a: 'b', n: true, 'a': 'c' };`. -/
def repeatedSource : String :=
  "module.exports = \x7b a: 'b', n: true, 'a': 'c' \x7d;"

def repeatedDocument : Document where
  path := "a.js"
  forest := { nodes := #[
    { expr := .identifier "module", position := some ⟨1, 1⟩ },
    { expr := .member ⟨0⟩ "exports", position := some ⟨1, 1⟩ },
    { expr := .string "b", position := some ⟨1, 23⟩ },
    { expr := .boolean true, position := some ⟨1, 31⟩ },
    { expr := .string "c", position := some ⟨1, 42⟩ },
    { expr := .object [
        { body := .assignment ⟨"a", .identifier⟩ ⟨2⟩, position := some ⟨1, 20⟩ },
        { body := .assignment ⟨"n", .identifier⟩ ⟨3⟩, position := some ⟨1, 28⟩ },
        { body := .assignment ⟨"a", .string⟩ ⟨4⟩, position := some ⟨1, 37⟩ }] []
      position := some ⟨1, 18⟩ },
    { expr := .assignment ⟨1⟩ ⟨5⟩, position := some ⟨1, 1⟩ }] }
  program := { statements := [{ body := .expression ⟨6⟩ }] }

set_option maxRecDepth 8000 in
theorem ofSource_repeatedSource : ofSource repeatedSource "a.js" = .ok repeatedDocument := by cbv

theorem reached_repeatedDocument : repeatedDocument.Reached :=
  .opened ofSource_repeatedSource

/-- The option between the two others of one name is written in its place. -/
theorem putOption_upserts_repeatedDocument :
    let r : Record := [("a", .string "c"), ("n", .boolean true)]
    Record.decode "a.js" (repeatedDocument.tree ⟨5⟩) = .ok r ∧
      (repeatedDocument.tree ⟨5⟩).bindings "n" = 1 ∧
      ∃ d', repeatedDocument.perform (.putOption ⟨5⟩ "n" (.list [.path "./x"])) = (.ok (), d') ∧
        ∃ r', Record.decode d'.path (d'.tree ⟨5⟩) = .ok r' ∧
          r.Upserted "n" (.list [.path "./x"]) r' := by
  intro r
  have hr : Record.decode "a.js" (repeatedDocument.tree ⟨5⟩) = .ok r := rfl
  have hcount : (repeatedDocument.tree ⟨5⟩).bindings "n" = 1 := by decide
  have hv : (Value.list [.path "./x"]).Keyed := ⟨trivial, trivial⟩
  obtain ⟨d', hp, hupserted, -⟩ := putOption_upserts reached_repeatedDocument.sound hr "n" hv
  exact ⟨hr, hcount, d', hp, hupserted (Nat.le_of_eq hcount)⟩

/-- The option that the object binds twice is read as it was. -/
theorem not_putOption_upserts :
    ¬ ∀ (d d' : Document) (x : NodeId) (r : Record) (key : String) (v : Value), d.Reached →
      Record.decode d.path (d.tree x) = .ok r → v.Keyed →
      d.perform (.putOption x key v) = (.ok (), d') →
      ∃ r', Record.decode d'.path (d'.tree x) = .ok r' ∧ r.Upserted key v r' := by
  intro h
  have hr : Record.decode repeatedDocument.path (repeatedDocument.tree ⟨5⟩) =
      .ok [("a", .string "c"), ("n", .boolean true)] := rfl
  obtain ⟨r', hr', hupserted⟩ := h repeatedDocument _ ⟨5⟩ _ "a" (.string "d")
    reached_repeatedDocument hr trivial rfl
  obtain rfl : r' = [("a", .string "c"), ("n", .boolean true)] := Except.ok.inj (hr'.symm.trans rfl)
  have hmem := hupserted.mem
  simp at hmem

end Document

end SiteConfig
