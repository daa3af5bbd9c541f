import SiteConfig.Proofs.Interchange
import SiteConfig.Proofs.Merging

/-!
A taxonomy that was written is read as it was. One that was read is written in full, with what the
text left out and without what nothing reads, and reading this once more changes nothing.
-/

namespace SiteConfig

theorem mapM_eq_some_iff {α β : Type} {f : α → Option β} {as : List α} {bs : List β} :
    as.mapM f = some bs ↔ List.Forall₂ (fun a b => f a = some b) as bs := by
  induction as generalizing bs with
  | nil => cases bs <;> simp
  | cons a as ih =>
    rw [List.mapM_cons]
    simp only [Option.bind_eq_bind, Option.bind_eq_some_iff, ih]
    constructor
    · rintro ⟨b, hb, bs', hbs, ⟨⟩⟩
      exact .cons hb hbs
    · rintro (_ | ⟨hb, hbs⟩)
      exact ⟨_, hb, _, hbs, rfl⟩

namespace Tag
open Json

/-- The members under a name are none, or one with a text. -/
def Holds (members : List (Option String × Json.Value)) (name : String)
    (text : Option String) : Prop :=
  (members.filter (·.1 = some name)).map (·.2) = text.toList.map fun s => .string (some s)

/-- The tag that a value stands for: an object with its fields, each given at most once and beside
any other members, or the array of its fields. Description and color may be left out. -/
inductive Represents : Json.Value → Tag → Prop where
  | object {members : List (Option String × Json.Value)} {value label : String}
      {description color : Option String} (keys : ∀ m ∈ members, m.1.isSome)
      (hvalue : Holds members "value" (some value)) (hlabel : Holds members "label" (some label))
      (hdescription : Holds members "description" description)
      (hcolor : Holds members "color" color) :
      Represents (.object members) ⟨value, label, description.getD "", color.getD ""⟩
  | array {value label : String} {more : List String} (h : more.length ≤ 2) :
      Represents (.array ((value :: label :: more).map fun s => .string (some s)))
        ⟨value, label, more[0]?.getD "", more[1]?.getD ""⟩

/-- All fields of a tag. -/
def members (t : Tag) : List (Option String × Json.Value) :=
  [(some "value", .string (some t.value)), (some "label", .string (some t.label)),
    (some "description", .string (some t.description)), (some "color", .string (some t.color))]

def toValue (t : Tag) : Json.Value :=
  .object t.members

theorem reads_toJson (t : Tag) : Reads t.toJson.toList t.toValue := by
  have hmember : ∀ name text, ReadsMember (name, writeString text)
      (name, .string (some text)) := fun _ text => ⟨rfl, reads_writeString text⟩
  exact reads_writeObject (.cons (hmember "value" _) (.cons (hmember "label" _)
    (.cons (hmember "description" _) (.cons (hmember "color" _) .nil))))

theorem represents_toValue (t : Tag) : Represents t.toValue t := by
  have hvalue : Holds t.members "value" (some t.value) := rfl
  have hlabel : Holds t.members "label" (some t.label) := rfl
  have hdescription : Holds t.members "description" (some t.description) := rfl
  have hcolor : Holds t.members "color" (some t.color) := rfl
  exact .object (by simp [members]) hvalue hlabel hdescription hcolor

variable {members : List (Option String × Json.Value)} {v : Json.Value} {key name : String}
  {text : Option String} {fs : List (String × String)}

theorem Holds.unique {text' : Option String} (h : Holds members name text)
    (h' : Holds members name text') : text = text' := by
  have heq : text.toList.map (fun s => Json.Value.string (some s)) =
      text'.toList.map fun s => .string (some s) := h.symm.trans h'
  cases text <;> cases text' <;> simp_all

theorem holds_cons_self :
    Holds ((some name, v) :: members) name text ↔
      ∃ s, text = some s ∧ v = .string (some s) ∧ Holds members name none := by
  cases text <;> simp [Holds]

theorem holds_cons_other (h : key ≠ name) :
    Holds ((some key, v) :: members) name text ↔ Holds members name text := by
  simp [Holds, h]

theorem text?_eq_some_iff {s : String} : text? v = some s ↔ v = .string (some s) := by
  cases v <;> simp [text?]

theorem fields?_cons_eq_some_iff :
    fields? ((some key, v) :: members) = some fs ↔
      ∃ fs', fields? members = some fs' ∧
        (key ∈ fieldNames ∧ fs'.lookup key = none ∧
            (∃ s, v = .string (some s) ∧ fs = (key, s) :: fs') ∨
          key ∉ fieldNames ∧ fs = fs') := by
  simp only [fields?, Option.bind_eq_bind, Option.bind_some, Option.bind_eq_some_iff]
  refine exists_congr fun fs' => and_congr_right fun _ => ?_
  by_cases hkey : key ∈ fieldNames
  · rw [if_pos (List.contains_iff_mem.mpr hkey)]
    by_cases hnone : fs'.lookup key = none
    · simp only [hnone, Option.isNone_none, guard, if_true, Option.pure_def, Option.bind_some,
        Option.bind_eq_some_iff, text?_eq_some_iff, Option.some.injEq, hkey, true_and,
        not_true_eq_false, false_and, or_false]
      exact exists_congr fun s => and_congr_right fun _ => eq_comm
    · have hsome : (fs'.lookup key).isNone = false := by simpa using hnone
      simp [hsome, hkey, hnone, guard]
  · rw [if_neg (by simpa using hkey)]
    simp only [hkey, false_and, not_false_eq_true, true_and, false_or, Option.pure_def,
      Option.some.injEq]
    exact eq_comm

/-- What the reader takes of an object: nothing is under the name of a field but its text. -/
theorem holds_of_fields? (h : fields? members = some fs) :
    (∀ m ∈ members, m.1.isSome) ∧
      ∀ name ∈ fieldNames, Holds members name (fs.lookup name) := by
  induction members generalizing fs with
  | nil =>
    obtain rfl : [] = fs := Option.some.inj h
    exact ⟨by simp, fun _ _ => rfl⟩
  | cons m members ih =>
    obtain ⟨_ | key, v⟩ := m
    · cases h
    obtain ⟨fs', hfs, hcase⟩ := fields?_cons_eq_some_iff.mp h
    obtain ⟨hkeys, hholds⟩ := ih hfs
    refine ⟨by simpa using hkeys, fun name hname => ?_⟩
    obtain ⟨-, hnone, s, rfl, rfl⟩ | ⟨hkey, rfl⟩ := hcase
    -- a field stands once: none of the members behind it has its name
    · by_cases hsame : key = name
      · subst hsame
        rw [List.lookup_cons_self, holds_cons_self]
        exact ⟨s, rfl, rfl, hnone ▸ hholds key hname⟩
      · have hother : List.lookup name ((key, s) :: fs') = fs'.lookup name := by
          rw [List.lookup_cons, beq_false_of_ne (Ne.symm hsame)]
        rw [hother, holds_cons_other hsame]
        exact hholds name hname
    · have hsame : key ≠ name := fun heq => hkey (heq ▸ hname)
      rw [holds_cons_other hsame]
      exact hholds name hname

/-- Members that hold no more than that are read. -/
theorem exists_fields? (hkeys : ∀ m ∈ members, m.1.isSome)
    (h : ∀ name ∈ fieldNames, ∃ text, Holds members name text) : ∃ fs, fields? members = some fs := by
  induction members with
  | nil => exact ⟨[], rfl⟩
  | cons m members ih =>
    obtain ⟨_ | key, v⟩ := m
    · cases hkeys _ List.mem_cons_self
    have hrest : ∀ name ∈ fieldNames, ∃ text, Holds members name text := by
      intro name hname
      obtain ⟨text, htext⟩ := h name hname
      by_cases hsame : key = name
      · subst hsame
        obtain ⟨_, -, -, hnone⟩ := holds_cons_self.mp htext
        exact ⟨none, hnone⟩
      · exact ⟨text, (holds_cons_other hsame).mp htext⟩
    obtain ⟨fs, hfs⟩ := ih (fun m hm => hkeys m (List.mem_cons_of_mem _ hm)) hrest
    by_cases hkey : key ∈ fieldNames
    · obtain ⟨text, htext⟩ := h key hkey
      obtain ⟨s, -, rfl, hnone⟩ := holds_cons_self.mp htext
      have hlookup : fs.lookup key = none := ((holds_of_fields? hfs).2 key hkey).unique hnone
      exact ⟨_, fields?_cons_eq_some_iff.mpr ⟨fs, hfs, .inl ⟨hkey, hlookup, s, rfl, rfl⟩⟩⟩
    · exact ⟨_, fields?_cons_eq_some_iff.mpr ⟨fs, hfs, .inr ⟨hkey, rfl⟩⟩⟩

theorem mapM_text?_eq_some_iff {items : List Json.Value} {texts : List String} :
    items.mapM text? = some texts ↔ items = texts.map fun s => .string (some s) := by
  rw [mapM_eq_some_iff]
  simp only [text?_eq_some_iff]
  rw [← List.forall₂_eq_eq_eq, List.forall₂_map_right_iff]

theorem represents_of_ofJson? {t : Tag} (h : ofJson? v = some t) : Represents v t := by
  cases v with
  | object members =>
    simp only [ofJson?, Option.bind_eq_bind, Option.bind_eq_some_iff] at h
    obtain ⟨fs, hfs, value, hvalue, label, hlabel, ⟨⟩⟩ := h
    obtain ⟨hkeys, hholds⟩ := holds_of_fields? hfs
    exact .object hkeys (hvalue ▸ hholds "value" (by decide))
      (hlabel ▸ hholds "label" (by decide)) (hholds "description" (by decide))
      (hholds "color" (by decide))
  | array items =>
    simp only [ofJson?, Option.bind_eq_bind, Option.bind_eq_some_iff] at h
    obtain ⟨texts, htexts, h⟩ := h
    rw [mapM_text?_eq_some_iff.mp htexts]
    -- description and color may be left out at the end of an array
    split at h
    · cases h
      exact @Represents.array _ _ [] (by simp)
    · cases h
      exact @Represents.array _ _ [_] (by simp)
    · cases h
      exact @Represents.array _ _ [_, _] (by simp)
    · cases h
  | null | boolean | number | string => cases h

theorem Represents.ofJson? {t : Tag} (h : Represents v t) : ofJson? v = some t := by
  cases h with
  | @object members value label description color keys hvalue hlabel hdescription hcolor =>
    -- no name is given twice, so each field is read from the only member it has
    have hgiven : ∀ name ∈ fieldNames, ∃ text, Holds members name text := by
      simp only [fieldNames, List.forall_mem_cons]
      exact ⟨⟨_, hvalue⟩, ⟨_, hlabel⟩, ⟨_, hdescription⟩, ⟨_, hcolor⟩, by simp⟩
    obtain ⟨fs, hfs⟩ := exists_fields? keys hgiven
    obtain ⟨-, hholds⟩ := holds_of_fields? hfs
    have hlookup : ∀ name ∈ fieldNames, ∀ text, Holds members name text → fs.lookup name = text :=
      fun name hname _ h => (hholds name hname).unique h
    simp only [Tag.ofJson?, hfs, Option.bind_eq_bind, Option.bind_some,
      hlookup "value" (by decide) _ hvalue, hlookup "label" (by decide) _ hlabel,
      hlookup "description" (by decide) _ hdescription, hlookup "color" (by decide) _ hcolor]
    rfl
  | @array value label more h =>
    have htexts : ((value :: label :: more).map fun s => Json.Value.string (some s)).mapM text? =
        some (value :: label :: more) := mapM_text?_eq_some_iff.mpr rfl
    simp only [Tag.ofJson?, htexts, Option.bind_eq_bind, Option.bind_some]
    match more, h with
    | [], _ => rfl
    | [_], _ => rfl
    | [_, _], _ => rfl

/-- A tag is read from exactly the values that stand for it. -/
theorem ofJson?_eq_some_iff {t : Tag} : ofJson? v = some t ↔ Represents v t :=
  ⟨represents_of_ofJson?, Represents.ofJson?⟩

end Tag

namespace Taxonomy
open Json

/-! Categories. -/

variable {t t' : Taxonomy} {cs : List (String × List Tag)}

theorem keys_insert (name : String) (tags : List Tag) (cs : List (String × List Tag)) :
    (insert name tags cs).map (·.1) =
      if name ∈ cs.map (·.1) then cs.map (·.1) else cs.map (·.1) ++ [name] := by
  induction cs with
  | nil => rfl
  | cons c cs ih =>
    obtain ⟨n, ts⟩ := c
    rw [insert]
    by_cases hn : n = name
    · simp [hn]
    · rw [if_neg hn, List.map_cons, ih, List.map_cons]
      by_cases hmem : name ∈ cs.map (·.1)
      · rw [if_pos hmem, if_pos (List.mem_cons_of_mem _ hmem)]
      · rw [if_neg hmem, if_neg (List.not_mem_cons_of_ne_of_not_mem (Ne.symm hn) hmem),
          List.cons_append]

theorem lookup_insert (name k : String) (tags : List Tag) (cs : List (String × List Tag)) :
    (insert name tags cs).lookup k = if k = name then some tags else cs.lookup k := by
  induction cs with
  | nil =>
    by_cases hk : k = name
    · simp [insert, hk]
    · simp [insert, hk, List.lookup_cons, beq_false_of_ne hk]
  | cons c cs ih =>
    obtain ⟨n, ts⟩ := c
    rw [insert]
    by_cases hn : n = name
    · subst hn
      by_cases hk : k = n
      · simp [hk]
      · simp [hk, List.lookup_cons, beq_false_of_ne hk]
    · rw [if_neg hn, List.lookup_cons, ih, List.lookup_cons]
      by_cases hk : k = n
      · simp [hk, hn]
      · simp [beq_false_of_ne hk]

/-- The categories of a text, each in the place where its name first stands and with the tags that
are given for it last. -/
structure Resolves (cs : List (String × List Tag)) (t : Taxonomy) : Prop where
  names : Firsts (cs.map (·.1)) (t.categories.map (·.1))
  tags : ∀ name, t.category? name = cs.reverse.lookup name

theorem ofCategories_concat (cs : List (String × List Tag)) (c : String × List Tag) :
    (ofCategories (cs ++ [c])).categories = insert c.1 c.2 (ofCategories cs).categories := by
  simp [ofCategories]

theorem resolves_ofCategories (cs : List (String × List Tag)) : Resolves cs (ofCategories cs) := by
  induction cs using List.reverseRecOn with
  | nil => exact ⟨⟨fun _ => Iff.rfl, .nil⟩, fun _ => rfl⟩
  | append_singleton cs c ih =>
    constructor
    · rw [ofCategories_concat, keys_insert, List.map_append, List.map_singleton]
      by_cases hmem : c.1 ∈ (ofCategories cs).categories.map (·.1)
      · rw [if_pos hmem]
        exact ih.names.concat_of_mem ((ih.names.mem c.1).mp hmem)
      · rw [if_neg hmem]
        exact ih.names.concat_of_not_mem (mt (ih.names.mem c.1).mpr hmem)
    · intro name
      have htags := ih.tags name
      rw [category?] at htags ⊢
      rw [ofCategories_concat, lookup_insert, htags, List.reverse_append, List.reverse_singleton,
        List.singleton_append, List.lookup_cons]
      by_cases hname : name = c.1
      · simp [hname]
      · simp [hname, beq_false_of_ne hname]

theorem lookup_of_not_mem {name : String} (h : name ∉ cs.map (·.1)) : cs.lookup name = none := by
  refine (category?_eq_none (t := ⟨cs⟩)).mpr fun c hc heq => h ?_
  exact heq ▸ List.mem_map_of_mem hc

/-- Categories are their names, in order, with the tags of each. -/
theorem eq_of_lookup {cs' : List (String × List Tag)} (hnames : cs.map (·.1) = cs'.map (·.1))
    (hnodup : (cs.map (·.1)).Nodup) (h : ∀ name, cs.lookup name = cs'.lookup name) : cs = cs' := by
  induction cs generalizing cs' with
  | nil => exact (List.map_eq_nil_iff.mp hnames.symm).symm
  | cons c cs ih =>
    cases cs' with
    | nil => cases hnames
    | cons c' cs' =>
      obtain ⟨n, ts⟩ := c
      obtain ⟨n', ts'⟩ := c'
      obtain ⟨rfl, hrest⟩ := List.cons.inj hnames
      obtain ⟨hnot, hnodup⟩ := List.nodup_cons.mp hnodup
      have htags : ts = ts' := by simpa using h n
      have hlookup : ∀ name, cs.lookup name = cs'.lookup name := by
        intro name
        by_cases hname : name = n
        · rw [hname, lookup_of_not_mem hnot, lookup_of_not_mem (hrest ▸ hnot)]
        · simpa [List.lookup_cons, beq_false_of_ne hname] using h name
      rw [htags, ih hrest hnodup hlookup]

theorem Resolves.nodup (h : Resolves cs t) : (t.categories.map (·.1)).Nodup :=
  h.names.nodup

theorem Resolves.unique (h : Resolves cs t) (h' : Resolves cs t') : t = t' := by
  obtain ⟨categories⟩ := t
  obtain ⟨categories'⟩ := t'
  have hsame : categories = categories' := eq_of_lookup (h.names.unique h'.names) h.nodup
    fun name => (h.tags name).trans (h'.tags name).symm
  rw [hsame]

theorem resolves_iff : Resolves cs t ↔ ofCategories cs = t :=
  ⟨(resolves_ofCategories cs).unique, fun h => h ▸ resolves_ofCategories cs⟩

theorem lookup_reverse (h : (cs.map (·.1)).Nodup) (name : String) :
    cs.reverse.lookup name = cs.lookup name := by
  induction cs with
  | nil => rfl
  | cons c cs ih =>
    obtain ⟨n, ts⟩ := c
    obtain ⟨hnot, hnodup⟩ := List.nodup_cons.mp h
    rw [List.reverse_cons, List.lookup_append, ih hnodup]
    by_cases hname : name = n
    · rw [hname, lookup_of_not_mem hnot]
      simp
    · simp [List.lookup_cons, beq_false_of_ne hname]

/-- Categories with different names stay as they are. -/
theorem resolves_self (h : (t.categories.map (·.1)).Nodup) : Resolves t.categories t :=
  ⟨.of_nodup h, fun name => (lookup_reverse h name).symm⟩

/-! Texts. -/

/-- A member of an object that stands for a category. -/
def RepresentsCategory (m : Option String × Json.Value) (c : String × List Tag) : Prop :=
  ∃ items, m = (some c.1, .array items) ∧ List.Forall₂ Tag.Represents items c.2

/-- The taxonomy that a value stands for: an object with an array of tags for each category. -/
def Represents (v : Json.Value) (t : Taxonomy) : Prop :=
  ∃ members cs, v = .object members ∧ List.Forall₂ RepresentsCategory members cs ∧ Resolves cs t

theorem categoryOfJson?_eq_some_iff {m : Option String × Json.Value} {c : String × List Tag} :
    categoryOfJson? m = some c ↔ RepresentsCategory m c := by
  obtain ⟨name, tags⟩ := c
  constructor
  · intro h
    obtain ⟨_ | key, v⟩ := m
    · cases h
    cases v with
    | array items =>
      simp only [categoryOfJson?, Option.bind_eq_bind, Option.bind_eq_some_iff, mapM_eq_some_iff,
        Tag.ofJson?_eq_some_iff] at h
      obtain ⟨tags, htags, ⟨⟩⟩ := h
      exact ⟨items, rfl, htags⟩
    | null | boolean | number | string | object => cases h
  · rintro ⟨items, rfl, htags⟩
    have hmapM : items.mapM Tag.ofJson? = some tags := by
      simpa only [mapM_eq_some_iff, Tag.ofJson?_eq_some_iff] using htags
    simp only [categoryOfJson?, hmapM]
    rfl

/-- A taxonomy is read from exactly the texts of values that stand for it. -/
theorem parse_eq_ok_iff {text problem : String} :
    parse text problem = .ok t ↔ ∃ v, parse? text = some v ∧ Represents v t := by
  have hparse : parse text problem = .ok t ↔ ofJson? text = some t := by
    rw [parse]
    cases ofJson? text <;> simp
  rw [hparse, ofJson?]
  simp only [Option.bind_eq_bind, Option.bind_eq_some_iff]
  refine exists_congr fun v => and_congr_right fun _ => ?_
  constructor
  · intro h
    cases v with
    | object members =>
      simp only [Option.bind_eq_some_iff, mapM_eq_some_iff, categoryOfJson?_eq_some_iff] at h
      obtain ⟨cs, hcs, ⟨⟩⟩ := h
      exact ⟨members, cs, rfl, hcs, resolves_ofCategories cs⟩
    | null | boolean | number | string | array => cases h
  · rintro ⟨members, cs, rfl, hcs, hresolves⟩
    have hmapM : members.mapM categoryOfJson? = some cs := by
      simpa only [mapM_eq_some_iff, categoryOfJson?_eq_some_iff] using hcs
    simp only [hmapM, Option.bind_some, resolves_iff.mp hresolves]
    rfl

/-- The object with all categories and all fields of their tags. -/
def toValue (t : Taxonomy) : Json.Value :=
  .object (t.categories.map fun c => (some c.1, .array (c.2.map Tag.toValue)))

theorem parse?_toJson (t : Taxonomy) : parse? t.toJson = some t.toValue := by
  have hmembers : List.Forall₂ ReadsMember
      (t.categories.map fun c => (c.1, writeArray (c.2.map Tag.toJson)))
      (t.categories.map fun c => (c.1, .array (c.2.map Tag.toValue))) := by
    rw [List.forall₂_map_left_iff, List.forall₂_map_right_iff, List.forall₂_same]
    intro c _
    refine ⟨rfl, reads_writeArray ?_⟩
    rw [List.forall₂_map_left_iff, List.forall₂_map_right_iff, List.forall₂_same]
    exact fun tag _ => tag.reads_toJson
  have hreads := (reads_writeObject hmembers).parse?
  rwa [List.map_map] at hreads

theorem represents_toValue (h : (t.categories.map (·.1)).Nodup) : Represents t.toValue t := by
  refine ⟨_, t.categories, rfl, List.forall₂_map_left_iff.mpr (List.forall₂_same.mpr ?_),
    resolves_self h⟩
  intro c _
  refine ⟨_, rfl, List.forall₂_map_left_iff.mpr (List.forall₂_same.mpr ?_)⟩
  exact fun tag _ => tag.represents_toValue

/-- How a taxonomy is written and read. -/
structure Resaves (t : Taxonomy) : Prop where
  /-- The text holds all categories in their order and all fields of every tag. -/
  written : parse? t.toJson = some t.toValue
  reread : (t.categories.map (·.1)).Nodup → ∀ problem, parse t.toJson problem = .ok t
  /-- It is read from the texts of all values that stand for it and from no others. -/
  accepted : ∀ text problem,
    parse text problem = .ok t ↔ ∃ v, parse? text = some v ∧ Represents v t
  /-- Written again once it was read, it is read as it was. -/
  normal : ∀ text problem, parse text problem = .ok t →
    ∀ problem', parse t.toJson problem' = .ok t

/-- Reading undoes writing, and writing what was read and reading it again changes nothing. -/
theorem resaves (t : Taxonomy) : t.Resaves := by
  have hreread : (t.categories.map (·.1)).Nodup → ∀ problem, parse t.toJson problem = .ok t :=
    fun h _ => parse_eq_ok_iff.mpr ⟨_, t.parse?_toJson, represents_toValue h⟩
  refine ⟨t.parse?_toJson, hreread, fun _ _ => parse_eq_ok_iff, fun text problem h => ?_⟩
  obtain ⟨v, -, members, cs, -, -, hresolves⟩ := parse_eq_ok_iff.mp h
  exact hreread hresolves.nodup

/-- A text with a repeated category, unknown and omitted fields, a tag as an array and escapes. -/
def looseText : String :=
  "\x7b\"A\":[[\"x\",\"X\"]], \"B\":[[\"y\",\"\\u0001\\n\",\"\\\\\"]],\n\"A\":[\x7b\"label\":\"\\\"\"," ++
    "\"more\":[1,\x7b\x7d],\"value\":\"\\ud83d\\ude00\"\x7d]\x7d"

/-- The taxonomy in it. -/
def strictTaxonomy : Taxonomy :=
  ⟨[("A", [⟨"😀", "\"", "", ""⟩]), ("B", [⟨"y", "\u0001\n", "\\", ""⟩])]⟩

theorem resaves_looseText : parse looseText "" = .ok strictTaxonomy ∧
    parse strictTaxonomy.toJson "" = .ok strictTaxonomy := by
  have h : parse looseText "" = .ok strictTaxonomy := by decide +kernel
  exact ⟨h, (resaves strictTaxonomy).normal looseText "" h ""⟩

end Taxonomy

end SiteConfig
