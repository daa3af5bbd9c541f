import Mathlib.Data.List.Induction
import Mathlib.Data.List.Perm.Basic
import SiteConfig.Taxonomy

/-!
A choice of tags takes the place of all tags of its category. The tags then are those of other
categories and behind them the chosen ones, each once and in the order in which they first came, so
that an earlier choice in the same category leaves no trace.
-/

namespace SiteConfig

/-- The values of a list without repetition, in the order in which each first stands in it. -/
structure Firsts {α : Type} [BEq α] (values firsts : List α) : Prop where
  mem : ∀ v, v ∈ firsts ↔ v ∈ values
  order : firsts.Pairwise (values.idxOf · < values.idxOf ·)

namespace Firsts

variable {α : Type} [BEq α] {values firsts firsts' : List α}

theorem nodup (h : Firsts values firsts) : firsts.Nodup := by
  refine h.order.imp fun hlt heq => ?_
  rw [heq] at hlt
  exact Nat.lt_irrefl _ hlt

theorem unique (h : Firsts values firsts) (h' : Firsts values firsts') : firsts = firsts' := by
  have hperm : firsts.Perm firsts' :=
    (List.perm_ext_iff_of_nodup h.nodup h'.nodup).mpr fun v => (h.mem v).trans (h'.mem v).symm
  refine hperm.eq_of_pairwise (fun _ _ _ _ hlt hgt => ?_) h.order h'.order
  exact absurd hlt (Nat.lt_asymm hgt)

variable [LawfulBEq α]

theorem idxOf_concat_of_mem {v : α} (hv : v ∈ values) (w : α) :
    (values ++ [w]).idxOf v = values.idxOf v := by
  rw [List.idxOf_append, if_pos hv]

theorem concat_of_mem (h : Firsts values firsts) {v : α} (hv : v ∈ values) :
    Firsts (values ++ [v]) firsts where
  mem w := by
    rw [h.mem w, List.mem_append, List.mem_singleton]
    exact ⟨.inl, fun hw => hw.elim id fun hw => hw ▸ hv⟩
  order := by
    refine h.order.imp_of_mem fun {x y} hx hy hlt => ?_
    rwa [idxOf_concat_of_mem ((h.mem x).mp hx), idxOf_concat_of_mem ((h.mem y).mp hy)]

theorem concat_of_not_mem (h : Firsts values firsts) {v : α} (hv : v ∉ values) :
    Firsts (values ++ [v]) (firsts ++ [v]) where
  mem w := by simp only [List.mem_append, h.mem w]
  order := by
    refine List.pairwise_append.mpr ⟨?_, List.pairwise_singleton _ v, ?_⟩
    · refine h.order.imp_of_mem fun {x y} hx hy hlt => ?_
      rwa [idxOf_concat_of_mem ((h.mem x).mp hx), idxOf_concat_of_mem ((h.mem y).mp hy)]
    · intro x hx w hw
      obtain rfl := List.mem_singleton.mp hw
      have hx := (h.mem x).mp hx
      have hlast : (values ++ [w]).idxOf w = values.length := by
        simp [List.idxOf_append, if_neg hv]
      rw [idxOf_concat_of_mem hx, hlast]
      exact List.idxOf_lt_length_iff.mpr hx

theorem eraseDups (values : List α) : Firsts values values.eraseDups := by
  induction values using List.reverseRecOn with
  | nil => exact ⟨fun v => Iff.rfl, .nil⟩
  | append_singleton rest v ih =>
    rw [List.eraseDups_append]
    by_cases hv : v ∈ rest
    · have hnone : [v].removeAll rest = [] := by simp [List.removeAll, hv]
      rw [hnone, List.eraseDups_nil, List.append_nil]
      exact ih.concat_of_mem hv
    · have hall : [v].removeAll rest = [v] := by simp [List.removeAll, hv]
      rw [hall]
      exact ih.concat_of_not_mem hv

/-- A list without repetition is its own. -/
theorem of_nodup (h : values.Nodup) : Firsts values values where
  mem _ := Iff.rfl
  order := by
    refine List.pairwise_iff_getElem.mpr fun i j hi hj hlt => ?_
    rwa [h.idxOf_getElem i hi, h.idxOf_getElem j hj]

end Firsts

namespace Taxonomy

variable {t : Taxonomy} {category : String} {definitions : List Tag}
  {tags chosen merged : List String}

/-- The category has a tag with this value. -/
def HasTag (t : Taxonomy) (category value : String) : Prop :=
  ∃ definitions, t.category? category = some definitions ∧ ∃ tag ∈ definitions, tag.value = value

theorem defines_iff {value : String} :
    defines definitions value ↔ ∃ tag ∈ definitions, tag.value = value := by
  simp [defines]

theorem hasTag_iff (h : t.category? category = some definitions) (value : String) :
    t.HasTag category value ↔ defines definitions value := by
  rw [defines_iff]
  refine ⟨?_, fun htag => ⟨definitions, h, htag⟩⟩
  rintro ⟨_, h', htag⟩
  rw [h] at h'
  cases h'
  exact htag

instance (t : Taxonomy) (category value : String) : Decidable (t.HasTag category value) :=
  match h : t.category? category with
  | some _ => decidable_of_iff _ (hasTag_iff h value).symm
  | none => .isFalse fun ⟨_, h', _⟩ => by
    rw [h] at h'
    cases h'

theorem category?_eq_none : t.category? category = none ↔ ∀ c ∈ t.categories, c.1 ≠ category := by
  simp only [category?, List.lookup_eq_none_iff, bne_iff_ne, ne_comm]

/-- The tags behind a choice in a category, seen from the tags before it. -/
structure Merged (t : Taxonomy) (category : String) (tags chosen merged : List String) : Prop where
  nodup : merged.Nodup
  /-- The tags of other categories are those that there were. -/
  others : Firsts (tags.filter (¬ t.HasTag category ·)) (merged.filter (¬ t.HasTag category ·))
  /-- The tags of the category are the chosen ones. -/
  ofCategory : Firsts chosen (merged.filter (t.HasTag category ·))
  /-- The chosen ones come last. -/
  parted : merged.filter (¬ t.HasTag category ·) ++ merged.filter (t.HasTag category ·) = merged
  only : ∀ v ∈ merged, v ∈ tags ∧ ¬ t.HasTag category v ∨ v ∈ chosen

theorem Merged.unique {merged' : List String} (h : t.Merged category tags chosen merged)
    (h' : t.Merged category tags chosen merged') : merged = merged' := by
  rw [← h.parted, ← h'.parted, h.others.unique h'.others, h.ofCategory.unique h'.ofCategory]

/-- Of the tags before the choice only those of other categories count. -/
theorem Merged.absorb {earlier later : List String} (h : t.Merged category tags earlier merged)
    {again : List String} (h' : t.Merged category merged later again) :
    t.Merged category tags later again where
  nodup := h'.nodup
  others := by
    have hself := Firsts.of_nodup (h.nodup.filter (fun v => decide (¬ t.HasTag category v)))
    rw [← hself.unique h'.others]
    exact h.others
  ofCategory := h'.ofCategory
  parted := h'.parted
  only v hv := by
    refine (h'.only v hv).imp_left fun ⟨hmem, hother⟩ => ⟨?_, hother⟩
    have hfilter : v ∈ merged.filter (¬ t.HasTag category ·) := by simp [hmem, hother]
    exact List.mem_of_mem_filter ((h.others.mem v).mp hfilter)

theorem merge_of_category?_none (h : t.category? category = none) (tags chosen : List String) :
    t.merge tags category chosen = .error (.invalidInput ("Unknown tag category: " ++ category)) := by
  simp only [merge, h]

theorem merge_of_category? (h : t.category? category = some definitions)
    (tags chosen : List String) :
    t.merge tags category chosen =
      if ∀ v ∈ chosen, t.HasTag category v then
        .ok ((tags.filter (¬ t.HasTag category ·)) ++ chosen).eraseDups
      else .error (.invalidInput ("Tag(s) not in category " ++ category ++ ": " ++
        ", ".intercalate (chosen.filter (¬ t.HasTag category ·)))) := by
  have hdefines : (fun v => !defines definitions v) = fun v => decide (¬ t.HasTag category v) := by
    funext v
    rw [decide_not, Bool.not_inj_iff, Bool.eq_iff_iff, decide_eq_true_iff, hasTag_iff h]
  have hnone : (chosen.filter (¬ t.HasTag category ·)).isEmpty ↔
      ∀ v ∈ chosen, t.HasTag category v := by
    simp [List.filter_eq_nil_iff]
  simp only [merge, h]
  rw [hdefines]
  by_cases hall : ∀ v ∈ chosen, t.HasTag category v
  · rw [if_pos (hnone.mpr hall), if_pos hall]
  · rw [if_neg (mt hnone.mp hall), if_neg hall]

theorem filter_parted {α : Type} (p : α → Prop) [DecidablePred p] {left right : List α}
    (hleft : ∀ v ∈ left, ¬ p v) (hright : ∀ v ∈ right, p v) :
    (left ++ right).filter (¬ p ·) = left ∧ (left ++ right).filter p = right := by
  rw [List.filter_append, List.filter_append,
    List.filter_eq_self.mpr fun v hv => decide_eq_true (hleft v hv),
    List.filter_eq_self.mpr fun v hv => decide_eq_true (hright v hv),
    List.filter_eq_nil_iff.mpr fun v hv => by simpa using hright v hv,
    List.filter_eq_nil_iff.mpr fun v hv => by simpa using hleft v hv]
  exact ⟨List.append_nil left, List.nil_append right⟩

theorem merged_eraseDups (hall : ∀ v ∈ chosen, t.HasTag category v) (tags : List String) :
    t.Merged category tags chosen
      ((tags.filter (¬ t.HasTag category ·)) ++ chosen).eraseDups := by
  generalize hothers : tags.filter (¬ t.HasTag category ·) = others
  have hnot : ∀ v ∈ others, v ∈ tags ∧ ¬ t.HasTag category v := by
    rintro v hv
    simpa [← hothers] using hv
  -- no chosen tag is among the others, so each part is freed of its own repetitions
  have hremoved : chosen.removeAll others = chosen :=
    List.filter_eq_self.mpr fun v hv => by simpa using fun hmem => (hnot v hmem).2 (hall v hv)
  have hsplit : (others ++ chosen).eraseDups = others.eraseDups ++ chosen.eraseDups := by
    rw [List.eraseDups_append, hremoved]
  have hothers' : ∀ v ∈ others.eraseDups, ¬ t.HasTag category v :=
    fun v hv => (hnot v (List.mem_eraseDups.mp hv)).2
  have hchosen : ∀ v ∈ chosen.eraseDups, t.HasTag category v :=
    fun v hv => hall v (List.mem_eraseDups.mp hv)
  obtain ⟨hleft, hright⟩ := filter_parted (t.HasTag category) hothers' hchosen
  refine ⟨(Firsts.eraseDups _).nodup, ?_, ?_, ?_, fun v hv => ?_⟩
  · rw [hsplit, hleft, hothers]
    exact .eraseDups others
  · rw [hsplit, hright]
    exact .eraseDups chosen
  · rw [hsplit, hleft, hright]
  · exact (List.mem_append.mp (List.mem_eraseDups.mp hv)).imp_left (hnot v)

/-- A merge succeeds with the tags that the choice leaves, and only with these. -/
theorem merge_eq_ok_iff : t.merge tags category chosen = .ok merged ↔
    (t.category? category).isSome ∧ (∀ v ∈ chosen, t.HasTag category v) ∧
      t.Merged category tags chosen merged := by
  cases h : t.category? category with
  | none => simp [merge_of_category?_none h]
  | some definitions =>
    rw [merge_of_category? h]
    by_cases hall : ∀ v ∈ chosen, t.HasTag category v
    · rw [if_pos hall]
      have hmerged := merged_eraseDups hall tags
      constructor
      · rintro ⟨⟩
        exact ⟨rfl, hall, hmerged⟩
      · exact fun ⟨_, _, hm⟩ => congrArg Except.ok (hmerged.unique hm)
    · rw [if_neg hall]
      exact ⟨nofun, fun ⟨_, hall', _⟩ => absurd hall' hall⟩

/-- After a choice the next one in the same category has the effect that it had without it. -/
theorem merge_merged (h : t.Merged category tags chosen merged) (later : List String) :
    t.merge merged category later = t.merge tags category later := by
  cases hc : t.category? category with
  | none => rw [merge_of_category?_none hc, merge_of_category?_none hc]
  | some definitions =>
    rw [merge_of_category? hc, merge_of_category? hc]
    by_cases hall : ∀ v ∈ later, t.HasTag category v
    · rw [if_pos hall, if_pos hall]
      have hlater := merged_eraseDups hall merged
      exact congrArg Except.ok ((h.absorb hlater).unique (merged_eraseDups hall tags))
    · rw [if_neg hall, if_neg hall]

/-- What a merge gives, and when it is refused. -/
structure MergesByCategory (t : Taxonomy) (tags : List String) (category : String)
    (chosen : List String) : Prop where
  refused : (∃ e, t.merge tags category chosen = .error e) ↔
    (∀ c ∈ t.categories, c.1 ≠ category) ∨ ∃ v ∈ chosen, ¬ t.HasTag category v
  unknown : (∀ c ∈ t.categories, c.1 ≠ category) → t.merge tags category chosen =
    .error (.invalidInput ("Unknown tag category: " ++ category))
  /-- All values that are not in the category are named, in their order. -/
  foreign : (∃ c ∈ t.categories, c.1 = category) → (∃ v ∈ chosen, ¬ t.HasTag category v) →
    t.merge tags category chosen = .error (.invalidInput
      ("Tag(s) not in category " ++ category ++ ": " ++
        ", ".intercalate (chosen.filter (¬ t.HasTag category ·))))
  merged : ∀ m, t.merge tags category chosen = .ok m → t.Merged category tags chosen m
  /-- The same choice again changes nothing. -/
  again : ∀ m, t.merge tags category chosen = .ok m → t.merge m category chosen = .ok m
  /-- An earlier choice leaves no trace in a later one. -/
  absorbed : ∀ m, t.merge tags category chosen = .ok m →
    ∀ later, t.merge m category later = t.merge tags category later

/-- A merge replaces the tags of one category and no others. -/
theorem mergesByCategory (t : Taxonomy) (tags : List String) (category : String)
    (chosen : List String) : t.MergesByCategory tags category chosen where
  refused := by
    rw [← category?_eq_none]
    cases h : t.category? category with
    | none => simp [merge_of_category?_none h]
    | some definitions =>
      rw [merge_of_category? h]
      by_cases hall : ∀ v ∈ chosen, t.HasTag category v
      · simpa [if_pos hall] using hall
      · simpa [if_neg hall] using hall
  unknown h := merge_of_category?_none (category?_eq_none.mpr h) tags chosen
  foreign h hforeign := by
    cases hc : t.category? category with
    | none =>
      obtain ⟨c, hmem, hname⟩ := h
      exact absurd hname (category?_eq_none.mp hc c hmem)
    | some definitions =>
      rw [merge_of_category? hc, if_neg (by simpa using hforeign)]
  merged _ h := (merge_eq_ok_iff.mp h).2.2
  again _ h := (merge_merged (merge_eq_ok_iff.mp h).2.2 chosen).trans h
  absorbed _ h := merge_merged (merge_eq_ok_iff.mp h).2.2

end Taxonomy

end SiteConfig
