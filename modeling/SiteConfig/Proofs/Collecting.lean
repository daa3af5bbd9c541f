import SiteConfig.Proofs.Values
import SiteConfig.Proofs.Walks

/-!
An object of options can be read up to its first problem, or as far as it goes with every problem
reported. Both read the members one by one and in order, so that they differ in what becomes of the
members that are no options, and in nothing else.
-/

namespace SiteConfig

namespace Report

variable {α β : Type}

theorem toResult_eq_error_iff {r : Report α} {e : ConfigError} :
    r.toResult = .error e ↔ r.errors.head? = some e := by
  unfold toResult
  split <;> simp_all

theorem toResult_map (f : α → β) (r : Report α) : (r.map f).toResult = r.toResult.map f := by
  obtain ⟨value, errors⟩ := r
  cases errors <;> rfl

/-- The values of the results that are good, and the problems of the others. -/
def ofResults (results : List (Result α)) : Report (List α) where
  value := results.filterMap Except.toOption
  errors := results.filterMap fun
    | .ok _ => none
    | .error e => some e

theorem toResult_ofResults_ok_cons (a : α) (rest : List (Result α)) :
    (ofResults (.ok a :: rest)).toResult = (ofResults rest).toResult.map (a :: ·) :=
  toResult_map (a :: ·) (ofResults rest)

theorem ofResults_map_ok (values : List α) : ofResults (values.map .ok) = ⟨values, []⟩ := by
  induction values with
  | nil => rfl
  | cons a rest ih =>
    obtain ⟨hvalue, herrors⟩ := Report.mk.inj ih
    exact congrArg₂ Report.mk (congrArg (a :: ·) hvalue) herrors

/-- The values are those of the good results, in their order. -/
theorem filter_isOk (results : List (Result α)) :
    results.filter (·.isOk) = (ofResults results).value.map .ok := by
  induction results with
  | nil => rfl
  | cons r rest ih =>
    cases r with
    | ok a => exact congrArg (.ok a :: ·) ih
    | error e => exact ih

/-- There is one problem for each of the other results, in their order. -/
theorem filter_not_isOk (results : List (Result α)) :
    results.filter (! ·.isOk) = (ofResults results).errors.map .error := by
  induction results with
  | nil => rfl
  | cons r rest ih =>
    cases r with
    | ok a => exact ih
    | error e => exact congrArg (.error e :: ·) ih

end Report

namespace Record

/-- Whether a member of an object is an option. -/
def decodes (path : String) (p : Property Tree) : Bool :=
  (decodeProperty path p).isOk

/-- Members are read up to the first one that is no option. -/
theorem decodeProperties_eq (path : String) (properties : List (Property Tree)) :
    Value.decodeProperties path properties =
      (Report.ofResults (properties.map (decodeProperty path))).toResult := by
  induction properties with
  | nil => rfl
  | cons p rest ih =>
    rw [List.map_cons, Value.decodeProperties, ih, decodeProperty]
    cases Value.decodeBody path p.position p.body with
    | error e => rfl
    | ok a =>
      rw [Report.toResult_ofResults_ok_cons]
      cases (Report.ofResults (rest.map (decodeProperty path))).toResult <;> rfl

variable {path : String} {t : Tree} {properties : List (Property Tree)} {dangling : List Comment}

theorem decodeAll_of_asObject? (hp : t.expr.asObject? = some properties) :
    decodeAll path t = (Report.ofResults (properties.map (decodeProperty path))).map ofEntries := by
  unfold decodeAll
  rw [hp]
  exact congrArg (Report.mk _) (List.filterMap_congr fun r _ => by cases r <;> rfl)

theorem decodeAll_object (ht : t.expr = .object properties dangling) :
    decodeAll path t = (Report.ofResults (properties.map (decodeProperty path))).map ofEntries :=
  decodeAll_of_asObject? (by rw [ht]; rfl)

/-- To read up to the first problem is to read all and then look at the first problem. -/
theorem decode_eq (path : String) (t : Tree) : decode path t = (decodeAll path t).toResult := by
  cases hp : t.expr.asObject? with
  | none => simp only [decode, decodeAll, hp, Report.toResult]
  | some properties =>
    rw [decodeAll_of_asObject? hp, Report.toResult_map, ← decodeProperties_eq]
    simp only [decode, hp]

/-- Each problem is the one of a member that is no option, and each such member has its own. -/
theorem errors_decodeAll (ht : t.expr = .object properties dangling) :
    List.Forall₂ (fun p e => decodeProperty path p = .error e)
      (properties.filter (! decodes path ·)) (decodeAll path t).errors := by
  have hfilter : (properties.filter (! decodes path ·)).map (decodeProperty path) =
      (decodeAll path t).errors.map .error := by
    rw [decodeAll_object ht, Report.map, ← Report.filter_not_isOk, List.filter_map]
    rfl
  rwa [← List.forall₂_eq_eq_eq, List.forall₂_map_left_iff, List.forall₂_map_right_iff] at hfilter

/-- Without the members that are no options the others are read in full. -/
theorem decode_kept (ht : t.expr = .object properties dangling) (position : Option Position) :
    decode path (.node position (.object (properties.filter (decodes path)) dangling)) =
      .ok (decodeAll path t).value := by
  have hkept : (properties.filter (decodes path)).map (decodeProperty path) =
      (Report.ofResults (properties.map (decodeProperty path))).value.map .ok := by
    rw [← Report.filter_isOk, List.filter_map]
    rfl
  rw [decode_eq, decodeAll_object rfl, hkept, Report.ofResults_map_ok, decodeAll_object ht]
  rfl

end Record

namespace Forest

variable {f : Forest} {x : NodeId} {e : Expr NodeId}

/-- A node that loses operands has no more below it than before. -/
theorem Acyclic.set (h : f.Acyclic) (hx : x.index < f.size)
    (he : ∀ o ∈ e.operands, o ∈ (f.expr x).operands) : (f.set x e).Acyclic := by
  obtain ⟨rank, hr⟩ := h
  have hold : ∀ y o, o ∈ ((f.set x e).expr y).operands → o ∈ (f.expr y).operands := by
    intro y o ho
    by_cases hy : y = x
    · subst hy
      rw [expr_set hx] at ho
      exact he o ho
    · rwa [expr, node_set_ne e hy] at ho
  refine ⟨rank, fun y o ho => ?_, fun y o ho => hr.descends y o (hold y o ho)⟩
  rw [size_set]
  exact hr.issued y o (hold y o ho)

/-- The operands that are left show what they did. -/
theorem tree_set_operand (h : f.Acyclic) (hx : x.index < f.size)
    (he : ∀ o ∈ e.operands, o ∈ (f.expr x).operands) {o : NodeId} (ho : o ∈ e.operands) :
    (f.set x e).tree o = f.tree o := by
  refine tree_congr h (h.set hx he) fun y hy => node_set_ne e ?_
  rintro rfl
  exact h.not_below_operand (he o ho) hy

end Forest

namespace Document

variable {d : Document} {x : NodeId} {properties : List (Property NodeId)}
  {dangling : List Comment}

/-- Whether the member of an object of a config is an option. -/
def decodes (d : Document) (p : Property NodeId) : Bool :=
  Record.decodes d.path (d.propertyTree p)

/-- The config with the members of an object taken out that are no options. -/
theorem tree_set_kept (hd : d.Sound) (he : d.expr x = .object properties dangling)
    (keep : Property NodeId → Bool) :
    (d.set x (.object (properties.filter keep) dangling)).tree x =
      .node (d.forest.position x)
        (.object ((properties.filter keep).map d.propertyTree) dangling) := by
  have hx : x.index < d.forest.size := issued_of_expr_object he
  have hsub : ∀ o ∈ (Expr.object (properties.filter keep) dangling).operands,
      o ∈ (d.forest.expr x).operands := by
    intro o ho
    have hex : d.forest.expr x = .object properties dangling := he
    rw [hex]
    exact ((List.filter_sublist).filterMap _).subset ho
  have hacyclic := hd.acyclic.set hx hsub
  have hmap : (Expr.object (properties.filter keep) dangling).map
      (d.set x (.object (properties.filter keep) dangling)).tree =
        (Expr.object (properties.filter keep) dangling).map d.tree :=
    Expr.map_congr fun o ho => Forest.tree_set_operand hd.acyclic hx hsub ho
  have htree := Forest.tree_eq hacyclic x
  rw [Forest.expr_set hx, Forest.position_set] at htree
  refine htree.trans ?_
  rw [← map_object]
  exact congrArg _ hmap

/-- Options read up to the first problem are the options read as far as they go, if no problem was
met; else the reading ends with the first of the problems. On an object the problems are those of
the members that are no options, one for each and in their order, and the record is what is read,
with no problem, once these members are gone: from the object without them, and from the config in
which they were taken out of the object. -/
theorem decode_collects (d : Document) (x : NodeId) :
    let all := Record.decodeAll d.path (d.tree x)
    Record.decode d.path (d.tree x) = all.toResult ∧
      (∀ r, Record.decode d.path (d.tree x) = .ok r ↔ all.errors = [] ∧ all.value = r) ∧
      (∀ e, Record.decode d.path (d.tree x) = .error e ↔ all.errors.head? = some e) ∧
      (∀ properties dangling, (d.tree x).expr = .object properties dangling →
        List.Forall₂ (fun p e => Record.decodeProperty d.path p = .error e)
          (properties.filter (! Record.decodes d.path ·)) all.errors ∧
        Record.decode d.path (.node (d.tree x).position
          (.object (properties.filter (Record.decodes d.path)) dangling)) = .ok all.value) ∧
      (d.Sound → ∀ properties dangling, d.expr x = .object properties dangling →
        let d' := d.set x (.object (properties.filter d.decodes) dangling)
        Record.decode d'.path (d'.tree x) = .ok all.value) := by
  intro all
  have hresult : Record.decode d.path (d.tree x) = all.toResult :=
    Record.decode_eq d.path (d.tree x)
  refine ⟨hresult, fun r => ?_, fun e => ?_, fun properties dangling ht => ⟨?_, ?_⟩,
    fun hd properties dangling he => ?_⟩
  · rw [hresult]
    exact Report.toResult_eq_ok_iff
  · rw [hresult]
    exact Report.toResult_eq_error_iff
  · exact Record.errors_decodeAll ht
  · exact Record.decode_kept ht (d.tree x).position
  -- no member lies above its own object, so the ones that are left show what they did
  · have ht : (d.tree x).expr = .object (properties.map d.propertyTree) dangling := by
      rw [tree_of_expr hd, he, map_object]
      rfl
    have hkept : Record.decode d.path _ = _ := Record.decode_kept ht (d.forest.position x)
    rw [List.filter_map] at hkept
    intro d'
    rw [show d'.tree x = _ from tree_set_kept hd he d.decodes]
    exact hkept

/-- The config `module.exports = { a: 1, n: true, ...c, n: 'b' };`. -/
def mixedSource : String :=
  "module.exports = \x7b a: 1, n: true, ...c, n: 'b' \x7d;"

def mixedDocument : Document where
  path := "a.js"
  forest := { nodes := #[
    { expr := .identifier "module", position := some ⟨1, 1⟩ },
    { expr := .member ⟨0⟩ "exports", position := some ⟨1, 1⟩ },
    { expr := .verbatim "1", position := some ⟨1, 23⟩ },
    { expr := .boolean true, position := some ⟨1, 29⟩ },
    { expr := .string "b", position := some ⟨1, 44⟩ },
    { expr := .object [
        { body := .assignment ⟨"a", .identifier⟩ ⟨2⟩, position := some ⟨1, 20⟩ },
        { body := .assignment ⟨"n", .identifier⟩ ⟨3⟩, position := some ⟨1, 26⟩ },
        { body := .irregular .spread "...c", position := some ⟨1, 35⟩ },
        { body := .assignment ⟨"n", .identifier⟩ ⟨4⟩, position := some ⟨1, 41⟩ }] []
      position := some ⟨1, 18⟩ },
    { expr := .assignment ⟨1⟩ ⟨5⟩, position := some ⟨1, 1⟩ }] }
  program := { statements := [{ body := .expression ⟨6⟩ }] }

set_option maxRecDepth 8000 in
theorem ofSource_mixedSource : ofSource mixedSource "a.js" = .ok mixedDocument := by cbv

/-- Two of the four members are no options, and the other two give one name. -/
theorem decode_collects_mixedDocument :
    let all := Record.decodeAll "a.js" (mixedDocument.tree ⟨5⟩)
    all.value = [("n", .string "b")] ∧
      all.errors = [.unsupported ⟨"a.js", some ⟨1, 23⟩⟩ (Value.kindProblem (.verbatim "1")),
        .unsupported ⟨"a.js", some ⟨1, 35⟩⟩ (Value.shapeProblem .spread)] ∧
      Record.decode "a.js" (mixedDocument.tree ⟨5⟩) = all.toResult ∧
      (mixedDocument.expr ⟨5⟩).asObject?.isSome ∧ mixedDocument.Sound ∧
      (let kept := mixedDocument.set ⟨5⟩ (.object [
          { body := .assignment ⟨"n", .identifier⟩ ⟨3⟩, position := some ⟨1, 26⟩ },
          { body := .assignment ⟨"n", .identifier⟩ ⟨4⟩, position := some ⟨1, 41⟩ }] [])
      Record.decode "a.js" (kept.tree ⟨5⟩) = .ok all.value) := by
  have hsound : mixedDocument.Sound :=
    (Reached.opened ofSource_mixedSource : mixedDocument.Reached).sound
  obtain ⟨hresult, -, -, -, hkept⟩ := decode_collects mixedDocument ⟨5⟩
  exact ⟨rfl, rfl, hresult, rfl, hsound, hkept hsound _ _ rfl⟩

end Document

end SiteConfig
