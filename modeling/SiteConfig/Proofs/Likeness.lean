import Mathlib.Data.List.Forall2
import SiteConfig.Proofs.Locality
import SiteConfig.Proofs.Shown
import SiteConfig.Proofs.Values

/-!
Reads do not depend on positions, nor on what is blank: what a node of one config and a node of
another one stand for is read alike if their trees differ in nothing else.
-/

namespace SiteConfig

variable {α β γ : Type}

theorem forall₂_of_map_eq {f : α → γ} {g : β → γ} {as : List α} {bs : List β}
    (h : as.map f = bs.map g) : List.Forall₂ (fun a b => f a = g b) as bs := by
  have heq : List.Forall₂ Eq (as.map f) (bs.map g) := by
    rw [List.forall₂_eq_eq_eq]
    exact h
  rwa [List.forall₂_map_left_iff, List.forall₂_map_right_iff] at heq

theorem filterMap_of_forall₂ {R : α → β → Prop} {f : α → Option γ} {g : β → Option γ} {as : List α}
    {bs : List β} (h : List.Forall₂ R as bs) (hfg : ∀ a b, R a b → f a = g b) :
    as.filterMap f = bs.filterMap g := by
  induction h with
  | nil => rfl
  | cons hab _ ih => simp only [List.filterMap_cons, hfg _ _ hab, ih]

theorem forall₂_find? {R : α → β → Prop} {f : α → Bool} {g : β → Bool} {as : List α} {bs : List β}
    (h : List.Forall₂ R as bs) (hfg : ∀ a b, R a b → f a = g b) :
    Option.Rel R (as.find? f) (bs.find? g) := by
  induction h with
  | nil => exact .none
  | @cons a b as bs hab _ ih =>
    rw [List.find?_cons, List.find?_cons, ← hfg a b hab]
    cases f a with
    | true => exact .some hab
    | false => exact ih

theorem forall₂_findSome? {R : α → β → Prop} {δ : Type} {S : γ → δ → Prop} {f : α → Option γ}
    {g : β → Option δ} {as : List α} {bs : List β} (h : List.Forall₂ R as bs)
    (hfg : ∀ a b, R a b → Option.Rel S (f a) (g b)) :
    Option.Rel S (as.findSome? f) (bs.findSome? g) := by
  induction h with
  | nil => exact .none
  | @cons a b as bs hab _ ih =>
    have hfound := hfg a b hab
    rw [List.findSome?_cons, List.findSome?_cons]
    generalize f a = found at hfound
    generalize g b = found' at hfound
    cases hfound with
    | none => exact ih
    | some hs => exact .some hs

theorem mapM_of_forall₂ {R : α → β → Prop} {f : α → Option γ} {g : β → Option γ} {as : List α}
    {bs : List β} (h : List.Forall₂ R as bs) (hfg : ∀ a b, R a b → f a = g b) :
    as.mapM f = bs.mapM g := by
  induction h with
  | nil => rfl
  | cons hab _ ih => simp only [List.mapM_cons, hfg _ _ hab, ih]

theorem forall₂_zipIdx {R : α → β → Prop} {as : List α} {bs : List β} (h : List.Forall₂ R as bs)
    (n : Nat) :
    List.Forall₂ (fun a b => a.2 = b.2 ∧ R a.1 b.1) (as.zipIdx n) (bs.zipIdx n) := by
  induction h generalizing n with
  | nil => exact .nil
  | cons hab _ ih => exact .cons ⟨rfl, hab⟩ (ih (n + 1))

namespace PropertyBody

/-- The same key with related values, or the same text. -/
inductive Lifts (R : α → β → Prop) : PropertyBody α → PropertyBody β → Prop where
  | assignment (key : PropertyKey) {value : α} {value' : β} (h : R value value') :
    Lifts R (.assignment key value) (.assignment key value')
  | irregular (shape : IrregularShape) (text : String) :
    Lifts R (.irregular shape text) (.irregular shape text)

end PropertyBody

namespace Property

variable {R : α → β → Prop} {p : Property α} {p' : Property β}

theorem binds_of_lifts (h : p.body.Lifts R p'.body) (key : String) : p.binds key = p'.binds key := by
  obtain ⟨body, position, trivia⟩ := p
  obtain ⟨body', position', trivia'⟩ := p'
  obtain ⟨key, h⟩ | ⟨shape, text⟩ := h <;> rfl

theorem value?_of_lifts (h : p.body.Lifts R p'.body) : Option.Rel R p.value? p'.value? := by
  obtain ⟨body, position, trivia⟩ := p
  obtain ⟨body', position', trivia'⟩ := p'
  obtain ⟨key, h⟩ | ⟨shape, text⟩ := h
  · exact .some h
  · exact .none

end Property

namespace Expr

/-- The same constructor, over operands that are related one by one. -/
inductive Lifts (R : α → β → Prop) : Expr α → Expr β → Prop where
  | string (value : String) : Lifts R (.string value) (.string value)
  | boolean (value : Bool) : Lifts R (.boolean value) (.boolean value)
  | identifier (name : String) : Lifts R (.identifier name) (.identifier name)
  | verbatim (text : String) : Lifts R (.verbatim text) (.verbatim text)
  | member {object : α} {object' : β} (property : String) (h : R object object') :
    Lifts R (.member object property) (.member object' property)
  | assignment {left right : α} {left' right' : β} (hl : R left left') (hr : R right right') :
    Lifts R (.assignment left right) (.assignment left' right')
  | call {callee : α} {callee' : β} {arguments : List α} {arguments' : List β}
    (hc : R callee callee') (ha : List.Forall₂ R arguments arguments') :
    Lifts R (.call callee arguments) (.call callee' arguments')
  | array {elements : List (Element α)} {elements' : List (Element β)}
    (dangling dangling' : List Comment)
    (h : List.Forall₂ (fun e e' => R e.value e'.value) elements elements') :
    Lifts R (.array elements dangling) (.array elements' dangling')
  | object {properties : List (Property α)} {properties' : List (Property β)}
    (dangling dangling' : List Comment)
    (h : List.Forall₂ (fun p p' => p.body.Lifts R p'.body) properties properties') :
    Lifts R (.object properties dangling) (.object properties' dangling')

variable {R : α → β → Prop} {e : Expr α} {e' : Expr β}

theorem Lifts.asString? (h : e.Lifts R e') : e.asString? = e'.asString? := by
  cases h <;> rfl

theorem Lifts.asIdentifier? (h : e.Lifts R e') : e.asIdentifier? = e'.asIdentifier? := by
  cases h <;> rfl

end Expr

namespace Tree

theorem strippedArguments_eq_map (f : Bool → Bool) (ts : List Tree) :
    strippedArguments f ts = ts.map (stripped f) := by
  induction ts with
  | nil => rfl
  | cons t rest ih => rw [strippedArguments, ih, List.map_cons]

theorem strippedElements_eq_map (f : Bool → Bool) (es : List (Element Tree)) :
    strippedElements f es = es.map fun e => ⟨stripped f e.value, e.trivia.flagged f⟩ := by
  induction es with
  | nil => rfl
  | cons e rest ih => rw [strippedElements, ih, List.map_cons]

theorem strippedProperties_eq_map (f : Bool → Bool) (ps : List (Property Tree)) :
    strippedProperties f ps =
      ps.map fun p => ⟨strippedBody f p.body, none, p.trivia.flagged f⟩ := by
  induction ps with
  | nil => rfl
  | cons p rest ih => rw [strippedProperties, ih, List.map_cons]

variable {f : Bool → Bool} {g : α → Tree} {g' : β → Tree}

theorem lifts_of_strippedProperty {p : Property α} {p' : Property β}
    (h : strippedBody f (match p.body with
      | .assignment key value => .assignment key (g value)
      | .irregular shape text => .irregular shape text) =
      strippedBody f (match p'.body with
      | .assignment key value => .assignment key (g' value)
      | .irregular shape text => .irregular shape text)) :
    p.body.Lifts (fun a a' => (g a).stripped f = (g' a').stripped f) p'.body := by
  rcases hb : p.body with ⟨key, value⟩ | ⟨shape, text⟩ <;>
    rcases hb' : p'.body with ⟨key', value'⟩ | ⟨shape', text'⟩ <;>
    simp only [hb, hb', strippedBody, PropertyBody.assignment.injEq, PropertyBody.irregular.injEq,
      reduceCtorEq] at h
  · obtain ⟨rfl, hvalue⟩ := h
    exact .assignment key hvalue
  · obtain ⟨rfl, rfl⟩ := h
    exact .irregular shape text

/-- Expressions that are the same but for what is stripped are built alike. -/
theorem lifts_of_stripped {e : Expr α} {e' : Expr β}
    (h : strippedExpr f (e.map g) = strippedExpr f (e'.map g')) :
    e.Lifts (fun a a' => (g a).stripped f = (g' a').stripped f) e' := by
  cases e <;> cases e' <;>
    simp only [Expr.map, strippedExpr, strippedArguments_eq_map, strippedElements_eq_map,
      strippedProperties_eq_map, List.map_map, reduceCtorEq, Expr.string.injEq, Expr.boolean.injEq,
      Expr.identifier.injEq, Expr.verbatim.injEq, Expr.member.injEq, Expr.assignment.injEq,
      Expr.call.injEq, Expr.array.injEq, Expr.object.injEq] at h
  case string => exact h ▸ .string _
  case boolean => exact h ▸ .boolean _
  case identifier => exact h ▸ .identifier _
  case verbatim => exact h ▸ .verbatim _
  case member =>
    obtain ⟨hobject, rfl⟩ := h
    exact .member _ hobject
  case assignment => exact .assignment h.1 h.2
  case call => exact .call h.1 (forall₂_of_map_eq h.2)
  case array =>
    exact .array _ _ ((forall₂_of_map_eq h.1).imp fun _ _ he => congrArg Element.value he)
  case object =>
    exact .object _ _ ((forall₂_of_map_eq h.1).imp fun _ _ hp =>
      lifts_of_strippedProperty (congrArg Property.body hp))

theorem expr_node (position : Option Position) (e : Expr Tree) : (node position e).expr = e := rfl

theorem expr_stripped (f : Bool → Bool) (t : Tree) : (t.stripped f).expr = strippedExpr f t.expr := by
  obtain ⟨position, e⟩ := t
  rfl

theorem asIdentifier?_stripped (f : Bool → Bool) (e : Expr Tree) :
    (strippedExpr f e).asIdentifier? = e.asIdentifier? := by
  cases e <;> rfl

theorem asString?_stripped (f : Bool → Bool) (e : Expr Tree) :
    (strippedExpr f e).asString? = e.asString? := by
  cases e <;> rfl

end Tree

/-! What is stripped twice. -/

theorem Comment.map_flagged (f g : Bool → Bool) (comments : List Comment) :
    (comments.map (Comment.flagged g)).map (Comment.flagged f) =
      comments.map (Comment.flagged (f ∘ g)) := by
  rw [List.map_map]
  rfl

theorem Trivia.flagged_flagged (f g : Bool → Bool) (t : Trivia) :
    (t.flagged g).flagged f = t.flagged (f ∘ g) := by
  simp only [Trivia.flagged, Comment.map_flagged, Function.comp]

namespace Tree

mutual

theorem stripped_stripped (f g : Bool → Bool) : ∀ t : Tree,
    (t.stripped g).stripped f = t.stripped (f ∘ g)
  | .node _ e => by rw [stripped, stripped, stripped, strippedExpr_stripped f g e]

theorem strippedExpr_stripped (f g : Bool → Bool) : ∀ e : Expr Tree,
    strippedExpr f (strippedExpr g e) = strippedExpr (f ∘ g) e
  | .string _ => rfl
  | .boolean _ => rfl
  | .identifier _ => rfl
  | .verbatim _ => rfl
  | .member object _ => by simp only [strippedExpr, stripped_stripped f g object]
  | .assignment left right => by
    simp only [strippedExpr, stripped_stripped f g left, stripped_stripped f g right]
  | .call callee arguments => by
    simp only [strippedExpr, stripped_stripped f g callee, strippedArguments_stripped f g arguments]
  | .array elements _ => by
    simp only [strippedExpr, strippedElements_stripped f g elements, Comment.map_flagged]
  | .object properties _ => by
    simp only [strippedExpr, strippedProperties_stripped f g properties, Comment.map_flagged]

theorem strippedArguments_stripped (f g : Bool → Bool) : ∀ ts : List Tree,
    strippedArguments f (strippedArguments g ts) = strippedArguments (f ∘ g) ts
  | [] => rfl
  | t :: rest => by
    simp only [strippedArguments, stripped_stripped f g t, strippedArguments_stripped f g rest]

theorem strippedElements_stripped (f g : Bool → Bool) : ∀ es : List (Element Tree),
    strippedElements f (strippedElements g es) = strippedElements (f ∘ g) es
  | [] => rfl
  | ⟨value, _⟩ :: rest => by
    simp only [strippedElements, stripped_stripped f g value, Trivia.flagged_flagged,
      strippedElements_stripped f g rest]

theorem strippedProperties_stripped (f g : Bool → Bool) : ∀ ps : List (Property Tree),
    strippedProperties f (strippedProperties g ps) = strippedProperties (f ∘ g) ps
  | [] => rfl
  | ⟨body, _, _⟩ :: rest => by
    simp only [strippedProperties, strippedBody_stripped f g body, Trivia.flagged_flagged,
      strippedProperties_stripped f g rest]

theorem strippedBody_stripped (f g : Bool → Bool) : ∀ b : PropertyBody Tree,
    strippedBody f (strippedBody g b) = strippedBody (f ∘ g) b
  | .assignment _ value => by simp only [strippedBody, stripped_stripped f g value]
  | .irregular _ _ => rfl

end

end Tree

theorem Program.unspaced_unplaced (p : Program Tree) : p.unplaced.unspaced = p.unspaced := by
  have hstatement : ∀ s : Statement Tree, strippedStatement (fun _ => false) (strippedStatement id s) =
      strippedStatement (fun _ => false) s := by
    rintro ⟨t | text, trivia⟩ <;>
      simp only [strippedStatement, strippedBody, Tree.stripped_stripped, Trivia.flagged_flagged,
        Function.comp_id]
  simp only [unspaced, unplaced, stripped, List.map_map, Comment.map_flagged_id]
  congr 1
  exact List.map_congr_left fun s _ => hstatement s

/-! What is read of an option. -/

theorem Value.toOption_bind {ε : Type} (x : Except ε α) (k : α → Except ε β) :
    (x >>= k).toOption = x.toOption.bind fun a => (k a).toOption := by
  cases x <;> rfl

theorem Value.toOption_map {ε : Type} (h : α → β) (x : Except ε α) :
    (x.map h).toOption = x.toOption.map h := by
  cases x <;> rfl

namespace Value
open SiteConfig.Tree

variable (path path' : String) (f : Bool → Bool)

theorem pathArgument?_stripped (callee : Tree) (arguments : List Tree) :
    pathArgument? (callee.stripped f) (strippedArguments f arguments) =
      pathArgument? callee arguments := by
  obtain ⟨position, e⟩ := callee
  cases e with
  | member object property =>
    rcases arguments with _ | ⟨directory, _ | ⟨target, _ | ⟨other, rest⟩⟩⟩
    · rfl
    · rfl
    · simp only [pathArgument?, stripped, strippedArguments, strippedExpr, expr_node,
        expr_stripped, asIdentifier?_stripped, asString?_stripped]
    · rfl
  | _ => rfl

mutual

theorem decode_stripped : ∀ t : Tree,
    (decode path' (t.stripped f)).toOption = (decode path t).toOption
  | .node position e => decodeExpr_stripped none position e

theorem decodeExpr_stripped (position position' : Option Position) : ∀ e : Expr Tree,
    (decodeExpr path' position (strippedExpr f e)).toOption = (decodeExpr path position' e).toOption
  | .string _ => rfl
  | .boolean _ => rfl
  | .identifier _ => rfl
  | .verbatim _ => rfl
  | .member _ _ => rfl
  | .assignment _ _ => rfl
  | .call callee arguments => by
    rw [strippedExpr, decodeExpr, decodeExpr, pathArgument?_stripped]
    cases pathArgument? callee arguments <;> rfl
  | .array elements dangling => by
    rw [strippedExpr, decodeExpr, decodeExpr, toOption_map, toOption_map,
      decodeElements_stripped elements]
  | .object properties dangling => by
    rw [strippedExpr, decodeExpr, decodeExpr, toOption_map, toOption_map,
      decodeProperties_stripped properties]

theorem decodeElements_stripped : ∀ elements : List (Element Tree),
    (decodeElements path' (strippedElements f elements)).toOption =
      (decodeElements path elements).toOption
  | [] => rfl
  | ⟨value, trivia⟩ :: rest => by
    simp only [strippedElements, decodeElements, toOption_bind, decode_stripped value,
      decodeElements_stripped rest]

theorem decodeProperties_stripped : ∀ properties : List (Property Tree),
    (decodeProperties path' (strippedProperties f properties)).toOption =
      (decodeProperties path properties).toOption
  | [] => rfl
  | ⟨body, position, trivia⟩ :: rest => by
    simp only [strippedProperties, decodeProperties, toOption_bind,
      decodeBody_stripped none position body, decodeProperties_stripped rest]

theorem decodeBody_stripped (position position' : Option Position) : ∀ body : PropertyBody Tree,
    (decodeBody path' position (strippedBody f body)).toOption =
      (decodeBody path position' body).toOption
  | .assignment key value => by
    simp only [strippedBody, decodeBody, toOption_bind, decode_stripped value]
  | .irregular _ _ => rfl

end

end Value

namespace Record
open SiteConfig.Tree

variable (path path' : String) (f : Bool → Bool) (t : Tree)

theorem decode_stripped : (decode path' (t.stripped f)).toOption = (decode path t).toOption := by
  obtain ⟨position, e⟩ := t
  cases e with
  | object properties dangling =>
    simp only [decode, stripped, strippedExpr, Tree.expr, Expr.asObject?, Value.toOption_map,
      Value.decodeProperties_stripped path path' f]
  | _ => rfl

theorem decodeAll_stripped :
    (decodeAll path' (t.stripped f)).value = (decodeAll path t).value := by
  obtain ⟨position, e⟩ := t
  cases e with
  | object properties dangling =>
    simp only [decodeAll, stripped, strippedExpr, Tree.expr, Expr.asObject?,
      strippedProperties_eq_map, List.map_map, List.filterMap_map]
    congr 1
    exact List.filterMap_congr fun p _ => Value.decodeBody_stripped path path' f none p.position p.body
  | _ => rfl

end Record

end SiteConfig
