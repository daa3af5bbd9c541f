import Mathlib
import SiteConfig.Proofs.Denoting
import SiteConfig.Proofs.Grouping
import SiteConfig.Proofs.Likeness
import SiteConfig.Proofs.Phrasing
import SiteConfig.Proofs.Relayout

/-!
Printing an expression and what it means: the text of an expression that was read, printed and read
again at the same place, denotes a phrase that is grouped alike, unless something is lost when the
phrase is lowered.
-/

namespace SiteConfig

namespace Tree
open Script Layout

mutual

/-- Positions and blank lines are no part of a phrase. -/
theorem phrase_stripped (f : Bool → Bool) : ∀ t : Tree, (t.stripped f).phrase = t.phrase
  | .node _ e => by rw [stripped, phrase, phrase, phraseExpr_stripped f e]

theorem phraseExpr_stripped (f : Bool → Bool) : ∀ e : Expr Tree,
    phraseExpr (strippedExpr f e) = phraseExpr e
  | .string _ => by rw [strippedExpr]
  | .boolean _ => by rw [strippedExpr]
  | .identifier _ => by rw [strippedExpr]
  | .verbatim _ => by rw [strippedExpr]
  | .member object _ => by
    rw [strippedExpr, phraseExpr, phraseExpr, phrase_stripped f object]
  | .assignment left right => by
    rw [strippedExpr, phraseExpr, phraseExpr, phrase_stripped f left, phrase_stripped f right]
  | .call callee arguments => by
    rw [strippedExpr, phraseExpr, phraseExpr, phrase_stripped f callee,
      phraseArguments_stripped f arguments]
  | .array elements _ => by
    rw [strippedExpr, phraseExpr, phraseExpr, phraseElements_stripped f elements]
  | .object properties _ => by
    rw [strippedExpr, phraseExpr, phraseExpr, phraseProperties_stripped f properties]

theorem phraseArguments_stripped (f : Bool → Bool) : ∀ ts : List Tree,
    phraseArguments (strippedArguments f ts) = phraseArguments ts
  | [] => by rw [strippedArguments]
  | t :: rest => by
    rw [strippedArguments, phraseArguments, phraseArguments, phrase_stripped f t,
      phraseArguments_stripped f rest]

theorem phraseElements_stripped (f : Bool → Bool) : ∀ es : List (Element Tree),
    phraseElements (strippedElements f es) = phraseElements es
  | [] => by rw [strippedElements]
  | ⟨value, _⟩ :: rest => by
    rw [strippedElements, phraseElements, phraseElements, phrase_stripped f value,
      phraseElements_stripped f rest]

theorem phraseProperties_stripped (f : Bool → Bool) : ∀ ps : List (Property Tree),
    phraseProperties (strippedProperties f ps) = phraseProperties ps
  | [] => by rw [strippedProperties]
  | ⟨body, _, _⟩ :: rest => by
    rw [strippedProperties, phraseProperties, phraseProperties, phraseBody_stripped f body,
      phraseProperties_stripped f rest]

theorem phraseBody_stripped (f : Bool → Bool) : ∀ body : PropertyBody Tree,
    phraseBody (strippedBody f body) = phraseBody body
  | .assignment _ value => by
    rw [strippedBody, phraseBody, phraseBody, phrase_stripped f value]
  | .irregular _ _ => by rw [strippedBody]

end

theorem phrase_shown (t : Tree) (depth column : Nat) :
    (t.shown depth column).phrase = t.phrase := by
  rw [← phrase_stripped (fun _ => false), stripped_shown, phrase_stripped]

mutual

/-- There is nothing to lower in the phrase of a tree. -/
theorem lowered_phrase : ∀ t : Tree, t.phrase.lowered = t.phrase
  | .node _ e => by rw [phrase, lowered_phraseExpr e]

theorem lowered_phraseExpr : ∀ e : Expr Tree, (phraseExpr e).lowered = phraseExpr e
  | .string value => by rw [phraseExpr, Phrase.lowered, Quoted.unquote_quote]
  | .boolean _ => rfl
  | .identifier _ => rfl
  | .verbatim _ => rfl
  | .member object _ => by rw [phraseExpr, Phrase.lowered, lowered_phrase object]
  | .assignment left right => by
    rw [phraseExpr, Phrase.lowered, lowered_phrase left, lowered_phrase right]
  | .call callee arguments => by
    rw [phraseExpr, Phrase.lowered, lowered_phrase callee, lowered_phraseArguments arguments]
  | .array elements _ => by rw [phraseExpr, Phrase.lowered, lowered_phraseElements elements]
  | .object properties _ => by
    rw [phraseExpr, Phrase.lowered, lowered_phraseProperties properties]

theorem lowered_phraseArguments : ∀ ts : List Tree,
    Phrase.loweredItems (phraseArguments ts) = phraseArguments ts
  | [] => rfl
  | t :: rest => by
    rw [phraseArguments, Phrase.loweredItems, lowered_phrase t, lowered_phraseArguments rest]

theorem lowered_phraseElements : ∀ es : List (Element Tree),
    Phrase.loweredItems (phraseElements es) = phraseElements es
  | [] => rfl
  | ⟨value, _⟩ :: rest => by
    rw [phraseElements, Phrase.loweredItems, lowered_phrase value, lowered_phraseElements rest]

theorem lowered_phraseProperties : ∀ ps : List (Property Tree),
    Phrase.loweredItems (phraseProperties ps) = phraseProperties ps
  | [] => rfl
  | ⟨body, _, _⟩ :: rest => by
    rw [phraseProperties, Phrase.loweredItems, lowered_phraseBody body,
      lowered_phraseProperties rest]

theorem lowered_phraseBody : ∀ body : PropertyBody Tree,
    (phraseBody body).lowered = phraseBody body
  | .assignment key value => by
    have hkey : (Member.key? (.ofKey key)).elim (.ofKey key) .ofKey = NameForm.ofKey key := by
      obtain ⟨name, form⟩ := key
      cases form with
      | string => simp [NameForm.ofKey, Member.key?, Quoted.unquote_quote]
      | _ => rfl
    rw [phraseBody, Phrase.lowered, lowered_phrase value, hkey]
  | .irregular _ _ => rfl

end

end Tree

namespace Script
open Text Layout SiteConfig.Tree

variable {c c' : Cursor} {o : Operand} {place : Place} {n : Nat}

/-- The text between two places denotes the phrase, and the tree is what is left of it when it is
lowered. -/
structure Phrase.Underlies (a : Phrase) (place : Place) (c : Cursor) (t : Tree) (c' : Cursor) :
    Prop where
  denotes : Denotes place c a c'
  lowered : a.lowered = t.phrase

theorem Place.Takes.phrased (hplace : place = .item ∨ place = .value)
    (h : place.Takes (.ofDepth n) false c o c') : o.Phrased place c c' := by
  rcases hplace with rfl | rfl
  · exact (Scan.triple_iff.mp (Grammar.phrased_element (Grammar.phrases (n + 1))) c ⟨rfl, h.1⟩ o c'
      h.2).2
  · exact Expression.read_phrased (Grammar.phrases n) h.1 h.2

namespace Phrase

variable {b base inner : Phrase} {property : String} {role : Role}

theorem of_grouped_parentheses (h : b.grouped role = .parentheses inner) :
    ∃ x, b = .parentheses x := by
  cases b with
  | parentheses x => exact ⟨x, rfl⟩
  | literal text =>
    rw [grouped] at h
    split at h <;> cases h
  | _ =>
    rw [grouped] at h
    cases h

theorem of_grouped_member (h : b.grouped role = .member base property) :
    (∃ x, b = .parentheses x) ∨ ∃ x, b = .member x property ∧ x.grouped .base = base := by
  cases b with
  | parentheses x => exact .inl ⟨x, rfl⟩
  | member x _ =>
    rw [grouped] at h
    cases h
    exact .inr ⟨x, rfl, rfl⟩
  | literal text =>
    rw [grouped] at h
    split at h <;> cases h
  | _ =>
    rw [grouped] at h
    cases h

end Phrase

namespace Denotes

variable {b inner : Phrase} {property : String}

theorem head_parentheses (h : Denotes .object c (.parentheses inner) c') :
    c.rest.head? = some '(' := by
  cases h with
  | parentheses hc => exact hc
  | operand hp => exact absurd rfl hp

/-- Parentheses in front of a name are grouped so only where they are written. -/
theorem head_grouped (h : Denotes .object c b c')
    (hb : b.grouped .free = .member (.parentheses inner) property) :
    c.rest.head? = some '(' := by
  obtain ⟨x, rfl⟩ | ⟨x, rfl, hx⟩ := Phrase.of_grouped_member hb
  · exact h.head_parentheses
  · obtain ⟨y, rfl⟩ := Phrase.of_grouped_parentheses hx
    cases h with
    | member hbase => exact hbase.head_parentheses
    | operand hp => exact absurd rfl hp

/-- An item that is grouped as a name behind an operand stands where the operand may stand. -/
theorem of_item (h : Denotes .item c b c') (hb : b.grouped .free = .member inner property) :
    Denotes .object c b c' := by
  cases h with
  | kept | remark => cases hb
  | operand _ h => exact h
  | value h =>
    cases h with
    | kept | assignment => cases hb
    | operand _ h => exact h

end Denotes

end Script

end SiteConfig
