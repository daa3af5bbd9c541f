import SiteConfig.Proofs.Phrases
import SiteConfig.Proofs.Quoting

/-!
Which parentheses of a phrase group its tokens, and which phrases mean the same once they are
lowered.
-/

namespace SiteConfig

namespace Quoted
open Text

/-- Every escape stands for what `decode` takes it for. An octal digit behind a backslash stands for
the character of its number, unless it is a single zero, and a line separator for nothing. -/
def isStandard : List Char → Bool
  | '\\' :: c :: rest =>
    (!isOctalDigit c || (c = '0' && !(rest.head?.any isDigit))) && c ≠ '\u2028' && c ≠ '\u2029' &&
      isStandard rest
  | _ :: rest => isStandard rest
  | [] => true

theorem isStandard_plain {c : Char} (h : c ≠ '\\') (rest : List Char) :
    isStandard (c :: rest) = isStandard rest := by
  rw [isStandard]
  intro d tail heq
  exact absurd heq h

end Quoted

namespace Script
open Text

/-- Where a phrase stands. -/
inductive Role where
  /-- As an item, a value or the right side of an assignment. -/
  | free
  /-- In front of a name or of arguments. -/
  | base
  /-- As the left side of an assignment. -/
  | target

namespace Lexeme

/-- A text up to the next such mark and with it. A backslash in front takes the mark's force. -/
def upTo (mark : Char) : (escaped : Bool) → Lexeme
  | _, [] => none
  | true, _ :: rest => (upTo mark false rest).map (1 + ·)
  | false, c :: rest => if c = mark then some 1 else (upTo mark (c = '\\') rest).map (1 + ·)

/-- A comment, a string, a template or a single character. What the end of the text may cut off is
none of these. -/
def unit : Lexeme
  | '/' :: '/' :: rest =>
    let n := run (!isCommentEnd ·) rest
    if n < rest.length then some (2 + n) else none
  | '/' :: '*' :: rest => (blockCommentTail rest).map (2 + ·)
  | ['\\'] => none
  | '\\' :: _ :: _ => some 2
  | c :: rest =>
    if c = '\'' || c = '"' || c = '`' then (upTo c false rest).map (1 + ·) else some 1
  | [] => none

end Lexeme

/-- An optional link is in the text outside of its brackets; `taken` of the characters belong to a
comment, a string or a template. -/
def holdsLink : (taken depth : Nat) → List Char → Bool
  | _, _, [] => false
  | taken + 1, depth, _ :: rest => holdsLink taken depth rest
  | 0, depth, c :: rest =>
    let depth' := if c = '(' || c = '[' || c = '\x7b' then depth + 1
      else if c = ')' || c = ']' || c = '\x7d' then depth - 1 else depth
    depth = 0 && Expression.isOptionalLink (c :: rest) ||
      holdsLink ((Lexeme.unit (c :: rest)).elim 0 (· - 1)) depth' rest

/-- An optional link may go on behind the text. A slash may start a regular expression, where
brackets and quotes have no force, so behind one each link counts. -/
def mayChain (text : List Char) : Bool :=
  if '/' ∈ text then text.tails.any Expression.isOptionalLink else holdsLink 0 0 text

namespace NameForm

/-- The key with a string in the house style, if that means the same. -/
def grouped : NameForm → NameForm
  | string text =>
    match Quoted.unquote text with
    | some value => string (if Quoted.isStandard text.toList then Quoted.quote value else text)
    | none => string text
  | form => form

def isFaithful : NameForm → Bool
  | string text => (Quoted.unquote text).isNone || Quoted.isStandard text.toList
  | _ => true

end NameForm

namespace Phrase

/-- A chain of optional links may go on behind the phrase. Parentheses end such a chain. -/
def isChain : Phrase → Bool
  | kept text => mayChain text.toList
  | member base _ => base.isChain
  | call callee _ => callee.isChain
  | _ => false

/-- The phrase is grouped alike with parentheses around it and without. -/
def fits (role : Role) : Phrase → Bool
  | parentheses inner => inner.fits role
  | inner =>
    match role, inner with
    | .base, inner => !inner.isChain
    | .target, array _ => false
    | .target, object _ => false
    | _, _ => true

mutual

/-- The phrase up to the parentheses that group nothing and to the quoting of strings. Two phrases
that are grouped alike mean the same. -/
def grouped (role : Role) : Phrase → Phrase
  | literal text =>
    match Quoted.unquote text with
    | some value => literal (if Quoted.isStandard text.toList then Quoted.quote value else text)
    | none => kept text
  | boolean value => boolean value
  | name text => name text
  | kept text => kept text
  | member base property => member (base.grouped .base) property
  | call callee arguments => call (callee.grouped .base) (groupedItems arguments)
  | assignment left right => assignment (left.grouped .target) (right.grouped .free)
  | array elements => array (groupedItems elements)
  | object properties => object (groupedItems properties)
  | pair key value => pair key.grouped (value.grouped .free)
  | parentheses inner =>
    if inner.fits role then inner.grouped role else parentheses (inner.grouped .free)
  | remark text => remark text

def groupedItems : List (Option Phrase) → List (Option Phrase)
  | [] => []
  | none :: rest => none :: groupedItems rest
  | some item :: rest => some (item.grouped .free) :: groupedItems rest

end

mutual

/-- Nothing that the meaning depends on is lost when the phrase is lowered: no slot is empty, no
parentheses end a chain or surround a pattern, strings have standard escapes only, and no page
comment stands for an item. -/
def isFaithful (role : Role) : Phrase → Bool
  | literal text => (Quoted.unquote text).isNone || Quoted.isStandard text.toList
  | boolean _ => true
  | name _ => true
  | kept _ => true
  | member base _ => base.isFaithful .base
  | call callee arguments => callee.isFaithful .base && areFaithful arguments
  | assignment left right => left.isFaithful .target && right.isFaithful .free
  | array elements => areFaithful elements
  | object properties => areFaithful properties
  | pair key value => key.isFaithful && value.isFaithful .free
  | parentheses inner => inner.fits role && inner.isFaithful role
  | remark _ => false

def areFaithful : List (Option Phrase) → Bool
  | [] => true
  | none :: _ => false
  | some item :: rest => item.isFaithful .free && areFaithful rest

end

theorem grouped_key {key : NameForm} (h : key.isFaithful) :
    NameForm.grouped ((Member.key? key).elim key .ofKey) = key.grouped := by
  cases key with
  | string text =>
    cases hv : Quoted.unquote text with
    | none => simp [Member.key?, hv]
    | some value =>
      simp only [NameForm.isFaithful, hv, Option.isNone_some, Bool.false_or] at h
      simp [Member.key?, hv, NameForm.ofKey, NameForm.grouped, Quoted.unquote_quote, h]
  | _ => rfl

mutual

/-- A phrase that loses nothing is grouped as it is without its parentheses. -/
theorem grouped_lowered : ∀ (role : Role) (a : Phrase), a.isFaithful role →
    a.lowered.grouped role = a.grouped role
  | _, literal text, h => by
    cases hv : Quoted.unquote text with
    | none => simp [lowered, grouped, hv]
    | some value =>
      simp only [isFaithful, hv, Option.isNone_some, Bool.false_or] at h
      simp [lowered, grouped, hv, Quoted.unquote_quote, h]
  | _, boolean _, _ => rfl
  | _, name _, _ => rfl
  | _, kept _, _ => rfl
  | _, member base _, h => by
    rw [isFaithful] at h
    simp only [lowered, grouped, grouped_lowered .base base h]
  | _, call callee arguments, h => by
    simp only [isFaithful, Bool.and_eq_true] at h
    simp only [lowered, grouped, grouped_lowered .base callee h.1,
      groupedItems_lowered arguments h.2]
  | _, assignment left right, h => by
    simp only [isFaithful, Bool.and_eq_true] at h
    simp only [lowered, grouped, grouped_lowered .target left h.1,
      grouped_lowered .free right h.2]
  | _, array elements, h => by
    rw [isFaithful] at h
    simp only [lowered, grouped, groupedItems_lowered elements h]
  | _, object properties, h => by
    rw [isFaithful] at h
    simp only [lowered, grouped, groupedItems_lowered properties h]
  | _, pair key value, h => by
    simp only [isFaithful, Bool.and_eq_true] at h
    simp only [lowered, grouped, grouped_key h.1, grouped_lowered .free value h.2]
  | role, parentheses inner, h => by
    simp only [isFaithful, Bool.and_eq_true] at h
    -- these parentheses group what is grouped without them
    rw [lowered, grouped, if_pos h.1, grouped_lowered role inner h.2]
  | _, remark _, h => by
    rw [isFaithful] at h
    cases h

theorem groupedItems_lowered : ∀ items : List (Option Phrase), areFaithful items →
    groupedItems (loweredItems items) = groupedItems items
  | [], _ => rfl
  | none :: _, h => by
    rw [areFaithful] at h
    cases h
  | some item :: rest, h => by
    simp only [areFaithful, Bool.and_eq_true] at h
    simp only [loweredItems, groupedItems, grouped_lowered .free item h.1,
      groupedItems_lowered rest h.2]

end

end Phrase

end Script

end SiteConfig
