import SiteConfig.Script.Program
import SiteConfig.Script.Token

/-!
Where a script breaks the grammar, and how this is told. A closing bracket that is missing from an
otherwise sound script is named; what is there too much is shown; a script that stops in the
middle is shown from its start.
-/

namespace SiteConfig.Script

structure Fault where
  position : Position
  problem : String
deriving DecidableEq, Repr

namespace Fault

/-- At most this many characters of a script are shown. -/
def shownLength : Nat := 20

def firstLine (text : List Char) : List Char :=
  let line := text.takeWhile (· ≠ '\n')
  if line.getLast? = some '\r' && line.length < text.length then line.dropLast else line

def shown (text : List Char) : String :=
  let line := firstLine text
  if shownLength < line.length then String.ofList (line.take shownLength) ++ "…"
  else String.ofList line

def unexpected (start stop : Cursor) : Fault :=
  ⟨start.position, "unexpected `" ++ shown (start.textTo stop) ++ "`"⟩

def missing (bracket : String) (place : Cursor) : Fault :=
  ⟨place.position, "missing " ++ bracket⟩

/-- The brackets of a script that have no partner. -/
structure Unpaired where
  openings : List Token := []
  closings : List Token := []

def partner : String → String
  | ")" => "("
  | "]" => "["
  | _ => "\x7b"

/-- Pairs brackets. A closing bracket leaves those openings alone that stand between it and its
partner. -/
def pair (pending : List Token) (u : Unpaired) : List Token → Unpaired
  | [] => { u with openings := u.openings ++ pending.reverse }
  | t :: rest =>
    match t.kind with
    | .opening => pair (t :: pending) u rest
    | .closing =>
      let isPartner (o : Token) := o.text = partner t.text
      if pending.any isPartner then
        let between := pending.takeWhile (!isPartner ·)
        pair ((pending.dropWhile (!isPartner ·)).drop 1)
          { u with openings := u.openings ++ between.reverse } rest
      else pair pending { u with closings := u.closings ++ [t] } rest
    | _ => pair pending u rest

def reads (text : List Char) : Bool :=
  (Program.ofSource? (String.ofList text)).isSome

/-- The text of a script before a place in it. -/
def before (source : List Char) (c : Cursor) : List Char :=
  source.take (source.length - c.left)

/-- Whether closing braces at the end, each a statement's last token, make a script whole. -/
def lacksBraces (source : List Char) (count : Nat) : Bool :=
  reads (source ++ '\n' :: (List.replicate count ";\x7d debugger;".toList).flatten)

/-- The last place inside a script where closing parentheses make it whole. -/
def lackingParentheses? (source : List Char) (count : Nat) (tokens : List Token) :
    Option Cursor :=
  (tokens.dropLast.reverse.map (·.stop)).find? fun c =>
    reads (before source c ++ List.replicate count ')' ++ c.rest)

/-- The last token without which a script is whole. -/
def needless? (source : List Char) (tokens : List Token) : Option Token :=
  tokens.reverse.find? fun t => reads (before source t.start ++ ' ' :: t.stop.rest)

/-- The whole script from its first token on. -/
def whole (tokens : List Token) : Fault :=
  match tokens.head?, tokens.getLast? with
  | some first, some last => unexpected first.start last.stop
  | _, _ => ⟨Position.first, "unexpected ``"⟩

/-- The tokens at the head of a list that follow each other with only blanks between them. -/
def adjacentEnd (stop : Cursor) : List Token → Cursor
  | [] => stop
  | t :: rest =>
    if (stop.textTo t.start).all Text.isBlank then adjacentEnd t.stop rest else stop

/-- What is wrong with a script whose brackets are not all closed. -/
def ofOpenings (source : List Char) (tokens openings : List Token) : Fault :=
  let named (name : String) := openings.all (·.text = name)
  let stop := (tokens.getLast?.map (·.stop)).getD (Cursor.ofString "")
  if named "\x7b" && lacksBraces source openings.length then missing "\x7d" stop
  else if named "(" then
    match lackingParentheses? source openings.length tokens with
    | some place => missing ")" place
    | none => whole tokens
  else whole tokens

/-- What is wrong with a script whose brackets are paired. -/
def ofTokens (source : List Char) (tokens : List Token) : Fault :=
  match tokens.find? (·.kind = .illegal) with
  | some t => unexpected t.start t.stop
  | none =>
    match needless? source tokens with
    | some t => unexpected t.start t.stop
    | none => whole tokens

/-- What is wrong with a script that breaks the grammar. -/
def ofSource (source : String) : Fault :=
  let text := source.toList
  let tokens := Token.ofSource source
  let u := pair [] {} tokens
  if tokens.any (·.kind = .unfinished) then whole tokens
  else if !u.openings.isEmpty then ofOpenings text tokens u.openings
  else
    match u.closings with
    | t :: rest => unexpected t.start (adjacentEnd t.stop rest)
    | [] => ofTokens text tokens

end Fault

end SiteConfig.Script
