import SiteConfig.Log.Event
import SiteConfig.Log.Settings
import SiteConfig.Text.Character

/-!
Which events a log shows. A filter is a list of directives, each a level for everything or for the
sources whose names start with its own.
-/

namespace SiteConfig.Log
open Text

structure Directive where
  /-- What the name of a source must start with; none for a level that holds everywhere. -/
  source : Option String
  /-- The rank of the finest level shown; zero shows nothing. -/
  rank : Nat
deriving DecidableEq, Repr

namespace Directive

/-- The rank that a level is written for, by its name in either case or its number. -/
def rankOf? (text : String) : Option Nat :=
  ["off", "error", "warn", "info", "debug", "trace"].findIdx? (· = text.toLower)
    |>.or (["0", "1", "2", "3", "4", "5"].findIdx? (· = text))

def isSourceChar (c : Char) : Bool :=
  isAsciiLetter c || isDigit c || c = '_' || c = ':' || c = '-'

def isSource (text : String) : Bool :=
  !text.isEmpty && text.toList.all isSourceChar

/-- A name alone shows everything of that source. -/
def ofText? (text : String) : Option Directive :=
  match rankOf? text, text.splitOn "=" with
  | some rank, _ => some ⟨none, rank⟩
  | none, [source] => if isSource source then some ⟨some source, 5⟩ else none
  | none, [source, ""] => if isSource source then some ⟨some source, 5⟩ else none
  | none, [source, level] =>
    if isSource source then (rankOf? level).map (⟨some source, ·⟩) else none
  | _, _ => none

/-- How closely a directive names its source. -/
def weight (d : Directive) : Nat :=
  match d.source with
  | some source => source.length + 1
  | none => 0

def covers (d : Directive) (source : String) : Bool :=
  d.source.all fun start => start.toList.isPrefixOf source.toList

end Directive

/-- The parts of a filter's text. -/
def directiveTexts (text : String) : List String :=
  (text.splitOn ",").filter (· ≠ "")

structure Filter where
  directives : List Directive
deriving DecidableEq, Repr

namespace Filter

/-- A filter without directives shows errors. -/
def ofDirectives (directives : List Directive) : Filter :=
  ⟨if directives.isEmpty then [⟨none, Level.error.rank⟩] else directives⟩

/-- Reads a filter; nothing if one of its parts is no directive. -/
def ofText? (text : String) : Option Filter :=
  ((directiveTexts text).mapM Directive.ofText?).map ofDirectives

/-- Reads what can be read of a filter. -/
def ofText (text : String) : Filter :=
  ofDirectives ((directiveTexts text).filterMap Directive.ofText?)

/-- The directive that names its source most closely, and of two that name it alike the later
one. -/
def closest (directives : List Directive) : Option Directive :=
  directives.foldl (fun best d => if best.all (·.weight ≤ d.weight) then some d else best) none

/-- The rank shown of a source. -/
def rank (f : Filter) (source : String) : Nat :=
  ((closest (f.directives.filter (·.covers source))).map (·.rank)).getD 0

/-- The name that all events of a run carry. -/
def programSource : String := "wiki"

def shows (f : Filter) (e : Event) : Bool :=
  e.level.rank ≤ f.rank programSource

/-- The filter of a run. The switch for debug output goes before the environment. -/
def ofEnvironment (env : Environment) (debug : Bool) : Filter :=
  if debug then ofDirectives [⟨none, Level.debug.rank⟩]
  else
    ((env "RUST_LOG").bind ofText?).getD (ofText (Settings.ofEnvironment env).level)

end Filter

end SiteConfig.Log
