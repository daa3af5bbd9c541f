import SiteConfig.Script.Statement

namespace SiteConfig

namespace Script

namespace Grammar

/-- No nested part can be read. -/
def closed : Grammar where
  room := 0
  expression _ := failure
  statement := failure
  markup := failure

/-- The grammar whose nested parts may nest once more than those of `g`. -/
def deepen (g : Grammar) : Grammar where
  room := g.room + 1
  expression := Expression.read g
  statement := Statement.read g
  markup := Markup.element g

def ofDepth : Nat → Grammar
  | 0 => closed
  | n + 1 => deepen (ofDepth n)

end Grammar

/-- Every level of nesting takes a character, and a level takes three steps at most. -/
def depthFor (source : List Char) : Nat :=
  4 * source.length + 16

/-- Reads a whole script: the interpreter line, if there is one, and the statements. -/
def program (g : Grammar) : Scan (Program Tree) := do
  let before ← get
  let cs := before.rest.drop (Lexeme.gap before.rest)
  let pieces ← if (Lexeme.interpreterLine cs).isSome then do
      let leading ← interpreterPieces g.room
      let rest ← g.statements [] g.room
      pure (leading ++ rest)
    else g.statements [] g.room
  Scan.gap
  guard (← Scan.rest).isEmpty
  let (items, dangling) := Piece.attach pieces
  return { statements := items.map fun (body, trivia) => { body, trivia }, dangling }
where
  interpreterPieces : (fuel : Nat) → Scan (List (Piece (StatementBody Tree)))
    | 0 => failure
    | fuel + 1 => do
      Scan.skip (Lexeme.run Text.isBlank (← Scan.rest))
      let start ← get
      match Lexeme.comment start.rest with
      | some k =>
        Scan.skip k
        let stop ← get
        let rest ← interpreterPieces fuel
        return .comment (start.slice stop) start.position.line stop.position.line :: rest
      | none =>
        let text ← Scan.lexeme Lexeme.interpreterLine
        return [.item (.verbatim text) start.position.line start.position.line]

end Script

namespace Program

/-- Reads a script; `none` if it breaks the grammar. -/
def ofSource? (source : String) : Option (Program Tree) :=
  let start := Script.Cursor.ofString source
  (Script.program (.ofDepth (Script.depthFor start.rest)) |>.run start).map (·.1)

end Program

end SiteConfig
