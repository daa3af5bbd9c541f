import SiteConfig.Script.Expression

namespace SiteConfig.Script
open Text

namespace Statement

/-- The text from `start` to here. -/
def verbatimFrom (start : Cursor) : Scan (StatementBody Tree) := do
  return .verbatim (start.slice (← get))

/-- Only strings, calls and assignments are kept as expressions. -/
def expressionStatement (g : Grammar) : Scan (StatementBody Tree) := do
  let start ← get
  let o ← g.expressions true
  Scan.semicolon .value
  if o.kind.standsAlone then return .expression o.core else verbatimFrom start

/-- Reads one declared name or pattern and its value; tells where the statement may end then. -/
def declarator (g : Grammar) : Scan Ending := do
  Scan.gap
  match (← Scan.rest).head? with
  | some '\x7b' => do
    let o ← g.object
    guard o.isTarget
  | some '[' => do
    let o ← g.array
    guard o.isTarget
  | _ => do
    let _ ← Scan.lexeme Lexeme.name
  if Expression.isPlainEquals (← Scan.upcoming .word) then
    Scan.token "="
    let _ ← Scan.asValue (g.expression true)
    return .value
  else return .word

def declarators (g : Grammar) : (fuel : Nat) → Scan Unit
  | 0 => failure
  | fuel + 1 => do
    let ending ← declarator g
    if (← Scan.upcoming ending).head? = some ',' then
      Scan.token ","
      declarators g fuel
    else Scan.semicolon ending

/-- Reads the statement that another statement holds. -/
def nested (g : Grammar) : Scan Unit := do
  Scan.opening
  let _ ← g.statement

def ifTail (g : Grammar) : Scan Unit := do
  g.condition
  nested g
  let behind ← get
  Scan.gap
  if Scan.wordOf (← Scan.rest) = some "else" then
    Scan.keyword "else"
    nested g
  else set behind

/-- Reads the head of a loop over the members of a value, from its parenthesis on. -/
def memberLoopHead (g : Grammar) : Scan Unit := do
  Scan.token "("
  Scan.gap
  match Scan.wordOf (← Scan.rest) with
  | some w =>
    let start ← get
    let declared ← Scan.attempt (do
      guard (["var", "let", "const"].contains w)
      Scan.keyword w
      Scan.gap
      match (← Scan.rest).head? with
      | some '\x7b' => do let o ← g.object; guard o.isTarget
      | some '[' => do let o ← g.array; guard o.isTarget
      | _ => do
        let n ← Scan.lexeme Lexeme.name
        guard (n ≠ "in" && n ≠ "of"))
    if declared.isNone then
      set start
      target
  | none => target
  let operator ← Scan.name
  guard (operator = "in" || operator = "of")
  let _ ← g.expressions false
  Scan.token ")"
where
  target : Scan Unit := do
    Scan.opening
    let start ← get
    let p ← Expression.primary g false g.room
    guard (!p.closed)
    let o ← Expression.appended g false start g.room p.operand
    guard o.isAssignable

/-- Reads the head of a counting loop, from its parenthesis on. -/
def countingLoopHead (g : Grammar) : Scan Unit := do
  Scan.token "("
  Scan.gap
  match Scan.wordOf (← Scan.rest), (← Scan.rest).head? with
  | some w, _ =>
    let start ← get
    let declared ← Scan.attempt (do
      guard (["var", "let", "const"].contains w)
      Scan.keyword w
      declarators g g.room)
    if declared.isNone then
      set start
      let _ ← g.expressions false
      Scan.token ";"
  | none, some ';' => Scan.token ";"
  | none, _ =>
    let _ ← g.expressions false
    Scan.token ";"
  if (← Scan.upcoming .never).head? ≠ some ';' then
    let _ ← g.expressions false
  Scan.token ";"
  if (← Scan.upcoming .never).head? ≠ some ')' then
    let _ ← g.expressions false
  Scan.token ")"

def forTail (g : Grammar) : Scan Unit := do
  Scan.gap
  if Scan.wordOf (← Scan.rest) = some "await" then
    Scan.keyword "await"
    memberLoopHead g
  else memberLoopHead g <|> countingLoopHead g
  nested g

def doTail (g : Grammar) : Scan Unit := do
  nested g
  Scan.keyword "while"
  g.condition
  if (← Scan.upcoming .word).head? = some ';' then Scan.token ";"
  else Scan.absorbSemicolon .word

def catchTail (g : Grammar) : Scan Unit := do
  if (← Scan.upcoming .never).head? = some '(' then
    Scan.token "("
    Scan.gap
    match (← Scan.rest).head? with
    | some '\x7b' => do let o ← g.object; guard o.isTarget
    | some '[' => do let o ← g.array; guard o.isTarget
    | _ => do let _ ← Scan.lexeme Lexeme.name
    Scan.token ")"
  g.block (some .word)

/-- Reads the word `w` and then `s`, if that word comes next. -/
def clause (w : String) (s : Scan Unit) : Scan Unit := do
  let behind ← get
  Scan.gap
  if Scan.wordOf (← Scan.rest) = some w then
    Scan.keyword w
    s
  else set behind

def tryTail (g : Grammar) : Scan Unit := do
  g.block (some .word)
  clause "catch" (catchTail g)
  clause "finally" (g.block (some .word))

def switchCases (g : Grammar) : (fuel : Nat) → Scan Unit
  | 0 => failure
  | fuel + 1 => do
    Scan.opening
    if ← Scan.sees "\x7d" then Scan.skip 1
    else
      match ← Scan.name with
      | "case" =>
        let _ ← g.expressions false
      | "default" => pure ()
      | _ => failure
      Scan.token ":"
      let _ ← g.statements ["case", "default"] g.room
      switchCases g fuel

def switchTail (g : Grammar) : Scan Unit := do
  g.condition
  Scan.token "\x7b"
  switchCases g g.room

/-- Reads the label of a jump, if there is one, and the semicolon. -/
def jumpTail : Scan Unit := do
  if (Scan.wordOf (← Scan.upcoming .word)).isSome then
    let _ ← Scan.name
  Scan.semicolon .word

def returnTail (g : Grammar) : Scan Unit := do
  let next ← Scan.upcoming .word
  if next.isEmpty || next.head? = some ';' then Scan.semicolon .word
  else
    let _ ← g.expressions true
    Scan.semicolon .value

def throwTail (g : Grammar) : Scan Unit := do
  let _ ← g.expressions true
  Scan.semicolon .value

/-- A name of a module's interface: a word or a string. -/
def interfaceName : Scan Unit := do
  Scan.gap
  let _ ← Scan.lexeme fun cs => (Lexeme.name cs).or (Lexeme.string cs)

/-- Reads the names of an import or export between braces, the first brace being read. -/
def interfaceList : (fuel : Nat) → Scan Unit
  | 0 => failure
  | fuel + 1 => do
    if (← Scan.upcoming .never).head? = some '\x7d' then Scan.token "\x7d"
    else
      interfaceName
      if Scan.wordOf (← Scan.upcoming .never) = some "as" then
        Scan.keyword "as"
        interfaceName
      if (← Scan.upcoming .never).head? = some ',' then
        Scan.token ","
        interfaceList fuel
      else Scan.token "\x7d"

def fromClause : Scan Unit := do
  Scan.keyword "from"
  let _ ← Scan.stringLiteral

/-- Reads `* as name` or a list of names. -/
def importedNames (g : Grammar) : Scan Unit := do
  if (← Scan.upcoming .never).head? = some '*' then
    Scan.token "*"
    Scan.keyword "as"
    let _ ← Scan.name
  else
    Scan.token "\x7b"
    interfaceList g.room

def importTail (g : Grammar) : Scan Unit := do
  let next ← Scan.upcoming .never
  if (Lexeme.string next).isSome then
    let _ ← Scan.stringLiteral
  else
    if (Lexeme.name next).isSome then
      let _ ← Scan.name
      if (← Scan.upcoming .never).head? = some ',' then
        Scan.token ","
        importedNames g
    else importedNames g
    fromClause
  if Scan.wordOf (← Scan.upcoming .word) = some "with" then
    Scan.keyword "with"
    Scan.gap
    guard (← Scan.sees "\x7b")
    let o ← g.object
    guard o.isValue
  Scan.semicolon .word

/-- Reads a function or class declaration; `ending` says what may stand behind it. -/
def namedDeclaration (g : Grammar) (ending : Ending) : Scan Unit := do
  match ← Scan.name with
  | "async" =>
    guard (Scan.wordOf (← Scan.upcoming .value) = some "function")
    Scan.keyword "function"
    guard (← g.functionTail ending)
  | "function" => guard (← g.functionTail ending)
  | "class" =>
    guard (← g.classTail)
    Scan.absorbSemicolon ending
  | _ => failure

/-- Reads a declaration of variables. -/
def variableList (g : Grammar) : Scan Unit := do
  let word ← Scan.name
  guard (["var", "let", "const"].contains word)
  declarators g g.room

def declaration (g : Grammar) (ending : Ending) : Scan Unit :=
  namedDeclaration g ending <|> variableList g

/-- Reads what follows the word `export`. -/
def exportTail (g : Grammar) : Scan Unit := do
  let next ← Scan.upcoming .never
  match next.head? with
  | some '*' =>
    Scan.token "*"
    clause "as" interfaceName
    fromClause
    Scan.semicolon .word
  | some '\x7b' =>
    Scan.token "\x7b"
    interfaceList g.room
    if Scan.wordOf (← Scan.upcoming .word) = some "from" then fromClause
    Scan.semicolon .word
  | _ =>
    if Scan.wordOf next = some "default" then
      Scan.keyword "default"
      let _ ← g.decorators g.room
      declaration g .value <|> do
        let _ ← Scan.asValue (g.expression true)
        Scan.semicolon .value
    else declaration g .word

/-- Reads the rest of the statement that starts with the word `w`, which is read; fails for words
that start no statement of their own. -/
def wordTail (g : Grammar) (w : String) : Scan Unit :=
  match w with
  | "if" => ifTail g
  | "for" => forTail g
  | "while" => do
    g.condition
    nested g
  | "with" => do
    g.condition
    nested g
  | "do" => doTail g
  | "try" => tryTail g
  | "switch" => switchTail g
  | "break" => jumpTail
  | "continue" => jumpTail
  | "debugger" => Scan.semicolon .word
  | "return" => returnTail g
  | "throw" => throwTail g
  | "var" => declarators g g.room
  | "const" => declarators g g.room
  | _ => failure

/-- Words that start a statement wherever they stand at its start. -/
def statementWords : List String :=
  ["if", "for", "while", "with", "do", "try", "switch", "break", "continue", "debugger", "return",
    "throw", "var", "const"]

/-- Words that start a value, so that they are no labels. -/
def valueWords : List String :=
  ["function", "class", "new", "typeof", "void", "delete", "await", "yield", "this", "super",
    "null", "true", "false", "undefined", "import"]

/-- `let` starts a declaration if a name or pattern follows it on. -/
def startsLet (next : List Char) : Bool :=
  match Scan.wordOf next with
  | some w => w ≠ "in" && w ≠ "instanceof"
  | none => next.head? = some '[' || next.head? = some '\x7b'

/-- Reads a statement that starts with a brace. A block comes first, except that a name with a
colon behind the brace makes it an object if it can be one. -/
def braced (g : Grammar) (start : Cursor) : Scan (StatementBody Tree) := do
  let inner := (start.forward 1).rest
  let inner := inner.drop (Lexeme.gap inner)
  let labelled := (Lexeme.name inner).any fun n =>
    let rest := inner.drop n
    (rest.drop (Lexeme.gap rest)).head? = some ':'
  let asBlock : Scan (StatementBody Tree) := do
    g.block none
    verbatimFrom start
  if labelled then expressionStatement g <|> asBlock else asBlock <|> expressionStatement g

/-- Reads one statement that starts right here. -/
def read (g : Grammar) : Scan (StatementBody Tree) := do
  let start ← get
  match start.rest.head?, Scan.wordOf start.rest with
  | some '\x7b', _ => braced g start
  | some ';', _ =>
    Scan.skip 1
    verbatimFrom start
  | some '@', _ =>
    (do
      let _ ← g.decorators g.room
      if Scan.wordOf (← Scan.upcoming .never) = some "export" then
        Scan.keyword "export"
        exportTail g
      else namedDeclaration g .value
      verbatimFrom start) <|> expressionStatement g
  | _, some w =>
    if statementWords.contains w then
      Scan.skip w.length
      wordTail g w
      verbatimFrom start
    else if w = "function" || w = "class" || w = "async" then
      (do
        namedDeclaration g .value
        verbatimFrom start) <|> expressionStatement g
    else if w = "import" then
      (do
        Scan.skip w.length
        importTail g
        verbatimFrom start) <|> expressionStatement g
    else if w = "export" then
      (do
        Scan.skip w.length
        exportTail g
        verbatimFrom start) <|> labelled g start w
    else if w = "let" then
      Scan.skip w.length
      if startsLet (← Scan.upcoming .value) then
        declarators g g.room
        verbatimFrom start
      else
        set start
        labelled g start w
    else labelled g start w
  | _, none => expressionStatement g
where
  labelled (g : Grammar) (start : Cursor) (w : String) : Scan (StatementBody Tree) := do
    if valueWords.contains w then expressionStatement g
    else
      Scan.skip w.length
      if (← Scan.upcoming .value).head? = some ':' then
        Scan.token ":"
        nested g
        verbatimFrom start
      else
        set start
        expressionStatement g

end Statement

end SiteConfig.Script
