-- The parser of queries (`pure-analyzer-parser`, `m3.rs`): recursive descent
-- with operator precedences over the tokens of the lexer, as a list of events
-- for the builder of the tree and a list of diagnostics.
import PureAnalyzer.Cst
import PureAnalyzer.LinkedArena
import PureAnalyzer.Totality

namespace analyzer.m3

open fragments model cst linkedarena totality

def LOWEST_PRECEDENCE : Nat := 0
def EQUALITY_PRECEDENCE : Nat := 1
def ADDITIVE_PRECEDENCE : Nat := 2
def MULTIPLICATIVE_PRECEDENCE : Nat := 3

/-- How deep an expression can nest in itself. -/
def MAX_RECURSION_DEPTH : Nat := 256

/-- How many operators can stand before an operand. -/
def MAX_UNARY_OPERATOR_COUNT : Nat := 256

/-- How often one postfix chain can be wrapped. -/
def MAX_RETROACTIVE_WRAP_DEPTH : Nat := 256

inductive OpaqueIslandDelimiter where
  | Island
  | Brace
deriving DecidableEq, Repr

/-! ## Diagnostics -/

inductive DiagCode where
  | UnterminatedIsland
  | BadToken
  | MalformedSyntax
deriving DecidableEq, Repr

inductive Severity where
  | Error
  | Warning
  | Info
  | Hint
deriving DecidableEq, Repr

structure Label where
  file : Nat
  span : TextRange
deriving DecidableEq

structure Diagnostic where
  code : DiagCode
  severity : Severity
  message : String
  primary : Label
deriving DecidableEq

/-- The tree of one file, and what is wrong with it. -/
structure Parse where
  green : GreenNode
  diagnostics : List Diagnostic

/-! ## Token kinds -/

def isTrivia : TokenKind → Bool
  | .Whitespace | .LineComment | .BlockComment => true
  | _ => false

def isName : TokenKind → Bool
  | .Ident | .AllKw | .LetKw | .AllVersionsKw | .AllVersionsInRangeKw | .ToBytesKw => true
  | _ => false

def isQualifiedNameStart (kind : TokenKind) : Bool := kind = .PathSeparator || isName kind

def EXPRESSION_BOUNDARIES : List TokenKind :=
  [.Comma, .ParenClose, .BracketClose, .BraceClose, .Semicolon]

def CODE_BLOCK_BOUNDARIES : List TokenKind := [.BraceClose, .Comma, .ParenClose, .BracketClose]

/-! ## The state -/

structure Parser where
  file : Nat
  tokens : List Token
  index : Nat
  events : Arena Event
  diagnostics : List Diagnostic
  depth : Nat

/-- A step of the parser. It fails only when a bound on its turns is too small. -/
abbrev P := StateT Parser Option

namespace Parser

def new (file : Nat) (tokens : List Token) : Parser := ⟨file, tokens, 0, .empty, [], 0⟩

def rawKind (s : Parser) : Option TokenKind := (s.tokens[s.index]?).map Prod.fst

def atEof (s : Parser) : Bool := s.tokens.length ≤ s.index

/-- The empty range at the end of the last token. -/
def eofSpan (tokens : List Token) : TextRange :=
  match tokens.getLast? with
  | some (_, range) => ⟨range.stop, range.stop, Nat.le_refl _⟩
  | none => ⟨0, 0, Nat.le_refl _⟩

def currentSpan (s : Parser) : TextRange :=
  match s.tokens[s.index]? with
  | some (_, range) => range
  | none => eofSpan s.tokens

def nextSignificantIndexFrom (s : Parser) (start : Nat) : Option Nat :=
  ((s.tokens.drop start).findIdx? fun token => !isTrivia token.1).map (start + ·)

def significantIndex (s : Parser) : Option Nat := s.nextSignificantIndexFrom s.index

def nextSignificantKind (s : Parser) (start : Nat) : Option TokenKind :=
  (s.nextSignificantIndexFrom start).bind fun index => (s.tokens[index]?).map Prod.fst

def significantKind (s : Parser) : Option TokenKind := s.nextSignificantKind s.index

def atToken (kind : TokenKind) (s : Parser) : Bool := s.significantKind = some kind

def atAny (kinds : List TokenKind) (s : Parser) : Bool := s.significantKind.any (kinds.contains ·)

def atCodeBlockBoundary (s : Parser) : Bool := s.atEof || s.atAny CODE_BLOCK_BOUNDARIES

def nextSignificantIsFrom (start : Nat) (kind : TokenKind) (s : Parser) : Bool :=
  s.nextSignificantKind start = some kind

def nextSignificantIs (kind : TokenKind) (s : Parser) : Bool :=
  match s.significantIndex with
  | none => false
  | some index => s.nextSignificantIsFrom (index + 1) kind

/-- The type of a lambda parameter ends at a pipe that no delimiter holds. -/
def typedPipe (angles brackets : Nat) : List Token → Bool
  | [] => false
  | (kind, _) :: rest =>
    let top := angles = 0 && brackets = 0
    if isTrivia kind then typedPipe angles brackets rest
    else
      match kind with
      | .Pipe => top || typedPipe angles brackets rest
      | .Lt => typedPipe (angles + 1) brackets rest
      | .Gt => typedPipe (angles - 1) brackets rest
      | .BracketOpen => typedPipe angles (brackets + 1) rest
      | .BracketClose =>
        if brackets ≠ 0 then typedPipe angles (brackets - 1) rest
        else if top then false else typedPipe angles brackets rest
      | .Comma | .Semicolon | .BraceClose | .ParenClose =>
        if top then false else typedPipe angles brackets rest
      | _ => typedPipe angles brackets rest

def typedShortLambdaHasPipe (start : Nat) (s : Parser) : Bool :=
  typedPipe 0 0 (s.tokens.drop start)

def isShortLambdaStart (s : Parser) : Bool :=
  match s.significantIndex with
  | none => false
  | some index =>
    if !((s.tokens[index]?).any fun token => isName token.1) then false
    else
      match s.nextSignificantIndexFrom (index + 1) with
      | none => false
      | some next =>
        match (s.tokens[next]?).map Prod.fst with
        | some .Pipe => true
        | some .Colon => s.typedShortLambdaHasPipe (next + 1)
        | _ => false

def isLambdaBodyStart (s : Parser) : Bool :=
  s.significantKind = some .BraceOpen || s.significantKind = some .Pipe || s.isShortLambdaStart

def isNamedArgumentStart (s : Parser) : Bool :=
  match s.significantIndex with
  | none => false
  | some name_index =>
    ((s.tokens[name_index]?).any fun token => isName token.1) &&
      s.nextSignificantIsFrom (name_index + 1) .Assign

def dotStartsAllExpression (s : Parser) : Bool :=
  match s.significantIndex with
  | none => false
  | some dot_index =>
    match s.nextSignificantKind (dot_index + 1) with
    | some .AllKw | some .AllVersionsKw | some .AllVersionsInRangeKw => true
    | _ => false

def binaryPrecedence (s : Parser) : Option Nat :=
  match s.significantKind with
  | some .Eq | some .Neq | some .Le | some .Lt | some .Ge | some .Gt => some EQUALITY_PRECEDENCE
  | some .Plus | some .Minus => some ADDITIVE_PRECEDENCE
  | some .Star | some .Slash => some MULTIPLICATIVE_PRECEDENCE
  | _ => none

end Parser

open analyzer.m3.Parser

/-! ## Events -/

def event (e : Event) : P Unit := change fun s => { s with events := s.events.append e }

def openEvent (kind : NodeKind) : P Unit := event (.Open (.Node kind))

def closeEvent : P Unit := event .Close

/-- Puts an open event behind an earlier one. -/
def wrapFrom (anchor : Nat) (kind : NodeKind) : P Unit :=
  change fun s => { s with events := s.events.insertAfter anchor (.Open (.Node kind)) }

/-- Opens a node, goes on below it, and closes it. -/
def node {α : Type} (kind : NodeKind) (body : P α) : P α := do
  openEvent kind
  let a ← body
  closeEvent
  return a

/-- A node from the anchor on, which ends after the body. -/
def wrapped (anchor : Nat) (kind : NodeKind) (body : P Unit) : P Unit := do
  wrapFrom anchor kind
  body
  closeEvent

def pushDiagnostic (code : DiagCode) (span : TextRange) (message : String) : P Unit :=
  change fun s =>
    { s with diagnostics := s.diagnostics ++ [⟨code, .Error, message, ⟨s.file, span⟩⟩] }

def errorCurrent (message : String) : P Unit := do
  pushDiagnostic .MalformedSyntax (← ask currentSpan) message

def bump : P Bool := do
  match ← ask rawKind with
  | none => return false
  | some kind =>
    let span ← ask currentSpan
    when (kind = .Error) (pushDiagnostic .BadToken span "unrecognized token")
    event .Advance
    change fun s => { s with index := s.index + 1 }
    return true

/-- The parser got past a token since. -/
def moved (before : Nat) : P Bool := ask fun s => s.index ≠ before

/-- Runs a loop of the parser. There are more turns than tokens are left. -/
def loopWith {β : Type} (x : β) (body : β → P (β × Bool)) : P β := do
  let turns ← ask fun s => s.tokens.length - s.index + 1
  iterate body turns x

def loop (body : P Bool) : P Unit :=
  loopWith () fun _ => do return ((), ← body)

def consumeTrivia : P Unit :=
  loop do
    if (← ask rawKind).any isTrivia then
      let before ← ask index
      if ← bump then moved before else return false
    else return false

def expect (kind : TokenKind) (expected : String) : P Bool := do
  consumeTrivia
  if (← ask rawKind) = some kind then bump
  else
    errorCurrent ("expected " ++ expected)
    return false

def consumeIf (kind : TokenKind) : P Bool := do
  consumeTrivia
  if (← ask rawKind) = some kind then bump else return false

def consumeName (expected : String) : P Bool := do
  consumeTrivia
  if (← ask rawKind).any isName then bump
  else
    errorCurrent ("expected " ++ expected)
    return false

/-! ## Recovery -/

def recoverOne : P Unit := do
  if ← ask atEof then node .ErrorNode (pure ())
  else
    node .ErrorNode do
      let _ ← bump

def recoverUntil (boundaries : List TokenKind) : P Unit :=
  node .ErrorNode do
    loop do
      if ← ask atEof then return false
      else if ← ask (atAny boundaries) then return false
      else
        let current ← ask index
        let _ ← bump
        moved current

def enterParseDepth : P Bool := do
  if MAX_RECURSION_DEPTH ≤ (← ask depth) then
    errorCurrent "parser nesting limit reached"
    return false
  else
    change fun s => { s with depth := s.depth + 1 }
    return true

def leaveParseDepth : P Unit := change fun s => { s with depth := s.depth - 1 }

/-- The wraps of a chain after one more, and whether there can be one more. -/
def reserveRetroactiveWrap (wrap_depth : Nat) : P (Nat × Bool) := do
  if MAX_RETROACTIVE_WRAP_DEPTH ≤ wrap_depth then
    errorCurrent "expression nesting limit reached"
    return (wrap_depth, false)
  else return (wrap_depth + 1, true)

/-! ## Names and types -/

def parseQualifiedName : P Bool :=
  node .QualifiedName do
    let _ ← consumeIf .PathSeparator
    let valid ← consumeName "a name"
    loopWith valid fun valid => do
      let before ← ask index
      let has_separator ← consumeIf .PathSeparator
      if !(← moved before) || !has_separator then return (valid, false)
      else
        let valid ← consumeName "a name after `::`"
        return (valid, valid)

def consumeMultiplicityBound : P Unit := do
  if ← consumeIf .Integer then return ()
  else if ← consumeIf .Star then return ()
  else errorCurrent "expected a multiplicity bound"

def parseMultiplicity : P Unit :=
  node .Multiplicity do
    let _ ← expect .BracketOpen "`[` before a multiplicity"
    consumeMultiplicityBound
    when (← consumeIf .Dot) do
      let _ ← expect .Dot "a second `.` in a multiplicity range"
      consumeMultiplicityBound
    let _ ← expect .BracketClose "`]` after a multiplicity"

def parseOptionalMultiplicity : P Unit := do
  when (← ask (atToken .BracketOpen)) parseMultiplicity

/-- The productions that the others come back to. -/
structure Recur where
  expression : Nat → P Bool
  type_reference : P Bool
  primary_expression : P Bool

section Productions

variable (self : Recur)

def parseColumnInfo : P Unit :=
  node .ColumnInfo do
    let _ ← consumeName "a relation column name"
    let _ ← expect .Colon "`:` after a relation column name"
    let _ ← self.type_reference
    parseOptionalMultiplicity

def parseRelationType : P Unit :=
  node .RelationType do
    let _ ← expect .ParenOpen "`(` before relation columns"
    when (!(← ask (atToken .ParenClose))) do
      loop do
        let before ← ask index
        parseColumnInfo self
        let has_comma ← consumeIf .Comma
        if !(← moved before) || !has_comma then return false else return true
    let _ ← expect .ParenClose "`)` after relation columns"

def parseTypeArguments : P Unit := do
  if ← ask (atToken .ParenOpen) then parseRelationType self
  else
    loop do
      let before ← ask index
      let _ ← self.type_reference
      let has_comma ← consumeIf .Comma
      if !(← moved before) || !has_comma then return false else return true

def parseTypeReference : P Bool := do
  if ← enterParseDepth then
    let valid ← node .TypeRef do
      let valid ← parseQualifiedName
      if ← consumeIf .Lt then
        parseTypeArguments self
        return (← expect .Gt "`>` after type arguments") && valid
      else return valid
    leaveParseDepth
    return valid
  else return false

def parseOptionalParameterType : P Unit := do
  when (← consumeIf .Colon) do
    let _ ← self.type_reference
    parseOptionalMultiplicity

/-! ## Call arguments -/

def parseArgument (allow_named : Bool) : P Unit := do
  when (allow_named && (← ask isNamedArgumentStart)) do
    let _ ← consumeName "an argument name"
    let _ ← expect .Assign "`=` after an argument name"
  when (!(← self.expression LOWEST_PRECEDENCE)) do
    errorCurrent "expected an argument expression"
    recoverUntil [.Comma, .ParenClose, .Semicolon]

def parseArgumentList (allow_named : Bool) : P Unit := do
  if ← ask (atToken .ParenClose) then return ()
  else
    loop do
      let before ← ask index
      parseArgument self allow_named
      consumeTrivia
      if ← ask (atToken .Semicolon) then return false
      else
        let has_comma ← consumeIf .Comma
        if !(← moved before) then return false
        else if has_comma then
          if ← ask (atToken .ParenClose) then
            errorCurrent "expected an argument after `,`"
            return false
          else return true
        else if (← ask (atToken .ParenClose)) || (← ask atEof) then return false
        else
          errorCurrent "expected `,` or `)` after an argument"
          recoverUntil [.Comma, .ParenClose, .Semicolon]
          if ← ask (atToken .Semicolon) then return false else moved before

def parseCallArguments (allow_named : Bool) : P Unit :=
  node .CallArgs do
    let has_open ← expect .ParenOpen "`(` before arguments"
    when has_open (parseArgumentList self allow_named)
    let _ ← expect .ParenClose "`)` after arguments"

/-! ## Statements and lambdas -/

def parseQueryExpression : P Unit :=
  node .QueryExpr do
    when (!(← self.expression LOWEST_PRECEDENCE)) do
      errorCurrent "expected an expression"
      recoverOne

def parseLetStatement : P Unit :=
  node .LetStmt do
    let _ ← expect .LetKw "`let`"
    let _ ← consumeName "a binding name"
    let _ ← expect .Assign "`=` after a binding name"
    when (!(← self.expression LOWEST_PRECEDENCE)) do
      errorCurrent "expected an expression after `=`"
      recoverUntil [.Semicolon, .BraceClose, .Comma, .ParenClose, .BracketClose]

/-- A statement of a code block. -/
def parseStatement : P Unit := do
  if ← ask (atToken .LetKw) then parseLetStatement self else parseQueryExpression self

def parseCodeBlock : P Unit :=
  node .CodeBlock do
    loop do
      if ← ask atCodeBlockBoundary then return false
      else
        let before ← ask index
        parseStatement self
        consumeTrivia
        let has_separator ← consumeIf .Semicolon
        if !(← moved before) then return false
        else if !has_separator then return false
        else
          consumeTrivia
          return true

def parseLambdaParameters : P Unit := do
  if ← ask (atToken .Pipe) then return ()
  else
    node .LambdaParams do
      loop do
        let before ← ask index
        let parsed_parameter ← consumeName "a lambda parameter"
        parseOptionalParameterType self
        let has_comma ← consumeIf .Comma
        if !(← moved before) then return false else return parsed_parameter && has_comma

def parseBracedLambda : P Bool :=
  node .LambdaExpr do
    let _ ← expect .BraceOpen "`\x7b` before a lambda"
    parseLambdaParameters self
    let has_pipe ← expect .Pipe "`|` after lambda parameters"
    parseCodeBlock self
    let has_close ← expect .BraceClose "`\x7d` after a lambda body"
    return has_pipe && has_close

def parseShortLambda : P Bool :=
  node .LambdaExpr do
    node .LambdaParams do
      let _ ← consumeName "a lambda parameter"
      parseOptionalParameterType self
    let has_pipe ← expect .Pipe "`|` after a lambda parameter"
    parseCodeBlock self
    return has_pipe

def parseParameterlessLambda : P Bool :=
  node .LambdaExpr do
    let has_pipe ← expect .Pipe "`|` before lambda body"
    parseCodeBlock self
    return has_pipe

/-! ## Column specifications -/

def parseColumnName : P Bool := do
  consumeTrivia
  if (← ask rawKind).any fun kind => isName kind || kind = .String then
    node .ColumnName do
      let _ ← bump
    return true
  else
    errorCurrent "expected a column name"
    return false

/-- The first part behind the colon: a lambda or a type. -/
def parseColumnSpecHead : P Unit := do
  if ← ask isLambdaBodyStart then
    let _ ← self.primary_expression
  else
    let _ ← self.type_reference
    parseOptionalMultiplicity

def parseColumnSpecBody : P Unit := do
  parseColumnSpecHead self
  when (← consumeIf .Colon) do
    if ← ask isLambdaBodyStart then
      let _ ← self.primary_expression
    else errorCurrent "expected a lambda after `:` in a column specification"

def parseColumnSpec (has_tilde : Bool) : P Bool :=
  node .ColumnSpec do
    when has_tilde do
      let _ ← expect .Tilde "`~` before a column name"
    let name ← parseColumnName
    when (← consumeIf .Colon) (parseColumnSpecBody self)
    return name

/-- After a member that got nowhere: goes on behind the next comma, if there is one. -/
def recoverColumnSpec : P Bool := do
  recoverUntil [.Comma, .BracketClose, .Semicolon]
  if (← ask significantKind) = some .Comma then
    let comma_index ← ask index
    let recovered_comma ← consumeIf .Comma
    if recovered_comma && (← ask fun s => decide (comma_index < s.index)) then
      if (← ask (atToken .BracketClose)) || (← ask atEof) then
        errorCurrent "expected a column specification after `,`"
        return false
      else return true
    else return false
  else return false

def parseColumnSpecArrayItems : P Unit := do
  if ← ask (atToken .BracketClose) then return ()
  else
    loop do
      let before ← ask index
      let _ ← parseColumnSpec self false
      consumeTrivia
      if ← ask (atToken .Semicolon) then return false
      else
        let has_comma ← consumeIf .Comma
        if !(← moved before) then recoverColumnSpec
        else if has_comma then
          if (← ask (atToken .BracketClose)) || (← ask atEof) then
            errorCurrent "expected a column specification after `,`"
            return false
          else return true
        else if (← ask (atToken .BracketClose)) || (← ask atEof) then return false
        else
          errorCurrent "expected `,` or `]` after a column specification"
          let recovery_start ← ask index
          recoverUntil [.Comma, .BracketClose, .Semicolon]
          if (← ask (atToken .Semicolon)) || (← ask (atToken .BracketClose)) || (← ask atEof) then
            return false
          else if !(← moved recovery_start) then return false
          else
            let _ ← consumeIf .Comma
            if (← ask (atToken .BracketClose)) || (← ask atEof) then
              errorCurrent "expected a column specification after `,`"
              return false
            else return true

def parseColumnSpecArray : P Bool := do
  let has_close ← node .ColumnSpecArray do
    let _ ← expect .Tilde "`~` before a column specification"
    let _ ← expect .BracketOpen "`[` after `~`"
    parseColumnSpecArrayItems self
    expect .BracketClose "`]` after column specifications"
  return has_close || (← ask (atToken .Semicolon))

def parseColumnBuilder : P Bool := do
  if ← ask (nextSignificantIs .BracketOpen) then parseColumnSpecArray self
  else parseColumnSpec self true

/-! ## Primary expressions -/

def parseVariableExpression : P Bool :=
  node .VariableExpr do
    let has_dollar ← expect .Dollar "`$` before a variable name"
    let has_name ← consumeName "a variable name"
    return has_dollar && has_name

def parseLiteralExpression : P Bool := node .LiteralExpr bump

def parseParenthesizedItems : P Unit := do
  if ← ask (atToken .ParenClose) then return ()
  else
    loop do
      let before ← ask index
      when (!(← self.expression LOWEST_PRECEDENCE)) do
        errorCurrent "expected an expression inside parentheses"
        recoverUntil [.Comma, .ParenClose, .Semicolon]
      let has_comma ← consumeIf .Comma
      if !(← moved before) || !has_comma then return false
      else if ← ask (atToken .ParenClose) then
        errorCurrent "expected an expression after `,`"
        return false
      else return true

def parseParenthesizedExpression : P Bool :=
  node .ParenExpr do
    let has_open ← expect .ParenOpen "`(` before an expression"
    parseParenthesizedItems self
    let has_close ← expect .ParenClose "`)` after an expression"
    return has_open && has_close

def parseCollectionItems : P Unit := do
  if ← ask (atToken .BracketClose) then return ()
  else
    loop do
      let before ← ask index
      when (!(← self.expression LOWEST_PRECEDENCE)) do
        errorCurrent "expected an expression inside a collection literal"
        recoverUntil [.Comma, .BracketClose, .Semicolon]
      consumeTrivia
      if ← ask (atToken .Semicolon) then return false
      else
        let has_comma ← consumeIf .Comma
        if !(← moved before) then return false
        else if has_comma then
          if ← ask (atToken .BracketClose) then
            errorCurrent "expected an expression after `,`"
            return false
          else return true
        else if (← ask (atToken .BracketClose)) || (← ask atEof) then return false
        else
          errorCurrent "expected `,` or `]` after a collection item"
          let recovery_start ← ask index
          recoverUntil [.Comma, .BracketClose, .Semicolon]
          if (← ask (atToken .Semicolon)) || (← ask (atToken .BracketClose)) || (← ask atEof) then
            return false
          else if !(← moved recovery_start) then return false
          else
            let _ ← consumeIf .Comma
            if ← ask (atToken .BracketClose) then
              errorCurrent "expected an expression after `,`"
              return false
            else return true

def parseCollectionLiteral : P Bool :=
  node .CollectionLiteral do
    let _ ← expect .BracketOpen "`[` before a collection literal"
    parseCollectionItems self
    expect .BracketClose "`]` after a collection literal"

/-- What a new instance is made of: a copy of a variable, or a class. -/
def parseInstanceTarget : P Bool := do
  if ← ask (atToken .Dollar) then parseVariableExpression else parseQualifiedName

def parseNewInstanceExpression : P Bool :=
  node .NewInstanceExpr do
    let _ ← expect .NewSymbol "`^` before an instance type"
    let has_target ← parseInstanceTarget
    when (← ask (atToken .ParenOpen)) (parseCallArguments self true)
    return has_target

def parseCastExpression : P Bool :=
  node .CastExpr do
    let _ ← expect .At "`@` before a cast type"
    self.type_reference

/-! ## Islands -/

def unterminatedIsland : P Unit := do
  pushDiagnostic .UnterminatedIsland (← ask currentSpan) "unterminated island"
  node .ErrorNode (pure ())

def recoverIslandEnd : P Unit :=
  node .ErrorNode do
    loop do
      if (← ask atEof) || (← ask (atAny [.IslandEnd, .Semicolon])) then return false
      else
        let before ← ask index
        let _ ← bump
        moved before
    let _ ← consumeIf .IslandEnd

def parseStoreTablePointer : P Bool :=
  node .Island do
    node .StoreTablePointer do
      let _ ← expect .HashStoreOpen "`#>\x7b` before a table pointer"
      let has_path ← parseQualifiedName
      let has_dot ← expect .Dot "`.` between a database and table name"
      let has_table ← consumeName "a table name"
      let has_close ← consumeIf .IslandEnd
      when (!has_close) do
        unterminatedIsland
        recoverIslandEnd
      return has_path && has_dot && has_table && has_close

def parseNavigationPathIsland : P Bool := node .Island (node .NavPathIsland bump)

/-- The delimiters that are open after a token, the innermost first. -/
def afterDelimiter (kind : Option TokenKind) (delimiters : List OpaqueIslandDelimiter) :
    List OpaqueIslandDelimiter :=
  match kind with
  | some .HashIslandOpen | some .HashStoreOpen => .Island :: delimiters
  | some .BraceOpen => .Brace :: delimiters
  | some .BraceClose => if delimiters.head? = some .Brace then delimiters.tail else delimiters
  | some .IslandEnd => if delimiters.head? = some .Island then delimiters.tail else delimiters
  | _ => delimiters

def parseBracedOpaqueIsland : P Bool :=
  node .Island do
    node .OpaqueIsland do
      let _ ← bump
      let delimiters ← loopWith [OpaqueIslandDelimiter.Island] fun delimiters => do
        if ← ask atEof then return (delimiters, false)
        else
          let before ← ask index
          let delimiters := afterDelimiter (← ask rawKind) delimiters
          let _ ← bump
          if delimiters.isEmpty then return (delimiters, false)
          else return (delimiters, ← moved before)
      if delimiters.isEmpty then return true
      else
        unterminatedIsland
        return false

def parseHashOpaqueIsland : P Bool :=
  node .Island do
    node .OpaqueIsland do
      let _ ← bump
      let closed ← loopWith false fun closed => do
        if ← ask atEof then return (closed, false)
        else
          let before ← ask index
          let kind ← ask rawKind
          let _ ← bump
          if kind = some .Hash || kind = some .IslandEnd then return (true, false)
          else return (closed, ← moved before)
      if closed then return true
      else
        unterminatedIsland
        return false

def parseIsland : P Bool := do
  match ← ask rawKind with
  | some .HashStoreOpen => parseStoreTablePointer
  | some .NavPathBlock => parseNavigationPathIsland
  | some .HashIslandOpen => parseBracedOpaqueIsland
  | some .Hash => parseHashOpaqueIsland
  | _ => return false

def parseBadToken : P Bool := node .ErrorNode bump

def parsePrimaryExpression : P Bool := do
  consumeTrivia
  match ← ask rawKind with
  | none => return false
  | some kind =>
    match kind with
    | .Dollar => parseVariableExpression
    | .Integer | .Boolean | .String | .DateTime | .StrictDate | .LatestDate =>
      parseLiteralExpression
    | .ParenOpen => parseParenthesizedExpression self
    | .BracketOpen => parseCollectionLiteral self
    | .BraceOpen => parseBracedLambda self
    | .Pipe => parseParameterlessLambda self
    | .Tilde => parseColumnBuilder self
    | .NewSymbol => parseNewInstanceExpression self
    | .At => parseCastExpression self
    | .HashStoreOpen | .HashIslandOpen | .NavPathBlock | .Hash => parseIsland
    | .Error => parseBadToken
    | kind =>
      let short ← ask isShortLambdaStart
      if isName kind && short then parseShortLambda self
      else if isQualifiedNameStart kind then parseQualifiedName
      else return false

/-! ## Postfix, unary and binary expressions -/

def parseAllExpression (expression_start : Nat) : P Unit :=
  wrapped expression_start .AllExpr do
    let _ ← expect .Dot "`.` before an all-expression"
    consumeTrivia
    match ← ask rawKind with
    | some .AllKw | some .AllVersionsInRangeKw =>
      let _ ← bump
      if ← ask (atToken .ParenOpen) then parseCallArguments self false
      else errorCurrent "expected arguments after an all-expression name"
    | some .AllVersionsKw =>
      let _ ← bump
    | _ => errorCurrent "expected an all-expression name"

def parsePropertyNavigation : P Unit :=
  node .PropertyNav do
    let _ ← expect .Dot "`.` before a property name"
    let _ ← consumeName "a property name"
    when (← ask (atToken .ParenOpen)) (parseCallArguments self false)

def parseArrowCall : P Unit :=
  node .ArrowCall do
    let _ ← expect .Arrow "`->`"
    let _ ← parseQualifiedName
    if ← ask (atToken .ParenOpen) then parseCallArguments self false
    else errorCurrent "expected arguments after an arrow-call name"

def parseFunctionCall (expression_start : Nat) : P Unit :=
  wrapped expression_start .FunctionCall (parseCallArguments self false)

def parseBracketIndex : P Unit :=
  node .BracketIndex do
    let _ ← expect .BracketOpen "`[` before an index"
    when (!(← ask (atToken .BracketClose))) do
      when (!(← self.expression LOWEST_PRECEDENCE)) do
        errorCurrent "expected an index expression"
        recoverUntil [.BracketClose, .Semicolon]
    let _ ← expect .BracketClose "`]` after an index"

/-- A wrap of the chain, if it may have one more. -/
def wrapPart (wrap_depth : Nat) (part : P Unit) : P (Nat × Bool) := do
  let (wrap_depth, reserved) ← reserveRetroactiveWrap wrap_depth
  when reserved part
  return (wrap_depth, reserved)

/-- One part of a postfix chain. -/
def parsePostfixPart (expression_start wrap_depth : Nat) (kind : TokenKind) : P (Nat × Bool) := do
  match kind with
  | .Dot =>
    if ← ask dotStartsAllExpression then
      wrapPart wrap_depth (parseAllExpression self expression_start)
    else
      parsePropertyNavigation self
      return (wrap_depth, true)
  | .Arrow =>
    parseArrowCall self
    return (wrap_depth, true)
  | .BracketOpen =>
    parseBracketIndex self
    return (wrap_depth, true)
  | .ParenOpen => wrapPart wrap_depth (parseFunctionCall self expression_start)
  | _ => return (wrap_depth, false)

/-- One turn of a postfix chain: its next part, if there is one. -/
def parsePostfixTurn (expression_start wrap_depth : Nat) : P (Nat × Bool) := do
  match ← ask significantKind with
  | none => return (wrap_depth, false)
  | some kind =>
    let before ← ask index
    let (wrap_depth, taken) ← parsePostfixPart self expression_start wrap_depth kind
    if taken then return (wrap_depth, ← moved before) else return (wrap_depth, false)

def parsePostfixExpression : P Bool := do
  match ← ask fun s => s.events.tail with
  | none =>
    errorCurrent "parser has no containing syntax node"
    return false
  | some expression_start =>
    if ← parsePrimaryExpression self then
      let _ ← loopWith 0 (parsePostfixTurn self expression_start)
      return true
    else return false

/-- The operand behind so many operators. -/
def parseOperand (unary_count : Nat) : P Bool := do
  let parsed_operand ← parsePostfixExpression self
  when (!parsed_operand && 0 < unary_count)
    (errorCurrent "expected an operand after a unary operator")
  return parsed_operand

/-- The operators before an operand, and the operand, when so many more
operators can come. -/
def parseUnaryOperators : Nat → P Bool
  | 0 => do
    if ← ask (atAny [.Plus, .Minus]) then
      errorCurrent "unary-expression nesting limit reached"
      return false
    else parseOperand self MAX_UNARY_OPERATOR_COUNT
  | remaining + 1 => do
    if ← ask (atAny [.Plus, .Minus]) then
      node .UnaryExpr do
        let _ ← bump
        parseUnaryOperators remaining
    else parseOperand self (MAX_UNARY_OPERATOR_COUNT - (remaining + 1))

def parseUnaryExpression : P Bool := do
  consumeTrivia
  parseUnaryOperators self MAX_UNARY_OPERATOR_COUNT

/-- One binary operator with its right side. Operators of one precedence in a
row stand in one node, which the last of them closes. -/
def parseBinaryPart (expression_start minimum_precedence : Nat) (active : Option Nat) :
    P (Option Nat × Bool) := do
  match ← ask binaryPrecedence with
  | none => return (active, false)
  | some precedence =>
    let before ← ask index
    if precedence < minimum_precedence then return (active, false)
    else
      when (active ≠ some precedence) do
        when active.isSome closeEvent
        wrapFrom expression_start .BinaryExpr
      consumeTrivia
      let _ ← bump
      when (!(← self.expression (precedence + 1))) do
        errorCurrent "expected an expression after an operator"
        recoverUntil EXPRESSION_BOUNDARIES
      return (some precedence, ← moved before)

def parseExpressionAtDepth (minimum_precedence : Nat) : P Bool := do
  match ← ask fun s => s.events.tail with
  | none =>
    errorCurrent "parser has no containing syntax node"
    return false
  | some expression_start =>
    if ← parseUnaryExpression self then
      let active ← loopWith none (parseBinaryPart self expression_start minimum_precedence)
      when active.isSome closeEvent
      return true
    else return false

def parseExpression (minimum_precedence : Nat) : P Bool := do
  if ← enterParseDepth then
    let parsed ← parseExpressionAtDepth self minimum_precedence
    leaveParseDepth
    return parsed
  else return false

/-! ## Sources -/

def consumeSourceSeparator : P Unit := do
  if ← ask atEof then return ()
  else if ← consumeIf .Semicolon then return ()
  else
    errorCurrent "expected `;` between query expressions"
    recoverUntil [.Semicolon]
    let _ ← consumeIf .Semicolon

/-- One turn of a source: a separator, or a query with the separator behind it. -/
def parseSourceTurn : P Bool := do
  if ← ask atEof then return false
  else
    let before ← ask index
    if ← consumeIf .Semicolon then
      consumeTrivia
      moved before
    else
      parseQueryExpression self
      consumeTrivia
      consumeSourceSeparator
      if ← moved before then
        consumeTrivia
        return true
      else return false

def parseSource : P Unit := do
  consumeTrivia
  loop (parseSourceTurn self)

end Productions

/-- The productions, which go into each other at most so deep. -/
def productions : Nat → Recur
  | 0 => ⟨fun _ _ => none, fun _ => none, fun _ => none⟩
  | fuel + 1 =>
    let self := productions fuel
    ⟨parseExpression self, parseTypeReference self, parsePrimaryExpression self⟩

/-- The events and the diagnostics of a source. -/
def parse (file : Nat) (tokens : List Token) : Option (List Event × List Diagnostic) :=
  let fuel := MAX_RECURSION_DEPTH + tokens.length + 1
  (node .Root (parseSource (productions fuel)) (Parser.new file tokens)).map fun (_, s) =>
    (s.events.toList, s.diagnostics)

/-- Parses a query with the tokens of the lexer. -/
def parseQuery (lex : Text → List Token) (source : Text) (file : Nat) :
    Option (Except BuildError Parse) :=
  let tokens := lex source
  (parse file tokens).map fun (events, diagnostics) =>
    let builder := events.foldl GreenNodeBuilder.push (.new 0 source tokens)
    builder.finish.map fun green => ⟨green, diagnostics⟩

end analyzer.m3
