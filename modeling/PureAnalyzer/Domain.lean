-- The parser of Domain sources (`pure-analyzer-parser`, `domain.rs`): classes,
-- associations and profiles become nodes, and every other region is kept in an
-- opaque node and reported as a coverage gap.
import PureAnalyzer.Parser

namespace analyzer.domain

open fragments model cst totality m3

def MAX_PARSE_DEPTH : Nat := 256

/-- Why a region of the source prevents a complete model view. -/
inductive DomainCoverageGapKind where
  | UnsupportedTopLevel
  | UnsupportedMember
  | MalformedDeclaration
deriving DecidableEq, Repr

structure DomainCoverageGap where
  span : TextRange
  kind : DomainCoverageGapKind
deriving DecidableEq

structure DomainParse where
  green : GreenNode
  diagnostics : List Diagnostic
  coverage_gaps : List DomainCoverageGap

inductive DeclarationKind where
  | Class
  | Association
  | Profile
deriving DecidableEq, Repr

/-! ## The state -/

structure Parser where
  source : Text
  file : Nat
  tokens : List Token
  index : Nat
  events : List Event
  diagnostics : List Diagnostic
  coverage_gaps : List DomainCoverageGap
  depth : Nat

/-- A step of the parser. It fails where the code panics, and when a bound on the
turns of a loop without a budget is too small. -/
abbrev P := StateT Parser Option

namespace Parser

def new (source : Text) (file : Nat) (tokens : List Token) : Parser :=
  ⟨source, file, tokens, 0, [], [], [], 0⟩

def rawKind (s : Parser) : Option TokenKind := (s.tokens[s.index]?).map Prod.fst

def atEnd (s : Parser) : Bool := s.rawKind.isNone

def currentSpan (s : Parser) : TextRange :=
  match s.tokens[s.index]? with
  | some (_, range) => range
  | none => m3.Parser.eofSpan s.tokens

def nextSignificantIndexFrom (s : Parser) (start : Nat) : Option Nat :=
  ((s.tokens.drop start).findIdx? fun token => !isTrivia token.1).map (start + ·)

def significantIndex (s : Parser) : Option Nat := s.nextSignificantIndexFrom s.index

def nextSignificantKind (s : Parser) (start : Nat) : Option TokenKind :=
  (s.nextSignificantIndexFrom start).bind fun index => (s.tokens[index]?).map Prod.fst

def significantKind (s : Parser) : Option TokenKind := s.nextSignificantKind s.index

def atToken (kind : TokenKind) (s : Parser) : Bool := s.significantKind = some kind

def rawAt (kind : TokenKind) (s : Parser) : Bool := s.rawKind = some kind

def atAny (kinds : List TokenKind) (s : Parser) : Bool := s.significantKind.any (kinds.contains ·)

def atKeyword (keyword : String) (s : Parser) : Bool :=
  (s.significantIndex.bind fun index => s.tokens[index]?).any fun token =>
    isName token.1 && slice s.source token.2 = ascii keyword

def declarationKind (s : Parser) : Option DeclarationKind :=
  if s.atKeyword "Class" then some .Class
  else if s.atKeyword "Association" then some .Association
  else if s.atKeyword "Profile" then some .Profile
  else none

/-- Three hashes without anything between them. -/
def atSectionHeader (s : Parser) : Bool :=
  match s.significantIndex with
  | none => false
  | some first =>
    [first, first + 1, first + 2].all fun index =>
      (s.tokens[index]?).any fun token => token.1 = .Hash

def atIgnoredTopLevel (s : Parser) : Bool := s.atKeyword "import" || s.atSectionHeader

/-- A name, and then a token of this kind. -/
def memberStarts (next : TokenKind) (s : Parser) : Bool :=
  match s.significantIndex with
  | none => false
  | some name =>
    ((s.tokens[name]?).any fun token => isName token.1) &&
      s.nextSignificantKind (name + 1) = some next

def memberStartsProperty (s : Parser) : Bool := s.memberStarts .Colon

def memberStartsQualifiedProperty (s : Parser) : Bool := s.memberStarts .ParenOpen

/-- Two tokens of this kind. -/
def atDouble (kind : TokenKind) (s : Parser) : Bool :=
  s.atToken kind &&
    s.significantIndex.any fun index => s.nextSignificantKind (index + 1) = some kind

def atDoubleAngleOpen (s : Parser) : Bool := s.atDouble .Lt

def atDoubleAngleClose (s : Parser) : Bool := s.atDouble .Gt

/-- Names with `::` or `.` between them, and maybe a `::` before them. -/
def annotationPath (saw_name expect_name leading_path_separator_allowed : Bool) :
    List TokenKind → Bool
  | [] => saw_name && !expect_name
  | kind :: rest =>
    if expect_name then
      if isName kind then annotationPath true false false rest
      else if !saw_name && leading_path_separator_allowed && kind = .PathSeparator then
        annotationPath saw_name expect_name false rest
      else false
    else if kind = .PathSeparator || kind = .Dot then
      annotationPath saw_name true leading_path_separator_allowed rest
    else false

def annotationPathIsValid (start stop : Nat) (s : Parser) : Bool :=
  annotationPath false true true
    ((((s.tokens.take stop).drop start).map Prod.fst).filter fun kind => !isTrivia kind)

/-- The tokens behind the opening brace, from an index on. -/
def bracedAnnotation (s : Parser) (open_brace depth : Nat) (assignment : Option Nat)
    (index : Nat) : List TokenKind → Bool
  | [] => false
  | kind :: rest =>
    if kind = .BraceOpen then bracedAnnotation s open_brace (depth + 1) assignment (index + 1) rest
    else if kind = .BraceClose then
      if depth - 1 = 0 then
        match assignment with
        | none => false
        | some assignment =>
          s.annotationPathIsValid (open_brace + 1) assignment &&
            (s.nextSignificantIndexFrom (assignment + 1)).any (· < index)
      else bracedAnnotation s open_brace (depth - 1) assignment (index + 1) rest
    else if kind = .Assign && assignment.isNone && depth = 1 then
      bracedAnnotation s open_brace depth (some index) (index + 1) rest
    else bracedAnnotation s open_brace depth assignment (index + 1) rest

def bracedAnnotationIsValid (s : Parser) : Bool :=
  match s.significantIndex with
  | none => false
  | some open_brace =>
    if (s.tokens[open_brace]?).map Prod.fst = some .BraceOpen then
      bracedAnnotation s open_brace 1 none (open_brace + 1)
        ((s.tokens.drop (open_brace + 1)).map Prod.fst)
    else false

def doubleAngleStereotypeIsValid (s : Parser) : Bool :=
  match s.significantIndex with
  | none => false
  | some first_open =>
    match s.nextSignificantIndexFrom (first_open + 1) with
    | none => false
    | some second_open =>
      if (s.tokens[first_open]?).map Prod.fst = some .Lt &&
          (s.tokens[second_open]?).map Prod.fst = some .Lt then
        -- the first `>` with another one behind it
        match ((List.range s.tokens.length).drop (second_open + 1)).find? fun index =>
            (s.tokens[index]?).map Prod.fst = some .Gt &&
              s.nextSignificantKind (index + 1) = some .Gt with
        | none => false
        | some first_close => s.annotationPathIsValid (second_open + 1) first_close
      else false

def atOpaqueMemberRecoveryBoundary (saw_property_colon : Bool) (s : Parser) : Bool :=
  s.rawAt .BraceClose || s.memberStartsProperty ||
    (saw_property_colon && s.memberStartsQualifiedProperty) || s.declarationKind.isSome

def atDeclarationHeaderRecoveryBoundary (s : Parser) : Bool :=
  s.rawAt .Semicolon || s.rawAt .BraceClose || s.declarationKind.isSome

def atMemberRecoveryBoundary (s : Parser) : Bool :=
  s.atToken .Semicolon || s.atToken .BraceClose || s.declarationKind.isSome ||
    s.memberStartsProperty || s.memberStartsQualifiedProperty

end Parser

open analyzer.domain.Parser

/-- How many delimiters of each sort are open. -/
structure Depths where
  parentheses : Nat
  brackets : Nat
  braces : Nat
deriving DecidableEq

def Depths.outside (depths : Depths) : Bool :=
  depths.parentheses = 0 && depths.brackets = 0 && depths.braces = 0

def adjustDelimiterDepths (depths : Depths) (s : Parser) : Depths :=
  match s.rawKind with
  | some .ParenOpen => { depths with parentheses := depths.parentheses + 1 }
  | some .ParenClose => { depths with parentheses := depths.parentheses - 1 }
  | some .BracketOpen => { depths with brackets := depths.brackets + 1 }
  | some .BracketClose => { depths with brackets := depths.brackets - 1 }
  | some .BraceOpen => { depths with braces := depths.braces + 1 }
  | some .BraceClose => { depths with braces := depths.braces - 1 }
  | _ => depths

/-! ## Events -/

def event (e : Event) : P Unit := change fun s => { s with events := s.events ++ [e] }

/-- Opens a node, goes on below it, and closes it. -/
def node {α : Type} (kind : NodeKind) (body : P α) : P α := do
  event (.Open (.Node kind))
  let a ← body
  event .Close
  return a

def pushDiagnostic (code : DiagCode) (span : TextRange) (message : String) : P Unit :=
  change fun s =>
    { s with diagnostics := s.diagnostics ++ [⟨code, .Error, message, ⟨s.file, span⟩⟩] }

def syntaxError (message : String) : P Unit := do
  pushDiagnostic .MalformedSyntax (← ask currentSpan) message

def bump : P Bool := do
  match ← ask rawKind with
  | none => return false
  | some kind =>
    let span ← ask currentSpan
    when (kind = .Error) (pushDiagnostic .BadToken span "unrecognized token")
    event .Advance
    change fun s => { s with index := s.index + 1 }
    return true

/-- The parser got past a token since. -/
def moved (before : Nat) : P Bool := ask fun s => s.index ≠ before

/-- A loop without a budget. There are more turns than tokens are left. -/
def loopWith {β : Type} (x : β) (body : β → P (β × Bool)) : P β := do
  let turns ← ask fun s => s.tokens.length - s.index + 1
  iterate body turns x

def loop (body : P Bool) : P Unit :=
  loopWith () fun _ => do return ((), ← body)

/-- A loop that takes at most so many turns, and then just goes on. -/
def budgeted {β : Type} (body : β → P (β × Bool)) : Nat → β → P β
  | 0, x => pure x
  | turns + 1, x => do
    let (x, again) ← body x
    if again then budgeted body turns x else pure x

/-- A loop with as many turns as there are tokens. -/
def budgetWith {β : Type} (x : β) (body : β → P (β × Bool)) : P β := do
  let budget ← ask fun s => s.tokens.length
  budgeted body budget x

def budget (body : P Bool) : P Unit :=
  budgetWith () fun _ => do return ((), ← body)

def consumeTrivia : P Unit :=
  budget do
    if (← ask rawKind).any isTrivia then
      let before ← ask index
      let _ ← bump
      moved before
    else return false

def consumeIfRaw (kind : TokenKind) : P Unit := do
  when (← ask (rawAt kind)) do
    let _ ← bump

def consumeIf (kind : TokenKind) : P Bool := do
  consumeTrivia
  let before ← ask index
  consumeIfRaw kind
  moved before

def expect (kind : TokenKind) (expected : String) : P Bool := do
  consumeTrivia
  if (← ask rawKind) = some kind then bump
  else
    syntaxError ("expected " ++ expected)
    return false

def expectKeyword (keyword : String) : P Bool := do
  consumeTrivia
  if ← ask (atKeyword keyword) then bump
  else
    syntaxError ("expected `" ++ keyword ++ "`")
    return false

def consumeName (expected : String) : P Bool := do
  consumeTrivia
  if (← ask rawKind).any isName then bump
  else
    syntaxError ("expected " ++ expected)
    return false

def enterParseDepth : P Bool := do
  if MAX_PARSE_DEPTH ≤ (← ask depth) then
    syntaxError "Domain type nesting limit reached"
    return false
  else
    change fun s => { s with depth := s.depth + 1 }
    return true

def leaveParseDepth : P Unit := change fun s => { s with depth := s.depth - 1 }

/-- A bad range is a panic. -/
def textRangeNew (start stop : Nat) : Option TextRange :=
  if h : start ≤ stop then some ⟨start, stop, h⟩ else none

/-- The span from a token up to the token before the current one. -/
def gapSpan (start : Nat) (s : Parser) : Option TextRange :=
  match s.tokens[start]? with
  | some (_, range) =>
    let stop := match s.tokens[s.index - 1]? with
      | some (_, last) => last.stop
      | none => range.stop
    textRangeNew range.start stop
  | none => some (m3.Parser.eofSpan s.tokens)

/-- The gaps with one more. It is merged into the last one where they touch. -/
def addGap (gaps : List DomainCoverageGap) (gap : DomainCoverageGap) :
    Option (List DomainCoverageGap) :=
  match gaps.getLast? with
  | some previous =>
    if previous.kind = gap.kind ∧ gap.span.start ≤ previous.span.stop ∧
        previous.span.start ≤ gap.span.stop then
      (textRangeNew (min previous.span.start gap.span.start)
        (max previous.span.stop gap.span.stop)).map fun span =>
          gaps.dropLast ++ [{ previous with span }]
    else some (gaps ++ [gap])
  | none => some (gaps ++ [gap])

def markGapFrom (start : Nat) (kind : DomainCoverageGapKind) : P Unit := fun s => do
  let span ← gapSpan start s
  let gaps ← addGap s.coverage_gaps ⟨span, kind⟩
  return ((), { s with coverage_gaps := gaps })

/-- What the branches against endless loops do. -/
def noProgress (message : String) : P Unit := do
  syntaxError message
  node .ErrorNode do
    let _ ← bump

/-! ## Recovery -/

def recoverUntil (boundaries : List TokenKind) : P Unit :=
  loop do
    if (← ask atEnd) || (← ask (atAny boundaries)) then return false
    else
      let before ← ask index
      let _ ← bump
      moved before

/-- Bumps up to a boundary, inside an error node that the caller opened. -/
def bumpUntil (boundary : Parser → Bool) : P Unit :=
  loop do
    if (← ask atEnd) || (← ask boundary) then return false
    else
      let before ← ask index
      let _ ← bump
      moved before

def recoverDeclarationHeader : P Unit :=
  node .ErrorNode do
    bumpUntil atDeclarationHeaderRecoveryBoundary
    let semicolon_start ← ask index
    consumeIfRaw .Semicolon
    when (!(← moved semicolon_start) && (← ask (rawAt .Semicolon)))
      (syntaxError "parser made no progress while consuming Domain recovery terminator")

def recoverMemberTail : P Unit := do
  when (!(← ask atMemberRecoveryBoundary)) do
    node .ErrorNode do
      bumpUntil atMemberRecoveryBoundary
      when (← ask (atToken .Semicolon)) do
        let _ ← consumeIf .Semicolon

def consumeMemberTerminator : P Bool := do
  consumeTrivia
  let semicolon_start ← ask index
  consumeIfRaw .Semicolon
  if ← moved semicolon_start then return true
  else
    syntaxError "expected `;` after a property declaration"
    when (!(← ask atEnd)) recoverMemberTail
    return false

/-! ## Delimited regions -/

/-- One turn: the braces that are open, whether the last one was closed, and
whether to go on. -/
def balancedTurn (depth : Nat) : P ((Nat × Bool) × Bool) := do
  let kind ← ask rawKind
  if kind.isNone then return ((depth, false), false)
  else
    let before ← ask index
    let _ ← bump
    if kind = some .BraceClose then
      if !(← moved before) then return ((depth - 1, false), false)
      else if depth - 1 = 0 then return ((depth - 1, true), false)
      else return ((depth - 1, false), true)
    else
      let depth := if kind = some .BraceOpen then depth + 1 else depth
      return ((depth, false), ← moved before)

def consumeBalancedBraces : P Bool := do
  if ← expect .BraceOpen "`\x7b` before a braced Domain construct" then
    let (_, closed) ← budgetWith (1, false) fun state => balancedTurn state.1
    when (!closed) (syntaxError "expected `\x7d` before end of file")
    return closed
  else return false

/-- One turn: whether the two `>` are behind, and whether to go on. -/
def doubleAngleTurn : P (Bool × Bool) := do
  if ← ask atEnd then return (false, false)
  else
    let before ← ask index
    if ← ask atDoubleAngleClose then
      let first ← expect .Gt "first `>` after stereotype applications"
      let second ← expect .Gt "second `>` after stereotype applications"
      return (first && second, false)
    else
      let _ ← bump
      return (false, ← moved before)

def consumeDoubleAngle : P Bool := do
  let first ← expect .Lt "first `<` before stereotype applications"
  let second ← expect .Lt "second `<` before stereotype applications"
  if first && second then
    let closed ← budgetWith false fun _ => doubleAngleTurn
    when (!closed) (syntaxError "expected `>>` before end of file")
    return closed
  else return false

/-- One turn of a region that is kept as it is, up to `;` or `}` outside all
delimiters. -/
def opaqueExpressionTurn (depths : Depths) : P (Depths × Bool) := do
  if ← ask atEnd then return (depths, false)
  else if depths.outside && ((← ask (rawAt .Semicolon)) || (← ask (rawAt .BraceClose))) then
    return (depths, false)
  else
    let depths ← ask (adjustDelimiterDepths depths)
    let _ ← bump
    return (depths, true)

def parseOpaqueExpression : P Unit :=
  node .DomainOpaqueBody do
    let _ ← loopWith ⟨0, 0, 0⟩ opaqueExpressionTurn

def parseOpaqueBody : P Unit :=
  node .DomainOpaqueBody do
    let _ ← consumeBalancedBraces

def topLevelTurn (state : Depths × Bool) : P ((Depths × Bool) × Bool) := do
  let (depths, consumed) := state
  if ← ask atEnd then return (state, false)
  else if consumed && depths.outside &&
      ((← ask declarationKind).isSome || (← ask atIgnoredTopLevel)) then return (state, false)
  else if consumed && depths.outside && (← ask (rawAt .BraceClose)) then return (state, false)
  else
    let ends_declaration := (← ask (rawAt .Semicolon)) && depths.outside
    let ends_braced_declaration := (← ask (rawAt .BraceClose)) && depths.braces = 1
    let depths ← ask (adjustDelimiterDepths depths)
    if ← bump then return ((depths, true), !(ends_declaration || ends_braced_declaration))
    else return ((depths, consumed), false)

/-- Up to the `;` or `}` that ends one top-level construct, or the next
declaration. -/
def consumeTopLevelConstruct (node_kind : NodeKind) : P Unit :=
  node node_kind do
    let _ ← loopWith (⟨0, 0, 0⟩, false) topLevelTurn

def parseOpaqueTopLevel : P Unit := do
  let start ← ask index
  consumeTopLevelConstruct .DomainOpaqueNode
  markGapFrom start .UnsupportedTopLevel

def parseIgnoredTopLevel : P Unit := consumeTopLevelConstruct .DomainIgnoredTopLevel

/-- The delimiters that are open, whether a token was consumed, and whether a
colon was seen outside all delimiters. -/
structure OpaqueMember where
  depths : Depths
  consumed : Bool
  saw_property_colon : Bool

def opaqueMemberTurn (state : OpaqueMember) : P (OpaqueMember × Bool) := do
  if ← ask atEnd then return (state, false)
  else if state.consumed && state.depths.outside &&
      (← ask (atOpaqueMemberRecoveryBoundary state.saw_property_colon)) then
    return (state, false)
  else
    let ends_member := (← ask (rawAt .Semicolon)) && state.depths.outside
    let colon := (← ask (rawAt .Colon)) && state.depths.outside
    let depths ← ask (adjustDelimiterDepths state.depths)
    let _ ← bump
    return (⟨depths, true, state.saw_property_colon || colon⟩, !ends_member)

def parseOpaqueMember : P Unit := do
  let start ← ask index
  node .DomainOpaqueNode do
    let _ ← loopWith ⟨⟨0, 0, 0⟩, false, false⟩ opaqueMemberTurn
  markGapFrom start .UnsupportedMember

/-! ## Stereotypes -/

/-- One application: whether it is closed. -/
def consumeApplication (braced structurally_valid : Bool) : P Bool :=
  node (if structurally_valid then .DomainStereotypeApplications else .ErrorNode) do
    if braced then consumeBalancedBraces else consumeDoubleAngle

def stereotypeApplication : P Bool := do
  if (← ask atEnd) || !((← ask (atToken .BraceOpen)) || (← ask atDoubleAngleOpen)) then return false
  else
    let start ← ask index
    let braced ← ask (atToken .BraceOpen)
    let structurally_valid ←
      ask (if braced then bracedAnnotationIsValid else doubleAngleStereotypeIsValid)
    let closed ← consumeApplication braced structurally_valid
    if !(← moved start) then
      noProgress "parser made no progress while reading Domain stereotype applications"
      return false
    else
      when (!structurally_valid || !closed) do
        when closed (syntaxError "malformed Domain stereotype or tagged-value application")
        markGapFrom start .MalformedDeclaration
      consumeTrivia
      return true

def parseStereotypeApplications : P Unit := do
  consumeTrivia
  budget stereotypeApplication

/-! ## Names and types -/

def parseDomainQualifiedName (expected : String) : P Bool :=
  node .DomainQualifiedName do
    let _ ← consumeIf .PathSeparator
    let valid ← consumeName expected
    loopWith valid fun valid => do
      if ← consumeIf .PathSeparator then
        let named ← consumeName "a name after `::`"
        return (valid && named, valid && named)
      else return (valid, false)

/-- Recovers behind a type argument, when no `>` is there. Says whether a comma is left. -/
def recoverTypeArgument : P Bool := do
  if ← ask (atToken .Gt) then return false
  else
    syntaxError "expected `,` or `>` after a type argument"
    recoverUntil [.Comma, .Gt]
    let comma_start ← ask index
    consumeIfRaw .Comma
    return !(← moved comma_start) && (← ask (rawAt .Comma))

def typeArgumentTurn (self : P Bool) (valid : Bool) : P (Bool × Bool) := do
  if (← ask atEnd) || (← ask (atToken .Gt)) then return (valid, false)
  else
    let argument_start ← ask index
    let argument ← self
    let valid := valid && argument
    consumeTrivia
    let comma_start ← ask index
    consumeIfRaw .Comma
    if ← moved comma_start then
      consumeTrivia
      if !(← moved argument_start) then
        syntaxError "parser made no progress after Domain type argument separator"
        return (false, false)
      else return (valid, true)
    else
      let stuck ← recoverTypeArgument
      if stuck then return (false, false)
      else if !(← moved argument_start) then
        syntaxError "parser made no progress while recovering Domain type arguments"
        return (false, false)
      else return (valid, true)

def typeArguments (self : P Bool) (valid : Bool) : P Bool := do
  consumeTrivia
  let empty ← ask (atToken .Gt)
  when empty (syntaxError "expected a type argument after `<`")
  let valid ← loopWith (valid && !empty) (typeArgumentTurn self)
  let closed ← expect .Gt "`>` after type arguments"
  return valid && closed

/-- A type. The types in it go at most so deep. -/
def parseDomainTypeReference : Nat → P Bool
  | 0 => fun _ => none
  | fuel + 1 => do
    if ← enterParseDepth then
      let valid ← node .DomainTypeRef do
        let valid ← parseDomainQualifiedName "a type name"
        if ← consumeIf .Lt then typeArguments (parseDomainTypeReference fuel) valid
        else return valid
      leaveParseDepth
      return valid
    else return false

def typeReference : P Bool := parseDomainTypeReference (MAX_PARSE_DEPTH + 1)

def consumeMultiplicityBound : P Bool := do
  if ← consumeIf .Integer then return true
  else if ← consumeIf .Star then return true
  else
    syntaxError "expected a multiplicity bound"
    return false

def multiplicityUpper : P Bool := do
  if ← consumeIf .Dot then
    if ← expect .Dot "second `.` in a multiplicity range" then consumeMultiplicityBound
    else return false
  else return true

def parseDomainMultiplicity : P Bool := do
  consumeTrivia
  if !(← ask (atToken .BracketOpen)) then
    syntaxError "expected a multiplicity after a type"
    return false
  else
    node .DomainMultiplicity do
      let open_bracket ← expect .BracketOpen "`[` before a multiplicity"
      let lower ← consumeMultiplicityBound
      let upper ← multiplicityUpper
      let close_bracket ← expect .BracketClose "`]` after a multiplicity"
      return open_bracket && lower && upper && close_bracket

/-! ## Members -/

/-- Marks a declaration that some part of is malformed. -/
def markMalformed (start : Nat) (parts : List Bool) : P Unit :=
  when (parts.contains false) (markGapFrom start .MalformedDeclaration)

def parseProperty : P Unit := do
  let start ← ask index
  node .DomainPropertyDecl do
    let name ← consumeName "a property name"
    let colon ← expect .Colon "`:` after a property name"
    let ty ← typeReference
    let multiplicity ← parseDomainMultiplicity
    when (← consumeIf .Assign) parseOpaqueExpression
    let terminator ← consumeMemberTerminator
    markMalformed start [name, colon, ty, multiplicity, terminator]

/-- Recovers behind a parameter. Says whether there is a next one. -/
def recoverParameter (before : Nat) : P Bool := do
  syntaxError "expected `,` or `)` after a qualified-property parameter"
  recoverUntil [.Comma, .ParenClose, .BraceClose]
  if !(← moved before) then return false
  else
    let comma_start ← ask index
    consumeIfRaw .Comma
    if ← moved comma_start then
      if !(← moved before) then
        syntaxError "parser made no progress after qualified-property parameter recovery"
        return false
      else return true
    else return false

def parseParameter : P Bool :=
  node .DomainParameterDecl do
    let name ← consumeName "a parameter name"
    let colon ← expect .Colon "`:` after a parameter name"
    let ty ← typeReference
    let multiplicity ← parseDomainMultiplicity
    return name && colon && ty && multiplicity

def parameterTurn (valid : Bool) : P (Bool × Bool) := do
  let before ← ask index
  let parameter ← parseParameter
  let valid := valid && parameter
  consumeTrivia
  let comma_start ← ask index
  consumeIfRaw .Comma
  if ← moved comma_start then
    consumeTrivia
    if ← ask (atToken .ParenClose) then
      syntaxError "expected a parameter after `,`"
      return (false, false)
    else if !(← moved before) then
      syntaxError "parser made no progress after qualified-property parameter separator"
      return (false, false)
    else return (valid, true)
  else if (← ask (atToken .ParenClose)) || (← ask atEnd) then return (valid, false)
  else return (false, ← recoverParameter before)

def parseParameterList : P Bool := do
  consumeTrivia
  if ← ask (atToken .ParenClose) then return true
  else loopWith true parameterTurn

/-- The parameters and the closing parenthesis. -/
def parameters (open_paren : Bool) : P (Bool × Bool) := do
  if open_paren then
    let parameters ← parseParameterList
    let close_paren ← expect .ParenClose "`)` after qualified-property parameters"
    return (parameters, close_paren)
  else return (false, false)

def qualifiedPropertyBody : P Bool := do
  if ← ask (atToken .BraceOpen) then
    parseOpaqueBody
    return true
  else
    syntaxError "expected `\x7b` before a qualified-property body"
    recoverMemberTail
    return false

def parseQualifiedProperty : P Unit := do
  let start ← ask index
  node .DomainQualifiedPropertyDecl do
    let name ← consumeName "a qualified-property name"
    let open_paren ← expect .ParenOpen "`(` after a qualified-property name"
    let (parameters, close_paren) ← parameters open_paren
    let colon ← expect .Colon "`:` after qualified-property parameters"
    let ty ← typeReference
    let multiplicity ← parseDomainMultiplicity
    let body ← qualifiedPropertyBody
    let _ ← consumeIf .Semicolon
    markMalformed start [name, open_paren, parameters, close_paren, colon, ty, multiplicity, body]

def parseMember (kind : DeclarationKind) : P Unit := do
  parseStereotypeApplications
  consumeTrivia
  if ← ask atEnd then return ()
  else if ← ask memberStartsProperty then parseProperty
  else if kind = .Class && (← ask memberStartsQualifiedProperty) then parseQualifiedProperty
  else parseOpaqueMember

/-! ## Declarations -/

/-- One turn of a body: its answer when it ends, and whether to go on. -/
def declarationBodyTurn (kind : DeclarationKind) : P (Option Bool × Bool) := do
  if ← ask atEnd then return (none, false)
  else
    consumeTrivia
    if ← ask atEnd then return (none, false)
    else if ← ask (atToken .BraceClose) then
      let _ ← bump
      return (some true, false)
    else if (← ask declarationKind).isSome then
      syntaxError "expected `\x7d` before the next Domain declaration"
      return (some false, false)
    else
      let semicolon_start ← ask index
      consumeIfRaw .Semicolon
      when (!(← moved semicolon_start)) do
        let before ← ask index
        parseMember kind
        when (!(← moved before))
          (noProgress "parser made no progress while reading a Domain member")
      when (!(← moved semicolon_start))
        (noProgress "parser made no progress after checking a Domain member terminator")
      return (none, true)

def bodyEnd : Option Bool → P Bool
  | some answer => return answer
  | none => do
    syntaxError "expected `\x7d` before end of file"
    return false

def parseDeclarationBody (kind : DeclarationKind) : P Bool := do
  if ← expect .BraceOpen "`\x7b` before declaration body" then
    bodyEnd (← loopWith none fun _ => declarationBodyTurn kind)
  else
    recoverDeclarationHeader
    return false

def supertypeTurn (valid : Bool) : P (Bool × Bool) := do
  consumeTrivia
  let comma_start ← ask index
  consumeIfRaw .Comma
  if !(← moved comma_start) then return (valid, false)
  else
    let named ← parseDomainQualifiedName "a supertype after `,`"
    if !(← moved comma_start) then
      syntaxError "parser made no progress after Domain extends separator"
      return (false, false)
    else return (valid && named, true)

def firstSupertype : P Bool := do
  if ← expectKeyword "extends" then parseDomainQualifiedName "a supertype after `extends`"
  else return false

def parseExtendsClause : P Bool :=
  node .DomainExtendsClause do
    let valid ← firstSupertype
    let valid ← loopWith valid supertypeTurn
    when (!valid) (syntaxError "expected a valid supertype after `extends`")
    return valid

def optionalExtends : P Bool := do
  if ← ask (atKeyword "extends") then parseExtendsClause else return true

def parseClass : P Unit := do
  let start ← ask index
  node .DomainClassDecl do
    let keyword ← expectKeyword "Class"
    parseStereotypeApplications
    let name ← parseDomainQualifiedName "a class name"
    let extends_ ← optionalExtends
    let body ← parseDeclarationBody .Class
    markMalformed start [keyword, name, extends_, body]

def parseAssociation : P Unit := do
  let start ← ask index
  node .DomainAssociationDecl do
    let keyword ← expectKeyword "Association"
    parseStereotypeApplications
    let name ← parseDomainQualifiedName "an association name"
    let body ← parseDeclarationBody .Association
    markMalformed start [keyword, name, body]

/-! ## Profiles -/

/-- Recovers behind a stereotype, when no `]` is there. Says whether a comma is left. -/
def recoverStereotype (at_close : Bool) : P Bool := do
  if at_close then return false
  else
    syntaxError "expected `,` or `]` after a stereotype name"
    recoverUntil [.Comma, .BracketClose]
    let comma_start ← ask index
    consumeIfRaw .Comma
    return !(← moved comma_start) && (← ask (rawAt .Comma))

def stereotypeTurn (valid : Bool) : P (Bool × Bool) := do
  if (← ask atEnd) || (← ask (atToken .BracketClose)) then return (valid, false)
  else
    let start ← ask index
    let name ← node .DomainStereotypeDecl (consumeName "a stereotype name")
    when (!name) (recoverUntil [.Comma, .BracketClose])
    consumeTrivia
    let comma_start ← ask index
    consumeIfRaw .Comma
    if ← moved comma_start then
      consumeTrivia
      return (valid && name, true)
    else
      let at_close ← ask (atToken .BracketClose)
      let stuck ← recoverStereotype at_close
      if stuck then return (false, false)
      else if !(← moved start) then
        noProgress "parser made no progress in stereotype list"
        return (false, false)
      else return (valid && name && at_close, true)

def parseStereotypeList : P Bool := do
  consumeTrivia
  budgetWith true stereotypeTurn

def tagTurn (depth : Nat) : P (Nat × Bool) := do
  match ← ask rawKind with
  | none => return (depth, false)
  | some .BracketClose =>
    if depth = 0 then return (depth, false)
    else
      let _ ← bump
      return (depth - 1, true)
  | some .BracketOpen | some .ParenOpen | some .BraceOpen =>
    let _ ← bump
    return (depth + 1, true)
  | some .ParenClose | some .BraceClose =>
    let _ ← bump
    return (depth - 1, true)
  | some _ =>
    let _ ← bump
    return (depth, true)

def consumeProfileTagList : P Unit := do
  let _ ← loopWith 0 tagTurn

def sectionItems (stereotypes : Bool) : P Bool := do
  if stereotypes then parseStereotypeList
  else
    consumeProfileTagList
    return true

/-- The contents of a section and its closing bracket. -/
def sectionContents (stereotypes header : Bool) : P (Bool × Bool) := do
  if header then
    let contents ← sectionItems stereotypes
    let close_bracket ← expect .BracketClose "`]` after a profile section"
    return (contents, close_bracket)
  else return (false, false)

def parseProfileSection : P Bool := do
  let stereotypes ← ask (atKeyword "stereotypes")
  node .DomainProfileSection do
    let _ ← bump
    let colon ← expect .Colon "`:` after a profile section name"
    let open_bracket ← expect .BracketOpen "`[` after a profile section name"
    let (contents, close_bracket) ← sectionContents stereotypes (colon && open_bracket)
    let _ ← consumeIf .Semicolon
    return (colon && open_bracket) && contents && close_bracket

/-- One member of a profile: whether it is valid. -/
def profileMember : P Bool := do
  if (← ask (atKeyword "stereotypes")) || (← ask (atKeyword "tags")) then parseProfileSection
  else
    let semicolon_start ← ask index
    consumeIfRaw .Semicolon
    when (!(← moved semicolon_start)) parseOpaqueMember
    return true

/-- One turn of a body: whether it is valid so far, its answer when it ends, and
whether to go on. -/
def profileBodyTurn (valid : Bool) : P ((Bool × Option Bool) × Bool) := do
  if ← ask atEnd then return ((valid, none), false)
  else
    consumeTrivia
    if ← ask atEnd then return ((valid, none), false)
    else if ← ask (atToken .BraceClose) then
      let _ ← bump
      return ((valid, some valid), false)
    else if (← ask declarationKind).isSome then
      syntaxError "expected `\x7d` before the next Domain declaration"
      return ((valid, some false), false)
    else
      let before ← ask index
      let member ← profileMember
      if !(← moved before) then
        noProgress "parser made no progress while reading Domain profile member"
        return ((false, none), true)
      else return ((valid && member, none), true)

def parseProfileBody : P Bool := do
  if ← expect .BraceOpen "`\x7b` before profile body" then
    let (_, answer) ← loopWith (true, none) fun state => profileBodyTurn state.1
    bodyEnd answer
  else
    recoverDeclarationHeader
    return false

def parseProfile : P Unit := do
  let start ← ask index
  node .DomainProfileDecl do
    let keyword ← expectKeyword "Profile"
    parseStereotypeApplications
    let name ← parseDomainQualifiedName "a profile name"
    let body ← parseProfileBody
    markMalformed start [keyword, name, body]

/-! ## Files -/

def parseDeclaration : P Unit := do
  match ← ask declarationKind with
  | some .Class => parseClass
  | some .Association => parseAssociation
  | some .Profile => parseProfile
  | none => if ← ask atIgnoredTopLevel then parseIgnoredTopLevel else parseOpaqueTopLevel

def fileTurn : P Bool := do
  if ← ask atEnd then return false
  else
    consumeTrivia
    if ← ask atEnd then return false
    else if ← ask (rawAt .Semicolon) then
      let _ ← bump
      return true
    else
      let before ← ask index
      parseDeclaration
      if ← moved before then return true
      else
        syntaxError "parser made no progress while reading a Domain declaration"
        node .ErrorNode bump

/-- In the order of their starts and then of their ends. -/
def gapLe (a b : DomainCoverageGap) : Bool :=
  a.span.start < b.span.start || (a.span.start = b.span.start && a.span.stop ≤ b.span.stop)

/-- The events, the diagnostics and the gaps of a file. -/
def parse (source : Text) (file : Nat) (tokens : List Token) :
    Option (List Event × List Diagnostic × List DomainCoverageGap) :=
  (node .Root (node .DomainFile (budget fileTurn)) (.new source file tokens)).map fun (_, s) =>
    (s.events, s.diagnostics, s.coverage_gaps.mergeSort gapLe)

def parseDomain (lex : Text → List Token) (source : Text) (file : Nat) :
    Option (Except BuildError DomainParse) :=
  let tokens := lex source
  (parse source file tokens).map fun (events, diagnostics, coverage_gaps) =>
    let builder := events.foldl GreenNodeBuilder.push (.new 0 source tokens)
    builder.finish.map fun green => ⟨green, diagnostics, coverage_gaps⟩

end analyzer.domain
