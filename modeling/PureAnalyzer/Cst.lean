-- Concrete syntax trees (`pure-analyzer-syntax`): the kinds of tokens and of
-- nodes, the tree, and the builder that folds the events of a parser into
-- one tree over the tokens of the lexer.
import PureAnalyzer.ModelTypes
import Mathlib.Algebra.GroupWithZero.Nat

namespace analyzer.cst

open fragments model

/-! ## Kinds -/

inductive TokenKind where
  | DateTime | StrictDate | LatestDate | Percent
  | Tilde | Dollar | Arrow | Pipe | At | NewSymbol | Dot | Comma | PathSeparator | Colon
  | ParenOpen | ParenClose | BracketOpen | BracketClose
  | Eq | Neq | Plus | Minus | Star | Slash | Le | Lt | Ge | Gt | Semicolon
  | BraceOpen | BraceClose
  | AllKw | LetKw | AllVersionsKw | AllVersionsInRangeKw | ToBytesKw
  | Ident | Integer | Boolean | String
  | HashStoreOpen | HashIslandOpen | NavPathBlock | IslandEnd | Hash
  | Whitespace | LineComment | BlockComment
  | Error | Assign
deriving DecidableEq, Repr

inductive NodeKind where
  | Root | ErrorNode | BinaryExpr | QueryExpr | AllExpr | QualifiedName | VariableExpr
  | LiteralExpr | ParenExpr | UnaryExpr | ArrowCall | PropertyNav | BracketIndex | CallArgs
  | LambdaExpr | LambdaParams | CodeBlock | LetStmt | ColumnSpec | ColumnSpecArray
  | NewInstanceExpr | CastExpr | RelationType | ColumnInfo
  | Island | StoreTablePointer | NavPathIsland | OpaqueIsland
  | TypeRef | Multiplicity | FunctionCall | CollectionLiteral | ColumnName
  | DomainFile | DomainClassDecl | DomainAssociationDecl | DomainProfileDecl
  | DomainStereotypeDecl | DomainStereotypeApplications | DomainExtendsClause
  | DomainPropertyDecl | DomainQualifiedPropertyDecl | DomainParameterDecl | DomainTypeRef
  | DomainMultiplicity | DomainQualifiedName | DomainOpaqueNode | DomainOpaqueBody
  | DomainProfileSection | DomainIgnoredTopLevel
deriving DecidableEq, Repr

/-- A terminal or a nonterminal kind. -/
inductive SyntaxKind where
  | Token (kind : TokenKind)
  | Node (kind : NodeKind)
deriving DecidableEq, Repr

def SyntaxKind.isNode : SyntaxKind → Bool
  | Token _ => false
  | Node _ => true

/-- A token of the lexer: its kind, and its bytes in the source. -/
abbrev Token := TokenKind × TextRange

/-! ## Text -/

/-- No character of the text goes on over the offset. -/
def isCharBoundary (source : Text) (offset : Nat) : Bool :=
  offset = 0 || offset = source.length ||
    match source[offset]? with
    | some byte => byte < 0x80 || 0xC0 ≤ byte
    | none => false

/-- The bytes of a range, or none when it does not cut the text. -/
def slice (source : Text) (range : TextRange) : Text :=
  if range.stop ≤ source.length && isCharBoundary source range.start &&
      isCharBoundary source range.stop then
    (source.take range.stop).drop range.start
  else []

/-! ## Trees -/

structure GreenToken where
  kind : SyntaxKind
  text : Text
  range : TextRange
deriving DecidableEq

def GreenToken.new (kind : SyntaxKind) (source : Text) (range : TextRange) : GreenToken :=
  ⟨kind, slice source range, range⟩

mutual

inductive GreenNode where
  | new (kind : SyntaxKind) (children : List GreenElement) (range : TextRange)

inductive GreenElement where
  | Node (node : GreenNode)
  | Token (token : GreenToken)

end

def GreenNode.kind : GreenNode → SyntaxKind
  | new kind _ _ => kind

def GreenNode.children : GreenNode → List GreenElement
  | new _ children _ => children

def GreenNode.textRange : GreenNode → TextRange
  | new _ _ range => range

mutual

/-- The tokens below a node, from the left. -/
def GreenNode.tokens : GreenNode → List GreenToken
  | .new _ children _ => tokensOf children

def tokensOf : List GreenElement → List GreenToken
  | [] => []
  | .Node node :: rest => node.tokens ++ tokensOf rest
  | .Token token :: rest => token :: tokensOf rest

end

mutual

/-- A node and the nodes below it. -/
def GreenNode.nodes : GreenNode → List GreenNode
  | .new kind children range => .new kind children range :: nodesOf children

def nodesOf : List GreenElement → List GreenNode
  | [] => []
  | .Node node :: rest => node.nodes ++ nodesOf rest
  | .Token _ :: rest => nodesOf rest

end

/-- The text that a node covers. -/
def GreenNode.text (node : GreenNode) : Text := node.tokens.flatMap GreenToken.text

/-! ## The builder -/

/-- What a parser does next. -/
inductive Event where
  | Open (kind : SyntaxKind)
  | Advance
  | Close
deriving DecidableEq, Repr

/-- A place among the events of one builder. -/
structure Checkpoint where
  owner : Nat
  marker : Nat
deriving DecidableEq, Repr

inductive BuildError where
  | SourceTooLong (length : Nat)
  | EmptyTokenRange (token_index offset : Nat)
  | NonContiguousTokenRange (token_index expected actual : Nat)
  | TokenRangeOutsideSource (token_index : Nat) (range : TextRange) (source_end : Nat)
  | InvalidUtf8Boundary (token_index offset : Nat)
  | IncompleteTokenCoverage (expected actual : Nat)
  | ExpectedNodeKind (event_index : Nat) (kind : SyntaxKind)
  | NestedRoot (event_index : Nat)
  | ForeignCheckpoint
  | InvalidCheckpoint
  | AdvanceOutsideNode (event_index : Nat)
  | AdvancePastTokens (event_index token_count : Nat)
  | CloseWithoutOpen (event_index : Nat)
  | UnclosedNodes (count : Nat)
  | UnconsumedTokens (consumed total : Nat)
  | MissingRoot
  | MultipleRoots (count : Nat)
  | ExpectedRootKind (actual : SyntaxKind)
deriving DecidableEq

inductive BuilderEvent where
  | Event (event : cst.Event)
  | Checkpoint (marker : Nat)
deriving DecidableEq, Repr

def BuilderEvent.event : BuilderEvent → Option cst.Event
  | Event event => some event
  | Checkpoint _ => none

/-- The owner tells builders apart. -/
structure GreenNodeBuilder where
  source : Text
  tokens : List Token
  events : List BuilderEvent
  owner : Nat

/-- The largest `TextSize`. -/
def TEXT_SIZE_MAX : Nat := 2 ^ 32 - 1

def sourceEnd (source : Text) : Except BuildError Nat :=
  if source.length ≤ TEXT_SIZE_MAX then .ok source.length else .error (.SourceTooLong source.length)

def validateTokenRange (source : Text) (token_index : Nat) (range : TextRange)
    (expected source_end : Nat) : Except BuildError Unit :=
  if range.start ≠ expected then .error (.NonContiguousTokenRange token_index expected range.start)
  else if range.stop = range.start then .error (.EmptyTokenRange token_index range.start)
  else if range.stop > source_end then .error (.TokenRangeOutsideSource token_index range source_end)
  else if !isCharBoundary source range.start then
    .error (.InvalidUtf8Boundary token_index range.start)
  else if !isCharBoundary source range.stop then
    .error (.InvalidUtf8Boundary token_index range.stop)
  else .ok ()

/-- Every token starts where the one before it ends. Gives the last end. -/
def validateTokenRanges (source : Text) (source_end : Nat) (token_index expected : Nat) :
    List Token → Except BuildError Nat
  | [] => .ok expected
  | (_, range) :: tokens => do
    validateTokenRange source token_index range expected source_end
    validateTokenRanges source source_end (token_index + 1) range.stop tokens

def validateTokens (source : Text) (tokens : List Token) : Except BuildError Nat := do
  let source_end ← sourceEnd source
  let last ← validateTokenRanges source source_end 0 0 tokens
  if last ≠ source_end then .error (.IncompleteTokenCoverage source_end last) else .ok source_end

structure PendingNode where
  kind : SyntaxKind
  children : List GreenElement
  start : Nat

/-- The fold: the open nodes from the innermost, the finished roots, and how
far the tokens are used up. -/
structure FoldState where
  stack : List PendingNode
  roots : List GreenNode
  token_index : Nat
  offset : Nat

def openNode (event_index : Nat) (kind : SyntaxKind) (s : FoldState) :
    Except BuildError FoldState :=
  if !kind.isNode then .error (.ExpectedNodeKind event_index kind)
  else if kind = .Node .Root && !s.stack.isEmpty then .error (.NestedRoot event_index)
  else .ok { s with stack := ⟨kind, [], s.offset⟩ :: s.stack }

def advanceToken (source : Text) (tokens : List Token) (event_index : Nat) (s : FoldState) :
    Except BuildError FoldState :=
  match s.stack with
  | [] => .error (.AdvanceOutsideNode event_index)
  | parent :: stack =>
    match tokens[s.token_index]? with
    | none => .error (.AdvancePastTokens event_index tokens.length)
    | some (kind, range) =>
      let child := GreenElement.Token (.new (.Token kind) source range)
      .ok { s with
        stack := { parent with children := parent.children ++ [child] } :: stack
        token_index := s.token_index + 1
        offset := range.stop }

/-- A node from the offset it was opened at to the offset it is closed at. -/
def pendingRange (start offset : Nat) : TextRange :=
  if h : start ≤ offset then ⟨start, offset, h⟩ else ⟨offset, offset, Nat.le_refl offset⟩

def closeNode (event_index : Nat) (s : FoldState) : Except BuildError FoldState :=
  match s.stack with
  | [] => .error (.CloseWithoutOpen event_index)
  | pending :: stack =>
    let node := GreenNode.new pending.kind pending.children (pendingRange pending.start s.offset)
    match stack with
    | [] => .ok { s with stack := [], roots := s.roots ++ [node] }
    | parent :: stack =>
      let parent := { parent with children := parent.children ++ [.Node node] }
      .ok { s with stack := parent :: stack }

def foldEvent (source : Text) (tokens : List Token) (event_index : Nat) (event : Event)
    (s : FoldState) : Except BuildError FoldState :=
  match event with
  | .Open kind => openNode event_index kind s
  | .Advance => advanceToken source tokens event_index s
  | .Close => closeNode event_index s

def foldFrom (source : Text) (tokens : List Token) (event_index : Nat) :
    List Event → FoldState → Except BuildError FoldState
  | [], s => .ok s
  | event :: events, s => do
    let s ← foldEvent source tokens event_index event s
    foldFrom source tokens (event_index + 1) events s

def finishRoot (s : FoldState) (total source_end : Nat) : Except BuildError GreenNode :=
  if !s.stack.isEmpty then .error (.UnclosedNodes s.stack.length)
  else if s.token_index ≠ total then .error (.UnconsumedTokens s.token_index total)
  else
    match s.roots with
    | [] => .error .MissingRoot
    | [root] =>
      if root.kind ≠ .Node .Root then .error (.ExpectedRootKind root.kind)
      else if root.textRange.start ≠ 0 || root.textRange.stop ≠ source_end then
        .error (.IncompleteTokenCoverage source_end root.textRange.stop)
      else .ok root
    | roots => .error (.MultipleRoots roots.length)

def foldEvents (source : Text) (tokens : List Token) (events : List Event) (source_end : Nat) :
    Except BuildError GreenNode := do
  let s ← foldFrom source tokens 0 events ⟨[], [], 0, 0⟩
  finishRoot s tokens.length source_end

namespace GreenNodeBuilder

def new (owner : Nat) (source : Text) (tokens : List Token) : GreenNodeBuilder :=
  ⟨source, tokens, [], owner⟩

def push (builder : GreenNodeBuilder) (event : Event) : GreenNodeBuilder :=
  { builder with events := builder.events ++ [.Event event] }

/-- A marker of its own at the end of the events. -/
def checkpoint (builder : GreenNodeBuilder) : Checkpoint × GreenNodeBuilder :=
  let marker := builder.events.length
  (⟨builder.owner, marker⟩, { builder with events := builder.events ++ [.Checkpoint marker] })

/-- Puts an open event before a marker. -/
def openAt (builder : GreenNodeBuilder) (checkpoint : Checkpoint) (kind : SyntaxKind) :
    Except BuildError GreenNodeBuilder :=
  if builder.owner ≠ checkpoint.owner then .error .ForeignCheckpoint
  else
    match builder.events.findIdx? (· = .Checkpoint checkpoint.marker) with
    | none => .error .InvalidCheckpoint
    | some marker_index =>
      let before := builder.events.take marker_index
      if !kind.isNode then
        .error (.ExpectedNodeKind (before.filterMap BuilderEvent.event).length kind)
      else
        .ok { builder with
          events := before ++ .Event (.Open kind) :: builder.events.drop marker_index }

/-- Checks the tokens, and builds exactly one root. -/
def finish (builder : GreenNodeBuilder) : Except BuildError GreenNode := do
  let source_end ← validateTokens builder.source builder.tokens
  foldEvents builder.source builder.tokens (builder.events.filterMap BuilderEvent.event) source_end

end GreenNodeBuilder

end analyzer.cst
