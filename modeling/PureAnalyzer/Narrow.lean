-- The narrowing rules (`schema/narrow.rs`). Each position of the scope
-- machine keeps some tokens of the vocabulary: the names of a trie from the
-- bytes already open, or the tokens that pass a test. The masks are kept in
-- a cache by rule.
import PureAnalyzer.Mask
import PureAnalyzer.Scope
import PureAnalyzer.Trie

namespace purecard.narrow

open pushdown pda model scope trie mask vocab

/-! ## The tokens a rule keeps -/

/-- The mask of the tokens whose bytes pass a test. -/
def fillTokens (dst : BitMask) (vocab : Vocab) (keep : List UInt8 → Bool) : BitMask :=
  (List.range vocab.lenU32).foldl
    (fun dst id => if keep ((vocab.bytes id).getD []) then dst.set id else dst) dst.clearAll

def opensWith (bytes : List UInt8) (keep : UInt8 → Bool) : Bool := bytes.head?.any keep

def BOOLEAN_OR : List UInt8 := lit "||"

def keepsValueIdent (bytes : List UInt8) : Bool :=
  match bytes with
  | [] => false
  | byte :: _ =>
    if isIdentTail byte then true
    else if byte = '.' || byte = ':' || byte = '(' then true
    else if byte = '|' then !BOOLEAN_OR.isPrefixOf bytes
    else false

/-- An open value name may only go on, or be navigated, typed or called. The
stream may not end on it. -/
def fillValueIdent (dst : BitMask) (vocab : Vocab) : BitMask :=
  fillTokens dst vocab keepsValueIdent

/-- A literal is kept as an operand where it has the type of the other side. -/
def keepsOperand (lex : Lexeme) (lhs : TypeClass) : Bool :=
  match lex with
  | .Str _ => lhs = .Str
  | .Number => lhs = .Numeric
  | .Date => lhs = .Temporal
  | _ => true

def NUMBER_OPENERS : List UInt8 := lit ".-"

def keepsNumberOpener (bytes : List UInt8) (accepts_number : Bool) : Bool :=
  accepts_number || !opensWith bytes NUMBER_OPENERS.contains

def keepsOperandToken (masked_by : TypeClass) (bytes : List UInt8) : Bool :=
  keepsOperand (classify bytes) masked_by &&
    keepsNumberOpener bytes (keepsOperand .Number masked_by)

def fillOperand (dst : BitMask) (vocab : Vocab) (eos_bit : Nat) (masked_by : TypeClass) :
    BitMask :=
  (fillTokens dst vocab (keepsOperandToken masked_by)).set eos_bit

/-- No literal and no pipe opens the operand of a logical operator. -/
def keepsLogicalOperand (bytes : List UInt8) : Bool :=
  keepsOperand (classify bytes) .Boolean &&
    keepsNumberOpener bytes (keepsOperand .Number .Boolean) && !opensWith bytes (· = '|')

def fillLogicalOperand (dst : BitMask) (vocab : Vocab) (eos_bit : Nat) : BitMask :=
  (fillTokens dst vocab keepsLogicalOperand).set eos_bit

def keepsExtentMethodArg (lex : Lexeme) (arg : ExtentArg) : Bool :=
  match lex with
  | .Str _ | .Date => false
  | .Number => arg = .Integer
  | _ => true

def keepsExtentMethodArgToken (arg : ExtentArg) (bytes : List UInt8) : Bool :=
  keepsExtentMethodArg (classify bytes) arg &&
    keepsNumberOpener bytes (keepsExtentMethodArg .Number arg)

def fillExtentMethodArg (dst : BitMask) (vocab : Vocab) (eos_bit : Nat) (arg : ExtentArg) :
    BitMask :=
  (fillTokens dst vocab (keepsExtentMethodArgToken arg)).set eos_bit

def isOrderedComparator (bytes : List UInt8) : Bool :=
  [lit "<", lit ">", lit "<=", lit ">="].contains bytes

/-- Only numbers and dates are compared by order. -/
def keepsComparator (lhs : TypeClass) (bytes : List UInt8) : Bool :=
  if isOrderedComparator bytes then lhs = .Numeric || lhs = .Temporal else true

def fillComparator (dst : BitMask) (vocab : Vocab) (eos_bit : Nat) (masked_by : TypeClass) :
    BitMask :=
  (fillTokens dst vocab (keepsComparator masked_by)).set eos_bit

def ORDERED_OPERAND_DENIED_OPENERS : List UInt8 := lit "&|*/"

def keepsOrderedOperand (bytes : List UInt8) : Bool :=
  !isOrderedComparator bytes && !opensWith bytes ORDERED_OPERAND_DENIED_OPENERS.contains

def fillOrderedOperand (dst : BitMask) (vocab : Vocab) (eos_bit : Nat) : BitMask :=
  (fillTokens dst vocab keepsOrderedOperand).set eos_bit

/-- Only numbers are summed or averaged. -/
def keepsReducer (tc : TypeClass) (bytes : List UInt8) : Bool :=
  !(bytes = lit "sum" || bytes = lit "average") || tc = .Numeric

def fillReducer (dst : BitMask) (vocab : Vocab) (eos_bit : Nat) (masked_by : TypeClass) :
    BitMask :=
  (fillTokens dst vocab (keepsReducer masked_by)).set eos_bit

/-- A date argument, or the end of the call once it has the dates it needs. -/
def keepsSourceMethodArg (required : Option Nat) (seen : Nat) (bytes : List UInt8) : Bool :=
  match classify bytes with
  | .Ws => true
  | .Close => required.all (· ≤ seen)
  | .Date | .Dollar => required.all (seen < ·)
  | _ => false

def fillSourceMethodArg (dst : BitMask) (vocab : Vocab) (eos_bit : Nat) (required : Option Nat)
    (seen : Nat) : BitMask :=
  (fillTokens dst vocab (keepsSourceMethodArg required seen)).set eos_bit

/-- Whether a byte stays inside the lexeme that a state is in. -/
def continuesOpenLexeme (state : State) (byte : UInt8) : Bool :=
  state.lexemeKind.isSome && match step state none byte with
    | .Next next => next.lexemeKind = state.lexemeKind
    | _ => false

/-- The byte an argument list owes after a whole argument. -/
def owedSeparator (remaining : Bool) : UInt8 := if remaining then ',' else ')'

def keepsSourceMethodArgSep (remaining : Bool) (state : State) (bytes : List UInt8) : Bool :=
  opensWith bytes fun byte =>
    isAsciiWhitespace byte || byte = owedSeparator remaining || continuesOpenLexeme state byte

def fillSourceMethodArgSep (dst : BitMask) (vocab : Vocab) (eos_bit : Nat) (remaining : Bool)
    (state : State) : BitMask :=
  (fillTokens dst vocab (keepsSourceMethodArgSep remaining state)).set eos_bit

def keepsStoreMethodArg (bytes : List UInt8) : Bool :=
  opensWith bytes fun byte => isAsciiWhitespace byte || byte = QUOTE

def fillStoreMethodArg (dst : BitMask) (vocab : Vocab) (eos_bit : Nat) : BitMask :=
  (fillTokens dst vocab keepsStoreMethodArg).set eos_bit

def keepsStoreMethodArgSep (remaining : Bool) (bytes : List UInt8) : Bool :=
  opensWith bytes fun byte =>
    isAsciiWhitespace byte || byte = owedSeparator remaining || byte = QUOTE

def fillStoreMethodArgSep (dst : BitMask) (vocab : Vocab) (eos_bit : Nat) (remaining : Bool) :
    BitMask :=
  (fillTokens dst vocab (keepsStoreMethodArgSep remaining)).set eos_bit

def opensStepArrow (bytes : List UInt8) : Bool :=
  bytes.length = 1 || (lit "->").isPrefixOf bytes

def completesStepArrow (bytes : List UInt8) : Bool := bytes.head? = some '>'

/-- Behind an extent: an arrow, a dot, white space, or the end of the term. -/
def keepsSourceExtent (after_dash : Bool) (bytes : List UInt8) : Bool :=
  if after_dash then completesStepArrow bytes
  else match bytes with
    | [] => false
    | byte :: _ =>
      if isAsciiWhitespace byte || byte = '.' || TERM_END_BYTES.contains byte then true
      else if byte = '-' then opensStepArrow bytes
      else false

def fillSourceExtent (dst : BitMask) (vocab : Vocab) (eos_bit : Nat) (after_dash : Bool) :
    BitMask :=
  (fillTokens dst vocab (keepsSourceExtent after_dash)).set eos_bit

def keepsReceiverOnlyArg (bytes : List UInt8) : Bool :=
  opensWith bytes fun byte => isAsciiWhitespace byte || byte = ')'

def fillReceiverOnlyArg (dst : BitMask) (vocab : Vocab) (eos_bit : Nat) : BitMask :=
  (fillTokens dst vocab keepsReceiverOnlyArg).set eos_bit

def STORE_RESULT_DENIED_OPENERS : List UInt8 := lit "&|<>+*/"

def STR_OPERATOR_DENIED_OPENERS : List UInt8 := lit "*/"

/-- Behind a completed term an arrow may follow, and no operator that is denied. -/
def keepsAfterCompletedTerm (after_dash : Bool) (denied bytes : List UInt8) : Bool :=
  if after_dash then completesStepArrow bytes
  else match bytes with
    | [] => false
    | byte :: _ => if byte = '-' then opensStepArrow bytes else !denied.contains byte

def fillAfterCompletedTerm (dst : BitMask) (vocab : Vocab) (eos_bit : Nat) (after_dash : Bool)
    (denied : List UInt8) : BitMask :=
  (fillTokens dst vocab (keepsAfterCompletedTerm after_dash denied)).set eos_bit

/-! ## The methods a receiver does not have -/

def EXTENT_DENY : Trie := Trie.fromNames (RELATION_RECEIVER_METHODS ++ EXTENT_ONLY_DENIED_METHODS)

def SCALAR_DENY : Trie := Trie.fromNames RELATION_RECEIVER_METHODS

/-- Where the open bytes stand among the names that are denied. -/
def denyCursor (deny : Trie) (pre : List UInt8) : Option Nat :=
  if pre.isEmpty then some deny.root
  else match walk deny deny.root .Plain pre with
    | .Stay cursor => some cursor
    | _ => none

def STRING_ONLY_METHODS : List Text :=
  [lit "toLower", lit "toUpper", lit "startsWith", lit "endsWith"]

def deniedStringMethod (bytes : List UInt8) (tc : TypeClass) : Bool :=
  STRING_ONLY_METHODS.contains bytes && tc ≠ .Str

def doesNotCloseDenied (deny : Trie) (cursor : Nat) (bytes : List UInt8) : Bool :=
  match walk deny cursor .Plain bytes with
  | .Complete _ _ => false
  | _ => true

/-- A token is dropped where it completes a denied name, or is a method of strings for a
receiver that is none. -/
def keepsDeniedMethod (deny : Trie) (cursor : Nat) (receiver : Option TypeClass)
    (bytes : List UInt8) : Bool :=
  doesNotCloseDenied deny cursor bytes && !receiver.any (deniedStringMethod bytes)

/-- The stream may not end on a denied name. -/
def fillDeniedMethod (dst : BitMask) (vocab : Vocab) (eos_bit : Nat) (deny : Trie) (cursor : Nat)
    (receiver : Option TypeClass) : BitMask :=
  let dst := fillTokens dst vocab (keepsDeniedMethod deny cursor receiver)
  if !deny.isTerminal cursor then dst.set eos_bit else dst

/-! ## The names of a trie -/

inductive TrieKind where
  | Ident
  | ClassPath
  | ClassPathContinuation
  | Str
  | IdentOrStr
deriving DecidableEq, Repr

def TrieKind.shape : TrieKind → NameShape
  | .ClassPath | .ClassPathContinuation => .ClassPath
  | .Ident | .Str | .IdentOrStr => .Plain

/-- Where a cursor stands to the names of its trie. -/
inductive NamePoint where
  | Anchor
  | Partial
  | Whole
  | WholeMustFollow (byte : UInt8)
deriving DecidableEq, Repr

def NamePoint.admitsEos : NamePoint → Bool
  | .Anchor | .Whole => true
  | _ => false

/-- Whether no byte of a name is open, part of a name, or a whole one. -/
def namePoint (t : Trie) (cursor : Nat) : NamePoint :=
  if cursor = t.root then .Anchor
  else if !t.isTerminal cursor then .Partial
  else match t.closeAt cursor with
    | .Free => .Whole
    | .MustFollow byte => .WholeMustFollow byte

/-- Whether a token is one that the trie decides. -/
def isCandidate (kind : TrieKind) (mid_lexeme : Bool) (bytes : List UInt8) : Bool :=
  match bytes with
  | [] => false
  | first :: _ =>
    match kind with
    | .Ident => isIdentTail first
    | .ClassPath => isIdentTail first || first = ':'
    -- a call is not qualified, so only a token with a `:` is a classpath here
    | .ClassPathContinuation => bytes.contains ':'
    | .Str => first = QUOTE || mid_lexeme
    | .IdentOrStr => isIdentTail first || first = QUOTE || mid_lexeme

/-- A candidate goes on along the trie, or ends a name whose closer admits its boundary. -/
def keepsCandidate (t : Trie) (cursor : Nat) (shape : NameShape) (bytes : List UInt8) : Bool :=
  match walk t cursor shape bytes with
  | .Stay _ => true
  | .Complete node boundary => (t.closeAt node).admits boundary
  | .Diverge => false

def skipLeadingWs (bytes : List UInt8) : List UInt8 := bytes.dropWhile isWs

def keepsAnchorNoncandidate (t : Trie) (kind : TrieKind) (bytes : List UInt8) : Bool :=
  if isCandidate kind false (skipLeadingWs bytes) then
    keepsCandidate t t.root kind.shape (skipLeadingWs bytes)
  else true

/-- What the trie decides is kept as a candidate, and the rest by where the open bytes
stand. -/
def keepsTrieToken (t : Trie) (cursor : Nat) (kind : TrieKind) (bytes : List UInt8) : Bool :=
  let point := namePoint t cursor
  if isCandidate kind (point ≠ .Anchor) bytes then keepsCandidate t cursor kind.shape bytes
  else if kind = .ClassPathContinuation then true
  else match point with
    | .Partial => false
    | .WholeMustFollow owed => bytes.head? = some owed
    | .Whole => true
    | .Anchor => keepsAnchorNoncandidate t kind bytes

def fillTrie (dst : BitMask) (vocab : Vocab) (eos_bit : Nat) (t : Trie) (cursor : Nat)
    (kind : TrieKind) : BitMask :=
  let dst := fillTokens dst vocab (keepsTrieToken t cursor kind)
  if (namePoint t cursor).admitsEos then dst.set eos_bit else dst

def quote (content : List UInt8) : List UInt8 :=
  [QUOTE] ++ content.flatMap (fun b => if b = QUOTE then [QUOTE, b] else [b]) ++ [QUOTE]

/-- A class path owes its `.all()`, and the path of the store its arrow. -/
def sourceClose (schema : Schema) (path : Text) : NameClose :=
  if schema.hasClass path then .MustFollow '.' else .MustFollow '-'

inductive Names where
  | Source (schema : Schema)
  | SourceMethod
  | StoreMethod
  | Member (schema : Schema) (cls : Text)
  | Column (columns : List (List UInt8))
  | RelationColumn (columns : List (List UInt8))
  | RefVar (vars : List Text)

def free (names : List (List UInt8)) : List (List UInt8 × NameClose) :=
  names.map fun name => (name, .Free)

/-- The names of a rule, each with what it takes once whole. -/
def Names.closing : Names → List (List UInt8 × NameClose)
  | .Source schema =>
    schema.sourcePaths.map (fun path => (path, sourceClose schema path)) ++ [(lit "let", .Free)]
  | .SourceMethod => [(SOURCE_METHOD, .MustFollow '(')]
  | .StoreMethod => STORE_METHODS.map fun (name, _) => (name, .MustFollow '(')
  | .Member schema cls =>
    free (schema.memberNames cls ++ (schema.memberNames cls).map quote)
  | .Column columns => free (columns.map quote)
  | .RelationColumn columns => free columns
  | .RefVar vars => free vars

def Names.build (names : Names) : Trie := Trie.fromClosingNames names.closing

/-! ## The cache -/

inductive CacheKey where
  | Source
  | BinderValueSource
  | SourceMethod
  | StoreMethod
  | SourceMethodArg (required : Option Nat) (seen : Nat)
  | SourceMethodArgSep (remaining : Bool) (state : State)
  | PropertyMethodArg (required : Option Nat) (seen : Nat)
  | PropertyMethodArgSep (remaining : Bool) (state : State)
  | StoreMethodArg
  | StoreMethodArgSep (remaining : Bool)
  | SourceExtent (after_dash : Bool)
  | ExtentMethod (cursor : Nat)
  | ExtentMethodArg (arg : ExtentArg)
  | ReceiverOnlyArg
  | StoreResult (after_dash : Bool)
  | StrOperator (after_dash : Bool)
  | LogicalOperand
  | Member (cls : Text)
  | ReValue (tc : TypeClass)
  | Comparator (tc : TypeClass)
  | OrderedOperand
  | Reducer (tc : TypeClass)
  | ScalarMethod (tc : TypeClass) (cursor : Nat)
  | Column (count : Nat)
  | ValueIdent
  | RelationColumn (count : Nat)
  | RefVar (count : Nat)
  | UnboundSigil
  | FusedMember (cls : Text)
  | FusedRelationColumn (count : Nat)
deriving DecidableEq, Repr

/-- The trie of a rule, and the masks filled so far by cursor. -/
structure RuleCache where
  trie : Trie
  kind : TrieKind
  masks : List (Nat × BitMask)

structure NarrowCache where
  operand : List (CacheKey × BitMask) := []
  tries : List (CacheKey × RuleCache) := []

def NarrowCache.new : NarrowCache := {}

/-- A refilled buffer, the cache after it, and whether a rule applied. -/
structure Narrowed where
  dst : BitMask
  cache : NarrowCache
  applied : Bool

/-- Copies the mask of a rule from the cache, or fills it and keeps it. -/
def withCache (dst : BitMask) (cache : NarrowCache) (key : CacheKey)
    (fill : BitMask → BitMask) : Narrowed :=
  match cache.operand.lookup key with
  | some cached => ⟨dst.copyFrom cached, cache, true⟩
  | none => ⟨fill dst, { cache with operand := (key, fill dst) :: cache.operand }, true⟩

/-- The trie of a rule, built when it is asked for the first time. -/
def ruleEntry (cache : NarrowCache) (key : CacheKey) (build : RuleCache) :
    RuleCache × NarrowCache :=
  match cache.tries.lookup key with
  | some entry => (entry, cache)
  | none => (build, { cache with tries := (key, build) :: cache.tries })

def setEntry (tries : List (CacheKey × RuleCache)) (key : CacheKey) (entry : RuleCache) :
    List (CacheKey × RuleCache) :=
  tries.map fun e => if e.1 = key then (key, entry) else e

/-- Copies the mask of a cursor from the entry of a rule, or fills it and keeps it. -/
def withEntry (dst : BitMask) (cache : NarrowCache) (key : CacheKey) (entry : RuleCache)
    (cursor : Nat) (fill : BitMask → BitMask) : Narrowed :=
  match entry.masks.lookup cursor with
  | some cached => ⟨dst.copyFrom cached, cache, true⟩
  | none =>
    ⟨fill dst,
      { cache with
        tries := setEntry cache.tries key
          { entry with masks := (cursor, fill dst) :: entry.masks } }, true⟩

/-! ## The rule of a position -/

structure TrieRule where
  key : CacheKey
  kind : TrieKind
  names : Names

/-- The trie that decides a position, if one does. -/
def TrieRule.ofPosition (pos : L2Position) (schema : Schema) (columns : List (List UInt8))
    (vars : List Text) : Option TrieRule :=
  match pos with
  | .SourceIdent => some ⟨.Source, .ClassPath, .Source schema⟩
  | .BinderValueSourceIdent =>
    some ⟨.BinderValueSource, .ClassPathContinuation, .Source schema⟩
  | .SourceMethod => some ⟨.SourceMethod, .IdentOrStr, .SourceMethod⟩
  | .StoreMethod => some ⟨.StoreMethod, .IdentOrStr, .StoreMethod⟩
  | .Member cls => some ⟨.Member cls, .IdentOrStr, .Member schema cls⟩
  | .Column => some ⟨.Column columns.length, .Str, .Column columns⟩
  | .RelationColumn => some ⟨.RelationColumn columns.length, .Ident, .RelationColumn columns⟩
  | .RefVar => if vars.isEmpty then none else some ⟨.RefVar vars.length, .Ident, .RefVar vars⟩
  | _ => none

def TrieRule.entry (rule : TrieRule) (cache : NarrowCache) : RuleCache × NarrowCache :=
  ruleEntry cache rule.key ⟨rule.names.build, rule.kind, []⟩

/-- The node of the open bytes, when they are a prefix of a name. -/
def cursorOf (entry : RuleCache) (pre : List UInt8) : Option Nat :=
  if pre.isEmpty then some entry.trie.root
  else match walk entry.trie entry.trie.root entry.kind.shape pre with
    | .Stay cursor => some cursor
    | _ => none

/-- Narrows by the names of a rule. -/
def narrowTrie (dst : BitMask) (cache : NarrowCache) (rule : TrieRule) (pre : List UInt8)
    (vocab : Vocab) (eos_bit : Nat) : Narrowed :=
  let (entry, cache) := rule.entry cache
  match cursorOf entry pre with
  | none => ⟨dst, cache, false⟩
  | some cursor =>
    withEntry dst cache rule.key entry cursor fun dst =>
      fillTrie dst vocab eos_bit entry.trie cursor entry.kind

/-- A rule that denies methods, from the name already open. -/
def narrowDenied (dst : BitMask) (cache : NarrowCache) (pre : List UInt8) (vocab : Vocab)
    (eos_bit : Nat) (deny : Trie) (receiver : Option TypeClass) (key : Nat → CacheKey) :
    Narrowed :=
  match denyCursor deny pre with
  | none => ⟨dst, cache, false⟩
  | some cursor =>
    withCache dst cache (key cursor) fun dst =>
      fillDeniedMethod dst vocab eos_bit deny cursor receiver

/-- A rule that no trie decides. -/
def narrowOperand (dst : BitMask) (cache : NarrowCache) (pos : L2Position) (pre : List UInt8)
    (vocab : Vocab) (eos_bit : Nat) : Narrowed :=
  match pos with
  | .ReValue .Boolean | .ReValue .Temporal => ⟨dst, cache, false⟩
  | .ReValue tc =>
    withCache dst cache (.ReValue tc) fun dst => fillOperand dst vocab eos_bit tc
  | .Comparator .Numeric | .Comparator .Temporal => ⟨dst, cache, false⟩
  | .Comparator tc =>
    withCache dst cache (.Comparator tc) fun dst => fillComparator dst vocab eos_bit tc
  | .OrderedOperand =>
    withCache dst cache .OrderedOperand fun dst => fillOrderedOperand dst vocab eos_bit
  | .Reducer tc =>
    withCache dst cache (.Reducer tc) fun dst => fillReducer dst vocab eos_bit tc
  | .ScalarMethod tc =>
    narrowDenied dst cache pre vocab eos_bit SCALAR_DENY (some tc) (.ScalarMethod tc)
  | .SourceMethodArg required seen =>
    withCache dst cache (.SourceMethodArg required seen) fun dst =>
      fillSourceMethodArg dst vocab eos_bit required seen
  | .SourceMethodArgSep remaining state =>
    withCache dst cache (.SourceMethodArgSep remaining state) fun dst =>
      fillSourceMethodArgSep dst vocab eos_bit remaining state
  | .PropertyMethodArg required seen =>
    withCache dst cache (.PropertyMethodArg required seen) fun dst =>
      fillSourceMethodArg dst vocab eos_bit required seen
  | .PropertyMethodArgSep remaining state =>
    withCache dst cache (.PropertyMethodArgSep remaining state) fun dst =>
      fillSourceMethodArgSep dst vocab eos_bit remaining state
  | .StoreMethodArg =>
    withCache dst cache .StoreMethodArg fun dst => fillStoreMethodArg dst vocab eos_bit
  | .StoreMethodArgSep remaining =>
    withCache dst cache (.StoreMethodArgSep remaining) fun dst =>
      fillStoreMethodArgSep dst vocab eos_bit remaining
  | .SourceExtent after_dash =>
    withCache dst cache (.SourceExtent after_dash) fun dst =>
      fillSourceExtent dst vocab eos_bit after_dash
  | .ExtentMethod => narrowDenied dst cache pre vocab eos_bit EXTENT_DENY none .ExtentMethod
  | .ExtentMethodArg arg =>
    withCache dst cache (.ExtentMethodArg arg) fun dst => fillExtentMethodArg dst vocab eos_bit arg
  | .ReceiverOnlyArg =>
    withCache dst cache .ReceiverOnlyArg fun dst => fillReceiverOnlyArg dst vocab eos_bit
  | .StoreResult after_dash =>
    withCache dst cache (.StoreResult after_dash) fun dst =>
      fillAfterCompletedTerm dst vocab eos_bit after_dash STORE_RESULT_DENIED_OPENERS
  | .StrOperator after_dash =>
    withCache dst cache (.StrOperator after_dash) fun dst =>
      fillAfterCompletedTerm dst vocab eos_bit after_dash STR_OPERATOR_DENIED_OPENERS
  | .LogicalOperand =>
    withCache dst cache .LogicalOperand fun dst => fillLogicalOperand dst vocab eos_bit
  | .ValueIdent => withCache dst cache .ValueIdent fun dst => fillValueIdent dst vocab
  | _ => ⟨dst, cache, false⟩

/-- Narrows by the one rule that is in force at the position. -/
def narrowInto (dst : BitMask) (cache : NarrowCache) (schema : Schema) (pos : L2Position)
    (pre : List UInt8) (columns : List (List UInt8)) (vars : List Text) (vocab : Vocab)
    (eos_bit : Nat) : Narrowed :=
  match TrieRule.ofPosition pos schema columns vars with
  | some rule => narrowTrie dst cache rule pre vocab eos_bit
  | none => narrowOperand dst cache pos pre vocab eos_bit

/-- Whether the rule of a position lets the stream end. -/
def admitsEos (cache : NarrowCache) (schema : Schema) (pos : L2Position) (pre : List UInt8)
    (columns : List (List UInt8)) (vars : List Text) : Bool × NarrowCache :=
  match pos with
  | .ExtentMethod =>
    ((denyCursor EXTENT_DENY pre).all fun cursor => !EXTENT_DENY.isTerminal cursor, cache)
  | .ScalarMethod _ =>
    ((denyCursor SCALAR_DENY pre).all fun cursor => !SCALAR_DENY.isTerminal cursor, cache)
  | _ =>
    match TrieRule.ofPosition pos schema columns vars with
    | none => (pos ≠ .ValueIdent, cache)
    | some rule =>
      let (entry, cache) := rule.entry cache
      ((cursorOf entry pre).all fun cursor => (namePoint entry.trie cursor).admitsEos, cache)

/-! ## The two rules that only clear -/

/-- The name behind the dot of a token that joins the two. -/
def fusedPostDot (bytes : List UInt8) : Option (List UInt8) :=
  match bytes with
  | [] => none
  | first :: rest => if first = '.' && rest.head?.any isIdentStart then some rest else none

def keepsFused (t : Trie) (bytes : List UInt8) : Bool :=
  match fusedPostDot bytes with
  | some rest => walk t t.root .Plain rest ≠ .Diverge
  | none => true

def fillFusedTrie (dst : BitMask) (vocab : Vocab) (eos_bit : Nat) (t : Trie) : BitMask :=
  (fillTokens dst vocab (keepsFused t)).set eos_bit

def narrowFusedTrie (dst : BitMask) (cache : NarrowCache) (key : CacheKey) (vocab : Vocab)
    (eos_bit : Nat) (names : List (List UInt8)) : Narrowed :=
  let (entry, cache) := ruleEntry cache key ⟨Trie.fromNames names, .Ident, []⟩
  withEntry dst cache key entry entry.trie.root fun dst =>
    fillFusedTrie dst vocab eos_bit entry.trie

/-- Narrows the tokens that join a dot and the name behind it. -/
def narrowFusedInto (dst : BitMask) (cache : NarrowCache) (schema : Schema) (pos : L2Position)
    (columns : List (List UInt8)) (vocab : Vocab) (eos_bit : Nat) : Narrowed :=
  match pos with
  | .Member cls =>
    narrowFusedTrie dst cache (.FusedMember cls) vocab eos_bit (schema.memberNames cls)
  | .RelationColumn =>
    narrowFusedTrie dst cache (.FusedRelationColumn columns.length) vocab eos_bit columns
  | _ => ⟨dst, cache, false⟩

def keepsUnboundSigil (bytes : List UInt8) : Bool := !opensWith bytes (· = '$')

def fillUnboundSigil (dst : BitMask) (vocab : Vocab) (eos_bit : Nat) : BitMask :=
  (fillTokens dst vocab keepsUnboundSigil).set eos_bit

def narrowSigilInto (dst : BitMask) (cache : NarrowCache) (vocab : Vocab) (eos_bit : Nat) :
    Narrowed :=
  withCache dst cache .UnboundSigil fun dst => fillUnboundSigil dst vocab eos_bit

end purecard.narrow
