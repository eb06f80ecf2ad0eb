-- The scope machine (`schema/scope.rs`). It reads the tokens of a stream as
-- lexemes, keeps the classes, variables and columns in scope, and says at
-- each point which rule narrows the next token.
import PureAnalyzer.Schema

namespace purecard.scope

open pushdown pda model

/-! ## Lexemes -/

/-- `u8::is_ascii_whitespace`: the spaces of the grammar and the form feed. -/
def isAsciiWhitespace (byte : UInt8) : Bool := isWs byte || byte = 12

def isUtf8Tail (byte : UInt8) : Bool := 0x80 ≤ byte && byte ≤ 0xBF

/-- Whether the bytes are UTF-8, as `std::str::from_utf8` checks. -/
def isUtf8 : List UInt8 → Bool
  | [] => true
  | [a] => a < 0x80
  | [a, b] =>
    if a < 0x80 then b < 0x80
    else 0xC2 ≤ a && a ≤ 0xDF && isUtf8Tail b
  | a :: b :: c :: rest =>
    if a < 0x80 then isUtf8 (b :: c :: rest)
    else if 0xC2 ≤ a && a ≤ 0xDF then isUtf8Tail b && isUtf8 (c :: rest)
    else if 0xE0 ≤ a && a ≤ 0xEF then
      isUtf8Tail b && isUtf8Tail c && (a != 0xE0 || 0xA0 ≤ b) && (a != 0xED || b ≤ 0x9F) &&
        isUtf8 rest
    else match rest with
      | [] => false
      | d :: rest =>
        0xF0 ≤ a && a ≤ 0xF4 && isUtf8Tail b && isUtf8Tail c && isUtf8Tail d &&
          (a != 0xF0 || 0x90 ≤ b) && (a != 0xF4 || b ≤ 0x8F) && isUtf8 rest

inductive Lexeme where
  | Ws
  | Ident (text : Text)
  | Str (content : List UInt8)
  | Number
  | Date
  | Arrow
  | Dot
  | Dollar
  | Pipe
  | Cmp
  | Open
  | Close
  | Comma
  | Other
deriving DecidableEq, Repr

/-- Halves the doubled quotes. -/
def undouble : List UInt8 → List UInt8
  | [] => []
  | [b] => [b]
  | b :: c :: rest =>
    if b = QUOTE && c = QUOTE then b :: undouble rest else b :: undouble (c :: rest)

/-- The content of a quoted literal. Bytes that are not quoted on both sides
keep the quotes they have. -/
def unquote (bytes : List UInt8) : List UInt8 :=
  match bytes with
  | [] => []
  | b :: rest =>
    if b = QUOTE && rest.getLast? = some QUOTE then undouble rest.dropLast else undouble bytes

/-- The lexeme that a piece of the stream is. -/
def classify (bytes : List UInt8) : Lexeme :=
  if bytes.all isAsciiWhitespace then .Ws
  else if bytes = lit "->" then .Arrow
  else if [lit "==", lit "!=", lit "<=", lit ">=", lit "<", lit ">"].contains bytes then .Cmp
  else if bytes = lit "." then .Dot
  else if bytes = lit "$" then .Dollar
  else if bytes = lit "|" then .Pipe
  else if bytes = lit "," then .Comma
  else if [lit "(", lit "[", lit "\x7b"].contains bytes then .Open
  else if [lit ")", lit "]", lit "\x7d"].contains bytes then .Close
  else match bytes with
    | [] => .Other
    | first :: rest =>
      if first = QUOTE then .Str (unquote bytes)
      else if first = '%' then .Date
      else if isAsciiDigit first || (first = '-' && rest.head?.any isAsciiDigit) then .Number
      else if isIdentStart first && isUtf8 bytes then .Ident bytes
      else .Other

/-- The first byte of an operator that the automaton has read and waits to
complete. -/
def pendingOperatorByte : State → Option UInt8
  | .SawDash | .SourceDash => some '-'
  | .SawEq => some '='
  | .SawBang => some '!'
  | .SawGt => some '>'
  | .SawLt => some '<'
  | .SawPipe => some '|'
  | _ => none

def TWO_BYTE_OPS : List (List UInt8) :=
  [lit "->", lit "==", lit "!=", lit "<=", lit ">=", lit "&&", lit "||"]

def isTwoByteOp (a b : UInt8) : Bool := TWO_BYTE_OPS.contains [a, b]

/-- The lexeme of a piece that may be the second byte of an operator. -/
def classifyAt (bytes : List UInt8) (anchor : State) : Lexeme :=
  match pendingOperatorByte anchor, bytes with
  | some first, [second] =>
    if isTwoByteOp first second then classify [first, second] else classify bytes
  | _, _ => classify bytes

def LOGICAL_OPERATORS : List (List UInt8) := [lit "&&", lit "||"]

def isLogicalOperator (bytes : List UInt8) (anchor : State) : Bool :=
  LOGICAL_OPERATORS.contains bytes ||
    match pendingOperatorByte anchor, bytes with
    | some first, [second] => LOGICAL_OPERATORS.contains [first, second]
    | _, _ => false

/-! ## Positions and methods -/

inductive ExtentArg where
  | Function
  | Integer
deriving DecidableEq, Repr

/-- The rule that narrows the next token. -/
inductive L2Position where
  | SourceIdent
  | BinderValueSourceIdent
  | SourceMethod
  | SourceMethodArg (required : Option Nat) (seen : Nat)
  | SourceMethodArgSep (remaining : Bool) (state : State)
  | PropertyMethodArg (required : Option Nat) (seen : Nat)
  | PropertyMethodArgSep (remaining : Bool) (state : State)
  | StoreMethod
  | StoreMethodArg
  | StoreMethodArgSep (remaining : Bool)
  | SourceExtent (after_dash : Bool)
  | ReceiverOnlyArg
  | StoreResult (after_dash : Bool)
  | StrOperator (after_dash : Bool)
  | LogicalOperand
  | ExtentMethod
  | ExtentMethodArg (arg : ExtentArg)
  | Member (cls : Text)
  | ReValue (tc : TypeClass)
  | Comparator (tc : TypeClass)
  | OrderedOperand
  | Reducer (tc : TypeClass)
  | ScalarMethod (tc : TypeClass)
  | Column
  | RelationColumn
  | RefVar
  | ValueIdent
  | None
deriving DecidableEq, Repr

def SOURCE_METHOD : Text := lit "all"

def STORE_METHODS : List (Text × Nat) := [(lit "tableReference", 2)]

def RELATION_RECEIVER_METHODS : List Text :=
  [lit "asOfJoin", lit "extend", lit "join", lit "olapGroupBy", lit "pivot", lit "renameColumns",
    lit "restrict", lit "tableReference", lit "tableToTDS"]

def EXTENT_ONLY_DENIED_METHODS : List Text :=
  [lit "agg", lit "average", lit "between", lit "endsWith", lit "in", lit "pair",
    lit "parseFloat", lit "startsWith", lit "substring", lit "sum", lit "toLower",
    lit "toString", lit "year"]

def EXTENT_METHOD_ARGS : List (Text × ExtentArg) :=
  [(lit "groupBy", .Function), (lit "limit", .Integer)]

def RECEIVER_ONLY_METHODS : List Text :=
  [lit "count", lit "isEmpty", lit "isNotEmpty", lit "size", lit "toOne"]

def STEP_DASH_TOKEN : List UInt8 := lit "-"

def ESTABLISHING_METHODS : List Text := [lit "project", lit "groupBy", lit "olapGroupBy"]

def REF_METHODS : List Text :=
  [lit "getInteger", lit "getFloat", lit "getString", lit "getBoolean", lit "sort", lit "asc",
    lit "desc", lit "restrict"]

def TYPED_ACCESSORS : List (Text × TypeClass) :=
  [(lit "getInteger", .Numeric), (lit "getFloat", .Numeric), (lit "getString", .Str),
    (lit "getBoolean", .Boolean)]

def TYPE_PRESERVING_METHODS : List Text := [lit "toOne"]

def RECEIVER_ONLY_RETURNS : List (Text × TypeClass) :=
  [(lit "count", .Numeric), (lit "isEmpty", .Boolean), (lit "isNotEmpty", .Boolean),
    (lit "size", .Numeric)]

def storeMethodArity (name : Text) : Option Nat := STORE_METHODS.lookup name

def extentMethodArg (name : Text) : Option ExtentArg := EXTENT_METHOD_ARGS.lookup name

def accessorReturnType (name : Text) : Option TypeClass := TYPED_ACCESSORS.lookup name

def receiverOnlyReturnType (name : Text) : Option TypeClass := RECEIVER_ONLY_RETURNS.lookup name

def NESTED_SOURCE_MIN_DEPTH : Nat := 2

inductive SourceKind where
  | Class
  | Store
deriving DecidableEq, Repr

inductive NavResult where
  | Scalar (tc : TypeClass)
  | NonScalar
deriving DecidableEq, Repr

def VALUE_KEYWORDS : List Text := [lit "true", lit "false"]

/-- An open name that is not a whole keyword (`narrow.rs`). -/
def valueIdentConstrains (pre : List UInt8) : Bool :=
  !pre.isEmpty && !VALUE_KEYWORDS.contains pre

/-! ## The tracker -/

/-- A map from names, the latest entry first. -/
abbrev Map (α : Type) := List (Text × α)

def Map.insert {α : Type} (m : Map α) (name : Text) (v : α) : Map α :=
  (name, v) :: m.filter fun e => e.1 ≠ name

def Map.remove {α : Type} (m : Map α) (name : Text) : Map α := m.filter fun e => e.1 ≠ name

def setInsert (s : List Text) (name : Text) : List Text :=
  if s.contains name then s else name :: s

def setRemove (s : List Text) (name : Text) : List Text := s.filter (· ≠ name)

/-- The lexeme that the stream is inside of: its bytes so far, the state it
opened at, and the rule it opened under. -/
structure Pending where
  kind : LexKind
  buf : List UInt8
  anchor : State
  pos : L2Position
deriving DecidableEq, Repr

/-- What a lambda binder shadowed. -/
structure BinderSave where
  depth : Nat
  name : Text
  prev_class : Option (Option Text)
  prev_relation_row : Bool
  prev_reducer_type : Option TypeClass
deriving DecidableEq, Repr

structure ScopeSave where
  depth : Nat
  prev_cur_class : Option Text
  prev_rel_explicit : Bool
  prev_saw_tilde_bracket : Bool
deriving DecidableEq, Repr

/-- Each stack has its top first. -/
structure ScopeTracker where
  pending : Option Pending := none
  cur_class : Option Text := none
  var_class : Map (Option Text) := []
  pending_refvar : Option Text := none
  dot_base : Option Text := none
  nav_cursor : Option Text := none
  last_nav : Option NavResult := none
  nav_to_many : Bool := false
  last_nav_class : Option Text := none
  cmp_pending : Option TypeClass := none
  var_reducer_type : Map TypeClass := []
  pending_binder_element : Option (Text × TypeClass) := none
  pending_binder_class : Option (Text × Text) := none
  awaiting_reducer : Option TypeClass := none
  last_call_type : Option TypeClass := none
  pending_arrow_type : Option TypeClass := none
  awaiting_scalar_method : Option TypeClass := none
  call_return : List (Option TypeClass) := []
  lambda_first_ident : Option Text := none
  pending_arrow_receiver : Option (Option Text) := none
  paren_receiver : List (Option Text) := []
  est_stack : List Nat := []
  ref_stack : List Nat := []
  depth : Nat := 0
  last_ident : Option Text := none
  rel_explicit : Bool := false
  saw_tilde_bracket : Bool := false
  tilde_open : List Bool := []
  brace_binder_open : List Bool := []
  relation_row_vars : List Text := []
  binder_saves : List BinderSave := []
  scope_saves : List ScopeSave := []
  dot_is_column : Bool := false
  source_path_seen : Option SourceKind := none
  awaiting_source_method : Bool := false
  awaiting_store_method : Bool := false
  store_call_arity : Option Nat := none
  store_call_commas : Nat := 0
  in_source_method_args : Bool := false
  source_method_required : Option Nat := none
  source_method_commas : Nat := 0
  in_property_method_args : Bool := false
  property_method_required : Option Nat := none
  property_method_commas : Nat := 0
  awaiting_extent_step : Bool := false
  awaiting_extent_method : Bool := false
  awaiting_store_result : Bool := false
  receiver_only_call : Bool := false
  last_ident_after_arrow : Bool := false
  last_ident_on_extent : Bool := false
  extent_call_arg : Option ExtentArg := none
  extent_call_preserves_class : Bool := false
  awaiting_class_call_result : Bool := false
  logical_pending : Bool := false
  awaiting_str_operator : Bool := false
  emitted_strings : List (List UInt8) := []
  bound_vars : List Text := []
deriving DecidableEq, Repr

namespace ScopeTracker

def new : ScopeTracker := {}

/-! ## What a lexeme does -/

/-- Adds a name to the bound variables, once, when it is a bare identifier. -/
def bindVar (t : ScopeTracker) (name : Text) : ScopeTracker :=
  if !name.all isIdentTail then t
  else if t.bound_vars.contains name then t
  else { t with bound_vars := t.bound_vars ++ [name] }

/-- Opens a lambda binder at a name. -/
def openBinder (t : ScopeTracker) (name : Text) : ScopeTracker :=
  bindVar { t with lambda_first_ident := some name } name

def inMilestoningDateArgPosition (t : ScopeTracker) : Bool :=
  t.in_source_method_args || t.in_property_method_args

def inTildeKey (t : ScopeTracker) (state : State) : Bool :=
  (state = .ExpectRelColSpec || state = .ExpectRelColSpecReq) && t.tilde_open.head? = some true

/-- Follows a member after a dot, and gives what kind of value it is. -/
def resolveMember (t : ScopeTracker) (ident : Text) (schema : Schema) :
    ScopeTracker × Option NavResult :=
  if t.awaiting_source_method then ({ t with awaiting_source_method := false }, none)
  else if t.dot_is_column then
    ({ t with dot_is_column := false, nav_cursor := none, last_nav_class := none }, none)
  else match t.dot_base with
    | none => (t, none)
    | some base =>
      let t := { t with dot_base := none }
      match schema.resolve base ident with
      | some (.Class path mult) =>
        ({ t with
            nav_to_many := t.nav_to_many || !mult.isToOne
            nav_cursor := some path
            last_nav_class := some path }, some .NonScalar)
      | some (.Primitive prim mult) =>
        ({ t with nav_cursor := none, last_nav_class := none },
          some (if t.nav_to_many || !mult.isToOne then .NonScalar else .Scalar prim.typeClass))
      | _ => ({ t with nav_cursor := none, last_nav_class := none }, none)

/-- What an identifier means at the state it opened at. -/
def onIdentAt (t : ScopeTracker) (text : Text) (pre_state : State) (schema : Schema) :
    ScopeTracker × Option NavResult :=
  match pre_state with
  | .AfterDollar =>
    if t.inMilestoningDateArgPosition then (t, none)
    else ({ t with pending_refvar := some text }, none)
  | .AfterDot => t.resolveMember text schema
  | .ExpectValue | .ExpectValueReq => (t.openBinder text, none)
  | .ExpectBinder => (t.bindVar text, none)
  | .ExpectBraceBinder => (t.openBinder text, none)
  | .AfterColon | .AfterColonWs =>
    match PrimName.fromIdent text with
    | some prim =>
      match t.lambda_first_ident with
      | some binder => ({ t with pending_binder_element := some (binder, prim.typeClass) }, none)
      | none => (t, none)
    | none =>
      if schema.hasClass text then
        match t.lambda_first_ident with
        | some binder => ({ t with pending_binder_class := some (binder, text) }, none)
        | none => (t, none)
      else (t.openBinder text, none)
  | .AfterRelColColon => (t.openBinder text, none)
  | .AfterValueColon => (t.openBinder text, none)
  | _ => (t, none)

def opensSource : State → Bool
  | .ExpectSource | .BlockStmt | .BlockStmtClose => true
  | _ => false

/-- A name of the schema is the class in scope, and a source where one opens. -/
def nameSource (t : ScopeTracker) (text : Text) (pre_state : State) (schema : Schema) :
    ScopeTracker :=
  { t with
    cur_class := if schema.hasClass text then some text else t.cur_class
    source_path_seen :=
      if opensSource pre_state && schema.sourcePaths.contains text then
        some (if schema.hasClass text then .Class else .Store)
      else none }

/-- A name behind a tilde, or the key of a list behind one, is a column. -/
def nameColumn (t : ScopeTracker) (text : Text) (pre_state : State) : ScopeTracker :=
  if pre_state = .SawTilde || t.inTildeKey pre_state then
    { t with emitted_strings := t.emitted_strings ++ [text] }
  else t

def onIdent (t : ScopeTracker) (text : Text) (pre_state : State) (schema : Schema) :
    ScopeTracker × Option NavResult :=
  let (t, resolved) := (t.nameSource text pre_state schema).onIdentAt text pre_state schema
  let t := t.nameColumn text pre_state
  ({ t with
      last_ident := some text
      last_ident_after_arrow := pre_state = .AfterArrow
      last_ident_on_extent := t.awaiting_extent_method }, resolved)

def onDot (t : ScopeTracker) : ScopeTracker :=
  let chained_to_many := t.nav_to_many
  let t := { t with
    dot_is_column := false
    awaiting_source_method := t.source_path_seen.isSome
    source_path_seen := none
    nav_to_many := false }
  match t.pending_refvar with
  | some var =>
    let t := { t with pending_refvar := none }
    if t.relation_row_vars.contains var then { t with dot_is_column := true, dot_base := none }
    else { t with dot_base := (t.var_class.lookup var).join }
  | none =>
    match t.nav_cursor with
    | some cursor => { t with dot_base := some cursor, nav_to_many := chained_to_many }
    | none =>
      if t.awaiting_extent_step then { t with dot_base := t.cur_class, nav_to_many := true }
      else { t with dot_base := none }

def arrowReceiverType (t : ScopeTracker) : Option TypeClass :=
  if t.awaiting_str_operator then some .Str
  else t.last_call_type.or (match t.last_nav with
    | some (.Scalar tc) => some tc
    | _ => none)

def onArrow (t : ScopeTracker) : ScopeTracker :=
  { t with
    awaiting_store_method := t.source_path_seen = some .Store
    source_path_seen := none
    awaiting_extent_method := t.awaiting_extent_step
    awaiting_reducer :=
      (t.pending_refvar.bind fun var => t.var_reducer_type.lookup var).or t.awaiting_reducer
    pending_arrow_type := t.arrowReceiverType
    awaiting_scalar_method := t.arrowReceiverType
    pending_arrow_receiver := some (t.last_nav_class.or t.cur_class)
    last_nav_class := none
    pending_refvar := none
    nav_cursor := none
    last_ident := none }

def callReturnType (method : Text) (receiver : Option TypeClass) : Option TypeClass :=
  if TYPE_PRESERVING_METHODS.contains method then receiver
  else (accessorReturnType method).or (receiverOnlyReturnType method)

/-- What a binder of this name would shadow. -/
def saveBinder (t : ScopeTracker) (name : Text) : BinderSave :=
  ⟨t.depth, name, t.var_class.lookup name, t.relation_row_vars.contains name,
    t.var_reducer_type.lookup name⟩

/-- Binds the open binder: with its class, with the receiver of the call it
is in, or with its element type alone. -/
def bindLambda (t : ScopeTracker) : ScopeTracker :=
  match t.pending_binder_class with
  | some (name, cls) =>
    { t with
      pending_binder_class := none
      lambda_first_ident :=
        if t.lambda_first_ident = some name then none else t.lambda_first_ident
      binder_saves := t.saveBinder name :: t.binder_saves
      relation_row_vars := setRemove t.relation_row_vars name
      var_reducer_type := t.var_reducer_type.remove name
      var_class := t.var_class.insert name (some cls) }
  | none =>
    match t.lambda_first_ident with
    | some (b :: rest) =>
      let name := b :: rest
      let receiver := t.paren_receiver.head?.join
      let row := receiver.isNone && t.rel_explicit && t.saw_tilde_bracket
      { t with
        lambda_first_ident := none
        binder_saves := t.saveBinder name :: t.binder_saves
        var_class := if row then t.var_class.remove name else t.var_class.insert name receiver
        relation_row_vars :=
          if row then setInsert t.relation_row_vars name else setRemove t.relation_row_vars name
        pending_binder_element := none
        var_reducer_type := match t.pending_binder_element with
          | some (_, tc) => t.var_reducer_type.insert name tc
          | none => t.var_reducer_type.remove name }
    | _ =>
      let t := { t with lambda_first_ident := none }
      match t.pending_binder_element with
      | some (name, tc) =>
        { t with
          pending_binder_element := none
          binder_saves :=
            ⟨t.depth, name, none, false, t.var_reducer_type.lookup name⟩ :: t.binder_saves
          var_reducer_type := t.var_reducer_type.insert name tc }
      | none => t

def onPipe (t : ScopeTracker) (pre_state : State) : ScopeTracker :=
  if pre_state = .Start || pre_state = .ExpectSource then t
  else
    bindLambda { t with
      brace_binder_open := match t.brace_binder_open with
        | [] => []
        | _ :: rest => false :: rest
      scope_saves :=
        ⟨t.depth, t.cur_class, t.rel_explicit, t.saw_tilde_bracket⟩ :: t.scope_saves }

def onOpen (t : ScopeTracker) (pre_state : State) (opener : UInt8) (schema : Schema) :
    ScopeTracker :=
  let method := t.last_ident
  let depth := t.depth + 1
  let in_source_method_args := method = some SOURCE_METHOD
  let in_property_method_args := method.isSome && !in_source_method_args && t.last_nav.isSome
  let extent_method := if t.last_ident_on_extent then method else none
  let is_tilde_bracket := pre_state = .SawTilde
  -- a nested `all(` starts a relation of its own
  let nested_source := method = some SOURCE_METHOD && NESTED_SOURCE_MIN_DEPTH ≤ depth
  { t with
    last_ident := none
    depth := depth
    in_source_method_args := in_source_method_args
    source_method_required :=
      if in_source_method_args then (t.cur_class.bind schema.temporal).map Temporal.arity
      else none
    source_method_commas := 0
    in_property_method_args := in_property_method_args
    property_method_required :=
      if in_property_method_args then (t.last_nav_class.bind schema.temporal).map Temporal.arity
      else none
    property_method_commas := 0
    store_call_arity := method.bind storeMethodArity
    store_call_commas := 0
    receiver_only_call := t.last_ident_after_arrow && method.any RECEIVER_ONLY_METHODS.contains
    extent_call_arg := extent_method.bind extentMethodArg
    extent_call_preserves_class := extent_method.any TYPE_PRESERVING_METHODS.contains
    saw_tilde_bracket := !nested_source && (t.saw_tilde_bracket || is_tilde_bracket)
    rel_explicit := !nested_source && t.rel_explicit
    tilde_open := is_tilde_bracket :: t.tilde_open
    brace_binder_open := (opener = '{') :: t.brace_binder_open
    est_stack :=
      if method.any ESTABLISHING_METHODS.contains then depth :: t.est_stack else t.est_stack
    ref_stack := if method.any REF_METHODS.contains then depth :: t.ref_stack else t.ref_stack
    pending_arrow_receiver := none
    paren_receiver := t.pending_arrow_receiver.getD t.cur_class :: t.paren_receiver
    pending_arrow_type := none
    call_return :=
      (method.bind fun name => callReturnType name t.pending_arrow_type) :: t.call_return
    lambda_first_ident := none }

/-- Puts back what one binder shadowed. -/
def restoreBinder (t : ScopeTracker) (save : BinderSave) : ScopeTracker :=
  { t with
    var_class := match save.prev_class with
      | some cls => t.var_class.insert save.name cls
      | none => t.var_class.remove save.name
    relation_row_vars :=
      if save.prev_relation_row then setInsert t.relation_row_vars save.name
      else setRemove t.relation_row_vars save.name
    var_reducer_type := match save.prev_reducer_type with
      | some tc => t.var_reducer_type.insert save.name tc
      | none => t.var_reducer_type.remove save.name }

/-- Puts back the binders of the depth that closes, the last one first. -/
def restoreBinders (t : ScopeTracker) : List BinderSave → ScopeTracker
  | [] => { t with binder_saves := [] }
  | save :: rest =>
    if save.depth = t.depth then restoreBinders (t.restoreBinder save) rest
    else { t with binder_saves := save :: rest }

def restoreScopes (t : ScopeTracker) : List ScopeSave → ScopeTracker
  | [] => { t with scope_saves := [] }
  | save :: rest =>
    if save.depth = t.depth then
      restoreScopes { t with
        cur_class := save.prev_cur_class
        rel_explicit := save.prev_rel_explicit
        saw_tilde_bracket := save.prev_saw_tilde_bracket } rest
    else { t with scope_saves := save :: rest }

/-- Ends the arguments of a call: what the call was is what now stands. -/
def endCall (t : ScopeTracker) : ScopeTracker :=
  { t with
    awaiting_extent_step := t.in_source_method_args
    in_source_method_args := false
    source_method_required := none
    in_property_method_args := false
    property_method_required := none
    awaiting_store_result := t.store_call_arity.isSome
    store_call_arity := none
    receiver_only_call := false
    awaiting_class_call_result := t.extent_call_preserves_class
    extent_call_preserves_class := false
    extent_call_arg := none }

/-- Leaves the innermost frame. -/
def leaveFrame (t : ScopeTracker) : ScopeTracker :=
  let closes_est := t.est_stack.head? = some t.depth
  { t with
    tilde_open := t.tilde_open.tail
    brace_binder_open := t.brace_binder_open.tail
    ref_stack := if t.ref_stack.head? = some t.depth then t.ref_stack.tail else t.ref_stack
    est_stack := if closes_est then t.est_stack.tail else t.est_stack
    rel_explicit := closes_est || t.rel_explicit
    cur_class := if closes_est then none else t.cur_class
    paren_receiver := t.paren_receiver.tail
    last_call_type := t.call_return.head?.join
    call_return := t.call_return.tail
    depth := t.depth - 1
    pending_arrow_receiver := none }

def onClose (t : ScopeTracker) : ScopeTracker :=
  let t := t.endCall
  let t := t.restoreBinders t.binder_saves
  let t := t.restoreScopes t.scope_saves
  t.leaveFrame

def onComma (t : ScopeTracker) : ScopeTracker :=
  { t with
    lambda_first_ident := none
    last_ident := none
    pending_binder_element := none
    pending_binder_class := none
    store_call_commas :=
      if t.store_call_arity.isSome then t.store_call_commas + 1 else t.store_call_commas
    source_method_commas :=
      if t.in_source_method_args then t.source_method_commas + 1 else t.source_method_commas
    property_method_commas :=
      if t.in_property_method_args then t.property_method_commas + 1
      else t.property_method_commas }

/-- What a lexeme does by its kind, with the value it navigates to if it does. -/
def onLexeme (t : ScopeTracker) (lex : Lexeme) (bytes : List UInt8) (pre_state : State)
    (was_logical : Bool) (schema : Schema) : ScopeTracker × Option NavResult :=
  match lex with
  | .Ident text => t.onIdent text pre_state schema
  | .Dot => (t.onDot, none)
  | .Arrow => (t.onArrow, none)
  | .Cmp =>
    match t.last_nav with
    | some (.Scalar tc) => ({ t with cmp_pending := some tc }, none)
    | _ => (t, none)
  | .Pipe => (t.onPipe pre_state, none)
  | .Open => (t.onOpen pre_state (bytes.headD 0) schema, none)
  | .Close => (t.onClose, none)
  | .Comma => (t.onComma, none)
  | .Str content =>
    ({ t with
        emitted_strings := t.emitted_strings ++ [content]
        last_ident := none
        awaiting_str_operator := true }, none)
  | .Dollar | .Number | .Date | .Other =>
    ({ t with last_ident := none, logical_pending := t.logical_pending || was_logical }, none)
  | .Ws => (t, none)

def isStr : Lexeme → Bool
  | .Str _ => true
  | _ => false

/-- Drops what the lexeme just read has ended. -/
def settle (t : ScopeTracker) (lex : Lexeme) (resolved : Option NavResult)
    (was_step_dash was_logical : Bool) : ScopeTracker :=
  { t with
    last_nav := resolved
    cmp_pending := if lex = .Cmp then t.cmp_pending else none
    awaiting_reducer := if lex = .Arrow then t.awaiting_reducer else none
    awaiting_store_method := lex = .Arrow && t.awaiting_store_method
    awaiting_extent_method := lex = .Arrow && t.awaiting_extent_method
    awaiting_scalar_method := if lex = .Arrow then t.awaiting_scalar_method else none
    last_call_type := if lex = .Close then t.last_call_type else none
    awaiting_class_call_result := lex = .Close && t.awaiting_class_call_result
    logical_pending := was_logical && t.logical_pending
    awaiting_extent_step := (lex = .Close || was_step_dash) && t.awaiting_extent_step
    awaiting_store_result := (lex = .Close || was_step_dash) && t.awaiting_store_result
    awaiting_str_operator := (isStr lex || was_step_dash) && t.awaiting_str_operator }

def dispatchToken (t : ScopeTracker) (bytes : List UInt8) (pre_state : State) (schema : Schema) :
    ScopeTracker :=
  let lex := classifyAt bytes pre_state
  if lex = .Ws then t
  else
    let was_logical := isLogicalOperator bytes pre_state
    let (t, resolved) := t.onLexeme lex bytes pre_state was_logical schema
    t.settle lex resolved (bytes = STEP_DASH_TOKEN) was_logical

/-! ## Reading a token -/

/-- The pieces of the bytes between two lexemes: operators of two bytes,
identifiers, and single bytes. Spaces are skipped. Each turn takes a byte or
more, so the length of the gap bounds the turns. -/
def gapUnits : Nat → List UInt8 → List (List UInt8)
  | 0, _ => []
  | _ + 1, [] => []
  | turns + 1, b :: tail =>
    if isAsciiWhitespace b then gapUnits turns tail
    else if tail.head?.any (isTwoByteOp b) then
      (b :: tail.take 1) :: gapUnits turns (tail.drop 1)
    else if isIdentStart b then
      (b :: tail.takeWhile isIdentTail) :: gapUnits turns (tail.dropWhile isIdentTail)
    else [b] :: gapUnits turns tail

/-- Reads the bytes between two lexemes, every piece under the same state. -/
def flushGap (t : ScopeTracker) (gap : List UInt8) (anchor : State) (schema : Schema) :
    ScopeTracker :=
  (gapUnits gap.length gap).foldl (fun t unit => t.dispatchToken unit anchor schema) t

/-- Reads a lexeme that ended, after the part of it that waited. -/
def emitLexeme (t : ScopeTracker) (seg : List UInt8) (anchor : State) (continuing : Bool)
    (schema : Schema) : ScopeTracker :=
  match continuing, t.pending with
  | true, some done =>
    { t with pending := none }.dispatchToken (done.buf ++ seg) done.anchor schema
  | _, _ => t.dispatchToken seg anchor schema

def extentFirstArg (t : ScopeTracker) (state : State) : Option ExtentArg :=
  if state = .ExpectValue then t.extent_call_arg else none

def inColumnArg (t : ScopeTracker) : Bool :=
  !t.ref_stack.isEmpty && t.rel_explicit && t.est_stack.isEmpty

def inOpenBraceBinderList (t : ScopeTracker) : Bool := t.brace_binder_open.head? = some true

def valueOpeningPosition (t : ScopeTracker) (state : State) : L2Position :=
  if t.in_source_method_args then .SourceMethodArg t.source_method_required t.source_method_commas
  else if t.in_property_method_args then
    .PropertyMethodArg t.property_method_required t.property_method_commas
  else if t.store_call_arity.isSome then .StoreMethodArg
  else if t.receiver_only_call then .ReceiverOnlyArg
  else match t.extentFirstArg state with
    | some arg => .ExtentMethodArg arg
    | none =>
      if t.logical_pending then .LogicalOperand
      else match t.cmp_pending with
        | some tc => .ReValue tc
        | none =>
          if t.inColumnArg then .Column
          else if t.inTildeKey state then .None
          else if t.inOpenBraceBinderList then .None
          else .ValueIdent

def completedTermPosition (t : ScopeTracker) : L2Position :=
  if t.awaiting_store_result then .StoreResult false
  else if t.awaiting_str_operator then .StrOperator false
  else match t.last_nav with
    | some (.Scalar tc) => .Comparator tc
    | some .NonScalar => .OrderedOperand
    | none => if t.awaiting_class_call_result then .OrderedOperand else .None

/-- The rule for a lexeme that would open at this state. -/
def openingPosition (t : ScopeTracker) (state : State) : L2Position :=
  match state with
  | .ExpectSource | .BlockStmt | .BlockStmtClose => .SourceIdent
  | .ExpectBinderValue => .BinderValueSourceIdent
  | .AfterDollar => if t.inMilestoningDateArgPosition then .None else .RefVar
  | .AfterDot =>
    if t.awaiting_source_method then .SourceMethod
    else if t.dot_is_column then .RelationColumn
    else match t.dot_base with
      | some base => .Member base
      | none => .None
  | .ExpectValue | .ExpectValueReq => t.valueOpeningPosition state
  | .ExpectRelColSpec | .ExpectRelColSpecReq => t.valueOpeningPosition state
  | .SawDash =>
    if t.awaiting_extent_step then .SourceExtent true
    else if t.awaiting_store_result then .StoreResult true
    else if t.awaiting_str_operator then .StrOperator true
    else .ValueIdent
  | .SawPipe | .SawLt | .SawGt => .ValueIdent
  | .AfterValue =>
    if t.awaiting_extent_step then .SourceExtent false else t.completedTermPosition
  | .AfterName | .AfterMemberName | .AfterStrLit | .AfterRelColName => t.completedTermPosition
  | .AfterArrow =>
    if t.awaiting_store_method then .StoreMethod
    else if t.awaiting_extent_method then .ExtentMethod
    else match t.awaiting_reducer, t.awaiting_scalar_method with
      | some tc, _ => .Reducer tc
      | none, some tc => .ScalarMethod tc
      | none, none => .None
  | _ => .None

/-- The rule an open lexeme keeps. A lexeme that opened where a value of one
kind was asked for is past that rule. -/
def openedPosition (kind : LexKind) (opening : L2Position) : L2Position :=
  match kind, opening with
  | .Ident, .ReValue _ | .Ident, .ExtentMethodArg _ => .ValueIdent
  | _, .ReValue _ | _, .SourceMethodArg _ _ | _, .PropertyMethodArg _ _ | _, .StoreMethodArg
  | _, .ExtentMethodArg _ => .None
  | _, narrowed => narrowed

/-- Keeps a lexeme that the token ended inside of. -/
def bufferTrailing (t : ScopeTracker) (kind : LexKind) (seg : List UInt8) (anchor : State)
    (continuing : Bool) : ScopeTracker :=
  if continuing then
    { t with pending := t.pending.map fun p => { p with buf := p.buf ++ seg } }
  else
    { t with pending := some ⟨kind, seg, anchor, openedPosition kind (t.openingPosition anchor)⟩ }

/-- Where the reading of a token stands: the tracker, the automaton, and the
piece of the token that is open with the state it opened at. -/
structure Reading where
  tracker : ScopeTracker
  pda : Pda
  continuing : Bool
  anchor : State
  seg : List UInt8

/-- Takes one byte that moved the automaton to `next`. -/
def Reading.take (r : Reading) (byte : UInt8) (next : Pda) (schema : Schema) : Reading :=
  match r.pda.state.lexemeKind with
  | some kind =>
    if next.state.lexemeKind = some kind then { r with pda := next, seg := r.seg ++ [byte] }
    else
      ⟨r.tracker.emitLexeme r.seg r.anchor r.continuing schema, next, false, r.pda.state, [byte]⟩
  | none =>
    if next.state.lexemeKind.isSome then
      ⟨r.tracker.flushGap r.seg r.anchor schema, next, false, r.pda.state, [byte]⟩
    else { r with pda := next, seg := r.seg ++ [byte] }

/-- Ends the token: an open lexeme waits, and a gap is read. -/
def Reading.finish (r : Reading) (schema : Schema) : ScopeTracker :=
  match r.pda.state.lexemeKind with
  | some kind => r.tracker.bufferTrailing kind r.seg r.anchor r.continuing
  | none => r.tracker.flushGap r.seg r.anchor schema

/-- Reads the bytes of a token. A byte that is dead stops the reading. -/
def Reading.read (schema : Schema) : Reading → List UInt8 → ScopeTracker
  | r, [] => r.finish schema
  | r, byte :: rest =>
    match Config.advance step r.pda byte with
    | none => r.tracker
    | some next => Reading.read schema (r.take byte next schema) rest

/-- Starts a token at the automaton `pre`. A lexeme that waits goes on when
the automaton is still inside of it, and ends here when it is not. -/
def Reading.start (t : ScopeTracker) (pre : Pda) (schema : Schema) : Reading :=
  match t.pending with
  | some p =>
    if pre.state.lexemeKind = some p.kind then ⟨t, pre, true, p.anchor, []⟩
    else
      ⟨{ t with pending := none }.dispatchToken p.buf p.anchor schema, pre, false, pre.state, []⟩
  | none => ⟨t, pre, false, pre.state, []⟩

/-- Reads one token that the automaton `pre` accepts. -/
def observe (t : ScopeTracker) (bytes : List UInt8) (pre : Pda) (schema : Schema) :
    ScopeTracker :=
  Reading.read schema (Reading.start t pre schema) bytes

/-! ## The rule for the next token -/

def storeMethodArgSep (t : ScopeTracker) (state : State) : Option L2Position :=
  t.store_call_arity.bind fun arity =>
    if state.completesATerm || state = .InStrLit true then
      some (.StoreMethodArgSep (t.store_call_commas + 1 < arity))
    else none

/-- The states where a date or a variable argument may be complete. -/
def endsMilestoneArg (state : State) : Bool :=
  state.completesATerm || state = .InDateLit || state = .InDateTime || state = .InDateFrac ||
    state = .InMilestoneLit || state = .InMemberIdent

def sourceMethodArgSep (t : ScopeTracker) (state : State) : Option L2Position :=
  if !t.in_source_method_args then none
  else t.source_method_required.bind fun required =>
    if endsMilestoneArg state then
      some (.SourceMethodArgSep (t.source_method_commas + 1 < required) state)
    else none

def propertyMethodArgSep (t : ScopeTracker) (state : State) : Option L2Position :=
  if !t.in_property_method_args then none
  else t.property_method_required.bind fun required =>
    if endsMilestoneArg state then
      some (.PropertyMethodArgSep (t.property_method_commas + 1 < required) state)
    else none

/-- The bytes of the lexeme that is open. -/
def narrowPrefix (t : ScopeTracker) : List UInt8 :=
  match t.pending with
  | some p => p.buf
  | none => []

def valueIdentNarrows (t : ScopeTracker) : Bool :=
  t.pending.any (fun p => p.kind = .Ident) && valueIdentConstrains t.narrowPrefix

/-- The rule of the open lexeme, or of one that would open here. -/
def basePosition (t : ScopeTracker) (state : State) : L2Position :=
  let pos := if state.lexemeKind.isSome then
      match t.pending with
      | some p => p.pos
      | none => .None
    else t.openingPosition state
  if pos = .ValueIdent && !t.valueIdentNarrows then .None else pos

def position (t : ScopeTracker) (state : State) : L2Position :=
  match t.storeMethodArgSep state with
  | some sep => sep
  | none =>
    match t.sourceMethodArgSep state with
    | some sep => sep
    | none =>
      match t.propertyMethodArgSep state with
      | some sep => sep
      | none =>
        -- a quote that may close its literal is already past the literal
        if t.basePosition state = .None && state = .InStrLit true then .StrOperator false
        else t.basePosition state

def masksUnboundSigil (t : ScopeTracker) (state : State) : Bool :=
  state.opensRefvarSigil && t.bound_vars.isEmpty && !t.inMilestoningDateArgPosition

def navFromVar (t : ScopeTracker) (var : Text) : Option L2Position :=
  if t.relation_row_vars.contains var then some .RelationColumn
  else (t.var_class.lookup var).join.map .Member

def navFromMember (t : ScopeTracker) (member : Text) (schema : Schema) : Option L2Position :=
  t.dot_base.bind fun base =>
    match schema.resolve base member with
    | some (.Class path _) => some (.Member path)
    | _ => none

/-- The rule for the name behind a dot that one token may join to the
navigation before it. -/
def fusedNavPosition (t : ScopeTracker) (schema : Schema) : Option L2Position :=
  match t.pending with
  | some p =>
    if p.kind ≠ .Ident || !isUtf8 p.buf then none
    else match p.anchor with
      | .AfterDollar => t.navFromVar p.buf
      | .AfterDot => t.navFromMember p.buf schema
      | _ => none
  | none =>
    match t.pending_refvar with
    | some var => t.navFromVar var
    | none => t.nav_cursor.map .Member

def emittedColumns (t : ScopeTracker) : List (List UInt8) := t.emitted_strings

def boundVariables (t : ScopeTracker) : List Text := t.bound_vars

end ScopeTracker

end purecard.scope
