-- The typed relational IR (`relational.rs`): schemas, facts, scalar and
-- relational expressions, and the check that every relational expression
-- passes when it is constructed.
import PureAnalyzer.ModelTypes
import PureAnalyzer.SortedSets
import Mathlib.Algebra.GroupWithZero.Nat
import Mathlib.Data.List.Lex
import Mathlib.Order.Basic

namespace analyzer.relational

open fragments sortedsets model resolve

def BOOLEAN_TYPE : Text := ascii "Boolean"

def EXACTLY_ONE : Nat := 1

def INTEGER_TYPE : Text := ascii "Integer"

def STRING_TYPE : Text := ascii "String"

/-- How deep the relational and scalar nodes of a query may be nested. -/
def MAX_RELATIONAL_RECURSION_DEPTH : Nat := 32

/-! ## Origins -/

structure SourceSpan where
  file : Nat
  range : TextRange
deriving DecidableEq

inductive ModelOriginKind where
  | Class
  | Member
deriving DecidableEq, Repr

/-- The path or the name of a definition in the model. -/
inductive ModelOriginIdentity where
  | Class (path : QName)
  | Member (owner : QName) (name : Name) (kind : ResolvedMemberKind)
deriving DecidableEq

def ModelOriginIdentity.originKind : ModelOriginIdentity → ModelOriginKind
  | Class _ => .Class
  | Member _ _ _ => .Member

/-- A definition of the model that an IR value rests on. It is made from a
class or from a member, so its kind is that of its identity. -/
structure ModelOrigin where
  kind : ModelOriginKind
  provenance : Provenance
  definition : DefinitionAnchor
  identity : ModelOriginIdentity
  of_identity : kind = identity.originKind
deriving DecidableEq

namespace ModelOrigin

def fromClass (cls : ResolvedClass) : ModelOrigin :=
  ⟨.Class, cls.provenance, cls.definition, .Class cls.path, rfl⟩

def fromMember (member : ResolvedMember) : ModelOrigin :=
  ⟨.Member, member.provenance, member.definition,
    .Member member.owner.path member.name member.kind, rfl⟩

/-- The identity as one text: its parts, joined by colons. -/
def structuralIdentityKey (origin : ModelOrigin) : Text :=
  match origin.identity with
  | .Class path => ascii "class:" ++ path.text
  | .Member owner name kind =>
    let kind : Text :=
      match kind with
      | .Qualified .UserQualified => ascii "qualified:user"
      | .Qualified .MilestonedPoint => ascii "qualified:milestoned-point"
      | .Qualified .AllVersions => ascii "qualified:all-versions"
      | .Qualified .AllVersionsInRange => ascii "qualified:all-versions-in-range"
      | .Property => ascii "property"
      | .AssociationEnd association => ascii "association-end:" ++ association.text
    ascii "member:" ++ owner.text ++ ascii ":" ++ name.text ++ ascii ":" ++ kind

end ModelOrigin

/-- The place in the query and the definitions of the model that an IR value
or a proven fact rests on. -/
structure IrOrigin where
  source : SourceSpan
  model_origins : List ModelOrigin
deriving DecidableEq

/-! ## Schemas and facts -/

/-- The identity of an output column, apart from its name. -/
abbrev ColumnId := Nat

inductive Nullability where
  | NonNullable
  | Nullable
  | Unknown
deriving DecidableEq, Repr

structure Column where
  id : ColumnId
  name : Name
  type_ref : TypeRef
  multiplicity : Multiplicity
  nullability : Nullability
  origin : IrOrigin
deriving DecidableEq

inductive SchemaError where
  | DuplicateColumnId (id : ColumnId)
deriving DecidableEq, Repr

/-- The ordered output columns of a relation. No two share an identity. -/
structure RelationSchema where
  columns : List Column
  ids : (columns.map Column.id).Nodup
deriving DecidableEq

/-- The first identity that an earlier column has as well. -/
def firstDuplicate (seen : List ColumnId) : List ColumnId → Option ColumnId
  | [] => none
  | id :: ids => if id ∈ seen then some id else firstDuplicate (id :: seen) ids

theorem nodup_of_firstDuplicate {seen ids : List ColumnId} (h : firstDuplicate seen ids = none) :
    ids.Nodup ∧ ∀ id ∈ ids, id ∉ seen := by
  induction ids generalizing seen with
  | nil => simp
  | cons id ids ih =>
    rw [firstDuplicate] at h
    by_cases hid : id ∈ seen
    · rw [if_pos hid] at h
      cases h
    · rw [if_neg hid] at h
      obtain ⟨hnodup, hseen⟩ := ih h
      have hfresh : id ∉ ids := fun hmem => hseen id hmem (List.mem_cons_self ..)
      refine ⟨List.nodup_cons.mpr ⟨hfresh, hnodup⟩, ?_⟩
      intro other hother
      rcases List.mem_cons.mp hother with rfl | hother
      · exact hid
      · exact fun hmem => hseen other hother (List.mem_cons_of_mem _ hmem)

namespace RelationSchema

def new (columns : List Column) : Except SchemaError RelationSchema :=
  match h : firstDuplicate [] (columns.map Column.id) with
  | some id => .error (.DuplicateColumnId id)
  | none => .ok ⟨columns, (nodup_of_firstDuplicate h).1⟩

/-- The column with an identity. -/
def column (schema : RelationSchema) (id : ColumnId) : Option Column :=
  schema.columns.find? (·.id = id)

end RelationSchema

/-- A candidate key is a set of columns, kept in order and without repeats. -/
structure CandidateKey where
  columns : List ColumnId
  sorted : columns.Pairwise (· < ·)
deriving DecidableEq

def CandidateKey.new (columns : List ColumnId) : CandidateKey :=
  ⟨sortDedup columns, sortDedup_strict columns⟩

instance : LinearOrder CandidateKey :=
  LinearOrder.lift' CandidateKey.columns fun k l h => by
    cases k
    cases l
    cases h
    rfl

inductive Totality where
  | Total
  | Partial
deriving DecidableEq, Repr

inductive RowSemantics where
  | Set
  | Bag
deriving DecidableEq, Repr

/-- A fact with its evidence, or no fact. -/
inductive Knowledge (α : Type) where
  | Proven (value : α) (origin : IrOrigin)
  | Unknown
deriving DecidableEq

namespace Knowledge

variable {α : Type}

def isUnknown : Knowledge α → Bool
  | Proven _ _ => false
  | Unknown => true

/-- Both facts prove one value, from any evidence. -/
def matchesIgnoringOrigin [DecidableEq α] : Knowledge α → Knowledge α → Bool
  | Unknown, Unknown => true
  | Proven left _, Proven right _ => left = right
  | _, _ => false

end Knowledge

def canonicalizeCandidateKeys (candidate_keys : Knowledge (List CandidateKey)) :
    Knowledge (List CandidateKey) :=
  match candidate_keys with
  | .Proven value origin => .Proven (sortDedup value) origin
  | .Unknown => .Unknown

/-- What is proven about a relation. Its candidate keys are in order and
without repeats. -/
structure RelationFacts where
  candidate_keys : Knowledge (List CandidateKey)
  row_semantics : Knowledge RowSemantics
  canonical : canonicalizeCandidateKeys candidate_keys = candidate_keys
deriving DecidableEq

theorem canonicalize_idem (candidate_keys : Knowledge (List CandidateKey)) :
    canonicalizeCandidateKeys (canonicalizeCandidateKeys candidate_keys) =
      canonicalizeCandidateKeys candidate_keys := by
  cases candidate_keys with
  | Unknown => rfl
  | Proven value origin =>
    show Knowledge.Proven (sortDedup (sortDedup value)) origin = .Proven (sortDedup value) origin
    rw [sortDedup_eq_iff.mpr fun key => mem_sortDedup]

namespace RelationFacts

def new (candidate_keys : Knowledge (List CandidateKey))
    (row_semantics : Knowledge RowSemantics) : RelationFacts :=
  ⟨canonicalizeCandidateKeys candidate_keys, row_semantics, canonicalize_idem candidate_keys⟩

def unknown : RelationFacts := new .Unknown .Unknown

/-- Both prove the same conclusions, from any evidence. -/
def matchesFacts (facts other : RelationFacts) : Bool :=
  facts.candidate_keys.matchesIgnoringOrigin other.candidate_keys &&
    facts.row_semantics.matchesIgnoringOrigin other.row_semantics

end RelationFacts

/-! ## Expressions -/

inductive RelationSource where
  | Class (cls : ResolvedClass)
deriving DecidableEq

/-- The members that a navigation may use: properties and association ends
with at most one value. -/
def navigable (member : ResolvedMember) : Bool :=
  member.multiplicity.isToOne &&
    match member.kind with
    | .Property | .AssociationEnd _ => true
    | .Qualified _ => false

/-- The evidence of a resolver for one step to a member. -/
structure ResolvedNavigation where
  receiver : LocalValue
  member : ResolvedMember
  plain : navigable member = true
deriving DecidableEq

inductive NavigationTarget where
  | Member (member : ResolvedMember)
  | RelationColumn (column : RelationColumn)
deriving DecidableEq

/-- A chain that a resolver found: where it starts, and what each hop found. -/
structure NavigationChain where
  source : LocalValue
  hops : List NavigationTarget
deriving DecidableEq

/-- Keeps a chain of one hop to a navigable member. -/
def ResolvedNavigation.fromChain (chain : NavigationChain) : Option ResolvedNavigation :=
  match chain.hops with
  | [.Member member] => if h : navigable member then some ⟨chain.source, member, h⟩ else none
  | _ => none

inductive JoinKind where
  | Inner
deriving DecidableEq, Repr

inductive ProjectionKind where
  | Scalar
  | Relation
deriving DecidableEq, Repr

inductive SortDirection where
  | Ascending
  | Descending
deriving DecidableEq, Repr

structure SortKey where
  column : ColumnId
  direction : SortDirection
  origin : IrOrigin
deriving DecidableEq

inductive ScalarLiteral where
  | Boolean (value : Bool)
  | Integer (value : Int)
  | String (value : Text)
  | Null
deriving DecidableEq

/-- What every scalar expression says of its value. -/
structure ScalarFacts where
  type_ref : TypeRef
  multiplicity : Multiplicity
  nullability : Nullability
  totality : Knowledge Totality
  origin : IrOrigin
deriving DecidableEq

/-- A scalar expression: its operator and its facts. -/
inductive ScalarExpression where
  | Column (id : ColumnId) (facts : ScalarFacts)
  | Literal (literal : ScalarLiteral) (facts : ScalarFacts)
  | Navigation (input : ScalarExpression) (navigation : ResolvedNavigation) (facts : ScalarFacts)
  | Equal (left right : ScalarExpression) (facts : ScalarFacts)
  | Not (input : ScalarExpression) (facts : ScalarFacts)
deriving DecidableEq

def ScalarExpression.facts : ScalarExpression → ScalarFacts
  | Column _ facts | Literal _ facts | Navigation _ _ facts | Equal _ _ facts | Not _ facts => facts

structure Projection where
  column : ColumnId
  expression : ScalarExpression
deriving DecidableEq

/-- What every relational expression says of its rows. -/
structure RelationShape where
  schema : RelationSchema
  facts : RelationFacts
  origin : IrOrigin
deriving DecidableEq

/-- A relational expression: its operator and its shape. -/
inductive RelationExpression where
  | Scan (source : RelationSource) (shape : RelationShape)
  | Filter (input : RelationExpression) (predicate : ScalarExpression) (shape : RelationShape)
  | Project (input : RelationExpression) (projections : List Projection) (kind : ProjectionKind)
    (shape : RelationShape)
  | Join (kind : JoinKind) (left right : RelationExpression) (condition : ScalarExpression)
    (shape : RelationShape)
  | Distinct (input : RelationExpression) (shape : RelationShape)
  | DistinctOn (input : RelationExpression) (columns : List ColumnId) (shape : RelationShape)
  | Sort (input : RelationExpression) (keys : List SortKey) (shape : RelationShape)
deriving DecidableEq

namespace RelationExpression

def shape : RelationExpression → RelationShape
  | .Scan _ shape | .Filter _ _ shape | .Project _ _ _ shape | .Join _ _ _ _ shape
  | .Distinct _ shape | .DistinctOn _ _ shape | .Sort _ _ shape => shape

def schema (e : RelationExpression) : RelationSchema := e.shape.schema

def facts (e : RelationExpression) : RelationFacts := e.shape.facts

def origin (e : RelationExpression) : IrOrigin := e.shape.origin

end RelationExpression

/-! ## The check of an expression -/

inductive RelationExpressionError where
  | FilterSchemaMismatch
  | ProjectionSchemaMismatch
  | JoinSchemaMismatch
  | DistinctSchemaMismatch
  | DistinctOnEmptySelection
  | DistinctOnDuplicateColumn (column : ColumnId)
  | DistinctOnUnknownColumn (column : ColumnId)
  | DistinctOnSchemaMismatch
  | SortSchemaMismatch
  | EmptySortKeys
  | UnknownSortKeyColumn (column : ColumnId)
  | DuplicateSortKeyColumn (column : ColumnId)
  | UnknownColumnReference (column : ColumnId)
  | UnknownKeyColumn (column : ColumnId)
  | ColumnMetadataMismatch (column : ColumnId)
  | NavigationMetadataMismatch
  | ComparisonTypeMismatch
  | InvalidLiteralType
  | NonBooleanPredicate
deriving DecidableEq, Repr

/-- A product of two `u32`, when it is one. -/
def checkedMul (a b : Nat) : Option Nat := if a * b < 2 ^ 32 then some (a * b) else none

/-- The bounds of a member's values behind a receiver's. -/
def composeNavigationMultiplicity (receiver member : Multiplicity) : Option Multiplicity := do
  let lower ← checkedMul receiver.lower member.lower
  let upper ← match receiver.upper, member.upper with
    | some 0, _ | _, some 0 => some (some 0)
    | some left, some right => (checkedMul left right).map some
    | _, _ => some none
  (Multiplicity.new lower upper).toOption

def isExactlyOne (m : Multiplicity) : Bool :=
  m.lower = EXACTLY_ONE && m.upper = some EXACTLY_ONE

def validateBoolean (e : ScalarExpression) : Except RelationExpressionError Unit :=
  if e.facts.type_ref.rawType.text = BOOLEAN_TYPE && e.facts.type_ref.typeArguments.isEmpty &&
      isExactlyOne e.facts.multiplicity && e.facts.nullability = .NonNullable then .ok ()
  else .error .NonBooleanPredicate

def validLiteral (facts : ScalarFacts) (literal : ScalarLiteral) : Bool :=
  let one_value := isExactlyOne facts.multiplicity
  let primitive (name : Text) : Bool :=
    facts.type_ref.typeArguments.isEmpty && facts.type_ref.rawType.text = name && one_value &&
      facts.nullability = .NonNullable
  match literal with
  | .Boolean _ => primitive BOOLEAN_TYPE
  | .Integer _ => primitive INTEGER_TYPE
  | .String _ => primitive STRING_TYPE
  | .Null => one_value && facts.nullability = .Nullable

def validateLiteral (facts : ScalarFacts) (literal : ScalarLiteral) :
    Except RelationExpressionError Unit :=
  if validLiteral facts literal then .ok () else .error .InvalidLiteralType

def sameColumnMetadata (facts : ScalarFacts) (column : Column) : Bool :=
  facts.type_ref = column.type_ref && facts.multiplicity = column.multiplicity &&
    facts.nullability = column.nullability

/-- The receiver of a navigation is a class, and the input is of that class. -/
def navigationReceiverMatches (facts : ScalarFacts) (receiver : LocalValue) : Bool :=
  match receiver.kind with
  | .Class cls =>
    facts.type_ref = .new cls.path [] && facts.multiplicity = receiver.multiplicity &&
      facts.origin.model_origins.contains (ModelOrigin.fromClass cls)
  | _ => false

/-- The facts of a navigation are those of its member behind its input. -/
def navigationFactsMatch (facts input : ScalarFacts) (member : ResolvedMember) : Bool :=
  match composeNavigationMultiplicity input.multiplicity member.multiplicity with
  | none => false
  | some multiplicity =>
    facts.type_ref = member.target && facts.multiplicity = multiplicity &&
      facts.nullability = .Unknown &&
      facts.origin.model_origins.contains (ModelOrigin.fromMember member)

/-- The first schema that has the column gives it. -/
def findColumn (schemas : List RelationSchema) (id : ColumnId) : Option Column :=
  schemas.findSome? (·.column id)

def validateScalar (schemas : List RelationSchema) :
    ScalarExpression → Except RelationExpressionError Unit
  | .Column id facts =>
    match findColumn schemas id with
    | none => .error (.UnknownColumnReference id)
    | some column =>
      if sameColumnMetadata facts column then .ok () else .error (.ColumnMetadataMismatch id)
  | .Literal literal facts => validateLiteral facts literal
  | .Navigation input navigation facts => do
    validateScalar schemas input
    if navigationReceiverMatches input.facts navigation.receiver &&
        navigationFactsMatch facts input.facts navigation.member then .ok ()
    else .error .NavigationMetadataMismatch
  | .Equal left right facts => do
    validateScalar schemas left
    validateScalar schemas right
    if left.facts.type_ref = right.facts.type_ref then validateBoolean (.Equal left right facts)
    else .error .ComparisonTypeMismatch
  | .Not input facts => do
    validateScalar schemas input
    validateBoolean input
    validateBoolean (.Not input facts)

/-- Every key is a column of the input, and none is there twice. -/
def validateSortKeys (input : RelationSchema) (seen : List ColumnId) :
    List SortKey → Except RelationExpressionError Unit
  | [] => .ok ()
  | key :: keys =>
    if (input.column key.column).isNone then .error (.UnknownSortKeyColumn key.column)
    else if key.column ∈ seen then .error (.DuplicateSortKeyColumn key.column)
    else validateSortKeys input (key.column :: seen) keys

def validateSort (input : RelationSchema) (keys : List SortKey) (schema : RelationSchema) :
    Except RelationExpressionError Unit :=
  if schema ≠ input then .error .SortSchemaMismatch
  else if keys.isEmpty then .error .EmptySortKeys
  else validateSortKeys input [] keys

def validateProjectionSchema (projections : List Projection) (schema : RelationSchema) :
    Except RelationExpressionError Unit :=
  if projections.map Projection.column = schema.columns.map Column.id then .ok ()
  else .error .ProjectionSchemaMismatch

/-- Each projection reads the input and has the facts of its column. -/
def validateProjections (input : RelationSchema) :
    List (Projection × Column) → Except RelationExpressionError Unit
  | [] => .ok ()
  | (projection, column) :: rest => do
    validateScalar [input] projection.expression
    if sameColumnMetadata projection.expression.facts column then validateProjections input rest
    else .error (.ColumnMetadataMismatch projection.column)

def isJoinSchema (schema left right : RelationSchema) : Bool :=
  schema.columns = left.columns ++ right.columns

/-- The input columns that a selection names, when they are all there and
none is named twice. -/
def selectColumns (input : RelationSchema) (seen : List ColumnId) :
    List ColumnId → Except RelationExpressionError (List Column)
  | [] => .ok []
  | id :: ids =>
    if id ∈ seen then .error (.DistinctOnDuplicateColumn id)
    else
      match input.column id with
      | none => .error (.DistinctOnUnknownColumn id)
      | some column => do
        let selected ← selectColumns input (id :: seen) ids
        .ok (column :: selected)

def validateDistinctOnSchema (columns : List ColumnId) (schema input : RelationSchema) :
    Except RelationExpressionError Unit :=
  if columns.isEmpty then .error .DistinctOnEmptySelection
  else do
    let selected ← selectColumns input [] columns
    if schema.columns = selected then .ok () else .error .DistinctOnSchemaMismatch

def validateRelationOperator : RelationExpression → Except RelationExpressionError Unit
  | .Scan _ _ => .ok ()
  | .Filter input predicate shape =>
    if shape.schema ≠ input.schema then .error .FilterSchemaMismatch
    else do
      validateScalar [input.schema] predicate
      validateBoolean predicate
  | .Project input projections _ shape => do
    validateProjectionSchema projections shape.schema
    validateProjections input.schema (projections.zip shape.schema.columns)
  | .Join _ left right condition shape =>
    if !isJoinSchema shape.schema left.schema right.schema then .error .JoinSchemaMismatch
    else do
      validateScalar [left.schema, right.schema] condition
      validateBoolean condition
  | .Distinct input shape =>
    if shape.schema ≠ input.schema then .error .DistinctSchemaMismatch else .ok ()
  | .DistinctOn input columns shape => validateDistinctOnSchema columns shape.schema input.schema
  | .Sort input keys shape => validateSort input.schema keys shape.schema

/-- Every column of a proven key is a column of the schema. -/
def validateExpressionKeys (schema : RelationSchema)
    (candidate_keys : Knowledge (List CandidateKey)) : Except RelationExpressionError Unit :=
  match candidate_keys with
  | .Unknown => .ok ()
  | .Proven keys _ =>
    match (keys.flatMap CandidateKey.columns).find? fun id => (schema.column id).isNone with
    | some id => .error (.UnknownKeyColumn id)
    | none => .ok ()

/-- An expression over inputs that were constructed before, when it passes. -/
def RelationExpression.new (e : RelationExpression) :
    Except RelationExpressionError RelationExpression := do
  validateRelationOperator e
  validateExpressionKeys e.schema e.facts.candidate_keys
  .ok e

/-- Every node of the expression was constructed by `new`. -/
def RelationExpression.Built : RelationExpression → Prop
  | e@(.Scan _ _) => e.new.isOk = true
  | e@(.Filter input _ _) => e.new.isOk = true ∧ input.Built
  | e@(.Project input _ _ _) => e.new.isOk = true ∧ input.Built
  | e@(.Join _ left right _ _) => e.new.isOk = true ∧ left.Built ∧ right.Built
  | e@(.Distinct input _) => e.new.isOk = true ∧ input.Built
  | e@(.DistinctOn input _ _) => e.new.isOk = true ∧ input.Built
  | e@(.Sort input _ _) => e.new.isOk = true ∧ input.Built

/-- A query whose nodes were all constructed by `RelationExpression.new`. -/
structure RelationalQuery where
  root : RelationExpression
  built : root.Built

namespace RelationalQuery

def output (q : RelationalQuery) : RelationSchema := q.root.schema

def facts (q : RelationalQuery) : RelationFacts := q.root.facts

end RelationalQuery

/-! ## What lowering gives -/

/-- Why a verdict stays open. -/
inductive ReasonCode where
  | IndWindow
  | IndPareto
  | IndMultistepFiscal
  | IndDivisionRatio
  | IndMilestoningAsof
  | IndOrderUnderdetermined
  | IndOpaquePredicate
  | IndDifferentSources
  | IndMissingRewrite
  | IndUnmodeledOp
  | IndOpaqueFunctionInWitness
  | IndUnresolvedSchema
  | IndWitnessBudgetExhausted
  | IndPredicateNormalFormGap
  | IndUnparseable
  | ModelIncomplete
  | RelationRowTypeUnknown
deriving DecidableEq, Repr

def ReasonCode.id : ReasonCode → Text
  | IndWindow => ascii "IND_WINDOW"
  | IndPareto => ascii "IND_PARETO"
  | IndMultistepFiscal => ascii "IND_MULTISTEP_FISCAL"
  | IndDivisionRatio => ascii "IND_DIVISION_RATIO"
  | IndMilestoningAsof => ascii "IND_MILESTONING_ASOF"
  | IndOrderUnderdetermined => ascii "IND_ORDER_UNDERDETERMINED"
  | IndOpaquePredicate => ascii "IND_OPAQUE_PREDICATE"
  | IndDifferentSources => ascii "IND_DIFFERENT_SOURCES"
  | IndMissingRewrite => ascii "IND_MISSING_REWRITE"
  | IndUnmodeledOp => ascii "IND_UNMODELED_OP"
  | IndOpaqueFunctionInWitness => ascii "IND_OPAQUE_FUNCTION_IN_WITNESS"
  | IndUnresolvedSchema => ascii "IND_UNRESOLVED_SCHEMA"
  | IndWitnessBudgetExhausted => ascii "IND_WITNESS_BUDGET_EXHAUSTED"
  | IndPredicateNormalFormGap => ascii "IND_PREDICATE_NORMAL_FORM_GAP"
  | IndUnparseable => ascii "IND_UNPARSEABLE"
  | ModelIncomplete => ascii "MODEL_INCOMPLETE"
  | RelationRowTypeUnknown => ascii "RELATION_ROW_TYPE_UNKNOWN"

structure OpaqueOutcome where
  reason : ReasonCode
  origin : IrOrigin
deriving DecidableEq

inductive RelationalOutcome where
  | Supported (query : RelationalQuery)
  | Opaque (outcome : OpaqueOutcome)

end analyzer.relational
