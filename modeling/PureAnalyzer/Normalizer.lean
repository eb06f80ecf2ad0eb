-- The normalizer (`normalizer.rs`): it walks a query within a budget of
-- steps and of depth, drops the operators that do nothing, and writes the
-- keys by which normal forms are compared.
import PureAnalyzer.Relational

namespace analyzer.normalizer

open fragments sortedsets model resolve relational

def NORMALIZATION_FANOUT_HEADROOM : Nat := 128

def DEFAULT_NORMALIZATION_STEP_LIMIT : Nat :=
  MAX_RELATIONAL_RECURSION_DEPTH * NORMALIZATION_FANOUT_HEADROOM

/-- How many steps a normalization may take. -/
structure NormalizationBudget where
  max_steps : Nat
deriving DecidableEq, Repr

def NormalizationBudget.default : NormalizationBudget := ⟨DEFAULT_NORMALIZATION_STEP_LIMIT⟩

structure NormalizationFailure where
  reason : ReasonCode
  origin : IrOrigin
deriving DecidableEq

def NormalizationFailure.missingRewrite (origin : IrOrigin) : NormalizationFailure :=
  ⟨.IndMissingRewrite, origin⟩

/-! ## The rewrites -/

/-- The projection writes the column that it reads. -/
def isIdentityRead (projection : Projection) (column : Column) : Bool :=
  let facts := projection.expression.facts
  projection.column = column.id && facts.type_ref = column.type_ref &&
    facts.multiplicity = column.multiplicity && facts.nullability = column.nullability &&
    facts.totality.isUnknown &&
    match projection.expression with
    | .Column id _ => id = column.id
    | _ => false

/-- Whether a projection gives back every column of its input as it is. -/
def isIdentityProject (input : RelationExpression) (schema : RelationSchema)
    (facts : RelationFacts) (projections : List Projection) : Bool :=
  schema = input.schema && facts = input.facts &&
    projections.length = schema.columns.length &&
    (projections.zip schema.columns).all fun p => isIdentityRead p.1 p.2

/-- The facts are compared with their evidence. -/
def isLiteralTrueFilter (input : RelationExpression) (schema : RelationSchema)
    (facts : RelationFacts) (predicate : ScalarExpression) : Bool :=
  schema = input.schema && facts = input.facts && predicate.facts.totality.isUnknown &&
    match predicate with
    | .Literal (.Boolean true) _ => true
    | _ => false

/-- The facts are compared without their evidence. -/
def isRepeatedDistinct (input : RelationExpression) (schema : RelationSchema)
    (facts : RelationFacts) : Bool :=
  schema = input.schema && facts.matchesFacts input.facts &&
    match input with
    | .Distinct _ _ => true
    | _ => false

/-! ## The walk -/

structure Normalizer where
  remaining_steps : Nat
  depth : Nat
deriving DecidableEq, Repr

/-- A part of the walk: it reads and moves the counters, or gives up. -/
abbrev Walk := StateT Normalizer (Except NormalizationFailure)

/-- Pays one step. -/
def consume (origin : IrOrigin) : Walk Unit := fun n =>
  match n.remaining_steps with
  | 0 => .error (.missingRewrite origin)
  | remaining + 1 => .ok ((), { n with remaining_steps := remaining })

/-- Goes one level down. -/
def enter (origin : IrOrigin) : Walk Unit := fun n =>
  if n.depth ≥ MAX_RELATIONAL_RECURSION_DEPTH then .error (.missingRewrite origin)
  else .ok ((), { n with depth := n.depth + 1 })

def leave : Walk Unit := fun n => .ok ((), { n with depth := n.depth - 1 })

/-- The walk of one node: a step and a level, and the level back. -/
def atNode {α : Type} (origin : IrOrigin) (body : Walk α) : Walk α := do
  consume origin
  enter origin
  let result ← body
  leave
  pure result

/-- A scalar expression is visited, and stays as it is. -/
def scalar : ScalarExpression → Walk ScalarExpression
  | .Column id facts => atNode facts.origin (pure (.Column id facts))
  | .Literal literal facts => atNode facts.origin (pure (.Literal literal facts))
  | .Navigation input navigation facts => atNode facts.origin do
    let _ ← scalar input
    pure (.Navigation input navigation facts)
  | .Equal left right facts => atNode facts.origin do
    let _ ← scalar left
    let _ ← scalar right
    pure (.Equal left right facts)
  | .Not input facts => atNode facts.origin do
    let _ ← scalar input
    pure (.Not input facts)

def projection (p : Projection) : Walk Projection := do
  let expression ← scalar p.expression
  pure ⟨p.column, expression⟩

def projections : List Projection → Walk (List Projection)
  | [] => pure []
  | p :: ps => do
    let p ← projection p
    let ps ← projections ps
    pure (p :: ps)

/-- Constructs the node again over its new inputs. -/
def rebuild (e : RelationExpression) : Walk RelationExpression := fun n =>
  match e.new with
  | .ok e => .ok (e, n)
  | .error _ => .error (.missingRewrite e.origin)

def relation : RelationExpression → Walk RelationExpression
  | .Scan source shape => atNode shape.origin (pure (.Scan source shape))
  | .Filter input predicate shape => atNode shape.origin do
    let input ← relation input
    let predicate ← scalar predicate
    if isLiteralTrueFilter input shape.schema shape.facts predicate then pure input
    else rebuild (.Filter input predicate shape)
  | .Project input ps kind shape => atNode shape.origin do
    let input ← relation input
    let ps ← projections ps
    if isIdentityProject input shape.schema shape.facts ps then pure input
    else rebuild (.Project input ps kind shape)
  | .Join kind left right condition shape => atNode shape.origin do
    let left ← relation left
    let right ← relation right
    let condition ← scalar condition
    rebuild (.Join kind left right condition shape)
  | .Distinct input shape => atNode shape.origin do
    let input ← relation input
    if isRepeatedDistinct input shape.schema shape.facts then pure input
    else rebuild (.Distinct input shape)
  | .DistinctOn input columns shape => atNode shape.origin do
    let input ← relation input
    rebuild (.DistinctOn input columns shape)
  | .Sort input keys shape => atNode shape.origin do
    let input ← relation input
    rebuild (.Sort input keys shape)

/-! ## The scope of a column -/

/-- Where an identity stands in a list, counted from `position`. The last
place counts. -/
def lastPosition (position : Nat) : List ColumnId → ColumnId → Option Nat
  | [], _ => none
  | id :: ids, column =>
    match lastPosition (position + 1) ids column with
    | some later => some later
    | none => if id = column then some position else none

/-- The positions that stand for the columns of one scope. -/
structure ColumnScope where
  ids : List ColumnId
deriving DecidableEq, Repr

namespace ColumnScope

def fromColumns (columns : List Column) : ColumnScope := ⟨columns.map Column.id⟩

def fromSchema (schema : RelationSchema) : ColumnScope := fromColumns schema.columns

def fromJoin (left right : RelationSchema) : ColumnScope :=
  fromColumns (left.columns ++ right.columns)

/-- The place of a column in the scope. -/
def position (scope : ColumnScope) (column : ColumnId) : Option Nat :=
  lastPosition 0 scope.ids column

end ColumnScope

/-! ## The fragments of a key -/

def provenanceName : Provenance → Text
  | .Pmcd => ascii "pmcd"
  | .PureFile => ascii "pure-file"

/-- One definition of the model as a text of its own. -/
def modelOriginKey (origin : ModelOrigin) : Text :=
  let span :=
    match origin.definition.span with
    | some span => [decimal span.start, decimal span.stop]
    | none => [ascii "no-span"]
  written ([match origin.kind with | .Class => ascii "class" | .Member => ascii "member",
    provenanceName origin.provenance, decimal origin.definition.source] ++ span ++
    [origin.structuralIdentityKey])

namespace KeyEncoder

/-! Each function gives the fragments that it writes, in order. The flag says
if the evidence is written as well. -/

variable (include_provenance : Bool)

def columnId (scope : ColumnScope) (column : ColumnId) : List Text :=
  match scope.position column with
  | some position => [ascii "column-id", decimal position]
  | none => [ascii "column-id", ascii "missing"]

def range (range : TextRange) : List Text := [decimal range.start, decimal range.stop]

def anchor (anchor : DefinitionAnchor) : List Text :=
  [ascii "anchor", decimal anchor.source] ++
    match anchor.span with
    | some span => range span
    | none => [ascii "no-span"]

def provenance (provenance : Provenance) : List Text := [provenanceName provenance]

def origin (origin : IrOrigin) : List Text :=
  let model_origins := sortDedup (origin.model_origins.map modelOriginKey)
  [ascii "origin", decimal origin.source.file] ++ range origin.source.range ++
    decimal model_origins.length :: model_origins

/-- The origin, where the evidence is written. -/
def evidence (o : IrOrigin) : List Text := if include_provenance then origin o else []

mutual

def typeRef : TypeRef → List Text
  | .new raw_type type_arguments =>
    [ascii "type", raw_type.text, decimal type_arguments.length] ++ typeRefs type_arguments

def typeRefs : List TypeRef → List Text
  | [] => []
  | t :: ts => typeRef t ++ typeRefs ts

end

def multiplicity (m : Multiplicity) : List Text :=
  [ascii "multiplicity", decimal m.lower,
    match m.upper with
    | some upper => decimal upper
    | none => ascii "unbounded"]

def nullability : Nullability → List Text
  | .NonNullable => [ascii "non-null"]
  | .Nullable => [ascii "nullable"]
  | .Unknown => [ascii "unknown"]

def totality : Knowledge Totality → List Text
  | .Unknown => [ascii "totality", ascii "unknown"]
  | .Proven value origin =>
    [ascii "totality", ascii "proven",
      match value with | .Total => ascii "total" | .Partial => ascii "partial"] ++
      evidence include_provenance origin

def rowSemantics : Knowledge RowSemantics → List Text
  | .Unknown => [ascii "row-semantics", ascii "unknown"]
  | .Proven value origin =>
    [ascii "row-semantics", ascii "proven",
      match value with | .Set => ascii "set" | .Bag => ascii "bag"] ++
      evidence include_provenance origin

/-- The positions of a key's columns, in order. -/
def keyPositions (scope : ColumnScope) (key : CandidateKey) : List Nat :=
  sort (key.columns.filterMap scope.position)

/-- The keys by the places of their columns, sorted and without repeats. -/
def keys (knowledge : Knowledge (List CandidateKey)) (scope : ColumnScope) : List Text :=
  match knowledge with
  | .Unknown => [ascii "keys", ascii "unknown"]
  | .Proven value origin =>
    let keys := sortDedup (value.map (keyPositions scope))
    [ascii "keys", ascii "proven"] ++
      (decimal keys.length :: keys.flatMap fun key => decimal key.length :: key.map decimal) ++
      evidence include_provenance origin

def facts (facts : RelationFacts) (scope : ColumnScope) : List Text :=
  [ascii "facts"] ++ keys include_provenance facts.candidate_keys scope ++
    rowSemantics include_provenance facts.row_semantics

def column (c : Column) (scope : ColumnScope) : List Text :=
  [ascii "column"] ++ columnId scope c.id ++ [c.name.text] ++ typeRef c.type_ref ++
    multiplicity c.multiplicity ++ nullability c.nullability ++
    evidence include_provenance c.origin

def schema (schema : RelationSchema) (scope : ColumnScope) : List Text :=
  [ascii "schema"] ++
    decimal schema.columns.length ::
      schema.columns.flatMap fun c => column include_provenance c scope

def cls (c : ResolvedClass) : List Text :=
  [ascii "resolved-class", c.path.text,
    match c.temporal with
    | none => ascii "non-temporal"
    | some .Bitemporal => ascii "bitemporal"
    | some .BusinessTemporal => ascii "business-temporal"
    | some .ProcessingTemporal => ascii "processing-temporal"] ++
    if include_provenance then provenance c.provenance ++ anchor c.definition else []

def source : RelationSource → List Text
  | .Class c => [ascii "class"] ++ cls include_provenance c

def memberKind : ResolvedMemberKind → List Text
  | .Qualified kind =>
    [ascii "qualified",
      match kind with
      | .UserQualified => ascii "user"
      | .MilestonedPoint => ascii "milestoned-point"
      | .AllVersions => ascii "all-versions"
      | .AllVersionsInRange => ascii "all-versions-in-range"]
  | .Property => [ascii "property"]
  | .AssociationEnd association => [ascii "association-end", association.text]

def signature : Option (List TypeRef) → List Text
  | some signature => [ascii "signature", decimal signature.length] ++ typeRefs signature
  | none => [ascii "no-signature"]

def member (m : ResolvedMember) : List Text :=
  [ascii "resolved-member"] ++ cls include_provenance m.owner ++ [m.name.text] ++
    typeRef m.target ++ multiplicity m.multiplicity ++ memberKind m.kind ++
    signature m.signature ++
    [match m.target_temporal_arity with
      | some arity => decimal arity
      | none => ascii "no-target-temporal-arity"] ++
    if include_provenance then provenance m.provenance ++ anchor m.definition else []

def literal : ScalarLiteral → List Text
  | .Boolean value => [ascii "boolean", if value then ascii "true" else ascii "false"]
  | .Integer value => [ascii "integer", signed value]
  | .String value => [ascii "string", value]
  | .Null => [ascii "null"]

def scalarFacts (facts : ScalarFacts) : List Text :=
  [ascii "scalar"] ++ typeRef facts.type_ref ++ multiplicity facts.multiplicity ++
    nullability facts.nullability ++ totality include_provenance facts.totality ++
    evidence include_provenance facts.origin

def scalar (scope : ColumnScope) : ScalarExpression → List Text
  | .Column id facts =>
    scalarFacts include_provenance facts ++ [ascii "column"] ++ columnId scope id
  | .Literal l facts => scalarFacts include_provenance facts ++ literal l
  | .Navigation input navigation facts =>
    scalarFacts include_provenance facts ++ [ascii "navigation"] ++ scalar scope input ++
      member include_provenance navigation.member
  | .Equal left right facts =>
    scalarFacts include_provenance facts ++ [ascii "equal"] ++ scalar scope left ++
      scalar scope right
  | .Not input facts =>
    scalarFacts include_provenance facts ++ [ascii "not"] ++ scalar scope input

/-- The column of a sort by its place, and its direction. -/
def sortKey (key : SortKey) (scope : ColumnScope) : List Text :=
  [ascii "sort-key"] ++ columnId scope key.column ++
    [match key.direction with
      | .Ascending => ascii "ascending"
      | .Descending => ascii "descending"] ++
    evidence include_provenance key.origin

def projection (output input : ColumnScope) (p : Projection) : List Text :=
  columnId output p.column ++ scalar include_provenance input p.expression

/-- What a relation writes before its operator. -/
def shape (shape : RelationShape) : List Text :=
  [ascii "relation"] ++ schema include_provenance shape.schema (.fromSchema shape.schema) ++
    facts include_provenance shape.facts (.fromSchema shape.schema) ++
    evidence include_provenance shape.origin

def relation : RelationExpression → List Text
  | .Scan s sh => shape include_provenance sh ++ [ascii "scan"] ++ source include_provenance s
  | .Filter input predicate sh =>
    shape include_provenance sh ++ [ascii "filter"] ++ relation input ++
      scalar include_provenance (.fromSchema input.schema) predicate
  | .Project input projections kind sh =>
    shape include_provenance sh ++
      [ascii "project", match kind with | .Scalar => ascii "scalar" | .Relation => ascii "relation"] ++
      relation input ++
      decimal projections.length ::
        projections.flatMap
          (projection include_provenance (.fromSchema sh.schema) (.fromSchema input.schema))
  | .Join kind left right condition sh =>
    shape include_provenance sh ++ [ascii "join", match kind with | .Inner => ascii "inner"] ++
      relation left ++ relation right ++
      scalar include_provenance (.fromJoin left.schema right.schema) condition
  | .Distinct input sh => shape include_provenance sh ++ [ascii "distinct"] ++ relation input
  | .DistinctOn input columns sh =>
    shape include_provenance sh ++ [ascii "distinct-on"] ++ relation input ++
      decimal columns.length :: columns.flatMap (columnId (.fromSchema input.schema))
  | .Sort input keys sh =>
    shape include_provenance sh ++ [ascii "sort"] ++ relation input ++
      decimal keys.length ::
        keys.flatMap fun key => sortKey include_provenance key (.fromSchema input.schema)

end KeyEncoder

/-! ## Normalization -/

/-- The key of a normal form without its provenance. -/
structure EquivalenceKey where
  text : Text
deriving DecidableEq

/-- The key of a normal form together with the provenance of the query. -/
structure StructuralKey where
  text : Text
deriving DecidableEq

structure NormalizedQuery where
  root : RelationExpression
  equivalence_key : EquivalenceKey
  structural_key : StructuralKey
deriving DecidableEq

inductive NormalizationOutcome where
  | Normalized (query : NormalizedQuery)
  | Indecisive (failure : NormalizationFailure)
deriving DecidableEq

/-- What the normal form of a root means, whatever document it is from. -/
def semanticKey (root : RelationExpression) : Text := written (KeyEncoder.relation false root)

/-- A root with all of its evidence. -/
def provenanceKey (root : RelationExpression) : Text := written (KeyEncoder.relation true root)

def normalizeRelationalQueryWithBudget (query : RelationalQuery) (budget : NormalizationBudget) :
    NormalizationOutcome :=
  match relation query.root ⟨budget.max_steps, 0⟩ with
  | .error failure => .Indecisive failure
  | .ok (root, _) =>
    .Normalized ⟨root, ⟨semanticKey root⟩,
      ⟨written [ascii "normal-form-v1", semanticKey root, ascii "input-provenance-v1",
        provenanceKey query.root]⟩⟩

def normalizeRelationalQuery (query : RelationalQuery) : NormalizationOutcome :=
  normalizeRelationalQueryWithBudget query .default

end analyzer.normalizer
