-- The comparison of two lowered queries (`comparison.rs`): equal normal forms
-- are equivalent, incompatible output schemas are not, and everything else
-- stays open for a reason at a place.
import PureAnalyzer.Normalizer
import Mathlib.Data.Prod.Lex
import Mathlib.Order.WithBot
import Mathlib.Order.Compare

namespace analyzer.comparison

open fragments sortedsets model resolve relational normalizer

inductive OutputSchemaField where
  | Name
  | Type
  | Multiplicity
  | Nullability
deriving DecidableEq, Repr

inductive StructuralDifferenceKind where
  | OutputColumnCount (primary_count secondary_count : Nat)
  | OutputColumn (index : Nat) (field : OutputSchemaField)
deriving DecidableEq, Repr

structure StructuralDifference where
  kind : StructuralDifferenceKind
  primary_origin : IrOrigin
  secondary_origin : IrOrigin
deriving DecidableEq

structure ComparisonIndecision where
  reason : ReasonCode
  origin : IrOrigin
deriving DecidableEq

/-- The verdict on two queries, with what it rests on. -/
inductive ComparisonOutcome where
  | Equivalent
  | NotEquivalent (difference : StructuralDifference)
  | Indecisive (indecision : ComparisonIndecision)
deriving DecidableEq

/-! ## The order of origins -/

/-- What a definition of the model is ordered by: its kind, its provenance,
its place, and its identity as one text. -/
abbrev ModelOriginKey := Text ×ₗ Nat ×ₗ Nat ×ₗ WithBot (Nat ×ₗ Nat) ×ₗ Text

/-- The place of a provenance in its order. -/
def provenanceRank : Provenance → Nat
  | .Pmcd => 0
  | .PureFile => 1

def modelOriginKindName : ModelOriginKind → Text
  | .Class => ascii "class"
  | .Member => ascii "member"

def spanKey : Option TextRange → WithBot (Nat ×ₗ Nat)
  | none => ⊥
  | some span => ((toLex (span.start, span.stop) : Nat ×ₗ Nat) : WithBot (Nat ×ₗ Nat))

/-- The key by which the origins of a query are ordered. -/
def orderKey (origin : ModelOrigin) : ModelOriginKey :=
  toLex (modelOriginKindName origin.kind, toLex (provenanceRank origin.provenance,
    toLex (origin.definition.source, toLex (spanKey origin.definition.span,
      origin.structuralIdentityKey))))

def modelOriginKeys (origins : List ModelOrigin) : List ModelOriginKey :=
  sortDedup (origins.map orderKey)

/-- Orders origins by their places, and then by what they name. -/
def compareOrigins (left right : IrOrigin) : Ordering :=
  (cmp left.source.file right.source.file).then
    ((cmp left.source.range.start right.source.range.start).then
      ((cmp left.source.range.stop right.source.range.stop).then
        (cmp (modelOriginKeys left.model_origins) (modelOriginKeys right.model_origins))))

/-- The side that is first by its reason, and then by its origin. -/
def canonicalIndecision (left right : ComparisonIndecision) : ComparisonIndecision :=
  let order := (cmp left.reason.id right.reason.id).then (compareOrigins left.origin right.origin)
  if order.isLE then left else right

def indecisionFromFailure (failure : NormalizationFailure) : ComparisonIndecision :=
  ⟨failure.reason, failure.origin⟩

def indecisionFromOpaque (outcome : OpaqueOutcome) : ComparisonIndecision :=
  ⟨outcome.reason, outcome.origin⟩

/-- Of two failures the one whose origin comes first is told. -/
def canonicalFailureIndecision (left right : NormalizationFailure) : ComparisonIndecision :=
  canonicalIndecision (indecisionFromFailure left) (indecisionFromFailure right)

def canonicalOpaqueIndecision (left right : OpaqueOutcome) : ComparisonIndecision :=
  canonicalIndecision (indecisionFromOpaque left) (indecisionFromOpaque right)

/-! ## Output schemas -/

/-- Only two facts that exclude each other contradict. -/
def nullabilityContradicts : Nullability → Nullability → Bool
  | .NonNullable, .Nullable | .Nullable, .NonNullable => true
  | _, _ => false

def outputColumnFieldDifference (left right : Column) : Option OutputSchemaField :=
  if left.name ≠ right.name then some .Name
  else if left.type_ref ≠ right.type_ref then some .Type
  else if left.multiplicity ≠ right.multiplicity then some .Multiplicity
  else if nullabilityContradicts left.nullability right.nullability then some .Nullability
  else none

/-- The first columns of one place that differ: the place, the field, and
both columns. -/
def firstColumnDifference (index : Nat) :
    List Column → List Column → Option (Nat × OutputSchemaField × Column × Column)
  | left :: lefts, right :: rights =>
    match outputColumnFieldDifference left right with
    | some field => some (index, field, left, right)
    | none => firstColumnDifference (index + 1) lefts rights
  | _, _ => none

/-- The left normal form comes first. -/
def inOrder (left right : NormalizedQuery) : Bool :=
  left.structural_key.text ≤ right.structural_key.text

def canonicalNormalizedOrigins (left right : NormalizedQuery) (left_origin right_origin : IrOrigin) :
    IrOrigin × IrOrigin :=
  if inOrder left right then (left_origin, right_origin) else (right_origin, left_origin)

def canonicalNormalizedOrigin (left right : NormalizedQuery) : IrOrigin :=
  if inOrder left right then left.root.origin else right.root.origin

def outputColumnCountDifference (left right : NormalizedQuery) (left_count right_count : Nat) :
    StructuralDifference :=
  if inOrder left right then
    ⟨.OutputColumnCount left_count right_count, left.root.origin, right.root.origin⟩
  else ⟨.OutputColumnCount right_count left_count, right.root.origin, left.root.origin⟩

/-- The first difference of the schemas, in number or in a column. -/
def outputSchemaDifference (left right : NormalizedQuery) : Option StructuralDifference :=
  let left_columns := left.root.schema.columns
  let right_columns := right.root.schema.columns
  if left_columns.length ≠ right_columns.length then
    some (outputColumnCountDifference left right left_columns.length right_columns.length)
  else
    (firstColumnDifference 0 left_columns right_columns).map fun (index, field, l, r) =>
      let origins := canonicalNormalizedOrigins left right l.origin r.origin
      ⟨.OutputColumn index field, origins.1, origins.2⟩

/-! ## The comparison -/

/-- Equal keys are equivalent, different schemas are not, and else nothing is decided. -/
def compareNormalized (left right : NormalizedQuery) : ComparisonOutcome :=
  if left.equivalence_key = right.equivalence_key then .Equivalent
  else
    match outputSchemaDifference left right with
    | some difference => .NotEquivalent difference
    | none => .Indecisive ⟨.IndMissingRewrite, canonicalNormalizedOrigin left right⟩

def compareRelationalQueriesWithBudget (left right : RelationalQuery)
    (budget : NormalizationBudget) : ComparisonOutcome :=
  match normalizeRelationalQueryWithBudget left budget,
    normalizeRelationalQueryWithBudget right budget with
  | .Normalized left, .Normalized right => compareNormalized left right
  | .Indecisive left, .Indecisive right => .Indecisive (canonicalFailureIndecision left right)
  | .Indecisive failure, .Normalized _ | .Normalized _, .Indecisive failure =>
    .Indecisive (indecisionFromFailure failure)

def compareLoweredQueriesWithBudget (left right : RelationalOutcome)
    (budget : NormalizationBudget) : ComparisonOutcome :=
  match left, right with
  | .Supported left, .Supported right => compareRelationalQueriesWithBudget left right budget
  | .Opaque left, .Opaque right => .Indecisive (canonicalOpaqueIndecision left right)
  | .Opaque outcome, .Supported _ | .Supported _, .Opaque outcome =>
    .Indecisive (indecisionFromOpaque outcome)

end analyzer.comparison
