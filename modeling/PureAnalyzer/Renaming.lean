-- When two relational expressions are one up to the names of their columns.
-- A column is what stands in its place of the scope that it is read in, so
-- two expressions agree when they agree node by node on everything but the
-- identities. The evidence is left out, or compared by a relation.
import PureAnalyzer.Normalizer

namespace analyzer.sametree

open fragments sortedsets model resolve relational normalizer

/-! ## The evidence of a tree -/

def Knowledge.origins {α : Type} : Knowledge α → List IrOrigin
  | .Proven _ origin => [origin]
  | .Unknown => []

def ScalarFacts.origins (facts : ScalarFacts) : List IrOrigin :=
  facts.origin :: Knowledge.origins facts.totality

def ScalarExpression.origins : ScalarExpression → List IrOrigin
  | .Column _ facts | .Literal _ facts => ScalarFacts.origins facts
  | .Navigation input _ facts | .Not input facts =>
    ScalarFacts.origins facts ++ ScalarExpression.origins input
  | .Equal left right facts =>
    ScalarFacts.origins facts ++ ScalarExpression.origins left ++ ScalarExpression.origins right

def RelationShape.origins (shape : RelationShape) : List IrOrigin :=
  shape.origin :: shape.schema.columns.map Column.origin ++
    Knowledge.origins shape.facts.candidate_keys ++ Knowledge.origins shape.facts.row_semantics

/-- Every origin that an expression rests on, at all of its nodes. -/
def RelationExpression.origins : RelationExpression → List IrOrigin
  | .Scan _ shape => RelationShape.origins shape
  | .Filter input predicate shape =>
    RelationShape.origins shape ++ RelationExpression.origins input ++
      ScalarExpression.origins predicate
  | .Project input projections _ shape =>
    RelationShape.origins shape ++ RelationExpression.origins input ++
      projections.flatMap fun p => ScalarExpression.origins p.expression
  | .Join _ left right condition shape =>
    RelationShape.origins shape ++ RelationExpression.origins left ++
      RelationExpression.origins right ++ ScalarExpression.origins condition
  | .Distinct input shape | .DistinctOn input _ shape =>
    RelationShape.origins shape ++ RelationExpression.origins input
  | .Sort input keys shape =>
    RelationShape.origins shape ++ RelationExpression.origins input ++ keys.map SortKey.origin

/-! ## The same tree -/

/-- How evidence is compared: not at all, or by a relation on origins. -/
abbrev Evidence := Option (IrOrigin → IrOrigin → Prop)

variable (E : Evidence)

def SameEvidence (o o' : IrOrigin) : Prop := ∀ R ∈ E, R o o'

/-- Two columns stand in one place, each of its own scope. -/
def SameColumn (scope scope' : ColumnScope) (column column' : ColumnId) : Prop :=
  ∃ position, scope.position column = some position ∧ scope'.position column' = some position

def SameKnowledge {α : Type} (R : α → α → Prop) : Knowledge α → Knowledge α → Prop
  | .Proven value origin, .Proven value' origin' => R value value' ∧ SameEvidence E origin origin'
  | .Unknown, .Unknown => True
  | _, _ => False

/-- Two keys have the same columns. -/
def SameKey (scope scope' : ColumnScope) (key key' : CandidateKey) : Prop :=
  (∀ c ∈ key.columns, ∃ c' ∈ key'.columns, SameColumn scope scope' c c') ∧
    ∀ c' ∈ key'.columns, ∃ c ∈ key.columns, SameColumn scope scope' c c'

/-- Two sets of keys have the same keys. -/
def SameKeys (scope scope' : ColumnScope) (keys keys' : List CandidateKey) : Prop :=
  (∀ k ∈ keys, ∃ k' ∈ keys', SameKey scope scope' k k') ∧
    ∀ k' ∈ keys', ∃ k ∈ keys, SameKey scope scope' k k'

/-- Two columns of one place say the same. -/
def SameHeader (c c' : Column) : Prop :=
  c.name = c'.name ∧ c.type_ref = c'.type_ref ∧ c.multiplicity = c'.multiplicity ∧
    c.nullability = c'.nullability ∧ SameEvidence E c.origin c'.origin

/-- Two shapes agree: column by column, and in what is proven. -/
structure SameShape (shape shape' : RelationShape) : Prop where
  columns : List.Forall₂ (SameHeader E) shape.schema.columns shape'.schema.columns
  keys : SameKnowledge E (SameKeys (.fromSchema shape.schema) (.fromSchema shape'.schema))
    shape.facts.candidate_keys shape'.facts.candidate_keys
  rows : SameKnowledge E (· = ·) shape.facts.row_semantics shape'.facts.row_semantics
  origin : SameEvidence E shape.origin shape'.origin

/-- The place of a definition counts where evidence does. -/
def SamePlace (p p' : Provenance) (a a' : DefinitionAnchor) : Prop :=
  E.isSome = true → p = p' ∧ a = a'

structure SameClass (c c' : ResolvedClass) : Prop where
  path : c.path = c'.path
  temporal : c.temporal = c'.temporal
  place : SamePlace E c.provenance c'.provenance c.definition c'.definition

structure SameMember (m m' : ResolvedMember) : Prop where
  owner : SameClass E m.owner m'.owner
  name : m.name = m'.name
  target : m.target = m'.target
  multiplicity : m.multiplicity = m'.multiplicity
  kind : m.kind = m'.kind
  signature : m.signature = m'.signature
  arity : m.target_temporal_arity = m'.target_temporal_arity
  place : SamePlace E m.provenance m'.provenance m.definition m'.definition

/-- A receiver is evidence that only the check of its navigation reads: the
path of its class and its multiplicity, which two receivers share, and where
the class is from. -/
def SameReceiver (r r' : LocalValue) : Prop :=
  r.multiplicity = r'.multiplicity ∧
    ∃ c c', r.kind = .Class c ∧ r'.kind = .Class c' ∧ c.path = c'.path

structure SameScalarFacts (f f' : ScalarFacts) : Prop where
  type_ref : f.type_ref = f'.type_ref
  multiplicity : f.multiplicity = f'.multiplicity
  nullability : f.nullability = f'.nullability
  totality : SameKnowledge E (· = ·) f.totality f'.totality
  origin : SameEvidence E f.origin f'.origin

/-- Two scalar expressions agree, each read in its own scope. -/
def SameScalar (scope scope' : ColumnScope) : ScalarExpression → ScalarExpression → Prop
  | .Column id facts, .Column id' facts' =>
    SameScalarFacts E facts facts' ∧ SameColumn scope scope' id id'
  | .Literal literal facts, .Literal literal' facts' =>
    SameScalarFacts E facts facts' ∧ literal = literal'
  | .Navigation input navigation facts, .Navigation input' navigation' facts' =>
    SameScalarFacts E facts facts' ∧ SameScalar scope scope' input input' ∧
      SameReceiver navigation.receiver navigation'.receiver ∧
      SameMember E navigation.member navigation'.member
  | .Equal left right facts, .Equal left' right' facts' =>
    SameScalarFacts E facts facts' ∧ SameScalar scope scope' left left' ∧
      SameScalar scope scope' right right'
  | .Not input facts, .Not input' facts' =>
    SameScalarFacts E facts facts' ∧ SameScalar scope scope' input input'
  | _, _ => False

def SameSource : RelationSource → RelationSource → Prop
  | .Class c, .Class c' => SameClass E c c'

structure SameSortKey (scope scope' : ColumnScope) (key key' : SortKey) : Prop where
  column : SameColumn scope scope' key.column key'.column
  direction : key.direction = key'.direction
  origin : SameEvidence E key.origin key'.origin

/-- Two projections fill one place, from the same input. -/
structure SameProjection (output output' input input' : ColumnScope) (p p' : Projection) :
    Prop where
  column : SameColumn output output' p.column p'.column
  expression : SameScalar E input input' p.expression p'.expression

/-- Two relational expressions are one up to the identities of the columns
of each relation, which are renamed place by place. -/
def SameRelation : RelationExpression → RelationExpression → Prop
  | .Scan source shape, .Scan source' shape' =>
    SameShape E shape shape' ∧ SameSource E source source'
  | .Filter input predicate shape, .Filter input' predicate' shape' =>
    SameShape E shape shape' ∧ SameRelation input input' ∧
      SameScalar E (.fromSchema input.schema) (.fromSchema input'.schema) predicate predicate'
  | .Project input projections kind shape, .Project input' projections' kind' shape' =>
    SameShape E shape shape' ∧ kind = kind' ∧ SameRelation input input' ∧
      List.Forall₂ (SameProjection E (.fromSchema shape.schema) (.fromSchema shape'.schema)
        (.fromSchema input.schema) (.fromSchema input'.schema)) projections projections'
  | .Join kind left right condition shape, .Join kind' left' right' condition' shape' =>
    SameShape E shape shape' ∧ kind = kind' ∧ SameRelation left left' ∧
      SameRelation right right' ∧
      SameScalar E (.fromJoin left.schema right.schema) (.fromJoin left'.schema right'.schema)
        condition condition'
  | .Distinct input shape, .Distinct input' shape' =>
    SameShape E shape shape' ∧ SameRelation input input'
  | .DistinctOn input columns shape, .DistinctOn input' columns' shape' =>
    SameShape E shape shape' ∧ SameRelation input input' ∧
      List.Forall₂ (SameColumn (.fromSchema input.schema) (.fromSchema input'.schema))
        columns columns'
  | .Sort input keys shape, .Sort input' keys' shape' =>
    SameShape E shape shape' ∧ SameRelation input input' ∧
      List.Forall₂ (SameSortKey E (.fromSchema input.schema) (.fromSchema input'.schema))
        keys keys'
  | _, _ => False

/-! ## The classes of a tree -/

/-- The navigations of an expression, in the order of its nodes. -/
def ScalarExpression.navigations : ScalarExpression → List ResolvedNavigation
  | .Column _ _ | .Literal _ _ => []
  | .Navigation input navigation _ => ScalarExpression.navigations input ++ [navigation]
  | .Not input _ => ScalarExpression.navigations input
  | .Equal left right _ =>
    ScalarExpression.navigations left ++ ScalarExpression.navigations right

def RelationExpression.navigations : RelationExpression → List ResolvedNavigation
  | .Scan _ _ => []
  | .Filter input predicate _ =>
    RelationExpression.navigations input ++ ScalarExpression.navigations predicate
  | .Project input projections _ _ =>
    RelationExpression.navigations input ++
      projections.flatMap fun p => ScalarExpression.navigations p.expression
  | .Join _ left right condition _ =>
    RelationExpression.navigations left ++ RelationExpression.navigations right ++
      ScalarExpression.navigations condition
  | .Distinct input _ | .DistinctOn input _ _ | .Sort input _ _ =>
    RelationExpression.navigations input

/-- The classes whose values are read, in the order of the nodes. -/
def RelationExpression.sources : RelationExpression → List ResolvedClass
  | .Scan (.Class c) _ => [c]
  | .Filter input _ _ | .Project input _ _ _ | .Distinct input _ | .DistinctOn input _ _
  | .Sort input _ _ => RelationExpression.sources input
  | .Join _ left right _ _ => RelationExpression.sources left ++ RelationExpression.sources right

/-- Two navigations go from classes, and to members of classes, that are one by `K`. -/
structure SameClasses (K : ResolvedClass → ResolvedClass → Prop) (n n' : ResolvedNavigation) :
    Prop where
  owner : K n.member.owner n'.member.owner
  receiver : ∀ c c', n.receiver.kind = .Class c → n'.receiver.kind = .Class c' → K c c'

/-- Two trees are one with their classes: what is read at each node, where each
navigation starts, and what each member is of. -/
structure SameTree (K : ResolvedClass → ResolvedClass → Prop) (e e' : RelationExpression) :
    Prop where
  relation : SameRelation E e e'
  sources : List.Forall₂ K (RelationExpression.sources e) (RelationExpression.sources e')
  navigations : List.Forall₂ (SameClasses K) (RelationExpression.navigations e)
    (RelationExpression.navigations e')

/-- Two origins name one place of the query and the same definitions of the
model, in any order and however often. -/
def SameOrigin (o o' : IrOrigin) : Prop :=
  o.source = o'.source ∧ ∀ m, m ∈ o.model_origins ↔ m ∈ o'.model_origins

end analyzer.sametree
