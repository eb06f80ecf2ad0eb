-- What a relational expression means: a list of rows, in order. The meaning
-- of the model is left open: any extents, any members, any order of values.
import PureAnalyzer.Renaming

namespace analyzer.denotation

open model resolve relational normalizer sametree

/-- A meaning for the classes, the members and the literals of a model, over
any type of values. It does not depend on where a definition is written. -/
structure Interpretation (V : Type) where
  extent : ResolvedClass → List V
  /-- The value of an object in a column of a scan, by the column's place. -/
  read : ResolvedClass → Nat → Column → V → V
  member : ResolvedMember → V → V
  literal : ScalarLiteral → V
  equal : V → V → V
  negate : V → V
  holds : V → Bool
  order : V → V → Ordering
  holds_true : holds (literal (.Boolean true)) = true
  extent_same {c c' : ResolvedClass} : SameClass none c c' → extent c = extent c'
  read_same {c c' : ResolvedClass} {column column' : Column} : SameClass none c c' →
    SameHeader none column column' → ∀ i, read c i column = read c' i column'
  member_same {m m' : ResolvedMember} : SameMember none m m' → member m = member m'

variable {V : Type} (I : Interpretation V)

/-- A row has one value for each column, in order. -/
abbrev Row (V : Type) := List V

/-- The value of a row in the column with an identity. -/
def cell (columns : List Column) (row : Row V) (id : ColumnId) : V :=
  match columns.findIdx? (·.id = id) with
  | some i => row.getD i (I.literal .Null)
  | none => I.literal .Null

/-- The value of a scalar expression at a row. -/
def value (columns : List Column) (row : Row V) : ScalarExpression → V
  | .Column id _ => cell I columns row id
  | .Literal literal _ => I.literal literal
  | .Navigation input navigation _ => I.member navigation.member (value columns row input)
  | .Equal left right _ => I.equal (value columns row left) (value columns row right)
  | .Not input _ => I.negate (value columns row input)

/-- The rows of an extent: one for each object. -/
def scanRows (cls : ResolvedClass) (columns : List Column) : List (Row V) :=
  (I.extent cls).map fun object => columns.mapIdx fun i column => I.read cls i column object

/-- How two rows stand to each other by some keys, the first key first. -/
def orderRows (columns : List Column) (keys : List SortKey) (row row' : Row V) : Ordering :=
  keys.foldr (fun key rest =>
    let order := I.order (cell I columns row key.column) (cell I columns row' key.column)
    (match key.direction with | .Ascending => order | .Descending => order.swap).then rest) .eq

/-- The rows of a relational expression. Repeated rows keep their first
place, and rows that no key tells apart keep their order. -/
def rows [DecidableEq V] : RelationExpression → List (Row V)
  | .Scan (.Class cls) shape => scanRows I cls shape.schema.columns
  | .Filter input predicate _ =>
    (rows input).filter fun row => I.holds (value I input.schema.columns row predicate)
  | .Project input projections _ _ =>
    (rows input).map fun row =>
      projections.map fun p => value I input.schema.columns row p.expression
  | .Join _ left right condition _ =>
    (rows left).flatMap fun l => ((rows right).map fun r => l ++ r).filter fun row =>
      I.holds (value I (left.schema.columns ++ right.schema.columns) row condition)
  | .Distinct input _ => (rows input).eraseDups
  | .DistinctOn input columns _ =>
    ((rows input).map fun row => columns.map (cell I input.schema.columns row)).eraseDups
  | .Sort input keys _ =>
    (rows input).mergeSort fun row row' => (orderRows I input.schema.columns keys row row').isLE

end analyzer.denotation
