-- The normalized model of a set of sources (`pure-analyzer-model`,
-- `types.rs`): the classes with their members, the associations with their
-- ends, and the graph that the resolver reads.
import PureAnalyzer.ModelTypes
import PureAnalyzer.SortedMap
import Mathlib.Data.List.Lex
import Mathlib.Order.Basic

namespace analyzer.diagnostics

open fragments model

/-! ## Findings -/

inductive DiagCode where
  | UnterminatedIsland
  | BadToken
  | MalformedSyntax
  | ParenthesizedTuple
  | IllegalBracketIndex
  | MalformedMilestoningArguments
  | UnknownJoinKind
  | WrongMilestoningArity
  | UnknownProperty
  | UnknownSource
  | ModelMergeConflict
  | DuplicateModelDeclaration
  | UnresolvedModelAssociation
deriving DecidableEq

inductive Severity where
  | Error
  | Warning
  | Info
  | Hint
deriving DecidableEq

/-- A range of one file with a note about it. -/
structure Label where
  file : Nat
  span : TextRange
  note : Text
deriving DecidableEq

structure Diagnostic where
  code : DiagCode
  severity : Severity
  message : Text
  primary : Label
  secondary : List Label
deriving DecidableEq

end analyzer.diagnostics

namespace analyzer.model

open fragments diagnostics

/-! ## The order of names -/

instance : LinearOrder Name :=
  { PartialOrder.lift Name.text fun _ _ => Name.ext_text with
    le_total m n := le_total m.text n.text
    toDecidableLE m n := inferInstanceAs (Decidable (m.text ≤ n.text))
    toDecidableEq := inferInstance
    toDecidableLT m n := inferInstanceAs (Decidable (m.text < n.text)) }

instance : LinearOrder QName :=
  { PartialOrder.lift QName.text fun _ _ => QName.ext_text with
    le_total p q := le_total p.text q.text
    toDecidableLE p q := inferInstanceAs (Decidable (p.text ≤ q.text))
    toDecidableEq := inferInstance
    toDecidableLT p q := inferInstanceAs (Decidable (p.text < q.text)) }

/-! ## Members -/

namespace TextRange

def empty (offset : Nat) : TextRange := ⟨offset, offset, Nat.le_refl offset⟩

end TextRange

/-- How many dates a point navigation to a class of this kind takes. -/
def Temporal.arity : Temporal → Nat
  | .Bitemporal => 2
  | .BusinessTemporal | .ProcessingTemporal => 1

/-- A property of a class, declared there or made from an association end. -/
structure PropInfo where
  name : Name
  target : TypeRef
  multiplicity : Multiplicity
  association : Option QName
  declaration_span : Option TextRange
deriving DecidableEq

namespace PropInfo

def declared (name : Name) (target : TypeRef) (multiplicity : Multiplicity) : PropInfo :=
  { name, target, multiplicity, association := none, declaration_span := none }

def withAssociation (p : PropInfo) (association : QName) : PropInfo :=
  { p with association := some association }

end PropInfo

structure QpInfo where
  name : Name
  target : TypeRef
  multiplicity : Multiplicity
  kind : QpKind
  signature : Option (List TypeRef)
  declaration_span : Option TextRange
deriving DecidableEq

/-! ## Classes and associations -/

structure ClassInfo where
  path : QName
  supertypes : List QName
  temporal : Option Temporal
  properties : SortedMap Name PropInfo
  qualified_properties : SortedMap Name QpInfo
  provenance : Provenance
  source : Nat
  declaration_span : Option TextRange
  coverage_gap : Bool

def ClassInfo.markCoverageGap (c : ClassInfo) : ClassInfo := { c with coverage_gap := true }

structure AssociationEndInfo where
  owner : QName
  property : PropInfo
  declaration_span : Option TextRange
deriving DecidableEq

def AssociationEndInfo.new (owner : QName) (property : PropInfo) : AssociationEndInfo :=
  { owner, property, declaration_span := property.declaration_span }

structure AssocInfo where
  path : QName
  end_a : AssociationEndInfo
  end_b : AssociationEndInfo
  temporal : Option Temporal
  provenance : Provenance
  source : Nat
  declaration_span : Option TextRange
deriving DecidableEq

/-- The two ends, in the order of the source. -/
def AssocInfo.ends (a : AssocInfo) : List AssociationEndInfo := [a.end_a, a.end_b]

structure ModelSourceInfo where
  id : Nat
  label : Text
  provenance : Provenance
deriving DecidableEq

/-! ## The graph -/

/-- What the resolver reads. Every class stands under its own path, and it is
the classes that have an id. -/
structure ModelGraph where
  classes : SortedMap QName ClassInfo
  by_path : SortedMap QName Nat
  paths_by_id : List QName
  associations : List AssocInfo
  sources : List ModelSourceInfo
  diagnostics : List Diagnostic
  keyed : ∀ path cls, classes.get path = some cls → cls.path = path
  indexed : ∀ path, (by_path.get path).isSome = (classes.get path).isSome

namespace ModelGraph

/-- Looks a class up by its path. -/
def cls (g : ModelGraph) (path : QName) : Option ClassInfo := g.classes.get path

def classId (g : ModelGraph) (path : QName) : Option Nat := g.by_path.get path

/-- The associations that the properties come from are in the model. -/
def Linked (g : ModelGraph) : Prop :=
  ∀ path cls name p a, g.cls path = some cls → cls.properties.get name = some p →
    p.association = some a → ∃ item ∈ g.associations, item.path = a

end ModelGraph

end analyzer.model
