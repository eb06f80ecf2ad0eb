-- The data model a decode is bound to (`schema/model.rs`): classes with
-- their properties, super types and milestoning, and the association ends
-- that each class navigates.
import PureAnalyzer.Pda

namespace purecard.model

open pda

/-- A text is its UTF-8 bytes. -/
abbrev Text := List UInt8

inductive PrimName where
  | Integer
  | Float
  | Decimal
  | Number
  | String
  | Boolean
  | Date
  | StrictDate
  | DateTime
deriving DecidableEq, Repr

inductive TypeClass where
  | Numeric
  | Str
  | Boolean
  | Temporal
deriving DecidableEq, Repr

def PRIM_NAMES : List (Text × PrimName) :=
  [(lit "Integer", .Integer), (lit "Float", .Float), (lit "Decimal", .Decimal),
    (lit "Number", .Number), (lit "String", .String), (lit "Boolean", .Boolean),
    (lit "Date", .Date), (lit "StrictDate", .StrictDate), (lit "DateTime", .DateTime)]

def PrimName.fromIdent (text : Text) : Option PrimName := PRIM_NAMES.lookup text

def PrimName.typeClass : PrimName → TypeClass
  | .Integer | .Float | .Decimal | .Number => .Numeric
  | .String => .Str
  | .Boolean => .Boolean
  | .Date | .StrictDate | .DateTime => .Temporal

inductive PropType where
  | Primitive (name : PrimName)
  | Class (path : Text)
  | Enum (path : Text)
deriving DecidableEq, Repr

/-- Bounds on how many values a member has. No upper bound is `*`. -/
structure Multiplicity where
  lower : Nat
  upper : Option Nat
deriving DecidableEq, Repr

def Multiplicity.isToOne (m : Multiplicity) : Bool := m.upper = some 1

structure PropertySpec where
  name : Text
  ty : PropType
  mult : Multiplicity
deriving DecidableEq, Repr

structure QualifiedPropertySpec where
  name : Text
  return_type : PropType
  return_mult : Multiplicity
deriving DecidableEq, Repr

inductive Temporal where
  | Business
  | Processing
  | Bitemporal
deriving DecidableEq, Repr

/-- The number of dates that `all(…)` takes on a milestoned class. -/
def Temporal.arity : Temporal → Nat
  | .Business | .Processing => 1
  | .Bitemporal => 2

structure ClassInfo where
  properties : List PropertySpec
  qualified_properties : List QualifiedPropertySpec := []
  super_types : List Text := []
  temporal : Option Temporal := none
deriving DecidableEq, Repr

structure AssociationEnd where
  property_name : Text
  target_class : Text
  mult : Multiplicity
deriving DecidableEq, Repr

/-- A step from a class over an association to the class at the other end. -/
structure NavStep where
  prop : Text
  target : Text
  mult : Multiplicity
deriving DecidableEq, Repr

inductive Resolved where
  | Primitive (prim : PrimName) (mult : Multiplicity)
  | Class (path : Text) (mult : Multiplicity)
  | Enum (path : Text) (mult : Multiplicity)
deriving DecidableEq, Repr

/-- The classes are a map from paths, and `navigable` one from paths to the
steps that leave a class. -/
structure Schema where
  db_path : Text
  classes : List (Text × ClassInfo)
  navigable : List (Text × List NavStep)
deriving DecidableEq, Repr

/-- Adds one step to the steps of a class. -/
def addNavStep (navigable : List (Text × List NavStep)) (cls : Text) (step : NavStep) :
    List (Text × List NavStep) :=
  match navigable with
  | [] => [(cls, [step])]
  | (c, steps) :: rest =>
    if c = cls then (c, steps ++ [step]) :: rest else (c, steps) :: addNavStep rest cls step

/-- The property of each end is navigable from the class at the other end. -/
def buildNavigable (associations : List (AssociationEnd × AssociationEnd)) :
    List (Text × List NavStep) :=
  associations.foldl (fun navigable (e0, e1) =>
    addNavStep
      (addNavStep navigable e0.target_class ⟨e1.property_name, e1.target_class, e1.mult⟩)
      e1.target_class ⟨e0.property_name, e0.target_class, e0.mult⟩) []

namespace Schema

def hasClass (s : Schema) (path : Text) : Bool := (s.classes.lookup path).isSome

/-- The class paths and the path of the store. -/
def sourcePaths (s : Schema) : List Text := s.classes.map Prod.fst ++ [s.db_path]

/-- A class is visited once, so a walk is no deeper than the classes are many. -/
def depthLimit (s : Schema) : Nat := s.classes.length + 1

def resolvedFrom (ty : PropType) (mult : Multiplicity) : Resolved :=
  match ty with
  | .Primitive name => .Primitive name mult
  | .Class path => .Class path mult
  | .Enum path => .Enum path mult

/-- The property of the class itself, stored before qualified. -/
def ownMember (info : ClassInfo) (ident : Text) : Option Resolved :=
  match info.properties.find? fun prop => prop.name = ident with
  | some prop => some (resolvedFrom prop.ty prop.mult)
  | none =>
    (info.qualified_properties.find? fun qprop => qprop.name = ident).map fun qprop =>
      resolvedFrom qprop.return_type qprop.return_mult

def navMember (s : Schema) (cls ident : Text) : Option Resolved :=
  (((s.navigable.lookup cls).getD []).find? fun step => step.prop = ident).map fun step =>
    .Class step.target step.mult

/-- Looks a member up in a class, then in its super types in order, then in
its association ends. The classes already visited are passed along. -/
def resolveIn (s : Schema) (ident : Text) :
    Nat → Text → List Text → Option Resolved × List Text
  | 0, _, visited => (none, visited)
  | depth + 1, cls, visited =>
    if visited.contains cls then (none, visited)
    else match s.classes.lookup cls with
      | none => (s.navMember cls ident, visited ++ [cls])
      | some info =>
        match ownMember info ident with
        | some found => (some found, visited ++ [cls])
        | none =>
          match info.super_types.foldl (fun (acc : Option Resolved × List Text) parent =>
              match acc with
              | (some found, seen) => (some found, seen)
              | (none, seen) => s.resolveIn ident depth parent seen)
              (none, visited ++ [cls]) with
          | (some found, seen) => (some found, seen)
          | (none, seen) => (s.navMember cls ident, seen)

def resolve (s : Schema) (cls ident : Text) : Option Resolved :=
  (s.resolveIn ident s.depthLimit cls []).1

/-- Gathers the member names of a class and of its super types. -/
def collectMembers (s : Schema) : Nat → Text → List Text × List Text → List Text × List Text
  | 0, _, acc => acc
  | depth + 1, cls, (names, visited) =>
    if visited.contains cls then (names, visited)
    else
      let inherited := match s.classes.lookup cls with
        | none => (names, visited ++ [cls])
        | some info =>
          info.super_types.foldl (fun acc parent => s.collectMembers depth parent acc)
            (names ++ info.properties.map PropertySpec.name ++
              info.qualified_properties.map QualifiedPropertySpec.name, visited ++ [cls])
      (inherited.1 ++ ((s.navigable.lookup cls).getD []).map NavStep.prop, inherited.2)

def memberNames (s : Schema) (cls : Text) : List Text :=
  (s.collectMembers s.depthLimit cls ([], [])).1

def temporal (s : Schema) (cls : Text) : Option Temporal :=
  (s.classes.lookup cls).bind ClassInfo.temporal

end Schema

end purecard.model
