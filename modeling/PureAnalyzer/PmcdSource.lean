-- Lowering a PMCD document to elements of the model (`pure-analyzer-model`,
-- `loader.rs` and `raw.rs`), from the records that the JSON reader makes of it.
-- Every record must be valid, or the document is refused as a whole.
import PureAnalyzer.Attempts
import PureAnalyzer.PureSource

namespace analyzer.pmcd_source

open fragments model loader pure_source attempts

/-! ## Records (`raw.rs`) -/

inductive RawPath where
  | String (path : Text)
  | Pointer (path : Text)

def RawPath.intoString : RawPath → Text
  | .String path | .Pointer path => path

structure RawStereotype where
  profile : Text
  value : Text
deriving DecidableEq

inductive RawTypeName where
  | String (path : Text)
  | Object (full_path : Text)

def RawTypeName.intoString : RawTypeName → Text
  | .String path | .Object path => path

inductive RawGenericType where
  | new (raw_type : RawTypeName) (type_arguments : List RawGenericType)

/-- The bounds are `u32`. -/
structure RawMultiplicity where
  lower_bound : Nat
  upper_bound : Option Nat

structure RawProperty where
  name : Text
  generic_type : RawGenericType
  multiplicity : RawMultiplicity

structure RawParameter where
  generic_type : RawGenericType

structure RawQualifiedProperty where
  name : Text
  return_generic_type : RawGenericType
  return_multiplicity : RawMultiplicity
  stereotypes : List RawStereotype
  parameters : Option (List RawParameter)

structure RawClass where
  package : Text
  name : Text
  super_types : List RawPath
  stereotypes : List RawStereotype
  properties : List RawProperty
  qualified_properties : List RawQualifiedProperty

structure RawAssociation where
  package : Text
  name : Text
  stereotypes : List RawStereotype
  properties : List RawProperty

/-- An element of the document: not an object, without a type, or of a type. The record
of a class or an association may have the wrong shape, with the message of the reader. -/
inductive RawElement where
  | NotObject
  | Untyped
  | Class (raw : Except Text RawClass)
  | Association (raw : Except Text RawAssociation)
  | Other (kind : Text)

/-! ## Names and types -/

abbrev Lowered := Except ModelErrorKind

def nameOf (value : Text) : Lowered Name := (Name.new value).mapError .InvalidName

def qnameOf (value : Text) : Lowered QName := (QName.new value).mapError .InvalidName

def QName.fromPackageAndName (package name : Text) : Lowered QName := do
  let simple ← nameOf name
  if package.isEmpty then qnameOf simple.text else qnameOf (package ++ [58, 58] ++ simple.text)

mutual

def lowerTypeRef : RawGenericType → Lowered TypeRef
  | .new raw_type type_arguments => do
    let raw_type ← qnameOf raw_type.intoString
    let type_arguments ← lowerTypeRefs type_arguments
    return .new raw_type type_arguments

def lowerTypeRefs : List RawGenericType → Lowered (List TypeRef)
  | [] => return []
  | raw :: rest => do
    let type_ref ← lowerTypeRef raw
    let type_refs ← lowerTypeRefs rest
    return type_ref :: type_refs

end

def lowerMultiplicity (raw : RawMultiplicity) : Lowered Multiplicity :=
  (Multiplicity.new raw.lower_bound raw.upper_bound).mapError .InvalidMultiplicity

/-! ## Stereotypes -/

def isTemporalProfile (profile : Text) : Bool :=
  profile = TEMPORAL_PROFILE || profile = TEMPORAL_PROFILE_PROTOCOL

def isMilestoningProfile (profile : Text) : Bool :=
  profile = MILESTONING_PROFILE || profile = MILESTONING_PROFILE_PROTOCOL

def isGeneratedMilestoningProperty (stereotypes : List RawStereotype) : Bool :=
  stereotypes.any fun stereotype =>
    isMilestoningProfile stereotype.profile && stereotype.value = GENERATED_MILESTONING_PROPERTY

/-- One stereotype of the temporal profile, behind those that were read. -/
def temporalTurn (element : QName) (temporal : Option Temporal) (stereotype : RawStereotype) :
    Lowered (Option Temporal) :=
  match temporalOf stereotype.value with
  | none => .error (.UnknownTemporalStereotype element stereotype.value)
  | some current =>
    if temporal.isSome then .error (.MultipleTemporalStereotypes element) else .ok (some current)

def lowerTemporal (element : QName) (stereotypes : List RawStereotype) : Lowered (Option Temporal) :=
  (stereotypes.filter fun stereotype => isTemporalProfile stereotype.profile).foldlM
    (temporalTurn element) none

/-! ## Members -/

def lowerProperty (raw : RawProperty) : Lowered PropInfo := do
  let name ← nameOf raw.name
  let target ← lowerTypeRef raw.generic_type
  let multiplicity ← lowerMultiplicity raw.multiplicity
  return PropInfo.declared name target multiplicity

def lowerSignature (parameters : Option (List RawParameter)) : Lowered (Option (List TypeRef)) :=
  match parameters with
  | none => return none
  | some parameters => do
    let signature ← parameters.mapM fun parameter => lowerTypeRef parameter.generic_type
    return some signature

def lowerQualifiedProperty (raw : RawQualifiedProperty) : Lowered QpInfo := do
  let name ← nameOf raw.name
  let target ← lowerTypeRef raw.return_generic_type
  let multiplicity ← lowerMultiplicity raw.return_multiplicity
  let kind := classifyQualifiedProperty name (isGeneratedMilestoningProperty raw.stereotypes)
  let signature ← if kind = .UserQualified then lowerSignature raw.parameters else .ok none
  return { name, target, multiplicity, kind, signature, declaration_span := none }

/-- Puts in the members of one sort. Their names must be different. -/
def lowerMembers {ρ ν : Type} (lower : ρ → Lowered ν) (name : ν → Name)
    (duplicate : Name → ModelErrorKind) (lowered : SortedMap Name ν) :
    List ρ → Lowered (SortedMap Name ν)
  | [] => .ok lowered
  | raw :: rest => do
    let member ← lower raw
    if (lowered.get (name member)).isSome then .error (duplicate (name member))
    else lowerMembers lower name duplicate (lowered.insert (name member) member) rest

def lowerProperties (cls : QName) (properties : List RawProperty) :
    Lowered (SortedMap Name PropInfo) :=
  lowerMembers lowerProperty PropInfo.name (.DuplicateProperty cls) SortedMap.empty properties

def lowerQualifiedProperties (cls : QName) (properties : List RawQualifiedProperty) :
    Lowered (SortedMap Name QpInfo) :=
  lowerMembers lowerQualifiedProperty QpInfo.name (.DuplicateQualifiedProperty cls) SortedMap.empty
    properties

/-! ## Classes and associations -/

def lowerClass (raw : RawClass) (source : Nat) : Lowered ClassInfo := do
  let path ← QName.fromPackageAndName raw.package raw.name
  let temporal ← lowerTemporal path raw.stereotypes
  let supertypes ← raw.super_types.mapM fun supertype => qnameOf supertype.intoString
  let properties ← lowerProperties path raw.properties
  let qualified_properties ← lowerQualifiedProperties path raw.qualified_properties
  return { path, supertypes, temporal, properties, qualified_properties, provenance := .Pmcd,
           source, declaration_span := none, coverage_gap := false }

/-- The two ends of an association. -/
def twoEnds (association : QName) : List RawProperty → Lowered (RawProperty × RawProperty)
  | [first, second] => .ok (first, second)
  | properties => .error (.AssociationArity association properties.length)

def lowerAssociation (raw : RawAssociation) (source : Nat) : Lowered AssocDraft := do
  let path ← QName.fromPackageAndName raw.package raw.name
  let temporal ← lowerTemporal path raw.stereotypes
  let (first, second) ← twoEnds path raw.properties
  let first ← lowerProperty first
  let second ← lowerProperty second
  return { path, first, second, temporal, provenance := .Pmcd, source, declaration_span := none }

/-! ### A class has its own properties only -/

theorem lowerProperty_declared {raw : RawProperty} {p : PropInfo} (h : lowerProperty raw = .ok p) :
    p.association = none := by
  obtain ⟨name, -, h⟩ := bind_ok h
  obtain ⟨target, -, h⟩ := bind_ok h
  obtain ⟨multiplicity, -, h⟩ := bind_ok h
  rw [← Except.ok.inj h]
  rfl

/-- The members come from the records, or were there before. -/
theorem lowerMembers_get {ρ ν : Type} {lower : ρ → Lowered ν} {name : ν → Name}
    {duplicate : Name → ModelErrorKind} {lowered m : SortedMap Name ν} {records : List ρ}
    (h : lowerMembers lower name duplicate lowered records = .ok m) {n : Name} {v : ν}
    (hget : m.get n = some v) :
    lowered.get n = some v ∨ ∃ raw ∈ records, lower raw = .ok v := by
  induction records generalizing lowered with
  | nil =>
    obtain rfl := Except.ok.inj h
    exact .inl hget
  | cons raw rest ih =>
    obtain ⟨member, hmember, h⟩ := bind_ok h
    split_ifs at h
    rcases ih h with hbefore | ⟨raw', hraw', hv⟩
    · rw [SortedMap.get_insert] at hbefore
      split_ifs at hbefore
      · rw [Option.some.inj hbefore] at hmember
        exact .inr ⟨raw, List.mem_cons_self, hmember⟩
      · exact .inl hbefore
    · exact .inr ⟨raw', List.mem_cons_of_mem _ hraw', hv⟩

theorem lowerClass_declared {raw : RawClass} {source : Nat} {cls : ClassInfo}
    (h : lowerClass raw source = .ok cls) : (FragmentElement.Class cls).Declared := by
  obtain ⟨path, -, h⟩ := bind_ok h
  obtain ⟨temporal, -, h⟩ := bind_ok h
  obtain ⟨supertypes, -, h⟩ := bind_ok h
  obtain ⟨properties, hproperties, h⟩ := bind_ok h
  obtain ⟨qualified_properties, -, h⟩ := bind_ok h
  obtain rfl := Except.ok.inj h
  intro name p hget
  rcases lowerMembers_get hproperties hget with hnone | ⟨raw, -, hp⟩
  · cases hnone
  · exact lowerProperty_declared hp

/-! ## Documents -/

def invalidElement (source_name : Text) (element_index : Nat) (element_kind : Text)
    (kind : ModelErrorKind) : ModelError :=
  .InvalidElement source_name element_index element_kind kind

/-- An element as a source declares it. -/
abbrev DeclaredElement := { element : FragmentElement // element.Declared }

def lowerClassElement (raw : RawClass) (source : Nat) : Lowered DeclaredElement :=
  match h : lowerClass raw source with
  | .error kind => .error kind
  | .ok cls => .ok ⟨.Class cls, lowerClass_declared h⟩

def lowerAssociationElement (raw : RawAssociation) (source : Nat) : Lowered DeclaredElement :=
  (lowerAssociation raw source).map fun association =>
    ⟨.Association association, declared_association association⟩

/-- A record, or its error. -/
def recordOf {ρ : Type} (raw : Except Text ρ) : Lowered ρ := raw.mapError .InvalidRecord

def kindText : RawElement → Text
  | .NotObject | .Untyped => ascii "unknown"
  | .Class _ => ascii "class"
  | .Association _ => ascii "association"
  | .Other kind => kind

/-- What one element says. Only classes and associations say something. -/
def normalized (source : Nat) : RawElement → Lowered (Option DeclaredElement)
  | .NotObject => .error (.InvalidRecord (ascii "element must be an object"))
  | .Untyped => .error (.InvalidRecord (quoted (ascii "_type") ++ ascii " must be a string"))
  | .Class raw => do
    let raw ← recordOf raw
    let element ← lowerClassElement raw source
    return some element
  | .Association raw => do
    let raw ← recordOf raw
    let element ← lowerAssociationElement raw source
    return some element
  | .Other _ => return none

/-- Puts in one element. Its path must be new. -/
def insertElement (elements : Elements) (element : DeclaredElement) : Lowered Elements :=
  if (elements.map.get element.1.path).isSome then .error (.DuplicateElement element.1.path)
  else .ok (elements.insert element.1 element.2)

def elementTurn (source : Nat) (elements : Elements) (raw : RawElement) : Lowered Elements := do
  match ← normalized source raw with
  | none => return elements
  | some element => insertElement elements element

def lowerElements (source_name : Text) (source index : Nat) (elements : Elements) :
    List RawElement → Except ModelError Elements
  | [] => .ok elements
  | raw :: rest =>
    match elementTurn source elements raw with
    | .error kind => .error (invalidElement source_name index (kindText raw) kind)
    | .ok elements => lowerElements source_name source (index + 1) elements rest

/-- A document as the JSON reader sees it: the `_type` when there is one, as a text when it
is a string, and the `elements` when they are an array. -/
inductive RawDocument where
  | NotJson
  | NotObject
  | Object (document_type : Option (Option Text)) (elements : Option (List RawElement))

def DOCUMENT_TYPE : Text := ascii "data"

def validateDocumentType (source_name : Text) : Option (Option Text) → Except ModelError Unit
  | none => .ok ()
  | some value =>
    if value = some DOCUMENT_TYPE then .ok ()
    else
      .error (.InvalidDocument source_name
        (quoted (ascii "_type") ++ ascii ", when present, must be " ++ quoted DOCUMENT_TYPE))

def parseDocument (read : Text → RawDocument) (source_name json : Text) (source : Nat) :
    Except ModelError Elements :=
  match read json with
  | .NotJson => .error (.Json source_name)
  | .NotObject => .error (.InvalidDocument source_name (ascii "top level must be an object"))
  | .Object document_type elements =>
    match validateDocumentType source_name document_type with
    | .error error => .error error
    | .ok () =>
      match elements with
      | none =>
        .error (.InvalidDocument source_name
          (quoted (ascii "elements") ++ ascii " must be an array"))
      | some elements => lowerElements source_name source 0 Elements.empty elements

end analyzer.pmcd_source
