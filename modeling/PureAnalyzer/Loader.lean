-- Loading a model from several sources (`pure-analyzer-model`, `loader.rs`):
-- the merge of their elements, the check of the associations against the
-- merged classes, and the properties that the associations add to them.
import PureAnalyzer.ModelGraph
import Mathlib.Algebra.GroupWithZero.Nat
import Mathlib.Data.List.FinRange
import Mathlib.Data.Prod.Lex

namespace analyzer.loader

open fragments model diagnostics

/-- Every count of sources and of classes is a `u32`. -/
def U32_END : Nat := 2 ^ 32

/-! ## Errors -/

inductive ModelErrorKind where
  | InvalidRecord (message : Text)
  | InvalidName (error : NameError)
  | InvalidMultiplicity (error : MultiplicityError)
  | DuplicateElement (path : QName)
  | DuplicateProperty (cls : QName) (property : Name)
  | DuplicateQualifiedProperty (cls : QName) (property : Name)
  | AssociationArity (association : QName) (actual : Nat)
  | MissingAssociationOwner (association : QName) (property : Name) (owner : QName)
  | AssociationPropertyConflict (association owner : QName) (property : Name)
  | MultipleTemporalStereotypes (element : QName)
  | UnknownTemporalStereotype (element : QName) (value : Text)
deriving DecidableEq

inductive ModelError where
  | Json (source_name : Text)
  | PureParse (source_name : Text)
  | InvalidDocument (source_name message : Text)
  | InvalidElement (source_name : Text) (element_index : Nat) (element_kind : Text)
      (kind : ModelErrorKind)
  | InvalidMergedGraph (source_id : Nat) (kind : ModelErrorKind)
  | TooManySources (index : Nat)
  | TooManyClasses (index : Nat)
deriving DecidableEq

/-- A text between backquotes. -/
def quoted (value : Text) : Text := 96 :: value ++ [96]

def NameError.display : NameError → Text
  | .Empty => ascii "name must not be empty"
  | .ControlCharacter value =>
    ascii "name " ++ quoted value ++ ascii " contains a control character"
  | .QualifiedSimpleName value =>
    ascii "simple name " ++ quoted value ++ ascii " must not contain " ++ quoted (ascii "::")
  | .EmptyPathSegment value =>
    ascii "qualified name " ++ quoted value ++ ascii " contains an empty path segment"

def MultiplicityError.display (error : MultiplicityError) : Text :=
  ascii "multiplicity lower bound " ++ decimal error.lower ++ ascii " exceeds upper bound " ++
    decimal error.upper

def ModelErrorKind.display : ModelErrorKind → Text
  | .InvalidRecord message => ascii "record shape is invalid: " ++ message
  | .InvalidName error => NameError.display error
  | .InvalidMultiplicity error => MultiplicityError.display error
  | .DuplicateElement path =>
    ascii "duplicate packageable element " ++ quoted path.text ++ ascii " in one PMCD document"
  | .DuplicateProperty cls property =>
    ascii "class " ++ quoted cls.text ++ ascii " declares property " ++ quoted property.text ++
      ascii " more than once"
  | .DuplicateQualifiedProperty cls property =>
    ascii "class " ++ quoted cls.text ++ ascii " declares qualified property " ++
      quoted property.text ++ ascii " more than once"
  | .AssociationArity association actual =>
    ascii "association " ++ quoted association.text ++ ascii " has " ++ decimal actual ++
      ascii " ends; exactly two are required"
  | .MissingAssociationOwner association property owner =>
    ascii "association " ++ quoted association.text ++ ascii " property " ++
      quoted property.text ++ ascii " is owned by missing class " ++ quoted owner.text
  | .AssociationPropertyConflict association owner property =>
    ascii "association " ++ quoted association.text ++ ascii " contributes " ++
      quoted (owner.text ++ 46 :: property.text) ++ ascii ", which is already declared"
  | .MultipleTemporalStereotypes element =>
    quoted element.text ++ ascii " has multiple temporal stereotypes"
  | .UnknownTemporalStereotype element value =>
    quoted element.text ++ ascii " has unknown temporal stereotype " ++ quoted value

def mergedGraphError (source_id : Nat) (kind : ModelErrorKind) : ModelError :=
  .InvalidMergedGraph source_id kind

/-! ## Elements of the sources -/

structure AssocDraft where
  path : QName
  first : PropInfo
  second : PropInfo
  temporal : Option Temporal
  provenance : Provenance
  source : Nat
  declaration_span : Option TextRange
deriving DecidableEq

inductive FragmentElement where
  | Class (cls : ClassInfo)
  | Association (association : AssocDraft)

namespace FragmentElement

def source : FragmentElement → Nat
  | Class cls => cls.source
  | Association association => association.source

def path : FragmentElement → QName
  | Class cls => cls.path
  | Association association => association.path

/-- The element as a class. -/
def asClass : FragmentElement → Option ClassInfo
  | Class cls => some cls
  | Association _ => none

def asAssociation : FragmentElement → Option AssocDraft
  | Class _ => none
  | Association association => some association

/-- A source declares the properties of a class, and no association end. -/
def Declared : FragmentElement → Prop
  | Class cls => ∀ name p, cls.properties.get name = some p → p.association = none
  | Association _ => True

end FragmentElement

/-- Elements under their paths, as the sources declare them. -/
structure Elements where
  map : SortedMap QName FragmentElement
  keyed : ∀ path element, map.get path = some element → element.path = path
  declared : ∀ path element, map.get path = some element → element.Declared

namespace Elements

def empty : Elements := ⟨SortedMap.empty, fun _ _ h => (nomatch h), fun _ _ h => (nomatch h)⟩

def insert (elements : Elements) (element : FragmentElement) (h : element.Declared) : Elements where
  map := elements.map.insert element.path element
  keyed path found hfound := by
    rw [SortedMap.get_insert] at hfound
    split_ifs at hfound with hpath
    · rw [← Option.some.inj hfound, hpath]
    · exact elements.keyed path found hfound
  declared path found hfound := by
    rw [SortedMap.get_insert] at hfound
    split_ifs at hfound with hpath
    · rw [← Option.some.inj hfound]
      exact h
    · exact elements.declared path found hfound

end Elements

structure ModelFragment where
  elements : Elements
  diagnostics : List Diagnostic

structure ModelMerger where
  elements : Elements
  sources : List ModelSourceInfo
  diagnostics : List Diagnostic

namespace ModelMerger

def new : ModelMerger := ⟨Elements.empty, [], []⟩

/-! ## The merge -/

def mergeDiagnostic (m : ModelMerger) (path : QName) (previous replacement : Nat)
    (replacement_label : Text) : Diagnostic :=
  let previous_label := (m.sources[previous]?.map ModelSourceInfo.label).getD
    (ascii "<unknown source>")
  { code := .ModelMergeConflict
    severity := .Warning
    message := ascii "model element " ++ quoted path.text ++ ascii " from " ++
      quoted replacement_label ++ ascii " replaces the definition from " ++ quoted previous_label
    primary := ⟨replacement, TextRange.empty 0,
      ascii "winning definition from " ++ quoted replacement_label⟩
    secondary := [⟨previous, TextRange.empty 0,
      ascii "replaced definition from " ++ quoted previous_label⟩] }

/-- Puts one element in place, with a warning when it replaces another. -/
def ingestElement (source : Nat) (label : Text) (m : ModelMerger) (element : FragmentElement)
    (h : element.Declared) : ModelMerger :=
  let merged := { m with elements := m.elements.insert element h }
  match m.elements.map.get element.path with
  | none => merged
  | some previous =>
    let diagnostic := m.mergeDiagnostic element.path previous.source source label
    { merged with diagnostics := m.diagnostics ++ [diagnostic] }

def ingestFragment (m : ModelMerger) (source : Nat) (label : Text) (provenance : Provenance)
    (fragment : ModelFragment) : ModelMerger :=
  let m := { m with
    sources := m.sources ++ [⟨source, label, provenance⟩]
    diagnostics := m.diagnostics ++ fragment.diagnostics }
  fragment.elements.map.entries.attach.foldl
    (fun m entry => m.ingestElement source label entry.1.2
      (fragment.elements.declared _ _ (SortedMap.get_of_mem entry.2))) m

end ModelMerger

/-! ## The classes of the merged model -/

/-- Classes under their own paths. -/
structure Classes where
  map : SortedMap QName ClassInfo
  keyed : ∀ path cls, map.get path = some cls → cls.path = path

namespace Classes

def get (classes : Classes) (path : QName) : Option ClassInfo := classes.map.get path

def insert (classes : Classes) (cls : ClassInfo) : Classes where
  map := classes.map.insert cls.path cls
  keyed path found hfound := by
    rw [SortedMap.get_insert] at hfound
    split_ifs at hfound with hpath
    · rw [← Option.some.inj hfound, hpath]
    · exact classes.keyed path found hfound

def markCoverageGaps (classes : Classes) : Classes where
  map := classes.map.mapValues ClassInfo.markCoverageGap
  keyed path found hfound := by
    rw [SortedMap.get_mapValues] at hfound
    obtain ⟨cls, hcls, rfl⟩ := Option.map_eq_some_iff.mp hfound
    exact classes.keyed path cls hcls

end Classes

namespace Elements

def classes (elements : Elements) : Classes where
  map := elements.map.filterMapValues FragmentElement.asClass
  keyed path found hfound := by
    rw [SortedMap.get_filterMapValues] at hfound
    obtain ⟨element, helement, hclass⟩ := Option.bind_eq_some_iff.mp hfound
    cases element with
    | Class cls =>
      obtain rfl := Option.some.inj hclass
      exact elements.keyed path _ helement
    | Association association => cases hclass

def associations (elements : Elements) : List AssocDraft :=
  elements.map.entries.filterMap fun entry => entry.2.asAssociation

end Elements

/-! ## Associations -/

structure PreparedAssociation where
  path : QName
  first_owner : QName
  second_owner : QName
  first : PropInfo
  second : PropInfo
  temporal : Option Temporal
  provenance : Provenance
  source : Nat
  declaration_span : Option TextRange
deriving DecidableEq

namespace PreparedAssociation

/-- Each end belongs to the class that the other one targets. -/
def fromDraft (association : AssocDraft) : PreparedAssociation where
  path := association.path
  first_owner := association.second.target.rawType
  second_owner := association.first.target.rawType
  first := association.first.withAssociation association.path
  second := association.second.withAssociation association.path
  temporal := association.temporal
  provenance := association.provenance
  source := association.source
  declaration_span := association.declaration_span

def ends (a : PreparedAssociation) : List (QName × PropInfo) :=
  [(a.first_owner, a.first), (a.second_owner, a.second)]

def assocInfo (a : PreparedAssociation) : AssocInfo where
  path := a.path
  end_a := .new a.first_owner a.first
  end_b := .new a.second_owner a.second
  temporal := a.temporal
  provenance := a.provenance
  source := a.source
  declaration_span := a.declaration_span

end PreparedAssociation

/-- The place of an end: a class and a name of a property in it. -/
abbrev EndKey := QName ×ₗ Name

def endKey (e : QName × PropInfo) : EndKey := toLex (e.1, e.2.name)

/-! ## The check before the insertion -/

/-- What speaks against an end by the classes alone: its owner is missing, or
has such a property. -/
def endFailure (classes : Classes) (a : PreparedAssociation) (e : QName × PropInfo) :
    Option ModelErrorKind :=
  match classes.get e.1 with
  | none => some (.MissingAssociationOwner a.path e.2.name e.1)
  | some cls =>
    if (cls.properties.get e.2.name).isSome then
      some (.AssociationPropertyConflict a.path e.1 e.2.name)
    else none

/-- The failure of each association of a list, if it has one. -/
abbrev Failures (associations : List PreparedAssociation) :=
  Fin associations.length → Option ModelErrorKind

def getOrInsert {associations : List PreparedAssociation} (failures : Failures associations)
    (index : Fin associations.length) (failure : ModelErrorKind) : Failures associations :=
  Function.update failures index ((failures index).or (some failure))

section

variable (associations : List PreparedAssociation)

def contribute (failures : Failures associations)
    (association_ends : SortedMap EndKey (List (Fin associations.length)))
    (index : Fin associations.length) : SortedMap EndKey (List (Fin associations.length)) :=
  if (failures index).isSome then association_ends
  else
    (associations.get index).ends.foldl
      (fun association_ends e =>
        association_ends.insert (endKey e)
          ((association_ends.get (endKey e)).getD [] ++ [index]))
      association_ends

def isPmcd (index : Fin associations.length) : Bool :=
  (associations.get index).provenance = .Pmcd

/-- Fails the contributors to a place that several ends share, but for a PMCD
one that is alone among them. -/
def failContributors (failures : Failures associations)
    (entry : EndKey × List (Fin associations.length)) : Failures associations :=
  let contributors := entry.2
  if contributors.length < 2 then failures
  else
    let pmcd_contributor_count := contributors.countP (isPmcd associations)
    contributors.foldl
      (fun failures index =>
        if pmcd_contributor_count = 1 ∧ isPmcd associations index then failures
        else
          getOrInsert failures index
            (.AssociationPropertyConflict (associations.get index).path (ofLex entry.1).1
              (ofLex entry.1).2))
      failures

/-- The first failure of each association by the classes alone. -/
def ownerFailures (classes : Classes) : Failures associations := fun index =>
  (associations.get index).ends.findSome? (endFailure classes (associations.get index))

def preflightAssociationFailures (classes : Classes) : Failures associations :=
  let failures := ownerFailures associations classes
  let association_ends :=
    (List.finRange associations.length).foldl (contribute associations failures) SortedMap.empty
  association_ends.entries.foldl (failContributors associations) failures

end

/-! ## The insertion -/

/-- Adds an end to its owner. A property that stood there has been replaced
when the error is found, but an error ends the whole load. -/
def insertAssociationEnd (classes : Classes) (source : Nat) (owner : QName) (property : PropInfo)
    (association : QName) : Except ModelError Classes :=
  match classes.get owner with
  | none =>
    .error (mergedGraphError source (.MissingAssociationOwner association property.name owner))
  | some cls =>
    let replaced := cls.properties.get property.name
    let classes :=
      classes.insert { cls with properties := cls.properties.insert property.name property }
    if replaced.isSome then
      .error (mergedGraphError source
        (.AssociationPropertyConflict association owner property.name))
    else .ok classes

def materializePreparedAssociation (classes : Classes) (a : PreparedAssociation) :
    Except ModelError (Classes × AssocInfo) :=
  match insertAssociationEnd classes a.source a.first_owner a.first a.path with
  | .error error => .error error
  | .ok classes =>
    match insertAssociationEnd classes a.source a.second_owner a.second a.path with
    | .error error => .error error
    | .ok classes => .ok (classes, a.assocInfo)

def pureAssociationMaterializationDiagnostic (a : PreparedAssociation) (failure : ModelErrorKind) :
    Diagnostic where
  code := .UnresolvedModelAssociation
  severity := .Error
  message := ascii "Pure association " ++ quoted a.path.text ++
    ascii " cannot be materialized safely: " ++ failure.display
  primary := ⟨a.source, a.declaration_span.getD (TextRange.empty 0),
    ascii "association not materialized"⟩
  secondary := []

/-- The classes with the ends in them, and what became of the associations. -/
structure AssociationMaterialization where
  classes : Classes
  associations : List AssocInfo
  diagnostics : List Diagnostic
  coverage_gap : Bool

/-- Materializes the associations that did not fail, from the first one on. -/
def materializeEach (m : AssociationMaterialization) :
    List (PreparedAssociation × Option ModelErrorKind) →
      Except ModelError AssociationMaterialization
  | [] => .ok m
  | (a, some failure) :: rest =>
    materializeEach
      { m with
        coverage_gap := true
        diagnostics := m.diagnostics ++ [pureAssociationMaterializationDiagnostic a failure] }
      rest
  | (a, none) :: rest =>
    match materializePreparedAssociation m.classes a with
    | .error error => .error error
    | .ok (classes, info) =>
      materializeEach { m with classes, associations := m.associations ++ [info] } rest

/-- The error of a closed-world association that cannot be materialized. -/
def closedWorldError : PreparedAssociation × Option ModelErrorKind → Option ModelError
  | (a, some failure) =>
    if a.provenance = .Pmcd then some (mergedGraphError a.source failure) else none
  | (_, none) => none

/-- The associations with what the check found for each. -/
def checked (classes : Classes) (prepared : List PreparedAssociation) :
    List (PreparedAssociation × Option ModelErrorKind) :=
  (List.finRange prepared.length).map fun index =>
    (prepared.get index, preflightAssociationFailures prepared classes index)

def materializeAssociations (classes : Classes) (associations : List AssocDraft) :
    Except ModelError AssociationMaterialization :=
  let prepared := associations.map PreparedAssociation.fromDraft
  let zipped := checked classes prepared
  match zipped.findSome? closedWorldError with
  | some error => .error error
  | none => materializeEach ⟨classes, [], [], false⟩ zipped

/-! ## The index of the classes -/

def indexFrom (index : Nat) (by_path : SortedMap QName Nat) (paths_by_id : List QName) :
    List QName → Except ModelError (SortedMap QName Nat × List QName)
  | [] => .ok (by_path, paths_by_id)
  | path :: rest =>
    if index < U32_END then
      indexFrom (index + 1) (by_path.insert path index) (paths_by_id ++ [path]) rest
    else .error (.TooManyClasses index)

def indexClasses (classes : Classes) : Except ModelError (SortedMap QName Nat × List QName) :=
  indexFrom 0 SortedMap.empty [] (classes.map.entries.map Prod.fst)

theorem indexFrom_get {index : Nat} {by_path : SortedMap QName Nat} {paths_by_id : List QName}
    {paths : List QName} {indexed : SortedMap QName Nat × List QName}
    (h : indexFrom index by_path paths_by_id paths = .ok indexed) (path : QName) :
    (indexed.1.get path).isSome = (decide (path ∈ paths) || (by_path.get path).isSome) := by
  induction paths generalizing index by_path paths_by_id with
  | nil =>
    obtain rfl := Except.ok.inj h
    simp
  | cons p rest ih =>
    rw [indexFrom] at h
    split_ifs at h with hindex
    rw [ih h, SortedMap.get_insert]
    by_cases hp : path = p
    · simp [hp]
    · simp [hp]

/-- The classes that have an id are those of the model. -/
theorem indexClasses_get {classes : Classes} {indexed : SortedMap QName Nat × List QName}
    (h : indexClasses classes = .ok indexed) (path : QName) :
    (indexed.1.get path).isSome = (classes.get path).isSome := by
  rw [indexFrom_get h path, SortedMap.get_empty, Option.isSome_none, Bool.or_false,
    Bool.eq_iff_iff, decide_eq_true_iff]
  exact SortedMap.mem_keys

/-! ## The whole load -/

namespace ModelMerger

def finish (m : ModelMerger) : Except ModelError ModelGraph :=
  match materializeAssociations m.elements.classes m.elements.associations with
  | .error error => .error error
  | .ok materialization =>
    let classes :=
      if materialization.coverage_gap then materialization.classes.markCoverageGaps
      else materialization.classes
    match h : indexClasses classes with
    | .error error => .error error
    | .ok indexed =>
      .ok
        { classes := classes.map
          by_path := indexed.1
          paths_by_id := indexed.2
          associations := materialization.associations
          sources := m.sources
          diagnostics := m.diagnostics ++ materialization.diagnostics
          keyed := classes.keyed
          indexed := indexClasses_get h }

end ModelMerger

/-- A source with its text. -/
inductive ModelDocument where
  | Pmcd (label json : Text)
  | Pure (label source : Text)

section

-- The two parsers, which read one source alone.
variable (parseDocument : Text → Text → Nat → Except ModelError Elements)
variable (parsePureDocument : Text → Text → Nat → Except ModelError ModelFragment)

def ingest (m : ModelMerger) (source : Nat) : ModelDocument → Except ModelError ModelMerger
  | .Pmcd label json =>
    match parseDocument label json source with
    | .error error => .error error
    | .ok elements => .ok (m.ingestFragment source label .Pmcd ⟨elements, []⟩)
  | .Pure label text =>
    match parsePureDocument label text source with
    | .error error => .error error
    | .ok fragment => .ok (m.ingestFragment source label .PureFile fragment)

def loadFrom (index : Nat) (m : ModelMerger) : List ModelDocument → Except ModelError ModelGraph
  | [] => m.finish
  | document :: rest =>
    if index < U32_END then
      match ingest parseDocument parsePureDocument m index document with
      | .error error => .error error
      | .ok m => loadFrom (index + 1) m rest
    else .error (.TooManySources index)

def loadModelDocuments (documents : List ModelDocument) : Except ModelError ModelGraph :=
  loadFrom parseDocument parsePureDocument 0 ModelMerger.new documents

end

end analyzer.loader
