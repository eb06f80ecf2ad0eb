-- Lowering a Domain source to elements of the model (`pure-analyzer-model`,
-- `pure.rs` and `stereotypes.rs`): the classes and associations that its tree
-- declares, and a mark on each class that the tree may say too little about.
import PureAnalyzer.DomainTrees
import PureAnalyzer.Loader
import PureAnalyzer.TypeText

namespace analyzer.cst

/-! ## Children -/

def GreenElement.asNode : GreenElement → Option GreenNode
  | .Node node => some node
  | .Token _ => none

def GreenElement.asToken : GreenElement → Option GreenToken
  | .Node _ => none
  | .Token token => some token

def GreenNode.childNodes (node : GreenNode) : List GreenNode :=
  node.children.filterMap GreenElement.asNode

end analyzer.cst

namespace analyzer.pure_source

open fragments model cst diagnostics loader domain

/-! ## Spellings of the profiles (`stereotypes.rs`) -/

def TEMPORAL_PROFILE : Text := ascii "meta::pure::profiles::temporal"
def TEMPORAL_PROFILE_PROTOCOL : Text := ascii "temporal"
def MILESTONING_PROFILE : Text := ascii "meta::pure::profiles::milestoning"
def MILESTONING_PROFILE_PROTOCOL : Text := ascii "milestoning"

def BITEMPORAL : Text := ascii "bitemporal"
def BUSINESS_TEMPORAL : Text := ascii "businesstemporal"
def PROCESSING_TEMPORAL : Text := ascii "processingtemporal"

def GENERATED_MILESTONING_PROPERTY : Text := ascii "generatedmilestoningproperty"
def ALL_VERSIONS_SUFFIX : Text := ascii "AllVersions"
def ALL_VERSIONS_IN_RANGE_SUFFIX : Text := ascii "AllVersionsInRange"

def classifyQualifiedProperty (name : Name) (generated : Bool) : QpKind :=
  if generated && ALL_VERSIONS_IN_RANGE_SUFFIX.isSuffixOf name.text then .AllVersionsInRange
  else if generated && ALL_VERSIONS_SUFFIX.isSuffixOf name.text then .AllVersions
  else if generated then .MilestonedPoint
  else .UserQualified

/-! ## Texts -/

def stripPrefix (front text : Text) : Option Text :=
  if front.isPrefixOf text then some (text.drop front.length) else none

def stripSuffix (back text : Text) : Option Text :=
  if back.isSuffixOf text then some (text.take (text.length - back.length)) else none

def isTrivia : SyntaxKind → Bool
  | .Token .Whitespace | .Token .LineComment | .Token .BlockComment => true
  | _ => false

/-- The text of a node without white space and comments. -/
def compactText (node : GreenNode) : Text :=
  (node.tokens.filter fun token => !isTrivia token.kind).flatMap GreenToken.text

/-! ## Ranges -/

def rangesTouchOrOverlap (left right : TextRange) : Bool :=
  left.start ≤ right.stop && right.start ≤ left.stop

/-- What the parser says against a source. -/
structure LoweringContext where
  gaps : List DomainCoverageGap
  parser_diagnostics : List m3.Diagnostic
  source : Nat

namespace LoweringContext

/-- A diagnostic touches the range. -/
def diagnosed (context : LoweringContext) (range : TextRange) : Bool :=
  context.parser_diagnostics.any fun diagnostic =>
    rangesTouchOrOverlap diagnostic.primary.span range

def nodeHasCoverageGap (context : LoweringContext) (node : GreenNode) : Bool :=
  context.gaps.any (fun gap => rangesTouchOrOverlap gap.span node.textRange) ||
    context.diagnosed node.textRange

/-- A malformed declaration starts where the node does. -/
def malformedAt (context : LoweringContext) (node : GreenNode) : Bool :=
  context.gaps.any fun gap =>
    gap.kind = .MalformedDeclaration && gap.span.start = node.textRange.start

end LoweringContext

/-! ## Parts of a declaration -/

def directNodes (node : GreenNode) (kind : NodeKind) : List GreenNode :=
  node.childNodes.filter (·.kind = .Node kind)

def directName (node : GreenNode) : Option Name :=
  (((node.children.filterMap GreenElement.asToken).map GreenToken.text).find? isSimpleName).bind
    fun text => (Name.new text).toOption

def qnameFromNode (node : GreenNode) : Option QName := qnameFromText (compactText node)

def typeFromNode (node : GreenNode) : Option TypeRef := typetext.parse (compactText node)

def isAsciiDigit (byte : UInt8) : Bool := 48 ≤ byte && byte ≤ 57

/-- A decimal number below `2 ^ 32`. -/
def parseBound (text : Text) : Option Nat :=
  if text.all isAsciiDigit then
    if text = [] then none
    else
      let bound := text.foldl (fun n byte => n * 10 + (byte.toNat - 48)) 0
      if bound < 2 ^ 32 then some bound else none
  else none

/-- The text before the first `..` and the text behind it. -/
def splitRange : Text → Option (Text × Text)
  | a :: b :: rest =>
    if a = 46 ∧ b = 46 then some ([], rest)
    else (splitRange (b :: rest)).map fun parts => (a :: parts.1, parts.2)
  | _ => none

def multiplicityFromBody (body : Text) : Option Multiplicity :=
  if body = [42] then (Multiplicity.new 0 none).toOption
  else
    match splitRange body with
    | some (lower, upper) =>
      if (splitRange upper).isSome then none
      else
        (parseBound lower).bind fun lower =>
          if upper = [42] then (Multiplicity.new lower none).toOption
          else (parseBound upper).bind fun upper => (Multiplicity.new lower (some upper)).toOption
    | none =>
      (parseBound body).bind fun bound => (Multiplicity.new bound (some bound)).toOption

/-- A multiplicity in brackets. -/
def multiplicityFromText (text : Text) : Option Multiplicity :=
  ((stripPrefix [91] text).bind (stripSuffix [93])).bind multiplicityFromBody

def multiplicityFromNode (node : GreenNode) : Option Multiplicity :=
  multiplicityFromText (compactText node)

/-- The path of a declaration, and which of its children says it. -/
def pathAmong (index : Nat) : List GreenElement → Option (QName × Nat)
  | [] => none
  | element :: rest =>
    let path := element.asNode.bind fun child =>
      if child.kind = .Node .DomainQualifiedName then qnameFromNode child else none
    match path with
    | some path => some (path, index)
    | none => pathAmong (index + 1) rest

def declarationPath (node : GreenNode) : Option (QName × Nat) := pathAmong 0 node.children

/-! ## Stereotypes -/

/-- What the stereotypes before a declaration say about it. -/
structure AnnotationFacts where
  temporal : Option Temporal
  temporal_uncertain : Bool
  generated : Bool
deriving DecidableEq

namespace AnnotationFacts

def default : AnnotationFacts := ⟨none, false, false⟩

def noteTemporal (facts : AnnotationFacts) (temporal : Temporal) : AnnotationFacts :=
  if facts.temporal.isSome then { facts with temporal := none, temporal_uncertain := true }
  else if facts.temporal_uncertain then { facts with temporal := none }
  else { facts with temporal := some temporal }

def merge (facts next : AnnotationFacts) : AnnotationFacts :=
  let facts := { facts with generated := facts.generated || next.generated }
  let facts :=
    if next.temporal_uncertain then { facts with temporal := none, temporal_uncertain := true }
    else facts
  match next.temporal with
  | some temporal => facts.noteTemporal temporal
  | none => facts

end AnnotationFacts

/-- Only the form with two angle brackets carries stereotypes. -/
def stereotypeAtoms (text : Text) : List Text :=
  match (stripPrefix [60, 60] text).bind (stripSuffix [62, 62]) with
  | some contents => (contents.splitOn 44).filter fun atom => !atom.isEmpty
  | none => []

/-- The value of an atom of the profile. -/
def stripProfilePrefix (atom protocol qualified : Text) : Option Text :=
  ((stripPrefix protocol atom).or (stripPrefix qualified atom)).bind (stripPrefix [46])

def temporalValue (atom : Text) : Option Text :=
  stripProfilePrefix atom TEMPORAL_PROFILE_PROTOCOL TEMPORAL_PROFILE

def milestoningValue (atom : Text) : Option Text :=
  stripProfilePrefix atom MILESTONING_PROFILE_PROTOCOL MILESTONING_PROFILE

/-- The kind that a value of the temporal profile says. -/
def temporalOf (value : Text) : Option Temporal :=
  if value = BITEMPORAL then some .Bitemporal
  else if value = BUSINESS_TEMPORAL then some .BusinessTemporal
  else if value = PROCESSING_TEMPORAL then some .ProcessingTemporal
  else none

def noteAtom (facts : AnnotationFacts) (atom : Text) : AnnotationFacts :=
  let facts :=
    match temporalValue atom with
    | none => facts
    | some value =>
      match temporalOf value with
      | some temporal => facts.noteTemporal temporal
      | none => { facts with temporal := none, temporal_uncertain := true }
  if milestoningValue atom = some GENERATED_MILESTONING_PROPERTY then
    { facts with generated := true }
  else facts

def annotationFacts (node : GreenNode) : AnnotationFacts :=
  (stereotypeAtoms (compactText node)).foldl noteAtom AnnotationFacts.default

def annotationsBefore (node : GreenNode) (stop : Nat) : AnnotationFacts :=
  (((node.children.take stop).filterMap GreenElement.asNode).filter
    (·.kind = .Node .DomainStereotypeApplications)).foldl
      (fun facts child => facts.merge (annotationFacts child)) AnnotationFacts.default

/-! ## Members -/

def lowerProperty (node : GreenNode) : Option PropInfo :=
  (directName node).bind fun name =>
    ((directNodes node .DomainTypeRef).head?.bind typeFromNode).bind fun target =>
      ((directNodes node .DomainMultiplicity).head?.bind multiplicityFromNode).bind
        fun multiplicity =>
          some { PropInfo.declared name target multiplicity with
            declaration_span := some node.textRange }

def lowerParameter (context : LoweringContext) (parameter : GreenNode) : Option TypeRef :=
  if context.malformedAt parameter then none
  else if context.diagnosed parameter.textRange then none
  else (directNodes parameter .DomainTypeRef).head?.bind typeFromNode

def lowerSignature (context : LoweringContext) (node : GreenNode) : Option (List TypeRef) :=
  (directNodes node .DomainParameterDecl).mapM (lowerParameter context)

/-- Only a property of the user has a signature. -/
def signatureFor (context : LoweringContext) (node : GreenNode) (kind : QpKind) :
    Option (Option (List TypeRef)) :=
  if kind = .UserQualified then (lowerSignature context node).map some else some none

def lowerQualifiedProperty (context : LoweringContext) (annotations : AnnotationFacts)
    (node : GreenNode) : Option QpInfo :=
  (directName node).bind fun name =>
    ((directNodes node .DomainTypeRef).head?.bind typeFromNode).bind fun target =>
      ((directNodes node .DomainMultiplicity).head?.bind multiplicityFromNode).bind
        fun multiplicity =>
          let kind := classifyQualifiedProperty name annotations.generated
          (signatureFor context node kind).map fun signature =>
            { name, target, multiplicity, kind, signature,
              declaration_span := some node.textRange }

inductive MemberDeclarationKind where
  | Property
  | QualifiedProperty
deriving DecidableEq

def MemberDeclarationKind.label : MemberDeclarationKind → Text
  | .Property => ascii "property"
  | .QualifiedProperty => ascii "qualified property"

def duplicateMemberDiagnostic (cls : QName) (name : Name) (kind : MemberDeclarationKind)
    (first duplicate : TextRange) (source : Nat) : Diagnostic where
  code := .DuplicateModelDeclaration
  severity := .Error
  message := ascii "Pure class " ++ quoted cls.text ++ ascii " declares " ++ kind.label ++
    ascii " " ++ quoted name.text ++ ascii " more than once"
  primary := ⟨source, duplicate, ascii "duplicate declaration"⟩
  secondary := [⟨source, first, ascii "first declaration"⟩]

/-- The members of one sort: those that are known, and where each name was declared first. -/
structure Members (ν : Type) where
  lowered : SortedMap Name ν
  declarations : SortedMap Name TextRange

def Members.empty {ν : Type} : Members ν := ⟨SortedMap.empty, SortedMap.empty⟩

/-- Puts in one member, and says whether it is known now. A name that stands twice is
not known at all. -/
def insertMember {ν : Type} (context : LoweringContext) (cls : QName)
    (kind : MemberDeclarationKind) (node : GreenNode) (member : Option ν) (members : Members ν) :
    Members ν × List Diagnostic × Bool :=
  match directName node with
  | none => (members, [], false)
  | some name =>
    match members.declarations.get name with
    | some first =>
      ({ members with lowered := members.lowered.remove name },
        [duplicateMemberDiagnostic cls name kind first node.textRange context.source], false)
    | none =>
      let members :=
        { members with declarations := members.declarations.insert name node.textRange }
      if context.malformedAt node then (members, [], false)
      else if context.diagnosed node.textRange then (members, [], false)
      else
        match member with
        | none => (members, [], false)
        | some member =>
          ({ members with lowered := members.lowered.insert name member }, [],
            (members.lowered.get name).isNone)

structure ClassMemberFacts where
  properties : Members PropInfo
  qualified_properties : Members QpInfo
  diagnostics : List Diagnostic

def insertProperty (context : LoweringContext) (cls : QName) (members : ClassMemberFacts)
    (node : GreenNode) : ClassMemberFacts × Bool :=
  let (properties, diagnostics, inserted) :=
    insertMember context cls .Property node (lowerProperty node) members.properties
  ({ members with properties, diagnostics := members.diagnostics ++ diagnostics }, inserted)

def insertQualifiedProperty (context : LoweringContext) (cls : QName)
    (annotations : AnnotationFacts) (members : ClassMemberFacts) (node : GreenNode) :
    ClassMemberFacts × Bool :=
  let (qualified_properties, diagnostics, inserted) :=
    insertMember context cls .QualifiedProperty node
      (lowerQualifiedProperty context annotations node) members.qualified_properties
  ({ members with qualified_properties, diagnostics := members.diagnostics ++ diagnostics },
    inserted)

/-- The members so far, the annotations that wait for the next one, and whether
some member is not known. -/
structure MemberState where
  members : ClassMemberFacts
  pending_annotations : AnnotationFacts
  coverage_gap : Bool

def memberTurn (context : LoweringContext) (cls : QName) (s : MemberState) (member : GreenNode) :
    MemberState :=
  if member.kind = .Node .DomainOpaqueNode ∨ member.kind = .Node .ErrorNode then
    { s with coverage_gap := true, pending_annotations := .default }
  else if member.kind = .Node .DomainStereotypeApplications then
    { s with pending_annotations := s.pending_annotations.merge (annotationFacts member) }
  else if member.kind = .Node .DomainPropertyDecl then
    let (members, inserted) := insertProperty context cls s.members member
    ⟨members, .default, s.coverage_gap || !inserted⟩
  else if member.kind = .Node .DomainQualifiedPropertyDecl then
    let (members, inserted) :=
      insertQualifiedProperty context cls s.pending_annotations s.members member
    ⟨members, .default, s.coverage_gap || !inserted⟩
  else s

/-- The children behind the name. -/
def memberNodes (node : GreenNode) (name_index : Nat) : List GreenNode :=
  (node.children.drop (name_index + 1)).filterMap GreenElement.asNode

def lowerClassMembers (context : LoweringContext) (cls : QName) (name_index : Nat)
    (node : GreenNode) : MemberState :=
  (memberNodes node name_index).foldl (memberTurn context cls)
    ⟨⟨.empty, .empty, []⟩, .default, false⟩

/-! ### A class has its own properties only -/

theorem lowerProperty_declared {node : GreenNode} {p : PropInfo} (h : lowerProperty node = some p) :
    p.association = none := by
  obtain ⟨name, -, h⟩ := Option.bind_eq_some_iff.mp h
  obtain ⟨target, -, h⟩ := Option.bind_eq_some_iff.mp h
  obtain ⟨multiplicity, -, h⟩ := Option.bind_eq_some_iff.mp h
  rw [← Option.some.inj h]
  rfl

/-- What is known of one member comes from it or was known before. -/
theorem insertMember_get {ν : Type} {context : LoweringContext} {cls : QName}
    {kind : MemberDeclarationKind} {node : GreenNode} {member : Option ν} {members : Members ν}
    {name : Name} {v : ν}
    (h : (insertMember context cls kind node member members).1.lowered.get name = some v) :
    members.lowered.get name = some v ∨ member = some v := by
  unfold insertMember at h
  split at h
  · exact .inl h
  · next declared _ =>
    split at h
    · simp only [SortedMap.get_remove] at h
      split_ifs at h
      exact .inl h
    · split_ifs at h
      · exact .inl h
      · exact .inl h
      · split at h
        · exact .inl h
        · next member =>
          simp only [SortedMap.get_insert] at h
          split_ifs at h
          · exact .inr h
          · exact .inl h

theorem lowerClassMembers_declared (context : LoweringContext) (cls : QName) (name_index : Nat)
    (node : GreenNode) {name : Name} {p : PropInfo}
    (h : (lowerClassMembers context cls name_index node).members.properties.lowered.get name =
      some p) : p.association = none := by
  have hturn (s : MemberState) (member : GreenNode)
      (hs : ∀ name p, s.members.properties.lowered.get name = some p → p.association = none) :
      ∀ name p, (memberTurn context cls s member).members.properties.lowered.get name = some p →
        p.association = none := by
    intro name p hp
    unfold memberTurn at hp
    split_ifs at hp
    · exact hs name p hp
    · exact hs name p hp
    · rcases insertMember_get hp with hp | hp
      · exact hs name p hp
      · exact lowerProperty_declared hp
    · exact hs name p hp
    · exact hs name p hp
  have hfold (members : List GreenNode) (s : MemberState)
      (hs : ∀ name p, s.members.properties.lowered.get name = some p → p.association = none) :
      ∀ name p, (members.foldl (memberTurn context cls) s).members.properties.lowered.get name =
        some p → p.association = none := by
    induction members generalizing s with
    | nil => exact hs
    | cons member members ih => exact ih _ (hturn s member hs)
  refine hfold _ _ (fun name p hp => ?_) name p h
  have hnone : none = some p := hp
  cases hnone

/-! ## Classes -/

/-- A class as a source declares it. -/
abbrev DeclaredClass := { cls : ClassInfo // (FragmentElement.Class cls).Declared }

def DeclaredClass.markCoverageGap (cls : DeclaredClass) : DeclaredClass :=
  ⟨cls.1.markCoverageGap, cls.2⟩

def lowerSupertypes (context : LoweringContext) (node : GreenNode) : List QName × Bool :=
  match (directNodes node .DomainExtendsClause).head? with
  | none => ([], false)
  | some extends_ =>
    if context.nodeHasCoverageGap extends_ then ([], true)
    else
      match (directNodes extends_ .DomainQualifiedName).mapM qnameFromNode with
      | none => ([], true)
      | some supertypes => (supertypes, supertypes.isEmpty)

def lowerClass (context : LoweringContext) (node : GreenNode) :
    Option (DeclaredClass × List Diagnostic) :=
  (declarationPath node).map fun (path, name_index) =>
    let annotations := annotationsBefore node name_index
    let (supertypes, supertype_gap) := lowerSupertypes context node
    let lowered := lowerClassMembers context path name_index node
    let coverage_gap := context.nodeHasCoverageGap node || annotations.temporal_uncertain ||
      supertype_gap || lowered.coverage_gap
    (⟨{ path
        supertypes
        temporal := annotations.temporal
        properties := lowered.members.properties.lowered
        qualified_properties := lowered.members.qualified_properties.lowered
        provenance := .PureFile
        source := context.source
        declaration_span := some node.textRange
        coverage_gap },
      fun _ _ h => lowerClassMembers_declared context path name_index node h⟩,
     lowered.members.diagnostics)

/-! ## Associations -/

/-- An association with both of its ends, or none when it is not certain what they are. -/
def lowerAssociation (context : LoweringContext) (node : GreenNode) : Option AssocDraft :=
  if context.nodeHasCoverageGap node then none
  else
    (declarationPath node).bind fun (path, name_index) =>
      let annotations := annotationsBefore node name_index
      if annotations.temporal_uncertain then none
      else
        match (directNodes node .DomainPropertyDecl).mapM lowerProperty with
        | some [first, second] =>
          some
            { path, first, second
              temporal := annotations.temporal
              provenance := .PureFile
              source := context.source
              declaration_span := some node.textRange }
        | _ => none

/-! ## Sources -/

inductive TopLevelDeclarationKind where
  | Class
  | Association
deriving DecidableEq

structure TopLevelDeclaration where
  path : QName
  kind : TopLevelDeclarationKind
  span : TextRange
deriving DecidableEq

def duplicateTopLevelDiagnostic (first duplicate : TopLevelDeclaration) (source : Nat) :
    Diagnostic where
  code := .DuplicateModelDeclaration
  severity := .Error
  message :=
    match first.kind, duplicate.kind with
    | .Class, .Class =>
      ascii "Pure source declares class " ++ quoted duplicate.path.text ++ ascii " more than once"
    | .Association, .Association =>
      ascii "Pure source declares association " ++ quoted duplicate.path.text ++
        ascii " more than once"
    | _, _ =>
      ascii "Pure source declares " ++ quoted duplicate.path.text ++
        ascii " as both a class and association"
  primary := ⟨source, duplicate.span, ascii "duplicate declaration"⟩
  secondary := [⟨source, first.span, ascii "first declaration"⟩]

/-- The first declaration of each path, the paths that stand twice, and a diagnostic
for each declaration behind the first one. -/
structure Duplicates where
  first_declarations : SortedMap QName TopLevelDeclaration
  duplicates : List QName
  diagnostics : List Diagnostic

def duplicateTurn (source : Nat) (s : Duplicates) (declaration : TopLevelDeclaration) :
    Duplicates :=
  match s.first_declarations.get declaration.path with
  | some first =>
    { s with
      duplicates := s.duplicates ++ [declaration.path]
      diagnostics := s.diagnostics ++ [duplicateTopLevelDiagnostic first declaration source] }
  | none =>
    { s with first_declarations := s.first_declarations.insert declaration.path declaration }

def duplicateTopLevelPaths (declarations : List TopLevelDeclaration) (source : Nat) :
    List QName × List Diagnostic :=
  let s := declarations.foldl (duplicateTurn source) ⟨SortedMap.empty, [], []⟩
  (s.duplicates, s.diagnostics)

mutual

def findDomainFile : GreenNode → Option GreenNode
  | .new kind children range =>
    if kind = .Node .DomainFile then some (.new kind children range)
    else findDomainFileAmong children

def findDomainFileAmong : List GreenElement → Option GreenNode
  | [] => none
  | .Node node :: rest => (findDomainFile node).or (findDomainFileAmong rest)
  | .Token _ :: rest => findDomainFileAmong rest

end

/-- What was found in the file so far. -/
structure DomainFacts where
  source_wide_gap : Bool
  class_entries : List DeclaredClass
  association_entries : List AssocDraft
  top_level_declarations : List TopLevelDeclaration
  lowering_diagnostics : List Diagnostic

/-- The declaration as one of the top level, when it has a path. -/
def topLevelDeclaration (kind : TopLevelDeclarationKind) (declaration : GreenNode) :
    Option TopLevelDeclaration :=
  (declarationPath declaration).map fun (path, _) => ⟨path, kind, declaration.textRange⟩

def declarationTurn (context : LoweringContext) (s : DomainFacts) (declaration : GreenNode) :
    DomainFacts :=
  if declaration.kind = .Node .DomainClassDecl then
    let s :=
      { s with
        top_level_declarations :=
          s.top_level_declarations ++ (topLevelDeclaration .Class declaration).toList }
    match lowerClass context declaration with
    | some (cls, diagnostics) =>
      { s with
        class_entries := s.class_entries ++ [cls]
        lowering_diagnostics := s.lowering_diagnostics ++ diagnostics }
    | none => { s with source_wide_gap := true }
  else if declaration.kind = .Node .DomainAssociationDecl then
    let s :=
      { s with
        top_level_declarations :=
          s.top_level_declarations ++ (topLevelDeclaration .Association declaration).toList }
    match lowerAssociation context declaration with
    | some association => { s with association_entries := s.association_entries ++ [association] }
    | none => { s with source_wide_gap := true }
  else s

/-- Puts in a class that is declared once. -/
def insertClass (duplicate_paths : List QName) (source_wide_gap : Bool) (elements : Elements)
    (cls : DeclaredClass) : Elements :=
  if cls.1.path ∈ duplicate_paths then elements
  else
    let cls := if source_wide_gap then cls.markCoverageGap else cls
    elements.insert (.Class cls.1) cls.2

theorem declared_association (association : AssocDraft) :
    (FragmentElement.Association association).Declared := trivial

def insertAssociation (duplicate_paths : List QName) (elements : Elements)
    (association : AssocDraft) : Elements :=
  if association.path ∈ duplicate_paths then elements
  else elements.insert (.Association association) (declared_association association)

def lowerDomain (context : LoweringContext) (root : GreenNode) : Elements × List Diagnostic :=
  match findDomainFile root with
  | none => (Elements.empty, [])
  | some file =>
    let unsupported := context.gaps.any fun gap => gap.kind = .UnsupportedTopLevel
    let facts := file.childNodes.foldl (declarationTurn context) ⟨unsupported, [], [], [], []⟩
    let (duplicate_paths, duplicate_diagnostics) :=
      duplicateTopLevelPaths facts.top_level_declarations context.source
    let source_wide_gap := facts.source_wide_gap || !duplicate_paths.isEmpty
    let elements :=
      facts.class_entries.foldl (insertClass duplicate_paths source_wide_gap) Elements.empty
    let elements := facts.association_entries.foldl (insertAssociation duplicate_paths) elements
    (elements, facts.lowering_diagnostics ++ duplicate_diagnostics)

/-! ## Documents -/

def codeOfParser : m3.DiagCode → DiagCode
  | .UnterminatedIsland => .UnterminatedIsland
  | .BadToken => .BadToken
  | .MalformedSyntax => .MalformedSyntax

def severityOfParser : m3.Severity → Severity
  | .Error => .Error
  | .Warning => .Warning
  | .Info => .Info
  | .Hint => .Hint

/-- A diagnostic of the parser among those of the model. Its label has no note. -/
def diagnosticOfParser (d : m3.Diagnostic) : Diagnostic :=
  ⟨codeOfParser d.code, severityOfParser d.severity, ascii d.message,
    ⟨d.primary.file, d.primary.span, []⟩, []⟩

def startLe (a b : Diagnostic) : Bool := a.primary.span.start ≤ b.primary.span.start

def contextOf (parsed : DomainParse) (source : Nat) : LoweringContext :=
  ⟨parsed.coverage_gaps, parsed.diagnostics, source⟩

/-- The facts of one parsed source. -/
def fragmentOf (parsed : DomainParse) (source : Nat) : ModelFragment :=
  let (elements, lowering_diagnostics) := lowerDomain (contextOf parsed source) parsed.green
  ⟨elements,
    (parsed.diagnostics.map diagnosticOfParser ++ lowering_diagnostics).mergeSort startLe⟩

/-- The facts of one source. It fails where the parser does. -/
def parsePureDocument (lex : Text → List Token) (source_name text : Text) (source : Nat) :
    Option (Except ModelError ModelFragment) :=
  (parseDomain lex text source).map fun parsed =>
    match parsed with
    | .error _ => .error (.PureParse source_name)
    | .ok parsed => .ok (fragmentOf parsed source)

end analyzer.pure_source
