-- From the documents of a load to the classes of its model: the last document that
-- declares a path decides, and a class without a gap is just what that document
-- says of it, with the ends of the associations.
import PureAnalyzer.LoadRuns
import PureAnalyzer.PmcdLaws
import PureAnalyzer.PureReadings
import Mathlib.Data.List.ReduceOption

namespace analyzer.loader

open fragments model diagnostics cst domain attempts pure_source

/-! ## The loader -/

/-- The Pure half of the loader, for a lexer. -/
def readPure (lex : Text → List Token) (label text : Text) (source : Nat) :
    Except ModelError ModelFragment :=
  (parsePureDocument lex label text source).getD (.error (.PureParse label))

section

-- The JSON reader and the lexer.
variable (read : Text → pmcd_source.RawDocument) (lex : Text → List Token)

/-- Reads every document alone. -/
def readDocuments (documents : List ModelDocument) : Except ModelError (List ReadSource) :=
  readFrom (pmcd_source.parseDocument read) (readPure lex) 0 documents

def load (documents : List ModelDocument) : Except ModelError ModelGraph :=
  loadModelDocuments (pmcd_source.parseDocument read) (readPure lex) documents

end

/-! ## Elements carry their source -/

/-- Every element is of one source. -/
def OfSource (source : Nat) (elements : Elements) : Prop :=
  ∀ path element, elements.map.get path = some element → element.source = source

theorem OfSource.insert {source : Nat} {elements : Elements} (h : OfSource source elements)
    {element : FragmentElement} (hdeclared : element.Declared) (hsource : element.source = source) :
    OfSource source (elements.insert element hdeclared) := by
  intro path found hfound
  rw [show (elements.insert element hdeclared).map = elements.map.insert element.path element from
    rfl, SortedMap.get_insert] at hfound
  split_ifs at hfound
  · rw [← Option.some.inj hfound]
    exact hsource
  · exact h path found hfound

theorem lowerClass_source {context : LoweringContext} {node : GreenNode} {cls : DeclaredClass}
    {told : List Diagnostic} (h : lowerClass context node = some (cls, told)) :
    cls.1.source = context.source := by
  obtain ⟨⟨path, name_index⟩, -, hcls⟩ := Option.map_eq_some_iff.mp h
  obtain ⟨rfl, -⟩ := Prod.mk.inj hcls
  rfl

theorem lowerAssociation_source {context : LoweringContext} {node : GreenNode}
    {association : AssocDraft} (h : lowerAssociation context node = some association) :
    association.source = context.source := by
  unfold lowerAssociation at h
  split_ifs at h
  obtain ⟨⟨path, name_index⟩, -, h⟩ := Option.bind_eq_some_iff.mp h
  dsimp only at h
  split_ifs at h
  split at h
  · obtain rfl := Option.some.inj h
    rfl
  · cases h

theorem insertClasses_source {source : Nat} {duplicate_paths : List QName} {gap : Bool}
    {classes : List DeclaredClass} {elements : Elements} (h : OfSource source elements)
    (hclasses : ∀ cls ∈ classes, cls.1.source = source) :
    OfSource source (classes.foldl (insertClass duplicate_paths gap) elements) := by
  induction classes generalizing elements with
  | nil => exact h
  | cons cls classes ih =>
    obtain ⟨hcls, hclasses⟩ := List.forall_mem_cons.mp hclasses
    refine ih ?_ hclasses
    unfold insertClass
    by_cases hduplicate : cls.1.path ∈ duplicate_paths
    · rw [if_pos hduplicate]
      exact h
    · rw [if_neg hduplicate]
      refine h.insert _ ?_
      cases gap with
      | false => exact hcls
      | true => exact hcls

theorem insertAssociations_source {source : Nat} {duplicate_paths : List QName}
    {associations : List AssocDraft} {elements : Elements} (h : OfSource source elements)
    (hassociations : ∀ association ∈ associations, association.source = source) :
    OfSource source (associations.foldl (insertAssociation duplicate_paths) elements) := by
  induction associations generalizing elements with
  | nil => exact h
  | cons association associations ih =>
    obtain ⟨hassociation, hassociations⟩ := List.forall_mem_cons.mp hassociations
    refine ih ?_ hassociations
    unfold insertAssociation
    split_ifs
    · exact h
    · exact h.insert _ hassociation

theorem lowerDomain_source (context : LoweringContext) (root : GreenNode) :
    OfSource context.source (lowerDomain context root).1 := by
  have hempty : OfSource context.source Elements.empty := fun path element h => by cases h
  unfold lowerDomain
  split
  · exact hempty
  · next file _ =>
    obtain ⟨hclasses, hassociations, -⟩ := declarationTurns_eq context file.childNodes
      ⟨context.gaps.any fun gap => gap.kind = .UnsupportedTopLevel, [], [], [], []⟩
    refine insertAssociations_source (insertClasses_source hempty ?_) ?_
    · rw [hclasses]
      intro cls hcls
      obtain ⟨node, -, -, told, hlowered⟩ := mem_classesOf.mp hcls
      exact lowerClass_source hlowered
    · rw [hassociations]
      intro association hassociation
      obtain ⟨node, -, hlowered⟩ := List.mem_filterMap.mp hassociation
      exact lowerAssociation_source hlowered

theorem readPure_ok {lex : Text → List Token} {label text : Text} {source : Nat}
    {fragment : ModelFragment} (h : readPure lex label text source = .ok fragment) :
    parsePureDocument lex label text source = some (.ok fragment) := by
  unfold readPure at h
  cases hrun : parsePureDocument lex label text source with
  | none =>
    rw [hrun] at h
    cases h
  | some result =>
    rw [hrun] at h
    exact congrArg some h

theorem pure_source_stamped {lex : Text → List Token} {label text : Text} {source : Nat}
    {fragment : ModelFragment} (h : parsePureDocument lex label text source = some (.ok fragment)) :
    OfSource source fragment.elements := by
  obtain ⟨parsed, -, hfragment⟩ := Option.map_eq_some_iff.mp h
  cases parsed with
  | error error => cases hfragment
  | ok parsed =>
    obtain rfl := Except.ok.inj hfragment
    exact lowerDomain_source (contextOf parsed source) parsed.green

theorem says_source {source : Nat} {raw : pmcd_source.RawElement} {element : FragmentElement}
    (h : pmcd_source.Says source raw (some element)) : element.source = source := by
  cases h with
  | cls h => exact h.source
  | association h => exact h.source

/-! ## The sources of a load -/

section

variable {read : Text → pmcd_source.RawDocument} {lex : Text → List Token}

theorem says_of_mem {source : Nat} {raws : List pmcd_source.RawElement}
    {found : List (Option FragmentElement)}
    (h : List.Forall₂ (pmcd_source.Says source) raws found) {element : Option FragmentElement}
    (hmem : element ∈ found) : ∃ raw ∈ raws, pmcd_source.Says source raw element := by
  induction h with
  | nil => cases hmem
  | cons hsaid _ ih =>
    rcases List.mem_cons.mp hmem with rfl | hmem
    · exact ⟨_, List.mem_cons_self, hsaid⟩
    · obtain ⟨raw, hraw, hsaid⟩ := ih hmem
      exact ⟨raw, List.mem_cons_of_mem _ hraw, hsaid⟩

/-- Every element of a read document is said by one of its records. -/
theorem said_of_get {label json : Text} {source : Nat} {elements : Elements}
    (h : pmcd_source.parseDocument read label json source = .ok elements) {path : QName}
    {element : FragmentElement} (hget : elements.map.get path = some element) :
    ∃ raws, pmcd_source.HasElements (read json) raws ∧
      ∃ raw ∈ raws, pmcd_source.Says source raw (some element) := by
  obtain ⟨raws, found, hraws, hfound, hholds⟩ := pmcd_source.parseDocument_ok_iff.mp h
  obtain ⟨element', hmem, heq⟩ := List.mem_map.mp ((hholds.same path element).mp hget)
  obtain ⟨-, rfl⟩ := Prod.mk.inj heq
  exact ⟨raws, hraws, says_of_mem hfound (List.reduceOption_mem_iff.mp hmem)⟩

theorem readDocument_stamped {index : Nat} {document : ModelDocument} {s : ReadSource}
    (h : readDocument (pmcd_source.parseDocument read) (readPure lex) index document = .ok s) :
    s.Stamped := by
  intro path element helement
  rw [readDocument_id h]
  cases document with
  | Pmcd label json =>
    obtain ⟨elements, helements, rfl⟩ := map_ok h
    obtain ⟨raws, -, raw, -, hsaid⟩ := said_of_get helements helement
    exact says_source hsaid
  | Pure label text =>
    obtain ⟨fragment, hfragment, rfl⟩ := map_ok h
    exact pure_source_stamped (readPure_ok hfragment) path element helement

theorem numbered_of_read {documents : List ModelDocument} {sources : List ReadSource}
    (h : readDocuments read lex documents = .ok sources) : Numbered sources := by
  refine ⟨readFrom_ids h, fun s hs => ?_⟩
  obtain ⟨i, hi, rfl⟩ := List.getElem_of_mem hs
  obtain ⟨document, -, hread⟩ := readFrom_at h (List.getElem?_eq_getElem hi)
  exact readDocument_stamped hread

/-- A load reads every document alone, and its model is what the last declaration of
each path says. -/
theorem loaded_of_load {documents : List ModelDocument} {graph : ModelGraph}
    (h : load read lex documents = .ok graph) :
    ∃ sources, readDocuments read lex documents = .ok sources ∧ Loaded sources graph := by
  unfold load loadModelDocuments at h
  rw [loadFrom_eq] at h
  obtain ⟨sources, hsources, hfinish⟩ := bind_ok h
  exact ⟨sources, hsources,
    loaded_of_finish (merged_ingestAll (numbered_of_read hsources)) hfinish⟩

/-- Whatever is loaded, in whatever order: the sources are those that the documents are
read as, each alone. Of several declarations of one path the last one counts, and a
warning names each one that was replaced. A class of the model is as its last source
declares it, and beside the properties declared there it has only the ends of
associations, each of which counts for its path too. An association that counts is in the
model, or an error tells of it and every class is marked. -/
theorem the_last_declaration_counts (read : Text → pmcd_source.RawDocument)
    (lex : Text → List Token) (documents : List ModelDocument) (graph : ModelGraph)
    (h : load read lex documents = .ok graph) :
    ∃ sources, readDocuments read lex documents = .ok sources ∧ Loaded sources graph :=
  loaded_of_load h

/-! ## Complete classes -/

/-- The tokens of a Pure document cover it, and it is not too long. -/
def Lexed (lex : Text → List Token) : ModelDocument → Prop
  | .Pmcd _ _ => True
  | .Pure _ text => m3.Tiles text 0 (lex text) ∧ text.length < 2 ^ 32

/-- A document declares the class, and says all of it. -/
inductive Origin (read : Text → pmcd_source.RawDocument) (lex : Text → List Token) (source : Nat)
    (cls : ClassInfo) : ModelDocument → Prop where
  | pmcd {label json : Text} {raws : List pmcd_source.RawElement} {raw : pmcd_source.RawClass}
      (document : pmcd_source.HasElements (read json) raws) (record : .Class (.ok raw) ∈ raws)
      (reads : pmcd_source.ReadsClass raw source cls) : Origin read lex source cls (.Pmcd label json)
  | pure {label text : Text} {parsed : DomainParse} {file decl : GreenNode} {name_index : Nat}
      (parses : parseDomain lex text source = some (.ok parsed))
      (root : findDomainFile parsed.green = some file)
      (understood : Understood (contextOf parsed source) file)
      (declared : decl ∈ directNodes file .DomainClassDecl) (unbroken : Unbroken decl)
      (reads : Reads (contextOf parsed source) decl name_index cls) :
      Origin read lex source cls (.Pure label text)

/-- What a document that was read says of a complete class. -/
theorem origin_of_read {index : Nat} {document : ModelDocument} {s : ReadSource}
    (hlexed : Lexed lex document)
    (h : readDocument (pmcd_source.parseDocument read) (readPure lex) index document = .ok s)
    {path : QName} {cls : ClassInfo} (hget : s.get path = some (.Class cls))
    (hcomplete : cls.coverage_gap = false) : Origin read lex index cls document := by
  cases document with
  | Pmcd label json =>
    obtain ⟨elements, helements, rfl⟩ := map_ok h
    obtain ⟨raws, hraws, raw, hraw, hsaid⟩ := said_of_get helements hget
    cases hsaid with
    | cls hreads => exact .pmcd hraws hraw hreads
  | Pure label text =>
    obtain ⟨fragment, hfragment, rfl⟩ := map_ok h
    obtain ⟨parsed, found, file, hparses, hdocument, hroot, hreading⟩ :=
      reading_of_source lex label text index hlexed.1 hlexed.2
    obtain rfl : found = fragment :=
      Except.ok.inj (Option.some.inj (hdocument.symm.trans (readPure_ok hfragment)))
    obtain ⟨hunderstood, decl, hdecl, -, name_index, hreads⟩ :=
      (hreading.complete path cls).mp ⟨hget, hcomplete⟩
    exact .pure hparses hroot hunderstood hdecl
      (hreading.unbroken decl (List.mem_of_mem_filter hdecl) hreads.untouched) hreads

/-- The class is what one document says of it, with the ends of the associations, and no
later document declares its path. -/
structure Traced (read : Text → pmcd_source.RawDocument) (lex : Text → List Token)
    (documents : List ModelDocument) (sources : List ReadSource) (graph : ModelGraph)
    (path : QName) (cls : ClassInfo) : Prop where
  origin : ∃ document declared, documents[cls.source]? = some document ∧
    Origin read lex cls.source declared document ∧ declared.path = path ∧
    outline cls = outline declared ∧
    ∀ name p, cls.properties.get name = some p ↔
      declared.properties.get name = some p ∨
        ∃ x ∈ directedEnds graph.associations,
          x.2.owner = path ∧ x.2.property.name = name ∧ x.2.property = p
  last : ∀ later t, cls.source < later → sources[later]? = some t → t.get path = none

theorem classOf_some {sources : List ReadSource} {path : QName} {cls : ClassInfo}
    (h : classOf sources path = some cls) :
    ∃ s, lastOf sources path = some s ∧ s.get path = some (.Class cls) := by
  obtain ⟨element, hdeclared, hclass⟩ := Option.bind_eq_some_iff.mp h
  obtain ⟨s, hlast, hget⟩ := Option.bind_eq_some_iff.mp hdeclared
  cases element with
  | Class found =>
    obtain rfl := Option.some.inj hclass
    exact ⟨s, hlast, hget⟩
  | Association association => cases hclass

theorem classOf_of_last {sources : List ReadSource} {path : QName} {s : ReadSource}
    {found : ClassInfo} (hlast : lastOf sources path = some s)
    (hget : s.get path = some (.Class found)) : classOf sources path = some found := by
  unfold classOf declaredBy
  rw [hlast, Option.bind_some, hget]
  rfl

/-- A complete class comes from the last source that declares its path. -/
theorem source_of_loaded {documents : List ModelDocument} {sources : List ReadSource}
    {graph : ModelGraph} (hlexed : ∀ document ∈ documents, Lexed lex document)
    (hread : readDocuments read lex documents = .ok sources) (hloaded : Loaded sources graph)
    {path : QName} {cls : ClassInfo} (hcls : graph.classes.get path = some cls)
    (hgap : cls.coverage_gap = false) : ∃ s document found, lastOf sources path = some s ∧
      documents[s.info.id]? = some document ∧ s.get path = some (.Class found) ∧
      Origin read lex s.info.id found document ∧ outline cls = outline found ∧
      cls.source = s.info.id := by
  obtain ⟨⟨found, hfound, hcomplete⟩, -⟩ := (hloaded.complete path cls hcls).mp hgap
  obtain ⟨s, hlast, hget⟩ := classOf_some hfound
  have hnumbered := numbered_of_read hread
  have hmem := (lastOf_some hlast).1
  have houtline : outline cls = outline found := by
    have h := hloaded.outlined path
    rw [hcls, hfound] at h
    exact Option.some.inj h
  have hsource : cls.source = s.info.id :=
    (congrArg ClassInfo.source houtline).trans (hnumbered.stamped s hmem path _ hget)
  obtain ⟨document, hdocument, hreads⟩ := readFrom_at hread (numbered_at hnumbered hmem)
  rw [Nat.zero_add] at hreads
  exact ⟨s, document, found, hlast, hdocument, hget,
    origin_of_read (hlexed _ (List.mem_of_getElem? hdocument)) hreads hget hcomplete, houtline,
    hsource⟩

/-- A class has the properties that its declaration has, and the ends of the
associations. -/
theorem properties_of_loaded {sources : List ReadSource} {graph : ModelGraph}
    (hloaded : Loaded sources graph) {path : QName} {cls found : ClassInfo}
    (hcls : graph.classes.get path = some cls) (hfound : classOf sources path = some found)
    (name : Name) (p : PropInfo) : cls.properties.get name = some p ↔
      found.properties.get name = some p ∨
        ∃ x ∈ directedEnds graph.associations,
          x.2.owner = path ∧ x.2.property.name = name ∧ x.2.property = p := by
  have hat : propertyAt graph.classes (toLex (path, name)) = cls.properties.get name := by
    show (graph.classes.get path).bind _ = _
    rw [hcls]
    rfl
  have hproperties := hloaded.properties (toLex (path, name)) p
  rw [hat] at hproperties
  refine hproperties.trans (or_congr ⟨?_, fun hp => ⟨found, hfound, hp⟩⟩ ⟨?_, ?_⟩)
  · rintro ⟨other, hother, hp⟩
    obtain rfl := Option.some.inj (hfound.symm.trans hother)
    exact hp
  · rintro ⟨x, hx, hplace, hp⟩
    obtain ⟨howner, hname⟩ := Prod.mk.inj (congrArg ofLex hplace)
    exact ⟨x, hx, howner, hname, hp⟩
  · rintro ⟨x, hx, rfl, rfl, hp⟩
    exact ⟨x, hx, rfl, hp⟩

theorem traced_of_loaded {documents : List ModelDocument} {sources : List ReadSource}
    {graph : ModelGraph} (hlexed : ∀ document ∈ documents, Lexed lex document)
    (hread : readDocuments read lex documents = .ok sources) (hloaded : Loaded sources graph)
    {path : QName} {cls : ClassInfo} (hcls : graph.classes.get path = some cls)
    (hgap : cls.coverage_gap = false) : Traced read lex documents sources graph path cls := by
  obtain ⟨s, document, found, hlast, hdocument, hget, horigin, houtline, hsource⟩ :=
    source_of_loaded hlexed hread hloaded hcls hgap
  have hnumbered := numbered_of_read hread
  refine ⟨⟨document, found, ?_, ?_, s.fragment.elements.keyed path _ hget, houtline,
    properties_of_loaded hloaded hcls (classOf_of_last hlast hget)⟩, fun later t hlater ht => ?_⟩
  · rw [hsource]
    exact hdocument
  · rw [hsource]
    exact horigin
  · rw [hsource] at hlater
    exact lastOf_later hnumbered hlast hlater ht

end

/-- A class of a loaded model that has no gap is what one document says of it: a valid
PMCD record of its path, or a declaration in a Pure file that is understood as a whole,
read without an error. It has the properties declared there and the ends of the
associations of the model, and no others, and no later document declares its path. -/
theorem complete_classes_come_from_documents (read : Text → pmcd_source.RawDocument)
    (lex : Text → List Token) (documents : List ModelDocument)
    (hlexed : ∀ document ∈ documents, Lexed lex document) (graph : ModelGraph)
    (h : load read lex documents = .ok graph) :
    ∃ sources, readDocuments read lex documents = .ok sources ∧
      ∀ path cls, graph.classes.get path = some cls → cls.coverage_gap = false →
        Traced read lex documents sources graph path cls := by
  obtain ⟨sources, hsources, hloaded⟩ := loaded_of_load h
  exact ⟨sources, hsources, fun path cls hcls hgap =>
    traced_of_loaded hlexed hsources hloaded hcls hgap⟩

/-! A record and a Pure source that declare one class. -/

def sampleRecord : pmcd_source.RawClass where
  package := ascii "m"
  name := ascii "A"
  super_types := []
  stereotypes := []
  properties := [⟨ascii "a", .new (.String (ascii "String")) [], ⟨1, some 1⟩⟩]
  qualified_properties := []

def sampleJson : Text :=
  ascii ("\x7b\"_type\":\"data\",\"elements\":[\x7b\"_type\":\"class\",\"package\":\"m\"," ++
    "\"name\":\"A\",\"superTypes\":[],\"stereotypes\":[],\"properties\":[\x7b\"name\":\"a\"," ++
    "\"genericType\":\x7b\"rawType\":\"String\",\"typeArguments\":[]\x7d," ++
    "\"multiplicity\":\x7b\"lowerBound\":1,\"upperBound\":1\x7d\x7d],\"qualifiedProperties\":[]\x7d]\x7d")

/-- What the reader of JSON makes of it. -/
def readSample (text : Text) : pmcd_source.RawDocument :=
  if text = sampleJson then .Object (some (some (ascii "data"))) (some [.Class (.ok sampleRecord)])
  else .NotJson

def sampleDocuments : List ModelDocument :=
  [.Pmcd (ascii "a.json") sampleJson, .Pure (ascii "b.pure") sampleSource]

theorem samples_lexed : ∀ document ∈ sampleDocuments, Lexed lexSample document := by
  intro document hdocument
  rcases List.mem_cons.mp hdocument with rfl | hdocument
  · trivial
  · obtain rfl := List.mem_singleton.mp hdocument
    exact ⟨sample_lexed, by decide⟩

/-- The class of the second document is in the model, with all that it says. -/
theorem samples_load : ∃ graph cls, load readSample lexSample sampleDocuments = .ok graph ∧
    graph.classes.get sampleSourcePath = some cls ∧ cls.coverage_gap = false ∧ cls.source = 1 := by
  have hrun : (load readSample lexSample sampleDocuments).toOption.any (fun graph =>
      (graph.classes.get sampleSourcePath).any fun cls => !cls.coverage_gap && cls.source = 1) =
        true := by
    decide +kernel
  obtain ⟨graph, hgraph, hrun⟩ := (Option.any_eq_true _ _).mp hrun
  obtain ⟨cls, hcls, hrest⟩ := (Option.any_eq_true _ _).mp hrun
  simp only [Bool.and_eq_true, decide_eq_true_eq, Bool.not_eq_true'] at hrest
  refine ⟨graph, cls, ?_, hcls, hrest⟩
  cases hload : load readSample lexSample sampleDocuments with
  | error error => rw [hload] at hgraph; cases hgraph
  | ok loaded => rw [hload] at hgraph; rw [Option.some.inj hgraph]

theorem the_second_document_counts :
    ∃ graph cls sources, load readSample lexSample sampleDocuments = .ok graph ∧
      graph.classes.get sampleSourcePath = some cls ∧ cls.source = 1 ∧
      readDocuments readSample lexSample sampleDocuments = .ok sources ∧
      Loaded sources graph := by
  obtain ⟨graph, cls, h, hcls, -, hsource⟩ := samples_load
  obtain ⟨sources, hsources, hloaded⟩ :=
    the_last_declaration_counts readSample lexSample sampleDocuments graph h
  exact ⟨graph, cls, sources, h, hcls, hsource, hsources, hloaded⟩

theorem the_sample_class_is_traced :
    ∃ graph cls sources, load readSample lexSample sampleDocuments = .ok graph ∧
      graph.classes.get sampleSourcePath = some cls ∧
      Traced readSample lexSample sampleDocuments sources graph sampleSourcePath cls := by
  obtain ⟨graph, cls, h, hcls, hgap, -⟩ := samples_load
  obtain ⟨sources, -, htraced⟩ := complete_classes_come_from_documents readSample lexSample
    sampleDocuments samples_lexed graph h
  exact ⟨graph, cls, sources, h, hcls, htraced _ _ hcls hgap⟩

end analyzer.loader
