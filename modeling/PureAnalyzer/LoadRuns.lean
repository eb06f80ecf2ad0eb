-- The laws of a whole load: the last source that declares a path decides what
-- stands there, a warning tells of each declaration it replaces, and a class of
-- the loaded model says what that source says.
import PureAnalyzer.Attempts
import PureAnalyzer.LoaderLaws

namespace analyzer.loader

open fragments model diagnostics attempts

/-! ## Sources that were read -/

/-- A source that was read, with the facts of it. -/
structure ReadSource where
  info : ModelSourceInfo
  fragment : ModelFragment

namespace ReadSource

/-- What the source declares under a path. -/
def get (s : ReadSource) (path : QName) : Option FragmentElement := s.fragment.elements.map.get path

/-- Every element of the source carries the id of the source. -/
def Stamped (s : ReadSource) : Prop :=
  ∀ path element, s.get path = some element → element.source = s.info.id

end ReadSource

section

variable (parseDocument : Text → Text → Nat → Except ModelError Elements)
variable (parsePureDocument : Text → Text → Nat → Except ModelError ModelFragment)

def readDocument (index : Nat) : ModelDocument → Except ModelError ReadSource
  | .Pmcd label json =>
    (parseDocument label json index).map fun elements =>
      ⟨⟨index, label, .Pmcd⟩, ⟨elements, []⟩⟩
  | .Pure label text =>
    (parsePureDocument label text index).map fun fragment => ⟨⟨index, label, .PureFile⟩, fragment⟩

/-- Reads every source alone, from the first one on. -/
def readFrom (index : Nat) : List ModelDocument → Except ModelError (List ReadSource)
  | [] => .ok []
  | document :: rest =>
    if index < U32_END then do
      let source ← readDocument parseDocument parsePureDocument index document
      let sources ← readFrom (index + 1) rest
      return source :: sources
    else .error (.TooManySources index)

end

def ingestSource (m : ModelMerger) (s : ReadSource) : ModelMerger :=
  m.ingestFragment s.info.id s.info.label s.info.provenance s.fragment

def ingestAll (m : ModelMerger) (sources : List ReadSource) : ModelMerger :=
  sources.foldl ingestSource m

section

variable {parseDocument : Text → Text → Nat → Except ModelError Elements}
variable {parsePureDocument : Text → Text → Nat → Except ModelError ModelFragment}

theorem ingest_eq (m : ModelMerger) (index : Nat) (document : ModelDocument) :
    ingest parseDocument parsePureDocument m index document =
      (readDocument parseDocument parsePureDocument index document).map (ingestSource m) := by
  cases document with
  | Pmcd label json =>
    simp only [ingest, readDocument]
    cases parseDocument label json index with
    | error error => rfl
    | ok elements => rfl
  | Pure label text =>
    simp only [ingest, readDocument]
    cases parsePureDocument label text index with
    | error error => rfl
    | ok fragment => rfl

/-- A load reads the sources, each alone, merges them, and then finishes. -/
theorem loadFrom_eq (index : Nat) (m : ModelMerger) (documents : List ModelDocument) :
    loadFrom parseDocument parsePureDocument index m documents =
      (readFrom parseDocument parsePureDocument index documents >>= fun sources =>
        (ingestAll m sources).finish) := by
  induction documents generalizing index m with
  | nil => rfl
  | cons document rest ih =>
    rw [loadFrom, readFrom]
    by_cases hindex : index < U32_END
    · rw [if_pos hindex, if_pos hindex, ingest_eq]
      cases readDocument parseDocument parsePureDocument index document with
      | error error => rfl
      | ok source =>
        show loadFrom parseDocument parsePureDocument (index + 1) (ingestSource m source) rest = _
        rw [ih]
        cases readFrom parseDocument parsePureDocument (index + 1) rest with
        | error error => rfl
        | ok sources => rfl
    · rw [if_neg hindex, if_neg hindex]
      rfl

end

section

variable {parseDocument : Text → Text → Nat → Except ModelError Elements}
variable {parsePureDocument : Text → Text → Nat → Except ModelError ModelFragment}

theorem readDocument_id {index : Nat} {document : ModelDocument} {s : ReadSource}
    (h : readDocument parseDocument parsePureDocument index document = .ok s) :
    s.info.id = index := by
  cases document with
  | Pmcd label json =>
    obtain ⟨elements, -, rfl⟩ := map_ok h
    rfl
  | Pure label text =>
    obtain ⟨fragment, -, rfl⟩ := map_ok h
    rfl

/-- Every source is the reading of the document at its place. -/
theorem readFrom_at {index : Nat} {documents : List ModelDocument} {sources : List ReadSource}
    (h : readFrom parseDocument parsePureDocument index documents = .ok sources) {i : Nat}
    {s : ReadSource} (hs : sources[i]? = some s) :
    ∃ document, documents[i]? = some document ∧
      readDocument parseDocument parsePureDocument (index + i) document = .ok s := by
  induction documents generalizing index sources i with
  | nil =>
    obtain rfl := Except.ok.inj h
    cases hs
  | cons document rest ih =>
    rw [readFrom] at h
    split_ifs at h
    obtain ⟨first, hfirst, h⟩ := bind_ok h
    obtain ⟨others, hothers, h⟩ := bind_ok h
    obtain rfl := Except.ok.inj h
    cases i with
    | zero =>
      obtain rfl := Option.some.inj hs
      exact ⟨document, rfl, hfirst⟩
    | succ i =>
      obtain ⟨found, hfound, hread⟩ := ih hothers hs
      refine ⟨found, hfound, ?_⟩
      rwa [Nat.add_right_comm, Nat.add_assoc] at hread

theorem readFrom_ids {documents : List ModelDocument} {sources : List ReadSource}
    (h : readFrom parseDocument parsePureDocument 0 documents = .ok sources) :
    sources.map (fun s => s.info.id) = List.range sources.length := by
  refine List.ext_getElem (by simp) fun i hi hi' => ?_
  rw [List.length_map] at hi
  obtain ⟨document, -, hread⟩ := readFrom_at h (List.getElem?_eq_getElem hi)
  rw [List.getElem_map, List.getElem_range, readDocument_id hread, Nat.zero_add]

end

/-! ## One source -/

/-- The warnings that a source gives when it is merged behind others: one for each
path that another source has declared. -/
def replacements (m : ModelMerger) (s : ReadSource) : List Diagnostic :=
  s.fragment.elements.map.entries.filterMap fun entry =>
    (m.elements.map.get entry.1).map fun previous =>
      m.mergeDiagnostic entry.1 previous.source s.info.id s.info.label

theorem ingestElement_get (source : Nat) (label : Text) (m : ModelMerger)
    (element : FragmentElement) (h : element.Declared) (path : QName) :
    (m.ingestElement source label element h).elements.map.get path =
      if path = element.path then some element else m.elements.map.get path := by
  unfold ModelMerger.ingestElement
  split
  · exact SortedMap.get_insert _ _ _ _
  · exact SortedMap.get_insert _ _ _ _

theorem ingestElement_sources (source : Nat) (label : Text) (m : ModelMerger)
    (element : FragmentElement) (h : element.Declared) :
    (m.ingestElement source label element h).sources = m.sources := by
  unfold ModelMerger.ingestElement
  split
  · rfl
  · rfl

theorem ingestElement_diagnostics (source : Nat) (label : Text) (m : ModelMerger)
    (element : FragmentElement) (h : element.Declared) :
    (m.ingestElement source label element h).diagnostics =
      m.diagnostics ++ ((m.elements.map.get element.path).map fun previous =>
        m.mergeDiagnostic element.path previous.source source label).toList := by
  unfold ModelMerger.ingestElement
  cases m.elements.map.get element.path with
  | none => exact (List.append_nil _).symm
  | some previous => rfl

section

variable {fragment : ModelFragment} {source : Nat} {label : Text}

/-- An element of a fragment, as the loop of the merge takes it. -/
abbrev Entry (fragment : ModelFragment) :=
  { entry : QName × FragmentElement // entry ∈ fragment.elements.map.entries }

theorem entry_path (entry : Entry fragment) : entry.1.2.path = entry.1.1 :=
  fragment.elements.keyed _ _ (SortedMap.get_of_mem entry.2)

/-- One turn of the loop. -/
def entryTurn (source : Nat) (label : Text) (m : ModelMerger) (entry : Entry fragment) :
    ModelMerger :=
  m.ingestElement source label entry.1.2
    (fragment.elements.declared _ _ (SortedMap.get_of_mem entry.2))

/-- The loop puts every element in place. As the paths of one source are different, no
element of it replaces another one, and each warning is about a source before. -/
theorem entryTurns_run {entries : List (Entry fragment)}
    (hnodup : (entries.map fun entry => entry.1.1).Nodup) (m : ModelMerger) :
    let m' := entries.foldl (entryTurn source label) m
    m'.sources = m.sources ∧
      (∀ path, m'.elements.map.get path =
        ((entries.find? (·.1.1 = path)).map fun entry => entry.1.2).or (m.elements.map.get path)) ∧
      m'.diagnostics = m.diagnostics ++ entries.filterMap fun entry =>
        (m.elements.map.get entry.1.1).map fun previous =>
          m.mergeDiagnostic entry.1.1 previous.source source label := by
  induction entries generalizing m with
  | nil => exact ⟨rfl, fun _ => rfl, (List.append_nil _).symm⟩
  | cons entry entries ih =>
    obtain ⟨hnew, hrest⟩ : entry.1.1 ∉ entries.map (fun entry => entry.1.1) ∧
        (entries.map fun entry => entry.1.1).Nodup := List.nodup_cons.mp hnodup
    obtain ⟨hsources, hget, hdiagnostics⟩ := ih hrest (entryTurn source label m entry)
    have hturn (path : QName) : (entryTurn source label m entry).elements.map.get path =
        if path = entry.1.1 then some entry.1.2 else m.elements.map.get path := by
      rw [← entry_path entry]
      exact ingestElement_get _ _ _ _ _ _
    have hsame : (entryTurn source label m entry).sources = m.sources :=
      ingestElement_sources _ _ _ _ _
    refine ⟨hsources.trans hsame, fun path => ?_, ?_⟩
    · rw [List.foldl_cons, hget, hturn]
      by_cases hpath : entry.1.1 = path
      · have hnone : entries.find? (·.1.1 = path) = none := by
          rw [List.find?_eq_none]
          intro other hother heq
          apply hnew
          rw [hpath, ← of_decide_eq_true heq]
          exact List.mem_map_of_mem hother
        rw [hnone, if_pos hpath.symm, List.find?_cons_of_pos (by simpa using hpath)]
        rfl
      · rw [if_neg (Ne.symm hpath), List.find?_cons_of_neg (by simpa using hpath)]
    · rw [List.foldl_cons, hdiagnostics]
      have hfirst : (entryTurn source label m entry).diagnostics = m.diagnostics ++
          ((m.elements.map.get entry.1.1).map fun previous =>
            m.mergeDiagnostic entry.1.1 previous.source source label).toList := by
        rw [← entry_path entry]
        exact ingestElement_diagnostics _ _ _ _ _
      have hlater : (entries.filterMap fun other =>
          ((entryTurn source label m entry).elements.map.get other.1.1).map fun previous =>
            (entryTurn source label m entry).mergeDiagnostic other.1.1 previous.source source
              label) =
          entries.filterMap fun other =>
            (m.elements.map.get other.1.1).map fun previous =>
              m.mergeDiagnostic other.1.1 previous.source source label := by
        refine List.filterMap_congr fun other hother => ?_
        have hne : other.1.1 ≠ entry.1.1 := by
          intro heq
          rw [← heq] at hnew
          exact hnew (List.mem_map_of_mem hother)
        rw [hturn, if_neg hne]
        unfold ModelMerger.mergeDiagnostic
        rw [hsame]
      rw [hfirst, hlater, List.append_assoc, List.filterMap_cons]
      cases m.elements.map.get entry.1.1 with
      | none => rfl
      | some previous => rfl

end

/-- The merger with a source on its list. -/
def noted (m : ModelMerger) (s : ReadSource) : ModelMerger :=
  { m with
    sources := m.sources ++ [s.info]
    diagnostics := m.diagnostics ++ s.fragment.diagnostics }

theorem ingestSource_run (m : ModelMerger) (s : ReadSource) :
    (ingestSource m s).sources = m.sources ++ [s.info] ∧
      (∀ path, (ingestSource m s).elements.map.get path =
        (s.get path).or (m.elements.map.get path)) ∧
      (ingestSource m s).diagnostics =
        m.diagnostics ++ s.fragment.diagnostics ++ replacements (noted m s) s := by
  have hentries : s.fragment.elements.map.entries.attach.map Subtype.val =
      s.fragment.elements.map.entries := List.attach_map_subtype_val _
  have hnodup : (s.fragment.elements.map.entries.attach.map fun entry => entry.1.1).Nodup := by
    have hkeys : (s.fragment.elements.map.entries.map Prod.fst).Nodup :=
      (List.pairwise_map.mpr s.fragment.elements.map.sorted).imp ne_of_lt
    rw [← hentries, List.map_map] at hkeys
    exact hkeys
  obtain ⟨hsources, hget, hdiagnostics⟩ :=
    @entryTurns_run s.fragment s.info.id s.info.label _ hnodup (noted m s)
  have hfound (path : QName) : s.get path =
      ((s.fragment.elements.map.entries.attach.find? (·.1.1 = path)).map fun entry => entry.1.2) := by
    have hmap : (s.fragment.elements.map.entries.attach.map Subtype.val).find? (·.1 = path) =
        (s.fragment.elements.map.entries.attach.find? (·.1.1 = path)).map Subtype.val :=
      List.find?_map
    rw [hentries] at hmap
    unfold ReadSource.get SortedMap.get
    rw [hmap, Option.map_map]
    rfl
  have hwarned : replacements (noted m s) s =
      (s.fragment.elements.map.entries.attach.map Subtype.val).filterMap fun entry =>
        ((noted m s).elements.map.get entry.1).map fun previous =>
          (noted m s).mergeDiagnostic entry.1 previous.source s.info.id s.info.label := by
    rw [hentries]
    rfl
  rw [List.filterMap_map] at hwarned
  refine ⟨hsources, fun path => ?_, ?_⟩
  · rw [hfound path]
    exact hget path
  · rw [hwarned]
    exact hdiagnostics

/-! ## All the sources -/

/-- The last source that declares the path. -/
def lastOf (sources : List ReadSource) (path : QName) : Option ReadSource :=
  sources.reverse.find? fun s => (s.get path).isSome

def replacementWarning (path : QName) (previous replacement : ModelSourceInfo) : Diagnostic where
  code := .ModelMergeConflict
  severity := .Warning
  message := ascii "model element " ++ quoted path.text ++ ascii " from " ++
    quoted replacement.label ++ ascii " replaces the definition from " ++ quoted previous.label
  primary := ⟨replacement.id, TextRange.empty 0,
    ascii "winning definition from " ++ quoted replacement.label⟩
  secondary := [⟨previous.id, TextRange.empty 0,
    ascii "replaced definition from " ++ quoted previous.label⟩]

/-- One warning for each path of the source that a source before it has declared, in the
order of the paths. It names the source whose declaration stood there. -/
def warningsOf (before : List ReadSource) (s : ReadSource) : List Diagnostic :=
  s.fragment.elements.map.entries.filterMap fun entry =>
    (lastOf before entry.1).map fun previous => replacementWarning entry.1 previous.info s.info

def diagnosticsFrom (before : List ReadSource) : List ReadSource → List Diagnostic
  | [] => []
  | s :: rest =>
    s.fragment.diagnostics ++ warningsOf before s ++ diagnosticsFrom (before ++ [s]) rest

/-- What the merge of some sources is. -/
structure Merged (sources : List ReadSource) (m : ModelMerger) : Prop where
  listed : m.sources = sources.map ReadSource.info
  /-- Of the declarations of one path, the last one counts. -/
  last : ∀ path, m.elements.map.get path = (lastOf sources path).bind fun s => s.get path
  told : m.diagnostics = diagnosticsFrom [] sources

/-- The sources are numbered, and their elements carry the numbers. -/
structure Numbered (sources : List ReadSource) : Prop where
  ids : sources.map (fun s => s.info.id) = List.range sources.length
  stamped : ∀ s ∈ sources, s.Stamped

theorem lastOf_snoc (sources : List ReadSource) (s : ReadSource) (path : QName) :
    lastOf (sources ++ [s]) path = if (s.get path).isSome then some s else lastOf sources path := by
  unfold lastOf
  rw [List.reverse_append, List.reverse_singleton, List.singleton_append, List.find?_cons]
  cases (s.get path).isSome with
  | true => rfl
  | false => rfl

theorem lastOf_some {sources : List ReadSource} {s : ReadSource} {path : QName}
    (h : lastOf sources path = some s) : s ∈ sources ∧ (s.get path).isSome = true := by
  have hfound := List.find?_some h
  exact ⟨List.mem_reverse.mp (List.mem_of_find?_eq_some h), hfound⟩

/-- Behind the last source that declares the path, no other one does. -/
theorem lastOf_later {sources : List ReadSource} (h : Numbered sources) {s : ReadSource}
    {path : QName} (hlast : lastOf sources path = some s) {later : Nat} {t : ReadSource}
    (hlater : s.info.id < later) (ht : sources[later]? = some t) : t.get path = none := by
  obtain ⟨-, back, front, hsplit, hbehind⟩ := List.find?_eq_some_iff_append.mp hlast
  have hsources : sources = front.reverse ++ s :: back.reverse := by
    have hreversed := congrArg List.reverse hsplit
    simpa using hreversed
  have hid : s.info.id = front.reverse.length := by
    have hat := congrArg (fun ids : List Nat => ids[front.reverse.length]?) h.ids
    rw [hsources] at hat
    simpa using hat
  rw [hsources, List.getElem?_append_right (by omega), ← hid] at ht
  obtain ⟨n, hn⟩ : ∃ n, later - s.info.id = n + 1 := ⟨later - s.info.id - 1, by omega⟩
  rw [hn, List.getElem?_cons_succ] at ht
  have hmem : t ∈ back := List.mem_reverse.mp (List.mem_of_getElem? ht)
  have hnone := hbehind t hmem
  cases hget : t.get path with
  | none => rfl
  | some element =>
    rw [hget] at hnone
    cases hnone

theorem diagnosticsFrom_snoc (before sources : List ReadSource) (s : ReadSource) :
    diagnosticsFrom before (sources ++ [s]) =
      diagnosticsFrom before sources ++ s.fragment.diagnostics ++
        warningsOf (before ++ sources) s := by
  induction sources generalizing before with
  | nil => simp [diagnosticsFrom]
  | cons first sources ih => simp [diagnosticsFrom, ih]

theorem numbered_at {sources : List ReadSource} (h : Numbered sources) {s : ReadSource}
    (hs : s ∈ sources) : sources[s.info.id]? = some s := by
  obtain ⟨i, hi, rfl⟩ := List.getElem_of_mem hs
  have hid := congrArg (fun ids : List Nat => ids[i]?) h.ids
  simp only [List.getElem?_map, List.getElem?_eq_getElem hi, Option.map_some,
    List.getElem?_range hi] at hid
  rw [Option.some.inj hid]
  exact List.getElem?_eq_getElem hi

/-- The warning of the merger is about the source whose declaration it replaces. -/
theorem mergeDiagnostic_eq {sources : List ReadSource} {m : ModelMerger} (hm : Merged sources m)
    (hnumbered : Numbered sources) {previous s : ReadSource} {path : QName}
    (h : lastOf sources path = some previous) {element : FragmentElement}
    (helement : previous.get path = some element) :
    (noted m s).mergeDiagnostic path element.source s.info.id s.info.label =
      replacementWarning path previous.info s.info := by
  have hmem := (lastOf_some h).1
  have hlabel : (noted m s).sources[element.source]? = some previous.info := by
    rw [hnumbered.stamped previous hmem path element helement]
    have hfound := numbered_at hnumbered hmem
    have hlt : previous.info.id < (sources.map ReadSource.info).length := by
      rw [List.length_map]
      exact (List.getElem?_eq_some_iff.mp hfound).1
    show (m.sources ++ [s.info])[previous.info.id]? = _
    rw [hm.listed, List.getElem?_append_left hlt, List.getElem?_map, hfound]
    rfl
  unfold ModelMerger.mergeDiagnostic replacementWarning
  rw [hlabel, hnumbered.stamped previous hmem path element helement]
  rfl

/-- One more source. -/
theorem Merged.ingest {sources : List ReadSource} {m : ModelMerger} (h : Merged sources m)
    (hnumbered : Numbered sources) (s : ReadSource) :
    Merged (sources ++ [s]) (ingestSource m s) := by
  obtain ⟨hsources, hget, hdiagnostics⟩ := ingestSource_run m s
  refine ⟨?_, fun path => ?_, ?_⟩
  · rw [hsources, h.listed, List.map_append, List.map_singleton]
  · rw [hget, lastOf_snoc, h.last]
    cases hs : s.get path with
    | none => rfl
    | some element => exact hs.symm
  · have hwarnings : replacements (noted m s) s = warningsOf sources s := by
      unfold replacements warningsOf
      refine List.filterMap_congr fun entry _ => ?_
      rw [show (noted m s).elements = m.elements from rfl, h.last]
      cases hlast : lastOf sources entry.1 with
      | none => rfl
      | some previous =>
        obtain ⟨element, helement⟩ := Option.isSome_iff_exists.mp (lastOf_some hlast).2
        rw [Option.bind_some, helement, Option.map_some, Option.map_some,
          mergeDiagnostic_eq h hnumbered hlast helement]
    rw [hdiagnostics, h.told, hwarnings, diagnosticsFrom_snoc, List.nil_append]

theorem Numbered.front {sources : List ReadSource} {s : ReadSource}
    (h : Numbered (sources ++ [s])) : Numbered sources := by
  refine ⟨?_, fun t ht => h.stamped t (List.mem_append_left _ ht)⟩
  have hids := h.ids
  rw [List.map_append, List.length_append, List.length_singleton, List.range_succ] at hids
  exact List.append_inj_left' hids rfl

/-- The merge of all the sources, one after the other. -/
theorem merged_ingestAll {sources : List ReadSource} (h : Numbered sources) :
    Merged sources (ingestAll ModelMerger.new sources) := by
  induction sources using List.reverseRecOn with
  | nil => exact ⟨rfl, fun _ => rfl, rfl⟩
  | append_singleton sources s ih =>
    unfold ingestAll
    rw [List.foldl_append]
    exact (ih h.front).ingest h.front s

/-! ## The finished load -/

theorem materializeEach_diagnostics {m result : AssociationMaterialization}
    {zipped : List (PreparedAssociation × Option ModelErrorKind)}
    (h : materializeEach m zipped = .ok result) :
    result.diagnostics = m.diagnostics ++ zipped.filterMap fun z =>
      z.2.map (pureAssociationMaterializationDiagnostic z.1) := by
  induction zipped generalizing m with
  | nil =>
    obtain rfl := Except.ok.inj h
    exact (List.append_nil _).symm
  | cons z rest ih =>
    obtain ⟨a, _ | failure⟩ := z
    · rw [materializeEach] at h
      split at h
      · cases h
      · have hrest := ih h
        exact hrest
    · rw [materializeEach] at h
      rw [ih h, List.append_assoc]
      rfl

/-- What a finished load lists and tells. -/
theorem finish_told {merger : ModelMerger} {graph : ModelGraph} (h : merger.finish = .ok graph) :
    graph.sources = merger.sources ∧
      graph.diagnostics = merger.diagnostics ++
        (checkedAssociations merger.elements).filterMap fun z =>
          z.2.map (pureAssociationMaterializationDiagnostic z.1) := by
  unfold ModelMerger.finish at h
  split at h
  · cases h
  · next materialization hmaterialize =>
    have hrun : materializeEach ⟨merger.elements.classes, [], [], false⟩
        (checkedAssociations merger.elements) = .ok materialization := by
      unfold materializeAssociations at hmaterialize
      dsimp only at hmaterialize
      split at hmaterialize
      · cases hmaterialize
      · exact hmaterialize
    have htold := materializeEach_diagnostics hrun
    simp only at h
    split at h
    · cases h
    · obtain rfl := Except.ok.inj h
      refine ⟨rfl, ?_⟩
      show merger.diagnostics ++ materialization.diagnostics = _
      rw [htold, List.nil_append]

theorem mem_associations {elements : Elements} {draft : AssocDraft} :
    draft ∈ elements.associations ↔
      elements.map.get draft.path = some (.Association draft) := by
  unfold Elements.associations
  rw [List.mem_filterMap]
  constructor
  · rintro ⟨⟨path, element⟩, hmem, hassociation⟩
    cases element with
    | Class cls => cases hassociation
    | Association association =>
      obtain rfl := Option.some.inj hassociation
      have hget := SortedMap.get_of_mem hmem
      have hpath : association.path = path := elements.keyed _ _ hget
      rw [hpath]
      exact hget
  · exact fun h => ⟨_, SortedMap.mem_of_get h, rfl⟩

theorem get_classes (elements : Elements) (path : QName) :
    elements.classes.get path = (elements.map.get path).bind FragmentElement.asClass :=
  SortedMap.get_filterMapValues _ _ _

/-- The classes keep their gaps where no association is rejected. -/
theorem gap_loadedClasses {elements : Elements}
    (h : ∀ z ∈ checkedAssociations elements, z.2 = none) (path : QName) :
    ((loadedClasses elements).get path).map ClassInfo.coverage_gap =
      (elements.classes.get path).map ClassInfo.coverage_gap := by
  have hnone : (checkedAssociations elements).any (·.2.isSome) = false := by
    rw [List.any_eq_false]
    intro z hz
    rw [h z hz]
    exact Bool.false_ne_true
  have hgap (found : Option ClassInfo) :
      found.map ClassInfo.coverage_gap = (found.map bare).map ClassInfo.coverage_gap := by
    rw [Option.map_map]
    rfl
  unfold loadedClasses
  rw [hnone, if_neg Bool.false_ne_true, hgap, bare_attachAll, ← hgap]

/-! ## The loaded model -/

/-- What the last source that declares the path says of it. -/
def declaredBy (sources : List ReadSource) (path : QName) : Option FragmentElement :=
  (lastOf sources path).bind fun s => s.get path

def classOf (sources : List ReadSource) (path : QName) : Option ClassInfo :=
  (declaredBy sources path).bind FragmentElement.asClass

/-- The associations that count and are not in the model, each with what speaks against it. -/
structure Rejected (sources : List ReadSource) (graph : ModelGraph)
    (rejected : List (PreparedAssociation × ModelErrorKind)) : Prop where
  once : (rejected.map fun z => z.1.path).Nodup
  only : ∀ z ∈ rejected, z.1.provenance ≠ .Pmcd ∧ (∀ a ∈ graph.associations, a.path ≠ z.1.path) ∧
    ∃ draft, declaredBy sources z.1.path = some (.Association draft) ∧
      z.1 = PreparedAssociation.fromDraft draft
  every : ∀ q draft, declaredBy sources q = some (.Association draft) →
    (∃ a ∈ graph.associations, a.path = q) ∨ ∃ z ∈ rejected, z.1.path = q

/-- What the model of some sources is. -/
structure Loaded (sources : List ReadSource) (graph : ModelGraph) : Prop where
  listed : graph.sources = sources.map ReadSource.info
  /-- But for properties and gaps, a class is as its last source declares it. -/
  outlined : ∀ path, (graph.classes.get path).map outline = (classOf sources path).map outline
  /-- The properties of a class are those that this source declares, and the ends of the
  associations. -/
  properties : ∀ k p, propertyAt graph.classes k = some p ↔
    (∃ cls, classOf sources (ofLex k).1 = some cls ∧ cls.properties.get (ofLex k).2 = some p) ∨
      ∃ x ∈ directedEnds graph.associations, place x = k ∧ x.2.property = p
  associations : ∀ a ∈ graph.associations, ∃ draft,
    declaredBy sources a.path = some (.Association draft) ∧
      a = (PreparedAssociation.fromDraft draft).assocInfo
  /-- A class has no gap exactly when its source gives it none and every association that
  counts is in the model. -/
  complete : ∀ path cls, graph.classes.get path = some cls →
    (cls.coverage_gap = false ↔
      (∃ found, classOf sources path = some found ∧ found.coverage_gap = false) ∧
        ∀ q draft, declaredBy sources q = some (.Association draft) →
          ∃ a ∈ graph.associations, a.path = q)
  /-- The findings of the sources and the warnings of the merge come first, then an error
  for each association that was left out. -/
  told : ∃ rejected, Rejected sources graph rejected ∧
    graph.diagnostics = diagnosticsFrom [] sources ++
      rejected.map fun z => pureAssociationMaterializationDiagnostic z.1 z.2

/-- What the check has against the associations. -/
def rejectedAssociations (elements : Elements) : List (PreparedAssociation × ModelErrorKind) :=
  (checkedAssociations elements).filterMap fun z => z.2.map fun failure => (z.1, failure)

theorem checked_fst (classes : Classes) (prepared : List PreparedAssociation) :
    (checked classes prepared).map Prod.fst = prepared := by
  unfold checked
  rw [List.map_map]
  exact List.map_get_finRange prepared

theorem checked_draft {elements : Elements} {z : PreparedAssociation × Option ModelErrorKind}
    (hz : z ∈ checkedAssociations elements) :
    ∃ draft, elements.map.get z.1.path = some (.Association draft) ∧
      z.1 = PreparedAssociation.fromDraft draft := by
  have hmem := List.mem_map_of_mem (f := Prod.fst) hz
  unfold checkedAssociations at hmem
  rw [checked_fst] at hmem
  obtain ⟨draft, hdraft, hprepared⟩ := List.mem_map.mp hmem
  rw [← hprepared]
  exact ⟨draft, mem_associations.mp hdraft, rfl⟩

theorem draft_checked {elements : Elements} {q : QName} {draft : AssocDraft}
    (h : elements.map.get q = some (.Association draft)) :
    ∃ z ∈ checkedAssociations elements, z.1.path = q := by
  have hpath : draft.path = q := elements.keyed _ _ h
  have hmem : PreparedAssociation.fromDraft draft ∈
      (checkedAssociations elements).map Prod.fst := by
    unfold checkedAssociations
    rw [checked_fst]
    refine List.mem_map_of_mem (mem_associations.mpr ?_)
    rw [hpath]
    exact h
  obtain ⟨z, hz, hprepared⟩ := List.mem_map.mp hmem
  refine ⟨z, hz, ?_⟩
  rw [hprepared]
  exact hpath

theorem accepted_of_checked {elements : Elements}
    {z : PreparedAssociation × Option ModelErrorKind} (hz : z ∈ checkedAssociations elements)
    (h : z.2 = none) : z.1 ∈ acceptedAssociations elements := by
  refine List.mem_map_of_mem (List.mem_filter.mpr ⟨hz, ?_⟩)
  rw [h]
  rfl

theorem rejected_iff {elements : Elements} {z : PreparedAssociation × ModelErrorKind} :
    z ∈ rejectedAssociations elements ↔ (z.1, some z.2) ∈ checkedAssociations elements := by
  unfold rejectedAssociations
  rw [List.mem_filterMap]
  constructor
  · rintro ⟨⟨a, found⟩, hmem, h⟩
    obtain ⟨failure, rfl, rfl⟩ := Option.map_eq_some_iff.mp h
    exact hmem
  · exact fun h => ⟨_, h, rfl⟩

theorem rejected_once (elements : Elements) :
    ((rejectedAssociations elements).map fun z => z.1.path).Nodup := by
  have hpaths := paths_nodup elements
  rw [← checked_fst elements.classes (elements.associations.map PreparedAssociation.fromDraft),
    List.Nodup, List.pairwise_map, List.pairwise_map] at hpaths
  unfold rejectedAssociations
  rw [List.Nodup, List.pairwise_map, List.pairwise_filterMap]
  refine hpaths.imp fun hne x hx y hy => ?_
  obtain ⟨failure, -, rfl⟩ := Option.map_eq_some_iff.mp hx
  obtain ⟨failure', -, rfl⟩ := Option.map_eq_some_iff.mp hy
  exact hne

theorem loaded_of_finish {sources : List ReadSource} {merger : ModelMerger} {graph : ModelGraph}
    (hmerged : Merged sources merger) (h : merger.finish = .ok graph) : Loaded sources graph := by
  have hmaterialized := materialized_of_finish h
  obtain ⟨-, hclasses, hassociations⟩ := finish_ok h
  obtain ⟨hsources, hdiagnostics⟩ := finish_told h
  have hdeclared (path : QName) : merger.elements.map.get path = declaredBy sources path :=
    hmerged.last path
  have hclassOf (path : QName) : merger.elements.classes.get path = classOf sources path := by
    rw [get_classes, hdeclared]
    rfl
  refine ⟨hsources.trans hmerged.listed, fun path => ?_, fun k p => ⟨fun hp => ?_, ?_⟩,
    fun a ha => ?_, fun path cls hcls => ?_, ?_⟩
  · rw [hmaterialized.outlined, hclassOf]
  · refine (hmaterialized.only k p hp).imp_left fun hdeclares => ?_
    obtain ⟨cls, hcls, hp⟩ := Option.bind_eq_some_iff.mp hdeclares
    exact ⟨cls, (hclassOf _).symm.trans hcls, hp⟩
  · rintro (⟨cls, hcls, hp⟩ | ⟨x, hx, rfl, rfl⟩)
    · exact hmaterialized.kept k p
        (Option.bind_eq_some_iff.mpr ⟨cls, (hclassOf _).trans hcls, hp⟩)
    · exact (hmaterialized.tagged x hx).1
  · rw [hassociations] at ha
    obtain ⟨prepared, hprepared, rfl⟩ := List.mem_map.mp ha
    obtain ⟨draft, hdraft, rfl⟩ := accepted_draft hprepared
    exact ⟨draft, (hdeclared _).symm.trans (mem_associations.mp hdraft), rfl⟩
  · have hcheckedOf : cls.coverage_gap = false →
        ∀ z ∈ checkedAssociations merger.elements, z.2 = none := by
      intro hgap z hz
      by_contra hrejected
      have hopen := (hmaterialized.rejected z hz hrejected).1 path cls hcls
      rw [hgap] at hopen
      cases hopen
    have hkept (hall : ∀ z ∈ checkedAssociations merger.elements, z.2 = none) :
        (classOf sources path).map ClassInfo.coverage_gap = some cls.coverage_gap := by
      rw [← hclassOf, ← gap_loadedClasses hall]
      show ((loadedClasses merger.elements).map.get path).map _ = _
      rw [← hclasses, hcls]
      rfl
    constructor
    · intro hgap
      have hall := hcheckedOf hgap
      refine ⟨?_, fun q draft hdraft => ?_⟩
      · obtain ⟨found, hfound, hsame⟩ := Option.map_eq_some_iff.mp (hkept hall)
        exact ⟨found, hfound, hsame.trans hgap⟩
      · obtain ⟨z, hz, hq⟩ := draft_checked ((hdeclared q).trans hdraft)
        refine ⟨z.1.assocInfo, ?_, hq⟩
        rw [hassociations]
        exact List.mem_map_of_mem (accepted_of_checked hz (hall z hz))
    · rintro ⟨⟨found, hfound, hgap⟩, hevery⟩
      have hall : ∀ z ∈ checkedAssociations merger.elements, z.2 = none := by
        intro z hz
        by_contra hrejected
        obtain ⟨draft, hdraft, -⟩ := checked_draft hz
        obtain ⟨a, ha, hpath⟩ := hevery _ draft ((hdeclared _).symm.trans hdraft)
        rw [hassociations] at ha
        obtain ⟨prepared, hprepared, rfl⟩ := List.mem_map.mp ha
        exact path_of_rejected hz hrejected prepared hprepared hpath
      have hsame := hkept hall
      rw [hfound] at hsame
      exact (Option.some.inj hsame).symm.trans hgap
  · refine ⟨rejectedAssociations merger.elements, ⟨rejected_once _, fun z hz => ?_, ?_⟩, ?_⟩
    · have hchecked := rejected_iff.mp hz
      have hrejected : (z.1, some z.2).2 ≠ none := Option.some_ne_none z.2
      obtain ⟨hpreflighted, -⟩ := finish_ok h
      obtain ⟨draft, hdraft, hprepared⟩ := checked_draft hchecked
      refine ⟨fun hpmcd => hrejected (hpreflighted _ hchecked hpmcd), fun a ha => ?_,
        draft, (hdeclared _).symm.trans hdraft, hprepared⟩
      rw [hassociations] at ha
      obtain ⟨prepared, haccepted, rfl⟩ := List.mem_map.mp ha
      exact path_of_rejected hchecked hrejected prepared haccepted
    · intro q draft hdraft
      obtain ⟨⟨prepared, failed⟩, hz, hq⟩ := draft_checked ((hdeclared q).trans hdraft)
      cases failed with
      | none =>
        refine .inl ⟨prepared.assocInfo, ?_, hq⟩
        rw [hassociations]
        exact List.mem_map_of_mem (accepted_of_checked hz rfl)
      | some failure => exact .inr ⟨(prepared, failure), rejected_iff.mpr hz, hq⟩
    · rw [hdiagnostics, hmerged.told, rejectedAssociations, List.map_filterMap]
      refine congrArg (diagnosticsFrom [] sources ++ ·) (List.filterMap_congr fun z _ => ?_)
      rw [Option.map_map]
      rfl

end analyzer.loader
