-- What is read from a PMCD document: all of its records or none, and of each
-- record just what it says.
import PureAnalyzer.PmcdSource

namespace analyzer.pmcd_source

open fragments model loader pure_source attempts SortedMap

/-! ## Members -/

/-- The members of one sort are read when each record is valid and no name stands twice. -/
theorem lowerMembers_iff {ρ ν : Type} {lower : ρ → Lowered ν} {name : ν → Name}
    {duplicate : Name → ModelErrorKind} {lowered : SortedMap Name ν} {l : List (Name × ν)}
    (h : Holds lowered l) {records : List ρ} {m : SortedMap Name ν} :
    lowerMembers lower name duplicate lowered records = .ok m ↔
      ∃ members, List.Forall₂ (fun raw v => lower raw = .ok v) records members ∧
        Holds m (l ++ members.map fun v => (name v, v)) := by
  induction records generalizing lowered l with
  | nil =>
    constructor
    · intro hm
      obtain rfl := Except.ok.inj hm
      exact ⟨[], .nil, by simpa using h⟩
    · rintro ⟨members, hmembers, hm⟩
      cases hmembers
      rw [List.map_nil, List.append_nil] at hm
      exact congrArg Except.ok (h.unique hm)
  | cons raw rest ih =>
    rw [lowerMembers, bind_ok_iff]
    have hcons (v : ν) (members : List ν) :
        l ++ ((v :: members).map fun v => (name v, v)) =
          (l ++ [(name v, v)]) ++ members.map fun v => (name v, v) := by simp
    constructor
    · rintro ⟨v, hv, hm⟩
      split_ifs at hm with hseen
      have hnew : lowered.get (name v) = none := Option.not_isSome_iff_eq_none.mp hseen
      obtain ⟨members, hmembers, hm⟩ := (ih (h.insert hnew v)).mp hm
      exact ⟨v :: members, .cons hv hmembers, by rwa [hcons]⟩
    · rintro ⟨members, hmembers, hm⟩
      cases hmembers with
      | @cons _ v _ members hv hrest =>
        have hnew : lowered.get (name v) = none := by
          rw [h.absent_iff]
          intro hmem
          have honce := hm.once
          rw [List.map_append, List.nodup_append] at honce
          exact honce.2.2 _ hmem _ List.mem_cons_self rfl
        refine ⟨v, hv, ?_⟩
        rw [hnew, if_neg (by simp)]
        exact (ih (h.insert hnew v)).mpr ⟨members, hrest, by rwa [← hcons]⟩

/-! ## Classes and associations -/

/-- The members that the records say. -/
def Members {ρ ν : Type} (lower : ρ → Lowered ν) (name : ν → Name) (records : List ρ)
    (m : SortedMap Name ν) : Prop :=
  ∃ members, List.Forall₂ (fun raw v => lower raw = .ok v) records members ∧
    Holds m (members.map fun v => (name v, v))

/-- The class is what its record says. -/
structure ReadsClass (raw : RawClass) (source : Nat) (cls : ClassInfo) : Prop where
  path : QName.fromPackageAndName raw.package raw.name = .ok cls.path
  temporal : lowerTemporal cls.path raw.stereotypes = .ok cls.temporal
  supertypes : List.Forall₂ (fun supertype path => qnameOf supertype.intoString = .ok path)
    raw.super_types cls.supertypes
  properties : Members lowerProperty PropInfo.name raw.properties cls.properties
  qualified_properties : Members lowerQualifiedProperty QpInfo.name raw.qualified_properties
    cls.qualified_properties
  provenance : cls.provenance = .Pmcd
  source : cls.source = source
  span : cls.declaration_span = none
  complete : cls.coverage_gap = false

theorem lowerClass_iff {raw : RawClass} {source : Nat} {cls : ClassInfo} :
    lowerClass raw source = .ok cls ↔ ReadsClass raw source cls := by
  have hempty {ν : Type} : Holds (SortedMap.empty : SortedMap Name ν) [] := Holds.empty
  unfold lowerClass
  constructor
  · intro h
    obtain ⟨path, hpath, h⟩ := bind_ok h
    obtain ⟨temporal, htemporal, h⟩ := bind_ok h
    obtain ⟨supertypes, hsupertypes, h⟩ := bind_ok h
    obtain ⟨properties, hproperties, h⟩ := bind_ok h
    obtain ⟨qualified_properties, hqualified, h⟩ := bind_ok h
    obtain rfl := Except.ok.inj h
    exact ⟨hpath, htemporal, mapM_ok_iff.mp hsupertypes, (lowerMembers_iff hempty).mp hproperties,
      (lowerMembers_iff hempty).mp hqualified, rfl, rfl, rfl, rfl⟩
  · rintro ⟨hpath, htemporal, hsupertypes, hproperties, hqualified, hprovenance, rfl, hspan, hgap⟩
    refine bind_ok_iff.mpr ⟨cls.path, hpath, bind_ok_iff.mpr ⟨cls.temporal, htemporal, ?_⟩⟩
    refine bind_ok_iff.mpr ⟨cls.supertypes, mapM_ok_iff.mpr hsupertypes, ?_⟩
    refine bind_ok_iff.mpr ⟨cls.properties, (lowerMembers_iff hempty).mpr hproperties, ?_⟩
    refine bind_ok_iff.mpr ⟨cls.qualified_properties, (lowerMembers_iff hempty).mpr hqualified, ?_⟩
    rw [← hprovenance, ← hspan, ← hgap]
    rfl

/-- The association is what its record says. -/
structure ReadsAssociation (raw : RawAssociation) (source : Nat) (association : AssocDraft) :
    Prop where
  path : QName.fromPackageAndName raw.package raw.name = .ok association.path
  temporal : lowerTemporal association.path raw.stereotypes = .ok association.temporal
  ends : List.Forall₂ (fun raw p => lowerProperty raw = .ok p) raw.properties
    [association.first, association.second]
  provenance : association.provenance = .Pmcd
  source : association.source = source
  span : association.declaration_span = none

theorem twoEnds_ok {association : QName} {properties : List RawProperty}
    {ends : RawProperty × RawProperty} (h : twoEnds association properties = .ok ends) :
    properties = [ends.1, ends.2] := by
  unfold twoEnds at h
  split at h
  · obtain rfl := Except.ok.inj h
    rfl
  · cases h

theorem lowerAssociation_iff {raw : RawAssociation} {source : Nat} {association : AssocDraft} :
    lowerAssociation raw source = .ok association ↔ ReadsAssociation raw source association := by
  unfold lowerAssociation
  constructor
  · intro h
    obtain ⟨path, hpath, h⟩ := bind_ok h
    obtain ⟨temporal, htemporal, h⟩ := bind_ok h
    obtain ⟨ends, hends, h⟩ := bind_ok h
    obtain ⟨first, hfirst, h⟩ := bind_ok h
    obtain ⟨second, hsecond, h⟩ := bind_ok h
    obtain rfl := Except.ok.inj h
    refine ⟨hpath, htemporal, ?_, rfl, rfl, rfl⟩
    rw [twoEnds_ok hends]
    exact .cons hfirst (.cons hsecond .nil)
  · rintro ⟨hpath, htemporal, hends, hprovenance, rfl, hspan⟩
    obtain ⟨properties, hproperties⟩ : ∃ properties, raw.properties = properties := ⟨_, rfl⟩
    rw [hproperties] at hends ⊢
    cases hends with
    | cons hfirst hends =>
      cases hends with
      | cons hsecond hnil =>
        cases hnil
        refine bind_ok_iff.mpr ⟨association.path, hpath, bind_ok_iff.mpr
          ⟨association.temporal, htemporal, bind_ok_iff.mpr ⟨_, rfl, ?_⟩⟩⟩
        refine bind_ok_iff.mpr ⟨association.first, hfirst, bind_ok_iff.mpr
          ⟨association.second, hsecond, ?_⟩⟩
        rw [← hprovenance, ← hspan]
        rfl

/-! ## Elements -/

/-- What an element of the document declares. -/
inductive Says (source : Nat) : RawElement → Option FragmentElement → Prop where
  | cls {raw : RawClass} {cls : ClassInfo} (h : ReadsClass raw source cls) :
      Says source (.Class (.ok raw)) (some (.Class cls))
  | association {raw : RawAssociation} {association : AssocDraft}
      (h : ReadsAssociation raw source association) :
      Says source (.Association (.ok raw)) (some (.Association association))
  | other (kind : Text) : Says source (.Other kind) none

theorem recordOf_ok {ρ : Type} {raw : Except Text ρ} {record : ρ} (h : recordOf raw = .ok record) :
    raw = .ok record := by
  cases raw with
  | error message => cases h
  | ok raw =>
    obtain rfl := Except.ok.inj h
    rfl

theorem lowerClassElement_iff {raw : RawClass} {source : Nat} {element : DeclaredElement} :
    lowerClassElement raw source = .ok element ↔
      ∃ cls, lowerClass raw source = .ok cls ∧ element.1 = .Class cls := by
  unfold lowerClassElement
  split
  · next kind herror =>
    constructor
    · intro h
      cases h
    · rintro ⟨cls, hcls, -⟩
      rw [herror] at hcls
      cases hcls
  · next cls hok =>
    constructor
    · intro h
      obtain rfl := Except.ok.inj h
      exact ⟨cls, hok, rfl⟩
    · rintro ⟨cls', hcls, helement⟩
      obtain rfl := Except.ok.inj (hok.symm.trans hcls)
      exact congrArg Except.ok (Subtype.ext helement.symm)

theorem normalized_ok {source : Nat} {raw : RawElement} {element : Option DeclaredElement}
    (h : normalized source raw = .ok element) : Says source raw (element.map Subtype.val) := by
  cases raw with
  | NotObject => cases h
  | Untyped => cases h
  | Class raw =>
    obtain ⟨record, hrecord, h⟩ := bind_ok h
    obtain ⟨found, hfound, h⟩ := bind_ok h
    obtain rfl := Except.ok.inj h
    obtain rfl := recordOf_ok hrecord
    obtain ⟨cls, hcls, helement⟩ := lowerClassElement_iff.mp hfound
    rw [Option.map_some, helement]
    exact .cls (lowerClass_iff.mp hcls)
  | Association raw =>
    obtain ⟨record, hrecord, h⟩ := bind_ok h
    obtain ⟨found, hfound, h⟩ := bind_ok h
    obtain rfl := Except.ok.inj h
    obtain rfl := recordOf_ok hrecord
    obtain ⟨association, hassociation, rfl⟩ := map_ok hfound
    exact .association (lowerAssociation_iff.mp hassociation)
  | Other kind =>
    obtain rfl := Except.ok.inj h
    exact .other kind

theorem Says.normalized {source : Nat} {raw : RawElement} {element : Option FragmentElement}
    (h : Says source raw element) :
    ∃ found, normalized source raw = .ok found ∧ found.map Subtype.val = element := by
  cases h with
  | @cls raw cls h =>
    have hlowered := lowerClass_iff.mpr h
    refine ⟨some ⟨.Class cls, lowerClass_declared hlowered⟩, ?_, rfl⟩
    refine bind_ok_iff.mpr ⟨raw, rfl, bind_ok_iff.mpr ⟨_, ?_, rfl⟩⟩
    exact lowerClassElement_iff.mpr ⟨cls, hlowered, rfl⟩
  | @association raw association h =>
    refine ⟨some ⟨.Association association, declared_association association⟩, ?_, rfl⟩
    refine bind_ok_iff.mpr ⟨raw, rfl, bind_ok_iff.mpr ⟨_, ?_, rfl⟩⟩
    unfold lowerAssociationElement
    rw [lowerAssociation_iff.mpr h]
    rfl
  | other kind => exact ⟨none, rfl, rfl⟩

/-! ## Documents -/

/-- The elements of a document under their paths. -/
def entriesOf (found : List (Option FragmentElement)) : List (QName × FragmentElement) :=
  found.reduceOption.map fun element => (element.path, element)

theorem elements_ext {elements elements' : Elements} (h : elements.map = elements'.map) :
    elements = elements' := by
  cases elements
  cases elements'
  cases h
  rfl

theorem entriesOf_cons (element : Option FragmentElement) (found : List (Option FragmentElement)) :
    entriesOf (element :: found) = entriesOf [element] ++ entriesOf found := by
  cases element with
  | none => rfl
  | some element => rfl

section

variable {source : Nat} {elements : Elements} {l : List (QName × FragmentElement)}

/-- One element is taken when it is valid and its path is new. -/
theorem elementTurn_iff (h : Holds elements.map l) {raw : RawElement} {elements' : Elements} :
    elementTurn source elements raw = .ok elements' ↔
      ∃ element, Says source raw element ∧ Holds elements'.map (l ++ entriesOf [element]) := by
  unfold elementTurn
  rw [bind_ok_iff]
  constructor
  · rintro ⟨found, hfound, hturn⟩
    refine ⟨_, normalized_ok hfound, ?_⟩
    cases found with
    | none =>
      obtain rfl := Except.ok.inj hturn
      exact (List.append_nil l).symm ▸ h
    | some element =>
      simp only [insertElement] at hturn
      split_ifs at hturn with hseen
      obtain rfl := Except.ok.inj hturn
      exact h.insert (Option.not_isSome_iff_eq_none.mp hseen) _
  · rintro ⟨element, hsaid, hholds⟩
    obtain ⟨found, hfound, rfl⟩ := hsaid.normalized
    refine ⟨found, hfound, ?_⟩
    cases found with
    | none =>
      rw [show entriesOf [none.map Subtype.val] = [] from rfl, List.append_nil] at hholds
      exact congrArg Except.ok (elements_ext (h.unique hholds))
    | some element =>
      have hnew : elements.map.get element.1.path = none := by
        rw [h.absent_iff]
        intro hmem
        have honce := hholds.once
        rw [List.map_append, List.nodup_append] at honce
        exact honce.2.2 _ hmem _ List.mem_cons_self rfl
      simp only [insertElement, hnew, Option.isSome_none, Bool.false_eq_true, if_false]
      exact congrArg Except.ok (elements_ext ((h.insert hnew _).unique hholds))

/-- An element with a new path can be put in. -/
theorem room_for (h : Holds elements.map l) {raw : RawElement} {element : Option FragmentElement}
    (hsaid : Says source raw element) (hnodup : ((l ++ entriesOf [element]).map Prod.fst).Nodup) :
    ∃ elements' : Elements, Holds elements'.map (l ++ entriesOf [element]) := by
  obtain ⟨found, -, rfl⟩ := hsaid.normalized
  cases found with
  | none => exact ⟨elements, (List.append_nil l).symm ▸ h⟩
  | some element =>
    refine ⟨elements.insert element.1 element.2, h.insert (h.absent_iff.mpr fun hmem => ?_) _⟩
    rw [List.map_append, List.nodup_append] at hnodup
    exact hnodup.2.2 _ hmem _ List.mem_cons_self rfl

end

theorem lowerElements_cons {source_name : Text} {source index : Nat} {elements : Elements}
    {raw : RawElement} {rest : List RawElement} :
    lowerElements source_name source index elements (raw :: rest) =
      ((elementTurn source elements raw).mapError
        (invalidElement source_name index (kindText raw)) >>= fun elements =>
          lowerElements source_name source (index + 1) elements rest) := by
  rw [lowerElements]
  cases elementTurn source elements raw with
  | error kind => rfl
  | ok elements => rfl

/-- The elements are read when each of them is valid and no path stands twice. -/
theorem lowerElements_iff {source_name : Text} {source index : Nat} {elements result : Elements}
    {l : List (QName × FragmentElement)} (h : Holds elements.map l) {raws : List RawElement} :
    lowerElements source_name source index elements raws = .ok result ↔
      ∃ found, List.Forall₂ (Says source) raws found ∧
        Holds result.map (l ++ entriesOf found) := by
  induction raws generalizing index elements l with
  | nil =>
    constructor
    · intro hrun
      obtain rfl := Except.ok.inj hrun
      exact ⟨[], .nil, (List.append_nil l).symm ▸ h⟩
    · rintro ⟨found, hfound, hholds⟩
      cases hfound
      rw [show entriesOf [] = [] from rfl, List.append_nil] at hholds
      exact congrArg Except.ok (elements_ext (h.unique hholds))
  | cons raw rest ih =>
    rw [lowerElements_cons, bind_ok_iff]
    constructor
    · rintro ⟨elements', hturn, hrun⟩
      obtain ⟨element, hsaid, hholds⟩ := (elementTurn_iff h).mp (mapError_ok_iff.mp hturn)
      obtain ⟨found, hfound, hresult⟩ := (ih hholds).mp hrun
      refine ⟨element :: found, .cons hsaid hfound, ?_⟩
      rwa [entriesOf_cons, ← List.append_assoc]
    · rintro ⟨found, hfound, hresult⟩
      cases hfound with
      | @cons _ element _ found hsaid hfound =>
        rw [entriesOf_cons, ← List.append_assoc] at hresult
        have honce := hresult.once
        rw [List.map_append] at honce
        obtain ⟨elements', hholds⟩ := room_for h hsaid honce.of_append_left
        refine ⟨elements', ?_, (ih hholds).mpr ⟨found, hfound, hresult⟩⟩
        rw [(elementTurn_iff h).mpr ⟨element, hsaid, hholds⟩]
        rfl

/-- The document has this list of elements, and is not of another type. -/
def HasElements (document : RawDocument) (raws : List RawElement) : Prop :=
  document = .Object none (some raws) ∨ document = .Object (some (some DOCUMENT_TYPE)) (some raws)

theorem parseDocument_elements {read : Text → RawDocument} {source_name json : Text} {source : Nat}
    {raws : List RawElement} (h : HasElements (read json) raws) :
    parseDocument read source_name json source =
      lowerElements source_name source 0 Elements.empty raws := by
  unfold parseDocument
  rcases h with h | h
  · rw [h]
    rfl
  · rw [h]
    rfl

/-- A document without a list of elements is refused as such. -/
theorem parseDocument_refused {read : Text → RawDocument} {source_name json : Text} {source : Nat}
    (h : ∀ raws, ¬HasElements (read json) raws) :
    parseDocument read source_name json source = .error (.Json source_name) ∨
      ∃ message, parseDocument read source_name json source =
        .error (.InvalidDocument source_name message) := by
  unfold parseDocument
  cases hread : read json with
  | NotJson => exact .inl rfl
  | NotObject => exact .inr ⟨_, rfl⟩
  | Object document_type elements =>
    have hno (raws : List RawElement) (helements : elements = some raws) :
        document_type ≠ none ∧ document_type ≠ some (some DOCUMENT_TYPE) := by
      subst helements
      refine ⟨fun htype => h raws (.inl ?_), fun htype => h raws (.inr ?_)⟩
      · rw [hread, htype]
      · rw [hread, htype]
    cases document_type with
    | none =>
      cases elements with
      | none => exact .inr ⟨_, rfl⟩
      | some raws => exact absurd rfl (hno raws rfl).1
    | some value =>
      by_cases hdata : value = some DOCUMENT_TYPE
      · cases elements with
        | none =>
          refine .inr ⟨quoted (ascii "elements") ++ ascii " must be an array", ?_⟩
          simp only [validateDocumentType, if_pos hdata]
        | some raws => exact absurd (congrArg some hdata) (hno raws rfl).2
      · refine .inr ⟨quoted (ascii "_type") ++ ascii ", when present, must be " ++
          quoted DOCUMENT_TYPE, ?_⟩
        simp only [validateDocumentType, if_neg hdata]

/-- A document that is not refused as such has a list of elements. -/
theorem elements_of_run {read : Text → RawDocument} {source_name json : Text} {source : Nat}
    {result : Except ModelError Elements}
    (hrun : parseDocument read source_name json source = result)
    (hjson : result ≠ .error (.Json source_name))
    (hdocument : ∀ message, result ≠ .error (.InvalidDocument source_name message)) :
    ∃ raws, HasElements (read json) raws := by
  subst hrun
  by_contra hnone
  rcases parseDocument_refused (not_exists.mp hnone) with h | ⟨message, h⟩
  · exact hjson h
  · exact hdocument message h

theorem parseDocument_ok_iff {read : Text → RawDocument} {source_name json : Text} {source : Nat}
    {elements : Elements} :
    parseDocument read source_name json source = .ok elements ↔
      ∃ raws found, HasElements (read json) raws ∧ List.Forall₂ (Says source) raws found ∧
        Holds elements.map (entriesOf found) := by
  constructor
  · intro hrun
    obtain ⟨raws, hraws⟩ := elements_of_run hrun (fun h => by cases h) (fun _ h => by cases h)
    rw [parseDocument_elements hraws, lowerElements_iff Holds.empty] at hrun
    obtain ⟨found, hfound, hholds⟩ := hrun
    exact ⟨raws, found, hraws, hfound, hholds⟩
  · rintro ⟨raws, found, hraws, hfound, hholds⟩
    rw [parseDocument_elements hraws, lowerElements_iff Holds.empty]
    exact ⟨found, hfound, hholds⟩

end analyzer.pmcd_source
