-- Answers about a loaded model and the documents behind it: a member that is found is in
-- the document that its owner comes from, and one is said to be missing exactly where no
-- class of a sound hierarchy has it, neither there nor through an association.
import PureAnalyzer.ExtensionLaws
import PureAnalyzer.LoadedClasses

namespace analyzer.resolve.Resolver

open fragments model cst pure_source loader layers attempts

variable {graph : ModelGraph}

/-! ## The search through the levels -/

theorem not_declares_iff {name : Name} {path : QName} :
    ¬ Declares graph name path ↔ declaredAt graph name path = none := by
  rw [declares_iff, ← Option.isSome_iff_exists, Option.not_isSome_iff_eq_none]

theorem outcome_eq_found {members : List ResolvedMember} {member : ResolvedMember}
    (h : outcome members = .Found member) : members = [member] := by
  rcases members with _ | ⟨first, _ | ⟨second, rest⟩⟩
  · cases h
  · obtain rfl := Resolution.Found.inj h
    rfl
  · cases h

/-- Where a search is conclusive its first level is closed, and either answers or has
nothing of the name. -/
theorem searchLevels_step {name : Name} {level : List QName} {rest : List (List QName)}
    {answer : Resolution ResolvedMember}
    (hpresent : ∀ path ∈ level, (graph.cls path).isSome = true)
    (h : searchLevels graph name (level :: rest) = answer) (hconclusive : Conclusive answer) :
    (∀ path ∈ level, Closed graph path) ∧
      (selectBest graph (level.filterMap (declaredAt graph name)) = some answer ∨
        (∀ path ∈ level, declaredAt graph name path = none) ∧
          searchLevels graph name rest = answer) := by
  rw [searchLevels] at h
  cases hinspect : inspectLevel graph name level [] none with
  | error fault =>
    rw [hinspect] at h
    subst h
    exact absurd hconclusive (fault_inconclusive fault)
  | ok found =>
    obtain ⟨candidates, open_world⟩ := found
    rw [hinspect] at h
    cases open_world with
    | some reason =>
      subst h
      exact absurd hconclusive id
    | none =>
      have hclosed : ∀ path ∈ level, Closed graph path := by
        intro path hpath
        rcases closed_or_gap (hpresent path hpath) with hclosed | hgap
        · exact hclosed
        · obtain ⟨cls, hcls, hgap⟩ := hgap
          exact absurd rfl (inspectLevel_open (.inr ⟨path, hpath, cls, hcls, hgap⟩) hinspect)
      rw [inspectLevel_ok hclosed] at hinspect
      obtain ⟨rfl, -⟩ := Prod.mk.inj (Except.ok.inj hinspect)
      rw [List.nil_append] at h
      refine ⟨hclosed, ?_⟩
      cases hselect : selectBest graph (level.filterMap (declaredAt graph name)) with
      | some resolution =>
        simp only [hselect] at h
        subst h
        exact .inl rfl
      | none =>
        simp only [hselect] at h
        have hnone : level.filterMap (declaredAt graph name) = [] :=
          List.map_eq_nil_iff.mp (List.min?_eq_none_iff.mp (selectBest_eq_none.mp hselect))
        exact .inr ⟨List.filterMap_eq_nil_iff.mp hnone, h⟩

/-- A search that ends with no answer has seen closed classes only, none of which has the
name. -/
theorem searchLevels_missing {name : Name} {levels : List (List QName)}
    (hpresent : ∀ level ∈ levels, ∀ path ∈ level, (graph.cls path).isSome = true)
    (h : searchLevels graph name levels = .Missing) :
    ∀ level ∈ levels, ∀ path ∈ level,
      Closed graph path ∧ declaredAt graph name path = none := by
  induction levels with
  | nil =>
    intro level hlevel
    cases hlevel
  | cons level rest ih =>
    obtain ⟨hlevel, hrest⟩ := List.forall_mem_cons.mp hpresent
    obtain ⟨hclosed, hbest | ⟨hnone, hsearch⟩⟩ := searchLevels_step hlevel h trivial
    · obtain ⟨least, members, -, -, hout⟩ := selectBest_outcome hbest trivial
      exact absurd hout.symm (outcome_ne_missing _)
    · refine List.forall_mem_cons.mpr ⟨fun path hpath => ?_, ih hrest hsearch⟩
      exact ⟨hclosed path hpath, hnone path hpath⟩

/-- The member is what its owner, a closed class, has of the name. -/
def OfOwner (graph : ModelGraph) (name : Name) (member : ResolvedMember) : Prop :=
  Closed graph member.owner.path ∧ ∃ candidate,
    declaredAt graph name member.owner.path = some candidate ∧
      completeMember graph candidate = .ok member

theorem OfOwner.of_candidate {name : Name} {path : QName} {candidate : DirectMember}
    {member : ResolvedMember} (hclosed : Closed graph path)
    (hdeclared : declaredAt graph name path = some candidate)
    (hmember : completeMember graph candidate = .ok member) :
    member.owner.path = path ∧ OfOwner graph name member := by
  have howner : member.owner.path = path := by
    rw [completeMember_owner hmember, (declaredAt_facts hdeclared).1]
  subst howner
  exact ⟨rfl, hclosed, candidate, hdeclared, hmember⟩

/-- What a search finds is of a class of one of the levels. -/
theorem searchLevels_found {name : Name} {levels : List (List QName)} {member : ResolvedMember}
    (hpresent : ∀ level ∈ levels, ∀ path ∈ level, (graph.cls path).isSome = true)
    (h : searchLevels graph name levels = .Found member) :
    (∃ level ∈ levels, member.owner.path ∈ level) ∧ OfOwner graph name member := by
  induction levels with
  | nil => cases h
  | cons level rest ih =>
    obtain ⟨hlevel, hrest⟩ := List.forall_mem_cons.mp hpresent
    obtain ⟨hclosed, hbest | ⟨-, hsearch⟩⟩ := searchLevels_step hlevel h trivial
    · obtain ⟨least, members, -, hmembers, hout⟩ := selectBest_outcome hbest trivial
      have hperm : (sortByOwner members).Perm members := List.perm_insertionSort _ members
      rw [outcome_eq_found hout.symm] at hperm
      have hmem : member ∈ members := hperm.mem_iff.mp (List.mem_singleton_self member)
      obtain ⟨candidate, hcandidate, hcomplete⟩ := mapM_mem hmembers member hmem
      obtain ⟨path, hpath, hdeclared⟩ := mem_declared.mp (List.mem_filter.mp hcandidate).1
      obtain ⟨howner, hmember⟩ := OfOwner.of_candidate (hclosed path hpath) hdeclared hcomplete
      rw [← howner] at hpath
      exact ⟨⟨level, List.mem_cons_self, hpath⟩, hmember⟩
    · obtain ⟨⟨found, hfound, hmem⟩, hmember⟩ := ih hrest hsearch
      exact ⟨⟨found, List.mem_cons_of_mem _ hfound, hmem⟩, hmember⟩

theorem searchLevels_of_undeclared {name : Name} {levels : List (List QName)}
    (h : ∀ level ∈ levels, ∀ path ∈ level,
      Closed graph path ∧ declaredAt graph name path = none) :
    searchLevels graph name levels = .Missing := by
  induction levels with
  | nil => rfl
  | cons level rest ih =>
    obtain ⟨hlevel, hrest⟩ := List.forall_mem_cons.mp h
    have hinspect := @inspectLevel_ok graph name level [] fun path hpath => (hlevel path hpath).1
    rw [List.nil_append] at hinspect
    rw [searchLevels, hinspect]
    simp only [selectBest_none fun path hpath => (hlevel path hpath).2]
    exact ih hrest

/-! ## Answers -/

/-- Where the answer is conclusive the class is closed, and either its own member is the
answer, or the levels above it answer. -/
theorem resolveMember_step {origin : QName} {name : Name} {answer : Resolution ResolvedMember}
    (hpresent : (graph.cls origin).isSome = true) (h : resolveMember graph origin name = answer)
    (hconclusive : Conclusive answer) :
    Closed graph origin ∧
      ((∃ candidate member, declaredAt graph name origin = some candidate ∧
        completeMember graph candidate = .ok member ∧ answer = .Found member) ∨
      (declaredAt graph name origin = none ∧
        ∃ levels, hierarchyLevels graph origin = .ok levels ∧
          searchLevels graph name (levels.drop 1) = answer)) := by
  obtain ⟨cls, hcls⟩ := Option.isSome_iff_exists.mp hpresent
  unfold resolveMember at h
  rw [hcls] at h
  simp only at h
  split_ifs at h with hgap
  · subst h
    exact absurd hconclusive id
  refine ⟨⟨cls, hcls, Bool.eq_false_iff.mpr hgap⟩, ?_⟩
  simp only [directMember_declaredAt hcls] at h
  cases hdeclared : declaredAt graph name origin with
  | some candidate =>
    simp only [hdeclared] at h
    cases hmember : completeMember graph candidate with
    | error fault =>
      simp only [hmember] at h
      subst h
      exact absurd hconclusive (fault_inconclusive fault)
    | ok member =>
      simp only [hmember] at h
      exact .inl ⟨candidate, member, rfl, hmember, h.symm⟩
  | none =>
    simp only [hdeclared] at h
    cases hlevels : hierarchyLevels graph origin with
    | error fault =>
      simp only [hlevels] at h
      subst h
      exact absurd hconclusive (fault_inconclusive fault)
    | ok levels =>
      simp only [hlevels] at h
      exact .inr ⟨rfl, levels, rfl, h⟩

theorem resolveMember_above {origin : QName} {name : Name} {levels : List (List QName)}
    (hclosed : Closed graph origin) (hdeclared : declaredAt graph name origin = none)
    (hlevels : hierarchyLevels graph origin = .ok levels) :
    resolveMember graph origin name = searchLevels graph name (levels.drop 1) := by
  obtain ⟨cls, hcls, hgap⟩ := hclosed
  unfold resolveMember
  rw [hcls]
  simp only [hgap, Bool.false_eq_true, if_false, directMember_declaredAt hcls, hdeclared, hlevels]

theorem reaches_of_levels {origin : QName} {levels : List (List QName)}
    (h : hierarchyLevels graph origin = .ok levels) {level : List QName} (hlevel : level ∈ levels)
    {path : QName} (hpath : path ∈ level) : Reaches graph origin path := by
  obtain ⟨hlayers, -⟩ := levels_are_layers h
  obtain ⟨n, hn⟩ := List.getElem?_of_mem hlevel
  exact reaches_iff.mp (((hlayers n level hn).2.2 path).mp hpath).reaches

theorem present_above {origin : QName} {levels : List (List QName)}
    (h : hierarchyLevels graph origin = .ok levels) :
    ∀ level ∈ levels.drop 1, ∀ path ∈ level, (graph.cls path).isSome = true := by
  obtain ⟨hreached, -⟩ := validateHierarchy_ok (validateHierarchy_of_levels h)
  intro level hlevel path hpath
  exact hreached path (reaches_of_levels h (List.mem_of_mem_drop hlevel) hpath)

/-- A member that is found is of a class of the hierarchy. -/
theorem resolveMember_found {origin : QName} {name : Name} {member : ResolvedMember}
    (h : resolveMember graph origin name = .Found member) :
    Reaches graph origin member.owner.path ∧ OfOwner graph name member := by
  have hpresent : (graph.cls origin).isSome = true := by
    cases hcls : graph.cls origin with
    | some cls => rfl
    | none =>
      unfold resolveMember at h
      rw [hcls] at h
      cases h
  obtain ⟨hclosed, ⟨candidate, found, hdeclared, hmember, hfound⟩ | ⟨-, levels, hlevels, hsearch⟩⟩ :=
    resolveMember_step hpresent h trivial
  · obtain rfl := Resolution.Found.inj hfound
    obtain ⟨howner, hof⟩ := OfOwner.of_candidate hclosed hdeclared hmember
    rw [howner]
    exact ⟨.refl, hof⟩
  · obtain ⟨⟨level, hlevel, hmem⟩, hof⟩ := searchLevels_found (present_above hlevels) hsearch
    exact ⟨reaches_of_levels hlevels (List.mem_of_mem_drop hlevel) hmem, hof⟩

/-- A member is missing exactly when the hierarchy is sound, every class of it is closed,
and none declares the name. -/
theorem resolveMember_missing_iff {origin : QName} {name : Name}
    (hpresent : (graph.cls origin).isSome = true) :
    resolveMember graph origin name = .Missing ↔
      (∃ levels, hierarchyLevels graph origin = .ok levels) ∧
        ∀ v, Reaches graph origin v → Closed graph v ∧ ¬ Declares graph name v := by
  constructor
  · intro h
    obtain ⟨hclosed, ⟨candidate, member, -, -, hfound⟩ | ⟨hdeclared, levels, hlevels, hsearch⟩⟩ :=
      resolveMember_step hpresent h trivial
    · cases hfound
    refine ⟨⟨levels, hlevels⟩, fun v hv => ?_⟩
    have hmissing := searchLevels_missing (present_above hlevels) hsearch
    obtain ⟨hlayers, hall⟩ := levels_are_layers hlevels
    obtain ⟨rest, rfl⟩ := Layers.origin hlayers (hall 0 origin (atDistance_zero.mpr rfl))
    obtain ⟨level, hlevel, hmem⟩ :=
      List.mem_flatten.mp ((hlayers.mem_iff hall v).mpr (reaches_iff.mpr hv))
    rw [not_declares_iff]
    -- The first level is the class itself, which the search leaves out.
    rcases List.mem_cons.mp hlevel with rfl | hlevel
    · obtain rfl := List.mem_singleton.mp hmem
      exact ⟨hclosed, hdeclared⟩
    · exact hmissing level hlevel v hmem
  · rintro ⟨⟨levels, hlevels⟩, hall⟩
    have hundeclared (v : QName) (hv : Reaches graph origin v) :=
      And.intro (hall v hv).1 (not_declares_iff.mp (hall v hv).2)
    obtain ⟨hclosed, hdeclared⟩ := hundeclared origin .refl
    rw [resolveMember_above hclosed hdeclared hlevels]
    apply searchLevels_of_undeclared
    intro level hlevel path hpath
    exact hundeclared path (reaches_of_levels hlevels (List.mem_of_mem_drop hlevel) hpath)

/-! ## Loaded models -/

/-- What a loaded model answers for certain, no model with more in it overturns. -/
theorem loaded_answers_stay {parseDocument : Text → Text → Nat → Except ModelError Elements}
    {parsePureDocument : Text → Text → Nat → Except ModelError ModelFragment}
    {documents : List ModelDocument} {graph' : ModelGraph} {origin : QName} {name : Name}
    (hload : loadModelDocuments parseDocument parsePureDocument documents = .ok graph)
    (hgrows : Extends graph graph') (hpresent : (graph.cls origin).isSome = true)
    (hconclusive : Conclusive (resolveMember graph origin name))
    (hconclusive' : Conclusive (resolveMember graph' origin name)) :
    SameAnswer (resolveMember graph origin name) (resolveMember graph' origin name) :=
  resolveMember_agree hgrows (loadModelDocuments_linked hload) hpresent hconclusive hconclusive'

/-- The last document that declares the class has no member of the name in it, and no
association of the model has an end of the name at the class. -/
structure NamedNowhere (read : Text → pmcd_source.RawDocument) (lex : Text → List Token)
    (documents : List ModelDocument) (sources : List ReadSource) (graph : ModelGraph)
    (name : Name) (path : QName) : Prop where
  document : ∃ s document declared, lastOf sources path = some s ∧
    documents[s.info.id]? = some document ∧ s.get path = some (.Class declared) ∧
    Origin read lex s.info.id declared document ∧
    declared.properties.get name = none ∧ declared.qualified_properties.get name = none
  ends : ∀ x ∈ directedEnds graph.associations, x.2.owner = path → x.2.property.name ≠ name

theorem namedNowhere_iff {read : Text → pmcd_source.RawDocument} {lex : Text → List Token}
    {documents : List ModelDocument} {sources : List ReadSource}
    (hlexed : ∀ document ∈ documents, Lexed lex document)
    (hread : readDocuments read lex documents = .ok sources) (hloaded : Loaded sources graph)
    {name : Name} {path : QName} (hclosed : Closed graph path) :
    NamedNowhere read lex documents sources graph name path ↔ ¬ Declares graph name path := by
  obtain ⟨cls, hcls, hgap⟩ := hclosed
  obtain ⟨s, document, found, hlast, hdocument, hget, horigin, houtline, -⟩ :=
    source_of_loaded hlexed hread hloaded hcls hgap
  have hqualified : cls.qualified_properties = found.qualified_properties := by
    have h := congrArg ClassInfo.qualified_properties houtline
    exact h
  have hproperties := properties_of_loaded hloaded hcls (classOf_of_last hlast hget) name
  constructor
  · rintro ⟨⟨s', -, declared, hlast', -, hget', -, hproperty, hnone⟩, hends⟩ hdeclares
    obtain rfl := Option.some.inj (hlast.symm.trans hlast')
    obtain rfl := FragmentElement.Class.inj (Option.some.inj (hget.symm.trans hget'))
    obtain ⟨cls', hcls', hdeclares⟩ := hdeclares
    obtain rfl := Option.some.inj (hcls.symm.trans hcls')
    rcases hdeclares with hsome | hsome
    · rw [hqualified, hnone] at hsome
      cases hsome
    · obtain ⟨p, hp⟩ := Option.isSome_iff_exists.mp hsome
      rcases (hproperties p).mp hp with hdeclared | ⟨x, hx, howner, hname, -⟩
      · rw [hproperty] at hdeclared
        cases hdeclared
      · exact hends x hx howner hname
  · intro hundeclared
    have hnone : cls.properties.get name = none := by
      by_contra hsome
      exact hundeclared ⟨cls, hcls, .inr (Option.isSome_iff_ne_none.mpr hsome)⟩
    refine ⟨⟨s, document, found, hlast, hdocument, hget, horigin, ?_, ?_⟩,
      fun x hx howner hname => ?_⟩
    · cases hdeclared : found.properties.get name with
      | none => rfl
      | some p =>
        rw [(hproperties p).mpr (.inl hdeclared)] at hnone
        cases hnone
    · rw [← hqualified]
      by_contra hsome
      exact hundeclared ⟨cls, hcls, .inl (Option.isSome_iff_ne_none.mpr hsome)⟩
    · rw [(hproperties x.2.property).mpr (.inr ⟨x, hx, howner, hname, rfl⟩)] at hnone
      cases hnone

/-- The last document that declares the owner of the member has a member of the name and
the target in it, or an association of the model has such an end at the owner. -/
def FoundIn (read : Text → pmcd_source.RawDocument) (lex : Text → List Token)
    (documents : List ModelDocument) (sources : List ReadSource) (graph : ModelGraph)
    (name : Name) (member : ResolvedMember) : Prop :=
  ∃ s document declared, lastOf sources member.owner.path = some s ∧
    documents[s.info.id]? = some document ∧
    s.get member.owner.path = some (.Class declared) ∧
    Origin read lex s.info.id declared document ∧
    ((∃ p, declared.qualified_properties.get name = some p ∧ member.target = p.target) ∨
      (∃ p, declared.properties.get name = some p ∧ member.target = p.target) ∨
      ∃ x ∈ directedEnds graph.associations, x.2.owner = member.owner.path ∧
        x.2.property.name = name ∧ member.target = x.2.property.target)

theorem completeMember_target {candidate : DirectMember} {member : ResolvedMember}
    (h : completeMember graph candidate = .ok member) :
    member.target = candidate.member.target := by
  obtain ⟨arity, rfl⟩ := completeMember_dated h
  rfl

theorem foundIn_of_owner {read : Text → pmcd_source.RawDocument} {lex : Text → List Token}
    {documents : List ModelDocument} {sources : List ReadSource}
    (hlexed : ∀ document ∈ documents, Lexed lex document)
    (hread : readDocuments read lex documents = .ok sources) (hloaded : Loaded sources graph)
    {name : Name} {member : ResolvedMember} (h : OfOwner graph name member) :
    FoundIn read lex documents sources graph name member := by
  obtain ⟨⟨cls, hcls, hgap⟩, candidate, hdeclared, hmember⟩ := h
  obtain ⟨s, document, found, hlast, hdocument, hget, horigin, houtline, -⟩ :=
    source_of_loaded hlexed hread hloaded hcls hgap
  refine ⟨s, document, found, hlast, hdocument, hget, horigin, ?_⟩
  obtain ⟨-, cls', hcls', hhas⟩ := declaredAt_facts hdeclared
  obtain rfl := Option.some.inj (hcls.symm.trans hcls')
  rw [completeMember_target hmember]
  rcases hhas with ⟨p, hp, htarget⟩ | ⟨p, hp, htarget⟩
  · rcases (properties_of_loaded hloaded hcls (classOf_of_last hlast hget) name p).mp hp with
      hp | ⟨x, hx, howner, hname, rfl⟩
    · exact .inr (.inl ⟨p, hp, htarget⟩)
    · exact .inr (.inr ⟨x, hx, howner, hname, htarget⟩)
  · have hqualified := congrArg ClassInfo.qualified_properties houtline
    refine .inl ⟨p, ?_, htarget⟩
    show (outline found).qualified_properties.get name = some p
    rw [← hqualified]
    exact hp

/-- A member that the resolver finds at a class of a loaded model is of a class of the
hierarchy without a gap, and the last document that declares this class has it, with the
same target, or an association of the model does. -/
theorem found_members_are_in_documents (read : Text → pmcd_source.RawDocument)
    (lex : Text → List Token) (documents : List ModelDocument)
    (hlexed : ∀ document ∈ documents, Lexed lex document) (graph : ModelGraph)
    (h : load read lex documents = .ok graph) (origin : QName) (name : Name)
    (member : ResolvedMember) (hfound : resolveMember graph origin name = .Found member) :
    ∃ sources, readDocuments read lex documents = .ok sources ∧
      Reaches graph origin member.owner.path ∧ Closed graph member.owner.path ∧
      FoundIn read lex documents sources graph name member := by
  obtain ⟨sources, hsources, hloaded⟩ := loaded_of_load h
  obtain ⟨hreaches, hmember⟩ := resolveMember_found hfound
  exact ⟨sources, hsources, hreaches, hmember.1,
    foundIn_of_owner hlexed hsources hloaded hmember⟩

/-- The member of an answer that has just one. -/
def foundOf : Resolution ResolvedMember → Option ResolvedMember
  | .Found member => some member
  | _ => none

theorem foundOf_eq_some {answer : Resolution ResolvedMember} {member : ResolvedMember}
    (h : foundOf answer = some member) : answer = .Found member := by
  cases answer with
  | Found found => rw [Option.some.inj h]
  | _ => cases h

/-- The class that both sample documents declare has one member and no other. -/
theorem samples_answer : ∃ graph member, load readSample lexSample sampleDocuments = .ok graph ∧
    resolveMember graph sampleClassPath (sampleName 'a') = .Found member ∧
    (graph.cls sampleClassPath).isSome = true ∧
    resolveMember graph sampleClassPath (sampleName 'b') = .Missing := by
  have hrun : (load readSample lexSample sampleDocuments).toOption.any (fun graph =>
      (foundOf (resolveMember graph sampleClassPath (sampleName 'a'))).isSome &&
        ((graph.cls sampleClassPath).isSome &&
          resolveMember graph sampleClassPath (sampleName 'b') = .Missing)) = true := by
    decide +kernel
  obtain ⟨graph, -, h, -⟩ := samples_load
  rw [h] at hrun
  obtain ⟨hfound, hrest⟩ := Bool.and_eq_true_iff.mp hrun
  obtain ⟨hpresent, hmissing⟩ := Bool.and_eq_true_iff.mp hrest
  obtain ⟨member, hmember⟩ := Option.isSome_iff_exists.mp hfound
  exact ⟨graph, member, h, foundOf_eq_some hmember, hpresent, of_decide_eq_true hmissing⟩

theorem the_sample_member_is_found :
    ∃ graph member sources, load readSample lexSample sampleDocuments = .ok graph ∧
      resolveMember graph sampleClassPath (sampleName 'a') = .Found member ∧
      readDocuments readSample lexSample sampleDocuments = .ok sources ∧
      FoundIn readSample lexSample sampleDocuments sources graph (sampleName 'a') member := by
  obtain ⟨graph, member, h, hfound, -, -⟩ := samples_answer
  obtain ⟨sources, hsources, -, -, hin⟩ := found_members_are_in_documents readSample lexSample
    sampleDocuments samples_lexed graph h sampleClassPath (sampleName 'a') member hfound
  exact ⟨graph, member, sources, h, hfound, hsources, hin⟩

/-- The resolver says that a class of a loaded model has no member of a name exactly when
its hierarchy is sound, and for every class of the hierarchy the last document that
declares it says all of it and has no such member, and no end of an association adds
one. -/
theorem missing_members_are_in_no_document (read : Text → pmcd_source.RawDocument)
    (lex : Text → List Token) (documents : List ModelDocument)
    (hlexed : ∀ document ∈ documents, Lexed lex document) (graph : ModelGraph)
    (h : load read lex documents = .ok graph) (origin : QName) (name : Name)
    (hpresent : (graph.cls origin).isSome = true) :
    ∃ sources, readDocuments read lex documents = .ok sources ∧
      (resolveMember graph origin name = .Missing ↔
        (∃ levels, hierarchyLevels graph origin = .ok levels) ∧
          ∀ v, Reaches graph origin v →
            Closed graph v ∧ NamedNowhere read lex documents sources graph name v) := by
  obtain ⟨sources, hsources, hloaded⟩ := loaded_of_load h
  refine ⟨sources, hsources, ?_⟩
  rw [resolveMember_missing_iff hpresent]
  refine and_congr_right fun _ => forall_congr' fun v => imp_congr_right fun _ => ?_
  exact and_congr_right fun hclosed => (namedNowhere_iff hlexed hsources hloaded hclosed).symm

/-- The class that both sample documents declare has no second member. -/
theorem the_sample_class_has_no_member :
    ∃ graph sources, load readSample lexSample sampleDocuments = .ok graph ∧
      readDocuments readSample lexSample sampleDocuments = .ok sources ∧
      ∀ v, Reaches graph sampleClassPath v → Closed graph v ∧
        NamedNowhere readSample lexSample sampleDocuments sources graph (sampleName 'b') v := by
  obtain ⟨graph, -, h, -, hpresent, hmissing⟩ := samples_answer
  obtain ⟨sources, hsources, hiff⟩ := missing_members_are_in_no_document readSample lexSample
    sampleDocuments samples_lexed graph h sampleClassPath (sampleName 'b') hpresent
  exact ⟨graph, sources, h, hsources, (hiff.mp hmissing).2⟩

end analyzer.resolve.Resolver
