-- The laws of member resolution: past the check of the hierarchy the answer is
-- what the nearest level declares with the best priority, and there is none
-- only where no class of the hierarchy declares the name.
import PureAnalyzer.HierarchyLaws

namespace analyzer.resolve.Resolver

open fragments model sortedsets depthfirst layers

variable {graph : ModelGraph}

/-! ## What a class declares -/

/-- The class itself has a member of the name. -/
def Declares (graph : ModelGraph) (name : Name) (path : QName) : Prop :=
  ∃ cls, graph.cls path = some cls ∧
    ((cls.qualified_properties.get name).isSome = true ∨ (cls.properties.get name).isSome = true)

/-- The definition of a name that a class itself has. -/
def declaredAt (graph : ModelGraph) (name : Name) (path : QName) : Option DirectMember :=
  (graph.cls path).bind fun cls =>
    match directMember graph path cls name with
    | .error _ => none
    | .ok found => found

/-- A class itself defines a name, as this kind of member with this target and
multiplicity. The number says how early the definition counts in its level:
what was generated first, then what the user wrote as a qualified property, then
plain properties, and ends of associations last. A qualified property hides
a plain one of its name. -/
inductive Defines (cls : ClassInfo) (name : Name) :
    Nat → ResolvedMemberKind → TypeRef → Multiplicity → Prop
  | generated {p} : cls.qualified_properties.get name = some p → p.kind ≠ .UserQualified →
      Defines cls name 0 (.Qualified p.kind) p.target p.multiplicity
  | user {p} : cls.qualified_properties.get name = some p → p.kind = .UserQualified →
      Defines cls name 1 (.Qualified .UserQualified) p.target p.multiplicity
  | property {p} : cls.qualified_properties.get name = none →
      cls.properties.get name = some p → p.association = none →
      Defines cls name 2 .Property p.target p.multiplicity
  | association_end {p a} : cls.qualified_properties.get name = none →
      cls.properties.get name = some p → p.association = some a →
      Defines cls name 3 (.AssociationEnd a) p.target p.multiplicity

/-- The place of the class's definition of the name among others. -/
def DefinedAs (graph : ModelGraph) (name : Name) (path : QName) (place : Nat) : Prop :=
  ∃ cls kind target multiplicity, graph.cls path = some cls ∧
    Defines cls name place kind target multiplicity

/-- No target of a member of the class has a hierarchy at fault. -/
def TargetsSound (graph : ModelGraph) (cls : ClassInfo) : Prop :=
  (∀ name p, cls.properties.get name = some p → (graph.cls p.target.rawType).isSome = true →
    ∃ levels, hierarchyLevels graph p.target.rawType = .ok levels) ∧
  ∀ name p, cls.qualified_properties.get name = some p →
    (graph.cls p.target.rawType).isSome = true →
      ∃ levels, hierarchyLevels graph p.target.rawType = .ok levels

theorem resolvedClass_ok {path : QName} {cls : ClassInfo} (h : graph.cls path = some cls) :
    ∃ owner, resolvedClass graph path cls = .ok owner ∧ owner.path = path := by
  have hindexed := graph.indexed path
  rw [show graph.classes.get path = some cls from h, Option.isSome_some] at hindexed
  obtain ⟨id, hid⟩ := Option.isSome_iff_exists.mp hindexed
  unfold resolvedClass
  rw [show graph.classId path = some id from hid]
  exact ⟨_, rfl, rfl⟩

theorem propertyMember_facts (owner : ResolvedClass) (name : Name) (cls : ClassInfo)
    (property : PropInfo) :
    (propertyMember graph owner name cls property).member.owner = owner ∧
      (propertyMember graph owner name cls property).member.target = property.target := by
  unfold propertyMember
  cases property.association with
  | none => exact ⟨rfl, rfl⟩
  | some association =>
    simp only
    cases graph.associations.find? (·.path = association) with
    | none => exact ⟨rfl, rfl⟩
    | some item => exact ⟨rfl, rfl⟩

/-- Looking into a class of the model fails for no reason of the model. -/
theorem directMember_ok {path : QName} {cls : ClassInfo} (h : graph.cls path = some cls)
    (name : Name) : ∃ found, directMember graph path cls name = .ok found := by
  obtain ⟨owner, howner, -⟩ := resolvedClass_ok h
  unfold directMember
  rw [howner]
  cases cls.qualified_properties.get name with
  | some property => exact ⟨_, rfl⟩
  | none => exact ⟨_, rfl⟩

theorem directMember_declaredAt {path : QName} {cls : ClassInfo} (h : graph.cls path = some cls)
    (name : Name) : directMember graph path cls name = .ok (declaredAt graph name path) := by
  obtain ⟨found, hfound⟩ := directMember_ok h name
  unfold declaredAt
  rw [h, Option.bind_some, hfound]

/-- A class has a definition of the names that it declares. -/
theorem declares_iff {name : Name} {path : QName} :
    Declares graph name path ↔ ∃ candidate, declaredAt graph name path = some candidate := by
  cases hcls : graph.cls path with
  | none =>
    unfold Declares declaredAt
    simp [hcls]
  | some cls =>
    obtain ⟨owner, howner, -⟩ := resolvedClass_ok hcls
    have hdeclares : Declares graph name path ↔
        (cls.qualified_properties.get name).isSome = true ∨
          (cls.properties.get name).isSome = true := by
      unfold Declares
      rw [hcls]
      simp
    rw [hdeclares]
    unfold declaredAt directMember
    rw [hcls, Option.bind_some, howner]
    cases hqualified : cls.qualified_properties.get name with
    | some property => simp
    | none =>
      cases hproperty : cls.properties.get name with
      | some property => simp
      | none => simp

/-- A definition is owned by its class, and its target is that of a member. -/
theorem declaredAt_facts {name : Name} {path : QName} {candidate : DirectMember}
    (h : declaredAt graph name path = some candidate) :
    candidate.member.owner.path = path ∧
      ∃ cls, graph.cls path = some cls ∧
        ((∃ p, cls.properties.get name = some p ∧ candidate.member.target = p.target) ∨
          ∃ p, cls.qualified_properties.get name = some p ∧
            candidate.member.target = p.target) := by
  obtain ⟨cls, hcls, hfound⟩ := Option.bind_eq_some_iff.mp h
  obtain ⟨owner, howner, hpath⟩ := resolvedClass_ok hcls
  unfold directMember at hfound
  rw [howner] at hfound
  cases hqualified : cls.qualified_properties.get name with
  | some property =>
    rw [hqualified] at hfound
    obtain rfl := Option.some.inj hfound
    exact ⟨hpath, cls, hcls, .inr ⟨property, hqualified, rfl⟩⟩
  | none =>
    rw [hqualified] at hfound
    obtain ⟨property, hproperty, rfl⟩ := Option.map_eq_some_iff.mp hfound
    obtain ⟨hmember, htarget⟩ := @propertyMember_facts graph owner name cls property
    refine ⟨?_, cls, hcls, .inl ⟨property, hproperty, htarget⟩⟩
    rw [hmember, hpath]

theorem Defines.place_eq {cls : ClassInfo} {name : Name} {place place' : Nat}
    {kind kind' : ResolvedMemberKind} {target target' : TypeRef}
    {multiplicity multiplicity' : Multiplicity}
    (h : Defines cls name place kind target multiplicity)
    (h' : Defines cls name place' kind' target' multiplicity') : place = place' := by
  cases h with
  | generated hget hkind =>
    cases h' with
    | generated => rfl
    | user hget' hkind' =>
      rw [hget] at hget'
      obtain rfl := Option.some.inj hget'
      exact absurd hkind' hkind
    | property hnone => rw [hget] at hnone; cases hnone
    | association_end hnone => rw [hget] at hnone; cases hnone
  | user hget hkind =>
    cases h' with
    | user => rfl
    | generated hget' hkind' =>
      rw [hget] at hget'
      obtain rfl := Option.some.inj hget'
      exact absurd hkind hkind'
    | property hnone => rw [hget] at hnone; cases hnone
    | association_end hnone => rw [hget] at hnone; cases hnone
  | property hnone hget hassociation =>
    cases h' with
    | property => rfl
    | generated hget' => rw [hnone] at hget'; cases hget'
    | user hget' => rw [hnone] at hget'; cases hget'
    | association_end _ hget' hassociation' =>
      rw [hget] at hget'
      obtain rfl := Option.some.inj hget'
      rw [hassociation] at hassociation'
      cases hassociation'
  | association_end hnone hget hassociation =>
    cases h' with
    | association_end => rfl
    | generated hget' => rw [hnone] at hget'; cases hget'
    | user hget' => rw [hnone] at hget'; cases hget'
    | property _ hget' hassociation' =>
      rw [hget] at hget'
      obtain rfl := Option.some.inj hget'
      rw [hassociation] at hassociation'
      cases hassociation'

theorem propertyMember_defines {owner : ResolvedClass} {cls : ClassInfo} {name : Name}
    {p : PropInfo} (hqualified : cls.qualified_properties.get name = none)
    (hp : cls.properties.get name = some p) :
    Defines cls name (propertyMember graph owner name cls p).priority.rank
      (propertyMember graph owner name cls p).member.kind p.target p.multiplicity ∧
      (propertyMember graph owner name cls p).member.name = name ∧
      (propertyMember graph owner name cls p).member.target = p.target ∧
      (propertyMember graph owner name cls p).member.multiplicity = p.multiplicity := by
  unfold propertyMember
  cases hassociation : p.association with
  | none => exact ⟨.property hqualified hp hassociation, rfl, rfl, rfl⟩
  | some association =>
    simp only
    cases graph.associations.find? (·.path = association) with
    | none => exact ⟨.association_end hqualified hp hassociation, rfl, rfl, rfl⟩
    | some item => exact ⟨.association_end hqualified hp hassociation, rfl, rfl, rfl⟩

/-- What is found in a class is what it defines, with the priority of its place. -/
theorem declaredAt_defines {name : Name} {path : QName} {candidate : DirectMember}
    (h : declaredAt graph name path = some candidate) :
    candidate.member.name = name ∧ ∃ cls, graph.cls path = some cls ∧
      Defines cls name candidate.priority.rank candidate.member.kind candidate.member.target
        candidate.member.multiplicity := by
  obtain ⟨cls, hcls, hfound⟩ := Option.bind_eq_some_iff.mp h
  obtain ⟨owner, howner, -⟩ := resolvedClass_ok hcls
  unfold directMember at hfound
  rw [howner] at hfound
  cases hqualified : cls.qualified_properties.get name with
  | some property =>
    rw [hqualified] at hfound
    obtain rfl := Option.some.inj hfound
    refine ⟨rfl, cls, hcls, ?_⟩
    by_cases huser : property.kind = .UserQualified
    · simp only [huser, if_true, qualifiedMember]
      exact .user hqualified huser
    · simp only [huser, if_false]
      exact .generated hqualified huser
  | none =>
    rw [hqualified] at hfound
    obtain ⟨property, hproperty, rfl⟩ := Option.map_eq_some_iff.mp hfound
    obtain ⟨hdefines, hname, htarget, hmultiplicity⟩ :=
      @propertyMember_defines graph owner cls name property hqualified hproperty
    rw [htarget, hmultiplicity]
    exact ⟨hname, cls, hcls, hdefines⟩

theorem definedAs_of_declaredAt {name : Name} {path : QName} {candidate : DirectMember}
    (h : declaredAt graph name path = some candidate) :
    DefinedAs graph name path candidate.priority.rank := by
  obtain ⟨-, cls, hcls, hdefines⟩ := declaredAt_defines h
  exact ⟨cls, _, _, _, hcls, hdefines⟩

theorem DefinedAs.declaredAt {name : Name} {path : QName} {place : Nat}
    (h : DefinedAs graph name path place) :
    ∃ candidate, declaredAt graph name path = some candidate ∧ candidate.priority.rank = place := by
  obtain ⟨cls, kind, target, multiplicity, hcls, hdefines⟩ := h
  have hdeclares : Declares graph name path := by
    refine ⟨cls, hcls, ?_⟩
    cases hdefines with
    | generated hget => exact .inl (by rw [hget]; rfl)
    | user hget => exact .inl (by rw [hget]; rfl)
    | property _ hget => exact .inr (by rw [hget]; rfl)
    | association_end _ hget => exact .inr (by rw [hget]; rfl)
  obtain ⟨candidate, hcandidate⟩ := declares_iff.mp hdeclares
  obtain ⟨-, cls', hcls', hdefines'⟩ := declaredAt_defines hcandidate
  rw [hcls] at hcls'
  obtain rfl := Option.some.inj hcls'
  exact ⟨candidate, hcandidate, hdefines'.place_eq hdefines⟩

/-! ## Completing a definition -/

/-- Only the dates of the target are added to a definition. -/
theorem completeMember_dated {candidate : DirectMember} {member : ResolvedMember}
    (h : completeMember graph candidate = .ok member) :
    ∃ arity, { candidate.member with target_temporal_arity := arity } = member := by
  unfold completeMember at h
  split at h
  · cases h
  · exact ⟨_, Except.ok.inj h⟩

theorem completeMember_owner {candidate : DirectMember} {member : ResolvedMember}
    (h : completeMember graph candidate = .ok member) : member.owner = candidate.member.owner := by
  obtain ⟨arity, rfl⟩ := completeMember_dated h
  rfl

theorem effectiveTemporalArity_ok {target : QName}
    (h : (graph.cls target).isSome = true → ∃ levels, hierarchyLevels graph target = .ok levels) :
    ∃ arity, effectiveTemporalArity graph target = .ok arity := by
  unfold effectiveTemporalArity
  by_cases hmissing : (graph.cls target).isNone = true
  · rw [if_pos hmissing]
    exact ⟨_, rfl⟩
  · rw [if_neg hmissing]
    obtain ⟨levels, hlevels⟩ := h (present_of_not_missing hmissing)
    rw [hlevels]
    exact ⟨_, rfl⟩

/-- Only a target's hierarchy can be at fault. -/
theorem completeMember_ok {name : Name} {path : QName} {candidate : DirectMember}
    (h : declaredAt graph name path = some candidate)
    (hsound : ∀ cls, graph.cls path = some cls → TargetsSound graph cls) :
    ∃ member, completeMember graph candidate = .ok member := by
  obtain ⟨-, cls, hcls, htarget⟩ := declaredAt_facts h
  have harity : ∃ arity, effectiveTemporalArity graph candidate.member.target.rawType =
      .ok arity := by
    apply effectiveTemporalArity_ok
    rcases htarget with ⟨p, hp, heq⟩ | ⟨p, hp, heq⟩
    · rw [heq]
      exact (hsound cls hcls).1 name p hp
    · rw [heq]
      exact (hsound cls hcls).2 name p hp
  obtain ⟨arity, harity⟩ := harity
  unfold completeMember targetTemporalArity
  cases associationArity graph candidate.association with
  | none =>
    simp only [harity]
    exact ⟨_, rfl⟩
  | some overlay => exact ⟨_, rfl⟩

/-! ## One level -/

/-- A class of the model that is closed. -/
def Closed (graph : ModelGraph) (path : QName) : Prop :=
  ∃ cls, graph.cls path = some cls ∧ cls.coverage_gap = false

/-- A level with every class of it in the model, closed, and with sound targets. -/
structure Searchable (graph : ModelGraph) (path : QName) : Prop where
  present : (graph.cls path).isSome = true
  closed : ∀ cls, graph.cls path = some cls → cls.coverage_gap = false
  sound : ∀ cls, graph.cls path = some cls → TargetsSound graph cls

theorem Searchable.isClosed {path : QName} (h : Searchable graph path) : Closed graph path := by
  obtain ⟨cls, hcls⟩ := Option.isSome_iff_exists.mp h.present
  exact ⟨cls, hcls, h.closed cls hcls⟩

theorem inspectLevel_ok {name : Name} {level : List QName} {candidates : List DirectMember}
    (h : ∀ path ∈ level, Closed graph path) :
    inspectLevel graph name level candidates none =
      .ok (candidates ++ level.filterMap (declaredAt graph name), none) := by
  induction level generalizing candidates with
  | nil => rw [inspectLevel, List.filterMap_nil, List.append_nil]
  | cons path rest ih =>
    obtain ⟨cls, hcls, hgap⟩ := h path List.mem_cons_self
    have hrest := fun other hother => h other (List.mem_cons_of_mem _ hother)
    rw [inspectLevel, hcls]
    simp only [hgap, Bool.false_eq_true, if_false, directMember_declaredAt hcls]
    cases hfound : declaredAt graph name path with
    | none =>
      simp only
      rw [ih hrest, List.filterMap_cons_none hfound]
    | some candidate =>
      simp only
      rw [ih hrest, List.filterMap_cons_some hfound, List.append_assoc, List.singleton_append]

theorem mapM_completeMember {name : Name} {candidates : List DirectMember}
    (h : ∀ candidate ∈ candidates, ∃ path, Searchable graph path ∧
      declaredAt graph name path = some candidate) :
    ∃ members, candidates.mapM (completeMember graph) = .ok members ∧
      List.Forall₂ (fun candidate member => completeMember graph candidate = .ok member)
        candidates members := by
  induction candidates with
  | nil => exact ⟨[], rfl, .nil⟩
  | cons candidate rest ih =>
    obtain ⟨path, hpath, hdeclared⟩ := h candidate List.mem_cons_self
    obtain ⟨member, hmember⟩ := completeMember_ok hdeclared hpath.sound
    obtain ⟨members, hmembers, hall⟩ := ih fun other hother =>
      h other (List.mem_cons_of_mem _ hother)
    refine ⟨member :: members, ?_, .cons hmember hall⟩
    rw [List.mapM_cons, hmember, hmembers]
    rfl

/-- The answer that members give: the one of them, or all. -/
def outcome : List ResolvedMember → Resolution ResolvedMember
  | [member] => .Found member
  | members => .Ambiguous members

/-- The class defines the name, and none of the classes has a definition that counts
earlier. -/
def Best (graph : ModelGraph) (name : Name) (classes : QName → Prop) (path : QName) : Prop :=
  classes path ∧ ∃ place, DefinedAs graph name path place ∧
    ∀ other place', classes other → DefinedAs graph name other place' → place ≤ place'

/-- The best definitions among some classes, in the order of their owners. -/
structure Winners (graph : ModelGraph) (name : Name) (classes : QName → Prop)
    (winners : List ResolvedMember) : Prop where
  nonempty : winners ≠ []
  sorted : (winners.map fun member => member.owner.path).Pairwise (· < ·)
  best : ∀ path, path ∈ winners.map (fun member => member.owner.path) ↔
    Best graph name classes path
  defined : ∀ member ∈ winners, member.name = name ∧ ∃ cls place,
    graph.cls member.owner.path = some cls ∧
      Defines cls name place member.kind member.target member.multiplicity
  complete : ∀ member ∈ winners, ∃ candidate,
    declaredAt graph name member.owner.path = some candidate ∧
      completeMember graph candidate = .ok member

theorem best_iff {name : Name} {classes : QName → Prop} {path : QName} :
    Best graph name classes path ↔
      classes path ∧ ∃ candidate, declaredAt graph name path = some candidate ∧
        ∀ other candidate', classes other → declaredAt graph name other = some candidate' →
          candidate.priority.rank ≤ candidate'.priority.rank := by
  constructor
  · rintro ⟨hclass, place, hplace, hleast⟩
    obtain ⟨candidate, hcandidate, rfl⟩ := hplace.declaredAt
    exact ⟨hclass, candidate, hcandidate, fun other candidate' hother hcandidate' =>
      hleast other _ hother (definedAs_of_declaredAt hcandidate')⟩
  · rintro ⟨hclass, candidate, hcandidate, hleast⟩
    refine ⟨hclass, _, definedAs_of_declaredAt hcandidate, fun other place' hother hplace' => ?_⟩
    obtain ⟨candidate', hcandidate', rfl⟩ := hplace'.declaredAt
    exact hleast other candidate' hother hcandidate'

theorem mem_declared {name : Name} {level : List QName} {candidate : DirectMember} :
    candidate ∈ level.filterMap (declaredAt graph name) ↔
      ∃ path ∈ level, declaredAt graph name path = some candidate := List.mem_filterMap

theorem owners_declared {name : Name} {level : List QName} {candidates : List DirectMember}
    (h : List.Sublist candidates (level.filterMap (declaredAt graph name))) :
    List.Sublist (candidates.map fun candidate => candidate.member.owner.path) level := by
  refine (h.map _).trans ?_
  clear h
  induction level with
  | nil => exact .slnil
  | cons path level ih =>
    cases hfound : declaredAt graph name path with
    | none =>
      rw [List.filterMap_cons_none hfound]
      exact .cons _ ih
    | some candidate =>
      rw [List.filterMap_cons_some hfound, List.map_cons, (declaredAt_facts hfound).1]
      exact .cons_cons _ ih

theorem owners_complete {candidates : List DirectMember} {members : List ResolvedMember}
    (h : List.Forall₂ (fun candidate member => completeMember graph candidate = .ok member)
      candidates members) :
    (members.map fun member => member.owner.path) =
      candidates.map fun candidate => candidate.member.owner.path := by
  induction h with
  | nil => rfl
  | cons hmember _ ih =>
    rw [List.map_cons, List.map_cons, ih, completeMember_owner hmember]

theorem selectBest_none {name : Name} {level : List QName}
    (h : ∀ path ∈ level, declaredAt graph name path = none) :
    selectBest graph (level.filterMap (declaredAt graph name)) = none := by
  rw [List.filterMap_eq_nil_iff.mpr h]
  rfl

/-- Of a level that declares the name, the best definitions are chosen. -/
theorem selectBest_winners {name : Name} {level : List QName}
    (hsorted : level.Pairwise (· < ·)) (hlevel : ∀ path ∈ level, Searchable graph path)
    {path : QName} (hpath : path ∈ level) {candidate : DirectMember}
    (hdeclared : declaredAt graph name path = some candidate) :
    ∃ winners, Winners graph name (· ∈ level) winners ∧
      selectBest graph (level.filterMap (declaredAt graph name)) = some (outcome winners) := by
  have hmem : candidate ∈ level.filterMap (declaredAt graph name) :=
    mem_declared.mpr ⟨path, hpath, hdeclared⟩
  cases hmin : ((level.filterMap (declaredAt graph name)).map
      fun candidate => candidate.priority.rank).min? with
  | none =>
    rw [List.min?_eq_none_iff, List.map_eq_nil_iff] at hmin
    rw [hmin] at hmem
    cases hmem
  | some least =>
    obtain ⟨hleast, hle⟩ := List.min?_eq_some_iff.mp hmin
    obtain ⟨members, hmembers, hall⟩ := @mapM_completeMember graph name
      ((level.filterMap (declaredAt graph name)).filter fun candidate =>
        candidate.priority.rank = least) fun other hother => by
          obtain ⟨owner, howner, hother⟩ := mem_declared.mp (List.mem_filter.mp hother).1
          exact ⟨owner, hlevel owner howner, hother⟩
    have howners := owners_complete hall
    have hstrict : (members.map fun member => member.owner.path).Pairwise (· < ·) := by
      rw [howners]
      exact hsorted.sublist (owners_declared List.filter_sublist)
    have hsort : sortByOwner members = members := by
      apply List.Pairwise.insertionSort_eq
      exact (List.pairwise_map.mp hstrict).imp le_of_lt
    have hbest : ∀ owner, owner ∈ members.map (fun member => member.owner.path) ↔
        Best graph name (· ∈ level) owner := by
      intro owner
      rw [howners, List.mem_map, best_iff]
      constructor
      · rintro ⟨found, hfound, rfl⟩
        obtain ⟨hfound, hrank⟩ := List.mem_filter.mp hfound
        obtain ⟨at', hat, hdecl⟩ := mem_declared.mp hfound
        rw [(declaredAt_facts hdecl).1]
        refine ⟨hat, found, hdecl, fun other candidate' hother hcandidate' => ?_⟩
        rw [of_decide_eq_true hrank]
        exact hle _ (List.mem_map_of_mem (mem_declared.mpr ⟨other, hother, hcandidate'⟩))
      · rintro ⟨howner, found, hdecl, hbetter⟩
        refine ⟨found, List.mem_filter.mpr ⟨mem_declared.mpr ⟨owner, howner, hdecl⟩, ?_⟩,
          (declaredAt_facts hdecl).1⟩
        obtain ⟨chosen, hchosen, hrank⟩ := List.mem_map.mp hleast
        obtain ⟨other, hother, hdeclother⟩ := mem_declared.mp hchosen
        have hupper := hbetter other chosen hother hdeclother
        have hlower := hle _ (List.mem_map_of_mem (mem_declared.mpr ⟨owner, howner, hdecl⟩))
        apply decide_eq_true
        omega
    have hcomplete : ∀ member ∈ members, ∃ candidate,
        declaredAt graph name member.owner.path = some candidate ∧
          completeMember graph candidate = .ok member := by
      intro member hmember
      obtain ⟨found, hfound, hcomplete⟩ : ∃ found, found ∈
          (level.filterMap (declaredAt graph name)).filter
            (fun candidate => candidate.priority.rank = least) ∧
          completeMember graph found = .ok member := by
        obtain ⟨i, hi, rfl⟩ := List.getElem_of_mem hmember
        have hlen := hall.length_eq
        exact ⟨_, List.getElem_mem (by omega), hall.get (by omega) hi⟩
      obtain ⟨owner, -, hdecl⟩ := mem_declared.mp (List.mem_filter.mp hfound).1
      refine ⟨found, ?_, hcomplete⟩
      rw [completeMember_owner hcomplete, (declaredAt_facts hdecl).1]
      exact hdecl
    refine ⟨members, ⟨?_, hstrict, hbest, fun member hmember => ?_, hcomplete⟩, ?_⟩
    · rintro rfl
      obtain ⟨chosen, hchosen, hrank⟩ := List.mem_map.mp hleast
      cases hall' : (level.filterMap (declaredAt graph name)).filter
          fun candidate => candidate.priority.rank = least with
      | nil =>
        rw [List.filter_eq_nil_iff] at hall'
        exact hall' chosen hchosen (decide_eq_true hrank)
      | cons first others =>
        rw [hall'] at hall
        cases hall
    · obtain ⟨candidate, hdecl, hmade⟩ := hcomplete member hmember
      obtain ⟨hname, cls, hcls, hdefines⟩ := declaredAt_defines hdecl
      obtain ⟨arity, rfl⟩ := completeMember_dated hmade
      exact ⟨hname, cls, _, hcls, hdefines⟩
    · unfold selectBest
      simp only [hmin, hmembers, hsort]
      rcases members with _ | ⟨first, _ | ⟨second, rest⟩⟩ <;> rfl

/-! ## All levels -/

/-- The search ends with the first level that declares the name. -/
theorem searchLevels_spec {name : Name} {levels : List (List QName)}
    (h : ∀ level ∈ levels, level.Pairwise (· < ·) ∧ ∀ path ∈ level, Searchable graph path) :
    (searchLevels graph name levels = .Missing ∧
      ∀ level ∈ levels, ∀ path ∈ level, declaredAt graph name path = none) ∨
    ∃ (i : Nat) (level : List QName) (winners : List ResolvedMember), levels[i]? = some level ∧
      (∀ j < i, ∀ before, levels[j]? = some before →
        ∀ path ∈ before, declaredAt graph name path = none) ∧
      Winners graph name (· ∈ level) winners ∧
      searchLevels graph name levels = outcome winners := by
  induction levels with
  | nil => exact .inl ⟨rfl, List.forall_mem_nil _⟩
  | cons level rest ih =>
    obtain ⟨hsorted, hlevel⟩ := h level List.mem_cons_self
    have hrest := fun other hother => h other (List.mem_cons_of_mem _ hother)
    have hinspect := @inspectLevel_ok graph name level [] fun path hpath =>
      (hlevel path hpath).isClosed
    rw [List.nil_append] at hinspect
    by_cases hany : ∃ path ∈ level, ∃ candidate, declaredAt graph name path = some candidate
    · obtain ⟨path, hpath, candidate, hdeclared⟩ := hany
      obtain ⟨winners, hwinners, hselect⟩ := selectBest_winners hsorted hlevel hpath hdeclared
      refine .inr ⟨0, level, winners, rfl, fun j hj => absurd hj (Nat.not_lt_zero j), hwinners, ?_⟩
      rw [searchLevels, hinspect]
      simp only [hselect]
    · have hnone : ∀ path ∈ level, declaredAt graph name path = none := by
        intro path hpath
        apply Option.eq_none_iff_forall_not_mem.mpr
        intro candidate hcandidate
        exact hany ⟨path, hpath, candidate, hcandidate⟩
      have hskip : searchLevels graph name (level :: rest) = searchLevels graph name rest := by
        rw [searchLevels, hinspect]
        simp only [selectBest_none hnone]
      rw [hskip]
      rcases ih hrest with ⟨hmissing, hall⟩ | ⟨i, found, winners, hi, hbefore, hwinners, hsearch⟩
      · exact .inl ⟨hmissing, List.forall_mem_cons.mpr ⟨hnone, hall⟩⟩
      · refine .inr ⟨i + 1, found, winners, hi, fun j hj before hj' => ?_, hwinners, hsearch⟩
        cases j with
        | zero =>
          obtain rfl := Option.some.inj hj'
          exact hnone
        | succ j => exact hbefore j (by omega) before hj'

theorem Layers.origin {origin : QName} {levels : List (List QName)}
    (h : Layers (supertypesOf graph) origin levels) (hlen : 0 < levels.length) :
    ∃ rest, levels = [origin] :: rest := by
  cases levels with
  | nil => cases hlen
  | cons level rest =>
    obtain ⟨hne, hsorted, hmem⟩ := h 0 level rfl
    refine ⟨rest, ?_⟩
    have hlevel : level = [origin] := by
      apply eq_of_strict hsorted (List.pairwise_singleton _ _)
      intro v
      rw [hmem, atDistance_zero, List.mem_singleton]
      exact eq_comm
    rw [hlevel]

/-- A member is looked for as in the first level, and from there on. -/
theorem resolveMember_levels {origin : QName} {levels : List (List QName)} (name : Name)
    (horigin : Searchable graph origin) (hlevels : hierarchyLevels graph origin = .ok levels)
    (hlayers : Layers (supertypesOf graph) origin levels) (hlen : 0 < levels.length) :
    resolveMember graph origin name = searchLevels graph name levels := by
  obtain ⟨rest, rfl⟩ := Layers.origin hlayers hlen
  obtain ⟨cls, hcls⟩ := Option.isSome_iff_exists.mp horigin.present
  have hinspect := @inspectLevel_ok graph name [origin] [] fun path hpath => by
    rw [List.mem_singleton.mp hpath]
    exact horigin.isClosed
  rw [List.nil_append] at hinspect
  unfold resolveMember
  rw [hcls]
  simp only [horigin.closed cls hcls, Bool.false_eq_true, if_false, directMember_declaredAt hcls]
  rw [searchLevels, hinspect]
  cases hfound : declaredAt graph name origin with
  | none =>
    have hnone : ∀ path ∈ [origin], declaredAt graph name path = none := by
      intro path hpath
      rw [List.mem_singleton.mp hpath]
      exact hfound
    simp only [hlevels, selectBest_none hnone]
    rfl
  | some candidate =>
    obtain ⟨member, hmember⟩ := completeMember_ok hfound horigin.sound
    simp only [hmember, List.filterMap_cons_some hfound, List.filterMap_nil]
    unfold selectBest
    simp [hmember, sortByOwner, pure, Except.pure, bind, Except.bind]

/-! ## The whole hierarchy -/

/-- No path of different classes is as long as the walk can be. -/
def Bounded (graph : ModelGraph) (origin : QName) : Prop :=
  ∀ path, SimplePath graph origin path → path.length < MAX_GENERALIZATION_DEPTH

/-- Some class that is reached declares a supertype that the model lacks. -/
def MissingReached (graph : ModelGraph) (origin : QName) : Prop :=
  ∃ owner missing, Reaches graph origin owner ∧ Supertype graph owner missing ∧
    graph.cls missing = none

def CycleReached (graph : ModelGraph) (origin : QName) : Prop :=
  ∃ v, Reaches graph origin v ∧ Relation.TransGen (Supertype graph) v v

/-- The least distance of a class that declares the name. -/
def LeastDeclaring (graph : ModelGraph) (origin : QName) (name : Name) (n : Nat) : Prop :=
  (∃ v, AtDistance (supertypesOf graph) origin n v ∧ Declares graph name v) ∧
    ∀ m < n, ∀ v, AtDistance (supertypesOf graph) origin m v → ¬ Declares graph name v

/-- A model of few classes has no long paths. -/
theorem bounded_of_len {origin : QName} (h : graph.classes.len < MAX_GENERALIZATION_DEPTH) :
    Bounded graph origin := by
  intro path hpath
  have hsub : path ⊆ graph.classes.entries.map Prod.fst := fun v hv =>
    SortedMap.mem_keys.mpr (hpath.present v hv)
  have hle := (List.subperm_of_subset hpath.nodup hsub).length_le
  rw [List.length_map] at hle
  exact Nat.lt_of_le_of_lt hle h

theorem transGen_chain {path : List QName} {u v : QName}
    (chain : path.IsChain (Supertype graph)) (head : path.head? = some u)
    (last : path.getLast? = some v) (hlen : 2 ≤ path.length) :
    Relation.TransGen (Supertype graph) u v := by
  induction path generalizing u with
  | nil => cases head
  | cons w path ih =>
    obtain rfl := Option.some.inj head
    cases path with
    | nil =>
      rw [List.length_singleton] at hlen
      omega
    | cons x path =>
      obtain ⟨hedge, hrest⟩ := List.isChain_cons_cons.mp chain
      cases path with
      | nil =>
        obtain rfl := Option.some.inj last
        exact .single hedge
      | cons y path => exact .head hedge (ih hrest rfl last (by simp))

/-- A bounded hierarchy is at fault for what is wrong with it. -/
theorem fault_reached {origin : QName} {fault : HierarchyFault} (hbounded : Bounded graph origin)
    (h : Explains graph origin fault) : MissingReached graph origin ∨ CycleReached graph origin := by
  cases fault with
  | Cycle cycle =>
    obtain ⟨hchain, hlen, hends, hreach⟩ := h
    obtain ⟨v, hv⟩ : ∃ v, cycle.head? = some v := by
      cases cycle with
      | nil => cases hlen
      | cons v rest => exact ⟨v, rfl⟩
    refine .inr ⟨v, hreach v (List.mem_of_mem_head? hv), ?_⟩
    exact transGen_chain hchain hv (hends ▸ hv) hlen
  | UnderResolved reason =>
    cases reason with
    | MissingSupertype owner missing => exact .inl ⟨owner, missing, h⟩
    | OpenWorld cls => cases h
    | GraphInvariant cls => cases h
    | GeneralizationDepth cls limit =>
      obtain ⟨-, path, hpath, hlen⟩ := h
      have hlt := hbounded path hpath
      omega

theorem hierarchyLevels_explained {origin : QName} {fault : HierarchyFault}
    (hpresent : (graph.cls origin).isSome = true)
    (h : hierarchyLevels graph origin = .error fault) : Explains graph origin fault :=
  validateHierarchy_error hpresent (hierarchyLevels_error h)

theorem validateHierarchy_of_levels {origin : QName} {levels : List (List QName)}
    (h : hierarchyLevels graph origin = .ok levels) : validateHierarchy graph origin = .ok () := by
  unfold hierarchyLevels at h
  cases hvalid : validateHierarchy graph origin with
  | error fault =>
    rw [hvalid] at h
    cases h
  | ok => rfl

/-- The levels leave nothing wrong in the hierarchy. -/
theorem sound_of_levels {origin : QName} {levels : List (List QName)}
    (h : hierarchyLevels graph origin = .ok levels) :
    ¬ MissingReached graph origin ∧ ¬ CycleReached graph origin := by
  obtain ⟨hpresent, hacyclic⟩ := validateHierarchy_ok (validateHierarchy_of_levels h)
  constructor
  · rintro ⟨owner, missing, hreach, hsuper, hnone⟩
    have hsome := hpresent missing (.tail hreach hsuper)
    rw [hnone] at hsome
    cases hsome
  · rintro ⟨v, hreach, hcycle⟩
    exact hacyclic v hreach hcycle

theorem levels_are_layers {origin : QName} {levels : List (List QName)}
    (h : hierarchyLevels graph origin = .ok levels) :
    Layers (supertypesOf graph) origin levels ∧
      ∀ n v, AtDistance (supertypesOf graph) origin n v → n < levels.length := by
  obtain ⟨found, hfound, hlayers⟩ := hierarchyLevels_ok (validateHierarchy_of_levels h)
  rw [h] at hfound
  obtain rfl := Except.ok.inj hfound
  exact hlayers

theorem outcome_ne_missing (members : List ResolvedMember) : outcome members ≠ .Missing := by
  rcases members with _ | ⟨first, _ | ⟨second, rest⟩⟩ <;> exact nofun

/-- In a hierarchy without a fault and without a gap the nearest level answers. -/
theorem resolveMember_spec {origin : QName} {levels : List (List QName)} (name : Name)
    (hlevels : hierarchyLevels graph origin = .ok levels)
    (hclosed : ∀ v cls, Reaches graph origin v → graph.cls v = some cls →
      cls.coverage_gap = false ∧ TargetsSound graph cls) :
    (resolveMember graph origin name = .Missing ∧
      ∀ v, Reaches graph origin v → ¬ Declares graph name v) ∨
    ∃ n winners, LeastDeclaring graph origin name n ∧
      Winners graph name (AtDistance (supertypesOf graph) origin n) winners ∧
      resolveMember graph origin name = outcome winners := by
  obtain ⟨hlayers, hall⟩ := levels_are_layers hlevels
  obtain ⟨hreached, -⟩ := validateHierarchy_ok (validateHierarchy_of_levels hlevels)
  have hsearchable : ∀ v, Reaches graph origin v → Searchable graph v := fun v hv =>
    ⟨hreached v hv, fun cls hcls => (hclosed v cls hv hcls).1,
      fun cls hcls => (hclosed v cls hv hcls).2⟩
  have hzero : 0 < levels.length := hall 0 origin (atDistance_zero.mpr rfl)
  have hlevel : ∀ level ∈ levels,
      level.Pairwise (· < ·) ∧ ∀ path ∈ level, Searchable graph path := by
    intro level hmem
    obtain ⟨n, hn⟩ := List.getElem?_of_mem hmem
    obtain ⟨-, hsorted, hat⟩ := hlayers n level hn
    exact ⟨hsorted, fun path hpath =>
      hsearchable path (reaches_iff.mp ((hat path).mp hpath).reaches)⟩
  rw [resolveMember_levels name (hsearchable origin .refl) hlevels hlayers hzero]
  rcases @searchLevels_spec graph name levels hlevel with
    ⟨hmissing, hnone⟩ | ⟨n, level, winners, hn, hbefore, hwinners, hsearch⟩
  · refine .inl ⟨hmissing, fun v hv hdeclares => ?_⟩
    obtain ⟨level, hmem, hv⟩ :=
      List.mem_flatten.mp ((hlayers.mem_iff hall v).mpr (reaches_iff.mpr hv))
    obtain ⟨candidate, hcandidate⟩ := declares_iff.mp hdeclares
    rw [hnone level hmem v hv] at hcandidate
    cases hcandidate
  · obtain ⟨-, -, hat⟩ := hlayers n level hn
    have hsame : (· ∈ level) = AtDistance (supertypesOf graph) origin n := by
      funext v
      exact propext (hat v)
    rw [hsame] at hwinners
    refine .inr ⟨n, winners, ⟨?_, fun m hm v hv hdeclares => ?_⟩, hwinners, hsearch⟩
    · obtain ⟨member, hmember⟩ := List.exists_mem_of_ne_nil _ hwinners.nonempty
      obtain ⟨hdist, candidate, hcandidate, -⟩ :=
        best_iff.mp ((hwinners.best _).mp (List.mem_map_of_mem hmember))
      exact ⟨_, hdist, declares_iff.mpr ⟨candidate, hcandidate⟩⟩
    · obtain ⟨before, hbefore'⟩ : ∃ before, levels[m]? = some before :=
        ⟨_, List.getElem?_eq_getElem (hall m v hv)⟩
      obtain ⟨candidate, hcandidate⟩ := declares_iff.mp hdeclares
      rw [hbefore m hm before hbefore' v (((hlayers m before hbefore').2.2 v).mpr hv)] at hcandidate
      cases hcandidate

/-- The walk over a bounded hierarchy is at fault exactly with a missing
supertype or a cycle, and its levels are otherwise the layers of the declared
supertypes. The nearest layer that declares a name answers for it. -/
theorem hierarchies_are_walked (graph : ModelGraph) (origin : QName)
    (hpresent : (graph.cls origin).isSome = true) (hbounded : Bounded graph origin) :
    ((∃ fault, hierarchyLevels graph origin = .error fault) ↔
      MissingReached graph origin ∨ CycleReached graph origin) ∧
    (∀ cycle, hierarchyLevels graph origin = .error (.Cycle cycle) →
      cycle.IsChain (Supertype graph) ∧ 2 ≤ cycle.length ∧ cycle.head? = cycle.getLast?) ∧
    ∀ levels, hierarchyLevels graph origin = .ok levels →
      (levels.flatten.Nodup ∧ (∀ v, v ∈ levels.flatten ↔ Reaches graph origin v) ∧
        ∀ n level, levels[n]? = some level →
          level.Pairwise (· < ·) ∧
            ∀ v, v ∈ level ↔ AtDistance (supertypesOf graph) origin n v) ∧
      ((∀ v cls, Reaches graph origin v → graph.cls v = some cls →
          cls.coverage_gap = false ∧ TargetsSound graph cls) →
        ∀ name,
          (resolveMember graph origin name = .Missing ↔
            ∀ v, Reaches graph origin v → ¬ Declares graph name v) ∧
          ∀ n, LeastDeclaring graph origin name n →
            ∃ winners, Winners graph name (AtDistance (supertypesOf graph) origin n) winners ∧
              resolveMember graph origin name = outcome winners) := by
  refine ⟨⟨fun ⟨fault, h⟩ => ?_, fun h => ?_⟩, fun cycle h => ?_, fun levels h => ⟨?_, ?_⟩⟩
  · exact fault_reached hbounded (hierarchyLevels_explained hpresent h)
  · cases hlevels : hierarchyLevels graph origin with
    | error fault => exact ⟨fault, rfl⟩
    | ok levels =>
      obtain ⟨hmissing, hcycle⟩ := sound_of_levels hlevels
      rcases h with h | h
      · exact absurd h hmissing
      · exact absurd h hcycle
  · obtain ⟨hchain, hlen, hends, -⟩ := hierarchyLevels_explained hpresent h
    exact ⟨hchain, hlen, hends⟩
  · obtain ⟨hlayers, hall⟩ := levels_are_layers h
    refine ⟨hlayers.nodup, fun v => ?_, fun n level hn => (hlayers n level hn).2⟩
    rw [hlayers.mem_iff hall, reaches_iff]
  · intro hclosed name
    rcases resolveMember_spec name h hclosed with
      ⟨hmissing, hnone⟩ | ⟨n, winners, hleast, hwinners, houtcome⟩
    · refine ⟨⟨fun _ => hnone, fun _ => hmissing⟩, fun n hleast => ?_⟩
      obtain ⟨⟨v, hdist, hdeclares⟩, -⟩ := hleast
      exact absurd hdeclares (hnone v (reaches_iff.mp hdist.reaches))
    · obtain ⟨⟨v, hdist, hdeclares⟩, hbefore⟩ := hleast
      refine ⟨⟨fun hmissing => ?_, fun hnone => ?_⟩, fun m hm => ?_⟩
      · rw [houtcome] at hmissing
        exact absurd hmissing (outcome_ne_missing winners)
      · exact absurd hdeclares (hnone v (reaches_iff.mp hdist.reaches))
      · have hsame : m = n := by
          obtain ⟨⟨w, hw, hwdeclares⟩, hearlier⟩ := hm
          rcases Nat.lt_trichotomy m n with hlt | heq | hlt
          · exact absurd hwdeclares (hbefore m hlt w hw)
          · exact heq
          · exact absurd hdeclares (hearlier n hlt v hdist)
        rw [hsame]
        exact ⟨winners, hwinners, houtcome⟩

/-! A class with two supertypes that share one. All but the class itself define
one name. -/

/-- The model of some classes in the order of their paths, with no association. -/
def graphOf (classes : List ClassInfo)
    (hclasses : (classes.map fun cls => (cls.path, cls)).Pairwise fun a b => a.1 < b.1)
    (hindex : (classes.map ClassInfo.path).zipIdx.Pairwise fun a b => a.1 < b.1) :
    ModelGraph where
  classes := ⟨classes.map fun cls => (cls.path, cls), hclasses⟩
  by_path := ⟨(classes.map ClassInfo.path).zipIdx, hindex⟩
  paths_by_id := classes.map ClassInfo.path
  associations := []
  sources := []
  diagnostics := []
  keyed path cls h := by
    obtain ⟨found, -, heq⟩ := List.mem_map.mp (SortedMap.mem_of_get h)
    obtain ⟨rfl, rfl⟩ := Prod.mk.inj heq
    rfl
  indexed path := by
    rw [Bool.eq_iff_iff, ← SortedMap.mem_keys, ← SortedMap.mem_keys]
    rw [List.zipIdx_map_fst, List.map_map]
    rfl

def diamondPath (c : Char) : QName :=
  match QName.new [c.toUInt8] with
  | .ok path => path
  | .error _ => ⟨ascii "m", by decide⟩

def diamondClass (path : QName) (supertypes : List QName) : ClassInfo where
  path
  supertypes
  temporal := none
  properties := SortedMap.empty
  qualified_properties := SortedMap.empty
  provenance := .Pmcd
  source := 0
  declaration_span := none
  coverage_gap := false

theorem sharedName_valid : (Name.validate (ascii "x")).isOk = true := by decide

/-- The name that three classes of the diamond define. -/
def sharedName : Name := ⟨ascii "x", sharedName_valid⟩

theorem one_ordered : (some 1).all (1 ≤ ·) = true := by decide

def sharedProperty : PropInfo :=
  .declared sharedName (.new (diamondPath 'd') []) ⟨1, some 1, one_ordered⟩

def sharedQualified : QpInfo :=
  { name := sharedName
    target := .new (diamondPath 'd') []
    multiplicity := ⟨1, some 1, one_ordered⟩
    kind := .UserQualified
    signature := none
    declaration_span := none }

def diamondClasses : List ClassInfo :=
  [diamondClass (diamondPath 'a') [diamondPath 'c', diamondPath 'b'],
    { diamondClass (diamondPath 'b') [diamondPath 'd'] with
      properties := SortedMap.empty.insert sharedName sharedProperty },
    { diamondClass (diamondPath 'c') [diamondPath 'd'] with
      qualified_properties := SortedMap.empty.insert sharedName sharedQualified },
    { diamondClass (diamondPath 'd') [] with
      properties := SortedMap.empty.insert sharedName sharedProperty }]

def diamond : ModelGraph := graphOf diamondClasses (by decide) (by decide)

theorem diamond_levels : hierarchyLevels diamond (diamondPath 'a') =
    .ok [[diamondPath 'a'], [diamondPath 'b', diamondPath 'c'], [diamondPath 'd']] := by decide

theorem diamond_cls {path : QName} {cls : ClassInfo} (h : diamond.cls path = some cls) :
    cls ∈ diamondClasses := by
  obtain ⟨found, hfound, heq⟩ := List.mem_map.mp (SortedMap.mem_of_get h)
  obtain ⟨-, rfl⟩ := Prod.mk.inj heq
  exact hfound

theorem diamond_properties {cls : ClassInfo} (h : cls ∈ diamondClasses) {name : Name}
    {p : PropInfo} (hp : cls.properties.get name = some p) : p = sharedProperty := by
  have hinserted : (SortedMap.empty.insert sharedName sharedProperty).get name = some p →
      p = sharedProperty := by
    intro hget
    rw [SortedMap.get_insert] at hget
    split_ifs at hget
    · exact (Option.some.inj hget).symm
    · cases hget
  simp only [diamondClasses, List.mem_cons, List.not_mem_nil, or_false] at h
  rcases h with rfl | rfl | rfl | rfl
  · cases hp
  · exact hinserted hp
  · cases hp
  · exact hinserted hp

theorem diamond_qualified {cls : ClassInfo} (h : cls ∈ diamondClasses) {name : Name}
    {p : QpInfo} (hp : cls.qualified_properties.get name = some p) : p = sharedQualified := by
  simp only [diamondClasses, List.mem_cons, List.not_mem_nil, or_false] at h
  rcases h with rfl | rfl | rfl | rfl
  · cases hp
  · cases hp
  · change (SortedMap.empty.insert sharedName sharedQualified).get name = some p at hp
    rw [SortedMap.get_insert] at hp
    split_ifs at hp
    · exact (Option.some.inj hp).symm
    · cases hp
  · cases hp

theorem diamond_closed {cls : ClassInfo} (h : cls ∈ diamondClasses) :
    cls.coverage_gap = false ∧ TargetsSound diamond cls := by
  have htarget : ∃ levels, hierarchyLevels diamond (diamondPath 'd') = .ok levels :=
    ⟨[[diamondPath 'd']], by decide⟩
  refine ⟨?_, fun name p hp _ => ?_, fun name p hp _ => ?_⟩
  · revert cls
    decide
  · rw [diamond_properties h hp]
    exact htarget
  · rw [diamond_qualified h hp]
    exact htarget

theorem outcome_found {members : List ResolvedMember} {member : ResolvedMember}
    (h : outcome members = .Found member) : members = [member] := by
  rcases members with _ | ⟨first, _ | ⟨second, rest⟩⟩
  · cases h
  · rw [Resolution.Found.inj h]
  · cases h

/-- The member of `c`: a qualified property of the user comes before the plain
property of `b`, and `d` is farther away. -/
def sharedFound : ResolvedMember where
  owner := ⟨2, diamondPath 'c', none, .Pmcd, ⟨0, none⟩⟩
  name := sharedName
  target := .new (diamondPath 'd') []
  multiplicity := ⟨1, some 1, one_ordered⟩
  kind := .Qualified .UserQualified
  signature := none
  target_temporal_arity := some 0
  provenance := .Pmcd
  definition := ⟨0, none⟩

theorem the_diamond_is_walked :
    ¬ MissingReached diamond (diamondPath 'a') ∧
      (∀ v, v ∈ [diamondPath 'a', diamondPath 'b', diamondPath 'c', diamondPath 'd'] ↔
        Reaches diamond (diamondPath 'a') v) ∧
      ∃ member, Winners diamond sharedName
          (AtDistance (supertypesOf diamond) (diamondPath 'a') 1) [member] ∧
        member.owner.path = diamondPath 'c' ∧ member.kind = .Qualified .UserQualified ∧
        resolveMember diamond (diamondPath 'a') sharedName = .Found member := by
  obtain ⟨hfault, -, hwalk⟩ := hierarchies_are_walked diamond (diamondPath 'a') (by decide)
    (bounded_of_len (by decide))
  obtain ⟨⟨-, hreached, hlayer⟩, hanswers⟩ := hwalk _ diamond_levels
  refine ⟨fun hmissing => ?_, hreached, ?_⟩
  · obtain ⟨fault, hfound⟩ := hfault.mpr (.inl hmissing)
    rw [diamond_levels] at hfound
    cases hfound
  · have hleast : LeastDeclaring diamond (diamondPath 'a') sharedName 1 := by
      refine ⟨⟨diamondPath 'c', ((hlayer 1 _ rfl).2 _).mp (by decide), ?_⟩, fun m hm v hv => ?_⟩
      · exact ⟨_, rfl, .inl (by decide)⟩
      · obtain rfl : m = 0 := by omega
        obtain rfl := atDistance_zero.mp hv
        rintro ⟨cls, hcls, hdeclares⟩
        obtain rfl := Option.some.inj hcls
        revert hdeclares
        decide
    obtain ⟨winners, hwinners, houtcome⟩ :=
      (hanswers (fun v cls _ hcls => diamond_closed (diamond_cls hcls)) sharedName).2 1 hleast
    have hfound : resolveMember diamond (diamondPath 'a') sharedName = .Found sharedFound := by
      decide
    rw [hfound] at houtcome
    obtain rfl := outcome_found houtcome.symm
    exact ⟨sharedFound, hwinners, rfl, rfl, hfound⟩

end analyzer.resolve.Resolver
