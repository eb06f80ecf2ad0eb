-- The laws of a model that grows. A conclusive answer is read off closed classes
-- alone, so a model with more in it that answers too gives the same answer.
import PureAnalyzer.Attempts
import PureAnalyzer.MemberLaws

namespace analyzer.resolve.Resolver

open fragments model sortedsets depthfirst layers attempts

variable {graph graph' : ModelGraph}

/-! ## Growing models -/

def association (graph : ModelGraph) (path : QName) : Option AssocInfo :=
  graph.associations.find? (·.path = path)

/-- A later model has every closed class and every association of the earlier
one. Open classes may have changed in any way, and there may be more classes. -/
structure Extends (graph graph' : ModelGraph) : Prop where
  closed : ∀ path cls, graph.cls path = some cls → cls.coverage_gap = false →
    graph'.cls path = some cls
  associations : ∀ path item, association graph path = some item →
    association graph' path = some item

theorem Closed.extends (h : Extends graph graph') {path : QName} (hclosed : Closed graph path) :
    Closed graph' path := by
  obtain ⟨cls, hcls, hgap⟩ := hclosed
  exact ⟨cls, h.closed path cls hcls hgap, hgap⟩

theorem Closed.cls_eq (h : Extends graph graph') {path : QName} (hclosed : Closed graph path) :
    graph'.cls path = graph.cls path := by
  obtain ⟨cls, hcls, hgap⟩ := hclosed
  rw [hcls, h.closed path cls hcls hgap]

theorem supertypesOf_extends (h : Extends graph graph') {path : QName}
    (hclosed : Closed graph path) : supertypesOf graph path = supertypesOf graph' path := by
  unfold supertypesOf
  rw [hclosed.cls_eq h]

theorem association_linked (hlinked : graph.Linked) {path : QName} {cls : ClassInfo} {name : Name}
    {p : PropInfo} {a : QName} (hcls : graph.cls path = some cls)
    (hp : cls.properties.get name = some p) (ha : p.association = some a) :
    ∃ item, association graph a = some item := by
  obtain ⟨item, hitem, hpath⟩ := hlinked path cls name p a hcls hp ha
  exact Option.isSome_iff_exists.mp
    (List.find?_isSome.mpr ⟨item, hitem, decide_eq_true hpath⟩)

/-! ## Definitions -/

/-- A member without the number of its owner, which is a place among the classes of
one model. -/
def unnumbered (member : ResolvedMember) : ResolvedMember :=
  { member with owner := { member.owner with id := 0 } }

/-- One definition read in two models. -/
structure SameDefinition (candidate candidate' : DirectMember) : Prop where
  priority : candidate.priority = candidate'.priority
  member : unnumbered candidate.member = unnumbered candidate'.member
  association : candidate.association = candidate'.association

theorem propertyMember_extends (h : Extends graph graph') (hlinked : graph.Linked) {path : QName}
    {cls : ClassInfo} {name : Name} {p : PropInfo} (hcls : graph.cls path = some cls)
    (hp : cls.properties.get name = some p) {owner owner' : ResolvedClass}
    (howner : { owner with id := 0 } = { owner' with id := 0 }) :
    SameDefinition (propertyMember graph owner name cls p)
      (propertyMember graph' owner' name cls p) := by
  unfold propertyMember
  cases ha : p.association with
  | none => exact ⟨rfl, by simp only [unnumbered, howner], rfl⟩
  | some a =>
    obtain ⟨item, hitem⟩ := association_linked hlinked hcls hp ha
    have hitem' := h.associations a item hitem
    unfold association at hitem hitem'
    simp only [hitem, hitem']
    exact ⟨rfl, by simp only [unnumbered, howner], rfl⟩

theorem resolvedClass_extends {path : QName} {cls : ClassInfo} {owner owner' : ResolvedClass}
    (h : resolvedClass graph path cls = .ok owner)
    (h' : resolvedClass graph' path cls = .ok owner') :
    { owner with id := 0 } = { owner' with id := 0 } := by
  unfold resolvedClass at h h'
  split at h
  · cases h
  · split at h'
    · cases h'
    · rw [← Except.ok.inj h, ← Except.ok.inj h']

/-- A closed class defines the same in both models. -/
theorem declaredAt_extends (h : Extends graph graph') (hlinked : graph.Linked) {path : QName}
    (hclosed : Closed graph path) (name : Name) :
    Option.Rel SameDefinition (declaredAt graph name path) (declaredAt graph' name path) := by
  obtain ⟨cls, hcls, hgap⟩ := hclosed
  have hcls' := h.closed path cls hcls hgap
  obtain ⟨owner, howner, -⟩ := resolvedClass_ok hcls
  obtain ⟨owner', howner', -⟩ := resolvedClass_ok hcls'
  have hsame := resolvedClass_extends howner howner'
  unfold declaredAt directMember
  rw [hcls, hcls', Option.bind_some, Option.bind_some, howner, howner']
  cases cls.qualified_properties.get name with
  | some property => exact .some ⟨rfl, by simp only [unnumbered, qualifiedMember, hsame], rfl⟩
  | none =>
    simp only
    cases hp : cls.properties.get name with
    | none => exact .none
    | some p => exact .some (propertyMember_extends h hlinked hcls hp hsame)

/-- The association of a definition is in the model. -/
theorem declaredAt_association (hlinked : graph.Linked) {path : QName} {name : Name}
    {candidate : DirectMember} (hdeclared : declaredAt graph name path = some candidate) {a : QName}
    (ha : candidate.association = some a) : ∃ item, association graph a = some item := by
  obtain ⟨cls, hcls, hfound⟩ := Option.bind_eq_some_iff.mp hdeclared
  obtain ⟨owner, howner, -⟩ := resolvedClass_ok hcls
  unfold directMember at hfound
  rw [howner] at hfound
  cases hqualified : cls.qualified_properties.get name with
  | some property =>
    rw [hqualified] at hfound
    obtain rfl := Option.some.inj hfound
    cases ha
  | none =>
    rw [hqualified] at hfound
    obtain ⟨p, hp, rfl⟩ := Option.map_eq_some_iff.mp hfound
    apply association_linked hlinked hcls hp
    unfold propertyMember at ha
    cases hassociation : p.association with
    | none =>
      rw [hassociation] at ha
      cases ha
    | some b =>
      rw [hassociation] at ha
      cases hitem : graph.associations.find? (·.path = b) with
      | none =>
        simp only [hitem] at ha
        exact ha
      | some item =>
        simp only [hitem] at ha
        exact ha

/-! ## Levels -/

/-- Two rows of levels agree as far as their classes are closed. -/
inductive Alike (graph : ModelGraph) : List (List QName) → List (List QName) → Prop
  | nil : Alike graph [] []
  | level {level rest rest'} : (∀ path ∈ level, Closed graph path) → Alike graph rest rest' →
      Alike graph (level :: rest) (level :: rest')
  | gap {level rest levels' path cls} : path ∈ level → graph.cls path = some cls →
      cls.coverage_gap = true → Alike graph (level :: rest) levels'

theorem closed_or_gap {path : QName} (h : (graph.cls path).isSome = true) :
    Closed graph path ∨ ∃ cls, graph.cls path = some cls ∧ cls.coverage_gap = true := by
  obtain ⟨cls, hcls⟩ := Option.isSome_iff_exists.mp h
  cases hgap : cls.coverage_gap with
  | false => exact .inl ⟨cls, hcls, hgap⟩
  | true => exact .inr ⟨cls, hcls, hgap⟩

/-- The levels of both models are the same up to one that is open. -/
theorem levels_alike (h : Extends graph graph') {origin : QName}
    {levels levels' : List (List QName)}
    (hlevels : hierarchyLevels graph origin = .ok levels)
    (hlevels' : hierarchyLevels graph' origin = .ok levels') : Alike graph levels levels' := by
  obtain ⟨hlayers, hall⟩ := levels_are_layers hlevels
  obtain ⟨hlayers', hall'⟩ := levels_are_layers hlevels'
  obtain ⟨hreached, -⟩ := validateHierarchy_ok (validateHierarchy_of_levels hlevels)
  have hdrop : ∀ d n, levels.length ≤ n + d →
      (∀ i < n, ∀ v, AtDistance (supertypesOf graph) origin i v → Closed graph v) →
      Alike graph (levels.drop n) (levels'.drop n) := by
    intro d
    induction d with
    | zero =>
      intro n hn hclosed
      have hsame := atDistance_congr fun i hi u hu => supertypesOf_extends h (hclosed i hi u hu)
      have hlen : levels'.length ≤ n := by
        by_contra hlt
        obtain ⟨hne, -, hmem⟩ :=
          hlayers' n _ (List.getElem?_eq_getElem (Nat.lt_of_not_le hlt))
        obtain ⟨v, hv⟩ := List.exists_mem_of_ne_nil _ hne
        have := hall n v ((hsame n (Nat.le_refl n) v).mpr ((hmem v).mp hv))
        omega
      rw [List.drop_eq_nil_of_le (by omega), List.drop_eq_nil_of_le hlen]
      exact .nil
    | succ d ih =>
      intro n hn hclosed
      by_cases hlt : n < levels.length
      · have hsame := atDistance_congr fun i hi u hu => supertypesOf_extends h (hclosed i hi u hu)
        obtain ⟨hne, hsorted, hmem⟩ := hlayers n _ (List.getElem?_eq_getElem hlt)
        rw [List.drop_eq_getElem_cons hlt]
        by_cases hopen : ∀ path ∈ levels[n], Closed graph path
        · obtain ⟨v, hv⟩ := List.exists_mem_of_ne_nil _ hne
          have hlt' := hall' n v ((hsame n (Nat.le_refl n) v).mp ((hmem v).mp hv))
          obtain ⟨-, hsorted', hmem'⟩ := hlayers' n _ (List.getElem?_eq_getElem hlt')
          have hlevel : levels[n] = levels'[n] := by
            apply eq_of_strict hsorted hsorted'
            intro w
            rw [hmem, hmem', hsame n (Nat.le_refl n) w]
          rw [List.drop_eq_getElem_cons hlt', ← hlevel]
          refine .level hopen (ih (n + 1) (by omega) fun i hi v hv => ?_)
          by_cases heq : i = n
          · rw [heq] at hv
            exact hopen v ((hmem v).mpr hv)
          · exact hclosed i (by omega) v hv
        · obtain ⟨path, hnot⟩ := not_forall.mp hopen
          obtain ⟨hpath, hnot⟩ := Classical.not_imp.mp hnot
          obtain ⟨cls, hcls, hgap⟩ := (closed_or_gap
            (hreached path (reaches_iff.mp ((hmem path).mp hpath).reaches))).resolve_left hnot
          exact .gap hpath hcls hgap
      · exact ih n (by omega) hclosed
  have hwhole := hdrop levels.length 0 (by omega) fun i hi => absurd hi (Nat.not_lt_zero i)
  rwa [List.drop_zero, List.drop_zero] at hwhole

/-! ## The dates of a target -/

theorem arityOfLevels_agree (h : Extends graph graph') {levels levels' : List (List QName)}
    (halike : Alike graph levels levels') {arity arity' : Nat}
    (harity : arityOfLevels graph levels = some arity)
    (harity' : arityOfLevels graph' levels' = some arity') : arity = arity' := by
  induction halike with
  | nil => exact (Option.some.inj harity).symm.trans (Option.some.inj harity')
  | @level level rest rest' hclosed _ ih =>
    have hsame : level.filterMap graph'.cls = level.filterMap graph.cls :=
      List.filterMap_congr fun path hpath => (hclosed path hpath).cls_eq h
    rw [arityOfLevels] at harity harity'
    rw [hsame] at harity'
    split_ifs at harity harity' with hgap
    cases htemporal : ((level.filterMap graph.cls).filterMap ClassInfo.temporal).dedup with
    | nil =>
      rw [htemporal] at harity harity'
      exact ih harity harity'
    | cons temporal others =>
      cases others with
      | nil =>
        rw [htemporal] at harity harity'
        exact (Option.some.inj harity).symm.trans (Option.some.inj harity')
      | cons second others =>
        rw [htemporal] at harity
        cases harity
  | @gap level rest levels' path cls hpath hcls hgap =>
    rw [arityOfLevels] at harity
    have hany : (level.filterMap graph.cls).any ClassInfo.coverage_gap = true :=
      List.any_eq_true.mpr ⟨cls, List.mem_filterMap.mpr ⟨path, hpath, hcls⟩, hgap⟩
    simp only [hany, if_true] at harity
    cases harity

/-- One member read in two models: all but the number of its owner and the dates
are the same, and the dates are where both models tell them. -/
structure SameMember (member member' : ResolvedMember) : Prop where
  facts : { unnumbered member with target_temporal_arity := none } =
    { unnumbered member' with target_temporal_arity := none }
  arity : ∀ arity arity', member.target_temporal_arity = some arity →
    member'.target_temporal_arity = some arity' → arity = arity'

theorem SameMember.owner {member member' : ResolvedMember} (h : SameMember member member') :
    member.owner.path = member'.owner.path := by
  have howner : { member.owner with id := 0 } = { member'.owner with id := 0 } :=
    (ResolvedMember.mk.inj h.facts).1
  exact (ResolvedClass.mk.inj howner).2.1

theorem effectiveTemporalArity_agree (h : Extends graph graph') {target : QName}
    {found found' : Option Nat} (hfound : effectiveTemporalArity graph target = .ok found)
    (hfound' : effectiveTemporalArity graph' target = .ok found') {arity arity' : Nat}
    (harity : found = some arity) (harity' : found' = some arity') : arity = arity' := by
  unfold effectiveTemporalArity at hfound hfound'
  split_ifs at hfound hfound' with hmissing hmissing'
  · obtain rfl := Except.ok.inj hfound
    cases harity
  · obtain rfl := Except.ok.inj hfound
    cases harity
  · obtain rfl := Except.ok.inj hfound'
    cases harity'
  · cases hlevels : hierarchyLevels graph target with
    | error fault =>
      rw [hlevels] at hfound
      cases hfound
    | ok levels =>
      cases hlevels' : hierarchyLevels graph' target with
      | error fault =>
        rw [hlevels'] at hfound'
        cases hfound'
      | ok levels' =>
        rw [hlevels] at hfound
        rw [hlevels'] at hfound'
        rw [← Except.ok.inj hfound] at harity
        rw [← Except.ok.inj hfound'] at harity'
        exact arityOfLevels_agree h (levels_alike h hlevels hlevels') harity harity'

theorem completeMember_agree (h : Extends graph graph') (hlinked : graph.Linked) {path : QName}
    {name : Name} {candidate candidate' : DirectMember}
    (hdeclared : declaredAt graph name path = some candidate)
    (hsame : SameDefinition candidate candidate') {member member' : ResolvedMember}
    (hmember : completeMember graph candidate = .ok member)
    (hmember' : completeMember graph' candidate' = .ok member') : SameMember member member' := by
  have hoverlay : associationArity graph candidate.association =
      associationArity graph' candidate'.association := by
    rw [← hsame.association]
    unfold associationArity
    cases ha : candidate.association with
    | none => rfl
    | some a =>
      obtain ⟨item, hitem⟩ := declaredAt_association hlinked hdeclared ha
      have hitem' := h.associations a item hitem
      unfold association at hitem hitem'
      rw [Option.bind_some, Option.bind_some, hitem, hitem']
  have htarget : candidate'.member.target = candidate.member.target :=
    (congrArg ResolvedMember.target hsame.member).symm
  have hfacts : ∀ arity arity', { unnumbered { candidate.member with
      target_temporal_arity := arity } with target_temporal_arity := none } =
      { unnumbered { candidate'.member with
        target_temporal_arity := arity' } with target_temporal_arity := none } :=
    fun arity arity' => congrArg
      (fun member : ResolvedMember => { member with target_temporal_arity := none }) hsame.member
  unfold completeMember targetTemporalArity at hmember hmember'
  rw [← hoverlay] at hmember'
  cases harity : associationArity graph candidate.association with
  | some arity =>
    rw [harity] at hmember hmember'
    obtain rfl := Except.ok.inj hmember
    obtain rfl := Except.ok.inj hmember'
    exact ⟨hfacts _ _, fun a a' ha ha' => Option.some.inj (ha.symm.trans ha')⟩
  | none =>
    rw [harity] at hmember hmember'
    rw [htarget] at hmember'
    simp only at hmember hmember'
    cases hfound : effectiveTemporalArity graph candidate.member.target.rawType with
    | error fault =>
      rw [hfound] at hmember
      cases hmember
    | ok found =>
      cases hfound' : effectiveTemporalArity graph' candidate.member.target.rawType with
      | error fault =>
        rw [hfound'] at hmember'
        cases hmember'
      | ok found' =>
        rw [hfound] at hmember
        rw [hfound'] at hmember'
        obtain rfl := Except.ok.inj hmember
        obtain rfl := Except.ok.inj hmember'
        exact ⟨hfacts _ _,
          fun a a' ha ha' => effectiveTemporalArity_agree h hfound hfound' ha ha'⟩

/-! ## Answers -/

/-- The answer tells something of the member, and not what the model lacks. -/
def Conclusive : Resolution ResolvedMember → Prop
  | .Found _ | .Missing | .Ambiguous _ => True
  | .UnderResolved _ | .Cycle _ => False

instance : DecidablePred Conclusive
  | .Found _ | .Missing | .Ambiguous _ => .isTrue trivial
  | .UnderResolved _ | .Cycle _ => .isFalse id

def SameAnswer : Resolution ResolvedMember → Resolution ResolvedMember → Prop
  | .Found member, .Found member' => SameMember member member'
  | .Missing, .Missing => True
  | .Ambiguous members, .Ambiguous members' => List.Forall₂ SameMember members members'
  | _, _ => False

theorem fault_inconclusive (fault : HierarchyFault) : ¬ Conclusive fault.intoResolution := by
  cases fault with
  | UnderResolved reason => exact id
  | Cycle cycle => exact id

theorem orderedInsert_same {member member' : ResolvedMember}
    {members members' : List ResolvedMember}
    (h : SameMember member member') (hall : List.Forall₂ SameMember members members') :
    List.Forall₂ SameMember
      (members.orderedInsert (fun left right => left.owner.path ≤ right.owner.path) member)
      (members'.orderedInsert (fun left right => left.owner.path ≤ right.owner.path) member') := by
  induction hall with
  | nil => exact .cons h .nil
  | @cons other other' rest rest' hother hrest ih =>
    rw [List.orderedInsert_cons, List.orderedInsert_cons, h.owner, hother.owner]
    split_ifs with hle
    · exact .cons h (.cons hother hrest)
    · exact .cons hother ih

theorem sortByOwner_same {members members' : List ResolvedMember}
    (h : List.Forall₂ SameMember members members') :
    List.Forall₂ SameMember (sortByOwner members) (sortByOwner members') := by
  induction h with
  | nil => exact .nil
  | cons hmember _ ih => exact orderedInsert_same hmember ih

theorem outcome_same {members members' : List ResolvedMember}
    (h : List.Forall₂ SameMember members members') :
    SameAnswer (outcome members) (outcome members') := by
  cases h with
  | nil => exact .nil
  | cons hmember hrest =>
    cases hrest with
    | nil => exact hmember
    | cons hsecond hrest => exact .cons hmember (.cons hsecond hrest)

theorem selectBest_outcome {candidates : List DirectMember} {resolution : Resolution ResolvedMember}
    (h : selectBest graph candidates = some resolution) (hconclusive : Conclusive resolution) :
    ∃ least members,
      (candidates.map fun candidate => candidate.priority.rank).min? = some least ∧
      (candidates.filter fun candidate => candidate.priority.rank = least).mapM
        (completeMember graph) = .ok members ∧
      resolution = outcome (sortByOwner members) := by
  unfold selectBest at h
  cases hmin : (candidates.map fun candidate => candidate.priority.rank).min? with
  | none =>
    rw [hmin] at h
    cases h
  | some least =>
    rw [hmin] at h
    simp only at h
    cases hmembers : (candidates.filter fun candidate => candidate.priority.rank = least).mapM
        (completeMember graph) with
    | error fault =>
      rw [hmembers] at h
      obtain rfl := Option.some.inj h
      exact absurd hconclusive (fault_inconclusive fault)
    | ok members =>
      rw [hmembers] at h
      refine ⟨least, members, rfl, hmembers, ?_⟩
      simp only at h
      unfold outcome
      generalize sortByOwner members = sorted at h ⊢
      rcases sorted with _ | ⟨first, _ | ⟨second, rest⟩⟩
      · exact (Option.some.inj h).symm
      · exact (Option.some.inj h).symm
      · exact (Option.some.inj h).symm

/-- The classes of a closed level define the same in both models. -/
theorem declared_same (h : Extends graph graph') (hlinked : graph.Linked) {level : List QName}
    (hclosed : ∀ path ∈ level, Closed graph path) (name : Name) :
    List.Forall₂ SameDefinition (level.filterMap (declaredAt graph name))
      (level.filterMap (declaredAt graph' name)) := by
  induction level with
  | nil => exact .nil
  | cons path level ih =>
    have hrest := ih fun other hother => hclosed other (List.mem_cons_of_mem _ hother)
    have hfirst := declaredAt_extends h hlinked (hclosed path List.mem_cons_self) name
    rw [List.filterMap_cons, List.filterMap_cons]
    cases hdeclared : declaredAt graph name path with
    | none =>
      rw [hdeclared] at hfirst
      cases hdeclared' : declaredAt graph' name path with
      | none => exact hrest
      | some candidate' =>
        rw [hdeclared'] at hfirst
        cases hfirst
    | some candidate =>
      rw [hdeclared] at hfirst
      cases hdeclared' : declaredAt graph' name path with
      | none =>
        rw [hdeclared'] at hfirst
        cases hfirst
      | some candidate' =>
        rw [hdeclared'] at hfirst
        cases hfirst with
        | some hsame => exact .cons hsame hrest

theorem ranks_same {candidates candidates' : List DirectMember}
    (h : List.Forall₂ SameDefinition candidates candidates') :
    (candidates.map fun candidate => candidate.priority.rank) =
      candidates'.map fun candidate => candidate.priority.rank := by
  induction h with
  | nil => rfl
  | cons hsame _ ih => rw [List.map_cons, List.map_cons, hsame.priority, ih]

theorem best_same {candidates candidates' : List DirectMember}
    (h : List.Forall₂ SameDefinition candidates candidates') (least : Nat) :
    List.Forall₂ SameDefinition
      (candidates.filter fun candidate => candidate.priority.rank = least)
      (candidates'.filter fun candidate => candidate.priority.rank = least) := by
  induction h with
  | nil => exact .nil
  | cons hsame _ ih =>
    rw [List.filter_cons, List.filter_cons, hsame.priority]
    split_ifs
    · exact .cons hsame ih
    · exact ih

theorem completeMembers_agree (h : Extends graph graph') (hlinked : graph.Linked) {name : Name}
    {candidates candidates' : List DirectMember} {members members' : List ResolvedMember}
    (hdeclared : ∀ candidate ∈ candidates, ∃ path, declaredAt graph name path = some candidate)
    (hsame : List.Forall₂ SameDefinition candidates candidates')
    (hall : List.Forall₂ (fun candidate member => completeMember graph candidate = .ok member)
      candidates members)
    (hall' : List.Forall₂ (fun candidate member => completeMember graph' candidate = .ok member)
      candidates' members') : List.Forall₂ SameMember members members' := by
  induction hsame generalizing members members' with
  | nil =>
    cases hall
    cases hall'
    exact .nil
  | cons hfirst _ ih =>
    cases hall with
    | cons hmember hrest =>
      cases hall' with
      | cons hmember' hrest' =>
        obtain ⟨path, hpath⟩ := hdeclared _ List.mem_cons_self
        refine .cons (completeMember_agree h hlinked hpath hfirst hmember hmember')
          (ih ?_ hrest hrest')
        exact fun candidate hcandidate => hdeclared candidate (List.mem_cons_of_mem _ hcandidate)

theorem selectBest_agree (h : Extends graph graph') (hlinked : graph.Linked) {name : Name}
    {level : List QName} (hclosed : ∀ path ∈ level, Closed graph path)
    {resolution resolution' : Resolution ResolvedMember}
    (hselect : selectBest graph (level.filterMap (declaredAt graph name)) = some resolution)
    (hselect' : selectBest graph' (level.filterMap (declaredAt graph' name)) = some resolution')
    (hconclusive : Conclusive resolution) (hconclusive' : Conclusive resolution') :
    SameAnswer resolution resolution' := by
  have hsame := declared_same h hlinked hclosed name
  obtain ⟨least, members, hmin, hmembers, rfl⟩ := selectBest_outcome hselect hconclusive
  obtain ⟨least', members', hmin', hmembers', rfl⟩ := selectBest_outcome hselect' hconclusive'
  rw [← ranks_same hsame] at hmin'
  obtain rfl := Option.some.inj (hmin.symm.trans hmin')
  apply outcome_same
  apply sortByOwner_same
  have hdeclared : ∀ candidate ∈ (level.filterMap (declaredAt graph name)).filter
      (fun candidate => candidate.priority.rank = least),
      ∃ path, declaredAt graph name path = some candidate := by
    intro candidate hcandidate
    obtain ⟨path, -, hpath⟩ := mem_declared.mp (List.mem_filter.mp hcandidate).1
    exact ⟨path, hpath⟩
  exact completeMembers_agree h hlinked hdeclared (best_same hsame least) (mapM_forall₂ hmembers)
    (mapM_forall₂ hmembers')

/-- There is an answer where there is a candidate. -/
theorem selectBest_eq_none {candidates : List DirectMember} :
    selectBest graph candidates = none ↔
      (candidates.map fun candidate => candidate.priority.rank).min? = none := by
  unfold selectBest
  cases (candidates.map fun candidate => candidate.priority.rank).min? with
  | none => exact iff_of_true rfl rfl
  | some least =>
    refine iff_of_false (fun h => ?_) (Option.some_ne_none least)
    simp only at h
    split at h
    · cases h
    · split at h
      · cases h
      · cases h

/-- An open class keeps a level from an answer. -/
theorem inspectLevel_open {name : Name} {level : List QName} {candidates : List DirectMember}
    {open_world : Option UnderResolution} {found : List DirectMember × Option UnderResolution}
    (h : open_world ≠ none ∨
      ∃ path ∈ level, ∃ cls, graph.cls path = some cls ∧ cls.coverage_gap = true)
    (hrun : inspectLevel graph name level candidates open_world = .ok found) : found.2 ≠ none := by
  induction level generalizing candidates open_world with
  | nil =>
    obtain rfl := Except.ok.inj hrun
    rcases h with h | ⟨path, hpath, -⟩
    · exact h
    · cases hpath
  | cons path rest ih =>
    rw [inspectLevel] at hrun
    cases hcls : graph.cls path with
    | none =>
      rw [hcls] at hrun
      cases hrun
    | some cls =>
      rw [hcls] at hrun
      simp only [directMember_declaredAt hcls] at hrun
      have hnext : (if cls.coverage_gap then open_world.or (some (.OpenWorld path))
          else open_world) ≠ none ∨
          ∃ other ∈ rest, ∃ cls, graph.cls other = some cls ∧ cls.coverage_gap = true := by
        rcases h with h | ⟨other, hother, cls', hcls', hgap⟩
        · left
          split_ifs with hgap
          · cases open_world with
            | none => exact absurd rfl h
            | some reason => exact Option.some_ne_none _
          · exact h
        · rcases List.mem_cons.mp hother with rfl | hother
          · rw [hcls] at hcls'
            obtain rfl := Option.some.inj hcls'
            left
            rw [if_pos hgap]
            cases open_world with
            | none => exact Option.some_ne_none _
            | some reason => exact Option.some_ne_none _
          · exact .inr ⟨other, hother, cls', hcls', hgap⟩
      cases hfound : declaredAt graph name path with
      | none =>
        rw [hfound] at hrun
        exact ih hnext hrun
      | some candidate =>
        rw [hfound] at hrun
        exact ih hnext hrun

theorem searchLevels_agree (h : Extends graph graph') (hlinked : graph.Linked) {name : Name}
    {levels levels' : List (List QName)} (halike : Alike graph levels levels')
    (hconclusive : Conclusive (searchLevels graph name levels))
    (hconclusive' : Conclusive (searchLevels graph' name levels')) :
    SameAnswer (searchLevels graph name levels) (searchLevels graph' name levels') := by
  induction halike with
  | nil => trivial
  | @level level rest rest' hclosed _ ih =>
    have hinspect := @inspectLevel_ok graph name level [] hclosed
    have hinspect' := @inspectLevel_ok graph' name level [] fun path hpath =>
      (hclosed path hpath).extends h
    have hranks := ranks_same (declared_same h hlinked hclosed name)
    rw [List.nil_append] at hinspect hinspect'
    rw [searchLevels, hinspect] at hconclusive ⊢
    rw [searchLevels, hinspect'] at hconclusive' ⊢
    simp only at hconclusive hconclusive' ⊢
    cases hselect : selectBest graph (level.filterMap (declaredAt graph name)) with
    | none =>
      have hselect' : selectBest graph' (level.filterMap (declaredAt graph' name)) = none := by
        rw [selectBest_eq_none, ← hranks]
        exact selectBest_eq_none.mp hselect
      rw [hselect] at hconclusive
      rw [hselect'] at hconclusive' ⊢
      exact ih hconclusive hconclusive'
    | some resolution =>
      cases hselect' : selectBest graph' (level.filterMap (declaredAt graph' name)) with
      | none =>
        have hnone : selectBest graph (level.filterMap (declaredAt graph name)) = none := by
          rw [selectBest_eq_none, hranks]
          exact selectBest_eq_none.mp hselect'
        rw [hselect] at hnone
        cases hnone
      | some resolution' =>
        rw [hselect] at hconclusive
        rw [hselect'] at hconclusive'
        exact selectBest_agree h hlinked hclosed hselect hselect' hconclusive hconclusive'
  | @gap level rest levels' path cls hpath hcls hgap =>
    exfalso
    rw [searchLevels] at hconclusive
    cases hinspect : inspectLevel graph name level [] none with
    | error fault =>
      rw [hinspect] at hconclusive
      exact fault_inconclusive fault hconclusive
    | ok found =>
      obtain ⟨candidates, open_world⟩ := found
      have hopen := inspectLevel_open (.inr ⟨path, hpath, cls, hcls, hgap⟩) hinspect
      cases open_world with
      | none => exact hopen rfl
      | some reason =>
        rw [hinspect] at hconclusive
        exact hconclusive

/-- Where both models answer conclusively, they answer the same. -/
theorem resolveMember_agree (h : Extends graph graph') (hlinked : graph.Linked) {origin : QName}
    (hpresent : (graph.cls origin).isSome = true) {name : Name}
    (hconclusive : Conclusive (resolveMember graph origin name))
    (hconclusive' : Conclusive (resolveMember graph' origin name)) :
    SameAnswer (resolveMember graph origin name) (resolveMember graph' origin name) := by
  obtain ⟨cls, hcls⟩ := Option.isSome_iff_exists.mp hpresent
  unfold resolveMember at hconclusive
  rw [hcls] at hconclusive
  cases hgap : cls.coverage_gap with
  | true =>
    simp only [hgap, if_true] at hconclusive
    cases hconclusive
  | false =>
    have hclosed : Closed graph origin := ⟨cls, hcls, hgap⟩
    have hcls' := h.closed origin cls hcls hgap
    have hsame := declaredAt_extends h hlinked hclosed name
    unfold resolveMember at hconclusive' ⊢
    rw [hcls'] at hconclusive' ⊢
    rw [hcls]
    simp only [hgap, Bool.false_eq_true, if_false, directMember_declaredAt hcls,
      directMember_declaredAt hcls'] at hconclusive hconclusive' ⊢
    cases hfound : declaredAt graph name origin with
    | some candidate =>
      rw [hfound] at hconclusive hsame
      cases hfound' : declaredAt graph' name origin with
      | none =>
        rw [hfound'] at hsame
        cases hsame
      | some candidate' =>
        rw [hfound'] at hconclusive' hsame
        simp only at hconclusive hconclusive' ⊢
        cases hmember : completeMember graph candidate with
        | error fault =>
          rw [hmember] at hconclusive
          exact absurd hconclusive (fault_inconclusive fault)
        | ok member =>
          cases hmember' : completeMember graph' candidate' with
          | error fault =>
            rw [hmember'] at hconclusive'
            exact absurd hconclusive' (fault_inconclusive fault)
          | ok member' =>
            cases hsame with
            | some hsame => exact completeMember_agree h hlinked hfound hsame hmember hmember'
    | none =>
      have hfound' : declaredAt graph' name origin = none := by
        rw [hfound] at hsame
        cases hdeclared : declaredAt graph' name origin with
        | none => rfl
        | some candidate' =>
          rw [hdeclared] at hsame
          cases hsame
      rw [hfound] at hconclusive
      rw [hfound'] at hconclusive' ⊢
      simp only at hconclusive hconclusive' ⊢
      cases hlevels : hierarchyLevels graph origin with
      | error fault =>
        rw [hlevels] at hconclusive
        exact absurd hconclusive (fault_inconclusive fault)
      | ok levels =>
        cases hlevels' : hierarchyLevels graph' origin with
        | error fault =>
          rw [hlevels'] at hconclusive'
          exact absurd hconclusive' (fault_inconclusive fault)
        | ok levels' =>
          rw [hlevels] at hconclusive
          rw [hlevels'] at hconclusive'
          have halike := levels_alike h hlevels hlevels'
          have htail : Alike graph (levels.drop 1) (levels'.drop 1) := by
            cases halike with
            | nil => exact .nil
            | level _ hrest => exact hrest
            | @gap level rest levels' path cls' hpath hcls'' hgap' =>
              -- the first level holds the origin alone, which is closed
              obtain ⟨hlayers, hall⟩ := levels_are_layers hlevels
              obtain ⟨_, horigin⟩ := Layers.origin hlayers (hall 0 origin (atDistance_zero.mpr rfl))
              obtain ⟨rfl, -⟩ := List.cons.inj horigin
              obtain rfl := List.mem_singleton.mp hpath
              rw [hcls] at hcls''
              obtain rfl := Option.some.inj hcls''
              rw [hgap] at hgap'
              cases hgap'
          exact searchLevels_agree h hlinked htail hconclusive hconclusive'

/-- A conclusive answer of a loaded model is not overturned by a model with more
in it. -/
theorem conclusive_answers_stay (graph graph' : ModelGraph) (h : Extends graph graph')
    (hlinked : graph.Linked) (origin : QName) (hpresent : (graph.cls origin).isSome = true)
    (name : Name) (hconclusive : Conclusive (resolveMember graph origin name))
    (hconclusive' : Conclusive (resolveMember graph' origin name)) :
    SameAnswer (resolveMember graph origin name) (resolveMember graph' origin name) :=
  resolveMember_agree h hlinked hpresent hconclusive hconclusive'

/-! A class with a supertype that declares a member, and an open one behind it
that a later model closes. -/

def grownClass (c : Char) (supertypes : List QName) (coverage_gap : Bool)
    (properties : SortedMap Name PropInfo) : ClassInfo :=
  { diamondClass (diamondPath c) supertypes with coverage_gap, properties }

theorem grownMember_named : (Name.validate (ascii "x")).isOk = true := by decide

def grownMember : Name := ⟨ascii "x", grownMember_named⟩

theorem grownMultiplicity_ordered : (some 1).all (1 ≤ ·) = true := by decide

def grownProperties : SortedMap Name PropInfo :=
  SortedMap.empty.insert grownMember
    (.declared grownMember (.new (diamondPath 'd') []) ⟨1, some 1, grownMultiplicity_ordered⟩)

theorem grownProperties_declared {name : Name} {p : PropInfo}
    (h : grownProperties.get name = some p) : p.association = none := by
  unfold grownProperties at h
  rw [SortedMap.get_insert] at h
  split_ifs at h with heq
  · rw [← Option.some.inj h]
    rfl
  · cases h

def early : ModelGraph :=
  graphOf
    [grownClass 'a' [diamondPath 'b'] false SortedMap.empty,
      grownClass 'b' [diamondPath 'c'] false grownProperties,
      grownClass 'c' [] true SortedMap.empty]
    (by decide) (by decide)

def later : ModelGraph :=
  graphOf
    [grownClass 'a' [diamondPath 'b'] false SortedMap.empty,
      grownClass 'b' [diamondPath 'c'] false grownProperties,
      grownClass 'c' [diamondPath 'd'] false grownProperties,
      grownClass 'd' [] false SortedMap.empty]
    (by decide) (by decide)

theorem early_linked : early.Linked := by
  intro path cls name p a hcls hp ha
  have hmem := SortedMap.mem_of_get hcls
  simp only [early, graphOf, List.map_cons, List.map_nil, List.mem_cons, List.not_mem_nil,
    or_false, Prod.mk.injEq] at hmem
  rcases hmem with ⟨-, rfl⟩ | ⟨-, rfl⟩ | ⟨-, rfl⟩
  · cases hp
  · rw [grownProperties_declared hp] at ha
    cases ha
  · cases hp

theorem early_grows : Extends early later := by
  refine ⟨fun path cls hcls hgap => ?_, fun path item hitem => ?_⟩
  · have hmem := SortedMap.mem_of_get hcls
    simp only [early, graphOf, List.map_cons, List.map_nil, List.mem_cons, List.not_mem_nil,
      or_false, Prod.mk.injEq] at hmem
    rcases hmem with ⟨rfl, rfl⟩ | ⟨rfl, rfl⟩ | ⟨rfl, rfl⟩
    · exact SortedMap.get_of_mem (m := later.classes) (.head _)
    · exact SortedMap.get_of_mem (m := later.classes) (.tail _ (.head _))
    · cases hgap
  · cases hitem

theorem the_early_answer_stays :
    Conclusive (resolveMember early (diamondPath 'a') grownMember) ∧
      SameAnswer (resolveMember early (diamondPath 'a') grownMember)
        (resolveMember later (diamondPath 'a') grownMember) :=
  ⟨by decide, conclusive_answers_stay early later early_grows early_linked (diamondPath 'a')
    (by decide) grownMember (by decide) (by decide)⟩

end analyzer.resolve.Resolver
