-- The laws of the associations in a loaded model: the check before the
-- insertion lets only ends through that have a place of their own, so none of
-- them meets another one or a declared property when it is inserted.
import PureAnalyzer.Grouping
import PureAnalyzer.Loader

namespace analyzer.loader

open fragments model diagnostics grouping

/-! ## The property at a place -/

def propertyAt (classes : SortedMap QName ClassInfo) (k : EndKey) : Option PropInfo :=
  (classes.get (ofLex k).1).bind fun cls => cls.properties.get (ofLex k).2

/-- The owner of the end is there, and has no property of its name. -/
def Free (classes : Classes) (e : QName × PropInfo) : Prop :=
  (classes.get e.1).isSome = true ∧ propertyAt classes.map (endKey e) = none

theorem endFailure_eq_none {classes : Classes} {a : PreparedAssociation} {e : QName × PropInfo}
    (h : endFailure classes a e = none) : Free classes e := by
  unfold endFailure at h
  unfold Free propertyAt
  cases hcls : classes.get e.1 with
  | none =>
    rw [hcls] at h
    cases h
  | some cls =>
    rw [hcls] at h
    simp only at h
    split_ifs at h with hsome
    refine ⟨rfl, ?_⟩
    have hget : classes.map.get (ofLex (endKey e)).1 = some cls := hcls
    rw [hget, Option.bind_some]
    exact Option.not_isSome_iff_eq_none.mp hsome

/-! ## Attaching an end -/

/-- The classes with an end as a property of its owner. -/
def attach (classes : Classes) (e : QName × PropInfo) : Classes :=
  match classes.get e.1 with
  | none => classes
  | some cls => classes.insert { cls with properties := cls.properties.insert e.2.name e.2 }

def attachAll (classes : Classes) (ends : List (QName × PropInfo)) : Classes :=
  ends.foldl attach classes

/-- A class without its properties. -/
def bare (cls : ClassInfo) : ClassInfo := { cls with properties := SortedMap.empty }

theorem get_attach {classes : Classes} {e : QName × PropInfo} {cls : ClassInfo}
    (h : classes.get e.1 = some cls) (owner : QName) :
    (attach classes e).get owner =
      if owner = e.1 then some { cls with properties := cls.properties.insert e.2.name e.2 }
      else classes.get owner := by
  have hattach : attach classes e =
      classes.insert { cls with properties := cls.properties.insert e.2.name e.2 } := by
    unfold attach
    rw [h]
  have hpath : cls.path = e.1 := classes.keyed _ _ h
  rw [hattach]
  show (classes.map.insert cls.path _).get owner = _
  rw [SortedMap.get_insert, hpath]
  rfl

/-- An attachment changes one property. -/
theorem propertyAt_attach {classes : Classes} {e : QName × PropInfo}
    (h : (classes.get e.1).isSome = true) (k : EndKey) :
    propertyAt (attach classes e).map k =
      if k = endKey e then some e.2 else propertyAt classes.map k := by
  obtain ⟨cls, hcls⟩ := Option.isSome_iff_exists.mp h
  have hget := get_attach hcls (ofLex k).1
  have hown : classes.map.get e.1 = some cls := hcls
  unfold propertyAt
  rw [show (attach classes e).map.get (ofLex k).1 = _ from hget]
  by_cases howner : (ofLex k).1 = e.1
  · rw [if_pos howner, Option.bind_some, SortedMap.get_insert, howner, hown, Option.bind_some]
    by_cases hname : (ofLex k).2 = e.2.name
    · have hk : k = endKey e := ofLex_inj.mp (Prod.ext howner hname)
      rw [if_pos hname, if_pos hk]
    · have hk : k ≠ endKey e := fun heq => hname (by rw [heq]; rfl)
      rw [if_neg hname, if_neg hk]
  · have hk : k ≠ endKey e := fun heq => howner (by rw [heq]; rfl)
    rw [if_neg howner, if_neg hk]
    rfl

/-- What an attachment changes is the properties. -/
theorem bare_attach (classes : Classes) (e : QName × PropInfo) (owner : QName) :
    ((attach classes e).get owner).map bare = (classes.get owner).map bare := by
  cases hcls : classes.get e.1 with
  | none =>
    unfold attach
    rw [hcls]
  | some cls =>
    rw [get_attach hcls]
    by_cases howner : owner = e.1
    · rw [if_pos howner, howner, hcls]
      rfl
    · rw [if_neg howner]

theorem bare_attachAll (classes : Classes) (ends : List (QName × PropInfo)) (owner : QName) :
    ((attachAll classes ends).get owner).map bare = (classes.get owner).map bare := by
  induction ends generalizing classes with
  | nil => rfl
  | cons e ends ih =>
    show ((attachAll (attach classes e) ends).get owner).map bare = _
    rw [ih, bare_attach]

theorem isSome_attachAll (classes : Classes) (ends : List (QName × PropInfo)) (owner : QName) :
    ((attachAll classes ends).get owner).isSome = (classes.get owner).isSome := by
  have h := congrArg Option.isSome (bare_attachAll classes ends owner)
  rwa [Option.isSome_map, Option.isSome_map] at h

theorem isSome_attach (classes : Classes) (e : QName × PropInfo) (owner : QName) :
    ((attach classes e).get owner).isSome = (classes.get owner).isSome :=
  isSome_attachAll classes [e] owner

theorem Free.attach {classes : Classes} {e e' : QName × PropInfo} (h : Free classes e)
    (h' : Free classes e') (hne : endKey e ≠ endKey e') : Free (attach classes e') e := by
  refine ⟨?_, ?_⟩
  · rw [isSome_attach]
    exact h.1
  · rw [propertyAt_attach h'.1, if_neg hne]
    exact h.2

theorem Free.attach_each {classes : Classes} {e : QName × PropInfo}
    {ends : List (QName × PropInfo)} (h : ∀ e' ∈ e :: ends, Free classes e')
    (hkeys : ((e :: ends).map endKey).Nodup) : ∀ e' ∈ ends, Free (loader.attach classes e) e' := by
  intro e' he'
  refine (h e' (List.mem_cons_of_mem _ he')).attach (h e List.mem_cons_self) ?_
  intro heq
  apply (List.nodup_cons.mp hkeys).1
  rw [← heq]
  exact List.mem_map_of_mem he'

/-- Ends with places of their own are all found there, and nothing else
changes. -/
theorem propertyAt_attachAll {classes : Classes} {ends : List (QName × PropInfo)}
    (h : ∀ e ∈ ends, Free classes e) (hkeys : (ends.map endKey).Nodup) (k : EndKey) :
    propertyAt (attachAll classes ends).map k =
      match ends.find? (endKey · = k) with
      | some e => some e.2
      | none => propertyAt classes.map k := by
  induction ends generalizing classes with
  | nil => rfl
  | cons e ends ih =>
    show propertyAt (attachAll (attach classes e) ends).map k = _
    rw [ih (Free.attach_each h hkeys) (List.nodup_cons.mp hkeys).2]
    by_cases hk : endKey e = k
    · have hnone : ends.find? (endKey · = k) = none := by
        rw [List.find?_eq_none]
        intro e' he' heq
        apply (List.nodup_cons.mp hkeys).1
        rw [hk, ← of_decide_eq_true heq]
        exact List.mem_map_of_mem he'
      rw [hnone, List.find?_cons_of_pos (by simpa using hk)]
      show propertyAt (attach classes e).map k = some e.2
      rw [propertyAt_attach (h e List.mem_cons_self).1, if_pos hk.symm]
    · rw [List.find?_cons_of_neg (by simpa using hk)]
      rw [propertyAt_attach (h e List.mem_cons_self).1, if_neg (Ne.symm hk)]

/-! ## Inserting the ends -/

/-- An end with a place of its own is inserted without an error. -/
theorem insertAssociationEnd_free {classes : Classes} {e : QName × PropInfo}
    (h : Free classes e) (source : Nat) (association : QName) :
    insertAssociationEnd classes source e.1 e.2 association = .ok (attach classes e) := by
  obtain ⟨cls, hcls⟩ := Option.isSome_iff_exists.mp h.1
  have hnone : cls.properties.get e.2.name = none := by
    have hfree := h.2
    unfold propertyAt at hfree
    rwa [show classes.map.get (ofLex (endKey e)).1 = some cls from hcls, Option.bind_some] at hfree
  unfold insertAssociationEnd attach
  rw [hcls]
  simp only [hnone, Option.isSome_none, Bool.false_eq_true, if_false]

theorem insertions_reached {classes : Classes} {front back : List (QName × PropInfo)}
    {e : QName × PropInfo} (h : ∀ e' ∈ front ++ e :: back, Free classes e')
    (hkeys : ((front ++ e :: back).map endKey).Nodup) : Free (attachAll classes front) e := by
  induction front generalizing classes with
  | nil => exact h e List.mem_cons_self
  | cons e' front ih =>
    show Free (attachAll (attach classes e') front) e
    exact ih (Free.attach_each h hkeys) (List.nodup_cons.mp hkeys).2

theorem materializePreparedAssociation_free {classes : Classes} {a : PreparedAssociation}
    (h : ∀ e ∈ a.ends, Free classes e) (hkeys : (a.ends.map endKey).Nodup) :
    materializePreparedAssociation classes a = .ok (attachAll classes a.ends, a.assocInfo) := by
  have hfirst : Free classes (a.first_owner, a.first) := h _ List.mem_cons_self
  have hsecond : Free (attach classes (a.first_owner, a.first)) (a.second_owner, a.second) :=
    Free.attach_each h hkeys _ List.mem_cons_self
  unfold materializePreparedAssociation
  rw [insertAssociationEnd_free hfirst a.source a.path]
  simp only
  rw [insertAssociationEnd_free hsecond a.source a.path]
  rfl

/-- The associations that the check let through. -/
def accepted (zipped : List (PreparedAssociation × Option ModelErrorKind)) :
    List PreparedAssociation := (zipped.filter (·.2.isNone)).map Prod.fst

def endsOf (associations : List PreparedAssociation) : List (QName × PropInfo) :=
  associations.flatMap PreparedAssociation.ends

/-- The run over all the associations goes through when the ends of those that
did not fail have places of their own. -/
theorem materializeEach_run {m : AssociationMaterialization}
    {zipped : List (PreparedAssociation × Option ModelErrorKind)}
    (h : ∀ e ∈ endsOf (accepted zipped), Free m.classes e)
    (hkeys : ((endsOf (accepted zipped)).map endKey).Nodup) :
    ∃ result, materializeEach m zipped = .ok result ∧
      result.classes = attachAll m.classes (endsOf (accepted zipped)) ∧
      result.associations =
        m.associations ++ (accepted zipped).map PreparedAssociation.assocInfo ∧
      result.coverage_gap = (m.coverage_gap || zipped.any (·.2.isSome)) := by
  induction zipped generalizing m with
  | nil => exact ⟨m, rfl, rfl, (List.append_nil _).symm, (Bool.or_false _).symm⟩
  | cons z rest ih =>
    obtain ⟨a, _ | failure⟩ := z
    · have hcons : accepted ((a, none) :: rest) = a :: accepted rest := rfl
      have hends : endsOf (accepted ((a, none) :: rest)) = a.ends ++ endsOf (accepted rest) := by
        rw [hcons]
        rfl
      rw [hends] at h hkeys ⊢
      have hown : ∀ e ∈ a.ends, Free m.classes e := fun e he => h e (List.mem_append_left _ he)
      rw [List.map_append] at hkeys
      obtain ⟨hkeysOwn, hkeysRest, hapart⟩ := List.nodup_append.mp hkeys
      have hrest : ∀ e ∈ endsOf (accepted rest), Free (attachAll m.classes a.ends) e := by
        intro e he
        obtain ⟨before, after, hsplit⟩ := List.append_of_mem he
        apply @insertions_reached m.classes a.ends []
        · intro e' he'
          rcases List.mem_append.mp he' with he' | he'
          · exact hown e' he'
          · obtain rfl := List.mem_singleton.mp he'
            exact h e' (List.mem_append_right _ he)
        · rw [List.map_append, List.map_singleton]
          refine List.nodup_append.mpr ⟨hkeysOwn, List.nodup_singleton _, ?_⟩
          intro k hk k' hk'
          obtain rfl := List.mem_singleton.mp hk'
          exact hapart k hk _ (List.mem_map_of_mem he)
      obtain ⟨result, hrun, hclasses, hassociations, hgap⟩ := ih (m := {
        m with
        classes := attachAll m.classes a.ends
        associations := m.associations ++ [a.assocInfo] }) hrest hkeysRest
      refine ⟨result, ?_, ?_, ?_, ?_⟩
      · rw [materializeEach, materializePreparedAssociation_free hown hkeysOwn]
        exact hrun
      · rw [hclasses]
        unfold attachAll
        rw [List.foldl_append]
      · rw [hassociations, hcons, List.map_cons, List.append_assoc, List.singleton_append]
      · rw [hgap, List.any_cons]
        rfl
    · have hcons : accepted ((a, some failure) :: rest) = accepted rest := rfl
      rw [hcons] at h hkeys ⊢
      obtain ⟨result, hrun, hclasses, hassociations, hgap⟩ := ih (m := {
        m with
        coverage_gap := true
        diagnostics := m.diagnostics ++
          [pureAssociationMaterializationDiagnostic a failure] }) h hkeys
      refine ⟨result, ?_, hclasses, hassociations, ?_⟩
      · rw [materializeEach]
        exact hrun
      · rw [hgap, List.any_cons]
        simp

/-! ## What the check lets through -/

section

variable {associations : List PreparedAssociation}

/-- The claim of every end to its place, but for those of associations that
have failed. -/
def claims (failures : Failures associations) : List (EndKey × Fin associations.length) :=
  ((List.finRange associations.length).filter fun index => (failures index).isNone).flatMap
    fun index => (associations.get index).ends.map fun e => (endKey e, index)

theorem contribute_eq (failures : Failures associations) :
    (List.finRange associations.length).foldl (contribute associations failures) SortedMap.empty =
      group (claims failures) := by
  unfold group claims
  rw [List.foldl_flatMap, List.foldl_filter]
  apply List.foldl_ext
  intro groups index _
  unfold contribute
  cases hfailure : failures index with
  | none =>
    simp only [Option.isSome_none, Bool.false_eq_true, if_false, Option.isNone_none, if_true]
    rw [List.foldl_map]
    rfl
  | some failure => rfl

theorem isSome_getOrInsert (failures : Failures associations) (index j : Fin associations.length)
    (failure : ModelErrorKind) :
    (getOrInsert failures index failure j).isSome = true ↔
      j = index ∨ (failures j).isSome = true := by
  unfold getOrInsert
  by_cases hj : j = index
  · subst hj
    rw [Function.update_self]
    simp
  · rw [Function.update_of_ne hj]
    simp [hj]

theorem isSome_failEach (failures : Failures associations) (l : List (Fin associations.length))
    (spared : Fin associations.length → Bool) (failure : Fin associations.length → ModelErrorKind)
    (j : Fin associations.length) :
    ((l.foldl (fun failures index =>
      if spared index then failures else getOrInsert failures index (failure index)) failures)
        j).isSome = true ↔
      (failures j).isSome = true ∨ j ∈ l ∧ spared j = false := by
  induction l generalizing failures with
  | nil => simp
  | cons index l ih =>
    rw [List.foldl_cons, ih]
    by_cases hspared : spared index = true
    · rw [if_pos hspared, List.mem_cons]
      by_cases hj : j = index
      · subst hj
        simp [hspared]
      · simp [hj]
    · rw [if_neg hspared, isSome_getOrInsert, List.mem_cons]
      by_cases hj : j = index
      · subst hj
        simp [hspared]
      · simp [hj]

/-- A contributor that is the only PMCD one is spared. -/
def spared (contributors : List (Fin associations.length)) (index : Fin associations.length) :
    Bool :=
  contributors.countP (isPmcd associations) = 1 ∧ isPmcd associations index

theorem isSome_failContributors (failures : Failures associations)
    (entry : EndKey × List (Fin associations.length)) (j : Fin associations.length) :
    (failContributors associations failures entry j).isSome = true ↔
      (failures j).isSome = true ∨
        2 ≤ entry.2.length ∧ j ∈ entry.2 ∧ spared entry.2 j = false := by
  unfold failContributors
  by_cases hshared : entry.2.length < 2
  · simp only [if_pos hshared]
    constructor
    · exact .inl
    · rintro (h | ⟨hlen, -, -⟩)
      · exact h
      · omega
  · simp only [if_neg hshared]
    have hfold := isSome_failEach failures entry.2 (spared entry.2)
      (fun index => .AssociationPropertyConflict (associations.get index).path
        (ofLex entry.1).1 (ofLex entry.1).2) j
    simp only [spared, decide_eq_true_eq] at hfold ⊢
    rw [hfold]
    constructor
    · rintro (h | h)
      · exact .inl h
      · exact .inr ⟨by omega, h⟩
    · rintro (h | h)
      · exact .inl h
      · exact .inr h.2

theorem isSome_failAll (failures : Failures associations)
    (entries : List (EndKey × List (Fin associations.length))) (j : Fin associations.length) :
    ((entries.foldl (failContributors associations) failures) j).isSome = true ↔
      (failures j).isSome = true ∨
        ∃ entry ∈ entries, 2 ≤ entry.2.length ∧ j ∈ entry.2 ∧ spared entry.2 j = false := by
  induction entries generalizing failures with
  | nil => simp
  | cons entry entries ih =>
    rw [List.foldl_cons, ih, isSome_failContributors]
    simp only [List.mem_cons, exists_eq_or_imp]
    rw [or_assoc]

/-- An association that passes the check has failed on no class. -/
theorem ownerFailures_of_passes {classes : Classes} {index : Fin associations.length}
    (h : preflightAssociationFailures associations classes index = none) :
    ownerFailures associations classes index = none := by
  rw [← Option.not_isSome_iff_eq_none] at h ⊢
  intro howner
  exact h ((isSome_failAll _ _ index).mpr (.inl howner))

theorem free_of_passes {classes : Classes} {index : Fin associations.length}
    (h : preflightAssociationFailures associations classes index = none) :
    ∀ e ∈ (associations.get index).ends, Free classes e := by
  intro e he
  exact endFailure_eq_none (List.findSome?_eq_none_iff.mp (ownerFailures_of_passes h) e he)

/-- Of the claims to one place, those that pass are one at most. -/
theorem sole_of_passes {classes : Classes} {index : Fin associations.length} {k : EndKey}
    (h : preflightAssociationFailures associations classes index = none)
    (hshared : 2 ≤ (holders (claims (ownerFailures associations classes)) k).length)
    (hholds : index ∈ holders (claims (ownerFailures associations classes)) k) :
    isPmcd associations index = true ∧
      (holders (claims (ownerFailures associations classes)) k).countP (isPmcd associations) =
        1 := by
  rw [← Option.not_isSome_iff_eq_none] at h
  have hspared : spared (holders (claims (ownerFailures associations classes)) k) index = true := by
    by_contra hnot
    apply h
    unfold preflightAssociationFailures
    rw [contribute_eq, isSome_failAll]
    refine .inr ⟨(k, holders (claims (ownerFailures associations classes)) k), ?_, hshared, hholds,
      Bool.eq_false_iff.mpr hnot⟩
    exact SortedMap.mem_of_get (get_group hholds)
  exact (of_decide_eq_true hspared).symm

/-- The claims of those that pass are made by those alone. -/
theorem claims_filter {failures : Failures associations} {passes : Fin associations.length → Bool}
    (h : ∀ index, passes index = true → failures index = none) :
    (claims failures).filter (passes ·.2) =
      ((List.finRange associations.length).filter passes).flatMap
        fun index => (associations.get index).ends.map fun e => (endKey e, index) := by
  unfold claims
  induction List.finRange associations.length with
  | nil => rfl
  | cons index rest ih =>
    by_cases hpasses : passes index = true
    · rw [List.filter_cons_of_pos (by rw [h index hpasses]; rfl), List.filter_cons_of_pos hpasses,
        List.flatMap_cons, List.flatMap_cons, List.filter_append, ih]
      congr 1
      apply List.filter_eq_self.mpr
      intro claim hclaim
      obtain ⟨e, -, rfl⟩ := List.mem_map.mp hclaim
      exact hpasses
    · rw [List.filter_cons_of_neg hpasses, ← ih]
      by_cases hfailed : (failures index).isNone = true
      · rw [List.filter_cons_of_pos (p := fun index => (failures index).isNone) hfailed,
          List.flatMap_cons, List.filter_append]
        have hnone : ((associations.get index).ends.map fun e => (endKey e, index)).filter
            (passes ·.2) = [] := by
          apply List.filter_eq_nil_iff.mpr
          intro claim hclaim
          obtain ⟨e, -, rfl⟩ := List.mem_map.mp hclaim
          exact hpasses
        rw [hnone, List.nil_append]
      · rw [List.filter_cons_of_neg (p := fun index => (failures index).isNone) hfailed]

end

def passes (classes : Classes) (prepared : List PreparedAssociation) (index : Fin prepared.length) :
    Bool := (preflightAssociationFailures prepared classes index).isNone

theorem accepted_checked (classes : Classes) (prepared : List PreparedAssociation) :
    accepted (checked classes prepared) =
      ((List.finRange prepared.length).filter (passes classes prepared)).map prepared.get := by
  unfold accepted checked
  rw [List.filter_map, List.map_map]
  rfl

/-- The ends of the accepted associations have places of their own. -/
theorem accepted_keys_nodup (classes : Classes) (prepared : List PreparedAssociation) :
    ((endsOf (accepted (checked classes prepared))).map endKey).Nodup := by
  have hsole := @keys_nodup _ _ _ (claims (ownerFailures prepared classes))
    (passes classes prepared) (isPmcd prepared) fun k hshared index hholds hpasses =>
      sole_of_passes (Option.isNone_iff_eq_none.mp hpasses) hshared hholds
  have howner : ∀ index, passes classes prepared index = true →
      ownerFailures prepared classes index = none := fun index hpasses =>
    ownerFailures_of_passes (Option.isNone_iff_eq_none.mp hpasses)
  rw [claims_filter howner, List.map_flatMap] at hsole
  rw [accepted_checked, endsOf, List.flatMap_map, List.map_flatMap]
  simpa only [List.map_map, Function.comp_def] using hsole

theorem accepted_free (classes : Classes) (prepared : List PreparedAssociation) :
    ∀ e ∈ endsOf (accepted (checked classes prepared)), Free classes e := by
  intro e he
  rw [accepted_checked] at he
  obtain ⟨a, ha, he⟩ := List.mem_flatMap.mp he
  obtain ⟨index, hindex, rfl⟩ := List.mem_map.mp ha
  exact free_of_passes (Option.isNone_iff_eq_none.mp (List.mem_filter.mp hindex).2) e he

/-! ## What a load makes of the associations -/

/-- The associations of the merged model, with what the check found. -/
def checkedAssociations (elements : Elements) :
    List (PreparedAssociation × Option ModelErrorKind) :=
  checked elements.classes (elements.associations.map PreparedAssociation.fromDraft)

def acceptedAssociations (elements : Elements) : List PreparedAssociation :=
  accepted (checkedAssociations elements)

/-- The check fails no association of a closed-world source. -/
def Preflighted (elements : Elements) : Prop :=
  ∀ z ∈ checkedAssociations elements, z.1.provenance = .Pmcd → z.2 = none

theorem closedWorldError_eq_none {z : PreparedAssociation × Option ModelErrorKind} :
    closedWorldError z = none ↔ (z.1.provenance = .Pmcd → z.2 = none) := by
  obtain ⟨a, _ | failure⟩ := z
  · simp [closedWorldError]
  · by_cases ha : a.provenance = .Pmcd
    · simp [closedWorldError, ha]
    · simp [closedWorldError, ha]

theorem preflighted_iff {elements : Elements} :
    (checkedAssociations elements).findSome? closedWorldError = none ↔ Preflighted elements := by
  rw [List.findSome?_eq_none_iff]
  constructor
  · intro h z hz
    exact closedWorldError_eq_none.mp (h z hz)
  · intro h z hz
    exact closedWorldError_eq_none.mpr (h z hz)

/-- Past the check nothing fails. -/
theorem materializeAssociations_of_preflighted {elements : Elements}
    (h : Preflighted elements) :
    ∃ m, materializeAssociations elements.classes elements.associations = .ok m ∧
      m.classes = attachAll elements.classes (endsOf (acceptedAssociations elements)) ∧
      m.associations = (acceptedAssociations elements).map PreparedAssociation.assocInfo ∧
      m.coverage_gap = (checkedAssociations elements).any (·.2.isSome) := by
  obtain ⟨m, hrun, hclasses, hassociations, hgap⟩ := @materializeEach_run
    ⟨elements.classes, [], [], false⟩ (checkedAssociations elements)
    (accepted_free _ _) (accepted_keys_nodup _ _)
  refine ⟨m, ?_, hclasses, hassociations, hgap⟩
  have hnone : (checked elements.classes
      (elements.associations.map PreparedAssociation.fromDraft)).findSome? closedWorldError = none :=
    preflighted_iff.mpr h
  unfold materializeAssociations
  dsimp only
  rw [hnone]
  exact hrun

theorem materializeAssociations_failed {elements : Elements} {error : ModelError}
    (h : (checkedAssociations elements).findSome? closedWorldError = some error) :
    materializeAssociations elements.classes elements.associations = .error error := by
  unfold checkedAssociations at h
  unfold materializeAssociations
  dsimp only
  rw [h]

theorem materializeAssociations_error {elements : Elements} {error : ModelError}
    (h : materializeAssociations elements.classes elements.associations = .error error) :
    ∃ z ∈ checkedAssociations elements, closedWorldError z = some error := by
  cases hfirst : (checkedAssociations elements).findSome? closedWorldError with
  | none =>
    obtain ⟨m, hok, -⟩ := materializeAssociations_of_preflighted (preflighted_iff.mp hfirst)
    rw [hok] at h
    cases h
  | some first =>
    rw [materializeAssociations_failed hfirst] at h
    obtain rfl := Except.error.inj h
    exact List.exists_of_findSome?_eq_some hfirst

/-- The classes as a load leaves them: with the ends of the accepted
associations, and marked when one was rejected. -/
def loadedClasses (elements : Elements) : Classes :=
  if (checkedAssociations elements).any (·.2.isSome) then
    (attachAll elements.classes (endsOf (acceptedAssociations elements))).markCoverageGaps
  else attachAll elements.classes (endsOf (acceptedAssociations elements))

theorem finish_ok {merger : ModelMerger} {graph : ModelGraph} (h : merger.finish = .ok graph) :
    Preflighted merger.elements ∧ graph.classes = (loadedClasses merger.elements).map ∧
      graph.associations =
        (acceptedAssociations merger.elements).map PreparedAssociation.assocInfo := by
  cases hmaterialize :
      materializeAssociations merger.elements.classes merger.elements.associations with
  | error error =>
    unfold ModelMerger.finish at h
    rw [hmaterialize] at h
    cases h
  | ok m =>
    have hpreflighted : Preflighted merger.elements := by
      rw [← preflighted_iff]
      cases hfirst : (checkedAssociations merger.elements).findSome? closedWorldError with
      | none => rfl
      | some error =>
        rw [materializeAssociations_failed hfirst] at hmaterialize
        cases hmaterialize
    obtain ⟨m', hok, hclasses, hassociations, hgap⟩ :=
      materializeAssociations_of_preflighted hpreflighted
    rw [hmaterialize] at hok
    obtain rfl := Except.ok.inj hok
    unfold ModelMerger.finish at h
    rw [hmaterialize] at h
    simp only at h
    split at h
    · cases h
    · obtain rfl := Except.ok.inj h
      refine ⟨hpreflighted, ?_, hassociations⟩
      unfold loadedClasses
      rw [← hgap, ← hclasses]

/-! ## Paths -/

/-- The associations of a model have different paths. -/
theorem paths_nodup (elements : Elements) :
    ((elements.associations.map PreparedAssociation.fromDraft).map
      PreparedAssociation.path).Nodup := by
  have hsorted : (elements.associations.map AssocDraft.path).Pairwise (· < ·) := by
    unfold Elements.associations
    rw [List.pairwise_map, List.pairwise_filterMap]
    have hpath : ∀ entry ∈ elements.map.entries, ∀ a, entry.2.asAssociation = some a →
        a.path = entry.1 := by
      intro entry hentry a ha
      rw [← elements.keyed _ _ (SortedMap.get_of_mem hentry)]
      cases helement : entry.2 with
      | Class cls =>
        rw [helement] at ha
        cases ha
      | Association association =>
        rw [helement] at ha
        rw [← Option.some.inj ha]
        rfl
    refine elements.map.sorted.imp_of_mem fun {x y} hx hy hlt => ?_
    intro a ha b hb
    rw [hpath x hx a ha, hpath y hy b hb]
    exact hlt
  rw [List.map_map]
  exact hsorted.imp ne_of_lt

/-- An association is accepted or rejected. -/
theorem path_of_rejected {elements : Elements} {z : PreparedAssociation × Option ModelErrorKind}
    (hz : z ∈ checkedAssociations elements) (hrejected : z.2 ≠ none) :
    ∀ a ∈ acceptedAssociations elements, a.path ≠ z.1.path := by
  intro a ha hpath
  unfold acceptedAssociations checkedAssociations at ha
  rw [accepted_checked] at ha
  obtain ⟨i, hi, rfl⟩ := List.mem_map.mp ha
  obtain ⟨j, -, rfl⟩ := List.mem_map.mp hz
  have hinj := List.inj_on_of_nodup_map (paths_nodup elements)
  have hsame := hinj (List.get_mem _ i) (List.get_mem _ j) hpath
  have hnodup : (elements.associations.map PreparedAssociation.fromDraft).Nodup :=
    (paths_nodup elements).of_map _
  obtain rfl := List.nodup_iff_injective_get.mp hnodup hsame
  exact hrejected (Option.isNone_iff_eq_none.mp (List.mem_filter.mp hi).2)

/-! ## The loaded model -/

theorem propertyAt_mark (classes : Classes) (k : EndKey) :
    propertyAt classes.markCoverageGaps.map k = propertyAt classes.map k := by
  unfold propertyAt Classes.markCoverageGaps
  rw [SortedMap.get_mapValues]
  cases classes.map.get (ofLex k).1 with
  | none => rfl
  | some cls => rfl

/-- The ends of the associations, each with the association it is of. -/
def directedEnds (associations : List AssocInfo) : List (AssocInfo × AssociationEndInfo) :=
  associations.flatMap fun a => a.ends.map fun e => (a, e)

/-- The insertion of all the ends, one after the other. -/
def insertEnds (classes : Classes) (ends : List (AssocInfo × AssociationEndInfo)) :
    Except ModelError Classes :=
  ends.foldlM
    (fun classes x =>
      insertAssociationEnd classes x.1.source x.2.owner x.2.property x.1.path)
    classes

def place (x : AssocInfo × AssociationEndInfo) : EndKey := endKey (x.2.owner, x.2.property)

/-- A class without its properties and without the mark of a gap. -/
def outline (cls : ClassInfo) : ClassInfo :=
  { cls with properties := SortedMap.empty, coverage_gap := false }

/-- What the classes of a loaded model have from its associations. -/
structure Materialized (elements : Elements) (graph : ModelGraph) : Prop where
  accepted : graph.associations =
    (acceptedAssociations elements).map PreparedAssociation.assocInfo
  /-- Every end is a property of its owner, tagged with its association. -/
  tagged : ∀ x ∈ directedEnds graph.associations,
    propertyAt graph.classes (place x) = some x.2.property ∧
      x.2.property.association = some x.1.path
  /-- No declared property was overwritten or dropped. -/
  kept : ∀ k p, propertyAt elements.classes.map k = some p → propertyAt graph.classes k = some p
  /-- The insertion of every end, each once, makes the classes of the model. -/
  inserted : ∃ classes,
    insertEnds elements.classes (directedEnds graph.associations) = .ok classes ∧
      (graph.classes = classes.map ∨ graph.classes = classes.markCoverageGaps.map)
  once : ((directedEnds graph.associations).map place).Nodup
  /-- There is no other property. -/
  only : ∀ k p, propertyAt graph.classes k = some p →
    propertyAt elements.classes.map k = some p ∨
      ∃ x ∈ directedEnds graph.associations, place x = k ∧ x.2.property = p
  /-- Nothing else of a class has changed, and no class is new or gone. -/
  outlined : ∀ path,
    (graph.classes.get path).map outline = (elements.classes.get path).map outline
  /-- A rejected association leaves every class open, and nothing in any. -/
  rejected : ∀ z ∈ checkedAssociations elements, z.2 ≠ none →
    (∀ path cls, graph.classes.get path = some cls → cls.coverage_gap = true) ∧
      ∀ k p, propertyAt graph.classes k = some p → p.association ≠ some z.1.path

theorem insertEnds_free {classes : Classes} {ends : List (AssocInfo × AssociationEndInfo)}
    (h : ∀ x ∈ ends, Free classes (x.2.owner, x.2.property)) (hkeys : (ends.map place).Nodup) :
    insertEnds classes ends =
      .ok (attachAll classes (ends.map fun x => (x.2.owner, x.2.property))) := by
  induction ends generalizing classes with
  | nil => rfl
  | cons x ends ih =>
    have hhead := insertAssociationEnd_free (h x List.mem_cons_self) x.1.source x.1.path
    unfold insertEnds
    rw [List.foldlM_cons, hhead]
    refine ih (fun y hy => ?_) (List.nodup_cons.mp hkeys).2
    apply (h y (List.mem_cons_of_mem _ hy)).attach (h x List.mem_cons_self)
    intro heq
    apply (List.nodup_cons.mp hkeys).1
    rw [show place x = place y from heq.symm]
    exact List.mem_map_of_mem hy

theorem directedEnds_assocInfo (associations : List PreparedAssociation) :
    (directedEnds (associations.map PreparedAssociation.assocInfo)).map
      (fun x => (x.2.owner, x.2.property)) = endsOf associations := by
  unfold directedEnds endsOf
  rw [List.flatMap_map, List.map_flatMap]
  rfl

theorem outline_loadedClasses (elements : Elements) (path : QName) :
    ((loadedClasses elements).get path).map outline = (elements.classes.get path).map outline := by
  have hbare := bare_attachAll elements.classes (endsOf (acceptedAssociations elements)) path
  have houtline : ∀ found : Option ClassInfo,
      found.map outline = (found.map bare).map outline := by
    intro found
    rw [Option.map_map]
    rfl
  unfold loadedClasses
  split_ifs with hgap
  · unfold Classes.get Classes.markCoverageGaps
    rw [SortedMap.get_mapValues, Option.map_map]
    show ((attachAll elements.classes _).get path).map outline = _
    rw [houtline, hbare, ← houtline]
    rfl
  · rw [houtline, hbare, ← houtline]

theorem free_accepted (elements : Elements) :
    ∀ e ∈ endsOf (acceptedAssociations elements), Free elements.classes e := accepted_free _ _

theorem keys_accepted (elements : Elements) :
    ((endsOf (acceptedAssociations elements)).map endKey).Nodup := accepted_keys_nodup _ _

theorem propertyAt_loadedClasses (elements : Elements) (k : EndKey) :
    propertyAt (loadedClasses elements).map k =
      match (endsOf (acceptedAssociations elements)).find? (endKey · = k) with
      | some e => some e.2
      | none => propertyAt elements.classes.map k := by
  rw [← propertyAt_attachAll (free_accepted elements) (keys_accepted elements)]
  unfold loadedClasses
  split_ifs with hgap
  · exact propertyAt_mark _ _
  · rfl

/-- An end of an accepted association is found at its place. -/
theorem propertyAt_end {elements : Elements} {e : QName × PropInfo}
    (he : e ∈ endsOf (acceptedAssociations elements)) :
    propertyAt (loadedClasses elements).map (endKey e) = some e.2 := by
  rw [propertyAt_loadedClasses]
  cases hfind : (endsOf (acceptedAssociations elements)).find? (endKey · = endKey e) with
  | none => exact absurd (decide_eq_true rfl) (List.find?_eq_none.mp hfind e he)
  | some found =>
    have hkey : endKey found = endKey e := by simpa using List.find?_some hfind
    have hsame := List.inj_on_of_nodup_map (keys_accepted elements)
      (List.mem_of_find?_eq_some hfind) he hkey
    rw [hsame]

/-- A declared property stays as it is. -/
theorem propertyAt_declared {elements : Elements} {k : EndKey} {p : PropInfo}
    (h : propertyAt elements.classes.map k = some p) :
    propertyAt (loadedClasses elements).map k = some p := by
  rw [propertyAt_loadedClasses]
  cases hfind : (endsOf (acceptedAssociations elements)).find? (endKey · = k) with
  | none => exact h
  | some found =>
    have hkey : endKey found = k := by simpa using List.find?_some hfind
    have hfree := (free_accepted elements found (List.mem_of_find?_eq_some hfind)).2
    rw [hkey, h] at hfree
    cases hfree

theorem propertyAt_origin {elements : Elements} {k : EndKey} {p : PropInfo}
    (h : propertyAt (loadedClasses elements).map k = some p) :
    propertyAt elements.classes.map k = some p ∨
      ∃ e ∈ endsOf (acceptedAssociations elements), endKey e = k ∧ e.2 = p := by
  rw [propertyAt_loadedClasses] at h
  cases hfind : (endsOf (acceptedAssociations elements)).find? (endKey · = k) with
  | none =>
    rw [hfind] at h
    exact .inl h
  | some found =>
    rw [hfind] at h
    have hkey : endKey found = k := by simpa using List.find?_some hfind
    exact .inr ⟨found, List.mem_of_find?_eq_some hfind, hkey, Option.some.inj h⟩

/-- A declared property is of no association. -/
theorem association_declared {elements : Elements} {k : EndKey} {p : PropInfo}
    (h : propertyAt elements.classes.map k = some p) : p.association = none := by
  obtain ⟨cls, hcls, hp⟩ := Option.bind_eq_some_iff.mp h
  have hget : (elements.map.get (ofLex k).1).bind FragmentElement.asClass = some cls := by
    rw [← SortedMap.get_filterMapValues]
    exact hcls
  obtain ⟨element, helement, hclass⟩ := Option.bind_eq_some_iff.mp hget
  cases element with
  | Class declared =>
    obtain rfl := Option.some.inj hclass
    exact elements.declared _ _ helement _ _ hp
  | Association association => cases hclass

theorem accepted_draft {elements : Elements} {a : PreparedAssociation}
    (h : a ∈ acceptedAssociations elements) :
    ∃ association ∈ elements.associations, PreparedAssociation.fromDraft association = a := by
  unfold acceptedAssociations checkedAssociations at h
  rw [accepted_checked] at h
  obtain ⟨index, -, rfl⟩ := List.mem_map.mp h
  exact List.mem_map.mp (List.get_mem _ index)

theorem association_end {elements : Elements} {a : PreparedAssociation}
    (h : a ∈ acceptedAssociations elements) {e : QName × PropInfo} (he : e ∈ a.ends) :
    e.2.association = some a.path := by
  obtain ⟨association, -, rfl⟩ := accepted_draft h
  rcases List.mem_cons.mp he with rfl | he
  · rfl
  · obtain rfl := List.mem_singleton.mp he
    rfl

theorem materialized_of_finish {merger : ModelMerger} {graph : ModelGraph}
    (h : merger.finish = .ok graph) : Materialized merger.elements graph := by
  obtain ⟨-, hclasses, hassociations⟩ := finish_ok h
  have hends : ∀ x ∈ directedEnds graph.associations,
      ∃ a ∈ acceptedAssociations merger.elements,
        a.assocInfo = x.1 ∧ (x.2.owner, x.2.property) ∈ a.ends := by
    intro x hx
    rw [hassociations] at hx
    obtain ⟨info, hinfo, hx⟩ := List.mem_flatMap.mp hx
    obtain ⟨a, ha, rfl⟩ := List.mem_map.mp hinfo
    obtain ⟨e, he, rfl⟩ := List.mem_map.mp hx
    refine ⟨a, ha, rfl, ?_⟩
    exact List.mem_map_of_mem (f := fun e => (e.owner, e.property)) he
  have hmap : (directedEnds graph.associations).map (fun x => (x.2.owner, x.2.property)) =
      endsOf (acceptedAssociations merger.elements) := by
    rw [hassociations, directedEnds_assocInfo]
  have hkeys : ((directedEnds graph.associations).map place).Nodup := by
    have hnodup := keys_accepted merger.elements
    rw [← hmap, List.map_map] at hnodup
    exact hnodup
  refine ⟨hassociations, ?_, ?_, ?_, hkeys, ?_, ?_, ?_⟩
  · intro x hx
    obtain ⟨a, ha, hinfo, he⟩ := hends x hx
    refine ⟨?_, ?_⟩
    · rw [hclasses]
      exact propertyAt_end (List.mem_flatMap.mpr ⟨a, ha, he⟩)
    · rw [← hinfo]
      exact association_end ha he
  · intro k p hp
    rw [hclasses]
    exact propertyAt_declared hp
  · refine ⟨_, insertEnds_free (fun x hx => ?_) hkeys, ?_⟩
    · obtain ⟨a, ha, -, he⟩ := hends x hx
      exact free_accepted _ _ (List.mem_flatMap.mpr ⟨a, ha, he⟩)
    · rw [hmap, hclasses]
      unfold loadedClasses
      split_ifs with hgap
      · exact .inr rfl
      · exact .inl rfl
  · intro k p hp
    rw [hclasses] at hp
    refine (propertyAt_origin hp).imp_right fun ⟨e, he, hkey, hproperty⟩ => ?_
    rw [← hmap] at he
    obtain ⟨x, hx, rfl⟩ := List.mem_map.mp he
    exact ⟨x, hx, hkey, hproperty⟩
  · intro path
    rw [hclasses]
    exact outline_loadedClasses merger.elements path
  · intro z hz hrejected
    have hgap : (checkedAssociations merger.elements).any (·.2.isSome) = true :=
      List.any_eq_true.mpr ⟨z, hz, Option.ne_none_iff_isSome.mp hrejected⟩
    refine ⟨fun path cls hcls => ?_, fun k p hp htag => ?_⟩
    · rw [hclasses] at hcls
      unfold loadedClasses at hcls
      rw [if_pos hgap] at hcls
      unfold Classes.markCoverageGaps at hcls
      rw [SortedMap.get_mapValues] at hcls
      obtain ⟨marked, -, rfl⟩ := Option.map_eq_some_iff.mp hcls
      rfl
    · rw [hclasses] at hp
      rcases propertyAt_origin hp with hp | ⟨e, he, -, rfl⟩
      · rw [association_declared hp] at htag
        cases htag
      · obtain ⟨a, ha, he⟩ := List.mem_flatMap.mp he
        rw [association_end ha he] at htag
        exact path_of_rejected hz hrejected a ha (Option.some.inj htag)

/-- The properties of a loaded model come from associations that it has. -/
theorem Materialized.linked {elements : Elements} {graph : ModelGraph}
    (h : Materialized elements graph) : graph.Linked := by
  intro path cls name p a hcls hp ha
  have hat : propertyAt graph.classes (toLex (path, name)) = some p :=
    Option.bind_eq_some_iff.mpr ⟨cls, hcls, hp⟩
  rcases h.only _ p hat with hdeclared | ⟨x, hx, -, rfl⟩
  · rw [association_declared hdeclared] at ha
    cases ha
  · rw [(h.tagged x hx).2] at ha
    obtain ⟨info, hinfo, hends⟩ := List.mem_flatMap.mp hx
    obtain ⟨e, -, rfl⟩ := List.mem_map.mp hends
    exact ⟨info, hinfo, Option.some.inj ha⟩

theorem finish_linked {merger : ModelMerger} {graph : ModelGraph}
    (h : merger.finish = .ok graph) : graph.Linked := (materialized_of_finish h).linked

/-! ## The whole load -/

theorem loadFrom_finish {parseDocument : Text → Text → Nat → Except ModelError Elements}
    {parsePureDocument : Text → Text → Nat → Except ModelError ModelFragment}
    {documents : List ModelDocument} {index : Nat} {m : ModelMerger} {graph : ModelGraph}
    (h : loadFrom parseDocument parsePureDocument index m documents = .ok graph) :
    ∃ merger : ModelMerger, merger.finish = .ok graph := by
  induction documents generalizing index m with
  | nil => exact ⟨m, h⟩
  | cons document rest ih =>
    rw [loadFrom] at h
    split at h
    · split at h
      · cases h
      · exact ih h
    · cases h

/-- The properties that loaded classes have through an association are in the list of the
associations. -/
theorem loadModelDocuments_linked {parseDocument : Text → Text → Nat → Except ModelError Elements}
    {parsePureDocument : Text → Text → Nat → Except ModelError ModelFragment}
    {documents : List ModelDocument} {graph : ModelGraph}
    (h : loadModelDocuments parseDocument parsePureDocument documents = .ok graph) :
    graph.Linked := by
  obtain ⟨merger, hmerger⟩ := loadFrom_finish h
  exact finish_linked hmerger

/-- Once the check has passed, no insertion of an end fails. A loaded model has
both ends of each of its associations, beside every declared property, and
nothing of an association that was rejected. -/
theorem associations_are_materialized (merger : ModelMerger) :
    (Preflighted merger.elements ↔
      ∃ m, materializeAssociations merger.elements.classes merger.elements.associations = .ok m) ∧
    (∀ error,
      materializeAssociations merger.elements.classes merger.elements.associations =
        .error error →
      ∃ z ∈ checkedAssociations merger.elements, z.1.provenance = .Pmcd ∧
        ∃ failure, z.2 = some failure ∧ error = mergedGraphError z.1.source failure) ∧
    (∀ graph, merger.finish = .ok graph → Materialized merger.elements graph) ∧
    ∀ parseDocument parsePureDocument documents graph,
      loadModelDocuments parseDocument parsePureDocument documents = .ok graph →
        ∃ merged : ModelMerger, merged.finish = .ok graph ∧ Materialized merged.elements graph := by
  refine ⟨⟨fun h => ?_, fun ⟨m, hm⟩ => ?_⟩, fun error h => ?_, fun graph h => ?_, ?_⟩
  · obtain ⟨m, hm, -⟩ := materializeAssociations_of_preflighted h
    exact ⟨m, hm⟩
  · rw [← preflighted_iff]
    cases hfirst : (checkedAssociations merger.elements).findSome? closedWorldError with
    | none => rfl
    | some error =>
      rw [materializeAssociations_failed hfirst] at hm
      cases hm
  · obtain ⟨⟨a, failed⟩, hz, herror⟩ := materializeAssociations_error h
    cases failed with
    | none => cases herror
    | some failure =>
      simp only [closedWorldError] at herror
      split_ifs at herror with hpmcd
      exact ⟨_, hz, hpmcd, failure, rfl, (Option.some.inj herror).symm⟩
  · exact materialized_of_finish h
  · intro parseDocument parsePureDocument documents graph h
    obtain ⟨merged, hmerged⟩ := loadFrom_finish h
    exact ⟨merged, hmerged, materialized_of_finish hmerged⟩

/-! A class with a property `x`, an association of the class with itself, and a
second one whose end is called `x` too. -/

def sampleClassPath : QName := ⟨ascii "m::A", by decide⟩

def sampleProperty (name : Name) : PropInfo :=
  .declared name (.new sampleClassPath []) ⟨0, none, rfl⟩

def sampleName (c : Char) : Name :=
  match Name.new [c.toUInt8] with
  | .ok name => name
  | .error _ => ⟨ascii "x", by decide⟩

def sampleClass : ClassInfo where
  path := sampleClassPath
  supertypes := []
  temporal := none
  properties := SortedMap.empty.insert (sampleName 'x') (sampleProperty (sampleName 'x'))
  qualified_properties := SortedMap.empty
  provenance := .PureFile
  source := 0
  declaration_span := none
  coverage_gap := false

def sampleAssociation (path : QName) (first second : Name) : AssocDraft where
  path := path
  first := sampleProperty first
  second := sampleProperty second
  temporal := none
  provenance := .PureFile
  source := 0
  declaration_span := none

theorem sampleClass_declared : (FragmentElement.Class sampleClass).Declared := by
  intro name p h
  have hget : (SortedMap.empty.insert (sampleName 'x') (sampleProperty (sampleName 'x'))).get name =
      some p := h
  rw [SortedMap.get_insert] at hget
  split_ifs at hget with hname
  · rw [← Option.some.inj hget]
    rfl
  · cases hget

def sampleMerger : ModelMerger where
  elements :=
    ((Elements.empty.insert (.Class sampleClass) sampleClass_declared).insert
      (.Association (sampleAssociation ⟨ascii "m::R", by decide⟩ (sampleName 'y') (sampleName 'z')))
      trivial).insert
      (.Association (sampleAssociation ⟨ascii "m::S", by decide⟩ (sampleName 'x') (sampleName 'w')))
      trivial
  sources := []
  diagnostics := []

theorem the_second_sample_association_is_rejected :
    ∃ graph, sampleMerger.finish = .ok graph ∧ Materialized sampleMerger.elements graph ∧
      graph.associations.length = 1 := by
  cases h : sampleMerger.finish with
  | error error =>
    have hok : sampleMerger.finish.isOk = true := by decide
    rw [h] at hok
    cases hok
  | ok graph =>
    have hmaterialized := (associations_are_materialized sampleMerger).2.2.1 graph h
    refine ⟨graph, rfl, hmaterialized, ?_⟩
    rw [hmaterialized.accepted]
    decide

end analyzer.loader
