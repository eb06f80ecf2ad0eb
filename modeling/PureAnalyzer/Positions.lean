-- The place of a column in its scope, and what the check of a node says of
-- the columns that the node reads: each of them has a place.
import PureAnalyzer.Attempts
import PureAnalyzer.Renaming

namespace analyzer.normalizer

open fragments sortedsets model resolve relational sametree attempts

/-! ## Positions -/

theorem lastPosition_some {ids : List ColumnId} {c : ColumnId} {k p : Nat}
    (h : lastPosition k ids c = some p) : k ≤ p ∧ ids[p - k]? = some c := by
  induction ids generalizing k with
  | nil => cases h
  | cons id ids ih =>
    rw [lastPosition] at h
    cases hlater : lastPosition (k + 1) ids c with
    | some later =>
      simp only [hlater, Option.some.injEq] at h
      subst h
      obtain ⟨hle, hget⟩ := ih hlater
      refine ⟨by omega, ?_⟩
      have hsub : later - k = (later - (k + 1)) + 1 := by omega
      rw [hsub, List.getElem?_cons_succ, hget]
    | none =>
      simp only [hlater] at h
      by_cases hid : id = c
      · rw [if_pos hid] at h
        cases h
        simp [hid]
      · rw [if_neg hid] at h
        cases h

theorem lastPosition_none {ids : List ColumnId} {c : ColumnId} {k : Nat} :
    lastPosition k ids c = none ↔ c ∉ ids := by
  induction ids generalizing k with
  | nil => simp [lastPosition]
  | cons id ids ih =>
    rw [lastPosition, List.mem_cons]
    cases hlater : lastPosition (k + 1) ids c with
    | some later =>
      have hmem : c ∈ ids := by
        by_contra hnot
        rw [ih.mpr hnot] at hlater
        cases hlater
      simp [hmem]
    | none =>
      have hnot : c ∉ ids := ih.mp hlater
      by_cases hid : id = c
      · simp [hid]
      · have hne : ¬ c = id := fun h => hid h.symm
        simp [hid, hne, hnot]

theorem lastPosition_of_nodup {ids : List ColumnId} (h : ids.Nodup) {c : ColumnId} {k i : Nat}
    (hi : ids[i]? = some c) : lastPosition k ids c = some (k + i) := by
  cases hpos : lastPosition k ids c with
  | none =>
    have hmem : c ∈ ids := List.mem_of_getElem? hi
    exact absurd hmem (lastPosition_none.mp hpos)
  | some p =>
    obtain ⟨hle, hget⟩ := lastPosition_some hpos
    have hlt : i < ids.length := (List.getElem?_eq_some_iff.mp hi).1
    have hsame : p - k = i := by
      apply (List.getElem?_inj (by exact (List.getElem?_eq_some_iff.mp hget).1) h).mp
      rw [hget, hi]
    congr 1
    omega

namespace ColumnScope

theorem isSome_position {scope : ColumnScope} {c : ColumnId} :
    (scope.position c).isSome = true ↔ c ∈ scope.ids := by
  rw [← not_iff_not, Bool.not_eq_true, Option.isSome_eq_false_iff, Option.isNone_iff_eq_none]
  exact lastPosition_none

theorem position_inj {scope : ColumnScope} {c d : ColumnId} {p : Nat}
    (hc : scope.position c = some p) (hd : scope.position d = some p) : c = d := by
  have hget := (lastPosition_some hc).2
  have hget' := (lastPosition_some hd).2
  exact Option.some.inj (hget.symm.trans hget')

/-- The columns of a schema stand where they are listed. -/
theorem position_column {schema : RelationSchema} {i : Nat} {c : Column}
    (h : schema.columns[i]? = some c) : (fromSchema schema).position c.id = some i := by
  have hi : (schema.columns.map Column.id)[i]? = some c.id := by
    rw [List.getElem?_map, h]
    rfl
  have hpos := lastPosition_of_nodup schema.ids (k := 0) hi
  rwa [Nat.zero_add] at hpos

end ColumnScope

/-! ## What a constructed node reads -/

/-- The columns of a scalar expression are in its scope, and the receiver of
each of its navigations is of the class of its input. -/
def Known (scope : ColumnScope) : ScalarExpression → Prop
  | .Column id _ => id ∈ scope.ids
  | .Literal _ _ => True
  | .Navigation input navigation _ =>
    Known scope input ∧ input.facts.multiplicity = navigation.receiver.multiplicity ∧
      ∃ c, navigation.receiver.kind = .Class c ∧ input.facts.type_ref = .new c.path []
  | .Equal left right _ => Known scope left ∧ Known scope right
  | .Not input _ => Known scope input

theorem column_mem {schema : RelationSchema} {id : ColumnId} {c : Column}
    (h : schema.column id = some c) : c ∈ schema.columns ∧ c.id = id := by
  refine ⟨List.mem_of_find?_eq_some h, ?_⟩
  simpa using List.find?_some h

theorem column_isSome {schema : RelationSchema} {id : ColumnId}
    (h : (schema.column id).isSome = true) : id ∈ (ColumnScope.fromSchema schema).ids := by
  obtain ⟨c, hc⟩ := Option.isSome_iff_exists.mp h
  obtain ⟨hmem, rfl⟩ := column_mem hc
  exact List.mem_map_of_mem hmem

theorem receiver_matches {facts : ScalarFacts} {receiver : LocalValue}
    (h : navigationReceiverMatches facts receiver = true) :
    facts.multiplicity = receiver.multiplicity ∧
      ∃ c, receiver.kind = .Class c ∧ facts.type_ref = .new c.path [] := by
  unfold navigationReceiverMatches at h
  cases hk : receiver.kind with
  | Class c =>
    simp only [hk, Bool.and_eq_true, decide_eq_true_eq] at h
    exact ⟨h.1.2, c, rfl, h.1.1⟩
  | Scalar t => simp [hk] at h
  | RelationRow row => simp [hk] at h
  | Unknown value => simp [hk] at h

/-- What passes the check over some schemas is known in their scope. -/
theorem known_of_valid {schemas : List RelationSchema} {scope : ColumnScope}
    (hscope : ∀ id c, findColumn schemas id = some c → id ∈ scope.ids) {e : ScalarExpression}
    (h : validateScalar schemas e = .ok ()) : Known scope e := by
  induction e with
  | Column id facts =>
    unfold validateScalar at h
    cases hc : findColumn schemas id with
    | none => simp [hc] at h
    | some c => exact hscope id c hc
  | Literal literal facts => trivial
  | Navigation input navigation facts ih =>
    obtain ⟨_, hinput, hrest⟩ := bind_ok h
    split at hrest
    · next hmatch =>
      rw [Bool.and_eq_true] at hmatch
      exact ⟨ih hinput, receiver_matches hmatch.1⟩
    · cases hrest
  | Equal left right facts ihl ihr =>
    obtain ⟨_, hleft, hrest⟩ := bind_ok h
    obtain ⟨_, hright, -⟩ := bind_ok hrest
    exact ⟨ihl hleft, ihr hright⟩
  | Not input facts ih =>
    obtain ⟨_, hinput, -⟩ := bind_ok h
    exact ih hinput

theorem known_of_schema {schema : RelationSchema} {e : ScalarExpression}
    (h : validateScalar [schema] e = .ok ()) : Known (.fromSchema schema) e := by
  refine known_of_valid (fun id c hc => ?_) h
  simp only [findColumn, List.findSome?_cons, List.findSome?_nil] at hc
  apply column_isSome
  cases hcol : schema.column id with
  | none => simp [hcol] at hc
  | some d => rfl

theorem known_of_join {left right : RelationSchema} {e : ScalarExpression}
    (h : validateScalar [left, right] e = .ok ()) : Known (.fromJoin left right) e := by
  refine known_of_valid (fun id c hc => ?_) h
  have hids : (ColumnScope.fromJoin left right).ids =
      (ColumnScope.fromSchema left).ids ++ (ColumnScope.fromSchema right).ids := List.map_append
  rw [hids, List.mem_append]
  simp only [findColumn, List.findSome?_cons, List.findSome?_nil] at hc
  cases hleft : left.column id with
  | some d => exact .inl (column_isSome (by rw [hleft]; rfl))
  | none =>
    cases hright : right.column id with
    | some d => exact .inr (column_isSome (by rw [hright]; rfl))
    | none => simp [hleft, hright] at hc

/-- The columns of the proven keys are in the schema. -/
def KeysKnown (shape : RelationShape) : Prop :=
  ∀ keys origin, shape.facts.candidate_keys = .Proven keys origin →
    ∀ key ∈ keys, ∀ c ∈ key.columns, c ∈ (ColumnScope.fromSchema shape.schema).ids

theorem new_ok {e : RelationExpression} (h : e.new.isOk = true) :
    validateRelationOperator e = .ok () ∧ KeysKnown e.shape := by
  unfold RelationExpression.new at h
  cases hop : validateRelationOperator e with
  | error err => simp [hop, bind, Except.bind] at h; cases h
  | ok u =>
    refine ⟨rfl, ?_⟩
    intro keys origin hkeys key hkey c hc
    cases hval : validateExpressionKeys e.schema e.facts.candidate_keys with
    | error err => simp [hop, hval, bind, Except.bind] at h; cases h
    | ok u =>
      have hfacts : e.facts.candidate_keys = .Proven keys origin := hkeys
      unfold validateExpressionKeys at hval
      simp only [hfacts] at hval
      cases hfind : (keys.flatMap CandidateKey.columns).find? fun id =>
          (e.schema.column id).isNone with
      | some id => simp [hfind] at hval
      | none =>
        rw [List.find?_eq_none] at hfind
        have hcol := hfind c (List.mem_flatMap.mpr ⟨key, hkey, hc⟩)
        apply column_isSome
        cases hcolumn : e.schema.column c with
        | none => simp [hcolumn] at hcol
        | some d => rw [show e.shape.schema.column c = some d from hcolumn]; rfl

theorem projections_known {input : RelationSchema} {ps : List Projection} {cs : List Column}
    (hlen : ps.length = cs.length) (h : validateProjections input (ps.zip cs) = .ok ()) :
    ∀ p ∈ ps, Known (.fromSchema input) p.expression := by
  induction ps generalizing cs with
  | nil => simp
  | cons p ps ih =>
    cases cs with
    | nil => cases hlen
    | cons c cs =>
      rw [List.zip_cons_cons, validateProjections] at h
      obtain ⟨_, hscalar, hrest⟩ := bind_ok h
      split at hrest
      · intro q hq
        rcases List.mem_cons.mp hq with rfl | hq
        · exact known_of_schema hscalar
        · exact ih (Nat.succ.inj hlen) hrest q hq
      · cases hrest

theorem selectColumns_known {input : RelationSchema} {seen ids : List ColumnId}
    {selected : List Column} (h : selectColumns input seen ids = .ok selected) :
    ∀ id ∈ ids, id ∈ (ColumnScope.fromSchema input).ids := by
  induction ids generalizing seen selected with
  | nil => simp
  | cons id ids ih =>
    rw [selectColumns] at h
    split at h
    · cases h
    · cases hcol : input.column id with
      | none => simp [hcol] at h
      | some c =>
        simp only [hcol] at h
        obtain ⟨rest, hrest, -⟩ := bind_ok h
        intro other hother
        rcases List.mem_cons.mp hother with rfl | hother
        · exact column_isSome (by rw [hcol]; rfl)
        · exact ih hrest other hother

theorem sortKeys_known {input : RelationSchema} {seen : List ColumnId} {keys : List SortKey}
    (h : validateSortKeys input seen keys = .ok ()) :
    ∀ key ∈ keys, key.column ∈ (ColumnScope.fromSchema input).ids := by
  induction keys generalizing seen with
  | nil => simp
  | cons key keys ih =>
    rw [validateSortKeys] at h
    split at h
    · cases h
    · next hcol =>
      split at h
      · cases h
      · intro other hother
        rcases List.mem_cons.mp hother with rfl | hother
        · apply column_isSome
          cases hc : input.column other.column with
          | none => simp [hc] at hcol
          | some c => rfl
        · exact ih h other hother

/-- The columns that a node reads are in the scope that it reads them in. -/
def ReadsKnown : RelationExpression → Prop
  | .Scan _ _ | .Distinct _ _ => True
  | .Filter input predicate _ => Known (.fromSchema input.schema) predicate
  | .Project input projections _ shape =>
    projections.map Projection.column = shape.schema.columns.map Column.id ∧
      ∀ p ∈ projections, Known (.fromSchema input.schema) p.expression
  | .Join _ left right condition _ => Known (.fromJoin left.schema right.schema) condition
  | .DistinctOn input columns _ => ∀ id ∈ columns, id ∈ (ColumnScope.fromSchema input.schema).ids
  | .Sort input keys _ => ∀ key ∈ keys, key.column ∈ (ColumnScope.fromSchema input.schema).ids

theorem reads_known {e : RelationExpression} (h : e.new.isOk = true) : ReadsKnown e := by
  have hop := (new_ok h).1
  cases e with
  | Scan source shape => trivial
  | Distinct input shape => trivial
  | Filter input predicate shape =>
    simp only [validateRelationOperator] at hop
    split at hop
    · cases hop
    · obtain ⟨_, hscalar, -⟩ := bind_ok hop
      exact known_of_schema hscalar
  | Project input projections kind shape =>
    obtain ⟨_, hcolumns, hscalars⟩ := bind_ok hop
    unfold validateProjectionSchema at hcolumns
    split at hcolumns
    · next hids =>
      have hlen : projections.length = shape.schema.columns.length := by
        simpa using congrArg List.length hids
      exact ⟨hids, projections_known hlen hscalars⟩
    · cases hcolumns
  | Join kind left right condition shape =>
    simp only [validateRelationOperator] at hop
    split at hop
    · cases hop
    · obtain ⟨_, hscalar, -⟩ := bind_ok hop
      exact known_of_join hscalar
  | DistinctOn input columns shape =>
    simp only [validateRelationOperator, validateDistinctOnSchema] at hop
    split at hop
    · cases hop
    · obtain ⟨selected, hselected, -⟩ := bind_ok hop
      exact selectColumns_known hselected
  | «Sort» input keys shape =>
    simp only [validateRelationOperator, validateSort] at hop
    split at hop
    · cases hop
    · split at hop
      · cases hop
      · exact sortKeys_known hop

end analyzer.normalizer
