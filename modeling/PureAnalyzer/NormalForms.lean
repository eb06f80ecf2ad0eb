-- What the normalizer does to a query. Apart from its budget it computes one
-- function, the normal form, and it gives up exactly where the list of the
-- nodes that it visits runs out of steps or goes too deep.
import PureAnalyzer.KeyLaws

namespace analyzer.normalizer

open fragments sortedsets model resolve relational sametree

/-! ## The normal form -/

/-- The tree that the walk gives, whatever it costs. -/
def normalForm : RelationExpression → RelationExpression
  | .Scan source shape => .Scan source shape
  | .Filter input predicate shape =>
    let input := normalForm input
    if isLiteralTrueFilter input shape.schema shape.facts predicate then input
    else .Filter input predicate shape
  | .Project input ps kind shape =>
    let input := normalForm input
    if isIdentityProject input shape.schema shape.facts ps then input
    else .Project input ps kind shape
  | .Join kind left right condition shape =>
    .Join kind (normalForm left) (normalForm right) condition shape
  | .Distinct input shape =>
    let input := normalForm input
    if isRepeatedDistinct input shape.schema shape.facts then input else .Distinct input shape
  | .DistinctOn input columns shape => .DistinctOn (normalForm input) columns shape
  | .Sort input keys shape => .Sort (normalForm input) keys shape

/-- A node that is dropped has the schema of its input. -/
theorem normalForm_schema (e : RelationExpression) : (normalForm e).schema = e.schema := by
  induction e with
  | Scan source shape => rfl
  | Filter input predicate shape ih =>
    simp only [normalForm]
    split
    · next h =>
      simp only [isLiteralTrueFilter, Bool.and_eq_true, decide_eq_true_eq] at h
      exact h.1.1.1.symm
    · rfl
  | Project input ps kind shape ih =>
    simp only [normalForm]
    split
    · next h =>
      simp only [isIdentityProject, Bool.and_eq_true, decide_eq_true_eq] at h
      exact h.1.1.1.symm
    · rfl
  | Join kind left right condition shape ihl ihr => rfl
  | Distinct input shape ih =>
    simp only [normalForm]
    split
    · next h =>
      simp only [isRepeatedDistinct, Bool.and_eq_true, decide_eq_true_eq] at h
      exact h.1.1.symm
    · rfl
  | DistinctOn input columns shape ih => rfl
  | «Sort» input keys shape ih => rfl

theorem new_eq {e : RelationExpression} (h : e.new.isOk = true) : e.new = .ok e := by
  unfold RelationExpression.new at h ⊢
  cases hop : validateRelationOperator e with
  | error err => simp [hop, bind, Except.bind] at h; cases h
  | ok u =>
    cases hkeys : validateExpressionKeys e.schema e.facts.candidate_keys with
    | error err => simp [hop, hkeys, bind, Except.bind] at h; cases h
    | ok u => rfl

/-- The check of a node reads the schemas of its inputs and nothing else of
them. -/
theorem new_congr {e e' : RelationExpression}
    (hop : validateRelationOperator e' = validateRelationOperator e) (hshape : e'.shape = e.shape)
    (h : e.new.isOk = true) : e'.new.isOk = true := by
  unfold RelationExpression.new RelationExpression.schema RelationExpression.facts at h ⊢
  rw [hop, hshape]
  cases hvalid : validateRelationOperator e with
  | error err => simp [hvalid, bind, Except.bind] at h; cases h
  | ok u =>
    simp only [hvalid, bind, Except.bind] at h ⊢
    cases hkeys : validateExpressionKeys e.shape.schema e.shape.facts.candidate_keys with
    | error err => simp [hkeys] at h; cases h
    | ok u => rfl

/-- Normalization never breaks a check that construction made. -/
theorem normalForm_built {e : RelationExpression} (h : e.Built) : (normalForm e).Built := by
  induction e with
  | Scan source shape => exact h
  | Filter input predicate shape ih =>
    simp only [normalForm]
    split
    · exact ih h.2
    · refine ⟨new_congr (e := .Filter input predicate shape) ?_ rfl h.1, ih h.2⟩
      simp only [validateRelationOperator, normalForm_schema]
  | Project input ps kind shape ih =>
    simp only [normalForm]
    split
    · exact ih h.2
    · refine ⟨new_congr (e := .Project input ps kind shape) ?_ rfl h.1, ih h.2⟩
      simp only [validateRelationOperator, normalForm_schema]
  | Join kind left right condition shape ihl ihr =>
    refine ⟨new_congr (e := .Join kind left right condition shape) ?_ rfl h.1, ihl h.2.1, ihr h.2.2⟩
    simp only [validateRelationOperator, normalForm_schema]
  | Distinct input shape ih =>
    simp only [normalForm]
    split
    · exact ih h.2
    · refine ⟨new_congr (e := .Distinct input shape) ?_ rfl h.1, ih h.2⟩
      simp only [validateRelationOperator, normalForm_schema]
  | DistinctOn input columns shape ih =>
    refine ⟨new_congr (e := .DistinctOn input columns shape) ?_ rfl h.1, ih h.2⟩
    simp only [validateRelationOperator, normalForm_schema]
  | «Sort» input keys shape ih =>
    refine ⟨new_congr (e := .Sort input keys shape) ?_ rfl h.1, ih h.2⟩
    simp only [validateRelationOperator, normalForm_schema]

/-! ## What the walk costs -/

/-- A visit of a node: how deep it is, and where it comes from. -/
abbrev Visit := Nat × IrOrigin

/-- Pays for visits in order, until the steps run out or one is too deep. -/
def charge : List Visit → Nat → Except NormalizationFailure Nat
  | [], steps => .ok steps
  | (_, origin) :: _, 0 => .error (.missingRewrite origin)
  | (depth, origin) :: visits, steps + 1 =>
    if depth ≥ MAX_RELATIONAL_RECURSION_DEPTH then .error (.missingRewrite origin)
    else charge visits steps

def scalarVisits (depth : Nat) : ScalarExpression → List Visit
  | .Column _ facts | .Literal _ facts => [(depth, facts.origin)]
  | .Navigation input _ facts | .Not input facts =>
    (depth, facts.origin) :: scalarVisits (depth + 1) input
  | .Equal left right facts =>
    (depth, facts.origin) :: (scalarVisits (depth + 1) left ++ scalarVisits (depth + 1) right)

/-- The nodes of a query in the order of the walk. -/
def relationVisits (depth : Nat) : RelationExpression → List Visit
  | .Scan _ shape => [(depth, shape.origin)]
  | .Filter input predicate shape =>
    (depth, shape.origin) ::
      (relationVisits (depth + 1) input ++ scalarVisits (depth + 1) predicate)
  | .Project input ps _ shape =>
    (depth, shape.origin) ::
      (relationVisits (depth + 1) input ++
        ps.flatMap fun p => scalarVisits (depth + 1) p.expression)
  | .Join _ left right condition shape =>
    (depth, shape.origin) ::
      (relationVisits (depth + 1) left ++
        (relationVisits (depth + 1) right ++ scalarVisits (depth + 1) condition))
  | .Distinct input shape | .DistinctOn input _ shape | .Sort input _ shape =>
    (depth, shape.origin) :: relationVisits (depth + 1) input

theorem charge_append (us vs : List Visit) (steps : Nat) :
    charge (us ++ vs) steps = charge us steps >>= charge vs := by
  induction us generalizing steps with
  | nil => rfl
  | cons u us ih =>
    obtain ⟨depth, origin⟩ := u
    cases steps with
    | zero => rfl
    | succ steps =>
      simp only [List.cons_append, charge]
      split
      · rfl
      · exact ih steps

/-- The walk pays for some visits, gives a value and is back at its depth. -/
def Spends {α : Type} (walk : Walk α) (visits : Nat → List Visit) (a : α) : Prop :=
  ∀ n, walk n = (charge (visits n.depth) n.remaining_steps).map fun steps => (a, ⟨steps, n.depth⟩)

namespace Spends

variable {α β : Type} {walk : Walk α} {us vs : Nat → List Visit} {a : α} {b : β}

theorem pure : Spends (pure a : Walk α) (fun _ => []) a := by
  intro n
  rfl

theorem bind {next : α → Walk β} (h : Spends walk us a) (k : Spends (next a) vs b) :
    Spends (walk >>= next) (fun depth => us depth ++ vs depth) b := by
  intro n
  show (walk n >>= fun p => next p.1 p.2) = _
  rw [h n, charge_append]
  cases hcharge : charge (us n.depth) n.remaining_steps with
  | error failure => rfl
  | ok steps => exact k ⟨steps, n.depth⟩

theorem atNode {origin : IrOrigin} (h : Spends walk us a) :
    Spends (atNode origin walk) (fun depth => (depth, origin) :: us (depth + 1)) a := by
  rintro ⟨steps, depth⟩
  cases steps with
  | zero => rfl
  | succ steps =>
    simp only [charge]
    by_cases hdepth : depth ≥ MAX_RELATIONAL_RECURSION_DEPTH
    · rw [if_pos hdepth]
      simp only [normalizer.atNode, consume, enter, StateT.bind, Bind.bind, Except.bind, hdepth,
        if_true, Except.map]
    · rw [if_neg hdepth]
      have hbody := h ⟨steps, depth + 1⟩
      simp only [normalizer.atNode, consume, enter, leave, StateT.bind, Bind.bind, Except.bind,
        hdepth, if_false, Pure.pure, hbody]
      cases charge (us (depth + 1)) steps with
      | error failure => rfl
      | ok left => rfl

theorem congr (h : Spends walk us a) (huv : ∀ depth, us depth = vs depth) : Spends walk vs a := by
  intro n
  rw [h n, huv]

end Spends

theorem scalar_spends (e : ScalarExpression) :
    Spends (scalar e) (fun depth => scalarVisits depth e) e := by
  induction e with
  | Column id facts => exact Spends.pure.atNode
  | Literal literal facts => exact Spends.pure.atNode
  | Navigation input navigation facts ih =>
    unfold scalar
    apply Spends.congr
    · apply Spends.atNode
      apply ih.bind
      exact Spends.pure
    · simp [scalarVisits]
  | Equal left right facts ihl ihr =>
    unfold scalar
    apply Spends.congr
    · apply Spends.atNode
      apply ihl.bind
      apply ihr.bind
      exact Spends.pure
    · simp [scalarVisits]
  | Not input facts ih =>
    unfold scalar
    apply Spends.congr
    · apply Spends.atNode
      apply ih.bind
      exact Spends.pure
    · simp [scalarVisits]

theorem projections_spend (ps : List Projection) :
    Spends (projections ps)
      (fun depth => ps.flatMap fun p => scalarVisits depth p.expression) ps := by
  induction ps with
  | nil => exact Spends.pure
  | cons p ps ih =>
    unfold projections projection
    apply Spends.congr
    · apply Spends.bind
      · apply (scalar_spends p.expression).bind
        exact Spends.pure
      · apply ih.bind
        exact Spends.pure
    · simp

theorem rebuild_spends {e : RelationExpression} (h : e.new.isOk = true) :
    Spends (rebuild e) (fun _ => []) e := by
  intro n
  unfold rebuild
  rw [new_eq h]
  rfl

/-- What is kept or built again is there without a cost. -/
theorem kept_or_rebuilt {keep : Bool} {input e : RelationExpression}
    (h : keep = false → e.new.isOk = true) :
    Spends (if keep then pure input else rebuild e) (fun _ => [])
      (if keep then input else e) := by
  cases keep with
  | true => exact Spends.pure
  | false => exact rebuild_spends (h rfl)

/-- The walk of a constructed query visits its nodes in order, and gives its
normal form. -/
theorem relation_spends {e : RelationExpression} (h : e.Built) :
    Spends (relation e) (fun depth => relationVisits depth e) (normalForm e) := by
  have hbuilt := normalForm_built h
  induction e with
  | Scan source shape => exact Spends.pure.atNode
  | Filter input predicate shape ih =>
    unfold relation
    apply Spends.congr
    · apply Spends.atNode
      apply (ih h.2 (normalForm_built h.2)).bind
      apply (scalar_spends predicate).bind
      apply kept_or_rebuilt
      intro hkeep
      simp only [normalForm, hkeep] at hbuilt
      exact hbuilt.1
    · simp [relationVisits]
  | Project input ps kind shape ih =>
    unfold relation
    apply Spends.congr
    · apply Spends.atNode
      apply (ih h.2 (normalForm_built h.2)).bind
      apply (projections_spend ps).bind
      apply kept_or_rebuilt
      intro hkeep
      simp only [normalForm, hkeep] at hbuilt
      exact hbuilt.1
    · simp [relationVisits]
  | Join kind left right condition shape ihl ihr =>
    unfold relation
    apply Spends.congr
    · apply Spends.atNode
      apply (ihl h.2.1 hbuilt.2.1).bind
      apply (ihr h.2.2 hbuilt.2.2).bind
      apply (scalar_spends condition).bind
      exact rebuild_spends hbuilt.1
    · simp [relationVisits]
  | Distinct input shape ih =>
    unfold relation
    apply Spends.congr
    · apply Spends.atNode
      apply (ih h.2 (normalForm_built h.2)).bind
      apply kept_or_rebuilt
      intro hkeep
      simp only [normalForm, hkeep] at hbuilt
      exact hbuilt.1
    · simp [relationVisits]
  | DistinctOn input columns shape ih =>
    unfold relation
    apply Spends.congr
    · apply Spends.atNode
      apply (ih h.2 hbuilt.2).bind
      exact rebuild_spends hbuilt.1
    · simp [relationVisits]
  | «Sort» input keys shape ih =>
    unfold relation
    apply Spends.congr
    · apply Spends.atNode
      apply (ih h.2 hbuilt.2).bind
      exact rebuild_spends hbuilt.1
    · simp [relationVisits]

/-! ## What a query comes to -/

/-- A query normalizes when its visits are paid for, and to its normal form. -/
theorem normalize_eq (q : RelationalQuery) (budget : NormalizationBudget) :
    normalizeRelationalQueryWithBudget q budget =
      match charge (relationVisits 0 q.root) budget.max_steps with
      | .error failure => .Indecisive failure
      | .ok _ =>
        .Normalized ⟨normalForm q.root, ⟨semanticKey (normalForm q.root)⟩,
          ⟨written [ascii "normal-form-v1", semanticKey (normalForm q.root),
            ascii "input-provenance-v1", provenanceKey q.root]⟩⟩ := by
  unfold normalizeRelationalQueryWithBudget
  rw [relation_spends q.built ⟨budget.max_steps, 0⟩]
  cases charge (relationVisits 0 q.root) budget.max_steps with
  | error failure => rfl
  | ok steps => rfl

theorem normalize_of_charge (q : RelationalQuery) (budget : NormalizationBudget) {steps : Nat}
    (h : charge (relationVisits 0 q.root) budget.max_steps = .ok steps) :
    normalizeRelationalQueryWithBudget q budget =
      .Normalized ⟨normalForm q.root, ⟨semanticKey (normalForm q.root)⟩,
        ⟨written [ascii "normal-form-v1", semanticKey (normalForm q.root),
          ascii "input-provenance-v1", provenanceKey q.root]⟩⟩ := by
  rw [normalize_eq, h]

theorem normalized {q : RelationalQuery} {budget : NormalizationBudget} {nq : NormalizedQuery}
    (h : normalizeRelationalQueryWithBudget q budget = .Normalized nq) :
    nq.root = normalForm q.root ∧ nq.equivalence_key = ⟨semanticKey nq.root⟩ ∧
      nq.structural_key = ⟨written [ascii "normal-form-v1", semanticKey nq.root,
        ascii "input-provenance-v1", provenanceKey q.root]⟩ := by
  rw [normalize_eq] at h
  cases hcharge : charge (relationVisits 0 q.root) budget.max_steps with
  | error failure => simp [hcharge] at h
  | ok steps =>
    simp only [hcharge, NormalizationOutcome.Normalized.injEq] at h
    subst h
    exact ⟨rfl, rfl, rfl⟩

/-! ## The key of a normal form -/

theorem semanticKey_eq_iff {e e' : RelationExpression} (h : e.Built) (h' : e'.Built) :
    semanticKey e = semanticKey e' ↔ SameRelation none e e' := by
  have htells : KeyEncoder.Tells none fun _ => True := ⟨by simp⟩
  have haligned := KeyEncoder.relation_aligned htells h h' (by simp) (by simp)
  unfold semanticKey
  rw [written_inj]
  exact haligned.eq_iff

/-- The equivalence keys of two normal forms are equal exactly when the two
are one tree, up to the identities of columns and to evidence. -/
theorem equal_keys_mean_one_tree (q q' : RelationalQuery) (budget budget' : NormalizationBudget)
    {nq nq' : NormalizedQuery}
    (h : normalizeRelationalQueryWithBudget q budget = .Normalized nq)
    (h' : normalizeRelationalQueryWithBudget q' budget' = .Normalized nq') :
    nq.equivalence_key = nq'.equivalence_key ↔ SameRelation none nq.root nq'.root := by
  obtain ⟨hroot, hkey, -⟩ := normalized h
  obtain ⟨hroot', hkey', -⟩ := normalized h'
  rw [hkey, hkey', EquivalenceKey.mk.injEq]
  apply semanticKey_eq_iff
  · rw [hroot]
    exact normalForm_built q.built
  · rw [hroot']
    exact normalForm_built q'.built

/-! A class `A` without a temporal stereotype, and all of its values with one
column, read at a place of a file. -/

theorem classA_named : (QName.validate (ascii "A")).isOk = true := by decide

def classA : ResolvedClass := ⟨0, ⟨ascii "A", classA_named⟩, none, .Pmcd, ⟨0, none⟩⟩

theorem allOfA_bounds : 0 ≤ 7 := Nat.zero_le 7

theorem boolean_named : (QName.validate (ascii "Boolean")).isOk = true := by decide

theorem columnA_named : (Name.validate (ascii "a")).isOk = true := by decide

theorem one_ordered : (some 1).all (1 ≤ ·) = true := by decide

def exactlyOne : Multiplicity := ⟨1, some 1, one_ordered⟩

theorem one_column (column : Column) : ([column].map Column.id).Nodup :=
  List.nodup_singleton _

def schemaOf (column : Column) : RelationSchema := ⟨[column], one_column column⟩

def allOfA (file : Nat) (id : ColumnId) : RelationExpression :=
  let origin : IrOrigin := ⟨⟨file, ⟨0, 7, allOfA_bounds⟩⟩, [.fromClass classA]⟩
  .Scan (.Class classA)
    ⟨schemaOf ⟨id, ⟨ascii "a", columnA_named⟩, .new ⟨ascii "A", classA_named⟩ [], exactlyOne,
      .NonNullable, origin⟩, .unknown, origin⟩

def allOfAQuery (file : Nat) (id : ColumnId) : RelationalQuery := ⟨allOfA file id, rfl⟩

theorem allOfA_same (file file' : Nat) (id id' : ColumnId) :
    SameRelation none (allOfA file id) (allOfA file' id') := by
  refine ⟨⟨?_, trivial, trivial, by simp [SameEvidence]⟩, rfl, rfl, by simp [SamePlace]⟩
  simp [schemaOf, SameHeader, SameEvidence]

/-- Only the values of `A` for which true is true. -/
def filteredAllOfA : RelationExpression :=
  .Filter (allOfA 0 3)
    (.Literal (.Boolean true)
      ⟨.new ⟨ascii "Boolean", boolean_named⟩ [], exactlyOne, .NonNullable, .Unknown,
        (allOfA 0 3).origin⟩)
    (allOfA 0 3).shape

theorem filteredAllOfA_built : filteredAllOfA.Built := ⟨rfl, rfl⟩

def filteredQuery : RelationalQuery := ⟨filteredAllOfA, filteredAllOfA_built⟩

/-- The filter is dropped. The identity of the column and the place in the file are
not in the key. -/
theorem one_key_for_all_of_a : ∃ nq nq',
    normalizeRelationalQueryWithBudget filteredQuery ⟨3⟩ = .Normalized nq ∧
      normalizeRelationalQueryWithBudget (allOfAQuery 1 5) ⟨1⟩ = .Normalized nq' ∧
      nq.root = allOfA 0 3 ∧ nq.equivalence_key = nq'.equivalence_key :=
  ⟨_, _, rfl, rfl, rfl, (equal_keys_mean_one_tree filteredQuery (allOfAQuery 1 5) ⟨3⟩ ⟨1⟩ rfl
    rfl).mpr (allOfA_same 0 1 3 5)⟩

/-! ## What the key leaves out of a navigation -/

/-- Evidence that names these definitions of the model. -/
def evidenceOf (origins : List ModelOrigin) : IrOrigin := ⟨⟨0, ⟨0, 7, allOfA_bounds⟩⟩, origins⟩

def columnOf (origins : List ModelOrigin) (id : ColumnId) (type_ref : TypeRef)
    (multiplicity : Multiplicity) (nullability : Nullability) : Column :=
  ⟨id, ⟨ascii "a", columnA_named⟩, type_ref, multiplicity, nullability, evidenceOf origins⟩

/-- All values of a class in one column. -/
def valuesOf (origins : List ModelOrigin) (cls : ResolvedClass) : RelationExpression :=
  .Scan (.Class cls)
    ⟨schemaOf (columnOf origins 0 (.new cls.path []) exactlyOne .NonNullable), .unknown,
      evidenceOf origins⟩

def navigationFrom (receiver : ResolvedClass) (member : ResolvedMember)
    (plain : navigable member = true) : ResolvedNavigation :=
  ⟨⟨.Class receiver, exactlyOne⟩, member, plain⟩

/-- A member of each value of a class, with the receiver that a resolver found for it. -/
def readsOf (origins : List ModelOrigin) (cls receiver : ResolvedClass) (member : ResolvedMember)
    (plain : navigable member = true) : RelationExpression :=
  .Project (valuesOf origins cls)
    [⟨1, .Navigation
      (.Column 0 ⟨.new cls.path [], exactlyOne, .NonNullable, .Unknown, evidenceOf origins⟩)
      (navigationFrom receiver member plain)
      ⟨member.target, member.multiplicity, .Unknown, .Unknown, evidenceOf origins⟩⟩]
    .Relation
    ⟨schemaOf (columnOf origins 1 member.target member.multiplicity .Unknown), .unknown,
      evidenceOf origins⟩

theorem compose_exactlyOne {member : ResolvedMember} (plain : navigable member = true) :
    composeNavigationMultiplicity exactlyOne member.multiplicity = some member.multiplicity := by
  have hone : member.multiplicity.isToOne = true := (Bool.and_eq_true_iff.mp plain).1
  generalize member.multiplicity = multiplicity at hone ⊢
  obtain ⟨lower, upper, hordered⟩ := multiplicity
  simp only [Multiplicity.isToOne, Bool.or_eq_true, beq_iff_eq] at hone
  obtain rfl | rfl := hone
  · obtain rfl : lower = 0 := by simpa using hordered
    rfl
  · obtain rfl | rfl : lower = 0 ∨ lower = 1 := by
      have hle : lower ≤ 1 := by simpa using hordered
      omega
    · rfl
    · rfl

/-- A receiver of the right path, which the evidence names, is as good as another. -/
theorem readsOf_built {origins : List ModelOrigin} {cls receiver : ResolvedClass}
    {member : ResolvedMember} (plain : navigable member = true) (hpath : receiver.path = cls.path)
    (hclass : ModelOrigin.fromClass receiver ∈ origins)
    (hmember : ModelOrigin.fromMember member ∈ origins) :
    (readsOf origins cls receiver member plain).Built := by
  refine ⟨?_, rfl⟩
  have hreceiver : navigationReceiverMatches
      ⟨.new cls.path [], exactlyOne, .NonNullable, .Unknown, evidenceOf origins⟩
      (navigationFrom receiver member plain).receiver = true := by
    simp [navigationReceiverMatches, navigationFrom, hpath, evidenceOf, hclass]
  have hfacts : navigationFactsMatch
      ⟨member.target, member.multiplicity, .Unknown, .Unknown, evidenceOf origins⟩
      ⟨.new cls.path [], exactlyOne, .NonNullable, .Unknown, evidenceOf origins⟩ member = true := by
    simp [navigationFactsMatch, compose_exactlyOne plain, evidenceOf, hmember]
  have hcolumn : validateScalar [(valuesOf origins cls).schema]
      (.Column 0 ⟨.new cls.path [], exactlyOne, .NonNullable, .Unknown, evidenceOf origins⟩) =
      .ok () := by
    simp [validateScalar, findColumn, RelationSchema.column, valuesOf, schemaOf, columnOf,
      RelationExpression.schema, RelationExpression.shape, sameColumnMetadata]
  have hread : validateScalar [(valuesOf origins cls).schema]
      (.Navigation
        (.Column 0 ⟨.new cls.path [], exactlyOne, .NonNullable, .Unknown, evidenceOf origins⟩)
        (navigationFrom receiver member plain)
        ⟨member.target, member.multiplicity, .Unknown, .Unknown, evidenceOf origins⟩) =
      .ok () := by
    rw [validateScalar, hcolumn]
    exact if_pos (Bool.and_eq_true_iff.mpr ⟨hreceiver, hfacts⟩)
  have hprojected : validateRelationOperator (readsOf origins cls receiver member plain) =
      .ok () := by
    unfold readsOf
    rw [validateRelationOperator, validateProjectionSchema]
    show validateProjections (valuesOf origins cls).schema [(_, _)] = .ok ()
    rw [validateProjections, hread]
    refine (if_pos ?_).trans rfl
    simp [sameColumnMetadata, columnOf, ScalarExpression.facts]
  show (RelationExpression.new (readsOf origins cls receiver member plain)).isOk = true
  rw [RelationExpression.new, hprojected]
  rfl

theorem normalForm_readsOf (origins : List ModelOrigin) (cls receiver : ResolvedClass)
    (member : ResolvedMember) (plain : navigable member = true) :
    normalForm (readsOf origins cls receiver member plain) =
      readsOf origins cls receiver member plain := by
  unfold readsOf
  rw [normalForm, if_neg]
  · rfl
  · intro h
    have hcolumns := (Bool.and_eq_true_iff.mp h).2
    simp [schemaOf, isIdentityRead] at hcolumns
/-- A property of `A` with one value, of type `A`. -/
def propertyA : ResolvedMember where
  owner := classA
  name := ⟨ascii "a", columnA_named⟩
  target := .new ⟨ascii "A", classA_named⟩ []
  multiplicity := exactlyOne
  kind := .Property
  signature := none
  target_temporal_arity := none
  provenance := .Pmcd
  definition := ⟨0, none⟩

/-- The same class with a temporal stereotype. -/
def datedA : ResolvedClass := { classA with temporal := some .BusinessTemporal }

def evidenceOfA : List ModelOrigin := [.fromClass classA, .fromMember propertyA]

theorem propertyA_plain : navigable propertyA = true := rfl

theorem readFromA_built : (readsOf evidenceOfA classA classA propertyA propertyA_plain).Built :=
  readsOf_built propertyA_plain rfl List.mem_cons_self (List.mem_cons_of_mem _ List.mem_cons_self)

theorem readFromDatedA_built : (readsOf evidenceOfA classA datedA propertyA propertyA_plain).Built :=
  readsOf_built propertyA_plain rfl List.mem_cons_self (List.mem_cons_of_mem _ List.mem_cons_self)

def readFromA : RelationalQuery :=
  ⟨readsOf evidenceOfA classA classA propertyA propertyA_plain, readFromA_built⟩

def readFromDatedA : RelationalQuery :=
  ⟨readsOf evidenceOfA classA datedA propertyA propertyA_plain, readFromDatedA_built⟩

/-- Two queries whose navigations start at classes with different stereotypes, and one
key for both normal forms. -/
theorem two_receivers_under_one_key : ∃ nq nq',
    normalizeRelationalQueryWithBudget readFromA ⟨5⟩ = .Normalized nq ∧
      normalizeRelationalQueryWithBudget readFromDatedA ⟨5⟩ = .Normalized nq' ∧
      nq.equivalence_key = nq'.equivalence_key ∧
      ¬SameTree none (fun c c' => c.path = c'.path ∧ c.temporal = c'.temporal)
        nq.root nq'.root := by
  refine ⟨_, _, normalize_of_charge readFromA ⟨5⟩ rfl, normalize_of_charge readFromDatedA ⟨5⟩ rfl,
    ?_, fun h => ?_⟩
  · have hroot : normalForm readFromA.root = readFromA.root := normalForm_readsOf _ _ _ _ _
    have hroot' : normalForm readFromDatedA.root = readFromDatedA.root :=
      normalForm_readsOf _ _ _ _ _
    show EquivalenceKey.mk (semanticKey (normalForm readFromA.root)) =
      ⟨semanticKey (normalForm readFromDatedA.root)⟩
    rw [hroot, hroot']
    rfl
  · have hnavigations := h.navigations
    rw [show normalForm readFromA.root = readFromA.root from normalForm_readsOf _ _ _ _ _,
      show normalForm readFromDatedA.root = readFromDatedA.root from
        normalForm_readsOf _ _ _ _ _] at hnavigations
    have hpair : List.Forall₂ (SameClasses _) [navigationFrom classA propertyA propertyA_plain]
        [navigationFrom datedA propertyA propertyA_plain] := hnavigations
    cases hpair with
    | cons hfirst _ => cases (hfirst.receiver classA datedA rfl rfl).2

end analyzer.normalizer
