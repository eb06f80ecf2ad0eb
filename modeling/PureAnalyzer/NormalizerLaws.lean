-- The laws of normalization. It succeeds exactly within its two budgets, the
-- normal form is built as the query was and has its schema, and a normal form
-- is its own normal form.
import PureAnalyzer.NormalForms

namespace analyzer.normalizer

open fragments model resolve relational

/-! ## Nodes and nesting -/

def scalarNodes : ScalarExpression → Nat
  | .Column _ _ | .Literal _ _ => 1
  | .Navigation input _ _ | .Not input _ => scalarNodes input + 1
  | .Equal left right _ => scalarNodes left + scalarNodes right + 1

/-- The relation and scalar nodes of a query. -/
def relationNodes : RelationExpression → Nat
  | .Scan _ _ => 1
  | .Filter input predicate _ => relationNodes input + scalarNodes predicate + 1
  | .Project input ps _ _ =>
    relationNodes input + (ps.map fun p => scalarNodes p.expression).sum + 1
  | .Join _ left right condition _ =>
    relationNodes left + relationNodes right + scalarNodes condition + 1
  | .Distinct input _ | .DistinctOn input _ _ | .Sort input _ _ => relationNodes input + 1

def scalarDepth : ScalarExpression → Nat
  | .Column _ _ | .Literal _ _ => 1
  | .Navigation input _ _ | .Not input _ => scalarDepth input + 1
  | .Equal left right _ => max (scalarDepth left) (scalarDepth right) + 1

/-- How deep the relation and scalar nodes of a query are nested. -/
def relationDepth : RelationExpression → Nat
  | .Scan _ _ => 1
  | .Filter input predicate _ => max (relationDepth input) (scalarDepth predicate) + 1
  | .Project input ps _ _ =>
    max (relationDepth input) ((ps.map fun p => scalarDepth p.expression).foldr max 0) + 1
  | .Join _ left right condition _ =>
    max (max (relationDepth left) (relationDepth right)) (scalarDepth condition) + 1
  | .Distinct input _ | .DistinctOn input _ _ | .Sort input _ _ => relationDepth input + 1

/-! ## What the visits come to -/

/-- No visit is at the limit or below it. -/
def Shallow (limit : Nat) (visits : List Visit) : Prop := ∀ v ∈ visits, v.1 < limit

theorem shallow_cons {limit depth : Nat} {origin : IrOrigin} {visits : List Visit} :
    Shallow limit ((depth, origin) :: visits) ↔ depth < limit ∧ Shallow limit visits :=
  List.forall_mem_cons

theorem shallow_append {limit : Nat} {us vs : List Visit} :
    Shallow limit (us ++ vs) ↔ Shallow limit us ∧ Shallow limit vs := List.forall_mem_append

theorem scalarDepth_pos (e : ScalarExpression) : 0 < scalarDepth e := by
  cases e <;> exact Nat.succ_pos _

theorem relationDepth_pos (e : RelationExpression) : 0 < relationDepth e := by
  cases e <;> exact Nat.succ_pos _

theorem scalarVisits_length (depth : Nat) (e : ScalarExpression) :
    (scalarVisits depth e).length = scalarNodes e := by
  induction e generalizing depth with
  | Column id facts => rfl
  | Literal literal facts => rfl
  | Navigation input navigation facts ih => simp [scalarVisits, scalarNodes, ih]
  | Equal left right facts ihl ihr => simp [scalarVisits, scalarNodes, ihl, ihr]
  | Not input facts ih => simp [scalarVisits, scalarNodes, ih]

theorem scalarVisits_shallow (limit depth : Nat) (e : ScalarExpression) :
    Shallow limit (scalarVisits depth e) ↔ depth + scalarDepth e ≤ limit := by
  induction e generalizing depth with
  | Column id facts => exact List.forall_mem_singleton
  | Literal literal facts => exact List.forall_mem_singleton
  | Navigation input navigation facts ih =>
    have hpos := scalarDepth_pos input
    rw [scalarVisits, shallow_cons, ih, scalarDepth]
    omega
  | Equal left right facts ihl ihr =>
    have hpos := scalarDepth_pos left
    rw [scalarVisits, shallow_cons, shallow_append, ihl, ihr, scalarDepth]
    omega
  | Not input facts ih =>
    have hpos := scalarDepth_pos input
    rw [scalarVisits, shallow_cons, ih, scalarDepth]
    omega

theorem projectionVisits_length (depth : Nat) (ps : List Projection) :
    (ps.flatMap fun p => scalarVisits depth p.expression).length =
      (ps.map fun p => scalarNodes p.expression).sum := by
  rw [List.length_flatMap]
  simp only [scalarVisits_length]

theorem projectionVisits_shallow (limit depth : Nat) (hdepth : depth ≤ limit)
    (ps : List Projection) :
    Shallow limit (ps.flatMap fun p => scalarVisits depth p.expression) ↔
      depth + (ps.map fun p => scalarDepth p.expression).foldr max 0 ≤ limit := by
  induction ps with
  | nil => simpa [Shallow] using hdepth
  | cons p ps ih =>
    rw [List.flatMap_cons, shallow_append, ih, scalarVisits_shallow, List.map_cons, List.foldr_cons]
    omega

/-- The walk visits each node once. -/
theorem relationVisits_length (depth : Nat) (e : RelationExpression) :
    (relationVisits depth e).length = relationNodes e := by
  induction e generalizing depth with
  | Scan source shape => rfl
  | Filter input predicate shape ih =>
    simp [relationVisits, relationNodes, ih, scalarVisits_length]
  | Project input ps kind shape ih =>
    rw [relationVisits, List.length_cons, List.length_append, ih, projectionVisits_length,
      relationNodes]
  | Join kind left right condition shape ihl ihr =>
    simp [relationVisits, relationNodes, ihl, ihr, scalarVisits_length, Nat.add_assoc]
  | Distinct input shape ih => simp [relationVisits, relationNodes, ih]
  | DistinctOn input columns shape ih => simp [relationVisits, relationNodes, ih]
  | «Sort» input keys shape ih => simp [relationVisits, relationNodes, ih]

theorem relationVisits_shallow (limit depth : Nat) (e : RelationExpression) :
    Shallow limit (relationVisits depth e) ↔ depth + relationDepth e ≤ limit := by
  induction e generalizing depth with
  | Scan source shape => exact List.forall_mem_singleton
  | Filter input predicate shape ih =>
    have hpos := relationDepth_pos input
    rw [relationVisits, shallow_cons, shallow_append, ih, scalarVisits_shallow, relationDepth]
    omega
  | Project input ps kind shape ih =>
    have hpos := relationDepth_pos input
    rw [relationVisits, shallow_cons, shallow_append, ih, relationDepth]
    constructor
    · rintro ⟨-, hinput, hps⟩
      rw [projectionVisits_shallow limit _ (by omega)] at hps
      omega
    · intro h
      rw [projectionVisits_shallow limit _ (by omega)]
      omega
  | Join kind left right condition shape ihl ihr =>
    have hpos := relationDepth_pos left
    rw [relationVisits, shallow_cons, shallow_append, shallow_append, ihl, ihr,
      scalarVisits_shallow, relationDepth]
    omega
  | Distinct input shape ih =>
    have hpos := relationDepth_pos input
    rw [relationVisits, shallow_cons, ih, relationDepth]
    omega
  | DistinctOn input columns shape ih =>
    have hpos := relationDepth_pos input
    rw [relationVisits, shallow_cons, ih, relationDepth]
    omega
  | «Sort» input keys shape ih =>
    have hpos := relationDepth_pos input
    rw [relationVisits, shallow_cons, ih, relationDepth]
    omega

/-- Visits are paid for when there are steps for all of them and none is too
deep. -/
theorem charge_ok_iff (visits : List Visit) (steps : Nat) :
    (∃ left, charge visits steps = .ok left) ↔
      visits.length ≤ steps ∧ Shallow MAX_RELATIONAL_RECURSION_DEPTH visits := by
  induction visits generalizing steps with
  | nil => simp [charge, Shallow]
  | cons v visits ih =>
    obtain ⟨depth, origin⟩ := v
    rw [shallow_cons]
    cases steps with
    | zero => simp [charge]
    | succ steps =>
      rw [charge, List.length_cons]
      by_cases hdepth : depth ≥ MAX_RELATIONAL_RECURSION_DEPTH
      · rw [if_pos hdepth]
        simp only [reduceCtorEq, exists_false, false_iff]
        omega
      · have hlt : depth < MAX_RELATIONAL_RECURSION_DEPTH := by omega
        rw [if_neg hdepth, ih, Nat.add_le_add_iff_right]
        simp only [hlt, true_and]

theorem normalized_iff (q : RelationalQuery) (budget : NormalizationBudget) :
    (∃ nq, normalizeRelationalQueryWithBudget q budget = .Normalized nq) ↔
      relationNodes q.root ≤ budget.max_steps ∧
        relationDepth q.root ≤ MAX_RELATIONAL_RECURSION_DEPTH := by
  have hcharge := charge_ok_iff (relationVisits 0 q.root) budget.max_steps
  rw [relationVisits_length, relationVisits_shallow, Nat.zero_add] at hcharge
  rw [← hcharge, normalize_eq]
  cases charge (relationVisits 0 q.root) budget.max_steps with
  | error failure => simp
  | ok left => simp

/-! ## A normal form -/

theorem normalForm_idem (e : RelationExpression) : normalForm (normalForm e) = normalForm e := by
  induction e with
  | Scan source shape => rfl
  | Filter input predicate shape ih =>
    simp only [normalForm]
    split
    · exact ih
    · next hkeep => simp only [normalForm, ih, if_neg hkeep]
  | Project input ps kind shape ih =>
    simp only [normalForm]
    split
    · exact ih
    · next hkeep => simp only [normalForm, ih, if_neg hkeep]
  | Join kind left right condition shape ihl ihr => simp only [normalForm, ihl, ihr]
  | Distinct input shape ih =>
    simp only [normalForm]
    split
    · exact ih
    · next hkeep => simp only [normalForm, ih, if_neg hkeep]
  | DistinctOn input columns shape ih => simp only [normalForm, ih]
  | «Sort» input keys shape ih => simp only [normalForm, ih]

/-- Normalization only drops nodes. -/
theorem normalForm_smaller (e : RelationExpression) :
    relationNodes (normalForm e) ≤ relationNodes e ∧
      relationDepth (normalForm e) ≤ relationDepth e := by
  induction e with
  | Scan source shape => exact ⟨le_rfl, le_rfl⟩
  | Filter input predicate shape ih =>
    simp only [normalForm]
    split
    · simp only [relationNodes, relationDepth]
      omega
    · simp only [relationNodes, relationDepth]
      omega
  | Project input ps kind shape ih =>
    simp only [normalForm]
    split
    · simp only [relationNodes, relationDepth]
      omega
    · simp only [relationNodes, relationDepth]
      omega
  | Join kind left right condition shape ihl ihr =>
    simp only [normalForm, relationNodes, relationDepth]
    omega
  | Distinct input shape ih =>
    simp only [normalForm]
    split
    · simp only [relationNodes, relationDepth]
      omega
    · simp only [relationNodes, relationDepth]
      omega
  | DistinctOn input columns shape ih =>
    simp only [normalForm, relationNodes, relationDepth]
    omega
  | «Sort» input keys shape ih =>
    simp only [normalForm, relationNodes, relationDepth]
    omega

/-- A query normalizes exactly when its nodes are within the steps and its
nesting is within the limit. The normal form has the schema of the query and
every check of a constructed query, and it normalizes within the same budget
to itself, under the same key. -/
theorem normalization_is_total_and_stable (q : RelationalQuery) (budget : NormalizationBudget) :
    ((∃ nq, normalizeRelationalQueryWithBudget q budget = .Normalized nq) ↔
      relationNodes q.root ≤ budget.max_steps ∧
        relationDepth q.root ≤ MAX_RELATIONAL_RECURSION_DEPTH) ∧
      ∀ nq, normalizeRelationalQueryWithBudget q budget = .Normalized nq →
        nq.root.schema = q.output ∧ ∃ hbuilt : nq.root.Built, ∃ again,
          normalizeRelationalQueryWithBudget ⟨nq.root, hbuilt⟩ budget = .Normalized again ∧
            again.root = nq.root ∧ again.equivalence_key = nq.equivalence_key := by
  refine ⟨normalized_iff q budget, fun nq h => ?_⟩
  obtain ⟨hroot, hkey, -⟩ := normalized h
  have hschema : nq.root.schema = q.output := by
    rw [hroot]
    exact normalForm_schema q.root
  have hbuilt : nq.root.Built := by
    rw [hroot]
    exact normalForm_built q.built
  obtain ⟨hnodes, hdepth⟩ := (normalized_iff q budget).mp ⟨nq, h⟩
  have hsmaller := normalForm_smaller q.root
  have hwithin : relationNodes nq.root ≤ budget.max_steps ∧
      relationDepth nq.root ≤ MAX_RELATIONAL_RECURSION_DEPTH := by
    rw [hroot]
    omega
  obtain ⟨again, hagain⟩ := (normalized_iff ⟨nq.root, hbuilt⟩ budget).mpr hwithin
  obtain ⟨hroot', hkey', -⟩ := normalized hagain
  have hsame : again.root = nq.root := by
    rw [hroot']
    show normalForm nq.root = nq.root
    rw [hroot, normalForm_idem]
  refine ⟨hschema, hbuilt, again, hagain, hsame, ?_⟩
  rw [hkey', hsame, hkey]

/-- The filter of all values of a class by true is dropped in three steps, and then
nothing is left to do. -/
theorem all_of_a_is_stable : ∃ nq again, ∃ hbuilt : nq.root.Built,
    normalizeRelationalQueryWithBudget filteredQuery ⟨3⟩ = .Normalized nq ∧
      nq.root = allOfA 0 3 ∧ nq.root.schema = filteredQuery.output ∧
      normalizeRelationalQueryWithBudget ⟨nq.root, hbuilt⟩ ⟨3⟩ = .Normalized again ∧
      again.root = nq.root ∧ again.equivalence_key = nq.equivalence_key := by
  obtain ⟨hwithin, hstable⟩ := normalization_is_total_and_stable filteredQuery ⟨3⟩
  obtain ⟨nq, h⟩ := hwithin.mpr ⟨by decide, by decide⟩
  obtain ⟨hschema, hbuilt, again, hagain, hroot, hkey⟩ := hstable nq h
  exact ⟨nq, again, hbuilt, h, (normalized h).1, hschema, hagain, hroot, hkey⟩

end analyzer.normalizer
