-- The comparison from the other side. Normal forms are put in order by their
-- keys, so they compare the same both ways. Two sides that both stop are put
-- in order by their origins, which may tie without being the same.
import PureAnalyzer.Comparison
import PureAnalyzer.EvidenceLaws

namespace analyzer.comparison

open fragments sortedsets model resolve relational normalizer sametree

/-! ## The order of origins -/

theorem orderKey_eq_iff {m m' : ModelOrigin} : orderKey m = orderKey m' ↔ SameText m m' := by
  obtain ⟨kind, provenance, ⟨source, span⟩, identity, hkind⟩ := m
  obtain ⟨kind', provenance', ⟨source', span'⟩, identity', hkind'⟩ := m'
  have hname : ∀ k k', modelOriginKindName k = modelOriginKindName k' ↔ k = k' := by
    intro k k'
    cases k <;> cases k' <;> decide
  have hrank : ∀ p p', provenanceRank p = provenanceRank p' ↔ p = p' := by
    intro p p'
    cases p <;> cases p' <;> decide
  have hspan : ∀ r r', spanKey r = spanKey r' ↔ r = r' := by
    rintro (_ | r) (_ | r')
    · simp
    · simp [spanKey]
    · simp [spanKey]
    · simp only [spanKey, WithBot.coe_inj, EmbeddingLike.apply_eq_iff_eq, Prod.mk.injEq,
        Option.some.injEq]
      constructor
      · rintro ⟨hstart, hstop⟩
        exact TextRange.ext_ends hstart hstop
      · rintro rfl
        exact ⟨rfl, rfl⟩
  simp only [orderKey, EmbeddingLike.apply_eq_iff_eq, Prod.mk.injEq, hname, hrank, hspan]
  constructor
  · rintro ⟨hk, hp, rfl, rfl, hidentity⟩
    exact ⟨hk, hp, rfl, hidentity⟩
  · rintro ⟨hk, hp, hdefinition, hidentity⟩
    obtain ⟨hs, hr⟩ := DefinitionAnchor.mk.inj hdefinition
    exact ⟨hk, hp, hs, hr, hidentity⟩

/-- A comparison comes out even only for equals, however it is decided. -/
theorem cmp_eq_iff {α : Type} [LinearOrder α] [DecidableLT α] {a b : α} :
    cmp a b = .eq ↔ a = b := by
  unfold cmp cmpUsing
  rcases lt_trichotomy a b with h | rfl | h
  · rw [if_pos h]
    exact iff_of_false (by decide) h.ne
  · rw [if_neg (lt_irrefl a), if_neg (lt_irrefl a)]
    exact iff_of_true rfl rfl
  · rw [if_neg (not_lt_of_gt h), if_pos h]
    exact iff_of_false (by decide) h.ne'

theorem compareOrigins_swap (o o' : IrOrigin) :
    (compareOrigins o o').swap = compareOrigins o' o := by
  unfold compareOrigins
  rw [Ordering.swap_then, Ordering.swap_then, Ordering.swap_then, cmp_swap, cmp_swap, cmp_swap,
    cmp_swap]

/-- Two origins tie when they are one place and name definitions with the
same texts. -/
theorem compareOrigins_eq_iff {o o' : IrOrigin} :
    compareOrigins o o' = .eq ↔ o.source = o'.source ∧
      modelOriginKeys o.model_origins = modelOriginKeys o'.model_origins := by
  unfold compareOrigins
  rw [Ordering.then_eq_eq, Ordering.then_eq_eq, Ordering.then_eq_eq, cmp_eq_iff, cmp_eq_iff,
    cmp_eq_iff, cmp_eq_iff]
  constructor
  · rintro ⟨hfile, hstart, hstop, hkeys⟩
    refine ⟨?_, hkeys⟩
    obtain ⟨⟨file, range⟩, origins⟩ := o
    obtain ⟨⟨file', range'⟩, origins'⟩ := o'
    simp only at hfile hstart hstop ⊢
    rw [hfile, TextRange.ext_ends hstart hstop]
  · rintro ⟨hsource, hkeys⟩
    rw [hsource]
    exact ⟨rfl, rfl, rfl, hkeys⟩

theorem sameOrigin_refl (o : IrOrigin) : SameOrigin o o := ⟨rfl, fun _ => Iff.rfl⟩

/-! ## Both sides stop -/

def reasonCodes : List ReasonCode :=
  [.IndWindow, .IndPareto, .IndMultistepFiscal, .IndDivisionRatio, .IndMilestoningAsof,
    .IndOrderUnderdetermined, .IndOpaquePredicate, .IndDifferentSources, .IndMissingRewrite,
    .IndUnmodeledOp, .IndOpaqueFunctionInWitness, .IndUnresolvedSchema,
    .IndWitnessBudgetExhausted, .IndPredicateNormalFormGap, .IndUnparseable, .ModelIncomplete,
    .RelationRowTypeUnknown]

/-- No two reasons have one id. -/
theorem ReasonCode.id_inj {r r' : ReasonCode} (h : r.id = r'.id) : r = r' := by
  have hnodup : (reasonCodes.map ReasonCode.id).Nodup := by decide
  have hmem : ∀ r : ReasonCode, r ∈ reasonCodes := by
    intro r
    cases r <;> decide
  exact List.inj_on_of_nodup_map hnodup (hmem r) (hmem r') h

/-- Two indecisions say the same, up to the order of model origins. -/
def SameIndecision (i j : ComparisonIndecision) : Prop :=
  i.reason = j.reason ∧ SameOrigin i.origin j.origin

/-- Two sides that stop give one answer both ways, or they tie. -/
theorem canonicalIndecision_comm (i j : ComparisonIndecision) :
    SameIndecision (canonicalIndecision i j) (canonicalIndecision j i) ↔
      (i.reason = j.reason → compareOrigins i.origin j.origin = .eq →
        SameOrigin i.origin j.origin) := by
  have hswap : ((cmp i.reason.id j.reason.id).then (compareOrigins i.origin j.origin)).swap =
      (cmp j.reason.id i.reason.id).then (compareOrigins j.origin i.origin) := by
    rw [Ordering.swap_then, cmp_swap, compareOrigins_swap]
  have htie : (cmp i.reason.id j.reason.id).then (compareOrigins i.origin j.origin) = .eq ↔
      i.reason = j.reason ∧ compareOrigins i.origin j.origin = .eq := by
    rw [Ordering.then_eq_eq, cmp_eq_iff]
    exact and_congr_left' ⟨ReasonCode.id_inj, fun h => by rw [h]⟩
  unfold canonicalIndecision
  dsimp only
  rw [← hswap]
  cases horder : (cmp i.reason.id j.reason.id).then (compareOrigins i.origin j.origin) with
  | lt =>
    have hno : ¬ (i.reason = j.reason ∧ compareOrigins i.origin j.origin = .eq) := by
      rw [← htie, horder]
      decide
    simp only [Ordering.swap, Ordering.isLE, if_true, Bool.false_eq_true, if_false]
    exact iff_of_true ⟨rfl, sameOrigin_refl _⟩ fun hr ho => absurd ⟨hr, ho⟩ hno
  | gt =>
    have hno : ¬ (i.reason = j.reason ∧ compareOrigins i.origin j.origin = .eq) := by
      rw [← htie, horder]
      decide
    simp only [Ordering.swap, Ordering.isLE, if_true, Bool.false_eq_true, if_false]
    exact iff_of_true ⟨rfl, sameOrigin_refl _⟩ fun hr ho => absurd ⟨hr, ho⟩ hno
  | eq =>
    obtain ⟨hreason, horigin⟩ := htie.mp horder
    simp only [Ordering.swap, Ordering.isLE, if_true]
    constructor
    · exact fun h _ _ => h.2
    · exact fun h => ⟨hreason, h hreason horigin⟩

/-! ## Both sides normalize -/

theorem nullabilityContradicts_comm (m n : Nullability) :
    nullabilityContradicts m n = nullabilityContradicts n m := by
  cases m <;> cases n <;> rfl

theorem outputColumnFieldDifference_comm (c c' : Column) :
    outputColumnFieldDifference c c' = outputColumnFieldDifference c' c := by
  unfold outputColumnFieldDifference
  simp only [ne_comm (a := c.name), ne_comm (a := c.type_ref), ne_comm (a := c.multiplicity),
    nullabilityContradicts_comm c.nullability]

theorem firstColumnDifference_comm (i : Nat) (cs cs' : List Column) :
    firstColumnDifference i cs' cs =
      (firstColumnDifference i cs cs').map fun (index, field, l, r) => (index, field, r, l) := by
  induction cs generalizing i cs' with
  | nil => cases cs' <;> rfl
  | cons c cs ih =>
    cases cs' with
    | nil => rfl
    | cons c' cs' =>
      simp only [firstColumnDifference, outputColumnFieldDifference_comm c' c]
      cases outputColumnFieldDifference c c' with
      | some field => rfl
      | none => exact ih (i + 1) cs'

/-- Normal forms with different keys come in one order. -/
theorem inOrder_swap {l r : NormalizedQuery} (h : l.structural_key ≠ r.structural_key) :
    inOrder r l = !inOrder l r := by
  have hne : l.structural_key.text ≠ r.structural_key.text := fun heq =>
    h (by cases hl : l.structural_key; cases hr : r.structural_key; simp_all)
  unfold inOrder
  rcases lt_or_gt_of_ne hne with hlt | hlt
  · simp [hlt.le, not_le_of_gt hlt]
  · simp [hlt.le, not_le_of_gt hlt]

theorem outputSchemaDifference_comm {l r : NormalizedQuery}
    (h : l.structural_key ≠ r.structural_key) :
    outputSchemaDifference r l = outputSchemaDifference l r := by
  have hswap := inOrder_swap h
  unfold outputSchemaDifference outputColumnCountDifference canonicalNormalizedOrigins
  simp only [hswap, ne_comm (a := r.root.schema.columns.length)]
  split
  · cases inOrder l r <;> rfl
  · rw [firstColumnDifference_comm, Option.map_map]
    cases inOrder l r <;> rfl

theorem compareNormalized_comm {l r : NormalizedQuery}
    (h : l.equivalence_key ≠ r.equivalence_key → l.structural_key ≠ r.structural_key) :
    compareNormalized r l = compareNormalized l r := by
  unfold compareNormalized
  by_cases hkey : l.equivalence_key = r.equivalence_key
  · rw [if_pos hkey, if_pos hkey.symm]
  · rw [if_neg hkey, if_neg (Ne.symm hkey), outputSchemaDifference_comm (h hkey)]
    unfold canonicalNormalizedOrigin
    rw [inOrder_swap (h hkey)]
    cases outputSchemaDifference l r with
    | some difference => rfl
    | none => cases inOrder l r <;> rfl

/-- The key with the evidence starts with the key of the normal form. -/
theorem structural_of_equivalence {q q' : RelationalQuery} {budget : NormalizationBudget}
    {l r : NormalizedQuery} (hl : normalizeRelationalQueryWithBudget q budget = .Normalized l)
    (hr : normalizeRelationalQueryWithBudget q' budget = .Normalized r)
    (h : l.structural_key = r.structural_key) : l.equivalence_key = r.equivalence_key := by
  obtain ⟨-, hkey, hstructural⟩ := normalized hl
  obtain ⟨-, hkey', hstructural'⟩ := normalized hr
  rw [hstructural, hstructural', StructuralKey.mk.injEq, written_inj] at h
  simp only [List.cons.injEq] at h
  rw [hkey, hkey', h.2.1]

/-! ## Both ways -/

/-- Two outcomes say the same, up to the order and the repetition of model
origins. -/
def SameOutcome : ComparisonOutcome → ComparisonOutcome → Prop
  | .Equivalent, .Equivalent => True
  | .NotEquivalent d, .NotEquivalent d' =>
    d.kind = d'.kind ∧ SameOrigin d.primary_origin d'.primary_origin ∧
      SameOrigin d.secondary_origin d'.secondary_origin
  | .Indecisive i, .Indecisive j => SameIndecision i j
  | _, _ => False

theorem sameOutcome_refl (c : ComparisonOutcome) : SameOutcome c c := by
  cases c with
  | Equivalent => trivial
  | NotEquivalent d => exact ⟨rfl, sameOrigin_refl _, sameOrigin_refl _⟩
  | Indecisive i => exact ⟨rfl, sameOrigin_refl _⟩

/-- Where both sides stop: lowering left both opaque, or the visits of
neither are paid for. -/
def stops (a b : RelationalOutcome) (budget : NormalizationBudget) :
    Option (ComparisonIndecision × ComparisonIndecision) :=
  match a, b with
  | .Opaque o, .Opaque o' => some (⟨o.reason, o.origin⟩, ⟨o'.reason, o'.origin⟩)
  | .Supported q, .Supported q' =>
    match charge (relationVisits 0 q.root) budget.max_steps,
      charge (relationVisits 0 q'.root) budget.max_steps with
    | .error f, .error f' => some (⟨f.reason, f.origin⟩, ⟨f'.reason, f'.origin⟩)
    | _, _ => none
  | _, _ => none

/-- A comparison says the same both ways, except where both sides stop for
one reason at origins that tie and are not the same. -/
theorem symmetric_unless_a_tie (a b : RelationalOutcome) (budget : NormalizationBudget) :
    SameOutcome (compareLoweredQueriesWithBudget a b budget)
        (compareLoweredQueriesWithBudget b a budget) ↔
      ∀ p ∈ stops a b budget, p.1.reason = p.2.reason →
        compareOrigins p.1.origin p.2.origin = .eq → SameOrigin p.1.origin p.2.origin := by
  cases a with
  | Opaque o =>
    cases b with
    | Opaque o' =>
      simp only [stops, Option.mem_some_iff, forall_eq']
      exact canonicalIndecision_comm (indecisionFromOpaque o) (indecisionFromOpaque o')
    | Supported q' => exact iff_of_true (sameOutcome_refl _) (by simp [stops])
  | Supported q =>
    cases b with
    | Opaque o' => exact iff_of_true (sameOutcome_refl _) (by simp [stops])
    | Supported q' =>
      have hleft := normalize_eq q budget
      have hright := normalize_eq q' budget
      simp only [compareLoweredQueriesWithBudget, compareRelationalQueriesWithBudget, stops]
      cases hl : charge (relationVisits 0 q.root) budget.max_steps with
      | error failure =>
        simp only [hl] at hleft
        cases hr : charge (relationVisits 0 q'.root) budget.max_steps with
        | error failure' =>
          simp only [hr] at hright
          simp only [hleft, hright, Option.mem_some_iff, forall_eq']
          exact canonicalIndecision_comm (indecisionFromFailure failure)
            (indecisionFromFailure failure')
        | ok steps =>
          simp only [hr] at hright
          simp only [hleft, hright]
          exact iff_of_true (sameOutcome_refl _) (by simp)
      | ok steps =>
        simp only [hl] at hleft
        refine iff_of_true ?_ (by simp)
        cases hr : charge (relationVisits 0 q'.root) budget.max_steps with
        | error failure' =>
          simp only [hr] at hright
          simp only [hleft, hright]
          exact sameOutcome_refl _
        | ok steps' =>
          simp only [hr] at hright
          simp only [hleft, hright]
          rw [compareNormalized_comm]
          · exact sameOutcome_refl _
          · exact fun hne heq => hne (structural_of_equivalence hright hleft heq)

/-- Two opaque queries that rest on different properties: each side names
its own. -/
theorem each_side_names_its_own :
    ∃ o o' : OpaqueOutcome, ¬ SameOutcome
      (compareLoweredQueriesWithBudget (.Opaque o) (.Opaque o') .default)
      (compareLoweredQueriesWithBudget (.Opaque o') (.Opaque o) .default) := by
  have hsource : SourceSpan := ⟨0, ⟨0, 7, by decide⟩⟩
  refine ⟨⟨.IndUnmodeledOp, ⟨hsource, [propertyOfA]⟩⟩,
    ⟨.IndUnmodeledOp, ⟨hsource, [propertyOfAB]⟩⟩, ?_⟩
  intro h
  have htext : SameText propertyOfA propertyOfAB := ⟨rfl, rfl, rfl, by decide⟩
  have htie : compareOrigins ⟨hsource, [propertyOfA]⟩ ⟨hsource, [propertyOfAB]⟩ = .eq := by
    rw [compareOrigins_eq_iff]
    refine ⟨rfl, ?_⟩
    simp only [modelOriginKeys, List.map_cons, List.map_nil, orderKey_eq_iff.mpr htext]
  have hsame := (canonicalIndecision_comm ⟨.IndUnmodeledOp, ⟨hsource, [propertyOfA]⟩⟩
    ⟨.IndUnmodeledOp, ⟨hsource, [propertyOfAB]⟩⟩).mp h rfl htie
  have hmem := (hsame.2 propertyOfA).mp (List.mem_singleton_self _)
  exact absurd (List.mem_singleton.mp hmem) (by decide)

end analyzer.comparison
