-- Normalization keeps the rows of a query, and a tree keeps its rows when its
-- columns are renamed place by place. So what compares as equivalent gives
-- the same rows, and what does not has another output schema.
import PureAnalyzer.Denotation
import PureAnalyzer.ComparisonLaws

namespace analyzer.denotation

open model resolve relational normalizer sametree comparison attempts

theorem eraseDups_eraseDups {α : Type} [BEq α] [LawfulBEq α] (l : List α) :
    l.eraseDups.eraseDups = l.eraseDups := by
  match l with
  | [] => rfl
  | a :: l =>
    have hkept : ((l.filter fun b => !b == a).eraseDups.filter fun b => !b == a) =
        (l.filter fun b => !b == a).eraseDups := by
      apply List.filter_eq_self.mpr
      intro b hb
      exact (List.mem_filter.mp (List.mem_eraseDups.mp hb)).2
    rw [List.eraseDups_cons, List.eraseDups_cons, hkept, eraseDups_eraseDups]
termination_by l.length
decreasing_by exact Nat.lt_succ_of_le (List.length_filter_le _ _)

theorem map_of_forall₂ {α β γ : Type} {R : α → β → Prop} {f : α → γ} {g : β → γ} {xs : List α}
    {ys : List β} (h : List.Forall₂ R xs ys) (hfg : ∀ x y, R x y → f x = g y) :
    xs.map f = ys.map g := by
  induction h with
  | nil => rfl
  | cons hxy hrest ih => rw [List.map_cons, List.map_cons, hfg _ _ hxy, ih]

variable {V : Type} (I : Interpretation V)

/-! ## The cells of a row -/

theorem cell_of_position {columns : List Column} (hids : (columns.map Column.id).Nodup)
    {id : ColumnId} {p : Nat} (h : (ColumnScope.fromColumns columns).position id = some p)
    (row : Row V) : cell I columns row id = row.getD p (I.literal .Null) := by
  have hget : columns[p]?.map Column.id = some id := by
    have hplace := (lastPosition_some h).2
    simpa [ColumnScope.fromColumns] using hplace
  obtain ⟨column, hcolumn, hid⟩ := Option.map_eq_some_iff.mp hget
  obtain ⟨hlt, rfl⟩ := List.getElem?_eq_some_iff.mp hcolumn
  have hfind : columns.findIdx? (·.id = id) = some p := by
    rw [List.findIdx?_eq_some_iff_getElem]
    refine ⟨hlt, by simpa using hid, fun j hj => ?_⟩
    have hj' : j < (columns.map Column.id).length := by simp; omega
    have hp' : p < (columns.map Column.id).length := by simpa using hlt
    have hne : (columns.map Column.id)[j] ≠ (columns.map Column.id)[p] := by
      intro heq
      have hjp := (hids.getElem_inj_iff).mp heq
      omega
    simpa [hid] using hne
  unfold cell
  rw [hfind]

/-- A row is read back from its own columns. -/
theorem cell_of_column {columns : List Column} (hids : (columns.map Column.id).Nodup)
    {row : Row V} (hlen : row.length = columns.length) :
    columns.map (fun column => cell I columns row column.id) = row := by
  apply List.ext_getElem (by simp [hlen])
  intro i hi hi'
  have hlt : i < columns.length := by simpa using hi
  have hpos : (ColumnScope.fromColumns columns).position columns[i].id = some i := by
    have hplace := lastPosition_of_nodup hids (k := 0) (i := i) (c := columns[i].id)
      (by simp [hlt])
    rwa [Nat.zero_add] at hplace
  rw [List.getElem_map, cell_of_position I hids hpos, List.getD_eq_getElem?_getD,
    List.getElem?_eq_getElem hi', Option.getD_some]

/-! ## Renaming keeps the meaning -/

section renamed

variable {columns columns' : List Column} (hids : (columns.map Column.id).Nodup)
variable (hids' : (columns'.map Column.id).Nodup)

include hids hids'

theorem cell_same {id id' : ColumnId}
    (h : SameColumn (.fromColumns columns) (.fromColumns columns') id id') (row : Row V) :
    cell I columns row id = cell I columns' row id' := by
  obtain ⟨p, hp, hp'⟩ := h
  rw [cell_of_position I hids hp, cell_of_position I hids' hp']

theorem value_same {e e' : ScalarExpression}
    (h : SameScalar none (.fromColumns columns) (.fromColumns columns') e e') (row : Row V) :
    value I columns row e = value I columns' row e' := by
  induction e generalizing e' with
  | Column id facts =>
    cases e' with
    | Column id' facts' => exact cell_same I hids hids' h.2 row
    | _ => exact h.elim
  | Literal literal facts =>
    cases e' with
    | Literal literal' facts' => exact congrArg I.literal h.2
    | _ => exact h.elim
  | Navigation input navigation facts ih =>
    cases e' with
    | Navigation input' navigation' facts' =>
      obtain ⟨-, hinput, -, hmember⟩ := h
      simp only [value, ih hinput, I.member_same hmember]
    | _ => exact h.elim
  | Equal left right facts ihl ihr =>
    cases e' with
    | Equal left' right' facts' =>
      obtain ⟨-, hleft, hright⟩ := h
      simp only [value, ihl hleft, ihr hright]
    | _ => exact h.elim
  | Not input facts ih =>
    cases e' with
    | Not input' facts' =>
      obtain ⟨-, hinput⟩ := h
      simp only [value, ih hinput]
    | _ => exact h.elim

theorem orderRows_same {keys keys' : List SortKey}
    (h : List.Forall₂ (SameSortKey none (.fromColumns columns) (.fromColumns columns')) keys keys')
    (row row' : Row V) :
    orderRows I columns keys row row' = orderRows I columns' keys' row row' := by
  induction h with
  | nil => rfl
  | cons hkey hkeys ih =>
    unfold orderRows at ih ⊢
    rw [List.foldr_cons, List.foldr_cons, ih, cell_same I hids hids' hkey.column row,
      cell_same I hids hids' hkey.column row', hkey.direction]

end renamed

theorem scanRows_same {c c' : ResolvedClass} (hclass : SameClass none c c')
    {columns columns' : List Column} (h : List.Forall₂ (SameHeader none) columns columns') :
    scanRows I c columns = scanRows I c' columns' := by
  unfold scanRows
  rw [I.extent_same hclass]
  congr 1
  funext object
  apply List.ext_getElem (by simp [h.length_eq])
  intro i hi hi'
  simp only [List.getElem_mapIdx]
  have hheader := h.get (by simpa using hi) (by simpa using hi')
  exact congrFun (I.read_same hclass hheader i) object

/-- The columns that a join reads have different identities. -/
theorem join_ids {kind : JoinKind} {left right : RelationExpression} {condition : ScalarExpression}
    {shape : RelationShape} (h : (RelationExpression.Join kind left right condition shape).new.isOk) :
    shape.schema.columns = left.schema.columns ++ right.schema.columns := by
  have hop := (new_ok h).1
  simp only [validateRelationOperator] at hop
  split at hop
  · cases hop
  · next hjoin => simpa [isJoinSchema] using hjoin

variable [DecidableEq V]

/-- Trees that are one up to the identities of their columns have the same
rows. -/
theorem rows_same {e e' : RelationExpression} (hb : e.Built) (hb' : e'.Built)
    (h : SameRelation none e e') : rows I e = rows I e' := by
  induction e generalizing e' with
  | Scan source shape =>
    cases e' with
    | Scan source' shape' =>
      cases source
      cases source'
      exact scanRows_same I h.2 h.1.columns
    | _ => exact h.elim
  | Filter input predicate shape ih =>
    cases e' with
    | Filter input' predicate' shape' =>
      obtain ⟨-, hinput, hpredicate⟩ := h
      simp only [rows, ih hb.2 hb'.2 hinput]
      congr 1
      funext row
      exact congrArg I.holds (value_same I input.schema.ids input'.schema.ids hpredicate row)
    | _ => exact h.elim
  | Project input ps kind shape ih =>
    cases e' with
    | Project input' ps' kind' shape' =>
      obtain ⟨-, -, hinput, hps⟩ := h
      simp only [rows, ih hb.2 hb'.2 hinput]
      congr 1
      funext row
      exact map_of_forall₂ hps fun p p' hp =>
        value_same I input.schema.ids input'.schema.ids hp.expression row
    | _ => exact h.elim
  | Join kind left right condition shape ihl ihr =>
    cases e' with
    | Join kind' left' right' condition' shape' =>
      obtain ⟨-, -, hleft, hright, hcondition⟩ := h
      have hids : ((left.schema.columns ++ right.schema.columns).map Column.id).Nodup := by
        rw [← join_ids hb.1]
        exact shape.schema.ids
      have hids' : ((left'.schema.columns ++ right'.schema.columns).map Column.id).Nodup := by
        rw [← join_ids hb'.1]
        exact shape'.schema.ids
      simp only [rows, ihl hb.2.1 hb'.2.1 hleft, ihr hb.2.2 hb'.2.2 hright]
      congr 1
      funext l
      congr 1
      funext row
      exact congrArg I.holds (value_same I hids hids' hcondition row)
    | _ => exact h.elim
  | Distinct input shape ih =>
    cases e' with
    | Distinct input' shape' =>
      simp only [rows, ih hb.2 hb'.2 h.2]
    | _ => exact h.elim
  | DistinctOn input columns shape ih =>
    cases e' with
    | DistinctOn input' columns' shape' =>
      obtain ⟨-, hinput, hcolumns⟩ := h
      simp only [rows, ih hb.2 hb'.2 hinput]
      congr 2
      funext row
      exact map_of_forall₂ hcolumns fun c c' hc =>
        cell_same I input.schema.ids input'.schema.ids hc row
    | _ => exact h.elim
  | «Sort» input keys shape ih =>
    cases e' with
    | «Sort» input' keys' shape' =>
      obtain ⟨-, hinput, hkeys⟩ := h
      simp only [rows, ih hb.2 hb'.2 hinput]
      congr 1
      funext row row'
      rw [orderRows_same I input.schema.ids input'.schema.ids hkeys]
    | _ => exact h.elim

/-! ## Normalization keeps the rows -/

theorem projections_length {input : RelationExpression} {ps : List Projection}
    {kind : ProjectionKind} {shape : RelationShape}
    (h : (RelationExpression.Project input ps kind shape).new.isOk) :
    ps.length = shape.schema.columns.length := by
  have hreads : ReadsKnown (.Project input ps kind shape) := reads_known h
  simpa using congrArg List.length hreads.1

theorem selectColumns_length {input : RelationSchema} {seen ids : List ColumnId}
    {selected : List Column} (h : selectColumns input seen ids = .ok selected) :
    selected.length = ids.length := by
  induction ids generalizing seen selected with
  | nil => cases h; rfl
  | cons id ids ih =>
    rw [selectColumns] at h
    split at h
    · cases h
    · cases hcolumn : input.column id with
      | none => simp [hcolumn] at h
      | some column =>
        simp only [hcolumn] at h
        obtain ⟨rest, hrest, hcons⟩ := bind_ok h
        cases hcons
        rw [List.length_cons, List.length_cons, ih hrest]

theorem checked_schema {s t : RelationSchema} {err : RelationExpressionError}
    {rest : Except RelationExpressionError Unit}
    (h : (if s ≠ t then .error err else rest) = .ok ()) : s = t := by
  by_contra hne
  rw [if_pos hne] at h
  cases h

/-- Every row has a value for each column. -/
theorem rows_length {e : RelationExpression} (h : e.Built) :
    ∀ row ∈ rows I e, row.length = e.schema.columns.length := by
  have hop := (new_ok (KeyEncoder.built_new h)).1
  induction e with
  | Scan source shape =>
    cases source
    intro row hrow
    obtain ⟨object, -, rfl⟩ := List.mem_map.mp hrow
    simp [RelationExpression.schema, RelationExpression.shape]
  | Filter input predicate shape ih =>
    intro row hrow
    have hinput := ih h.2 (new_ok (KeyEncoder.built_new h.2)).1 row (List.mem_filter.mp hrow).1
    rw [hinput, ← checked_schema hop]
    rfl
  | Project input ps kind shape ih =>
    intro row hrow
    obtain ⟨r, -, rfl⟩ := List.mem_map.mp hrow
    rw [List.length_map]
    exact projections_length h.1
  | Join kind left right condition shape ihl ihr =>
    intro row hrow
    obtain ⟨l, hl, hrow⟩ := List.mem_flatMap.mp hrow
    obtain ⟨r, hr, rfl⟩ := List.mem_map.mp (List.mem_filter.mp hrow).1
    show (l ++ r).length = shape.schema.columns.length
    rw [join_ids h.1, List.length_append, List.length_append,
      ihl h.2.1 (new_ok (KeyEncoder.built_new h.2.1)).1 l hl,
      ihr h.2.2 (new_ok (KeyEncoder.built_new h.2.2)).1 r hr]
  | Distinct input shape ih =>
    intro row hrow
    have hinput := ih h.2 (new_ok (KeyEncoder.built_new h.2)).1 row (List.mem_eraseDups.mp hrow)
    rw [hinput, ← checked_schema hop]
    rfl
  | DistinctOn input columns shape ih =>
    intro row hrow
    obtain ⟨r, -, rfl⟩ := List.mem_map.mp (List.mem_eraseDups.mp hrow)
    simp only [validateRelationOperator, validateDistinctOnSchema] at hop
    split at hop
    · cases hop
    · obtain ⟨selected, hselected, hschema⟩ := bind_ok hop
      split at hschema
      · next heq =>
        show _ = shape.schema.columns.length
        rw [heq, List.length_map, selectColumns_length hselected]
      · cases hschema
  | «Sort» input keys shape ih =>
    intro row hrow
    have hinput := ih h.2 (new_ok (KeyEncoder.built_new h.2)).1 row (List.mem_mergeSort.mp hrow)
    rw [hinput, ← checked_schema hop]
    rfl

omit [DecidableEq V] in
/-- Reading every column in its place gives the row back. -/
theorem identity_reads {columns : List Column} (hids : (columns.map Column.id).Nodup)
    {ps : List Projection} (hlen : ps.length = columns.length)
    (h : (ps.zip columns).all (fun p => isIdentityRead p.1 p.2) = true) {row : Row V}
    (hrow : row.length = columns.length) :
    ps.map (fun p => value I columns row p.expression) = row := by
  rw [← cell_of_column I hids hrow]
  apply List.ext_getElem (by simp [hlen])
  intro i hi hi'
  have hps : i < ps.length := by simpa using hi
  have hcolumns : i < columns.length := by omega
  have hread : isIdentityRead ps[i] columns[i] = true := by
    rw [List.all_eq_true] at h
    apply h (ps[i], columns[i])
    rw [← List.getElem_zip (h := by simp; omega)]
    exact List.getElem_mem _
  rw [List.getElem_map, List.getElem_map]
  simp only [isIdentityRead, Bool.and_eq_true] at hread
  cases hexpression : ps[i].expression with
  | Column id facts =>
    have hid : id = columns[i].id := by simpa [hexpression] using hread.2
    rw [← hid, value, cell_of_column I hids hrow]
  | _ => simp [hexpression] at hread

theorem rows_normalForm {e : RelationExpression} (h : e.Built) :
    rows I (normalForm e) = rows I e := by
  induction e with
  | Scan source shape => rfl
  | Filter input predicate shape ih =>
    simp only [normalForm]
    split
    · next hkeep =>
      simp only [isLiteralTrueFilter, Bool.and_eq_true] at hkeep
      cases predicate with
      | Literal literal facts =>
        cases literal with
        | Boolean truth =>
          cases truth with
          | true => simp [rows, value, I.holds_true, ih h.2]
          | false => simp at hkeep
        | _ => simp at hkeep
      | _ => simp at hkeep
    · simp only [rows, ih h.2, normalForm_schema]
  | Project input ps kind shape ih =>
    simp only [normalForm]
    split
    · next hkeep =>
      simp only [isIdentityProject, Bool.and_eq_true, decide_eq_true_eq] at hkeep
      obtain ⟨⟨⟨hschema, -⟩, hlen⟩, hreads⟩ := hkeep
      rw [normalForm_schema] at hschema
      rw [hschema] at hlen hreads
      have hmap : (rows I input).map (fun row =>
          ps.map fun p => value I input.schema.columns row p.expression) =
          (rows I input).map id :=
        List.map_congr_left fun row hrow =>
          identity_reads I input.schema.ids hlen hreads (rows_length I h.2 row hrow)
      rw [ih h.2, rows, hmap, List.map_id]
    · simp only [rows, ih h.2, normalForm_schema]
  | Join kind left right condition shape ihl ihr =>
    simp only [normalForm, rows, ihl h.2.1, ihr h.2.2, normalForm_schema]
  | Distinct input shape ih =>
    simp only [normalForm]
    split
    · next hkeep =>
      simp only [isRepeatedDistinct, Bool.and_eq_true] at hkeep
      rw [rows, ← ih h.2]
      cases hinput : normalForm input with
      | Distinct inner shape' => simp only [rows, eraseDups_eraseDups]
      | _ => simp [hinput] at hkeep
    · simp only [rows, ih h.2]
  | DistinctOn input columns shape ih =>
    simp only [normalForm, rows, ih h.2, normalForm_schema]
  | «Sort» input keys shape ih =>
    simp only [normalForm, rows, ih h.2, normalForm_schema]

theorem sameRelation_shape {E : Evidence} {e e' : RelationExpression} (h : SameRelation E e e') :
    SameShape E e.shape e'.shape := by
  cases e <;> cases e' <;> first | exact h.1 | exact h.elim

/-! ## Verdicts -/

/-- The columns say something else in the field. -/
def FieldDiffers (field : OutputSchemaField) (c c' : Column) : Prop :=
  match field with
  | .Name => c.name ≠ c'.name
  | .Type => c.type_ref ≠ c'.type_ref
  | .Multiplicity => c.multiplicity ≠ c'.multiplicity
  | .Nullability =>
    c.nullability = .NonNullable ∧ c'.nullability = .Nullable ∨
      c.nullability = .Nullable ∧ c'.nullability = .NonNullable

/-- A reported difference is one of two output schemas. -/
def Differs (kind : StructuralDifferenceKind) (s s' : RelationSchema) : Prop :=
  match kind with
  | .OutputColumnCount primary secondary =>
    primary ≠ secondary ∧
      (primary = s.columns.length ∧ secondary = s'.columns.length ∨
        primary = s'.columns.length ∧ secondary = s.columns.length)
  | .OutputColumn index field =>
    ∃ c c', s.columns[index]? = some c ∧ s'.columns[index]? = some c' ∧ FieldDiffers field c c'

theorem field_differs {c c' : Column} {field : OutputSchemaField}
    (h : outputColumnFieldDifference c c' = some field) : FieldDiffers field c c' := by
  unfold outputColumnFieldDifference at h
  split at h
  · next hname => cases h; exact hname
  · split at h
    · next htype => cases h; exact htype
    · split at h
      · next hmultiplicity => cases h; exact hmultiplicity
      · split at h
        · next hnullability =>
          cases h
          cases hl : c.nullability <;> cases hr : c'.nullability <;>
            simp_all [nullabilityContradicts, FieldDiffers]
        · cases h

theorem firstColumnDifference_some {i index : Nat} {cs cs' : List Column}
    {field : OutputSchemaField} {c c' : Column}
    (h : firstColumnDifference i cs cs' = some (index, field, c, c')) :
    i ≤ index ∧ cs[index - i]? = some c ∧ cs'[index - i]? = some c' ∧
      outputColumnFieldDifference c c' = some field := by
  induction cs generalizing i cs' with
  | nil => cases cs' <;> cases h
  | cons d cs ih =>
    cases cs' with
    | nil => cases h
    | cons d' cs' =>
      rw [firstColumnDifference] at h
      cases hfield : outputColumnFieldDifference d d' with
      | some field' =>
        simp only [hfield, Option.some.injEq, Prod.mk.injEq] at h
        obtain ⟨rfl, rfl, rfl, rfl⟩ := h
        simp [hfield]
      | none =>
        simp only [hfield] at h
        obtain ⟨hle, hc, hc', hdiff⟩ := ih h
        have hsub : index - i = (index - (i + 1)) + 1 := by omega
        refine ⟨by omega, ?_, ?_, hdiff⟩
        · rw [hsub, List.getElem?_cons_succ, hc]
        · rw [hsub, List.getElem?_cons_succ, hc']

theorem outputSchemaDifference_differs {l r : NormalizedQuery} {d : StructuralDifference}
    (h : outputSchemaDifference l r = some d) : Differs d.kind l.root.schema r.root.schema := by
  simp only [outputSchemaDifference] at h
  split at h
  · next hcount =>
    obtain rfl := Option.some.inj h
    unfold outputColumnCountDifference
    split
    · exact ⟨hcount, .inl ⟨rfl, rfl⟩⟩
    · exact ⟨Ne.symm hcount, .inr ⟨rfl, rfl⟩⟩
  · obtain ⟨⟨index, field, c, c'⟩, hfirst, rfl⟩ := Option.map_eq_some_iff.mp h
    obtain ⟨-, hc, hc', hdiff⟩ := firstColumnDifference_some hfirst
    exact ⟨c, c', hc, hc', field_differs hdiff⟩

/-- Equivalent queries have the same rows, under the same names and types,
whatever the model means. Queries that are not equivalent have output schemas
that differ as it is reported. -/
theorem verdicts_are_sound (q q' : RelationalQuery) (budget : NormalizationBudget) :
    (compareRelationalQueriesWithBudget q q' budget = .Equivalent →
      rows I q.root = rows I q'.root ∧
      q.output.columns.map (fun c => (c.name, c.type_ref)) =
        q'.output.columns.map fun c => (c.name, c.type_ref)) ∧
    ∀ d, compareRelationalQueriesWithBudget q q' budget = .NotEquivalent d →
      Differs d.kind q.output q'.output := by
  have hleft := normalize_eq q budget
  have hright := normalize_eq q' budget
  unfold compareRelationalQueriesWithBudget
  cases hl : charge (relationVisits 0 q.root) budget.max_steps with
  | error failure =>
    simp only [hl] at hleft
    rw [hleft]
    cases normalizeRelationalQueryWithBudget q' budget <;> simp
  | ok steps =>
    simp only [hl] at hleft
    cases hr : charge (relationVisits 0 q'.root) budget.max_steps with
    | error failure =>
      simp only [hr] at hright
      rw [hleft, hright]
      simp
    | ok steps' =>
      simp only [hr] at hright
      simp only [hleft, hright, compareNormalized]
      have hbuilt := normalForm_built q.built
      have hbuilt' := normalForm_built q'.built
      split
      · next hkey =>
        have hsame := (semanticKey_eq_iff hbuilt hbuilt').mp (congrArg EquivalenceKey.text hkey)
        refine ⟨fun _ => ⟨?_, ?_⟩, by simp⟩
        · rw [← rows_normalForm I q.built, ← rows_normalForm I q'.built]
          exact rows_same I hbuilt hbuilt' hsame
        · unfold RelationalQuery.output
          rw [← normalForm_schema q.root, ← normalForm_schema q'.root]
          exact map_of_forall₂ (sameRelation_shape hsame).columns fun c c' hc => by
            rw [hc.1, hc.2.1]
      · split
        · next difference hdifference =>
          refine ⟨by simp, ?_⟩
          rintro d hd
          obtain rfl := ComparisonOutcome.NotEquivalent.inj hd
          have hdiffers := outputSchemaDifference_differs hdifference
          simp only [normalForm_schema] at hdiffers
          exact hdiffers
        · simp

theorem notEquivalent_of_counts {l r : NormalizedQuery}
    (hkey : l.equivalence_key ≠ r.equivalence_key)
    (hcount : l.root.schema.columns.length ≠ r.root.schema.columns.length) :
    compareNormalized l r = .NotEquivalent (outputColumnCountDifference l r
      l.root.schema.columns.length r.root.schema.columns.length) := by
  simp only [compareNormalized, outputSchemaDifference, if_neg hkey, if_pos hcount]

/-- Two objects in every class, numbered one and two. -/
def twoObjects : Interpretation Nat where
  extent _ := [1, 2]
  read _ _ _ object := object
  member _ object := object
  literal
    | .Boolean true => 1
    | _ => 0
  equal a b := if a = b then 1 else 0
  negate a := 1 - a
  holds a := a = 1
  order a b := compare a b
  holds_true := rfl
  extent_same _ := rfl
  read_same _ _ _ := rfl
  member_same _ := rfl

/-- Two readings of one class have its two rows, and a class read without a
column is another query. -/
theorem verdicts_on_all_of_a :
    (compareRelationalQueriesWithBudget (allOfAQuery 0 3) (allOfAQuery 1 5) ⟨1⟩ = .Equivalent ∧
      rows twoObjects (allOfA 0 3) = rows twoObjects (allOfA 1 5)) ∧
    ∃ d, compareRelationalQueriesWithBudget (allOfAQuery 0 3)
        (scanForQuery classA [propertyOfA]) ⟨1⟩ = .NotEquivalent d ∧
      Differs d.kind (allOfAQuery 0 3).output (scanForQuery classA [propertyOfA]).output := by
  constructor
  · have hequivalent : compareRelationalQueriesWithBudget (allOfAQuery 0 3) (allOfAQuery 1 5) ⟨1⟩ =
        .Equivalent := by
      show compareNormalized ⟨allOfA 0 3, ⟨semanticKey (allOfA 0 3)⟩, _⟩
        ⟨allOfA 1 5, ⟨semanticKey (allOfA 1 5)⟩, _⟩ = _
      have hkey := (semanticKey_eq_iff (allOfAQuery 0 3).built (allOfAQuery 1 5).built).mpr
        (allOfA_same 0 1 3 5)
      exact if_pos (congrArg EquivalenceKey.mk hkey)
    exact ⟨hequivalent, ((verdicts_are_sound twoObjects _ _ _).1 hequivalent).1⟩
  · have hkey : semanticKey (allOfA 0 3) ≠ semanticKey (scanFor classA [propertyOfA]) := by
      intro heq
      have hsame := (semanticKey_eq_iff (allOfAQuery 0 3).built
        (scanForQuery classA [propertyOfA]).built).mp heq
      exact absurd hsame.1.columns.length_eq (by decide)
    obtain ⟨d, hd⟩ : ∃ d, compareRelationalQueriesWithBudget (allOfAQuery 0 3)
        (scanForQuery classA [propertyOfA]) ⟨1⟩ = .NotEquivalent d :=
      ⟨_, notEquivalent_of_counts (fun heq => hkey (congrArg EquivalenceKey.text heq)) (by decide)⟩
    exact ⟨d, hd, (verdicts_are_sound twoObjects _ _ _).2 d hd⟩

end analyzer.denotation
