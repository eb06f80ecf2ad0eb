-- The keys of a normal form say what it is and nothing else. Two trees
-- write the same key exactly when they are one up to the names of their
-- columns, and the key with the evidence compares the evidence too.
import PureAnalyzer.Positions

namespace analyzer.normalizer

open fragments sortedsets model resolve relational sametree

/-! ## Fragments that tell their values apart -/

/-- A number is no text with a byte that is not a digit. -/
theorem decimal_ne {n : Nat} {t : Text} {b : UInt8} (hb : b ∈ t) (hdigit : ¬ (48 ≤ b ∧ b < 58)) :
    decimal n ≠ t := by
  intro h
  rw [← h] at hb
  exact hdigit (digit_of_mem_decimal hb)

namespace KeyEncoder

/-- Two ranges are written alike only when they are one range. -/
theorem range_aligned (r s : TextRange) : Aligned (range r) (range s) (r = s) := by
  refine (Aligned.cons fun _ => Aligned.single).congr ?_
  rw [decimal_inj, decimal_inj]
  constructor
  · rintro ⟨hstart, hstop⟩
    exact TextRange.ext_ends hstart hstop
  · rintro rfl
    exact ⟨rfl, rfl⟩

theorem anchor_aligned (a b : DefinitionAnchor) : Aligned (anchor a) (anchor b) (a = b) := by
  obtain ⟨source, span⟩ := a
  obtain ⟨source', span'⟩ := b
  rw [DefinitionAnchor.mk.injEq]
  cases span with
  | none =>
    cases span' with
    | none =>
      refine (Aligned.tag (.cons fun _ => .single)).congr ?_
      simp [decimal_inj]
    | some r =>
      refine (Aligned.tag (.cons fun _ => .ne ?_)).congr (by simp)
      exact (decimal_ne (b := 110) (by decide) (by decide)).symm
  | some r =>
    cases span' with
    | none =>
      refine (Aligned.tag (.cons fun _ => .ne ?_)).congr (by simp)
      exact decimal_ne (b := 110) (by decide) (by decide)
    | some r' =>
      refine (Aligned.tag (.cons fun _ => range_aligned r r')).congr ?_
      simp [decimal_inj]

/-- Two provenances are written alike only when they are one. -/
theorem provenance_aligned (p q : Provenance) :
    Aligned (provenance p) (provenance q) (p = q) := by
  refine Aligned.single.congr ?_
  cases p <;> cases q <;> decide

mutual

/-- Types are written with the number of their arguments, so that nested ones do not run
into each other. -/
theorem typeRef_aligned : (t u : TypeRef) → Aligned (typeRef t) (typeRef u) (t = u)
  | .new p ts, .new q us => by
    refine (Aligned.tag (.cons fun _ => .cons fun hlen =>
      typeRefs_aligned ts us (decimal_inj.mp hlen))).congr ?_
    rw [TypeRef.new.injEq]
    constructor
    · rintro ⟨hp, -, rfl⟩
      exact ⟨QName.ext_text hp, rfl⟩
    · rintro ⟨rfl, rfl⟩
      exact ⟨rfl, rfl, rfl⟩

theorem typeRefs_aligned : (ts us : List TypeRef) → ts.length = us.length →
    Aligned (typeRefs ts) (typeRefs us) (ts = us)
  | [], [], _ => Aligned.nil.congr (by simp)
  | [], _ :: _, hlen => nomatch hlen
  | _ :: _, [], hlen => nomatch hlen
  | t :: ts, u :: us, hlen =>
    ((typeRef_aligned t u).append fun _ => typeRefs_aligned ts us (Nat.succ.inj hlen)).congr
      (by rw [List.cons.injEq])

end

/-- Bounds are written apart from each other, and an unbounded one by its own word. -/
theorem multiplicity_aligned (m n : Multiplicity) :
    Aligned (multiplicity m) (multiplicity n) (m = n) := by
  refine (Aligned.tag (.cons fun _ => .single)).congr ?_
  have hword : ∀ k, decimal k ≠ ascii "unbounded" := fun k =>
    decimal_ne (b := 117) (by decide) (by decide)
  obtain ⟨lower, upper, ordered⟩ := m
  obtain ⟨lower', upper', ordered'⟩ := n
  rw [Multiplicity.mk.injEq, decimal_inj]
  cases upper with
  | none =>
    cases upper' with
    | none => simp
    | some k => simp [(hword k).symm]
  | some j =>
    cases upper' with
    | none => simp [hword j]
    | some k => simp [decimal_inj]

theorem nullability_aligned (m n : Nullability) :
    Aligned (nullability m) (nullability n) (m = n) := by
  have hword : nullability m = nullability n ↔ m = n := by
    cases m <;> cases n <;> decide
  have hsingle : ∀ k, ∃ t, nullability k = [t] := by
    intro k
    cases k <;> exact ⟨_, rfl⟩
  obtain ⟨t, ht⟩ := hsingle m
  obtain ⟨u, hu⟩ := hsingle n
  rw [ht, hu, List.singleton_inj] at hword
  rw [ht, hu]
  exact Aligned.single.congr hword

theorem memberKind_aligned (k l : ResolvedMemberKind) :
    Aligned (memberKind k) (memberKind l) (k = l) := by
  cases k with
  | Qualified kind =>
    cases l with
    | Qualified kind' =>
      refine (Aligned.tag .single).congr ?_
      rw [ResolvedMemberKind.Qualified.injEq]
      cases kind <;> cases kind' <;> decide
    | Property => exact (Aligned.ne (by decide)).congr (by simp)
    | AssociationEnd association => exact (Aligned.ne (by decide)).congr (by simp)
  | Property =>
    cases l with
    | Qualified kind' => exact (Aligned.ne (by decide)).congr (by simp)
    | Property => exact Aligned.single.congr (by simp)
    | AssociationEnd association => exact (Aligned.ne (by decide)).congr (by simp)
  | AssociationEnd association =>
    cases l with
    | Qualified kind' => exact (Aligned.ne (by decide)).congr (by simp)
    | Property => exact (Aligned.ne (by decide)).congr (by simp)
    | AssociationEnd association' =>
      refine (Aligned.tag .single).congr ?_
      rw [ResolvedMemberKind.AssociationEnd.injEq]
      exact ⟨QName.ext_text, fun h => by rw [h]⟩

theorem signature_aligned (s t : Option (List TypeRef)) :
    Aligned (signature s) (signature t) (s = t) := by
  cases s with
  | none =>
    cases t with
    | none => exact Aligned.single.congr (by simp)
    | some us => exact (Aligned.ne (by decide)).congr (by simp)
  | some ts =>
    cases t with
    | none => exact (Aligned.ne (by decide)).congr (by simp)
    | some us =>
      refine (Aligned.tag (.cons fun hlen =>
        typeRefs_aligned ts us (decimal_inj.mp hlen))).congr ?_
      rw [Option.some.injEq]
      constructor
      · rintro ⟨-, rfl⟩
        rfl
      · rintro rfl
        exact ⟨rfl, rfl⟩

/-- Literals are written alike only when they are one literal. -/
theorem literal_aligned (l m : ScalarLiteral) : Aligned (literal l) (literal m) (l = m) := by
  cases l with
  | Boolean value =>
    cases m with
    | Boolean value' =>
      refine (Aligned.tag .single).congr ?_
      cases value <;> cases value' <;> decide
    | Integer value' => exact (Aligned.ne (by decide)).congr (by simp)
    | String value' => exact (Aligned.ne (by decide)).congr (by simp)
    | Null => exact (Aligned.ne (by decide)).congr (by simp)
  | Integer value =>
    cases m with
    | Boolean value' => exact (Aligned.ne (by decide)).congr (by simp)
    | Integer value' => exact (Aligned.tag .single).congr (by simp [signed_inj])
    | String value' => exact (Aligned.ne (by decide)).congr (by simp)
    | Null => exact (Aligned.ne (by decide)).congr (by simp)
  | String value =>
    cases m with
    | Boolean value' => exact (Aligned.ne (by decide)).congr (by simp)
    | Integer value' => exact (Aligned.ne (by decide)).congr (by simp)
    | String value' => exact (Aligned.tag .single).congr (by simp)
    | Null => exact (Aligned.ne (by decide)).congr (by simp)
  | Null =>
    cases m with
    | Boolean value' => exact (Aligned.ne (by decide)).congr (by simp)
    | Integer value' => exact (Aligned.ne (by decide)).congr (by simp)
    | String value' => exact (Aligned.ne (by decide)).congr (by simp)
    | Null => exact Aligned.single.congr (by simp)

/-! ## Columns and keys -/

section columns

variable {s s' : ColumnScope}

/-- A column is written as its place. -/
theorem columnId_aligned {c c' : ColumnId} (hc : c ∈ s.ids) (hc' : c' ∈ s'.ids) :
    Aligned (columnId s c) (columnId s' c') (SameColumn s s' c c') := by
  obtain ⟨p, hp⟩ := Option.isSome_iff_exists.mp (ColumnScope.isSome_position.mpr hc)
  obtain ⟨p', hp'⟩ := Option.isSome_iff_exists.mp (ColumnScope.isSome_position.mpr hc')
  unfold columnId SameColumn
  rw [hp, hp']
  refine (Aligned.tag .single).congr ?_
  rw [decimal_inj]
  constructor
  · rintro rfl
    exact ⟨p, rfl, rfl⟩
  · rintro ⟨q, hq, hq'⟩
    exact (Option.some.inj hq).trans (Option.some.inj hq').symm

/-- The places of two keys are the same when their columns stand at the same places. -/
theorem keyPositions_eq_iff {key key' : CandidateKey} (hk : ∀ c ∈ key.columns, c ∈ s.ids)
    (hk' : ∀ c ∈ key'.columns, c ∈ s'.ids) :
    keyPositions s key = keyPositions s' key' ↔ SameKey s s' key key' := by
  have hnodup : ∀ (t : ColumnScope) (k : CandidateKey),
      (k.columns.filterMap t.position).Nodup := by
    intro t k
    refine List.Pairwise.filterMap _ ?_ (k.sorted.imp ne_of_lt)
    intro c d hne p hp q hq hpq
    subst hpq
    exact hne (ColumnScope.position_inj hp hq)
  unfold keyPositions
  rw [sort_eq_iff (hnodup s key) (hnodup s' key')]
  simp only [List.mem_filterMap]
  constructor
  · intro h
    constructor
    · intro c hc
      obtain ⟨p, hp⟩ := Option.isSome_iff_exists.mp (ColumnScope.isSome_position.mpr (hk c hc))
      obtain ⟨c', hc', hp'⟩ := (h p).mp ⟨c, hc, hp⟩
      exact ⟨c', hc', p, hp, hp'⟩
    · intro c' hc'
      obtain ⟨p, hp'⟩ :=
        Option.isSome_iff_exists.mp (ColumnScope.isSome_position.mpr (hk' c' hc'))
      obtain ⟨c, hc, hp⟩ := (h p).mpr ⟨c', hc', hp'⟩
      exact ⟨c, hc, p, hp, hp'⟩
  · rintro ⟨h, h'⟩ p
    constructor
    · rintro ⟨c, hc, hp⟩
      obtain ⟨c', hc', q, hq, hq'⟩ := h c hc
      exact ⟨c', hc', hq'.trans (hq.symm.trans hp)⟩
    · rintro ⟨c', hc', hp'⟩
      obtain ⟨c, hc, q, hq, hq'⟩ := h' c' hc'
      exact ⟨c, hc, hq.trans (hq'.symm.trans hp')⟩

/-- Lists of keys are compared as sets of places, in whatever order they come. -/
theorem sameKeys_iff {ks ks' : List CandidateKey} (hk : ∀ k ∈ ks, ∀ c ∈ k.columns, c ∈ s.ids)
    (hk' : ∀ k ∈ ks', ∀ c ∈ k.columns, c ∈ s'.ids) :
    sortDedup (ks.map (keyPositions s)) = sortDedup (ks'.map (keyPositions s')) ↔
      SameKeys s s' ks ks' := by
  rw [sortDedup_eq_iff]
  simp only [List.mem_map]
  constructor
  · intro h
    constructor
    · intro k hmem
      obtain ⟨k', hmem', heq⟩ := (h _).mp ⟨k, hmem, rfl⟩
      exact ⟨k', hmem', (keyPositions_eq_iff (hk k hmem) (hk' k' hmem')).mp heq.symm⟩
    · intro k' hmem'
      obtain ⟨k, hmem, heq⟩ := (h _).mpr ⟨k', hmem', rfl⟩
      exact ⟨k, hmem, (keyPositions_eq_iff (hk k hmem) (hk' k' hmem')).mp heq⟩
  · rintro ⟨h, h'⟩ positions
    constructor
    · rintro ⟨k, hmem, rfl⟩
      obtain ⟨k', hmem', hsame⟩ := h k hmem
      exact ⟨k', hmem', ((keyPositions_eq_iff (hk k hmem) (hk' k' hmem')).mpr hsame).symm⟩
    · rintro ⟨k', hmem', rfl⟩
      obtain ⟨k, hmem, hsame⟩ := h' k' hmem'
      exact ⟨k, hmem, (keyPositions_eq_iff (hk k hmem) (hk' k' hmem')).mpr hsame⟩

/-- Lists of numbers, each behind its length. -/
theorem positions_aligned (ps qs : List (List Nat)) :
    Aligned (decimal ps.length :: ps.flatMap fun key => decimal key.length :: key.map decimal)
      (decimal qs.length :: qs.flatMap fun key => decimal key.length :: key.map decimal)
      (ps = qs) := by
  have hnumber : ∀ m n : Nat, Aligned [decimal m] [decimal n] (m = n) := fun m n =>
    Aligned.single.congr decimal_inj
  have hkey : ∀ key key' : List Nat,
      Aligned (decimal key.length :: key.map decimal) (decimal key'.length :: key'.map decimal)
        (key = key') := by
    intro key key'
    have hcounted := Aligned.counted (f := fun n => [decimal n]) (g := fun n => [decimal n])
      key key' fun m _ n _ => hnumber m n
    rw [List.forall₂_eq_eq_eq] at hcounted
    rwa [← List.map_eq_flatMap, ← List.map_eq_flatMap] at hcounted
  have hcounted := Aligned.counted ps qs fun key _ key' _ => hkey key key'
  rwa [List.forall₂_eq_eq_eq] at hcounted

end columns

/-! ## Whole trees -/

section trees

/-- The evidence of two trees is told apart by what is written of it. -/
structure Tells (E : Evidence) (P : IrOrigin → Prop) : Prop where
  origin : ∀ R ∈ E, ∀ o o', P o → P o' → Aligned (origin o) (origin o') (R o o')

variable {E : Evidence} {P : IrOrigin → Prop} (hE : Tells E P)
variable {s s' : ColumnScope}

include hE

/-- Where evidence is written, two origins are written alike when they are the same
evidence. -/
theorem evidence_aligned {o o' : IrOrigin} (ho : P o) (ho' : P o') :
    Aligned (evidence E.isSome o) (evidence E.isSome o') (SameEvidence E o o') := by
  unfold evidence SameEvidence
  cases E with
  | none => exact Aligned.nil.congr (by simp)
  | some R => exact (hE.origin R rfl o o' ho ho').congr (by simp)

omit hE in
theorem place_aligned (p p' : Provenance) (a a' : DefinitionAnchor) :
    Aligned (if E.isSome then provenance p ++ anchor a else [])
      (if E.isSome then provenance p' ++ anchor a' else []) (SamePlace E p p' a a') := by
  unfold SamePlace
  cases E with
  | none => exact Aligned.nil.congr (by simp)
  | some R =>
    refine ((provenance_aligned p p').append fun _ => anchor_aligned a a').congr ?_
    simp

theorem totality_aligned (k k' : Knowledge Totality) (hk : ∀ o ∈ Knowledge.origins k, P o)
    (hk' : ∀ o ∈ Knowledge.origins k', P o) :
    Aligned (totality E.isSome k) (totality E.isSome k') (SameKnowledge E (· = ·) k k') := by
  cases k with
  | Unknown =>
    cases k' with
    | Unknown => exact (Aligned.tag .single).congr (by simp [SameKnowledge])
    | Proven v o => exact (Aligned.tag (.ne (by decide))).congr (by simp [SameKnowledge])
  | Proven v o =>
    cases k' with
    | Unknown => exact (Aligned.tag (.ne (by decide))).congr (by simp [SameKnowledge])
    | Proven v' o' =>
      have hevidence := evidence_aligned hE (hk o (by simp [Knowledge.origins]))
        (hk' o' (by simp [Knowledge.origins]))
      refine (Aligned.tag (.tag (.cons fun _ => hevidence))).congr (and_congr_left' ?_)
      cases v <;> cases v' <;> decide

theorem rowSemantics_aligned (k k' : Knowledge RowSemantics)
    (hk : ∀ o ∈ Knowledge.origins k, P o) (hk' : ∀ o ∈ Knowledge.origins k', P o) :
    Aligned (rowSemantics E.isSome k) (rowSemantics E.isSome k')
      (SameKnowledge E (· = ·) k k') := by
  cases k with
  | Unknown =>
    cases k' with
    | Unknown => exact (Aligned.tag .single).congr (by simp [SameKnowledge])
    | Proven v o => exact (Aligned.tag (.ne (by decide))).congr (by simp [SameKnowledge])
  | Proven v o =>
    cases k' with
    | Unknown => exact (Aligned.tag (.ne (by decide))).congr (by simp [SameKnowledge])
    | Proven v' o' =>
      have hevidence := evidence_aligned hE (hk o (by simp [Knowledge.origins]))
        (hk' o' (by simp [Knowledge.origins]))
      refine (Aligned.tag (.tag (.cons fun _ => hevidence))).congr (and_congr_left' ?_)
      cases v <;> cases v' <;> decide

/-- What is known of the keys is written by the places of their columns, so all of them
stand in the scope. -/
theorem keys_aligned {k k' : Knowledge (List CandidateKey)}
    (hk : ∀ o ∈ Knowledge.origins k, P o) (hk' : ∀ o ∈ Knowledge.origins k', P o)
    (hknown : ∀ keys origin, k = .Proven keys origin → ∀ key ∈ keys, ∀ c ∈ key.columns,
      c ∈ s.ids)
    (hknown' : ∀ keys origin, k' = .Proven keys origin → ∀ key ∈ keys, ∀ c ∈ key.columns,
      c ∈ s'.ids) :
    Aligned (keys E.isSome k s) (keys E.isSome k' s') (SameKnowledge E (SameKeys s s') k k') := by
  cases k with
  | Unknown =>
    cases k' with
    | Unknown => exact (Aligned.tag .single).congr (by simp [SameKnowledge])
    | Proven v o => exact (Aligned.tag (.ne (by decide))).congr (by simp [SameKnowledge])
  | Proven v o =>
    cases k' with
    | Unknown => exact (Aligned.tag (.ne (by decide))).congr (by simp [SameKnowledge])
    | Proven v' o' =>
      have hevidence := evidence_aligned hE (hk o (by simp [Knowledge.origins]))
        (hk' o' (by simp [Knowledge.origins]))
      refine ((Aligned.tag (.tag (positions_aligned _ _))).append fun _ => hevidence).congr ?_
      exact and_congr_left' (sameKeys_iff (hknown v o rfl) (hknown' v' o' rfl))

/-- A column is written by its place in the scope, not by its id. -/
theorem column_aligned {c c' : Column} (hc : P c.origin) (hc' : P c'.origin) (hid : c.id ∈ s.ids)
    (hid' : c'.id ∈ s'.ids) :
    Aligned (column E.isSome c s) (column E.isSome c' s')
      (SameColumn s s' c.id c'.id ∧ SameHeader E c c') := by
  have htag : Aligned [ascii "column"] [ascii "column"] True := Aligned.tag .nil
  refine ((((((htag.append fun _ => columnId_aligned hid hid').append fun _ =>
    Aligned.single).append fun _ => typeRef_aligned _ _).append fun _ =>
    multiplicity_aligned _ _).append fun _ => nullability_aligned _ _).append fun _ =>
    evidence_aligned hE hc hc').congr ?_
  unfold SameHeader
  constructor
  · rintro ⟨⟨⟨⟨⟨⟨-, hcol⟩, hname⟩, ht⟩, hm⟩, hn⟩, he⟩
    exact ⟨hcol, Name.ext_text hname, ht, hm, hn, he⟩
  · rintro ⟨hcol, hname, ht, hm, hn, he⟩
    exact ⟨⟨⟨⟨⟨⟨trivial, hcol⟩, by rw [hname]⟩, ht⟩, hm⟩, hn⟩, he⟩

omit hE in
/-- Two schemas of one length have their columns in the same places. -/
theorem sameColumns_iff {t t' : RelationSchema} :
    List.Forall₂ (fun c c' =>
        SameColumn (.fromSchema t) (.fromSchema t') c.id c'.id ∧ SameHeader E c c')
      t.columns t'.columns ↔ List.Forall₂ (SameHeader E) t.columns t'.columns := by
  rw [List.forall₂_iff_get, List.forall₂_iff_get]
  constructor
  · rintro ⟨hlen, h⟩
    exact ⟨hlen, fun i hi hi' => (h i hi hi').2⟩
  · rintro ⟨hlen, h⟩
    refine ⟨hlen, fun i hi hi' => ⟨⟨i, ?_, ?_⟩, h i hi hi'⟩⟩
    · exact ColumnScope.position_column (by simp [List.getElem?_eq_getElem hi])
    · exact ColumnScope.position_column (by simp [List.getElem?_eq_getElem hi'])

/-- Schemas are written alike when their headers agree, column by column. -/
theorem schema_aligned (t t' : RelationSchema) (ht : ∀ c ∈ t.columns, P c.origin)
    (ht' : ∀ c ∈ t'.columns, P c.origin) :
    Aligned (schema E.isSome t (.fromSchema t)) (schema E.isSome t' (.fromSchema t'))
      (List.Forall₂ (SameHeader E) t.columns t'.columns) := by
  refine (Aligned.tag (Aligned.counted _ _ fun c hc c' hc' => ?_)).congr sameColumns_iff
  exact column_aligned hE (ht c hc) (ht' c' hc') (List.mem_map_of_mem hc) (List.mem_map_of_mem hc')

/-- Shapes are written alike when all that is known of them agrees. -/
theorem shape_aligned {h h' : RelationShape} (ho : ∀ o ∈ RelationShape.origins h, P o)
    (ho' : ∀ o ∈ RelationShape.origins h', P o) (hknown : KeysKnown h)
    (hknown' : KeysKnown h') :
    Aligned (shape E.isSome h) (shape E.isSome h') (SameShape E h h') := by
  have hschema := schema_aligned hE h.schema h'.schema
    (fun c hc => ho _ (by simp [RelationShape.origins]; exact .inr (.inl ⟨c, hc, rfl⟩)))
    (fun c hc => ho' _ (by simp [RelationShape.origins]; exact .inr (.inl ⟨c, hc, rfl⟩)))
  have hkeys := keys_aligned hE
    (fun o hmem => ho o (by simp [RelationShape.origins, hmem]))
    (fun o hmem => ho' o (by simp [RelationShape.origins, hmem])) hknown hknown'
  have hrows := rowSemantics_aligned hE h.facts.row_semantics h'.facts.row_semantics
    (fun o hmem => ho o (by simp [RelationShape.origins, hmem]))
    (fun o hmem => ho' o (by simp [RelationShape.origins, hmem]))
  have horigin := evidence_aligned hE (ho h.origin (by simp [RelationShape.origins]))
    (ho' h'.origin (by simp [RelationShape.origins]))
  have htag : ∀ t : Text, Aligned [t] [t] True := fun t => Aligned.tag .nil
  refine ((((htag _).append fun _ => hschema).append fun _ =>
    ((htag _).append fun _ => hkeys).append fun _ => hrows).append fun _ => horigin).congr ?_
  constructor
  · rintro ⟨⟨⟨-, hcolumns⟩, ⟨-, hkeys⟩, hrows⟩, horigin⟩
    exact ⟨hcolumns, hkeys, hrows, horigin⟩
  · rintro ⟨hcolumns, hkeys, hrows, horigin⟩
    exact ⟨⟨⟨trivial, hcolumns⟩, ⟨trivial, hkeys⟩, hrows⟩, horigin⟩

/-- The words for a temporality, a direction and a kind of projection. -/
def temporalName : Option Temporal → Text
  | none => ascii "non-temporal"
  | some .Bitemporal => ascii "bitemporal"
  | some .BusinessTemporal => ascii "business-temporal"
  | some .ProcessingTemporal => ascii "processing-temporal"

def directionName : SortDirection → Text
  | .Ascending => ascii "ascending"
  | .Descending => ascii "descending"

def projectionName : ProjectionKind → Text
  | .Scalar => ascii "scalar"
  | .Relation => ascii "relation"

omit hE in
theorem temporalName_inj {t t' : Option Temporal} : temporalName t = temporalName t' ↔ t = t' := by
  revert t t'
  rintro (_ | _ | _ | _) (_ | _ | _ | _) <;> decide

omit hE in
theorem directionName_inj {d d' : SortDirection} : directionName d = directionName d' ↔ d = d' := by
  cases d <;> cases d' <;> decide

omit hE in
theorem projectionName_inj {k k' : ProjectionKind} :
    projectionName k = projectionName k' ↔ k = k' := by
  cases k <;> cases k' <;> decide

omit hE in
/-- Classes are written by their paths and temporal kinds, and with evidence by their places. -/
theorem cls_aligned (c c' : ResolvedClass) :
    Aligned (cls E.isSome c) (cls E.isSome c') (SameClass E c c') := by
  refine (Aligned.tag (.cons fun _ => .cons fun _ => place_aligned (E := E)
    c.provenance c'.provenance c.definition c'.definition)).congr ?_
  constructor
  · rintro ⟨hpath, ht, hplace⟩
    exact ⟨QName.ext_text hpath, temporalName_inj.mp ht, hplace⟩
  · rintro ⟨hpath, ht, hplace⟩
    exact ⟨by rw [hpath], temporalName_inj.mpr ht, hplace⟩

omit hE in
theorem source_aligned (t t' : RelationSource) :
    Aligned (source E.isSome t) (source E.isSome t') (SameSource E t t') := by
  cases t
  cases t'
  exact Aligned.tag (cls_aligned _ _)

omit hE in
theorem arity_aligned (a b : Option Nat) :
    Aligned [match a with | some arity => decimal arity | none => ascii "no-target-temporal-arity"]
      [match b with | some arity => decimal arity | none => ascii "no-target-temporal-arity"]
      (a = b) := by
  refine Aligned.single.congr ?_
  have hword : ∀ k, decimal k ≠ ascii "no-target-temporal-arity" := fun k =>
    decimal_ne (b := 110) (by decide) (by decide)
  cases a with
  | none =>
    cases b with
    | none => simp
    | some k => simp [(hword k).symm]
  | some j =>
    cases b with
    | none => simp [hword j]
    | some k => simp [decimal_inj]

omit hE in
/-- Members are written by what they are resolved to, and with evidence by their places too. -/
theorem member_aligned (m m' : ResolvedMember) :
    Aligned (member E.isSome m) (member E.isSome m') (SameMember E m m') := by
  have htag : Aligned [ascii "resolved-member"] [ascii "resolved-member"] True := Aligned.tag .nil
  refine ((((((((htag.append fun _ => cls_aligned (E := E) m.owner m'.owner).append fun _ =>
    Aligned.single).append fun _ => typeRef_aligned m.target m'.target).append fun _ =>
    multiplicity_aligned _ _).append fun _ => memberKind_aligned m.kind m'.kind).append fun _ =>
    signature_aligned _ _).append fun _ => arity_aligned _ _).append fun _ =>
    place_aligned (E := E) m.provenance m'.provenance m.definition m'.definition).congr ?_
  constructor
  · rintro ⟨⟨⟨⟨⟨⟨⟨⟨-, howner⟩, hname⟩, htarget⟩, hm⟩, hkind⟩, hsig⟩, harity⟩, hplace⟩
    exact ⟨howner, Name.ext_text hname, htarget, hm, hkind, hsig, harity, hplace⟩
  · rintro ⟨howner, hname, htarget, hm, hkind, hsig, harity, hplace⟩
    exact ⟨⟨⟨⟨⟨⟨⟨⟨trivial, howner⟩, by rw [hname]⟩, htarget⟩, hm⟩, hkind⟩, hsig⟩, harity⟩, hplace⟩

/-- The facts of expressions are written alike when all that is known of them agrees. -/
theorem scalarFacts_aligned {f f' : ScalarFacts} (ho : ∀ o ∈ ScalarFacts.origins f, P o)
    (ho' : ∀ o ∈ ScalarFacts.origins f', P o) :
    Aligned (scalarFacts E.isSome f) (scalarFacts E.isSome f') (SameScalarFacts E f f') := by
  have htotality := totality_aligned hE f.totality f'.totality
    (fun o hmem => ho o (by simp [ScalarFacts.origins, hmem]))
    (fun o hmem => ho' o (by simp [ScalarFacts.origins, hmem]))
  have horigin := evidence_aligned hE (ho f.origin (by simp [ScalarFacts.origins]))
    (ho' f'.origin (by simp [ScalarFacts.origins]))
  have htag : Aligned [ascii "scalar"] [ascii "scalar"] True := Aligned.tag .nil
  refine (((((htag.append fun _ => typeRef_aligned f.type_ref f'.type_ref).append fun _ =>
    multiplicity_aligned _ _).append fun _ => nullability_aligned _ _).append fun _ =>
    htotality).append fun _ => horigin).congr ?_
  constructor
  · rintro ⟨⟨⟨⟨⟨-, ht⟩, hm⟩, hn⟩, htot⟩, ho⟩
    exact ⟨ht, hm, hn, htot, ho⟩
  · rintro ⟨ht, hm, hn, htot, ho⟩
    exact ⟨⟨⟨⟨⟨trivial, ht⟩, hm⟩, hn⟩, htot⟩, ho⟩

/-! The name of a scalar operator, and what is written behind it. -/

def literalName : ScalarLiteral → Text
  | .Boolean _ => ascii "boolean"
  | .Integer _ => ascii "integer"
  | .String _ => ascii "string"
  | .Null => ascii "null"

def scalarName : ScalarExpression → Text
  | .Column _ _ => ascii "column"
  | .Literal l _ => literalName l
  | .Navigation _ _ _ => ascii "navigation"
  | .Equal _ _ _ => ascii "equal"
  | .Not _ _ => ascii "not"

omit hE in
/-- An expression is written with its facts first and the name of its kind behind them. -/
theorem scalar_named (b : Bool) (t : ColumnScope) (e : ScalarExpression) :
    ∃ rest, scalar b t e = scalarFacts b e.facts ++ scalarName e :: rest := by
  cases e with
  | Column id facts => exact ⟨columnId t id, by simp [scalar, scalarName, ScalarExpression.facts]⟩
  | Literal l facts => cases l <;> exact ⟨_, rfl⟩
  | Navigation input navigation facts =>
    exact ⟨scalar b t input ++ member b navigation.member,
      by simp [scalar, scalarName, ScalarExpression.facts]⟩
  | Equal left right facts =>
    exact ⟨scalar b t left ++ scalar b t right,
      by simp [scalar, scalarName, ScalarExpression.facts]⟩
  | Not input facts =>
    exact ⟨scalar b t input, by simp [scalar, scalarName, ScalarExpression.facts]⟩

omit hE in
/-- No literal is named as another operator is. -/
theorem literalName_ne {name : Text} (l : ScalarLiteral)
    (hname : name ∈ [ascii "column", ascii "navigation", ascii "equal", ascii "not"]) :
    literalName l ≠ name := by
  rintro rfl
  revert hname
  cases l <;> simp only [literalName] <;> decide

omit hE in
theorem mem_facts_origins {e : ScalarExpression} {o : IrOrigin}
    (h : o ∈ ScalarFacts.origins e.facts) : o ∈ ScalarExpression.origins e := by
  cases e <;> simp_all [ScalarExpression.origins, ScalarExpression.facts]

theorem facts_aligned {e e' : ScalarExpression} (ho : ∀ o ∈ ScalarExpression.origins e, P o)
    (ho' : ∀ o ∈ ScalarExpression.origins e', P o) :
    Aligned (scalarFacts E.isSome e.facts) (scalarFacts E.isSome e'.facts)
      (SameScalarFacts E e.facts e'.facts) :=
  scalarFacts_aligned hE (fun o hmem => ho o (mem_facts_origins hmem))
    (fun o hmem => ho' o (mem_facts_origins hmem))

/-- Expressions of different kinds are never written alike. -/
theorem scalar_apart {e e' : ScalarExpression} (ho : ∀ o ∈ ScalarExpression.origins e, P o)
    (ho' : ∀ o ∈ ScalarExpression.origins e', P o) (hname : scalarName e ≠ scalarName e') :
    Aligned (scalar E.isSome s e) (scalar E.isSome s' e') False := by
  obtain ⟨rest, hrest⟩ := scalar_named E.isSome s e
  obtain ⟨rest', hrest'⟩ := scalar_named E.isSome s' e'
  rw [hrest, hrest']
  exact ((facts_aligned hE ho ho').append fun _ => .ne hname).congr (by simp)

omit hE in
theorem sameScalar_facts {e e' : ScalarExpression} (h : SameScalar E s s' e e') :
    SameScalarFacts E e.facts e'.facts := by
  cases e <;> cases e' <;> first | exact h.1 | exact h.elim

omit hE in
/-- Navigations from inputs of one class have receivers of one class. -/
theorem sameReceiver {f f' : ScalarFacts} {r r' : LocalValue} (hf : SameScalarFacts E f f')
    (hmultiplicity : f.multiplicity = r.multiplicity)
    (hmultiplicity' : f'.multiplicity = r'.multiplicity)
    (hclass : ∃ c, r.kind = .Class c ∧ f.type_ref = .new c.path [])
    (hclass' : ∃ c, r'.kind = .Class c ∧ f'.type_ref = .new c.path []) : SameReceiver r r' := by
  obtain ⟨c, hc, ht⟩ := hclass
  obtain ⟨c', hc', ht'⟩ := hclass'
  refine ⟨?_, c, c', hc, hc', ?_⟩
  · rw [← hmultiplicity, ← hmultiplicity', hf.multiplicity]
  · have htypes := hf.type_ref
    rw [ht, ht'] at htypes
    exact (TypeRef.new.inj htypes).1

theorem scalar_aligned {e e' : ScalarExpression} (hk : Known s e) (hk' : Known s' e')
    (ho : ∀ o ∈ ScalarExpression.origins e, P o)
    (ho' : ∀ o ∈ ScalarExpression.origins e', P o) :
    Aligned (scalar E.isSome s e) (scalar E.isSome s' e') (SameScalar E s s' e e') := by
  have htag : ∀ t : Text, Aligned [t] [t] True := fun t => Aligned.tag .nil
  induction e generalizing e' with
  | Column id facts =>
    cases e' with
    | Column id' facts' =>
      refine (((facts_aligned hE ho ho').append fun _ => htag _).append fun _ => columnId_aligned hk hk').congr ?_
      exact and_congr_left' (and_iff_left trivial)
    | Literal l facts' =>
      exact scalar_apart hE ho ho' (literalName_ne l (by simp [scalarName])).symm
    | _ => exact scalar_apart hE ho ho' (by simp only [scalarName]; decide)
  | Literal l facts =>
    cases e' with
    | Literal l' facts' => exact (facts_aligned hE ho ho').append fun _ => literal_aligned l l'
    | _ => exact scalar_apart hE ho ho' (literalName_ne l (by simp [scalarName]))
  | Navigation input navigation facts ih =>
    cases e' with
    | Navigation input' navigation' facts' =>
      obtain ⟨hinput, hm, hclass⟩ := hk
      obtain ⟨hinput', hm', hclass'⟩ := hk'
      have hinner := ih hinput hinput'
        (fun o hmem => ho o (by simp [ScalarExpression.origins, hmem]))
        (fun o hmem => ho' o (by simp [ScalarExpression.origins, hmem]))
      refine ((((facts_aligned hE ho ho').append fun _ => htag _).append fun _ => hinner).append fun _ =>
        member_aligned (E := E) navigation.member navigation'.member).congr ?_
      constructor
      · rintro ⟨⟨⟨hf, -⟩, hin⟩, hmember⟩
        exact ⟨hf, hin, sameReceiver (sameScalar_facts hin) hm hm' hclass hclass', hmember⟩
      · rintro ⟨hf, hin, -, hmember⟩
        exact ⟨⟨⟨hf, trivial⟩, hin⟩, hmember⟩
    | Literal l facts' => exact scalar_apart hE ho ho' (literalName_ne l (by simp [scalarName])).symm
    | _ => exact scalar_apart hE ho ho' (by simp only [scalarName]; decide)
  | Equal left right facts ihl ihr =>
    cases e' with
    | Equal left' right' facts' =>
      have hleft := ihl hk.1 hk'.1
        (fun o hmem => ho o (by simp [ScalarExpression.origins, hmem]))
        (fun o hmem => ho' o (by simp [ScalarExpression.origins, hmem]))
      have hright := ihr hk.2 hk'.2
        (fun o hmem => ho o (by simp [ScalarExpression.origins, hmem]))
        (fun o hmem => ho' o (by simp [ScalarExpression.origins, hmem]))
      refine ((((facts_aligned hE ho ho').append fun _ => htag _).append fun _ => hleft).append fun _ =>
        hright).congr ?_
      constructor
      · rintro ⟨⟨⟨hf, -⟩, hl⟩, hr⟩
        exact ⟨hf, hl, hr⟩
      · rintro ⟨hf, hl, hr⟩
        exact ⟨⟨⟨hf, trivial⟩, hl⟩, hr⟩
    | Literal l facts' => exact scalar_apart hE ho ho' (literalName_ne l (by simp [scalarName])).symm
    | _ => exact scalar_apart hE ho ho' (by simp only [scalarName]; decide)
  | Not input facts ih =>
    cases e' with
    | Not input' facts' =>
      have hinput' : Known s' input' := hk'
      have hinner := ih hk hinput'
        (fun o hmem => ho o (by simp [ScalarExpression.origins, hmem]))
        (fun o hmem => ho' o (by simp [ScalarExpression.origins, hmem]))
      refine (((facts_aligned hE ho ho').append fun _ => htag _).append fun _ => hinner).congr ?_
      exact and_congr_left' (and_iff_left trivial)
    | Literal l facts' => exact scalar_apart hE ho ho' (literalName_ne l (by simp [scalarName])).symm
    | _ => exact scalar_apart hE ho ho' (by simp only [scalarName]; decide)

/-- A key of a sort is written by its place and its direction. -/
theorem sortKey_aligned {k k' : SortKey} (hk : k.column ∈ s.ids) (hk' : k'.column ∈ s'.ids)
    (ho : P k.origin) (ho' : P k'.origin) :
    Aligned (sortKey E.isSome k s) (sortKey E.isSome k' s') (SameSortKey E s s' k k') := by
  have htag : Aligned [ascii "sort-key"] [ascii "sort-key"] True := Aligned.tag .nil
  refine (((htag.append fun _ => columnId_aligned hk hk').append fun _ =>
    Aligned.single).append fun _ => evidence_aligned hE ho ho').congr ?_
  constructor
  · rintro ⟨⟨⟨-, hcolumn⟩, hd⟩, horigin⟩
    exact ⟨hcolumn, directionName_inj.mp hd, horigin⟩
  · rintro ⟨hcolumn, hd, horigin⟩
    exact ⟨⟨⟨trivial, hcolumn⟩, directionName_inj.mpr hd⟩, horigin⟩

/-- A projection is written by its place among the new columns and by its expression among
the old. -/
theorem projection_aligned {t t' : ColumnScope} {p p' : Projection} (hp : p.column ∈ t.ids)
    (hp' : p'.column ∈ t'.ids) (hk : Known s p.expression) (hk' : Known s' p'.expression)
    (ho : ∀ o ∈ ScalarExpression.origins p.expression, P o)
    (ho' : ∀ o ∈ ScalarExpression.origins p'.expression, P o) :
    Aligned (projection E.isSome t s p) (projection E.isSome t' s' p')
      (SameProjection E t t' s s' p p') := by
  refine ((columnId_aligned hp hp').append fun _ => scalar_aligned hE hk hk' ho ho').congr ?_
  constructor
  · rintro ⟨hcolumn, hexpression⟩
    exact ⟨hcolumn, hexpression⟩
  · rintro ⟨hcolumn, hexpression⟩
    exact ⟨hcolumn, hexpression⟩

/-! The name of a relational operator, and what is written behind it. -/

def relationName : RelationExpression → Text
  | .Scan _ _ => ascii "scan"
  | .Filter _ _ _ => ascii "filter"
  | .Project _ _ _ _ => ascii "project"
  | .Join _ _ _ _ _ => ascii "join"
  | .Distinct _ _ => ascii "distinct"
  | .DistinctOn _ _ _ => ascii "distinct-on"
  | .Sort _ _ _ => ascii "sort"

omit hE in
/-- A relation is written with its shape first and the name of its operator behind it. -/
theorem relation_named (b : Bool) (e : RelationExpression) :
    ∃ rest, relation b e = KeyEncoder.shape b e.shape ++ relationName e :: rest := by
  cases e <;> exact ⟨_, by simp only [relation, List.append_assoc]; rfl⟩

omit hE in
theorem mem_shape_origins {e : RelationExpression} {o : IrOrigin}
    (h : o ∈ RelationShape.origins e.shape) : o ∈ RelationExpression.origins e := by
  cases e <;> simp_all [RelationExpression.origins, RelationExpression.shape]

omit hE in
theorem built_new {e : RelationExpression} (h : e.Built) : e.new.isOk = true := by
  cases e <;> first | exact h.1 | exact h

/-- The shapes in front of two relations are compared whole. -/
theorem head_aligned {e e' : RelationExpression} (hb : e.Built) (hb' : e'.Built)
    (ho : ∀ o ∈ RelationExpression.origins e, P o)
    (ho' : ∀ o ∈ RelationExpression.origins e', P o) :
    Aligned (shape E.isSome e.shape) (shape E.isSome e'.shape) (SameShape E e.shape e'.shape) :=
  shape_aligned hE (fun o hmem => ho o (mem_shape_origins hmem))
    (fun o hmem => ho' o (mem_shape_origins hmem)) (new_ok (built_new hb)).2
    (new_ok (built_new hb')).2

/-- Relations of different operators are never written alike. -/
theorem relation_apart {e e' : RelationExpression} (hb : e.Built) (hb' : e'.Built)
    (ho : ∀ o ∈ RelationExpression.origins e, P o)
    (ho' : ∀ o ∈ RelationExpression.origins e', P o) (hname : relationName e ≠ relationName e') :
    Aligned (relation E.isSome e) (relation E.isSome e') False := by
  obtain ⟨rest, hrest⟩ := relation_named E.isSome e
  obtain ⟨rest', hrest'⟩ := relation_named E.isSome e'
  rw [hrest, hrest']
  exact ((head_aligned hE hb hb' ho ho').append fun _ => .ne hname).congr (by simp)

/-- What two trees write ends in one place, and is the same exactly when the
trees are. -/
theorem relation_aligned {e e' : RelationExpression} (hb : e.Built) (hb' : e'.Built)
    (ho : ∀ o ∈ RelationExpression.origins e, P o)
    (ho' : ∀ o ∈ RelationExpression.origins e', P o) :
    Aligned (relation E.isSome e) (relation E.isSome e') (SameRelation E e e') := by
  have htag : ∀ t : Text, Aligned [t] [t] True := fun t => Aligned.tag .nil
  induction e generalizing e' with
  | Scan source sh =>
    cases e' with
    | Scan source' sh' =>
      refine (((head_aligned hE hb hb' ho ho').append fun _ => htag _).append fun _ =>
        source_aligned (E := E) source source').congr ?_
      exact and_congr_left' (and_iff_left trivial)
    | _ => exact relation_apart hE hb hb' ho ho' (by simp only [relationName]; decide)
  | Filter input predicate sh ih =>
    cases e' with
    | Filter input' predicate' sh' =>
      have hinput := ih hb.2 hb'.2
        (fun o hmem => ho o (by simp [RelationExpression.origins, hmem]))
        (fun o hmem => ho' o (by simp [RelationExpression.origins, hmem]))
      have hpredicate := scalar_aligned hE (reads_known hb.1) (reads_known hb'.1)
        (fun o hmem => ho o (by simp [RelationExpression.origins, hmem]))
        (fun o hmem => ho' o (by simp [RelationExpression.origins, hmem]))
      refine ((((head_aligned hE hb hb' ho ho').append fun _ => htag _).append fun _ =>
        hinput).append fun _ => hpredicate).congr ?_
      constructor
      · rintro ⟨⟨⟨hs, -⟩, hi⟩, hp⟩
        exact ⟨hs, hi, hp⟩
      · rintro ⟨hs, hi, hp⟩
        exact ⟨⟨⟨hs, trivial⟩, hi⟩, hp⟩
    | _ => exact relation_apart hE hb hb' ho ho' (by simp only [relationName]; decide)
  | Project input ps kind sh ih =>
    cases e' with
    | Project input' ps' kind' sh' =>
      have hinput := ih hb.2 hb'.2
        (fun o hmem => ho o (by simp [RelationExpression.origins, hmem]))
        (fun o hmem => ho' o (by simp [RelationExpression.origins, hmem]))
      have hcolumn : ∀ {ps : List Projection} {cs : List Column},
          ps.map Projection.column = cs.map Column.id →
          ∀ p ∈ ps, p.column ∈ (ColumnScope.fromColumns cs).ids := by
        intro ps cs heq p hmem
        show p.column ∈ cs.map Column.id
        rw [← heq]
        exact List.mem_map_of_mem hmem
      obtain ⟨hids, hknown⟩ : ReadsKnown (.Project input ps kind sh) := reads_known hb.1
      obtain ⟨hids', hknown'⟩ : ReadsKnown (.Project input' ps' kind' sh') := reads_known hb'.1
      have hprojections := Aligned.counted ps ps' fun p hmem p' hmem' =>
        projection_aligned hE (hcolumn hids p hmem) (hcolumn hids' p' hmem') (hknown p hmem)
          (hknown' p' hmem')
          (fun o h => ho o (by
            simp only [RelationExpression.origins, List.mem_append, List.mem_flatMap]
            exact .inr ⟨p, hmem, h⟩))
          (fun o h => ho' o (by
            simp only [RelationExpression.origins, List.mem_append, List.mem_flatMap]
            exact .inr ⟨p', hmem', h⟩))
      refine ((((head_aligned hE hb hb' ho ho').append fun _ =>
        (htag _).append fun _ => Aligned.single).append fun _ => hinput).append fun _ =>
        hprojections).congr ?_
      constructor
      · rintro ⟨⟨⟨hs, -, hk⟩, hi⟩, hp⟩
        exact ⟨hs, projectionName_inj.mp hk, hi, hp⟩
      · rintro ⟨hs, hk, hi, hp⟩
        exact ⟨⟨⟨hs, trivial, projectionName_inj.mpr hk⟩, hi⟩, hp⟩
    | _ => exact relation_apart hE hb hb' ho ho' (by simp only [relationName]; decide)
  | Join kind left right condition sh ihl ihr =>
    cases e' with
    | Join kind' left' right' condition' sh' =>
      have hleft := ihl hb.2.1 hb'.2.1
        (fun o hmem => ho o (by simp [RelationExpression.origins, hmem]))
        (fun o hmem => ho' o (by simp [RelationExpression.origins, hmem]))
      have hright := ihr hb.2.2 hb'.2.2
        (fun o hmem => ho o (by simp [RelationExpression.origins, hmem]))
        (fun o hmem => ho' o (by simp [RelationExpression.origins, hmem]))
      have hcondition := scalar_aligned hE (reads_known hb.1) (reads_known hb'.1)
        (fun o hmem => ho o (by simp [RelationExpression.origins, hmem]))
        (fun o hmem => ho' o (by simp [RelationExpression.origins, hmem]))
      cases kind
      cases kind'
      refine (((((head_aligned hE hb hb' ho ho').append fun _ =>
        (htag _).append fun _ => htag _).append fun _ => hleft).append fun _ => hright).append
        fun _ => hcondition).congr ?_
      constructor
      · rintro ⟨⟨⟨⟨hs, -⟩, hl⟩, hr⟩, hc⟩
        exact ⟨hs, rfl, hl, hr, hc⟩
      · rintro ⟨hs, -, hl, hr, hc⟩
        exact ⟨⟨⟨⟨hs, trivial, trivial⟩, hl⟩, hr⟩, hc⟩
    | _ => exact relation_apart hE hb hb' ho ho' (by simp only [relationName]; decide)
  | Distinct input sh ih =>
    cases e' with
    | Distinct input' sh' =>
      have hinput := ih hb.2 hb'.2
        (fun o hmem => ho o (by simp [RelationExpression.origins, hmem]))
        (fun o hmem => ho' o (by simp [RelationExpression.origins, hmem]))
      refine (((head_aligned hE hb hb' ho ho').append fun _ => htag _).append fun _ =>
        hinput).congr ?_
      exact and_congr_left' (and_iff_left trivial)
    | _ => exact relation_apart hE hb hb' ho ho' (by simp only [relationName]; decide)
  | DistinctOn input columns sh ih =>
    cases e' with
    | DistinctOn input' columns' sh' =>
      have hinput := ih hb.2 hb'.2
        (fun o hmem => ho o (by simp [RelationExpression.origins, hmem]))
        (fun o hmem => ho' o (by simp [RelationExpression.origins, hmem]))
      have hknown : ∀ id ∈ columns, id ∈ (ColumnScope.fromSchema input.schema).ids :=
        reads_known hb.1
      have hknown' : ∀ id ∈ columns', id ∈ (ColumnScope.fromSchema input'.schema).ids :=
        reads_known hb'.1
      have hcolumns := Aligned.counted columns columns' fun c hmem c' hmem' =>
        columnId_aligned (hknown c hmem) (hknown' c' hmem')
      refine ((((head_aligned hE hb hb' ho ho').append fun _ => htag _).append fun _ =>
        hinput).append fun _ => hcolumns).congr ?_
      constructor
      · rintro ⟨⟨⟨hs, -⟩, hi⟩, hc⟩
        exact ⟨hs, hi, hc⟩
      · rintro ⟨hs, hi, hc⟩
        exact ⟨⟨⟨hs, trivial⟩, hi⟩, hc⟩
    | _ => exact relation_apart hE hb hb' ho ho' (by simp only [relationName]; decide)
  | «Sort» input keys sh ih =>
    cases e' with
    | «Sort» input' keys' sh' =>
      have hinput := ih hb.2 hb'.2
        (fun o hmem => ho o (by simp [RelationExpression.origins, hmem]))
        (fun o hmem => ho' o (by simp [RelationExpression.origins, hmem]))
      have hknown : ∀ k ∈ keys, k.column ∈ (ColumnScope.fromSchema input.schema).ids :=
        reads_known hb.1
      have hknown' : ∀ k ∈ keys', k.column ∈ (ColumnScope.fromSchema input'.schema).ids :=
        reads_known hb'.1
      have hkeys := Aligned.counted keys keys' fun k hmem k' hmem' =>
        sortKey_aligned hE (hknown k hmem) (hknown' k' hmem')
          (ho _ (by simp only [RelationExpression.origins, List.mem_append, List.mem_map]
                    exact .inr ⟨k, hmem, rfl⟩))
          (ho' _ (by simp only [RelationExpression.origins, List.mem_append, List.mem_map]
                     exact .inr ⟨k', hmem', rfl⟩))
      refine ((((head_aligned hE hb hb' ho ho').append fun _ => htag _).append fun _ =>
        hinput).append fun _ => hkeys).congr ?_
      constructor
      · rintro ⟨⟨⟨hs, -⟩, hi⟩, hk⟩
        exact ⟨hs, hi, hk⟩
      · rintro ⟨hs, hi, hk⟩
        exact ⟨⟨⟨hs, trivial⟩, hi⟩, hk⟩
    | _ => exact relation_apart hE hb hb' ho ho' (by simp only [relationName]; decide)

end trees

end KeyEncoder

end analyzer.normalizer
