-- What the key with the evidence tells. A definition of the model is written
-- with its identity as one text, joined by colons, and names may have colons
-- of their own; of the receiver of a navigation only the path is written. The key
-- is exact as far as these tell definitions and classes apart.
import PureAnalyzer.NormalForms

namespace analyzer.normalizer

open fragments sortedsets model resolve relational sametree

/-! ## Definitions of the model -/

theorem provenanceName_inj {p q : Provenance} : provenanceName p = provenanceName q ↔ p = q := by
  cases p <;> cases q <;> decide

/-- Two definitions of one kind at one place, from one sort of source, with
one text for their identities. -/
structure SameText (m m' : ModelOrigin) : Prop where
  kind : m.kind = m'.kind
  provenance : m.provenance = m'.provenance
  definition : m.definition = m'.definition
  identity : m.structuralIdentityKey = m'.structuralIdentityKey

/-- The word for a kind of definition. -/
def originKindName : ModelOriginKind → Text
  | .Class => ascii "class"
  | .Member => ascii "member"

theorem originKindName_inj {k k' : ModelOriginKind} :
    originKindName k = originKindName k' ↔ k = k' := by
  cases k <;> cases k' <;> decide

theorem modelOriginKey_eq_iff {m m' : ModelOrigin} :
    modelOriginKey m = modelOriginKey m' ↔ SameText m m' := by
  obtain ⟨kind, provenance, ⟨source, span⟩, identity, hkind⟩ := m
  obtain ⟨kind', provenance', ⟨source', span'⟩, identity', hkind'⟩ := m'
  have hword : ∀ n, decimal n ≠ ascii "no-span" := fun n =>
    decimal_ne (b := 110) (by decide) (by decide)
  unfold modelOriginKey
  rw [written_inj]
  constructor
  · intro h
    cases span with
    | none =>
      cases span' with
      | none =>
        simp only [List.cons_append, List.nil_append, List.cons.injEq,
          provenanceName_inj, decimal_inj, and_true, true_and] at h
        obtain ⟨hk, hp, rfl, hidentity⟩ := h
        exact ⟨originKindName_inj.mp hk, hp, rfl, hidentity⟩
      | some r => simp [(hword _).symm] at h
    | some r =>
      cases span' with
      | none => simp [hword] at h
      | some r' =>
        simp only [List.cons_append, List.nil_append, List.cons.injEq,
          provenanceName_inj, decimal_inj, and_true] at h
        obtain ⟨hk, hp, rfl, hstart, hstop, hidentity⟩ := h
        obtain rfl := TextRange.ext_ends hstart hstop
        exact ⟨originKindName_inj.mp hk, hp, rfl, hidentity⟩
  · rintro ⟨hk, hp, hdefinition, hidentity⟩
    simp only [DefinitionAnchor.mk.injEq] at hdefinition
    obtain ⟨rfl, rfl⟩ := hdefinition
    simp only at hk hp
    subst hk hp
    rw [hidentity]

/-- No two of the definitions have one text. -/
def TellsApart (S : ModelOrigin → Prop) : Prop := ∀ m m', S m → S m' → SameText m m' → m = m'

/-- The definitions of some classes and members. -/
def Definitions (C : ResolvedClass → Prop) (M : ResolvedMember → Prop) (m : ModelOrigin) : Prop :=
  (∃ c, C c ∧ m = .fromClass c) ∨ ∃ member, M member ∧ m = .fromMember member

/-- A query names these classes and members only: in its evidence, in what it
reads, and in its navigations with their receivers. -/
structure Names (C : ResolvedClass → Prop) (M : ResolvedMember → Prop) (q : RelationalQuery) :
    Prop where
  origins : ∀ o ∈ RelationExpression.origins q.root, ∀ m ∈ o.model_origins, Definitions C M m
  sources : ∀ c ∈ RelationExpression.sources q.root, C c
  receivers : ∀ n ∈ RelationExpression.navigations q.root, ∀ c, n.receiver.kind = .Class c → C c
  members : ∀ n ∈ RelationExpression.navigations q.root, M n.member ∧ C n.member.owner

/-- Classes and members that the key with the evidence tells apart: by the texts
of their definitions, the classes that are read by what is written of a class, and
where there is a navigation, in which less is written of the receiver, by their
paths alone. -/
structure ToldApart (C : ResolvedClass → Prop) (M : ResolvedMember → Prop) : Prop where
  texts : (∃ c, C c) → TellsApart (Definitions C M)
  classes : ∀ c c', C c → C c' → SameClass (some SameOrigin) c c' → c = c'
  receivers : (∃ member, M member ∧ C member.owner ∧ navigable member = true) →
    ∀ c c', C c → C c' → c.path = c'.path → c = c'

/-! ## The key with the evidence -/

theorem origin_aligned {S : ModelOrigin → Prop} (hS : TellsApart S) {o o' : IrOrigin}
    (ho : ∀ m ∈ o.model_origins, S m) (ho' : ∀ m ∈ o'.model_origins, S m) :
    Aligned (KeyEncoder.origin o) (KeyEncoder.origin o') (SameOrigin o o') := by
  have hkeys : Aligned
      (decimal (sortDedup (o.model_origins.map modelOriginKey)).length ::
        sortDedup (o.model_origins.map modelOriginKey))
      (decimal (sortDedup (o'.model_origins.map modelOriginKey)).length ::
        sortDedup (o'.model_origins.map modelOriginKey))
      (∀ m, m ∈ o.model_origins ↔ m ∈ o'.model_origins) := by
    have hcounted := Aligned.counted (f := fun t => [t]) (g := fun t => [t])
      (sortDedup (o.model_origins.map modelOriginKey))
      (sortDedup (o'.model_origins.map modelOriginKey))
      fun t _ u _ => (Aligned.single : Aligned [t] [u] (t = u))
    rw [List.forall₂_eq_eq_eq, List.flatMap_singleton', List.flatMap_singleton'] at hcounted
    refine hcounted.congr ?_
    rw [sortDedup_eq_iff]
    simp only [List.mem_map]
    constructor
    · intro h m
      constructor
      · intro hm
        obtain ⟨m', hm', heq⟩ := (h _).mp ⟨m, hm, rfl⟩
        rwa [hS m m' (ho m hm) (ho' m' hm') (modelOriginKey_eq_iff.mp heq.symm)]
      · intro hm
        obtain ⟨m', hm', heq⟩ := (h _).mpr ⟨m, hm, rfl⟩
        rwa [hS m m' (ho' m hm) (ho m' hm') (modelOriginKey_eq_iff.mp heq.symm)]
    · intro h t
      simp only [h]
  have hsource : Aligned
      ([ascii "origin", decimal o.source.file] ++ KeyEncoder.range o.source.range)
      ([ascii "origin", decimal o'.source.file] ++ KeyEncoder.range o'.source.range)
      (o.source = o'.source) := by
    refine (Aligned.tag (.cons fun _ => KeyEncoder.range_aligned _ _)).congr ?_
    rw [decimal_inj]
    constructor
    · rintro ⟨hfile, hrange⟩
      obtain ⟨⟨file, range⟩, origins⟩ := o
      obtain ⟨⟨file', range'⟩, origins'⟩ := o'
      simp only at hfile hrange ⊢
      rw [hfile, hrange]
    · intro h
      rw [h]
      exact ⟨rfl, rfl⟩
  exact hsource.append fun _ => hkeys

theorem provenanceKey_eq_iff {S : ModelOrigin → Prop} (hS : TellsApart S) {q q' : RelationalQuery}
    (hq : ∀ o ∈ RelationExpression.origins q.root, ∀ m ∈ o.model_origins, S m)
    (hq' : ∀ o ∈ RelationExpression.origins q'.root, ∀ m ∈ o.model_origins, S m) :
    provenanceKey q.root = provenanceKey q'.root ↔ SameRelation (some SameOrigin) q.root q'.root := by
  have htells : KeyEncoder.Tells (some SameOrigin) fun o => ∀ m ∈ o.model_origins, S m := by
    constructor
    rintro R hR o o' ho ho'
    obtain rfl := Option.some.inj hR
    exact origin_aligned hS ho ho'
  have haligned := KeyEncoder.relation_aligned htells q.built q'.built hq hq'
  unfold provenanceKey
  rw [written_inj]
  exact haligned.eq_iff

/-! ## The classes of one tree -/

section Trees

variable {E : Evidence} {K : ResolvedClass → ResolvedClass → Prop}

/-- The navigations of two expressions that are one tree are one by `K`, if two are that
go from receivers of one path to one member. -/
theorem scalar_navigations {scope scope' : ColumnScope} {e e' : ScalarExpression}
    (h : SameScalar E scope scope' e e')
    (hK : ∀ n ∈ ScalarExpression.navigations e, ∀ n' ∈ ScalarExpression.navigations e',
      SameReceiver n.receiver n'.receiver → SameMember E n.member n'.member → SameClasses K n n') :
    List.Forall₂ (SameClasses K) (ScalarExpression.navigations e)
      (ScalarExpression.navigations e') := by
  induction e generalizing e' with
  | Column id facts =>
    cases e' with
    | Column id' facts' => exact .nil
    | _ => cases h
  | Literal literal facts =>
    cases e' with
    | Literal literal' facts' => exact .nil
    | _ => cases h
  | Navigation input navigation facts ih =>
    cases e' with
    | Navigation input' navigation' facts' =>
      obtain ⟨-, hinput, hreceiver, hmember⟩ := h
      have hlast : SameClasses K navigation navigation' :=
        hK navigation (List.mem_append_right _ List.mem_cons_self) navigation'
          (List.mem_append_right _ List.mem_cons_self) hreceiver hmember
      exact List.rel_append (ih hinput fun n hn n' hn' =>
        hK n (List.mem_append_left _ hn) n' (List.mem_append_left _ hn')) (.cons hlast .nil)
    | _ => cases h
  | Equal left right facts ihl ihr =>
    cases e' with
    | Equal left' right' facts' =>
      obtain ⟨-, hleft, hright⟩ := h
      exact List.rel_append
        (ihl hleft fun n hn n' hn' =>
          hK n (List.mem_append_left _ hn) n' (List.mem_append_left _ hn'))
        (ihr hright fun n hn n' hn' =>
          hK n (List.mem_append_right _ hn) n' (List.mem_append_right _ hn'))
    | _ => cases h
  | Not input facts ih =>
    cases e' with
    | Not input' facts' =>
      have hinput := ih h.2 hK
      exact hinput
    | _ => cases h

theorem projections_navigations {output output' input input' : ColumnScope}
    {ps ps' : List Projection}
    (h : List.Forall₂ (SameProjection E output output' input input') ps ps')
    (hK : ∀ n ∈ ps.flatMap fun p => ScalarExpression.navigations p.expression,
      ∀ n' ∈ ps'.flatMap fun p => ScalarExpression.navigations p.expression,
        SameReceiver n.receiver n'.receiver → SameMember E n.member n'.member →
          SameClasses K n n') :
    List.Forall₂ (SameClasses K) (ps.flatMap fun p => ScalarExpression.navigations p.expression)
      (ps'.flatMap fun p => ScalarExpression.navigations p.expression) := by
  induction h with
  | nil => exact .nil
  | cons hfirst _ ih =>
    rw [List.flatMap_cons, List.flatMap_cons] at hK ⊢
    exact List.rel_append
      (scalar_navigations hfirst.expression fun n hn n' hn' =>
        hK n (List.mem_append_left _ hn) n' (List.mem_append_left _ hn'))
      (ih fun n hn n' hn' => hK n (List.mem_append_right _ hn) n' (List.mem_append_right _ hn'))

theorem relation_navigations {e e' : RelationExpression} (h : SameRelation E e e')
    (hK : ∀ n ∈ RelationExpression.navigations e, ∀ n' ∈ RelationExpression.navigations e',
      SameReceiver n.receiver n'.receiver → SameMember E n.member n'.member → SameClasses K n n') :
    List.Forall₂ (SameClasses K) (RelationExpression.navigations e)
      (RelationExpression.navigations e') := by
  induction e generalizing e' with
  | Scan source shape =>
    cases e' with
    | Scan source' shape' => exact .nil
    | _ => cases h
  | Filter input predicate shape ih =>
    cases e' with
    | Filter input' predicate' shape' =>
      obtain ⟨-, hinput, hpredicate⟩ := h
      exact List.rel_append
        (ih hinput fun n hn n' hn' =>
          hK n (List.mem_append_left _ hn) n' (List.mem_append_left _ hn'))
        (scalar_navigations hpredicate fun n hn n' hn' =>
          hK n (List.mem_append_right _ hn) n' (List.mem_append_right _ hn'))
    | _ => cases h
  | Project input ps kind shape ih =>
    cases e' with
    | Project input' ps' kind' shape' =>
      obtain ⟨-, -, hinput, hps⟩ := h
      exact List.rel_append
        (ih hinput fun n hn n' hn' =>
          hK n (List.mem_append_left _ hn) n' (List.mem_append_left _ hn'))
        (projections_navigations hps fun n hn n' hn' =>
          hK n (List.mem_append_right _ hn) n' (List.mem_append_right _ hn'))
    | _ => cases h
  | Join kind left right condition shape ihl ihr =>
    cases e' with
    | Join kind' left' right' condition' shape' =>
      obtain ⟨-, -, hleft, hright, hcondition⟩ := h
      refine List.rel_append (List.rel_append
        (ihl hleft fun n hn n' hn' => hK n (List.mem_append_left _ (List.mem_append_left _ hn)) n'
          (List.mem_append_left _ (List.mem_append_left _ hn')))
        (ihr hright fun n hn n' hn' => hK n (List.mem_append_left _ (List.mem_append_right _ hn))
          n' (List.mem_append_left _ (List.mem_append_right _ hn')))) ?_
      exact scalar_navigations hcondition fun n hn n' hn' =>
        hK n (List.mem_append_right _ hn) n' (List.mem_append_right _ hn')
    | _ => cases h
  | Distinct input shape ih =>
    cases e' with
    | Distinct input' shape' =>
      have hinput := ih h.2 hK
      exact hinput
    | _ => cases h
  | DistinctOn input columns shape ih =>
    cases e' with
    | DistinctOn input' columns' shape' =>
      have hinput := ih h.2.1 hK
      exact hinput
    | _ => cases h
  | «Sort» input keys shape ih =>
    cases e' with
    | «Sort» input' keys' shape' =>
      have hinput := ih h.2.1 hK
      exact hinput
    | _ => cases h

theorem relation_sources {e e' : RelationExpression} (h : SameRelation E e e')
    (hK : ∀ c ∈ RelationExpression.sources e, ∀ c' ∈ RelationExpression.sources e',
      SameClass E c c' → K c c') :
    List.Forall₂ K (RelationExpression.sources e) (RelationExpression.sources e') := by
  induction e generalizing e' with
  | Scan source shape =>
    cases e' with
    | Scan source' shape' =>
      cases source with
      | Class c =>
        cases source' with
        | Class c' => exact .cons (hK c List.mem_cons_self c' List.mem_cons_self h.2) .nil
    | _ => cases h
  | Filter input predicate shape ih =>
    cases e' with
    | Filter input' predicate' shape' =>
      have hinput := ih h.2.1 hK
      exact hinput
    | _ => cases h
  | Project input ps kind shape ih =>
    cases e' with
    | Project input' ps' kind' shape' =>
      have hinput := ih h.2.2.1 hK
      exact hinput
    | _ => cases h
  | Join kind left right condition shape ihl ihr =>
    cases e' with
    | Join kind' left' right' condition' shape' =>
      obtain ⟨-, -, hleft, hright, -⟩ := h
      exact List.rel_append
        (ihl hleft fun c hc c' hc' =>
          hK c (List.mem_append_left _ hc) c' (List.mem_append_left _ hc'))
        (ihr hright fun c hc c' hc' =>
          hK c (List.mem_append_right _ hc) c' (List.mem_append_right _ hc'))
    | _ => cases h
  | Distinct input shape ih =>
    cases e' with
    | Distinct input' shape' =>
      have hinput := ih h.2 hK
      exact hinput
    | _ => cases h
  | DistinctOn input columns shape ih =>
    cases e' with
    | DistinctOn input' columns' shape' =>
      have hinput := ih h.2.1 hK
      exact hinput
    | _ => cases h
  | «Sort» input keys shape ih =>
    cases e' with
    | «Sort» input' keys' shape' =>
      have hinput := ih h.2.1 hK
      exact hinput
    | _ => cases h

end Trees

/-! ## Definitions with one text -/

/-- A scan without columns, with this evidence alone. -/
def scanFor (c : ResolvedClass) (origins : List ModelOrigin) : RelationExpression :=
  .Scan (.Class c) ⟨⟨[], List.nodup_nil⟩, .unknown, evidenceOf origins⟩

def scanForQuery (c : ResolvedClass) (origins : List ModelOrigin) : RelationalQuery :=
  ⟨scanFor c origins, rfl⟩

section Definitions

variable {C : ResolvedClass → Prop} {M : ResolvedMember → Prop}

theorem names_scanFor {c : ResolvedClass} {origins : List ModelOrigin} (hc : C c)
    (h : ∀ m ∈ origins, Definitions C M m) : Names C M (scanForQuery c origins) where
  origins o ho m hm := by
    obtain rfl : o = evidenceOf origins := by
      simpa [scanForQuery, scanFor, RelationExpression.origins, RelationShape.origins,
        Knowledge.origins, RelationFacts.unknown, RelationFacts.new,
        canonicalizeCandidateKeys] using ho
    exact h m hm
  sources c' hc' := by
    rwa [List.mem_singleton.mp hc']
  receivers n hn := by cases hn
  members n hn := by cases hn

theorem names_readsOf {c receiver : ResolvedClass} {origins : List ModelOrigin}
    {member : ResolvedMember} {plain : navigable member = true}
    {built : (readsOf origins c receiver member plain).Built} (hc : C c) (hreceiver : C receiver)
    (hmember : M member) (howner : C member.owner) (h : ∀ m ∈ origins, Definitions C M m) :
    Names C M ⟨readsOf origins c receiver member plain, built⟩ where
  origins o ho m hm := by
    obtain rfl : o = evidenceOf origins := by
      simpa [readsOf, valuesOf, schemaOf, columnOf, RelationExpression.origins,
        RelationShape.origins, ScalarExpression.origins, ScalarFacts.origins, Knowledge.origins,
        RelationFacts.unknown, RelationFacts.new, canonicalizeCandidateKeys] using ho
    exact h m hm
  sources c' hc' := by
    rwa [List.mem_singleton.mp hc']
  receivers n hn c' hc' := by
    obtain rfl := List.mem_singleton.mp hn
    rwa [← LocalValueKind.Class.inj hc']
  members n hn := by
    obtain rfl := List.mem_singleton.mp hn
    exact ⟨hmember, howner⟩

theorem scanFor_key {m m' : ModelOrigin} (h : SameText m m') (c : ResolvedClass) :
    provenanceKey (scanFor c [m]) = provenanceKey (scanFor c [m']) := by
  have hkey := modelOriginKey_eq_iff.mpr h
  simp only [provenanceKey, scanFor, KeyEncoder.relation, KeyEncoder.shape, KeyEncoder.evidence,
    KeyEncoder.origin, KeyEncoder.schema, KeyEncoder.facts, evidenceOf, List.map_cons,
    List.map_nil, hkey]

theorem sources_ne_nil (e : RelationExpression) : RelationExpression.sources e ≠ [] := by
  induction e with
  | Scan source shape =>
    cases source with
    | Class c => exact List.cons_ne_nil c []
  | Filter input predicate shape ih => exact ih
  | Project input ps kind shape ih => exact ih
  | Join kind left right condition shape ihl ihr =>
    exact fun h => ihl (List.append_eq_nil_iff.mp h).1
  | Distinct input shape ih => exact ih
  | DistinctOn input columns shape ih => exact ih
  | «Sort» input keys shape ih => exact ih

/-- The key with the evidence is exact over the queries that name these classes and
members exactly when it tells them apart. -/
theorem evidence_is_told_as_far_as_texts_tell (C : ResolvedClass → Prop)
    (M : ResolvedMember → Prop) :
    (∀ (q q' : RelationalQuery) (budget budget' : NormalizationBudget) (nq nq' : NormalizedQuery),
      Names C M q → Names C M q' →
      normalizeRelationalQueryWithBudget q budget = .Normalized nq →
      normalizeRelationalQueryWithBudget q' budget' = .Normalized nq' →
      nq.structural_key = nq'.structural_key →
      SameTree (some SameOrigin) (· = ·) q.root q'.root) ↔ ToldApart C M := by
  constructor
  · intro h
    have hone : ∀ (q q' : RelationalQuery) (steps steps' : Nat), Names C M q → Names C M q' →
        charge (relationVisits 0 q.root) 5 = .ok steps →
        charge (relationVisits 0 q'.root) 5 = .ok steps' →
        semanticKey (normalForm q.root) = semanticKey (normalForm q'.root) →
        provenanceKey q.root = provenanceKey q'.root →
        SameTree (some SameOrigin) (· = ·) q.root q'.root := by
      intro q q' steps steps' hq hq' hsteps hsteps' hform hinput
      refine h q q' ⟨5⟩ ⟨5⟩ _ _ hq hq' (normalize_of_charge q ⟨5⟩ hsteps)
        (normalize_of_charge q' ⟨5⟩ hsteps') ?_
      simp only [hform, hinput]
    refine ⟨fun ⟨c, hc⟩ m m' hm hm' htext => ?_, fun c c' hc hc' hsame => ?_,
      fun ⟨member, hmember, howner, plain⟩ c c' hc hc' hpath => ?_⟩
    · have hnames : ∀ m, Definitions C M m → Names C M (scanForQuery c [m]) := fun m hm =>
        names_scanFor hc fun other hother => by rwa [List.mem_singleton.mp hother]
      have hsame := hone _ _ _ _ (hnames m hm) (hnames m' hm') rfl rfl rfl (scanFor_key htext c)
      have horigin : SameOrigin _ _ := hsame.relation.1.origin SameOrigin rfl
      exact List.mem_singleton.mp ((horigin.2 m).mp (List.mem_singleton_self m))
    · have hnames : ∀ c, C c → Names C M (scanForQuery c []) := fun c hc =>
        names_scanFor hc fun _ hm => by cases hm
      have hwritten : ∀ evidence, KeyEncoder.relation evidence (scanFor c []) =
          KeyEncoder.relation evidence (scanFor c' []) := by
        intro evidence
        obtain ⟨hplace, hdefinition⟩ := hsame.place rfl
        simp only [scanFor, KeyEncoder.relation, KeyEncoder.source, KeyEncoder.cls, hsame.path,
          hsame.temporal, hplace, hdefinition]
      have htree := hone _ _ _ _ (hnames c hc) (hnames c' hc') rfl rfl
        (congrArg written (hwritten false)) (congrArg written (hwritten true))
      cases htree.sources with
      | cons hfirst _ => exact hfirst
    · -- one query, read from either class; the evidence names both
      have hreads : ∀ receiver, C receiver → receiver.path = c.path →
          ModelOrigin.fromClass receiver ∈
            [ModelOrigin.fromClass c, .fromClass c', .fromMember member] →
          ∃ built, Names C M ⟨readsOf [.fromClass c, .fromClass c', .fromMember member] c receiver
            member plain, built⟩ := by
        intro receiver hreceiver hsame hmem
        refine ⟨readsOf_built plain hsame hmem (by simp),
          names_readsOf hc hreceiver hmember howner fun m hm => ?_⟩
        simp only [List.mem_cons, List.not_mem_nil, or_false] at hm
        rcases hm with rfl | rfl | rfl
        · exact .inl ⟨c, hc, rfl⟩
        · exact .inl ⟨c', hc', rfl⟩
        · exact .inr ⟨member, hmember, rfl⟩
      obtain ⟨built, hq⟩ := hreads c hc rfl (by simp)
      obtain ⟨built', hq'⟩ := hreads c' hc' hpath.symm (by simp)
      have htree := hone _ _ _ _ hq hq' rfl rfl
        (by simp only [normalForm_readsOf]; rfl) rfl
      have hpair : List.Forall₂ (SameClasses (· = ·)) [navigationFrom c member plain]
          [navigationFrom c' member plain] := htree.navigations
      cases hpair with
      | cons hfirst _ => exact hfirst.receiver c c' rfl rfl
  · intro hC q q' budget budget' nq nq' hq hq' hn hn' hkeys
    obtain ⟨-, -, hkey⟩ := normalized hn
    obtain ⟨-, -, hkey'⟩ := normalized hn'
    rw [hkey, hkey', StructuralKey.mk.injEq, written_inj] at hkeys
    simp only [List.cons.injEq, and_true, true_and] at hkeys
    obtain ⟨c, hc⟩ := List.exists_mem_of_ne_nil _ (sources_ne_nil q.root)
    have hrelation : SameRelation (some SameOrigin) q.root q'.root :=
      (provenanceKey_eq_iff (hC.texts ⟨c, hq.sources c hc⟩) hq.origins hq'.origins).mp hkeys.2
    refine ⟨hrelation, relation_sources hrelation fun c hc c' hc' hsame =>
      hC.classes c c' (hq.sources c hc) (hq'.sources c' hc') hsame,
      relation_navigations hrelation fun n hn n' hn' hreceiver hmember => ⟨?_, ?_⟩⟩
    · exact hC.classes _ _ (hq.members n hn).2 (hq'.members n' hn').2 hmember.owner
    · intro c c' hc hc'
      obtain ⟨-, d, d', hd, hd', hpath⟩ := hreceiver
      rw [hc] at hd
      rw [hc'] at hd'
      obtain rfl := LocalValueKind.Class.inj hd
      obtain rfl := LocalValueKind.Class.inj hd'
      exact hC.receivers ⟨n.member, (hq.members n hn).1, (hq.members n hn).2, n.plain⟩ c c'
        (hq.receivers n hn c hc) (hq'.receivers n' hn' c' hc') hpath

end Definitions

/-- The property `b:c` of a class `A`. -/
def propertyOfA : ModelOrigin :=
  ⟨.Member, .Pmcd, ⟨0, none⟩,
    .Member ⟨ascii "A", by decide⟩ ⟨ascii "b:c", by decide⟩ .Property, rfl⟩

/-- The property `c` of a class `A:b`. -/
def propertyOfAB : ModelOrigin :=
  ⟨.Member, .Pmcd, ⟨0, none⟩,
    .Member ⟨ascii "A:b", by decide⟩ ⟨ascii "c", by decide⟩ .Property, rfl⟩

/-- Two queries that rest on different properties, and one key for both. -/
theorem two_properties_under_one_key :
    ∃ nq nq',
      normalizeRelationalQueryWithBudget (scanForQuery classA [propertyOfA]) ⟨1⟩ =
        .Normalized nq ∧
      normalizeRelationalQueryWithBudget (scanForQuery classA [propertyOfAB]) ⟨1⟩ =
        .Normalized nq' ∧
      nq.structural_key = nq'.structural_key ∧
      ¬ SameTree (some SameOrigin) (· = ·) (scanForQuery classA [propertyOfA]).root
        (scanForQuery classA [propertyOfAB]).root := by
  have htext : SameText propertyOfA propertyOfAB := ⟨rfl, rfl, rfl, by decide⟩
  refine ⟨_, _, rfl, rfl, ?_, ?_⟩
  · show StructuralKey.mk (written [ascii "normal-form-v1", semanticKey (scanFor classA [propertyOfA]),
      ascii "input-provenance-v1", provenanceKey (scanFor classA [propertyOfA])]) = _
    rw [scanFor_key htext]
    rfl
  · intro h
    have horigin : SameOrigin _ _ := h.relation.1.origin SameOrigin rfl
    have hmem := (horigin.2 propertyOfA).mp (List.mem_singleton_self _)
    exact absurd (List.mem_singleton.mp hmem) (by decide)

end analyzer.normalizer
