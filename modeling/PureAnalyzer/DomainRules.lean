-- What one step of the Domain parser may do: it uses tokens up in their order,
-- its events are whole nodes over them, each error node has a diagnostic, and
-- the nodes that hold no facts lie in coverage gaps. A rule for each way in which
-- productions are put together.
import PureAnalyzer.Domain
import PureAnalyzer.Flows
import PureAnalyzer.ParserTrees

namespace analyzer.domain

open fragments model cst totality m3 analyzer.domain.Parser

/-! ## What the events of a step build -/

/-- The events are whole nodes over the tokens between two places, and this holds
of each node and its two ends. -/
inductive Grown (tokens : List Token) (Q : NodeKind → Nat → Nat → Prop) :
    Nat → List Event → Nat → Prop where
  | nil (i : Nat) : Grown tokens Q i [] i
  | token {i j : Nat} {es : List Event} {token : Token} (here : tokens[i]? = some token)
      (rest : Grown tokens Q (i + 1) es j) : Grown tokens Q i (.Advance :: es) j
  | node {i j k : Nat} {es es' : List Event} {kind : NodeKind} (inner : kind ≠ .Root)
      (here : Q kind i j) (below : Grown tokens Q i es j) (rest : Grown tokens Q j es' k) :
      Grown tokens Q i (.Open (.Node kind) :: es ++ .Close :: es') k

namespace Grown

variable {tokens : List Token} {Q Q' : NodeKind → Nat → Nat → Prop} {i j k : Nat}
  {es es' : List Event}

theorem append (h : Grown tokens Q i es j) (h' : Grown tokens Q j es' k) :
    Grown tokens Q i (es ++ es') k := by
  induction h with
  | nil => exact h'
  | token here _ ih => exact token here (ih h')
  | node inner here below _ _ ih =>
    have hnode := node inner here below (ih h')
    simpa using hnode

theorem le (h : Grown tokens Q i es j) : i ≤ j := by
  induction h with
  | nil => exact Nat.le_refl _
  | token _ _ ih => omega
  | node _ _ _ _ ih ih' => omega

theorem bound (h : Grown tokens Q i es j) (hi : i ≤ tokens.length) : j ≤ tokens.length := by
  induction h with
  | nil => exact hi
  | token here _ ih =>
    have hlt := (List.getElem?_eq_some_iff.mp here).1
    exact ih (by omega)
  | node _ _ _ _ ih ih' => exact ih' (ih hi)

/-- What holds of the nodes between the two places may be replaced. -/
theorem mono (h : Grown tokens Q i es j)
    (hQ : ∀ kind a b, i ≤ a → a ≤ b → b ≤ j → Q kind a b → Q' kind a b) :
    Grown tokens Q' i es j := by
  induction h with
  | nil => exact nil _
  | token here rest ih =>
    refine token here (ih fun kind a b ha hab hb => ?_)
    exact hQ kind a b (by omega) hab hb
  | node inner here below rest ih ih' =>
    have hbelow := below.le
    have hrest := rest.le
    refine node inner (hQ _ _ _ (Nat.le_refl _) hbelow hrest here) (ih ?_) (ih' ?_)
    · exact fun kind a b ha hab hb => hQ kind a b ha hab (by omega)
    · exact fun kind a b ha hab hb => hQ kind a b (by omega) hab hb

end Grown

/-! ## Errors and gaps -/

/-- An error node has a diagnostic at its start or at its end. -/
def Told (tokens : List Token) (diagnostics : List Diagnostic) (kind : NodeKind) (i j : Nat) :
    Prop :=
  kind = .ErrorNode →
    Reported diagnostics (offsetAt tokens i) ∨ Reported diagnostics (offsetAt tokens j)

/-- The tokens between two places lie in one gap. -/
def InGap (tokens : List Token) (gaps : List DomainCoverageGap) (i j : Nat) : Prop :=
  ∃ gap ∈ gaps, gap.span.start ≤ offsetAt tokens i ∧ offsetAt tokens j ≤ gap.span.stop

/-- The nodes that no fact can be read from. -/
def Faulty (kind : NodeKind) : Prop := kind = .ErrorNode ∨ kind = .DomainOpaqueNode

instance (kind : NodeKind) : Decidable (Faulty kind) :=
  inferInstanceAs (Decidable (kind = .ErrorNode ∨ kind = .DomainOpaqueNode))

/-- A node that no fact can be read from lies in a gap. -/
def Held (tokens : List Token) (gaps : List DomainCoverageGap) (kind : NodeKind) (i j : Nat) :
    Prop :=
  Faulty kind → InGap tokens gaps i j

/-- The message of a branch against endless loops. -/
def Stuck (message : String) : Prop := ∃ rest, message = "parser made no progress" ++ rest

theorem not_stuck {message : String} (h : message.toList.head? ≠ some 'p') : ¬Stuck message := by
  rintro ⟨rest, rfl⟩
  exact h (by simp [String.toList_append])

theorem expected_not_stuck (expected : String) : ¬Stuck ("expected " ++ expected) :=
  not_stuck (by simp [String.toList_append])

/-! ## What a step does to the state -/

/-- There is a gap of this kind. -/
def HasGap (gaps : List DomainCoverageGap) (kind : DomainCoverageGapKind) : Prop :=
  ∃ gap ∈ gaps, gap.kind = kind

/-- From one state to another by these events. -/
structure Ran (s s' : Parser) (es : List Event) : Prop where
  source : s'.source = s.source
  tokens : s'.tokens = s.tokens
  depth : s'.depth = s.depth
  diagnostics : ∀ d ∈ s.diagnostics, d ∈ s'.diagnostics
  fresh : ∀ d ∈ s'.diagnostics, d ∈ s.diagnostics ∨ ¬Stuck d.message
  gaps : ∀ i j, InGap s.tokens s.coverage_gaps i j → InGap s.tokens s'.coverage_gaps i j
  inside : (∀ gap ∈ s.coverage_gaps, gap.span.stop ≤ s.source.length) →
    ∀ gap ∈ s'.coverage_gaps, gap.span.stop ≤ s.source.length
  kinds : ∀ kind, HasGap s.coverage_gaps kind → HasGap s'.coverage_gaps kind
  events : s'.events = s.events ++ es
  grown : Grown s.tokens (Told s.tokens s'.diagnostics) s.index es s'.index
  bad : ∀ i range, s.index ≤ i → i < s'.index → s.tokens[i]? = some (.Error, range) →
    ReportedBad s'.diagnostics range

theorem Told.mono {tokens : List Token} {diagnostics more : List Diagnostic}
    (h : ∀ d ∈ diagnostics, d ∈ more) {kind : NodeKind} {i j : Nat}
    (htold : Told tokens diagnostics kind i j) : Told tokens more kind i j := by
  intro hkind
  rcases htold hkind with ⟨d, hd, hstart⟩ | ⟨d, hd, hstart⟩
  · exact Or.inl ⟨d, h d hd, hstart⟩
  · exact Or.inr ⟨d, h d hd, hstart⟩

namespace Ran

variable {s s' s'' : Parser} {es es' : List Event}

theorem index (h : Ran s s' es) : s.index ≤ s'.index := h.grown.le

theorem refl (s : Parser) : Ran s s [] :=
  ⟨rfl, rfl, rfl, fun _ h => h, fun _ h => Or.inl h, fun _ _ h => h, fun h => h, fun _ h => h,
    by simp, .nil _, fun i _ hi hi' => absurd hi (by omega)⟩

theorem trans (h : Ran s s' es) (h' : Ran s' s'' es') : Ran s s'' (es ++ es') := by
  refine ⟨h'.source.trans h.source, h'.tokens.trans h.tokens, h'.depth.trans h.depth,
    fun d hd => h'.diagnostics d (h.diagnostics d hd), fun d hd => ?_, fun i j hij => ?_,
    fun hin => ?_, fun kind hkind => h'.kinds kind (h.kinds kind hkind), ?_, ?_,
    fun i range hi hi' hget => ?_⟩
  · rcases h'.fresh d hd with hd | hd
    · exact h.fresh d hd
    · exact Or.inr hd
  · have := h'.gaps i j
    rw [h.tokens] at this
    exact this (h.gaps i j hij)
  · have := h'.inside
    rw [h.source] at this
    exact this (h.inside hin)
  · rw [h'.events, h.events, List.append_assoc]
  · have hgrown := h'.grown
    rw [h.tokens] at hgrown
    exact (h.grown.mono fun _ _ _ _ _ _ => Told.mono h'.diagnostics).append hgrown
  · by_cases hmid : i < s'.index
    · obtain ⟨d, hd, hcode⟩ := h.bad i range hi hmid hget
      exact ⟨d, h'.diagnostics d hd, hcode⟩
    · exact h'.bad i range (by omega) hi' (by rw [h.tokens]; exact hget)

end Ran

/-- A state that the productions can go on from, with types that nest so deep. -/
structure Ready (n : Nat) (s : Parser) : Prop where
  index : s.index ≤ s.tokens.length
  tiles : Tiles s.source 0 s.tokens
  depth : s.depth ≤ MAX_PARSE_DEPTH
  fuel : MAX_PARSE_DEPTH < n + s.depth

/-- One state comes after another. -/
def Follows (s s' : Parser) : Prop := ∃ es, Ran s s' es

theorem Follows.trans {s s' s'' : Parser} (h : Follows s s') (h' : Follows s' s'') :
    Follows s s'' := by
  obtain ⟨es, hran⟩ := h
  obtain ⟨es', hran'⟩ := h'
  exact ⟨es ++ es', hran.trans hran'⟩

theorem Follows.index {s s' : Parser} (h : Follows s s') : s.index ≤ s'.index :=
  h.elim fun _ hran => hran.index

theorem Follows.tokens {s s' : Parser} (h : Follows s s') : s'.tokens = s.tokens :=
  h.elim fun _ hran => hran.tokens

theorem Follows.source {s s' : Parser} (h : Follows s s') : s'.source = s.source :=
  h.elim fun _ hran => hran.source

theorem Ready.follows {n : Nat} {s s' : Parser} (hs : Ready n s) (h : Follows s s') :
    Ready n s' := by
  obtain ⟨es, hran⟩ := h
  refine ⟨?_, ?_, ?_, ?_⟩
  · rw [hran.tokens]
    exact hran.grown.bound hs.index
  · rw [hran.source, hran.tokens]
    exact hs.tiles
  · rw [hran.depth]
    exact hs.depth
  · rw [hran.depth]
    exact hs.fuel

/-! ## Steps -/

/-- The nodes that no fact can be read from lie in gaps. -/
def Covered (s s' : Parser) (es : List Event) : Prop :=
  Grown s.tokens (Held s.tokens s'.coverage_gaps) s.index es s'.index

theorem covered_refl (s : Parser) : Covered s s [] := .nil _

theorem Covered.trans {s s' s'' : Parser} {es es' : List Event} (h : Covered s s' es)
    (hran : Ran s s' es) (hran' : Ran s' s'' es') (h' : Covered s' s'' es') :
    Covered s s'' (es ++ es') := by
  unfold Covered at h' ⊢
  rw [hran.tokens] at h'
  refine Grown.append (h.mono fun kind a b _ _ _ hheld hfaulty => ?_) h'
  have hgaps := hran'.gaps a b
  rw [hran.tokens] at hgaps
  exact hgaps (hheld hfaulty)

/-- One state comes after another, and what lies between them is covered. -/
def Clear (s s' : Parser) : Prop := ∃ es, Ran s s' es ∧ Covered s s' es

theorem Clear.follows {s s' : Parser} (h : Clear s s') : Follows s s' :=
  h.elim fun es h => ⟨es, h.1⟩

theorem Clear.trans {s s' s'' : Parser} (h : Clear s s') (h' : Clear s' s'') : Clear s s'' := by
  obtain ⟨es, hran, hcovered⟩ := h
  obtain ⟨es', hran', hcovered'⟩ := h'
  exact ⟨es ++ es', hran.trans hran', hcovered.trans hran hran' hcovered'⟩

/-- What the productions do, where types nest so deep. -/
def flow (n : Nat) : Flow Parser where
  step := Clear
  place := index
  limit := fun s => s.tokens.length
  ready := Ready n
  refl := fun s => ⟨[], Ran.refl s, covered_refl s⟩
  trans := Clear.trans
  forward := fun h => h.follows.index
  same := fun h => congrArg List.length h.follows.tokens
  kept := fun hs h => hs.follows h.follows
  within := Ready.index

/-- A run from this state ends as a step, with this about its answer, about
whether its nodes without facts are covered, and about the state it ends in. -/
def Steps {α : Type} (s : Parser) (p : P α) (post : α → Prop → Parser → Prop) : Prop :=
  Ends p s fun a s' => ∃ es c, Ran s s' es ∧ (c → Covered s s' es) ∧ post a c s'

section Steps

variable {α β : Type} {n : Nat} {s : Parser} {p : P α} {post : α → Prop → Parser → Prop}

theorem Steps.goes {q : α → Parser → Prop} (hp : Steps s p fun a c s' => c ∧ q a s') :
    (flow n).Goes s p q := by
  refine Ends.mono hp ?_
  rintro a s' ⟨es, c, hran, hcovered, hc, hq⟩
  exact ⟨⟨es, hran, hcovered hc⟩, hq⟩

theorem Steps.ofGoes {q : α → Parser → Prop} (hp : (flow n).Goes s p q) :
    Steps s p fun a c s' => c ∧ q a s' := by
  refine Ends.mono hp ?_
  rintro a s' ⟨⟨es, hran, hcovered⟩, hq⟩
  exact ⟨es, True, hran, fun _ => hcovered, trivial, hq⟩

theorem Steps.pure {a : α} (h : post a True s) : Steps s (Pure.pure a) post :=
  Ends.pure ⟨[], True, Ran.refl s, fun _ => covered_refl s, h⟩

theorem Steps.read {f : Parser → β} {g : β → P α} (h : Steps s (g (f s)) post) :
    Steps s (totality.ask f >>= g) post := Ends.read h

theorem Steps.bind {q : α → Prop → Parser → Prop} {f : α → P β}
    {post : β → Prop → Parser → Prop} (hp : Steps s p q)
    (hf : ∀ a c s', Follows s s' → q a c s' →
      Steps s' (f a) fun b c' s'' => post b (c ∧ c') s'') : Steps s (p >>= f) post := by
  refine Ends.bind hp ?_
  rintro a s' ⟨es, c, hran, hcovered, hq⟩
  refine Ends.mono (hf a c s' ⟨es, hran⟩ hq) ?_
  rintro b s'' ⟨es', c', hran', hcovered', hpost⟩
  exact ⟨es ++ es', c ∧ c', hran.trans hran',
    fun hc => (hcovered hc.1).trans hran hran' (hcovered' hc.2), hpost⟩

theorem Steps.mono {post' : α → Prop → Parser → Prop} (hp : Steps s p post)
    (h : ∀ a c s', Follows s s' → post a c s' → post' a c s') : Steps s p post' := by
  refine Ends.mono hp ?_
  rintro a s' ⟨es, c, hran, hcovered, hpost⟩
  exact ⟨es, c, hran, hcovered, h a c s' ⟨es, hran⟩ hpost⟩

/-- What comes after something that is covered. -/
theorem Steps.after {q : α → Parser → Prop} {f : α → P β} {post : β → Prop → Parser → Prop}
    (hp : (flow n).Goes s p q)
    (hf : ∀ a s', Follows s s' → q a s' → Steps s' (f a) post) : Steps s (p >>= f) post := by
  refine Ends.bind hp ?_
  rintro a s' ⟨⟨es, hran, hcovered⟩, hq⟩
  refine Ends.mono (hf a s' ⟨es, hran⟩ hq) ?_
  rintro b s'' ⟨es', c', hran', hcovered', hpost⟩
  exact ⟨es ++ es', c', hran.trans hran',
    fun hc' => hcovered.trans hran hran' (hcovered' hc'), hpost⟩

theorem Steps.cond {c : Prop} [Decidable c] {q : P α} (hp : c → Steps s p post)
    (hq : ¬c → Steps s q post) : Steps s (if c then p else q) post :=
  Ends.cond hp hq

/-- Where the whole of a step lies in one gap, so does every node in it. -/
theorem Steps.rescue {q : α → Parser → Prop} (hs : Ready n s) (hp : Steps s p fun a c s' =>
    (c ∨ InGap s.tokens s'.coverage_gaps s.index s'.index) ∧ q a s') :
    (flow n).Goes s p q := by
  refine Ends.mono hp ?_
  rintro a s' ⟨es, c, hran, hcovered, hc, hq⟩
  refine ⟨⟨es, hran, ?_⟩, hq⟩
  rcases hc with hc | ⟨gap, hmem, hstart, hstop⟩
  · exact hcovered hc
  · have hbound := hran.grown.bound hs.index
    refine hran.grown.mono fun kind a b ha hab hb _ _ => ⟨gap, hmem, ?_, ?_⟩
    · exact Nat.le_trans hstart (hs.tiles.offsetAt_mono ha (by omega))
    · exact Nat.le_trans (hs.tiles.offsetAt_mono hb hbound) hstop

/-! ## Nodes -/

/-- What the state is after an event. -/
def Parser.with (e : Event) (s : Parser) : Parser := { s with events := s.events ++ [e] }

theorem Ready.with {n : Nat} (hs : Ready n s) (e : Event) : Ready n (s.with e) :=
  ⟨hs.index, hs.tiles, hs.depth, hs.fuel⟩

/-- A node is opened, its tokens are used up, it is closed, and the run goes on. The
diagnostic of an error node may come last. -/
theorem Ran.enclosed {kind : NodeKind} {s₁ s' : Parser} {es es' : List Event}
    (inner : kind ≠ .Root) (h : Ran (s.with (.Open (.Node kind))) s₁ es)
    (h' : Ran (s₁.with .Close) s' es')
    (told : Told s.tokens s'.diagnostics kind s.index s₁.index) :
    Ran s s' (.Open (.Node kind) :: es ++ .Close :: es') := by
  have htokens : s₁.tokens = s.tokens := h.tokens
  have hsource : s₁.source = s.source := h.source
  refine ⟨h'.source.trans h.source, h'.tokens.trans h.tokens, h'.depth.trans h.depth,
    fun d hd => h'.diagnostics d (h.diagnostics d hd), fun d hd => ?_, fun i j hij => ?_,
    fun hin => ?_, fun kind hkind => h'.kinds kind (h.kinds kind hkind), ?_, ?_,
    fun i range hi hi' hget => ?_⟩
  · rcases h'.fresh d hd with hd | hd
    · exact h.fresh d hd
    · exact Or.inr hd
  · have hgaps : InGap s₁.tokens s₁.coverage_gaps i j → InGap s₁.tokens s'.coverage_gaps i j :=
      h'.gaps i j
    rw [htokens] at hgaps
    exact hgaps (h.gaps i j hij)
  · have hinside : (∀ gap ∈ s₁.coverage_gaps, gap.span.stop ≤ s₁.source.length) →
        ∀ gap ∈ s'.coverage_gaps, gap.span.stop ≤ s₁.source.length := h'.inside
    rw [hsource] at hinside
    exact hinside (h.inside hin)
  · have hevents : s₁.events = s.events ++ [.Open (.Node kind)] ++ es := h.events
    have hevents' : s'.events = s₁.events ++ [.Close] ++ es' := h'.events
    rw [hevents', hevents]
    simp
  · have hbelow : Grown s.tokens (Told s.tokens s₁.diagnostics) s.index es s₁.index := h.grown
    have hrest : Grown s₁.tokens (Told s₁.tokens s'.diagnostics) s₁.index es' s'.index := h'.grown
    rw [htokens] at hrest
    refine .node inner told (hbelow.mono fun _ _ _ _ _ _ => Told.mono ?_) hrest
    exact fun d hd => h'.diagnostics d hd
  · by_cases hmid : i < s₁.index
    · obtain ⟨d, hd, hcode⟩ := h.bad i range hi hmid hget
      exact ⟨d, h'.diagnostics d hd, hcode⟩
    · refine h'.bad i range (Nat.le_of_not_lt hmid) hi' ?_
      show s₁.tokens[i]? = _
      rw [htokens]
      exact hget

/-- A node whose diagnostic and whose gap are left to what follows it. -/
theorem Steps.settled {kind : NodeKind} {q : α → Prop → Parser → Prop} {f : α → P β}
    {post : β → Prop → Parser → Prop} (inner : kind ≠ .Root)
    (hp : Steps (s.with (.Open (.Node kind))) p q)
    (hf : ∀ a c s₁, Follows (s.with (.Open (.Node kind))) s₁ → q a c s₁ →
      Steps (s₁.with .Close) (f a) fun b c' s' =>
        Told s.tokens s'.diagnostics kind s.index s₁.index ∧
          (c' → Held s.tokens s'.coverage_gaps kind s.index s₁.index) ∧ post b (c ∧ c') s') :
    Steps s (node kind p >>= f) post := by
  have hnode : (node kind p >>= f) = event (.Open (.Node kind)) >>= fun _ => p >>= fun a =>
      event .Close >>= fun _ => f a := by
    simp only [node, bind_assoc, pure_bind]
  rw [hnode]
  refine Ends.bind (m := fun _ s' => s' = s.with (.Open (.Node kind))) (Ends.change rfl) ?_
  rintro _ _ rfl
  refine Ends.bind hp ?_
  rintro a s₁ ⟨es, c, hran, hcovered, hq⟩
  refine Ends.bind (m := fun _ s' => s' = s₁.with .Close) (Ends.change rfl) ?_
  rintro _ _ rfl
  refine Ends.mono (hf a c s₁ ⟨es, hran⟩ hq) ?_
  rintro b s' ⟨es', c', hran', hcovered', htold, hheld, hpost⟩
  refine ⟨_, c ∧ c', Ran.enclosed inner hran hran' htold, fun hc => ?_, hpost⟩
  have hbelow : Grown s.tokens (Held s.tokens s₁.coverage_gaps) s.index es s₁.index :=
    hcovered hc.1
  have hrest : Grown s₁.tokens (Held s₁.tokens s'.coverage_gaps) s₁.index es' s'.index :=
    hcovered' hc.2
  have htokens : s₁.tokens = s.tokens := hran.tokens
  rw [htokens] at hrest
  refine .node inner (hheld hc.2) (hbelow.mono fun kind a b _ _ _ hin hfaulty => ?_) hrest
  have hgaps : InGap s₁.tokens s₁.coverage_gaps a b → InGap s₁.tokens s'.coverage_gaps a b :=
    hran'.gaps a b
  rw [htokens] at hgaps
  exact hgaps (hin hfaulty)

/-- A node is a step when what it holds is one. -/
theorem Steps.node {kind : NodeKind} (inner : kind ≠ .Root)
    (told : kind = .ErrorNode → Reported s.diagnostics (offsetAt s.tokens s.index))
    (hp : Steps (s.with (.Open (.Node kind))) p fun a c s' =>
      post a (c ∧ ¬Faulty kind) (s'.with .Close)) : Steps s (node kind p) post := by
  rw [← bind_pure (domain.node kind p)]
  refine Steps.settled inner hp fun a c s₁ hfollows hq => ?_
  obtain ⟨es, hran⟩ := hfollows
  refine Ends.pure ⟨[], ¬Faulty kind, Ran.refl _, fun _ => covered_refl _, fun hkind => ?_,
    fun hfine hfaulty => absurd hfaulty hfine, hq⟩
  obtain ⟨d, hd, hstart⟩ := told hkind
  exact Or.inl ⟨d, hran.diagnostics d hd, hstart⟩

/-- A node that facts can be read from. -/
theorem goes_node {kind : NodeKind} {q : α → Parser → Prop} (inner : kind ≠ .Root)
    (fine : ¬Faulty kind) (hp : (flow n).Goes (s.with (.Open (.Node kind))) p fun a s' =>
      q a (s'.with .Close)) : (flow n).Goes s (node kind p) q := by
  refine Steps.goes (Steps.node inner (fun h => absurd (Or.inl h) fine) ?_)
  exact Steps.mono (Steps.ofGoes hp) fun a c s' _ h => ⟨⟨h.1, fine⟩, h.2⟩

/-- One node over the tokens that were used up. -/
def Whole (s : Parser) (kind : NodeKind) (s' : Parser) : Prop :=
  ∃ es, s'.events = s.events ++ (.Open (.Node kind) :: es ++ [.Close]) ∧
    Grown s.tokens (fun _ _ _ => True) s.index es s'.index

theorem whole_node {kind : NodeKind} {q : α → Parser → Prop} (hs : Ready n s)
    (hp : (flow n).Goes (s.with (.Open (.Node kind))) p q) :
    Ends (node kind p) s fun _ s' => Whole s kind s' ∧ Ready n s' := by
  refine Ends.bind (m := fun _ s' => s' = s.with (.Open (.Node kind))) (Ends.change rfl) ?_
  rintro _ _ rfl
  refine Ends.bind hp ?_
  rintro a s₁ ⟨⟨es, hran, -⟩, -⟩
  refine Ends.bind (m := fun _ s' => s' = s₁.with .Close) (Ends.change rfl) ?_
  rintro _ _ rfl
  have hs₁ : Ready n s₁ := (hs.with _).follows ⟨es, hran⟩
  have hevents : s₁.events = s.events ++ [.Open (.Node kind)] ++ es := hran.events
  refine Ends.pure ⟨⟨es, ?_, hran.grown.mono fun _ _ _ _ _ _ _ => trivial⟩, hs₁.with _⟩
  show s₁.events ++ [.Close] = _
  rw [hevents]
  simp

theorem safe_node {kind : NodeKind} (inner : kind ≠ .Root) (fine : ¬Faulty kind)
    (hp : (flow n).Safe p) : (flow n).Safe (node kind p) := fun _ hs =>
  goes_node inner fine (hp _ (Ready.with hs _))

end Steps

/-! ## Loops -/

section Loops

variable {β : Type} {n : Nat} {s : Parser}

/-- A loop without a budget ends when each turn that asks for another uses a token up. -/
theorem goes_loopWith {x : β} {body : β → P (β × Bool)} {i q : β → Parser → Prop}
    (hs : Ready n s) (hx : i x s)
    (hbody : ∀ x s, Ready n s → i x s → (flow n).Goes s (body x) fun r s' =>
      (r.2 = true → s.index < s'.index ∧ i r.1 s') ∧ (r.2 = false → q r.1 s')) :
    (flow n).Goes s (loopWith x body) q :=
  Flow.Goes.read (Flow.Goes.iterate hbody hs hx (Nat.lt_succ_self _))

theorem safe_loopWith {x : β} {body : β → P (β × Bool)}
    (h : ∀ lo x, (flow n).Reaches lo (lo + 1) (·.2 = true) (body x)) :
    (flow n).Safe (loopWith x body) := by
  intro s hs
  refine goes_loopWith (i := fun _ _ => True) hs trivial fun x s hs _ => ?_
  refine Flow.Goes.mono (h s.index x s hs (Nat.le_refl _)) fun r s' _ hr => ?_
  exact ⟨fun hagain => ⟨hr hagain, trivial⟩, fun _ => trivial⟩

/-- A loop with a budget ends. What it keeps may depend on the turns that are left. -/
theorem ends_budgeted {i : Nat → β → Parser → Prop} {q : β → Parser → Prop}
    {body : β → P (β × Bool)}
    (hbody : ∀ k x s, i (k + 1) x s → Ends (body x) s fun r s' =>
      if r.2 then i k r.1 s' else q r.1 s')
    (hout : ∀ x s, i 0 x s → q x s) {turns : Nat} {x : β} {s : Parser} (h : i turns x s) :
    Ends (budgeted body turns x) s q := by
  induction turns generalizing x s with
  | zero => exact Ends.pure (hout x s h)
  | succ turns ih =>
    refine Ends.bind (hbody turns x s h) ?_
    rintro ⟨x', again⟩ s' hturn
    cases again with
    | false => exact Ends.pure hturn
    | true => exact ih hturn

/-- A loop with a budget for all the tokens ends because it is through, when each
turn that asks for another uses one up. -/
theorem goes_budgetWith {x : β} {body : β → P (β × Bool)} {i q : β → Parser → Prop}
    (hs : Ready n s) (hx : i x s)
    (hbody : ∀ x s, Ready n s → i x s → (flow n).Goes s (body x) fun r s' =>
      (r.2 = true → s.index < s'.index ∧ i r.1 s') ∧ (r.2 = false → q r.1 s'))
    (hend : ∀ x s, Ready n s → i x s → s.index = s.tokens.length → q x s) :
    (flow n).Goes s (budgetWith x body) q := by
  refine Ends.read (ends_budgeted
    (i := fun k x s' => Clear s s' ∧ s.tokens.length ≤ s'.index + k ∧ i x s')
    (fun k x s' hinv => ?_) (fun x s' hinv => ?_) ⟨(flow n).refl s, Nat.le_add_left _ _, hx⟩)
  · obtain ⟨hclear, hleft, hkept⟩ := hinv
    refine Ends.mono (hbody x s' (hs.follows hclear.follows) hkept) ?_
    rintro ⟨x', again⟩ s'' ⟨hclear', hmore, hdone⟩
    cases again with
    | true =>
      obtain ⟨hless, hkept'⟩ : s'.index < s''.index ∧ i x' s'' := hmore rfl
      exact ⟨hclear.trans hclear', by omega, hkept'⟩
    | false => exact ⟨hclear.trans hclear', hdone rfl⟩
  · obtain ⟨hclear, hleft, hkept⟩ := hinv
    have hs' := hs.follows hclear.follows
    have hbound := hs'.index
    have htokens := hclear.follows.tokens
    refine ⟨hclear, hend x s' hs' hkept ?_⟩
    rw [htokens] at hbound ⊢
    omega

theorem safe_budgetWith {x : β} {body : β → P (β × Bool)} (h : ∀ x, (flow n).Safe (body x)) :
    (flow n).Safe (budgetWith x body) := by
  intro s hs
  refine Ends.read (ends_budgeted (i := fun _ _ s' => Clear s s')
    (fun _ x s' hinv => ?_) (fun _ _ hinv => ⟨hinv, trivial⟩) ((flow n).refl s))
  refine Ends.mono (h x s' (hs.follows hinv.follows)) ?_
  rintro ⟨x', again⟩ s'' ⟨hclear, -⟩
  cases again with
  | true => exact hinv.trans hclear
  | false => exact ⟨hinv.trans hclear, trivial⟩

theorem safe_budget {body : P Bool} (h : (flow n).Safe body) : (flow n).Safe (budget body) :=
  safe_budgetWith fun _ => Flow.Safe.bind h fun _ => Flow.Safe.pure

end Loops

/-! ## Gaps -/

theorem textRangeNew_eq {start stop : Nat} (h : start ≤ stop) :
    textRangeNew start stop = some ⟨start, stop, h⟩ := dif_pos h

/-- The span of a gap is one, and it goes from the one token to the other. -/
theorem gapSpan_ends {n : Nat} {s : Parser} (hs : Ready n s) {start : Nat}
    (hstart : start ≤ s.index) : ∃ span, gapSpan start s = some span ∧
      span.start ≤ offsetAt s.tokens start ∧ offsetAt s.tokens s.index ≤ span.stop ∧
      span.stop ≤ s.source.length := by
  have hindex := hs.index
  have hend := hs.tiles.offsetAt_end
  have hbound : ∀ i, i ≤ s.tokens.length → offsetAt s.tokens i ≤ s.source.length := by
    intro i hi
    rw [← hend]
    exact hs.tiles.offsetAt_mono hi (Nat.le_refl _)
  cases hget : s.tokens[start]? with
  | none =>
    -- the parser stands at the end, and the gap is empty
    have hlen : s.tokens.length ≤ start := by simpa using hget
    obtain rfl : start = s.index := by omega
    have hspan : offsetAt s.tokens s.index = (m3.Parser.eofSpan s.tokens).start := by
      unfold offsetAt spanAt
      rw [hget]
    refine ⟨m3.Parser.eofSpan s.tokens, by unfold gapSpan; rw [hget], ?_, ?_, ?_⟩
    · exact Nat.le_of_eq hspan.symm
    · rw [hspan]
      exact (m3.Parser.eofSpan s.tokens).ordered
    · have hempty : (m3.Parser.eofSpan s.tokens).stop = (m3.Parser.eofSpan s.tokens).start := by
        unfold m3.Parser.eofSpan
        cases s.tokens.getLast? <;> rfl
      rw [hempty, ← hspan]
      exact hbound _ hindex
  | some token =>
    obtain ⟨kind, range⟩ := token
    have hlt := (List.getElem?_eq_some_iff.mp hget).1
    obtain ⟨⟨kind', last⟩, hlast⟩ : ∃ token, s.tokens[s.index - 1]? = some token :=
      ⟨_, List.getElem?_eq_getElem (by omega)⟩
    have hrange := Tiles.start_eq hget
    have hstop := hs.tiles.stop_eq hlast
    have hmono : offsetAt s.tokens s.index ≤ last.stop := by
      rw [hstop]
      exact hs.tiles.offsetAt_mono (by omega) (by omega)
    have hordered : range.start ≤ last.stop := by
      rw [hrange]
      exact Nat.le_trans (hs.tiles.offsetAt_mono hstart hindex) hmono
    refine ⟨⟨range.start, last.stop, hordered⟩, ?_, Nat.le_of_eq hrange, hmono, ?_⟩
    · unfold gapSpan
      rw [hget]
      simp only [hlast]
      exact textRangeNew_eq hordered
    · show last.stop ≤ _
      rw [hstop]
      exact hbound _ (by omega)

/-- The gaps that were there are still covered by gaps of their kinds, and so is the
new one. -/
theorem addGap_ends (gaps : List DomainCoverageGap) (gap : DomainCoverageGap) :
    ∃ gaps', addGap gaps gap = some gaps' ∧
      (∀ g, g ∈ gaps ∨ g = gap → ∃ g' ∈ gaps', g'.span.start ≤ g.span.start ∧
        g.span.stop ≤ g'.span.stop ∧ g'.kind = g.kind) ∧
      ∀ m, (∀ g ∈ gaps, g.span.stop ≤ m) → gap.span.stop ≤ m → ∀ g ∈ gaps', g.span.stop ≤ m := by
  have hpush : (∀ g, g ∈ gaps ∨ g = gap → ∃ g' ∈ gaps ++ [gap], g'.span.start ≤ g.span.start ∧
        g.span.stop ≤ g'.span.stop ∧ g'.kind = g.kind) ∧
      ∀ m, (∀ g ∈ gaps, g.span.stop ≤ m) → gap.span.stop ≤ m →
        ∀ g ∈ gaps ++ [gap], g.span.stop ≤ m := by
    constructor
    · intro g hg
      exact ⟨g, by simpa using hg, Nat.le_refl _, Nat.le_refl _, rfl⟩
    · intro m hm hgap g hg
      rcases List.mem_append.mp hg with hg | hg
      · exact hm g hg
      · obtain rfl := List.mem_singleton.mp hg
        exact hgap
  unfold addGap
  cases hlast : gaps.getLast? with
  | none => exact ⟨_, rfl, hpush⟩
  | some previous =>
    simp only
    by_cases htouch : previous.kind = gap.kind ∧ gap.span.start ≤ previous.span.stop ∧
        previous.span.start ≤ gap.span.stop
    · rw [if_pos htouch]
      have hordered : min previous.span.start gap.span.start ≤
          max previous.span.stop gap.span.stop := by
        have := gap.span.ordered
        omega
      rw [textRangeNew_eq hordered]
      refine ⟨_, rfl, fun g hg => ?_, fun m hm hgap g hg => ?_⟩
      · have hsplit := List.getLast?_eq_some_iff.mp hlast
        obtain ⟨front, rfl⟩ := hsplit
        rw [List.dropLast_concat]
        have hmerged : ∀ g : DomainCoverageGap, g = previous ∨ g = gap →
            min previous.span.start gap.span.start ≤ g.span.start ∧
              g.span.stop ≤ max previous.span.stop gap.span.stop ∧ previous.kind = g.kind := by
          rintro g (rfl | rfl)
          · exact ⟨Nat.min_le_left _ _, Nat.le_max_left _ _, rfl⟩
          · exact ⟨Nat.min_le_right _ _, Nat.le_max_right _ _, htouch.1⟩
        by_cases hfront : g ∈ front
        · exact ⟨g, List.mem_append_left _ hfront, Nat.le_refl _, Nat.le_refl _, rfl⟩
        · refine ⟨_, List.mem_append_right _ (List.mem_singleton_self _), hmerged g ?_⟩
          rcases hg with hg | hg
          · rcases List.mem_append.mp hg with hg | hg
            · exact absurd hg hfront
            · exact Or.inl (List.mem_singleton.mp hg)
          · exact Or.inr hg
      · have hprevious := hm previous (List.mem_of_getLast? hlast)
        rcases List.mem_append.mp hg with hg | hg
        · exact hm g (List.dropLast_subset gaps hg)
        · obtain rfl := List.mem_singleton.mp hg
          exact Nat.max_le.mpr ⟨hprevious, hgap⟩
    · rw [if_neg htouch]
      exact ⟨_, rfl, hpush⟩

/-- The tokens from a place up to the current one are put in a gap. -/
theorem markGapFrom_goes {n : Nat} {s : Parser} (hs : Ready n s) {start : Nat}
    (hstart : start ≤ s.index) (kind : DomainCoverageGapKind) :
    (flow n).Goes s (markGapFrom start kind) fun _ s' =>
      s'.index = s.index ∧ s'.events = s.events ∧
        InGap s.tokens s'.coverage_gaps start s.index ∧ HasGap s'.coverage_gaps kind := by
  obtain ⟨span, hspan, hfrom, hto, hbound⟩ := gapSpan_ends hs hstart
  obtain ⟨gaps, hgaps, hkept, hinside⟩ := addGap_ends s.coverage_gaps ⟨span, kind⟩
  let s' : Parser := { s with coverage_gaps := gaps }
  refine ⟨(), s', ?_, ⟨[], ?_, .nil _⟩, rfl, rfl, ?_, ?_⟩
  · unfold markGapFrom
    rw [hspan]
    show (addGap s.coverage_gaps ⟨span, kind⟩).bind _ = _
    rw [hgaps]
    rfl
  · refine ⟨rfl, rfl, rfl, fun _ h => h, fun _ h => Or.inl h, ?_, ?_, ?_, by simp [s'],
      .nil _, fun i _ hi hi' => absurd hi (Nat.not_le_of_lt hi')⟩
    · rintro i j ⟨gap, hmem, hi, hj⟩
      obtain ⟨gap', hmem', hi', hj', -⟩ := hkept gap (Or.inl hmem)
      exact ⟨gap', hmem', Nat.le_trans hi' hi, Nat.le_trans hj hj'⟩
    · intro hin
      exact hinside _ hin hbound
    · rintro kind ⟨gap, hmem, rfl⟩
      obtain ⟨gap', hmem', -, -, hkind⟩ := hkept gap (Or.inl hmem)
      exact ⟨gap', hmem', hkind⟩
  · obtain ⟨gap', hmem', hi', hj', -⟩ := hkept _ (Or.inr rfl)
    exact ⟨gap', hmem', Nat.le_trans hi' hfrom, Nat.le_trans hto hj'⟩
  · obtain ⟨gap', hmem', -, -, hkind⟩ := hkept _ (Or.inr rfl)
    exact ⟨gap', hmem', hkind⟩

end analyzer.domain
