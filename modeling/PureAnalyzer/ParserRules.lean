-- What one step of the parser may do: it uses tokens up in their order, its
-- events make whole nodes over them, and an error node or a bad token comes
-- with a diagnostic. A rule for each way in which productions are put together.
import PureAnalyzer.Parser

namespace analyzer.m3

open fragments model cst linkedarena totality analyzer.m3.Parser

/-! ## What the events of a step build -/

/-- The span that an error at the token gets. -/
def spanAt (tokens : List Token) (i : Nat) : TextRange :=
  match tokens[i]? with
  | some (_, range) => range
  | none => eofSpan tokens

theorem currentSpan_eq (s : Parser) : s.currentSpan = spanAt s.tokens s.index := rfl

/-- Some diagnostic is about this offset. -/
def Reported (diagnostics : List Diagnostic) (offset : Nat) : Prop :=
  ∃ d ∈ diagnostics, d.primary.span.start = offset

/-- Some diagnostic is about a bad token with this range. -/
def ReportedBad (diagnostics : List Diagnostic) (range : TextRange) : Prop :=
  ∃ d ∈ diagnostics, d.code = .BadToken ∧ d.primary.span = range

/-- The events are whole nodes over the tokens between two places, and each
error among them has its diagnostic. -/
inductive Grown (tokens : List Token) (diagnostics : List Diagnostic) :
    Nat → List Event → Nat → Prop where
  | nil (i : Nat) : Grown tokens diagnostics i [] i
  | token {i j : Nat} {es : List Event} {kind : TokenKind} {range : TextRange}
      (here : tokens[i]? = some (kind, range))
      (bad : kind = .Error → ReportedBad diagnostics range)
      (rest : Grown tokens diagnostics (i + 1) es j) : Grown tokens diagnostics i (.Advance :: es) j
  | node {i j k : Nat} {es es' : List Event} {kind : NodeKind} (inner : kind ≠ .Root)
      (error : kind = .ErrorNode → Reported diagnostics (spanAt tokens i).start)
      (below : Grown tokens diagnostics i es j) (rest : Grown tokens diagnostics j es' k) :
      Grown tokens diagnostics i (.Open (.Node kind) :: es ++ .Close :: es') k

namespace Grown

variable {tokens : List Token} {diagnostics : List Diagnostic} {i j k : Nat} {es es' : List Event}

theorem append (h : Grown tokens diagnostics i es j) (h' : Grown tokens diagnostics j es' k) :
    Grown tokens diagnostics i (es ++ es') k := by
  induction h with
  | nil => exact h'
  | token here bad _ ih => exact token here bad (ih h')
  | node inner error below _ _ ih =>
    have hnode := node inner error below (ih h')
    simpa using hnode

theorem mono (h : Grown tokens diagnostics i es j) {more : List Diagnostic}
    (hmore : ∀ d ∈ diagnostics, d ∈ more) : Grown tokens more i es j := by
  induction h with
  | nil => exact nil _
  | token here bad _ ih =>
    refine token here (fun hkind => ?_) ih
    obtain ⟨d, hd, hcode⟩ := bad hkind
    exact ⟨d, hmore d hd, hcode⟩
  | node inner error _ _ ih ih' =>
    refine node inner (fun hkind => ?_) ih ih'
    obtain ⟨d, hd, hstart⟩ := error hkind
    exact ⟨d, hmore d hd, hstart⟩

theorem le (h : Grown tokens diagnostics i es j) : i ≤ j := by
  induction h with
  | nil => exact Nat.le_refl _
  | token _ _ _ ih => omega
  | node _ _ _ _ ih ih' => omega

theorem bound (h : Grown tokens diagnostics i es j) (hi : i ≤ tokens.length) :
    j ≤ tokens.length := by
  induction h with
  | nil => exact hi
  | token here _ _ ih =>
    have hlt := (List.getElem?_eq_some_iff.mp here).1
    exact ih (by omega)
  | node _ _ _ _ ih ih' => exact ih' (ih hi)

end Grown

/-! ## What a step does to the state -/

/-- From one state to another: the events of the step, behind those that are
put ahead of them, are whole nodes over the tokens it used up. -/
structure Ran (ahead : List Event) (s s' : Parser) : Prop where
  tokens : s'.tokens = s.tokens
  depth : s'.depth = s.depth
  index : s.index ≤ s'.index
  diagnostics : ∀ d ∈ s.diagnostics, d ∈ s'.diagnostics
  events : ∀ l, Arena.View s.events l → ∃ l' es, Arena.View s'.events (l ++ l') ∧
    l'.map Prod.snd = ahead ++ es ∧ Grown s.tokens s'.diagnostics s.index es s'.index

/-- A state that the productions can go on from. -/
structure Good (s : Parser) : Prop where
  index : s.index ≤ s.tokens.length
  depth : s.depth ≤ MAX_RECURSION_DEPTH
  events : ∃ l, l ≠ [] ∧ Arena.View s.events l

theorem Ran.refl (s : Parser) : Ran [] s s :=
  ⟨rfl, rfl, Nat.le_refl _, fun _ h => h, fun l h => ⟨[], [], by simpa using h, rfl, .nil _⟩⟩

theorem Ran.trans {ahead : List Event} {s s' s'' : Parser} (h : Ran ahead s s')
    (h' : Ran [] s' s'') : Ran ahead s s'' := by
  refine ⟨h'.tokens.trans h.tokens, h'.depth.trans h.depth,
    Nat.le_trans h.index h'.index, fun d hd => h'.diagnostics d (h.diagnostics d hd), fun l hl => ?_⟩
  obtain ⟨l₁, es₁, hview₁, hmap₁, hgrown₁⟩ := h.events l hl
  obtain ⟨l₂, es₂, hview₂, hmap₂, hgrown₂⟩ := h'.events _ hview₁
  refine ⟨l₁ ++ l₂, es₁ ++ es₂, by simpa using hview₂, by simp [hmap₁, hmap₂], ?_⟩
  rw [h.tokens] at hgrown₂
  exact (hgrown₁.mono h'.diagnostics).append hgrown₂

theorem Ran.good {ahead : List Event} {s s' : Parser} (h : Ran ahead s s') (hs : Good s) :
    Good s' := by
  obtain ⟨l, hne, hview⟩ := hs.events
  obtain ⟨l', es, hview', -, hgrown⟩ := h.events l hview
  refine ⟨?_, ?_, l ++ l', by simp [hne], hview'⟩
  · rw [h.tokens]
    exact hgrown.bound hs.index
  · rw [h.depth]
    exact hs.depth

/-- What the state is after an event. -/
def Parser.with (e : Event) (s : Parser) : Parser := { s with events := s.events.append e }

theorem Ran.opened (kind : NodeKind) (s : Parser) :
    Ran [.Open (.Node kind)] s (s.with (.Open (.Node kind))) :=
  ⟨rfl, rfl, Nat.le_refl _, fun _ h => h, fun _ h => ⟨_, [], h.append _, rfl, .nil _⟩⟩

/-- A node is closed. -/
theorem Ran.closed {kind : NodeKind} {s s' : Parser} (h : Ran [.Open (.Node kind)] s s')
    (inner : kind ≠ .Root)
    (error : kind = .ErrorNode → Reported s'.diagnostics s.currentSpan.start) :
    Ran [] s (s'.with .Close) := by
  refine ⟨h.tokens, h.depth, h.index, h.diagnostics, fun l hl => ?_⟩
  obtain ⟨l', es, hview, hmap, hgrown⟩ := h.events l hl
  refine ⟨_, _, by simpa [Parser.with] using hview.append .Close, ?_,
    .node inner error hgrown (.nil _)⟩
  simp [hmap]

/-- A node is opened where the step began. -/
theorem Ran.wrapped {s s' : Parser} (h : Ran [] s s') {anchor : Nat}
    (hanchor : s.events.tail = some anchor) (kind : NodeKind) :
    Ran [.Open (.Node kind)] s
      { s' with events := s'.events.insertAfter anchor (.Open (.Node kind)) } := by
  refine ⟨h.tokens, h.depth, h.index, h.diagnostics, fun l hl => ?_⟩
  obtain ⟨l', es, hview, hmap, hgrown⟩ := h.events l hl
  exact ⟨_, es, hl.insertBehind hview hanchor _, by simpa using hmap, hgrown⟩

theorem Ran.diagnosed (s : Parser) (d : Diagnostic) :
    Ran [] s { s with diagnostics := s.diagnostics ++ [d] } :=
  ⟨rfl, rfl, Nat.le_refl _, fun _ h => List.mem_append_left _ h,
    fun l h => ⟨[], [], by simpa using h, rfl, .nil _⟩⟩

/-- A token is used up. -/
theorem Ran.advanced {s : Parser} {kind : TokenKind} {range : TextRange}
    (here : s.tokens[s.index]? = some (kind, range))
    (bad : kind = .Error → ReportedBad s.diagnostics range) :
    Ran [] s { s.with .Advance with index := s.index + 1 } :=
  ⟨rfl, rfl, Nat.le_succ _, fun _ h => h,
    fun _ h => ⟨_, _, h.append .Advance, rfl, .token here bad (.nil _)⟩⟩

/-! ## Steps -/

/-- A run from this state ends as a step, with this about its answer and the
token it stops at. -/
def Steps {α : Type} (s : Parser) (p : P α) (post : α → Nat → Prop) : Prop :=
  Ends p s fun a s' => Ran [] s s' ∧ post a s'.index

section Steps

variable {α β : Type} {s : Parser} {p : P α} {post : α → Nat → Prop}

theorem Steps.pure {a : α} (h : post a s.index) : Steps s (Pure.pure a) post :=
  Ends.pure ⟨Ran.refl s, h⟩

theorem Steps.ask {f : Parser → α} (h : post (f s) s.index) : Steps s (ask f) post :=
  Ends.ask ⟨Ran.refl s, h⟩

/-- A program that starts by reading the state. -/
theorem Steps.read {f : Parser → β} {g : β → P α} (h : Steps s (g (f s)) post) :
    Steps s (totality.ask f >>= g) post :=
  Ends.bind (m := fun b s' => b = f s ∧ s' = s) (Ends.ask ⟨rfl, rfl⟩)
    (by rintro _ _ ⟨rfl, rfl⟩; exact h)

theorem Steps.bind {q : α → Nat → Prop} {f : α → P β} {post' : β → Nat → Prop}
    (hp : Steps s p q) (hf : ∀ a s', Ran [] s s' → q a s'.index → Steps s' (f a) post') :
    Steps s (p >>= f) post' := by
  refine Ends.bind hp fun a s' h => (hf a s' h.1 h.2).mono fun b s'' h' => ?_
  exact ⟨h.1.trans h'.1, h'.2⟩

theorem Steps.mono {post' : α → Nat → Prop} (hp : Steps s p post)
    (h : ∀ a i, s.index ≤ i → post a i → post' a i) : Steps s p post' :=
  Ends.mono hp fun a s' hs' => ⟨hs'.1, h a s'.index hs'.1.index hs'.2⟩

theorem Steps.cond {c : Prop} [Decidable c] {q : P α} (hp : c → Steps s p post)
    (hq : ¬c → Steps s q post) : Steps s (if c then p else q) post :=
  Ends.cond hp hq

theorem Steps.when {c : Bool} {p : P Unit} {post : Unit → Nat → Prop}
    (hp : c = true → Steps s p post) (hq : c = false → post () s.index) :
    Steps s (when c p) post :=
  Ends.when hp fun h => ⟨Ran.refl s, hq h⟩

/-- A node is a step when what it holds is one. -/
theorem Steps.node {kind : NodeKind} (inner : kind ≠ .Root)
    (error : kind = .ErrorNode → Reported s.diagnostics s.currentSpan.start)
    (hp : Steps (s.with (.Open (.Node kind))) p post) : Steps s (node kind p) post := by
  refine Ends.bind (m := fun _ s' => s' = s.with (.Open (.Node kind))) (Ends.change rfl) ?_
  rintro _ _ rfl
  refine Ends.bind hp fun a s' h => ?_
  refine Ends.bind (m := fun _ s'' => s'' = s'.with .Close) (Ends.change rfl) ?_
  rintro _ _ rfl
  refine Ends.pure ⟨((Ran.opened kind s).trans h.1).closed inner fun hkind => ?_, h.2⟩
  obtain ⟨d, hd, hstart⟩ := error hkind
  exact ⟨d, h.1.diagnostics d hd, hstart⟩

/-- A loop of the parser ends when each turn that asks for another uses a token up. -/
theorem ends_loopWith {i q : β → Parser → Prop} {body : β → P (β × Bool)}
    (hbody : ∀ x s, i x s → Ends (body x) s fun r s' =>
      s'.tokens = s.tokens ∧ s'.index ≤ s'.tokens.length ∧
        if r.2 then i r.1 s' ∧ s.index < s'.index else q r.1 s')
    {x : β} (hx : i x s) : Ends (loopWith x body) s q := by
  refine Ends.bind (m := fun turns s' => s' = s ∧ turns = s.tokens.length - s.index + 1)
    (Ends.ask ⟨rfl, rfl⟩) ?_
  rintro _ _ ⟨rfl, rfl⟩
  refine Ends.iterate (m := fun s => s.tokens.length - s.index) (i := i)
    (fun x s hinv => (hbody x s hinv).mono ?_) hx (Nat.lt_succ_self _)
  rintro ⟨x', again⟩ s' ⟨htokens, hbound, hturn⟩
  cases again with
  | false => exact hturn
  | true =>
    obtain ⟨hinv', hless⟩ := hturn
    refine ⟨hinv', ?_⟩
    rw [htokens] at hbound ⊢
    omega

end Steps

/-! ## Productions that never get stuck -/

/-- How much deeper and further a parse can still go. -/
def weight (s : Parser) : Nat := (MAX_RECURSION_DEPTH - s.depth) + (s.tokens.length - s.index)

/-- A state that productions with so much fuel can go on from. -/
structure Ready (n : Nat) (s : Parser) : Prop where
  good : Good s
  fuel : weight s < n

/-- The production is a step. -/
def Safe {α : Type} (n : Nat) (p : P α) : Prop := ∀ s, Ready n s → Steps s p fun _ _ => True

/-- The production is a step, and with such an answer it gets from one place to the other. -/
def Reaches {α : Type} (n lo hi : Nat) (done : α → Prop) (p : P α) : Prop :=
  ∀ s, Ready n s → lo ≤ s.index → Steps s p fun a i => done a → hi ≤ i

/-- The production is a step, and when it answers yes it used a token up. -/
def Eats (n : Nat) (p : P Bool) : Prop := ∀ lo, Reaches n lo (lo + 1) (· = true) p

theorem Ready.ran {n : Nat} {ahead : List Event} {s s' : Parser} (hs : Ready n s)
    (h : Ran ahead s s') : Ready n s' := by
  refine ⟨h.good hs.good, ?_⟩
  have hfuel := hs.fuel
  have hindex := h.index
  unfold weight at hfuel ⊢
  rw [h.tokens, h.depth]
  omega

/-- Past a token, less fuel will do. -/
theorem Ready.past {n : Nat} {ahead : List Event} {s s' : Parser} (hs : Ready n s)
    (h : Ran ahead s s') (hless : s.index < s'.index) : Ready (n - 1) s' := by
  have hgood := h.good hs.good
  refine ⟨hgood, ?_⟩
  have hfuel := hs.fuel
  have hbound := hgood.index
  unfold weight at hfuel ⊢
  rw [h.tokens] at hbound ⊢
  rw [h.depth]
  omega

theorem Ready.mono {n m : Nat} {s : Parser} (hs : Ready n s) (h : n ≤ m) : Ready m s :=
  ⟨hs.good, Nat.lt_of_lt_of_le hs.fuel h⟩

theorem Ready.opened {n : Nat} {s : Parser} (hs : Ready n s) (kind : NodeKind) :
    Ready n (s.with (.Open (.Node kind))) := hs.ran (Ran.opened kind s)

section Safe

variable {α β : Type} {n m lo hi : Nat} {p : P α} {done : α → Prop}

theorem Safe.mono (h : Safe m p) (hle : n ≤ m) : Safe n p := fun _ hs => h _ (hs.mono hle)

theorem Safe.pure {a : α} : Safe n (Pure.pure a : P α) := fun _ _ => Steps.pure trivial

theorem Safe.ask {f : Parser → α} : Safe n (ask f) := fun _ _ => Steps.ask trivial

theorem Safe.bind {f : α → P β} (hp : Safe n p) (hf : ∀ a, Safe n (f a)) : Safe n (p >>= f) :=
  fun s hs => (hp s hs).bind fun a s' h _ => hf a s' (hs.ran h)

theorem Safe.read {f : Parser → β} {g : β → P α} (h : ∀ b, Safe n (g b)) :
    Safe n (totality.ask f >>= g) := Safe.ask.bind h

theorem Safe.cond {c : Prop} [Decidable c] {q : P α} (hp : Safe n p) (hq : Safe n q) :
    Safe n (if c then p else q) := fun s hs => Steps.cond (fun _ => hp s hs) fun _ => hq s hs

theorem Safe.when {c : Bool} {p : P Unit} (hp : Safe n p) : Safe n (when c p) :=
  fun s hs => Steps.when (fun _ => hp s hs) fun _ => trivial

theorem Safe.node {kind : NodeKind} (inner : kind ≠ .Root) (fine : kind ≠ .ErrorNode)
    (hp : Safe n p) : Safe n (node kind p) := fun _ hs =>
  Steps.node inner (fun h => absurd h fine) (hp _ (hs.opened kind))

theorem Reaches.safe (hp : Reaches n 0 hi done p) : Safe n p := fun s hs =>
  (hp s hs (Nat.zero_le _)).mono fun _ _ _ _ => trivial

/-- Where the goal is reached, any step will do. -/
theorem Safe.reaches (hp : Safe n p) : Reaches n hi hi done p := fun s hs hlo =>
  (hp s hs).mono fun _ _ h _ _ => Nat.le_trans hlo h

theorem Reaches.pure {a : α} (h : done a → hi ≤ lo) : Reaches n lo hi done (Pure.pure a) :=
  fun _ _ hlo => Steps.pure fun ha => Nat.le_trans (h ha) hlo

theorem Reaches.bind {f : α → P β} {done : β → Prop} (hp : Safe n p)
    (hf : ∀ a, Reaches n lo hi done (f a)) : Reaches n lo hi done (p >>= f) := fun s hs hlo =>
  (hp s hs).bind fun a s' h _ => hf a s' (hs.ran h) (Nat.le_trans hlo h.index)

theorem Reaches.read {f : Parser → β} {g : β → P α} (h : ∀ b, Reaches n lo hi done (g b)) :
    Reaches n lo hi done (totality.ask f >>= g) := Reaches.bind Safe.ask h

/-- What an answer tells about the way so far. -/
theorem Reaches.after {mid : Nat} {f : α → P β} {done' : β → Prop} (hp : Reaches n lo mid done p)
    (hyes : ∀ a, done a → Reaches n mid hi done' (f a))
    (hno : ∀ a, ¬done a → Reaches n lo hi done' (f a)) : Reaches n lo hi done' (p >>= f) := by
  intro s hs hlo
  refine (hp s hs hlo).bind fun a s' h ha => ?_
  by_cases hdone : done a
  · exact hyes a hdone s' (hs.ran h) (ha hdone)
  · exact hno a hdone s' (hs.ran h) (Nat.le_trans hlo h.index)

theorem Reaches.cond {c : Prop} [Decidable c] {q : P α} (hp : c → Reaches n lo hi done p)
    (hq : ¬c → Reaches n lo hi done q) : Reaches n lo hi done (if c then p else q) :=
  fun s hs hlo => Steps.cond (fun h => hp h s hs hlo) fun h => hq h s hs hlo

theorem Reaches.node {kind : NodeKind} (inner : kind ≠ .Root) (fine : kind ≠ .ErrorNode)
    (hp : Reaches n lo hi done p) : Reaches n lo hi done (node kind p) := fun _ hs hlo =>
  Steps.node inner (fun h => absurd h fine) (hp _ (hs.opened kind) hlo)

/-- A turn of a loop counts from where it starts. -/
theorem Reaches.before {g : Nat → P α} (h : ∀ i, Reaches n i (i + 1) done (g i)) :
    Reaches n lo (lo + 1) done (totality.ask index >>= g) := by
  intro s hs hlo
  refine Steps.read ((h s.index s hs (Nat.le_refl _)).mono fun a i _ ha hdone => ?_)
  have := ha hdone
  omega

theorem Reaches.moved {before : Nat} : Reaches n before (before + 1) (· = true) (moved before) := by
  intro s _ hlo
  refine Steps.ask fun h => ?_
  have : s.index ≠ before := by simpa using h
  omega

/-- The check for progress at the end of a turn that hands something on. -/
theorem Reaches.turn {before : Nat} {x : β} :
    Reaches n before (before + 1) (·.2 = true)
      (m3.moved before >>= fun again => Pure.pure (x, again)) := by
  refine Reaches.moved.after (fun b _ => Reaches.pure fun _ => Nat.le_refl _) fun b hb => ?_
  exact Reaches.pure fun h => absurd h hb

/-- What follows the check for progress: anything that is a step, when there was some. -/
theorem Reaches.sinceMoved {before : Nat} {f : Bool → P α} (hyes : Safe n (f true))
    (hno : Reaches n before (before + 1) done (f false)) :
    Reaches n before (before + 1) done (m3.moved before >>= f) := by
  refine Reaches.moved.after (fun b hb => ?_) fun b hb => ?_
  · rw [show b = true from hb]
    exact hyes.reaches
  · rw [show b = false by simpa using hb]
    exact hno

theorem Reaches.stop {a : α} {c : Prop} [Decidable c] {q : P α} (hc : c) (ha : ¬done a) :
    Reaches n lo hi done (if c then Pure.pure a else q) := by
  rw [if_pos hc]
  exact Reaches.pure fun h => absurd h ha

theorem Eats.safe {p : P Bool} (hp : Eats n p) : Safe n p := (hp 0).safe

/-- Past a token, the rest can do with less fuel. -/
theorem Eats.safe_bind {p : P Bool} {f : Bool → P β} (hp : Eats n p) (hyes : Safe (n - 1) (f true))
    (hno : Safe n (f false)) : Safe n (p >>= f) := by
  intro s hs
  refine (hp s.index s hs (Nat.le_refl _)).bind fun b s' h hb => ?_
  cases b with
  | false => exact hno s' (hs.ran h)
  | true => exact hyes s' (hs.past h (hb rfl))

theorem Safe.loopWith {x : β} {body : β → P (β × Bool)}
    (h : ∀ lo x, Reaches n lo (lo + 1) (·.2 = true) (body x)) : Safe n (loopWith x body) := by
  intro s hs
  refine ends_loopWith (i := fun _ s' => Ran [] s s') (fun x s' hinv => ?_) (Ran.refl s)
  refine Ends.mono (h s'.index x s' (hs.ran hinv) (Nat.le_refl _)) fun r s'' hstep => ?_
  refine ⟨hstep.1.tokens, (hstep.1.good (hinv.good hs.good)).index, ?_⟩
  by_cases hr : r.2 = true
  · rw [if_pos hr]
    exact ⟨hinv.trans hstep.1, hstep.2 hr⟩
  · rw [if_neg hr]
    exact ⟨hinv.trans hstep.1, trivial⟩

/-- A loop whose turns use tokens up is a step. -/
theorem Safe.loop {body : P Bool} (h : Eats n body) : Safe n (loop body) := by
  refine Safe.loopWith fun lo _ => ?_
  refine (h lo).after (fun b hb => Reaches.pure fun _ => Nat.le_refl _) fun b hb => ?_
  exact Reaches.pure fun hb' => absurd hb' hb

end Safe

end analyzer.m3
