-- The reading of a token next to the automaton. A lexeme waits in the
-- tracker exactly while the automaton is inside of one, with its bytes, the
-- state it opened at and the rule of that state.
import PureAnalyzer.Lexemes

namespace purecard.scope.ScopeTracker

open pushdown pda model

/-! ## A tracker in step with the automaton -/

/-- A lexeme waits exactly when the automaton is inside of one. -/
def InStep (t : ScopeTracker) (p : Pda) : Prop :=
  t.pending.map Pending.kind = p.state.lexemeKind

theorem new_inStep : InStep new Pda.new := rfl

/-- The same while a token is read. A lexeme that the token opened does not
wait yet. -/
structure Live (r : Reading) : Prop where
  gap : r.pda.state.lexemeKind = none → r.tracker.pending = none
  opened : r.continuing = false → r.tracker.pending = none
  waits : ∀ kind, r.pda.state.lexemeKind = some kind → r.continuing = true →
    ∃ done, r.tracker.pending = some done ∧ done.kind = kind

variable {schema : Schema}

theorem dispatchToken_pending (t : ScopeTracker) (bytes : List UInt8) (anchor : State) :
    (t.dispatchToken bytes anchor schema).pending = t.pending :=
  (dispatchToken_handles t schema bytes anchor).pending

theorem flushGap_pending (t : ScopeTracker) (gap : List UInt8) (anchor : State) :
    (t.flushGap gap anchor schema).pending = t.pending :=
  (flushGap_handles t schema gap anchor).pending

@[simp]
theorem flushGap_nil (t : ScopeTracker) (anchor : State) : t.flushGap [] anchor schema = t := rfl

theorem start_eq {t : ScopeTracker} {p : Pda} (h : InStep t p) :
    Reading.start t p schema = match t.pending with
      | some waiting => ⟨t, p, true, waiting.anchor, []⟩
      | none => ⟨t, p, false, p.state, []⟩ := by
  unfold Reading.start
  unfold InStep at h
  cases hp : t.pending with
  | none => rfl
  | some waiting =>
    rw [hp] at h
    simp [← h]

theorem start_live {t : ScopeTracker} {p : Pda} (h : InStep t p) :
    Live (Reading.start t p schema) := by
  rw [start_eq h]
  unfold InStep at h
  cases hp : t.pending with
  | none =>
    rw [hp] at h
    exact ⟨fun _ => hp, fun _ => hp, fun kind hk => by rw [hk] at h; cases h⟩
  | some waiting =>
    rw [hp] at h
    refine ⟨fun hgap => ?_, fun hc => ?_, fun kind hk _ => ?_⟩
    · rw [hgap] at h; cases h
    · cases hc
    · refine ⟨waiting, hp, ?_⟩
      rw [hk] at h
      exact Option.some.inj h

/-- A token that has read nothing ends where it started. -/
theorem start_finish {t : ScopeTracker} {p : Pda} (h : InStep t p) :
    (Reading.start t p schema).finish schema = t := by
  rw [start_eq h]
  unfold InStep at h
  cases hp : t.pending with
  | none =>
    rw [hp] at h
    simp only [Reading.finish, ← h, Option.map_none]
    exact flushGap_nil t _
  | some waiting =>
    rw [hp] at h
    simp only [Reading.finish, ← h, Option.map_some, bufferTrailing, if_true, hp, List.append_nil]
    rw [← hp]

/-! ## One byte -/

theorem take_live {r : Reading} {b : UInt8} {q : Pda} (hr : Live r) :
    Live (r.take b q schema) := by
  unfold Reading.take
  cases hk : r.pda.state.lexemeKind with
  | none =>
    have hnone := hr.gap hk
    dsimp only
    split
    · next hsome =>
      have hflush : (r.tracker.flushGap r.seg r.anchor schema).pending = none := by
        rw [flushGap_pending, hnone]
      exact ⟨fun _ => hflush, fun _ => hflush, fun _ _ hc => by cases hc⟩
    · next hgap =>
      refine ⟨fun _ => hnone, fun _ => hnone, fun kind hq _ => ?_⟩
      simp only [Option.not_isSome_iff_eq_none] at hgap
      rw [hgap] at hq
      cases hq
  | some kind =>
    dsimp only
    split
    · next hsame =>
      refine ⟨fun hgap => ?_, hr.opened, fun kind' hq hc => ?_⟩
      · rw [hgap] at hsame; cases hsame
      · rw [hsame] at hq
        cases hq
        exact hr.waits kind hk hc
    · have hemit : (r.tracker.emitLexeme r.seg r.anchor r.continuing schema).pending = none := by
        unfold emitLexeme
        cases hc : r.continuing with
        | false =>
          dsimp only
          rw [dispatchToken_pending, hr.opened hc]
        | true =>
          obtain ⟨done, hdone, -⟩ := hr.waits kind hk hc
          simp only [hdone]
          rw [dispatchToken_pending]
      exact ⟨fun _ => hemit, fun _ => hemit, fun _ _ hc => by cases hc⟩

theorem finish_inStep {r : Reading} (hr : Live r) : InStep (r.finish schema) r.pda := by
  unfold Reading.finish InStep
  cases hk : r.pda.state.lexemeKind with
  | none =>
    dsimp only
    rw [flushGap_pending, hr.gap hk]
    rfl
  | some kind =>
    unfold bufferTrailing
    cases hc : r.continuing with
    | false => rfl
    | true =>
      obtain ⟨done, hdone, hkind⟩ := hr.waits kind hk hc
      simp [hdone, hkind]

theorem start_pda (t : ScopeTracker) (p : Pda) : (Reading.start t p schema).pda = p := by
  unfold Reading.start
  split
  · split <;> rfl
  · rfl

theorem take_pda (r : Reading) (b : UInt8) (q : Pda) : (r.take b q schema).pda = q := by
  unfold Reading.take
  split <;> split <;> rfl

theorem read_inStep {rest : List UInt8} {r : Reading} {q : Pda} (hr : Live r)
    (h : Config.run step r.pda rest = some q) : InStep (Reading.read schema r rest) q := by
  induction rest generalizing r with
  | nil =>
    obtain rfl : r.pda = q := by simpa using h
    exact finish_inStep hr
  | cons b rest ih =>
    rw [run_cons, Option.bind_eq_some_iff] at h
    obtain ⟨d, hd, hrest⟩ := h
    unfold Reading.read
    rw [hd]
    refine ih (take_live hr) ?_
    rw [take_pda]
    exact hrest

/-- A token keeps the tracker in step. -/
theorem observe_inStep {t : ScopeTracker} {p q : Pda} {token : List UInt8} (ht : InStep t p)
    (h : Config.run step p token = some q) : InStep (t.observe token p schema) q := by
  refine read_inStep (start_live ht) ?_
  rw [start_pda]
  exact h

/-! ## Where a lexeme opened -/

/-- What a lexeme that waits tells of where it opened: it has a byte, it
opened at an anchor of the live state, and it has the rule of that anchor. -/
structure Opened (waiting : Pending) (state : State) : Prop where
  bytes : waiting.buf ≠ []
  anchor : waiting.anchor ∈ anchors state
  pos : ∃ t : ScopeTracker,
    waiting.pos = openedPosition waiting.kind (t.openingPosition waiting.anchor)

def Tracked (t : ScopeTracker) (p : Pda) : Prop :=
  ∀ waiting, t.pending = some waiting → Opened waiting p.state

/-- The same while a token is read. -/
structure Anchored (r : Reading) : Prop where
  opened : r.continuing = false → r.pda.state.lexemeKind.isSome = true →
    r.seg ≠ [] ∧ r.anchor ∈ anchors r.pda.state
  waits : r.continuing = true → Tracked r.tracker r.pda

/-- The anchors of a lexeme stay while it goes on. -/
theorem anchors_go_on {p q : Pda} {b : UInt8} {a : State} (h : Config.advance step p b = some q)
    (hp : p.state.lexemeKind.isSome = true) (hq : q.state.lexemeKind.isSome = true)
    (ha : a ∈ anchors p.state) : a ∈ anchors q.state := by
  have hanchored := anchored_advance h
  unfold anchored at hanchored
  rw [Option.isSome_iff_ne_none] at hp hq
  rw [if_neg (by simpa using hq), if_neg (by simpa using hp), List.all_eq_true] at hanchored
  simpa using hanchored a ha

theorem anchor_opens {p q : Pda} {b : UInt8} (h : Config.advance step p b = some q)
    (hp : p.state.lexemeKind = none) (hq : q.state.lexemeKind.isSome = true) :
    p.state ∈ anchors q.state := by
  have hanchored := anchored_advance h
  unfold anchored at hanchored
  rw [Option.isSome_iff_ne_none] at hq
  rw [if_neg (by simpa using hq), if_pos (by simp [hp])] at hanchored
  simpa using hanchored

theorem start_anchored {t : ScopeTracker} {p : Pda} (h : InStep t p) (ht : Tracked t p) :
    Anchored (Reading.start t p schema) := by
  rw [start_eq h]
  unfold InStep at h
  cases hp : t.pending with
  | none =>
    rw [hp] at h
    refine ⟨fun _ hsome => ?_, fun hc => by cases hc⟩
    rw [← h] at hsome
    cases hsome
  | some waiting => exact ⟨fun hc => (by cases hc), fun _ => ht⟩

theorem take_anchored {r : Reading} {b : UInt8} {q : Pda} (hr : Live r) (ha : Anchored r)
    (h : Config.advance step r.pda b = some q) : Anchored (r.take b q schema) := by
  unfold Reading.take
  cases hk : r.pda.state.lexemeKind with
  | none =>
    dsimp only
    split
    · next hsome =>
      refine ⟨fun _ _ => ⟨List.cons_ne_nil _ _, anchor_opens h hk hsome⟩, fun hc => by cases hc⟩
    · next hgap =>
      refine ⟨fun _ hsome => absurd hsome hgap, fun _ waiting hwaiting => ?_⟩
      rw [hr.gap hk] at hwaiting
      cases hwaiting
  | some kind =>
    have hsome : r.pda.state.lexemeKind.isSome = true := by rw [hk]; rfl
    dsimp only
    split
    · next hsame =>
      have hq : q.state.lexemeKind.isSome = true := by rw [hsame]; rfl
      refine ⟨fun hc _ => ⟨by simp, ?_⟩, fun hc waiting hwaiting => ?_⟩
      · exact anchors_go_on h hsome hq (ha.opened hc hsome).2
      · obtain ⟨hbytes, hanchor, hpos⟩ := ha.waits hc waiting hwaiting
        exact ⟨hbytes, anchors_go_on h hsome hq hanchor, hpos⟩
    · next hother =>
      refine ⟨fun _ hq => ?_, fun hc => by cases hc⟩
      rcases kind_advance h hk with hnone | hsame
      · rw [hnone] at hq
        cases hq
      · exact absurd hsame hother

theorem finish_tracked {r : Reading} (hr : Live r) (ha : Anchored r) :
    Tracked (r.finish schema) r.pda := by
  intro waiting hwaiting
  unfold Reading.finish at hwaiting
  cases hk : r.pda.state.lexemeKind with
  | none =>
    rw [hk] at hwaiting
    dsimp only at hwaiting
    rw [flushGap_pending, hr.gap hk] at hwaiting
    cases hwaiting
  | some kind =>
    rw [hk] at hwaiting
    unfold bufferTrailing at hwaiting
    cases hc : r.continuing with
    | false =>
      obtain ⟨hseg, hanchor⟩ := ha.opened hc (by rw [hk]; rfl)
      rw [hc] at hwaiting
      obtain rfl := Option.some.inj hwaiting
      exact ⟨hseg, hanchor, ⟨r.tracker, rfl⟩⟩
    | true =>
      obtain ⟨done, hdone, -⟩ := hr.waits kind hk hc
      obtain ⟨hbytes, hanchor, hpos⟩ := ha.waits hc done hdone
      rw [hc] at hwaiting
      simp only [if_true, hdone, Option.map_some, Option.some.injEq] at hwaiting
      subst hwaiting
      exact ⟨by simp [hbytes], hanchor, hpos⟩

theorem read_tracked {rest : List UInt8} {r : Reading} {q : Pda} (hr : Live r) (ha : Anchored r)
    (h : Config.run step r.pda rest = some q) : Tracked (Reading.read schema r rest) q := by
  induction rest generalizing r with
  | nil =>
    obtain rfl : r.pda = q := by simpa using h
    exact finish_tracked hr ha
  | cons b rest ih =>
    rw [run_cons, Option.bind_eq_some_iff] at h
    obtain ⟨d, hd, hrest⟩ := h
    unfold Reading.read
    rw [hd]
    refine ih (take_live hr) (take_anchored hr ha hd) ?_
    rw [take_pda]
    exact hrest

/-- What every token keeps of the tracker beside the automaton. -/
structure Synced (t : ScopeTracker) (p : Pda) : Prop where
  inStep : InStep t p
  tracked : Tracked t p
  named : ∀ name ∈ t.bound_vars, opensName name = true

theorem new_synced : Synced new Pda.new :=
  ⟨new_inStep, fun _ h => (by cases h), fun _ h => (by cases h)⟩

theorem observe_synced {t : ScopeTracker} {p q : Pda} {token : List UInt8} (ht : Synced t p)
    (h : Config.run step p token = some q) : Synced (t.observe token p schema) q := by
  refine ⟨observe_inStep ht.inStep h, ?_, (t.observe_grows schema token p).named ht.named⟩
  refine read_tracked (start_live ht.inStep) (start_anchored ht.inStep ht.tracked) ?_
  rw [start_pda]
  exact h

/-! ## A stream of tokens -/

/-- Reads the tokens of a stream one after the other. -/
def observeAll (schema : Schema) : ScopeTracker → Pda → List (List UInt8) → ScopeTracker
  | t, _, [] => t
  | t, p, token :: rest =>
    match Config.run step p token with
    | none => t
    | some q => observeAll schema (t.observe token p schema) q rest

theorem observeAll_snoc {t : ScopeTracker} {p q d : Pda} {tokens : List (List UInt8)}
    {token : List UInt8} (h : Config.run step p tokens.flatten = some q)
    (hd : Config.run step q token = some d) :
    observeAll schema t p (tokens ++ [token]) =
      (observeAll schema t p tokens).observe token q schema := by
  induction tokens generalizing t p with
  | nil =>
    obtain rfl : p = q := by simpa using h
    simp only [List.nil_append, observeAll, hd]
  | cons first rest ih =>
    rw [List.flatten_cons, run_append, Option.bind_eq_some_iff] at h
    obtain ⟨e, he, hrest⟩ := h
    simp only [List.cons_append, observeAll, he]
    exact ih hrest

theorem observeAll_synced {t : ScopeTracker} {p q : Pda} {tokens : List (List UInt8)}
    (ht : Synced t p) (h : Config.run step p tokens.flatten = some q) :
    Synced (observeAll schema t p tokens) q := by
  induction tokens generalizing t p with
  | nil =>
    obtain rfl : p = q := by simpa using h
    exact ht
  | cons token rest ih =>
    rw [List.flatten_cons, run_append, Option.bind_eq_some_iff] at h
    obtain ⟨d, hd, hrest⟩ := h
    simp only [observeAll, hd]
    exact ih (observe_synced ht hd) hrest

end purecard.scope.ScopeTracker
