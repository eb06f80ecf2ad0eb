-- Split invariance of the scope machine. Two ways to cut one stream into
-- tokens leave the same tracker when no cut splits an operator and every
-- gap of a token reads its pieces as they read one at a time.
import PureAnalyzer.Cuts
import PureAnalyzer.Stream

namespace purecard.scope.ScopeTracker

open pushdown pda model

/-! ## Cuts that are harmless -/

/-- Where the gap of the next byte opened: here, when the byte leaves a
lexeme. -/
def openedAt (anchor : State) (p : Pda) : State :=
  if p.state.lexemeKind.isSome then p.state else anchor

/-- Every piece of each gap of a token reads under the state where the gap
opens as it reads under the state before the piece, and two bytes that join
are one operator to the automaton too. -/
def gapsRead : State → Pda → List UInt8 → Bool
  | _, _, [] => true
  | anchor, p, b :: rest =>
    match Config.advance step p b with
    | none => true
    | some q =>
      if q.state.lexemeKind.isSome then gapsRead q.state q rest
      else
        match rest with
        | [] => sameSense [b] (openedAt anchor p) p.state
        | c :: rest' =>
          if isTwoByteOp b c then
            completes q.state c &&
              match Config.advance step q c with
              | none => true
              | some r => gapsRead (openedAt anchor p) r rest'
          else
            sameSense [b] (openedAt anchor p) p.state &&
              gapsRead (openedAt anchor p) q (c :: rest')

/-- No token starts inside an operator, and the gaps of every token read. -/
def cutsRead : Pda → List (List UInt8) → Bool
  | _, [] => true
  | p, token :: rest =>
    !token.head?.any (joins p.state) && gapsRead p.state p token &&
      match Config.run step p token with
      | none => true
      | some q => cutsRead q rest

/-- Reads a stream byte by byte, with each operator in one piece. -/
def readPieces (schema : Schema) : ScopeTracker → Pda → List UInt8 → ScopeTracker
  | t, _, [] => t
  | t, p, b :: rest =>
    match Config.advance step p b with
    | none => t
    | some q =>
      match rest with
      | [] => t.observe [b] p schema
      | c :: rest' =>
        if joins q.state c then
          match Config.advance step q c with
          | none => t
          | some r => readPieces schema (t.observe [b, c] p schema) r rest'
        else readPieces schema (t.observe [b] p schema) q (c :: rest')

variable {schema : Schema}

/-! ## One byte after a cut -/

/-- A lexeme that ended is read the same after a cut inside of it. -/
theorem emitLexeme_finish {r : Reading} {kind : LexKind} (hr : Live r)
    (hk : r.pda.state.lexemeKind = some kind) (anchor : State) :
    (r.finish schema).emitLexeme [] anchor true schema =
      r.tracker.emitLexeme r.seg r.anchor r.continuing schema := by
  unfold Reading.finish
  rw [hk]
  dsimp only
  unfold bufferTrailing
  cases hc : r.continuing with
  | false =>
    have hnone := hr.opened hc
    simp only [emitLexeme, Bool.false_eq_true, if_false, List.append_nil]
    congr 1
    rw [← hnone]
  | true =>
    obtain ⟨done, hdone, -⟩ := hr.waits kind hk hc
    simp [emitLexeme, hdone]

/-- A byte that opens or leaves a lexeme reads the same after a cut. -/
theorem take_restart {r : Reading} {b : UInt8} {q : Pda} (hr : Live r)
    (hedge : r.pda.state.lexemeKind.isSome ≠ q.state.lexemeKind.isSome) :
    (Reading.start (r.finish schema) r.pda schema).take b q schema = r.take b q schema := by
  have hstep : InStep (r.finish schema) r.pda := finish_inStep hr
  rw [start_eq hstep]
  unfold InStep at hstep
  cases hk : r.pda.state.lexemeKind with
  | none =>
    have hsome : q.state.lexemeKind.isSome = true := by
      rw [hk] at hedge
      exact Option.isSome_iff_ne_none.mpr (by simpa using hedge.symm)
    rw [hk, Option.map_eq_none_iff] at hstep
    simp only [hstep, Reading.take, hk, hsome, if_true, flushGap_nil]
    simp only [Reading.finish, hk]
  | some kind =>
    have hnone : q.state.lexemeKind = none := by
      rw [hk] at hedge
      simpa using hedge.symm
    rw [hk, Option.map_eq_some_iff] at hstep
    obtain ⟨waiting, hwaiting, -⟩ := hstep
    simp only [hwaiting, Reading.take, hk, hnone]
    simp only [reduceCtorEq, if_false, emitLexeme_finish hr hk]

theorem observe_one {t : ScopeTracker} {p q : Pda} {b : UInt8}
    (h : Config.advance step p b = some q) :
    t.observe [b] p schema = ((Reading.start t p schema).take b q schema).finish schema := by
  simp only [observe, Reading.read, start_pda, h]

theorem observe_two {t : ScopeTracker} {p q r : Pda} {b c : UInt8}
    (hq : Config.advance step p b = some q) (hr : Config.advance step q c = some r) :
    t.observe [b, c] p schema =
      (((Reading.start t p schema).take b q schema).take c r schema).finish schema := by
  simp only [observe, Reading.read, start_pda, hq, take_pda, hr]

theorem bufferTrailing_again (t : ScopeTracker) (kind : LexKind) (seg more : List UInt8)
    (anchor anchor' : State) (continuing : Bool) :
    (t.bufferTrailing kind seg anchor continuing).bufferTrailing kind more anchor' true =
      t.bufferTrailing kind (seg ++ more) anchor continuing := by
  cases continuing with
  | false => simp [bufferTrailing]
  | true => simp [bufferTrailing, Option.map_map, Function.comp_def]

theorem finish_lexeme {r : Reading} {kind : LexKind} (hk : r.pda.state.lexemeKind = some kind) :
    r.finish schema = r.tracker.bufferTrailing kind r.seg r.anchor r.continuing := by
  unfold Reading.finish
  rw [hk]

theorem take_inside {r : Reading} {b : UInt8} {q : Pda} {kind : LexKind}
    (hk : r.pda.state.lexemeKind = some kind) (hq : q.state.lexemeKind = some kind) :
    (r.take b q schema).finish schema =
      r.tracker.bufferTrailing kind (r.seg ++ [b]) r.anchor r.continuing := by
  have htake : r.take b q schema = { r with pda := q, seg := r.seg ++ [b] } := by
    unfold Reading.take
    rw [hk, hq]
    simp
  rw [htake]
  exact finish_lexeme (r := { r with pda := q, seg := r.seg ++ [b] }) hq

/-- A cut inside a lexeme changes nothing. -/
theorem take_lexeme {r : Reading} {b : UInt8} {q : Pda} {kind : LexKind} (hr : Live r)
    (hk : r.pda.state.lexemeKind = some kind) (hq : q.state.lexemeKind = some kind) :
    (r.take b q schema).finish schema =
      ((Reading.start (r.finish schema) r.pda schema).take b q schema).finish schema := by
  have hstep : InStep (r.finish schema) r.pda := finish_inStep hr
  rw [start_eq hstep]
  unfold InStep at hstep
  rw [hk, Option.map_eq_some_iff] at hstep
  obtain ⟨waiting, hwaiting, -⟩ := hstep
  simp only [hwaiting]
  have hagain : (Reading.take ⟨r.finish schema, r.pda, true, waiting.anchor, []⟩ b q
      schema).finish schema = (r.finish schema).bufferTrailing kind ([] ++ [b]) waiting.anchor
        true :=
    take_inside hk hq
  rw [take_inside hk hq, hagain, finish_lexeme hk, bufferTrailing_again]
  rfl

theorem foldl_sense {us : List (List UInt8)} {a b : State}
    (h : ∀ u ∈ us, sameSense u a b = true) (t : ScopeTracker) :
    us.foldl (fun t unit => t.dispatchToken unit a schema) t =
      us.foldl (fun t unit => t.dispatchToken unit b schema) t := by
  induction us generalizing t with
  | nil => rfl
  | cons u us ih =>
    rw [List.foldl_cons, List.foldl_cons, dispatchToken_of_sense (h u List.mem_cons_self)]
    exact ih (fun v hv => h v (List.mem_cons_of_mem u hv)) _

/-- The pieces of a gap that goes on, under the state where it opened and
under the state where it went on. -/
theorem flushGap_append {t : ScopeTracker} {seg more : List UInt8} {anchor state : State}
    (hunits : units (seg ++ more) = units seg ++ units more)
    (hsense : ∀ u ∈ units more, sameSense u anchor state = true) :
    t.flushGap (seg ++ more) anchor schema =
      (t.flushGap seg anchor schema).flushGap more state schema := by
  show (units (seg ++ more)).foldl _ t = (units more).foldl _ ((units seg).foldl _ t)
  rw [hunits, List.foldl_append, foldl_sense hsense]

/-- The bytes that follow a gap start a new piece, whichever come. -/
def Whole (seg rest : List UInt8) : Prop :=
  ∀ more, more <+: rest → units (seg ++ more) = units seg ++ units more

theorem whole_nil (rest : List UInt8) : Whole [] rest := fun _ _ => rfl

theorem whole_byte {seg rest : List UInt8} {b : UInt8} (h : Whole seg (b :: rest))
    (hpair : rest.head?.any (isTwoByteOp b) = false) (hident : isIdentStart b = false) :
    Whole (seg ++ [b]) rest := by
  intro more hmore
  have hhead : more.head?.any (isTwoByteOp b) = false := by
    cases more with
    | nil => rfl
    | cons c more =>
      obtain ⟨tail, rfl⟩ := hmore
      exact hpair
  have hb : [b] <+: b :: rest := ⟨rest, rfl⟩
  have hbmore : b :: more <+: b :: rest := List.cons_prefix_cons.mpr ⟨rfl, hmore⟩
  rw [List.append_assoc, List.singleton_append, h _ hbmore, h _ hb, units_cons hhead hident,
    List.append_assoc]

theorem whole_pair {seg rest : List UInt8} {b c : UInt8} (h : Whole seg (b :: c :: rest))
    (hws : isAsciiWhitespace b = false) (hpair : isTwoByteOp b c = true) :
    Whole (seg ++ [b, c]) rest := by
  intro more hmore
  have hbc : [b, c] <+: b :: c :: rest := ⟨rest, rfl⟩
  have hbcmore : b :: c :: more <+: b :: c :: rest :=
    List.cons_prefix_cons.mpr ⟨rfl, List.cons_prefix_cons.mpr ⟨rfl, hmore⟩⟩
  rw [List.append_assoc]
  show units (seg ++ (b :: c :: more)) = _
  rw [h _ hbcmore, h _ hbc, units_pair hws hpair, units_pair hws hpair, List.append_assoc]
  rfl

theorem take_gap {r : Reading} {b : UInt8} {q : Pda} (hk : r.pda.state.lexemeKind = none)
    (hq : q.state.lexemeKind = none) :
    r.take b q schema = { r with pda := q, seg := r.seg ++ [b] } := by
  unfold Reading.take
  rw [hk, hq]
  rfl

theorem take_leave {r : Reading} {b : UInt8} {q : Pda} {kind : LexKind}
    (hk : r.pda.state.lexemeKind = some kind) (hq : q.state.lexemeKind = none) :
    r.take b q schema = ⟨r.tracker.emitLexeme r.seg r.anchor r.continuing schema, q, false,
      r.pda.state, [b]⟩ := by
  unfold Reading.take
  rw [hk, hq]
  rfl

theorem finish_gap {r : Reading} (hk : r.pda.state.lexemeKind = none) :
    r.finish schema = r.tracker.flushGap r.seg r.anchor schema := by
  unfold Reading.finish
  rw [hk]

theorem start_gap {t : ScopeTracker} {p : Pda} (h : InStep t p)
    (hk : p.state.lexemeKind = none) : Reading.start t p schema = ⟨t, p, false, p.state, []⟩ := by
  rw [start_eq h]
  unfold InStep at h
  rw [hk, Option.map_eq_none_iff] at h
  rw [h]

theorem take_gap_finish {r : Reading} {b : UInt8} {q : Pda} (hk : r.pda.state.lexemeKind = none)
    (hq : q.state.lexemeKind = none) :
    (r.take b q schema).finish schema = r.tracker.flushGap (r.seg ++ [b]) r.anchor schema := by
  rw [take_gap hk hq]
  exact finish_gap (r := { r with pda := q, seg := r.seg ++ [b] }) hq

theorem take_gaps_finish {r : Reading} {b c : UInt8} {q d : Pda}
    (hk : r.pda.state.lexemeKind = none) (hq : q.state.lexemeKind = none)
    (hd : d.state.lexemeKind = none) :
    ((r.take b q schema).take c d schema).finish schema =
      r.tracker.flushGap (r.seg ++ [b, c]) r.anchor schema := by
  have htaken : (r.take b q schema).pda.state.lexemeKind = none := by rw [take_pda, hq]
  rw [take_gap_finish htaken hd, take_gap hk hq, List.append_assoc]
  rfl

/-- One byte after a cut, when its pieces read the same. -/
theorem take_finish {r : Reading} {b : UInt8} {q : Pda} (hr : Live r)
    (h : Config.advance step r.pda b = some q)
    (hgap : r.pda.state.lexemeKind = none → q.state.lexemeKind = none →
      units (r.seg ++ [b]) = units r.seg ++ units [b] ∧
        ∀ u ∈ units [b], sameSense u r.anchor r.pda.state = true) :
    (r.take b q schema).finish schema = (r.finish schema).observe [b] r.pda schema := by
  rw [observe_one h]
  by_cases hedge : r.pda.state.lexemeKind.isSome = q.state.lexemeKind.isSome
  · cases hk : r.pda.state.lexemeKind with
    | some kind =>
      have hq : q.state.lexemeKind = some kind := by
        rcases kind_advance h hk with hq | hq
        · simp [hk, hq] at hedge
        · exact hq
      exact take_lexeme hr hk hq
    | none =>
      have hq : q.state.lexemeKind = none := by simpa [hk] using hedge.symm
      obtain ⟨hunits, hsense⟩ := hgap hk hq
      have hrestart : (Reading.take ⟨r.finish schema, r.pda, false, r.pda.state, []⟩ b q
          schema).finish schema = (r.finish schema).flushGap [b] r.pda.state schema :=
        take_gap_finish hk hq
      rw [start_gap (finish_inStep hr) hk, hrestart, take_gap_finish hk hq, finish_gap hk]
      exact flushGap_append hunits hsense
  · rw [take_restart hr hedge]

/-- The same for the two bytes of an operator. -/
theorem take_pair_finish {r : Reading} {b c : UInt8} {q d : Pda} (hr : Live r)
    (hb : Config.advance step r.pda b = some q) (hc : Config.advance step q c = some d)
    (hq : q.state.lexemeKind = none) (hd : d.state.lexemeKind = none)
    (hws : isAsciiWhitespace b = false) (hpair : isTwoByteOp b c = true)
    (hgap : r.pda.state.lexemeKind = none →
      units (r.seg ++ [b, c]) = units r.seg ++ units [b, c]) :
    ((r.take b q schema).take c d schema).finish schema =
      (r.finish schema).observe [b, c] r.pda schema := by
  rw [observe_two hb hc]
  cases hk : r.pda.state.lexemeKind with
  | some kind => rw [take_restart hr (by simp [hk, hq])]
  | none =>
    have hsense : ∀ u ∈ units [b, c], sameSense u r.anchor r.pda.state = true := by
      intro u hu
      rw [units_pair hws hpair, units_nil, List.mem_singleton] at hu
      rw [hu]
      exact sameSense_pair hpair _ _
    have hrestart : ((Reading.take ⟨r.finish schema, r.pda, false, r.pda.state, []⟩ b q
        schema).take c d schema).finish schema =
          (r.finish schema).flushGap [b, c] r.pda.state schema :=
      take_gaps_finish hk hq hd
    rw [start_gap (finish_inStep hr) hk, hrestart, take_gaps_finish hk hq hd, finish_gap hk]
    exact flushGap_append (hgap hk) hsense

/-! ## A comparison in two pieces -/

/-- A byte of a gap, after a cut, is the first byte of its piece. -/
theorem start_take {t : ScopeTracker} {p q : Pda} {b : UInt8} (h : InStep t p)
    (hq : q.state.lexemeKind = none) :
    ∃ u, (Reading.start t p schema).take b q schema = ⟨u, q, false, p.state, [b]⟩ := by
  cases hk : p.state.lexemeKind with
  | none =>
    rw [start_gap h hk]
    exact ⟨t, take_gap (r := ⟨t, p, false, p.state, []⟩) hk hq⟩
  | some kind =>
    rw [start_eq h]
    unfold InStep at h
    rw [hk, Option.map_eq_some_iff] at h
    obtain ⟨waiting, hwaiting, -⟩ := h
    rw [hwaiting]
    exact ⟨_, take_leave (r := ⟨t, p, true, waiting.anchor, []⟩) hk hq⟩

theorem flushGap_units {t : ScopeTracker} {gap piece : List UInt8} {anchor : State}
    (h : units gap = [piece]) :
    t.flushGap gap anchor schema = t.dispatchToken piece anchor schema := by
  show (units gap).foldl _ t = _
  rw [h]
  rfl

/-- A comparison is one under every state that did not open an arrow. -/
theorem comparison_table : ∀ s : State,
    (classifyAt (lit "<") s = .Cmp ∧ isLogicalOperator (lit "<") s = false) ∧
      (completes s '>' = false →
        classifyAt (lit ">") s = .Cmp ∧ isLogicalOperator (lit ">") s = false) ∧
      (classifyAt (lit "<=") s = .Cmp ∧ isLogicalOperator (lit "<=") s = false) ∧
      (classifyAt (lit ">=") s = .Cmp ∧ isLogicalOperator (lit ">=") s = false) := by
  decide

/-- A comparison that takes a `=` is read twice when it is cut, to the same
end. -/
theorem dispatchToken_comparison {p q : Pda} {b c : UInt8}
    (hb : Config.advance step p b = some q) (hcompletes : completes q.state c = true)
    (hcuts : joins q.state c = false) (t : ScopeTracker) :
    (t.dispatchToken [b] p.state schema).dispatchToken [c] q.state schema =
      t.dispatchToken [b, c] p.state schema := by
  obtain ⟨hpair, hopened, -⟩ := completes_pair hb hcompletes
  have hmem : [b, c] ∈ TWO_BYTE_OPS := by simpa [isTwoByteOp] using hpair
  have hequals : ∀ op ∈ TWO_BYTE_OPS, op.head? = some '<' ∨ op.head? = some '>' →
      op.getLast? = some '=' := by decide
  obtain ⟨hless, hgreater, hless', hgreater'⟩ := comparison_table p.state
  have hstate : q.state = .SawLt ∨ q.state = .SawGt := by
    simp only [joins, hcompletes, Bool.true_and, Bool.and_eq_false_iff, decide_eq_false_iff_not,
      not_not] at hcuts
    exact hcuts
  rcases hstate with hlt | hgt
  · rw [hlt] at hopened
    obtain rfl : '<' = b := Option.some.inj hopened
    obtain rfl : c = '=' := Option.some.inj (hequals _ hmem (.inl rfl))
    rw [hlt]
    exact dispatchToken_cmp_twice hless.1 (by decide) hless'.1 hless.2 (by decide) hless'.2
      (by decide) (by decide) (by decide) t schema
  · rw [hgt] at hopened
    obtain rfl : '>' = b := Option.some.inj hopened
    obtain rfl : c = '=' := Option.some.inj (hequals _ hmem (.inr rfl))
    have hfirst : completes p.state '>' = false := by
      by_contra h
      have hended := (completes_advance hb (by simpa using h)).2
      rw [hgt] at hended
      cases hended
    rw [hgt]
    exact dispatchToken_cmp_twice (hgreater hfirst).1 (by decide) hgreater'.1 (hgreater hfirst).2
      (by decide) hgreater'.2 (by decide) (by decide) (by decide) t schema

/-- A comparison reads the same in one piece and in two. -/
theorem observe_comparison {t : ScopeTracker} {p q d : Pda} {b c : UInt8} (ht : InStep t p)
    (hb : Config.advance step p b = some q) (hc : Config.advance step q c = some d)
    (hcompletes : completes q.state c = true) (hcuts : joins q.state c = false) :
    t.observe [b, c] p schema = (t.observe [b] p schema).observe [c] q schema := by
  obtain ⟨hpair, -, hq⟩ := completes_pair hb hcompletes
  obtain ⟨hd, -⟩ := completes_advance hc hcompletes
  obtain ⟨u, hu⟩ : ∃ u, (Reading.start t p schema).take b q schema = ⟨u, q, false, p.state, [b]⟩ :=
    start_take ht hq
  have hone : t.observe [b] p schema = u.flushGap [b] p.state schema := by
    rw [observe_one hb, hu]
    exact finish_gap (r := ⟨u, q, false, p.state, [b]⟩) hq
  have htwo : t.observe [b, c] p schema = u.flushGap [b, c] p.state schema := by
    rw [observe_two hb hc, hu]
    exact take_gap_finish (r := ⟨u, q, false, p.state, [b]⟩) hq hd
  have hstep : InStep (t.observe [b] p schema) q := observe_inStep ht (by simp [run_cons, hb])
  have hnext : (t.observe [b] p schema).observe [c] q schema =
      (u.flushGap [b] p.state schema).flushGap [c] q.state schema := by
    rw [observe_one hc, start_gap hstep hq, hone]
    exact take_gap_finish (r := ⟨u.flushGap [b] p.state schema, q, false, q.state, []⟩) hq hd
  have hws : ∀ op ∈ TWO_BYTE_OPS, ∀ x ∈ op, isAsciiWhitespace x = false := by
    decide +kernel
  have hmem : [b, c] ∈ TWO_BYTE_OPS := by simpa [isTwoByteOp] using hpair
  have hpieceb : units [b] = [[b]] :=
    units_single (hws _ hmem b (by simp)) rfl (gap_byte hb hq)
  have hpiecec : units [c] = [[c]] :=
    units_single (hws _ hmem c (by simp)) rfl (gap_byte hc hd)
  have hpiece : units [b, c] = [[b, c]] := units_pair (hws _ hmem b (by simp)) hpair
  rw [htwo, hnext, flushGap_units hpiece, flushGap_units hpieceb, flushGap_units hpiecec]
  exact (dispatchToken_comparison hb hcompletes hcuts u).symm

/-! ## A token in pieces -/

/-- What the reading of a token has to know of the bytes that are left: in a
gap they start a new piece, and the gap opened at `anchor`. -/
def Ready (r : Reading) (anchor : State) (rest : List UInt8) : Prop :=
  r.pda.state.lexemeKind = none → anchor = r.anchor ∧ Whole r.seg rest

theorem mem_units_byte {b : UInt8} {u : List UInt8} (h : isIdentStart b = false)
    (hu : u ∈ units [b]) : u = [b] := by
  cases hws : isAsciiWhitespace b with
  | true => rw [units_ws hws, units_nil] at hu; cases hu
  | false =>
    rw [units_single hws rfl h, units_nil] at hu
    exact List.mem_singleton.mp hu

/-- A byte that reads as it would alone. -/
theorem take_alone {r : Reading} {anchor : State} {b : UInt8} {q : Pda} {rest : List UInt8}
    (hr : Live r) (h : Config.advance step r.pda b = some q) (hready : Ready r anchor (b :: rest))
    (hsense : q.state.lexemeKind = none →
      sameSense [b] (openedAt anchor r.pda) r.pda.state = true) :
    (r.take b q schema).finish schema = (r.finish schema).observe [b] r.pda schema := by
  refine take_finish hr h fun hk hq => ?_
  obtain ⟨rfl, hwhole⟩ := hready hk
  refine ⟨hwhole [b] ⟨rest, rfl⟩, fun u hu => ?_⟩
  rw [mem_units_byte (gap_byte h hq) hu]
  simpa [openedAt, hk] using hsense hq

theorem ready_lexeme {r : Reading} {anchor : State} {rest : List UInt8}
    (h : r.pda.state.lexemeKind.isSome = true) : Ready r anchor rest := by
  intro hk
  rw [hk] at h
  cases h

/-- The gap that a byte opens or goes on. -/
theorem ready_take {r : Reading} {anchor : State} {b : UInt8} {q : Pda} {bytes rest : List UInt8}
    (hq : q.state.lexemeKind = none) (hready : Ready r anchor (b :: bytes))
    (hwhole : ∀ seg, Whole seg (b :: bytes) → Whole (seg ++ [b]) rest) :
    Ready (r.take b q schema) (openedAt anchor r.pda) rest := by
  intro _
  unfold openedAt
  cases hk : r.pda.state.lexemeKind with
  | none =>
    obtain ⟨rfl, hseg⟩ := hready hk
    rw [take_gap hk hq]
    exact ⟨rfl, hwhole _ hseg⟩
  | some kind =>
    rw [take_leave hk hq]
    exact ⟨rfl, hwhole [] (whole_nil _)⟩

theorem ready_pair {r : Reading} {anchor : State} {b c : UInt8} {q d : Pda} {rest : List UInt8}
    (hq : q.state.lexemeKind = none) (hd : d.state.lexemeKind = none)
    (hpair : isTwoByteOp b c = true) (hready : Ready r anchor (b :: c :: rest)) :
    Ready ((r.take b q schema).take c d schema) (openedAt anchor r.pda) rest := by
  have htaken : (r.take b q schema).pda.state.lexemeKind = none := by rw [take_pda, hq]
  have hws := twoByteOp_not_ws hpair
  intro _
  rw [take_gap htaken hd]
  unfold openedAt
  cases hk : r.pda.state.lexemeKind with
  | none =>
    obtain ⟨rfl, hseg⟩ := hready hk
    rw [take_gap hk hq]
    refine ⟨rfl, ?_⟩
    show Whole (r.seg ++ [b] ++ [c]) rest
    rw [List.append_assoc]
    exact whole_pair hseg hws hpair
  | some kind =>
    rw [take_leave hk hq]
    exact ⟨rfl, whole_pair (whole_nil _) hws hpair⟩

theorem live_cons {p : Pda} {b : UInt8} {rest : List UInt8}
    (h : (Config.run step p (b :: rest)).isSome = true) :
    ∃ q, Config.advance step p b = some q ∧ (Config.run step q rest).isSome = true := by
  rw [run_cons] at h
  cases hb : Config.advance step p b with
  | none => rw [hb] at h; cases h
  | some q => rw [hb] at h; exact ⟨q, rfl, h⟩

section equations

variable {t : ScopeTracker} {p q d : Pda} {b c : UInt8} {rest : List UInt8} {anchor : State}

theorem read_cons {r : Reading} (h : Config.advance step r.pda b = some q) :
    Reading.read schema r (b :: rest) = Reading.read schema (r.take b q schema) rest := by
  rw [Reading.read, h]

theorem readPieces_one (h : Config.advance step p b = some q)
    (hcut : rest.head?.any (joins q.state) = false) :
    readPieces schema t p (b :: rest) = readPieces schema (t.observe [b] p schema) q rest := by
  cases rest with
  | nil => simp only [readPieces, h]
  | cons c rest =>
    rw [readPieces, h]
    dsimp only
    rw [if_neg (by simpa using hcut)]

theorem readPieces_two (hb : Config.advance step p b = some q)
    (hc : Config.advance step q c = some d) (hjoins : joins q.state c = true) :
    readPieces schema t p (b :: c :: rest) =
      readPieces schema (t.observe [b, c] p schema) d rest := by
  rw [readPieces, hb]
  dsimp only
  rw [if_pos hjoins, hc]

theorem gapsRead_lexeme (h : Config.advance step p b = some q)
    (hq : q.state.lexemeKind.isSome = true) :
    gapsRead anchor p (b :: rest) = gapsRead q.state q rest := by
  rw [gapsRead, h]
  dsimp only
  rw [if_pos hq]

theorem gapsRead_alone (h : Config.advance step p b = some q) (hq : q.state.lexemeKind = none)
    (hpair : rest.head?.any (isTwoByteOp b) = false) :
    gapsRead anchor p (b :: rest) =
      (sameSense [b] (openedAt anchor p) p.state && gapsRead (openedAt anchor p) q rest) := by
  rw [gapsRead, h]
  dsimp only
  rw [if_neg (by simp [hq])]
  cases rest with
  | nil => simp [gapsRead]
  | cons c rest =>
    dsimp only
    rw [if_neg (by simpa using hpair)]

theorem gapsRead_pair (hb : Config.advance step p b = some q)
    (hc : Config.advance step q c = some d) (hq : q.state.lexemeKind = none)
    (hpair : isTwoByteOp b c = true) :
    gapsRead anchor p (b :: c :: rest) =
      (completes q.state c && gapsRead (openedAt anchor p) d rest) := by
  rw [gapsRead, hb]
  dsimp only
  rw [if_neg (by simp [hq]), if_pos hpair, hc]

theorem not_joins_of_lexeme {s : State} (h : s.lexemeKind.isSome = true) (o : Option UInt8) :
    o.any (joins s) = false := by
  have hnone : operatorByte s = none := by
    cases ho : operatorByte s with
    | none => rfl
    | some x => simp [operatorByte_gap s (by simp [ho])] at h
  cases o <;> simp [joins, completes, hnone]

theorem not_joins_of_alone (h : Config.advance step p b = some q)
    (hpair : rest.head?.any (isTwoByteOp b) = false) : rest.head?.any (joins q.state) = false := by
  cases rest with
  | nil => rfl
  | cons c rest =>
    by_contra hjoins
    have hcompletes : completes q.state c = true := by
      simp only [List.head?_cons, Option.any_some, joins, Bool.not_eq_false, Bool.and_eq_true]
        at hjoins
      exact hjoins.1.1
    have hop := (completes_pair h hcompletes).1
    simp [hop] at hpair

end equations

/-- A token whose gaps read is read byte by byte. -/
theorem read_pieces {n : Nat} {rest : List UInt8} {r : Reading} {anchor : State}
    (hn : rest.length ≤ n) (hr : Live r) (hready : Ready r anchor rest)
    (hgaps : gapsRead anchor r.pda rest = true)
    (hlive : (Config.run step r.pda rest).isSome = true) :
    Reading.read schema r rest = readPieces schema (r.finish schema) r.pda rest := by
  induction n generalizing rest r anchor with
  | zero =>
    obtain rfl : rest = [] := List.length_eq_zero_iff.mp (Nat.le_zero.mp hn)
    rfl
  | succ n ih =>
    cases rest with
    | nil => rfl
    | cons b rest =>
      obtain ⟨q, hb, hrest⟩ := live_cons hlive
      have hshort : rest.length ≤ n := Nat.le_of_succ_le_succ hn
      have htaken : (r.take b q schema).pda = q := take_pda r b q
      rw [read_cons hb]
      cases hq : q.state.lexemeKind with
      | some kind =>
        have hlexeme : q.state.lexemeKind.isSome = true := by rw [hq]; rfl
        have hone : (r.take b q schema).finish schema = (r.finish schema).observe [b] r.pda schema :=
          take_alone hr hb hready (fun hnone => by rw [hq] at hnone; cases hnone)
        rw [gapsRead_lexeme hb hlexeme] at hgaps
        rw [readPieces_one hb (not_joins_of_lexeme hlexeme _), ← hone]
        have hnext : Ready (r.take b q schema) q.state rest :=
          ready_lexeme (by rw [htaken, hlexeme])
        have hih := ih hshort (take_live hr) hnext (by rw [htaken]; exact hgaps)
          (by rw [htaken]; exact hrest)
        rwa [htaken] at hih
      | none =>
        cases hpair : rest.head?.any (isTwoByteOp b) with
        | false =>
          rw [gapsRead_alone hb hq hpair, Bool.and_eq_true] at hgaps
          have hone : (r.take b q schema).finish schema =
              (r.finish schema).observe [b] r.pda schema :=
            take_alone hr hb hready fun _ => hgaps.1
          have hwhole : ∀ seg, Whole seg (b :: rest) → Whole (seg ++ [b]) rest :=
            fun seg hseg => whole_byte hseg hpair (gap_byte hb hq)
          rw [readPieces_one hb (not_joins_of_alone hb hpair), ← hone]
          have hih := ih (r := r.take b q schema) hshort (take_live hr)
            (ready_take hq hready hwhole) (by rw [htaken]; exact hgaps.2)
            (by rw [htaken]; exact hrest)
          rwa [htaken] at hih
        | true =>
          cases rest with
          | nil => cases hpair
          | cons c rest =>
            obtain ⟨d, hc, hrest⟩ := live_cons hrest
            rw [gapsRead_pair hb hc hq hpair, Bool.and_eq_true] at hgaps
            obtain ⟨hd, hended⟩ := completes_advance hc hgaps.1
            have hpiece : ((r.take b q schema).take c d schema).finish schema =
                (r.finish schema).observe [b, c] r.pda schema :=
              take_pair_finish hr hb hc hq hd (twoByteOp_not_ws hpair) hpair
                fun hk => (hready hk).2 [b, c] ⟨rest, rfl⟩
            have htwice : ((r.take b q schema).take c d schema).pda = d := take_pda _ c d
            have hih := ih (r := (r.take b q schema).take c d schema) (Nat.le_of_succ_le hshort)
              (take_live (take_live hr)) (ready_pair hq hd hpair hready)
              (by rw [htwice]; exact hgaps.2) (by rw [htwice]; exact hrest)
            rw [htwice, hpiece] at hih
            rw [read_cons (by rw [htaken]; exact hc), hih]
            cases hjoins : joins q.state c with
            | true => rw [readPieces_two hb hc hjoins]
            | false =>
              have hcut : rest.head?.any (joins d.state) = false := by
                cases rest <;> simp [joins, completes, hended]
              rw [observe_comparison (finish_inStep hr) hb hc hgaps.1 hjoins,
                readPieces_one hb (by simpa using hjoins), readPieces_one hc hcut]

theorem observe_pieces {t : ScopeTracker} {p : Pda} {token : List UInt8} (ht : InStep t p)
    (hgaps : gapsRead p.state p token = true)
    (hlive : (Config.run step p token).isSome = true) :
    t.observe token p schema = readPieces schema t p token := by
  have hready : Ready (Reading.start t p schema) p.state token := by
    intro hk
    rw [start_pda] at hk
    rw [start_gap ht hk]
    exact ⟨rfl, whole_nil token⟩
  have hread : t.observe token p schema = readPieces schema
      ((Reading.start t p schema).finish schema) (Reading.start t p schema).pda token :=
    read_pieces (Nat.le_refl token.length) (start_live ht) hready
      (by rw [start_pda]; exact hgaps) (by rw [start_pda]; exact hlive)
  rwa [start_finish ht, start_pda] at hread

/-! ## A stream in pieces -/

/-- The pieces of a stream are those of its two parts, when the cut between
them splits no operator. -/
theorem readPieces_append {n : Nat} {t : ScopeTracker} {p q : Pda} {xs ys : List UInt8}
    (hn : xs.length ≤ n) (h : Config.run step p xs = some q)
    (hcut : ys.head?.any (joins q.state) = false) :
    readPieces schema t p (xs ++ ys) = readPieces schema (readPieces schema t p xs) q ys := by
  induction n generalizing t p xs with
  | zero =>
    obtain rfl : xs = [] := List.length_eq_zero_iff.mp (Nat.le_zero.mp hn)
    obtain rfl : p = q := by simpa using h
    rfl
  | succ n ih =>
    cases xs with
    | nil =>
      obtain rfl : p = q := by simpa using h
      rfl
    | cons b xs =>
      have hshort : xs.length ≤ n := Nat.le_of_succ_le_succ hn
      rw [run_cons, Option.bind_eq_some_iff] at h
      obtain ⟨d, hb, hrest⟩ := h
      cases hjoins : xs.head?.any (joins d.state) with
      | false =>
        have hhead : (xs ++ ys).head?.any (joins d.state) = false := by
          cases xs with
          | nil =>
            obtain rfl : d = q := by simpa using hrest
            exact hcut
          | cons c xs => exact hjoins
        rw [List.cons_append, readPieces_one hb hhead, readPieces_one hb hjoins]
        exact ih hshort hrest
      | true =>
        cases xs with
        | nil => cases hjoins
        | cons c xs =>
          rw [run_cons, Option.bind_eq_some_iff] at hrest
          obtain ⟨e, hc, hrest⟩ := hrest
          rw [List.cons_append, List.cons_append, readPieces_two hb hc hjoins,
            readPieces_two hb hc hjoins]
          exact ih (Nat.le_of_succ_le hshort) hrest

/-- The next byte of the stream completes no operator that a cut split. -/
theorem cutsRead_head {p : Pda} {tokens : List (List UInt8)} (h : cutsRead p tokens = true) :
    tokens.flatten.head?.any (joins p.state) = false := by
  induction tokens with
  | nil => rfl
  | cons token rest ih =>
    simp only [cutsRead, Bool.and_eq_true] at h
    obtain ⟨⟨hhead, -⟩, hrest⟩ := h
    cases token with
    | nil => exact ih hrest
    | cons b token => simpa using hhead

/-- A stream whose cuts are harmless is read byte by byte, whatever its
tokens are. -/
theorem observeAll_pieces {t : ScopeTracker} {p : Pda} {tokens : List (List UInt8)}
    (ht : InStep t p) (hcuts : cutsRead p tokens = true)
    (hlive : (Config.run step p tokens.flatten).isSome = true) :
    observeAll schema t p tokens = readPieces schema t p tokens.flatten := by
  induction tokens generalizing t p with
  | nil => rfl
  | cons token rest ih =>
    rw [List.flatten_cons, run_append] at hlive
    cases hq : Config.run step p token with
    | none => rw [hq] at hlive; cases hlive
    | some q =>
      rw [hq] at hlive
      simp only [cutsRead, hq, Bool.and_eq_true] at hcuts
      obtain ⟨⟨-, hgaps⟩, hrest⟩ := hcuts
      have htoken : t.observe token p schema = readPieces schema t p token :=
        observe_pieces ht hgaps (by rw [hq]; rfl)
      have hstep : InStep (t.observe token p schema) q := observe_inStep ht hq
      rw [List.flatten_cons, readPieces_append (Nat.le_refl _) hq (cutsRead_head hrest), ← htoken]
      rw [observeAll, hq]
      exact ih hstep hrest hlive

/-- Two cuts of one live stream leave the same tracker. -/
theorem observeAll_same {us vs : List (List UInt8)} (hbytes : us.flatten = vs.flatten)
    (hlive : (Config.run step Pda.new us.flatten).isSome = true)
    (hus : cutsRead Pda.new us = true) (hvs : cutsRead Pda.new vs = true) :
    observeAll schema new Pda.new us = observeAll schema new Pda.new vs := by
  rw [observeAll_pieces new_inStep hus hlive, hbytes]
  rw [hbytes] at hlive
  rw [observeAll_pieces new_inStep hvs hlive]

end purecard.scope.ScopeTracker

namespace purecard.session.DecoderSession

open pushdown pda vocab compiled model scope

/-- Two sessions that read the same bytes in harmless cuts are alike: the
automaton and the tracker are the same, so the position, the prefix, the
columns, the variables and the fused position are. Every token has the same
bit in both masks, and the stream is complete in both or in neither. -/
theorem the_mask_forgets_the_cuts (v w : Vocab) (schema : Schema) (ops ops' : List Op)
    (hbytes : (tokensRead v schema ops).flatten = (tokensRead w schema ops').flatten)
    (hcuts : ScopeTracker.cutsRead Pda.new (tokensRead v schema ops) = true)
    (hcuts' : ScopeTracker.cutsRead Pda.new (tokensRead w schema ops') = true) :
    (overFixed v (some schema) ops).cursor = (overFixed w (some schema) ops').cursor ∧
      (overFixed v (some schema) ops).tracker = (overFixed w (some schema) ops').tracker ∧
      (∀ i j bytes, v.bytes i = some bytes → w.bytes j = some bytes →
        (overFixed v (some schema) ops).allowedMask.mask.test i =
          (overFixed w (some schema) ops').allowedMask.mask.test j) ∧
      (overFixed v (some schema) ops).allowedMask.mask.test v.len =
        (overFixed w (some schema) ops').allowedMask.mask.test w.len ∧
      (overFixed v (some schema) ops).isComplete = (overFixed w (some schema) ops').isComplete := by
  have hs := overFixed_spells v schema ops
  have ht := overFixed_spells w schema ops'
  have hvocab := (overFixed_same v (some schema) ops).2.1
  have hvocab' := (overFixed_same w (some schema) ops').2.1
  obtain ⟨pda, hpda, hrun⟩ := hs.cursor
  obtain ⟨pda', hpda', hrun'⟩ := ht.cursor
  obtain rfl : pda = pda' := by
    rw [hbytes, hrun'] at hrun
    exact (Option.some.inj hrun).symm
  have htracker : (overFixed v (some schema) ops).tracker =
      (overFixed w (some schema) ops').tracker := by
    rw [hs.tracker, ht.tracker]
    exact ScopeTracker.observeAll_same hbytes (by rw [hrun]; rfl) hcuts hcuts'
  have hend := test_allowedMask_eos hs.bound hpda
  have hend' := test_allowedMask_eos ht.bound hpda'
  rw [hvocab] at hend
  rw [hvocab', ← htracker] at hend'
  refine ⟨hpda.trans hpda'.symm, htracker, ?_, hend.trans hend'.symm, ?_⟩
  · intro i j bytes hi hj
    rw [← hvocab] at hi
    rw [← hvocab'] at hj
    rw [test_allowedMask hs.bound hpda hi, test_allowedMask ht.bound hpda' hj, htracker]
  · rw [isComplete_eq hs.bound hpda, isComplete_eq ht.bound hpda', htracker]

/-- A filter up to the text it compares, in one token and with its name cut,
the equality in one token and in two, and a number. -/
def filterVocab : Vocab :=
  ⟨[lit "|A.all()->filter(x|$x.p", lit "==", lit "=", lit "1", lit "|A.al", lit "l()->fil",
    lit "ter(x|$x.p"], by decide⟩

/-- An equality that is cut loses the type that it compares: a number is
masked out behind one token and in behind two, after the same bytes. -/
theorem a_cut_equality_loses_its_type :
    tokensRead filterVocab oneText [.acceptToken 0, .acceptToken 1] =
        [lit "|A.all()->filter(x|$x.p", lit "=="] ∧
      tokensRead filterVocab oneText [.acceptToken 0, .acceptToken 2, .acceptToken 2] =
        [lit "|A.all()->filter(x|$x.p", lit "=", lit "="] ∧
      (overFixed filterVocab (some oneText)
        [.acceptToken 0, .acceptToken 1]).allowedMask.mask.test 3 = false ∧
      (overFixed filterVocab (some oneText)
        [.acceptToken 0, .acceptToken 2, .acceptToken 2]).allowedMask.mask.test 3 = true := by
  decide +kernel

/-- The cuts inside of names are harmless: the equality still has its type. -/
theorem a_cut_name_keeps_the_type :
    (overFixed filterVocab (some oneText) [.acceptToken 0, .acceptToken 1]).tracker =
      (overFixed filterVocab (some oneText)
        [.acceptToken 4, .acceptToken 5, .acceptToken 6, .acceptToken 1]).tracker := by
  obtain ⟨-, htracker, -⟩ := the_mask_forgets_the_cuts filterVocab filterVocab oneText
    [.acceptToken 0, .acceptToken 1]
    [.acceptToken 4, .acceptToken 5, .acceptToken 6, .acceptToken 1]
    (by decide +kernel) (by decide +kernel) (by decide +kernel)
  exact htracker

end purecard.session.DecoderSession
