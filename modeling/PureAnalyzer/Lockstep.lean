-- The pieces that the scope machine reads out of a stream of tokens, each with
-- the tracker that reads it. The open brackets among the pieces are the open
-- brackets of the automaton, however the bytes are cut into tokens.
import PureAnalyzer.Frames

namespace purecard.scope.ScopeTracker

open pushdown pda model

/-! ## The pieces of a stream -/

/-- A piece of the stream, where it opened, and the tracker that reads it. -/
structure Visit where
  tracker : ScopeTracker
  bytes : List UInt8
  anchor : State
deriving DecidableEq, Repr

def Visit.lexeme (v : Visit) : Lexeme := classifyAt v.bytes v.anchor

def Visit.after (v : Visit) (schema : Schema) : ScopeTracker :=
  v.tracker.dispatchToken v.bytes v.anchor schema

variable (schema : Schema)

/-- The pieces of a gap, as `flushGap` reads them. -/
def unitVisits (t : ScopeTracker) (anchor : State) : List (List UInt8) → List Visit
  | [] => []
  | unit :: rest => ⟨t, unit, anchor⟩ :: unitVisits (t.dispatchToken unit anchor schema) anchor rest

def gapVisits (t : ScopeTracker) (gap : List UInt8) (anchor : State) : List Visit :=
  unitVisits schema t anchor (gapUnits gap.length gap)

/-- The lexeme that ends, as `emitLexeme` reads it. -/
def lexemeVisit (t : ScopeTracker) (seg : List UInt8) (anchor : State) (continuing : Bool) :
    Visit :=
  match continuing, t.pending with
  | true, some done => ⟨{ t with pending := none }, done.buf ++ seg, done.anchor⟩
  | _, _ => ⟨t, seg, anchor⟩

/-- What one byte that moves the automaton to `next` lets the tracker read. -/
def Reading.takeVisits (r : Reading) (next : Pda) : List Visit :=
  match r.pda.state.lexemeKind with
  | some kind =>
    if next.state.lexemeKind = some kind then []
    else [lexemeVisit r.tracker r.seg r.anchor r.continuing]
  | none =>
    if next.state.lexemeKind.isSome then gapVisits schema r.tracker r.seg r.anchor else []

def Reading.finishVisits (r : Reading) : List Visit :=
  match r.pda.state.lexemeKind with
  | some _ => []
  | none => gapVisits schema r.tracker r.seg r.anchor

def Reading.visits : Reading → List UInt8 → List Visit
  | r, [] => r.finishVisits schema
  | r, byte :: rest =>
    match Config.advance step r.pda byte with
    | none => []
    | some next => r.takeVisits schema next ++ Reading.visits (r.take byte next schema) rest

def startVisits (t : ScopeTracker) (pre : Pda) : List Visit :=
  match t.pending with
  | some p =>
    if pre.state.lexemeKind = some p.kind then []
    else [⟨{ t with pending := none }, p.buf, p.anchor⟩]
  | none => []

/-- The pieces that one token lets the tracker read. -/
def observeVisits (t : ScopeTracker) (bytes : List UInt8) (pre : Pda) : List Visit :=
  startVisits t pre ++ Reading.visits schema (Reading.start t pre schema) bytes

/-- The pieces of a stream of tokens. -/
def visits : ScopeTracker → Pda → List (List UInt8) → List Visit
  | _, _, [] => []
  | t, p, token :: rest =>
    match Config.run step p token with
    | none => []
    | some q => observeVisits schema t token p ++ visits (t.observe token p schema) q rest

/-! ## The visits are the run -/

/-- From `t` the pieces lead to `u`: each is read by the tracker that the one
before it left, but for the lexeme that waits. -/
def Trail (t : ScopeTracker) : List Visit → ScopeTracker → Prop
  | [], u => ∃ waiting, u = { t with pending := waiting }
  | v :: vs, u => (∃ waiting, v.tracker = { t with pending := waiting }) ∧
      Trail (v.after schema) vs u

variable {schema}

theorem Trail.append {t u w : ScopeTracker} {vs ws : List Visit} (h : Trail schema t vs u)
    (k : Trail schema u ws w) : Trail schema t (vs ++ ws) w := by
  induction vs generalizing t with
  | nil =>
    obtain ⟨waiting, rfl⟩ := h
    cases ws with
    | nil =>
      obtain ⟨other, rfl⟩ := k
      exact ⟨other, rfl⟩
    | cons v ws =>
      obtain ⟨⟨other, hother⟩, hrest⟩ := k
      exact ⟨⟨other, hother⟩, hrest⟩
  | cons v vs ih => exact ⟨h.1, ih h.2⟩

theorem trail_one {t : ScopeTracker} (waiting : Option Pending) (bytes : List UInt8)
    (anchor : State) : Trail schema t [⟨{ t with pending := waiting }, bytes, anchor⟩]
      ({ t with pending := waiting }.dispatchToken bytes anchor schema) :=
  ⟨⟨waiting, rfl⟩, ⟨(dispatchToken { t with pending := waiting } bytes anchor schema).pending,
    rfl⟩⟩

theorem unitVisits_trail (t : ScopeTracker) (anchor : State) (units : List (List UInt8)) :
    Trail schema t (unitVisits schema t anchor units)
      (units.foldl (fun t unit => t.dispatchToken unit anchor schema) t) := by
  induction units generalizing t with
  | nil => exact ⟨t.pending, rfl⟩
  | cons unit rest ih => exact ⟨⟨t.pending, rfl⟩, ih _⟩

theorem lexemeVisit_trail (t : ScopeTracker) (seg : List UInt8) (anchor : State)
    (continuing : Bool) : Trail schema t [lexemeVisit t seg anchor continuing]
      (t.emitLexeme seg anchor continuing schema) := by
  unfold lexemeVisit emitLexeme
  cases continuing with
  | false => exact trail_one t.pending seg anchor
  | true =>
    cases hp : t.pending with
    | none => exact ⟨⟨t.pending, rfl⟩, ⟨_, rfl⟩⟩
    | some done => exact trail_one none (done.buf ++ seg) done.anchor

theorem takeVisits_trail (r : Reading) (byte : UInt8) (next : Pda) :
    Trail schema r.tracker (r.takeVisits schema next) (r.take byte next schema).tracker := by
  unfold Reading.takeVisits Reading.take
  cases r.pda.state.lexemeKind with
  | some kind =>
    dsimp only
    by_cases hsame : next.state.lexemeKind = some kind
    · rw [if_pos hsame, if_pos hsame]
      exact ⟨r.tracker.pending, rfl⟩
    · rw [if_neg hsame, if_neg hsame]
      exact lexemeVisit_trail _ _ _ _
  | none =>
    dsimp only
    by_cases hsome : next.state.lexemeKind.isSome = true
    · rw [if_pos hsome, if_pos hsome]
      exact unitVisits_trail _ _ _
    · rw [if_neg hsome, if_neg hsome]
      exact ⟨r.tracker.pending, rfl⟩

theorem finishVisits_trail (r : Reading) :
    Trail schema r.tracker (r.finishVisits schema) (r.finish schema) := by
  unfold Reading.finishVisits Reading.finish
  cases r.pda.state.lexemeKind with
  | some kind =>
    dsimp only
    unfold bufferTrailing
    split <;> exact ⟨_, rfl⟩
  | none => exact unitVisits_trail _ _ _

theorem read_trail (r : Reading) (bytes : List UInt8) :
    Trail schema r.tracker (Reading.visits schema r bytes) (Reading.read schema r bytes) := by
  induction bytes generalizing r with
  | nil => exact finishVisits_trail r
  | cons byte rest ih =>
    unfold Reading.visits Reading.read
    cases Config.advance step r.pda byte with
    | none => exact ⟨r.tracker.pending, rfl⟩
    | some next => exact (takeVisits_trail r byte next).append (ih _)

theorem startVisits_trail (t : ScopeTracker) (pre : Pda) :
    Trail schema t (startVisits t pre) (Reading.start t pre schema).tracker := by
  unfold startVisits Reading.start
  cases t.pending with
  | none => exact ⟨t.pending, rfl⟩
  | some p =>
    dsimp only
    by_cases hsame : pre.state.lexemeKind = some p.kind
    · rw [if_pos hsame, if_pos hsame]
      exact ⟨t.pending, rfl⟩
    · rw [if_neg hsame, if_neg hsame]
      exact trail_one none p.buf p.anchor

variable (schema) in
/-- The pieces of a stream lead the tracker where the stream does. -/
theorem visits_trail (t : ScopeTracker) (p : Pda) (tokens : List (List UInt8)) :
    Trail schema t (visits schema t p tokens) (observeAll schema t p tokens) := by
  induction tokens generalizing t p with
  | nil => exact ⟨t.pending, rfl⟩
  | cons token rest ih =>
    unfold visits observeAll
    cases Config.run step p token with
    | none => exact ⟨t.pending, rfl⟩
    | some q =>
      have htoken := (startVisits_trail t p).append (read_trail (Reading.start t p schema) token)
      exact htoken.append (ih _ _)

/-! ## Counting the brackets -/

/-- The depth behind a bracket. No bracket closes at depth 0. -/
def level (opens closes : Bool) (n : Nat) : Option Nat :=
  if opens then some (n + 1)
  else if closes then
    match n with
    | 0 => none
    | m + 1 => some m
  else some n

def Visit.level (v : Visit) (n : Nat) : Option Nat :=
  ScopeTracker.level (v.bytes ∈ OPENERS) (v.bytes ∈ CLOSERS) n

/-- What the open frames keep behind the piece, innermost first. A frame that
opens keeps `b`. -/
def Visit.kept {β : Type} (v : Visit) (b : β) (open_ : List β) : List β :=
  if v.bytes ∈ OPENERS then b :: open_
  else if v.bytes ∈ CLOSERS then open_.tail
  else open_

/-- The depth behind a list of pieces. -/
def levels (n : Nat) (vs : List Visit) : Option Nat := vs.foldlM (fun n v => v.level n) n

/-- The depth behind the bytes of a gap. -/
def depthAfter (n : Nat) (bytes : List UInt8) : Option Nat :=
  bytes.foldlM (fun n b => level (openerOf b).isSome (closerOf b).isSome n) n

theorem levels_nil (n : Nat) : levels n [] = some n := rfl

theorem levels_append (n : Nat) (vs ws : List Visit) :
    levels n (vs ++ ws) = (levels n vs).bind fun m => levels m ws := List.foldlM_append

theorem levels_cons (n : Nat) (v : Visit) (vs : List Visit) :
    levels n (v :: vs) = (v.level n).bind fun m => levels m vs := List.foldlM_cons

theorem depthAfter_append (n : Nat) (xs ys : List UInt8) :
    depthAfter n (xs ++ ys) = (depthAfter n xs).bind fun m => depthAfter m ys := List.foldlM_append

theorem depthAfter_cons (n : Nat) (b : UInt8) (bytes : List UInt8) :
    depthAfter n (b :: bytes) = (depthAfter n [b]).bind fun m => depthAfter m bytes := depthAfter_append n [b] bytes

/-- A byte that is no bracket. -/
def plainByte (b : UInt8) : Bool := (openerOf b).isNone && (closerOf b).isNone

theorem depthAfter_plain {n : Nat} {b : UInt8} (h : plainByte b = true) (rest : List UInt8) :
    depthAfter n (b :: rest) = depthAfter n rest := by
  simp only [plainByte, Bool.and_eq_true, Option.isNone_iff_eq_none] at h
  rw [depthAfter_cons]
  simp [depthAfter, level, h.1, h.2]

theorem depthAfter_all_plain {n : Nat} {bytes : List UInt8} (h : bytes.all plainByte = true)
    (rest : List UInt8) : depthAfter n (bytes ++ rest) = depthAfter n rest := by
  induction bytes with
  | nil => rfl
  | cons b bytes ih =>
    rw [List.all_cons, Bool.and_eq_true] at h
    rw [List.cons_append, depthAfter_plain h.1, ih h.2]

/-- Bytes that open with no bracket, so that the whole of them is none. -/
def Plain (bytes : List UInt8) : Prop := bytes.head?.any plainByte = true

theorem Plain.not_bracket {bytes : List UInt8} (h : Plain bytes) :
    bytes ∉ OPENERS ∧ bytes ∉ CLOSERS := by
  cases bytes with
  | nil => cases h
  | cons b rest =>
    simp only [Plain, List.head?_cons, Option.any_some, plainByte, Bool.and_eq_true,
      Option.isNone_iff_eq_none] at h
    rw [mem_openers, mem_closers, h.1, h.2]
    exact ⟨nofun, nofun⟩

theorem Plain.append {bytes : List UInt8} (h : Plain bytes) (more : List UInt8) :
    Plain (bytes ++ more) := by
  cases bytes with
  | nil => cases h
  | cons b rest => exact h

theorem level_plain {v : Visit} (h : Plain v.bytes) (n : Nat) : v.level n = some n := by
  simp [Visit.level, level, h.not_bracket.1, h.not_bracket.2]

/-- A piece of one byte counts as the byte does. -/
theorem level_byte (t : ScopeTracker) (b : UInt8) (anchor : State) (n : Nat) :
    Visit.level ⟨t, [b], anchor⟩ n = depthAfter n [b] := by
  simp [Visit.level, depthAfter, mem_openers, mem_closers]

theorem bracket_cases {b : UInt8} (h : plainByte b = false) :
    b ∈ lit "([\x7b)]\x7d" := by
  have hbytes : lit "([\x7b)]\x7d" = [('(' : UInt8), ('[' : UInt8), ('{' : UInt8), (')' : UInt8),
    (']' : UInt8), ('}' : UInt8)] := by decide
  rw [hbytes]
  unfold plainByte openerOf closerOf at h
  grind

/-- What no bracket satisfies holds of plain bytes alone. -/
theorem plain_of {p : UInt8 → Bool} (hp : (lit "([\x7b)]\x7d").any p = false) {b : UInt8}
    (h : p b = true) : plainByte b = true := by
  cases hb : plainByte b with
  | true => rfl
  | false =>
    have hany := List.any_eq_true.mpr ⟨b, bracket_cases hb, h⟩
    rw [hp] at hany
    cases hany

theorem plain_whitespace {b : UInt8} (h : isAsciiWhitespace b = true) : plainByte b = true :=
  plain_of (by decide) h

theorem plain_identTail {b : UInt8} (h : isIdentTail b = true) : plainByte b = true :=
  plain_of (by decide) h

theorem plain_identStart {b : UInt8} (h : isIdentStart b = true) : plainByte b = true :=
  plain_of (by decide) h

theorem plain_twoByteOp {b c : UInt8} (h : isTwoByteOp b c = true) :
    plainByte b = true ∧ plainByte c = true := by
  have htable : ∀ op ∈ TWO_BYTE_OPS, op.all plainByte = true := by decide
  have hop := htable _ (List.contains_iff_mem.mp h)
  simpa using hop

/-- The pieces of a gap count as its bytes do. -/
theorem levels_units (t : ScopeTracker) (anchor : State) {gap : List UInt8} {k : Nat} (n : Nat)
    (hk : gap.length ≤ k) :
    levels n (unitVisits schema t anchor (gapUnits k gap)) = depthAfter n gap := by
  induction k generalizing gap t n with
  | zero =>
    obtain rfl : gap = [] := List.length_eq_zero_iff.mp (Nat.le_zero.mp hk)
    rfl
  | succ k ih =>
    cases gap with
    | nil => rfl
    | cons b tail =>
      simp only [List.length_cons, Nat.add_le_add_iff_right] at hk
      unfold gapUnits
      by_cases hws : isAsciiWhitespace b = true
      · rw [if_pos hws, depthAfter_plain (plain_whitespace hws)]
        exact ih t n hk
      · rw [if_neg hws]
        by_cases hpair : tail.head?.any (isTwoByteOp b) = true
        · rw [if_pos hpair]
          cases tail with
          | nil => cases hpair
          | cons c tail =>
            obtain ⟨hb, hc⟩ := plain_twoByteOp hpair
            rw [depthAfter_plain hb, depthAfter_plain hc]
            unfold unitVisits
            rw [levels_cons, level_plain (v := ⟨t, b :: (c :: tail).take 1, anchor⟩) hb]
            exact ih _ n (Nat.le_of_succ_le hk)
        · rw [if_neg hpair]
          by_cases hident : isIdentStart b = true
          · have hb := plain_identStart hident
            have htail : (tail.takeWhile isIdentTail).all plainByte = true :=
              List.all_eq_true.mpr fun c hc => plain_identTail
                (List.all_eq_true.mp List.all_takeWhile c hc)
            have hwalk := depthAfter_all_plain (n := n) htail (tail.dropWhile isIdentTail)
            rw [List.takeWhile_append_dropWhile] at hwalk
            rw [if_pos hident, depthAfter_plain hb, hwalk]
            unfold unitVisits
            rw [levels_cons,
              level_plain (v := ⟨t, b :: tail.takeWhile isIdentTail, anchor⟩) hb]
            exact ih _ n (Nat.le_trans (List.dropWhile_suffix _).length_le hk)
          · rw [if_neg hident, depthAfter_cons]
            unfold unitVisits
            rw [levels_cons, level_byte]
            exact congrArg _ (funext fun m => ih _ m hk)

/-! ## Brackets and the automaton -/

/-- A bracket outside a string literal stands in a gap, and so does the byte
behind it. -/
theorem bracket_table : ∀ s : State, s.quote = .Inside ∨
    ((none :: ALL_FRAMES.map some).all fun top => (lit "([\x7b)]\x7d").all fun b =>
      (step s top b).target.all fun n => n.lexemeKind.isNone) = true := by
  decide +kernel

theorem gap_outside : ∀ s : State, s.lexemeKind = none → s.quote ≠ .Inside := by
  decide

section Byte

variable {p q : Pda} {b : UInt8}

theorem bracket_gap (h : Config.advance step p b = some q) (hout : p.state.quote ≠ .Inside)
    (hb : plainByte b = false) : q.state.lexemeKind = none := by
  have htable := (bracket_table p.state).resolve_left hout
  have htop : p.stack.head? ∈ none :: ALL_FRAMES.map some := by
    cases p.stack.head? with
    | none => exact List.mem_cons_self
    | some f => exact List.mem_cons_of_mem _ (List.mem_map_of_mem f.mem_all)
  have hrow := List.all_eq_true.mp (List.all_eq_true.mp htable _ htop) b (bracket_cases hb)
  rw [advance_target h, Option.all_some, Option.isNone_iff_eq_none] at hrow
  exact hrow

/-- Outside the literals the stack counts a byte as the gap does. -/
theorem depthAfter_outside (h : Config.advance step p b = some q) (hout : p.state.quote ≠ .Inside) :
    depthAfter p.stack.length [b] = some q.stack.length := by
  have hscan := scan_advance h
  have hlength : ∀ {xs : List Frame} {ys : List BracketKind}, ys = xs.map Frame.kind →
      xs.length = ys.length := by
    rintro xs ys rfl
    exact (List.length_map _).symm
  have hbody : scanByte (.Outside, p.stack.map Frame.kind) b =
      some (q.state.quote, q.stack.map Frame.kind) := by
    cases hq : p.state.quote with
    | Inside => exact absurd hq hout
    | Outside => rwa [hq] at hscan
    | Pending => rw [hq] at hscan; exact hscan
  simp only [scanByte] at hbody
  split at hbody
  · rename_i hquote
    subst hquote
    simp only [Option.some.injEq, Prod.mk.injEq] at hbody
    rw [hlength hbody.2, List.length_map]
    rfl
  · split at hbody
    · rename_i k ho
      simp only [Option.some.injEq, Prod.mk.injEq] at hbody
      simp [depthAfter, level, ho, hlength hbody.2]
    · rename_i k ho hc
      split at hbody
      · rename_i hhead
        simp only [Option.some.injEq, Prod.mk.injEq] at hbody
        cases hp : p.stack with
        | nil => rw [hp] at hhead; cases hhead
        | cons f rest =>
          rw [hp] at hbody
          simp [depthAfter, level, ho, hc, hlength hbody.2]
      · cases hbody
    · rename_i ho hc
      simp only [Option.some.injEq, Prod.mk.injEq] at hbody
      simp [depthAfter, level, ho, hc, hlength hbody.2]

/-- Inside a literal the stack stays. -/
theorem stack_inside (h : Config.advance step p b = some q) (hin : p.state.quote = .Inside) :
    q.stack.length = p.stack.length := by
  have hscan := scan_advance h
  rw [hin] at hscan
  simp only [scanByte, Option.some.injEq, Prod.mk.injEq] at hscan
  have hlength := congrArg List.length hscan.2
  simpa using hlength.symm

/-- A byte that leads into a gap. -/
theorem walk_gap (h : Config.advance step p b = some q) (hq : q.state.lexemeKind = none) :
    depthAfter p.stack.length [b] = some q.stack.length := by
  by_cases hin : p.state.quote = .Inside
  · -- only the quote leaves a literal
    have hscan := scan_advance h
    have hquote := gap_outside _ hq
    rw [hin] at hscan
    simp only [scanByte, Option.some.injEq, Prod.mk.injEq] at hscan
    have hb : b = QUOTE := by
      by_contra hne
      rw [if_neg hne] at hscan
      exact hquote hscan.1.symm
    rw [stack_inside h hin, hb]
    rfl
  · exact depthAfter_outside h hin

/-- A byte that leads into a lexeme leaves the stack, and where it opens the
lexeme it is no bracket. -/
theorem lexeme_byte (h : Config.advance step p b = some q)
    (hq : q.state.lexemeKind.isSome = true) :
    q.stack.length = p.stack.length ∧ (p.state.lexemeKind = none → plainByte b = true) := by
  by_cases hin : p.state.quote = .Inside
  · exact ⟨stack_inside h hin, fun hp => absurd hin (gap_outside _ hp)⟩
  · have hb : plainByte b = true := by
      by_contra hne
      rw [bracket_gap h hin (by simpa using hne)] at hq
      cases hq
    have hwalk := depthAfter_outside h hin
    rw [depthAfter_plain hb] at hwalk
    exact ⟨(Option.some.inj hwalk).symm, fun _ => hb⟩

end Byte

/-! ## The reading of a token -/

/-- The lexeme that waits opens with no bracket. -/
def WaitsPlain (t : ScopeTracker) : Prop := ∀ waiting, t.pending = some waiting → Plain waiting.buf

/-- The brackets of a reading: those that the tracker has read make `n`, and
with those of the open gap the stack of the automaton. -/
structure Counted (r : Reading) (n : Nat) : Prop where
  gap : r.pda.state.lexemeKind = none → depthAfter n r.seg = some r.pda.stack.length
  lexeme : r.pda.state.lexemeKind.isSome = true → n = r.pda.stack.length
  opened : r.pda.state.lexemeKind.isSome = true → r.continuing = false → Plain r.seg
  waits : r.continuing = true → WaitsPlain r.tracker

theorem start_counted {t : ScopeTracker} {p : Pda} (h : InStep t p) (ht : WaitsPlain t) :
    Counted (Reading.start t p schema) p.stack.length := by
  rw [start_eq h]
  unfold InStep at h
  cases hp : t.pending with
  | none =>
    rw [hp] at h
    refine ⟨fun _ => rfl, fun _ => rfl, fun hsome _ => ?_, fun hc => by cases hc⟩
    simp only [← h] at hsome
    cases hsome
  | some waiting => exact ⟨fun _ => rfl, fun _ => rfl, fun _ hc => (by cases hc), fun _ => ht⟩

theorem startVisits_eq {t : ScopeTracker} {p : Pda} (h : InStep t p) : startVisits t p = [] := by
  unfold startVisits
  unfold InStep at h
  cases hp : t.pending with
  | none => rfl
  | some waiting =>
    rw [hp] at h
    simp [← h]

/-- The lexeme that ends opens with no bracket. -/
theorem lexemeVisit_plain {r : Reading} {n : Nat} (hr : Live r) (hc : Counted r n) {kind : LexKind}
    (hk : r.pda.state.lexemeKind = some kind) :
    Plain (lexemeVisit r.tracker r.seg r.anchor r.continuing).bytes := by
  unfold lexemeVisit
  cases hcont : r.continuing with
  | false => exact hc.opened (by rw [hk]; rfl) hcont
  | true =>
    obtain ⟨done, hdone, -⟩ := hr.waits kind hk hcont
    rw [hdone]
    exact (hc.waits hcont done hdone).append r.seg

variable (schema) in
theorem take_counted {r : Reading} {n : Nat} {b : UInt8} {q : Pda} (hr : Live r)
    (hc : Counted r n) (h : Config.advance step r.pda b = some q) :
    ∃ m, levels n (r.takeVisits schema q) = some m ∧ Counted (r.take b q schema) m := by
  unfold Reading.takeVisits Reading.take
  cases hk : r.pda.state.lexemeKind with
  | some kind =>
    have hsome : r.pda.state.lexemeKind.isSome = true := by rw [hk]; rfl
    have hn := hc.lexeme hsome
    dsimp only
    by_cases hsame : q.state.lexemeKind = some kind
    · rw [if_pos hsame, if_pos hsame]
      have hq : q.state.lexemeKind.isSome = true := by rw [hsame]; rfl
      refine ⟨n, rfl, ?_, fun _ => ?_, fun _ hcont => ?_, hc.waits⟩
      · intro hnone
        rw [hnone] at hsame
        cases hsame
      · rw [hn]
        exact (lexeme_byte h hq).1.symm
      · exact (hc.opened hsome hcont).append [b]
    · rw [if_neg hsame, if_neg hsame]
      have hnone := (kind_advance h hk).resolve_right hsame
      refine ⟨n, ?_, fun _ => ?_, fun hq => ?_, fun hq => ?_, fun hcont => by cases hcont⟩
      · rw [levels_cons, level_plain (lexemeVisit_plain hr hc hk)]
        rfl
      · rw [hn]
        exact walk_gap h hnone
      · rw [hnone] at hq
        cases hq
      · rw [hnone] at hq
        cases hq
  | none =>
    have hwalk := hc.gap hk
    dsimp only
    by_cases hq : q.state.lexemeKind.isSome = true
    · rw [if_pos hq, if_pos hq]
      obtain ⟨hstack, hplain⟩ := lexeme_byte h hq
      refine ⟨r.pda.stack.length, ?_, fun hnone => ?_, fun _ => hstack.symm,
        fun _ _ => hplain hk, fun hcont => by cases hcont⟩
      · unfold gapVisits
        rw [levels_units _ _ _ (Nat.le_refl _)]
        exact hwalk
      · rw [hnone] at hq
        cases hq
    · rw [if_neg hq, if_neg hq]
      simp only [Option.not_isSome_iff_eq_none] at hq
      refine ⟨n, rfl, fun _ => ?_, fun hsome => ?_, fun hsome => ?_, hc.waits⟩
      · rw [depthAfter_append, hwalk]
        exact walk_gap h hq
      · rw [hq] at hsome
        cases hsome
      · rw [hq] at hsome
        cases hsome

theorem finish_counted {r : Reading} {n : Nat} (hr : Live r) (hc : Counted r n) :
    levels n (r.finishVisits schema) = some r.pda.stack.length ∧
      WaitsPlain (r.finish schema) := by
  unfold Reading.finishVisits Reading.finish
  cases hk : r.pda.state.lexemeKind with
  | some kind =>
    have hsome : r.pda.state.lexemeKind.isSome = true := by rw [hk]; rfl
    refine ⟨congrArg some (hc.lexeme hsome), ?_⟩
    intro waiting hwaiting
    unfold bufferTrailing at hwaiting
    cases hcont : r.continuing with
    | false =>
      rw [hcont] at hwaiting
      obtain rfl := Option.some.inj hwaiting
      exact hc.opened hsome hcont
    | true =>
      obtain ⟨done, hdone, -⟩ := hr.waits kind hk hcont
      rw [hcont] at hwaiting
      simp only [if_true, hdone, Option.map_some, Option.some.injEq] at hwaiting
      subst hwaiting
      exact (hc.waits hcont done hdone).append r.seg
  | none =>
    dsimp only
    refine ⟨?_, ?_⟩
    · unfold gapVisits
      rw [levels_units _ _ _ (Nat.le_refl _)]
      exact hc.gap hk
    · intro waiting hwaiting
      rw [flushGap_pending, hr.gap hk] at hwaiting
      cases hwaiting

variable (schema) in
theorem read_counted {rest : List UInt8} {r : Reading} {n : Nat} {q : Pda} (hr : Live r)
    (hc : Counted r n) (h : Config.run step r.pda rest = some q) :
    levels n (Reading.visits schema r rest) = some q.stack.length ∧
      WaitsPlain (Reading.read schema r rest) := by
  induction rest generalizing r n with
  | nil =>
    obtain rfl : r.pda = q := by simpa using h
    exact finish_counted hr hc
  | cons b rest ih =>
    rw [run_cons, Option.bind_eq_some_iff] at h
    obtain ⟨d, hd, hrest⟩ := h
    obtain ⟨m, hm, hcm⟩ := take_counted schema hr hc hd
    unfold Reading.visits Reading.read
    rw [hd]
    dsimp only
    rw [levels_append, hm]
    exact ih (take_live hr) hcm (by rw [take_pda]; exact hrest)

variable (schema) in
/-- The pieces of accepted tokens close what they opened, and what they leave
open is the stack of the automaton. -/
theorem visits_levels {t : ScopeTracker} {p q : Pda} {tokens : List (List UInt8)}
    (hstep : InStep t p) (ht : WaitsPlain t) (h : Config.run step p tokens.flatten = some q) :
    levels p.stack.length (visits schema t p tokens) = some q.stack.length := by
  induction tokens generalizing t p with
  | nil =>
    obtain rfl : p = q := by simpa using h
    rfl
  | cons token rest ih =>
    rw [List.flatten_cons, run_append, Option.bind_eq_some_iff] at h
    obtain ⟨d, hd, hrest⟩ := h
    have hread : Config.run step (Reading.start t p schema).pda token = some d := by
      rw [start_pda]
      exact hd
    obtain ⟨hlevels, hwaits⟩ :=
      read_counted schema (start_live hstep) (start_counted hstep ht) hread
    unfold visits observeVisits
    rw [hd]
    dsimp only
    rw [startVisits_eq hstep, List.nil_append, levels_append, hlevels]
    exact ih (observe_inStep hstep hd) hwaits hrest

/-! ## The depths along a run -/

variable (schema) in
theorem dispatch_level {v : Visit} {n m : Nat} (h : v.tracker.core.Level n)
    (hlevel : v.level n = some m) :
    (v.after schema).core.Level m ∧ (v.lexeme = .Close → 0 < v.tracker.depth) := by
  unfold Visit.after Visit.lexeme
  simp only [Visit.level, level, decide_eq_true_eq] at hlevel
  by_cases hopen : v.bytes ∈ OPENERS
  · rw [if_pos hopen] at hlevel
    obtain rfl := Option.some.inj hlevel
    have hlex : classifyAt v.bytes v.anchor = .Open := classifyAt_open.mpr hopen
    refine ⟨?_, fun hclose => ?_⟩
    · rw [dispatchToken_open _ _ hlex]
      exact onOpen_level h _ _ _
    · rw [hlex] at hclose
      cases hclose
  · rw [if_neg hopen] at hlevel
    by_cases hclose : v.bytes ∈ CLOSERS
    · rw [if_pos hclose] at hlevel
      cases n with
      | zero => cases hlevel
      | succ k =>
        obtain rfl := Option.some.inj hlevel
        refine ⟨?_, fun _ => ?_⟩
        · rw [dispatchToken_close _ _ (classifyAt_close.mpr hclose)]
          exact onClose_level h
        · rw [show v.tracker.depth = k + 1 from h.depth]
          exact Nat.succ_pos k
    · rw [if_neg hclose] at hlevel
      obtain rfl := Option.some.inj hlevel
      have hlexOpen : classifyAt v.bytes v.anchor ≠ .Open := mt classifyAt_open.mp hopen
      have hlexClose : classifyAt v.bytes v.anchor ≠ .Close := mt classifyAt_close.mp hclose
      refine ⟨?_, fun hlex => absurd hlex hlexClose⟩
      by_cases hpipe : classifyAt v.bytes v.anchor = .Pipe
      · rw [dispatchToken_pipe _ _ hpipe]
        exact onPipe_level h _
      · rw [dispatchToken_core _ _ hlexOpen hlexClose hpipe]
        exact h

/-- The depths of the tracker follow the brackets of the pieces. -/
theorem trail_level {t u : ScopeTracker} {vs : List Visit} {n m : Nat}
    (htrail : Trail schema t vs u) (h : t.core.Level n) (hlevels : levels n vs = some m) :
    u.core.Level m ∧ ∀ v ∈ vs, v.lexeme = .Close → 0 < v.tracker.depth := by
  induction vs generalizing t n with
  | nil =>
    obtain ⟨waiting, hu⟩ := htrail
    rw [levels_nil, Option.some.injEq] at hlevels
    have hcore : u.core = t.core := by rw [hu]; rfl
    rw [hcore, ← hlevels]
    exact ⟨h, fun v hv => absurd hv List.not_mem_nil⟩
  | cons v vs ih =>
    obtain ⟨⟨waiting, hv⟩, hrest⟩ := htrail
    rw [levels_cons, Option.bind_eq_some_iff] at hlevels
    obtain ⟨k, hk, hlevels⟩ := hlevels
    have hcore : v.tracker.core = t.core := by rw [hv]; rfl
    rw [← hcore] at h
    obtain ⟨hafter, hclose⟩ := dispatch_level schema h hk
    obtain ⟨hu, hall⟩ := ih hrest hafter hlevels
    refine ⟨hu, fun w hw => ?_⟩
    rcases List.mem_cons.mp hw with rfl | hw
    · exact hclose
    · exact hall w hw

end purecard.scope.ScopeTracker

namespace purecard.session.DecoderSession

open pushdown pda vocab compiled model scope ScopeTracker

/-- After every run of calls the tracker is as deep as the stack of the
automaton, with each of its own stacks, and what it keeps to restore is of
frames that are open, the deepest last. The pieces that led it there never
close a frame at depth 0. -/
theorem the_depth_is_the_stack (v : Vocab) (schema : Schema) (ops : List Op) :
    ∃ pda, (overFixed v (some schema) ops).cursor = .Fixed pda ∧
      (overFixed v (some schema) ops).tracker.core.Level pda.stack.length ∧
      Trail schema ScopeTracker.new
        (visits schema ScopeTracker.new Pda.new (tokensRead v schema ops))
        (overFixed v (some schema) ops).tracker ∧
      ∀ visit ∈ visits schema ScopeTracker.new Pda.new (tokensRead v schema ops),
        visit.lexeme = .Close → 0 < visit.tracker.depth := by
  have hspells := overFixed_spells v schema ops
  obtain ⟨pda, hpda, hrun⟩ := hspells.cursor
  have htrail := visits_trail schema ScopeTracker.new Pda.new (tokensRead v schema ops)
  rw [← hspells.tracker] at htrail
  have hplain : WaitsPlain ScopeTracker.new := fun waiting hwaiting => by cases hwaiting
  have hlevels := visits_levels schema new_inStep hplain hrun
  obtain ⟨hlevel, hclose⟩ := trail_level htrail new_level hlevels
  exact ⟨pda, hpda, hlevel, htrail, hclose⟩

end purecard.session.DecoderSession
