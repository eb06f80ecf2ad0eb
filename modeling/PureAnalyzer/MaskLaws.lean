-- The mask against the replay. A session without a schema gives the mask of
-- the tokens that it would accept: for the fixed grammar always, and for a
-- supplied one where the stack does not change what a token's bytes do.
import PureAnalyzer.PdaLaws
import PureAnalyzer.Session

namespace purecard.compiled

open pushdown pda lower mask vocab

/-! ## The partition of a state -/

section partition

variable (probe : List UInt8 → Probe) (v : Vocab) (mask_len : Nat)

theorem foldl_placeToken (ids : List Nat) (cached : Cached) :
    ids.foldl (placeToken probe v) cached =
      ⟨ids.foldl (fun m id =>
          if (probe ((v.bytes id).getD [])).alive &&
            !(probe ((v.bytes id).getD [])).consulted_ambient then m.set id else m) cached.indep,
        cached.deferred ++ ids.filter fun id =>
          (probe ((v.bytes id).getD [])).consulted_ambient⟩ := by
  induction ids generalizing cached with
  | nil => simp
  | cons id ids ih =>
    rw [List.foldl_cons, ih]
    unfold placeToken
    cases hasked : (probe ((v.bytes id).getD [])).consulted_ambient with
    | true => simp [hasked]
    | false =>
      cases halive : (probe ((v.bytes id).getD [])).alive <;> simp [hasked, halive]

@[simp]
theorem len_indep : (buildPartition probe v mask_len).indep.len = mask_len := by
  rw [buildPartition, foldl_placeToken]
  exact BitMask.len_foldl_set _ _ _

theorem test_indep (id : Nat) :
    (buildPartition probe v mask_len).indep.test id =
      (decide (id < v.len ∧ id < mask_len) &&
        ((probe ((v.bytes id).getD [])).alive &&
          !(probe ((v.bytes id).getD [])).consulted_ambient)) := by
  rw [buildPartition, foldl_placeToken]
  dsimp only
  rw [BitMask.test_foldl_set]
  simp

theorem mem_deferred (id : Nat) :
    id ∈ (buildPartition probe v mask_len).deferred ↔
      id < v.len ∧ (probe ((v.bytes id).getD [])).consulted_ambient = true := by
  rw [buildPartition, foldl_placeToken]
  simp

end partition

end purecard.compiled

namespace purecard.session

open pushdown pda lower mask vocab compiled

/-! ## The cells of the cache -/

namespace Cursor

/-- The cell of the cache that a cursor reads. -/
def cell : Cursor → Nat
  | .Fixed pda => pda.state.index
  | .Spec pda => pda.config.state

/-- What that cell holds once it is filled. -/
def partition (c : Cursor) (v : Vocab) (mask_len : Nat) : Cached :=
  match c with
  | .Fixed pda => buildFixed pda.state v mask_len
  | .Spec pda => buildSpec pda.automaton pda.config.state v mask_len

theorem cached_eq (c : Cursor) (g : CompiledGrammar) :
    c.cached g = g.getOrInit c.cell (c.partition g.vocab g.maskLen) := by
  cases c <;> rfl

/-- The cursor runs the automaton of the engine. -/
def Drives : Cursor → Engine → Prop
  | .Fixed _, .Fixed => True
  | .Spec pda, .Spec automaton => pda.automaton = automaton
  | _, _ => False

theorem new_drives (g : CompiledGrammar) : (new g).Drives g.engine := by
  unfold new
  cases g.engine with
  | Fixed => trivial
  | Spec a => exact rfl

theorem reset_drives {c : Cursor} {e : Engine} (h : c.Drives e) : c.reset.Drives e := by
  cases c <;> cases e <;> simp_all [Drives, reset, RtnPda.reset, RtnPda.new]

theorem tryAcceptToken_drives {c d : Cursor} {e : Engine} {bytes : List UInt8}
    (h : c.Drives e) (hd : c.tryAcceptToken bytes = some d) : d.Drives e := by
  cases c with
  | Fixed pda =>
    simp only [tryAcceptToken, Option.map_eq_some_iff] at hd
    obtain ⟨next, _, rfl⟩ := hd
    cases e <;> simp_all [Drives]
  | Spec pda =>
    simp only [tryAcceptToken, Option.map_eq_some_iff] at hd
    obtain ⟨next, _, rfl⟩ := hd
    cases e <;> simp_all [Drives]

/-- Two cursors of one engine that read one cell want the same in it. -/
theorem partition_of_cell {c d : Cursor} {e : Engine} (hc : c.Drives e) (hd : d.Drives e)
    (h : c.cell = d.cell) (v : Vocab) (mask_len : Nat) :
    c.partition v mask_len = d.partition v mask_len := by
  cases c with
  | Fixed p =>
    cases d with
    | Fixed q => simp only [partition, State.index_inj h]
    | Spec q => cases e <;> simp_all [Drives]
  | Spec p =>
    cases d with
    | Fixed q => cases e <;> simp_all [Drives]
    | Spec q =>
      cases e with
      | Fixed => exact hc.elim
      | Spec a =>
        simp only [Drives] at hc hd
        simp only [cell] at h
        simp only [partition, hc, hd, h]

end Cursor

/-- Every filled cell holds the partition of its state. -/
def CellsSound (g : CompiledGrammar) : Prop :=
  ∀ c : Cursor, c.Drives g.engine → ∀ cached, g.cache.getD c.cell none = some cached →
    cached = c.partition g.vocab g.maskLen

section cells

variable {g : CompiledGrammar} {c : Cursor}

theorem cached_fst (hg : CellsSound g) (hc : c.Drives g.engine) :
    (c.cached g).1 = c.partition g.vocab g.maskLen := by
  rw [Cursor.cached_eq]
  unfold CompiledGrammar.getOrInit
  cases h : g.cache.getD c.cell none with
  | none => rfl
  | some cached => exact hg c hc cached h

@[simp]
theorem cached_vocab : (c.cached g).2.vocab = g.vocab := by
  rw [Cursor.cached_eq]
  unfold CompiledGrammar.getOrInit
  split <;> rfl

@[simp]
theorem cached_engine : (c.cached g).2.engine = g.engine := by
  rw [Cursor.cached_eq]
  unfold CompiledGrammar.getOrInit
  split <;> rfl

@[simp]
theorem cached_eosBit : (c.cached g).2.eosBit = g.eosBit := by
  unfold CompiledGrammar.eosBit
  rw [cached_vocab]

@[simp]
theorem cached_maskLen : (c.cached g).2.maskLen = g.maskLen := by
  unfold CompiledGrammar.maskLen
  rw [cached_eosBit]

theorem cached_sound (hg : CellsSound g) (hc : c.Drives g.engine) :
    CellsSound (c.cached g).2 := by
  intro d hd cached hcell
  rw [cached_engine] at hd
  rw [cached_vocab, cached_maskLen]
  rw [Cursor.cached_eq] at hcell
  unfold CompiledGrammar.getOrInit at hcell
  cases h : g.cache.getD c.cell none with
  | some old =>
    rw [h] at hcell
    exact hg d hd cached hcell
  | none =>
    simp only [h, List.getD_eq_getElem?_getD, List.getElem?_set] at hcell
    by_cases hsame : c.cell = d.cell
    · rw [if_pos hsame] at hcell
      by_cases hlt : c.cell < g.cache.length
      · simp only [hlt, if_true, Option.getD_some, Option.some.injEq] at hcell
        rw [← hcell]
        exact Cursor.partition_of_cell hc hd hsame _ _
      · simp [hlt] at hcell
    · rw [if_neg hsame] at hcell
      exact hg d hd cached (by simpa [List.getD_eq_getElem?_getD] using hcell)

end cells

/-! ## One call -/

theorem tryAcceptToken_isSome (c : Cursor) (bytes : List UInt8) :
    (c.tryAcceptToken bytes).isSome = c.admits bytes := by
  cases c <;> simp [Cursor.tryAcceptToken, Cursor.admits, Pda.admits, RtnPda.admits]

namespace DecoderSession

variable {s t : DecoderSession}

/-- The session after the bytes of a token that took the cursor to `next`. -/
def advanced (s : DecoderSession) (bytes : List UInt8) (next : Cursor) : DecoderSession :=
  match s.schema, s.cursor with
  | some schema, .Fixed pda =>
    let s := { s with tracker := s.tracker.observe bytes pda schema, cursor := next }
    { s.refreshL2Eos with offset := s.offset + bytes.length }
  | _, _ => { s with cursor := next, offset := s.offset + bytes.length }

theorem refreshL2Eos_frame (s : DecoderSession) :
    s.refreshL2Eos.cursor = s.cursor ∧ s.refreshL2Eos.grammar = s.grammar ∧
      s.refreshL2Eos.mask = s.mask ∧ s.refreshL2Eos.narrow_buf = s.narrow_buf ∧
      s.refreshL2Eos.schema = s.schema ∧ s.refreshL2Eos.tracker = s.tracker ∧
      s.refreshL2Eos.offset = s.offset := by
  unfold refreshL2Eos
  split <;> exact ⟨rfl, rfl, rfl, rfl, rfl, rfl, rfl⟩

/-- What is read by a token that is accepted. -/
theorem acceptToken_eq (s : DecoderSession) (id : Nat) :
    s.acceptToken id =
      if id = s.grammar.eosBit then
        if s.cursor.isAccepting then .ok s else .error .UnexpectedEos
      else match s.grammar.vocab.bytes id with
        | none => .error (.UnknownToken id)
        | some bytes =>
          match s.cursor.tryAcceptToken bytes with
          | none => .error (.InadmissibleToken id)
          | some next => .ok (s.advanced bytes next) := by
  unfold acceptToken
  split
  · rfl
  · cases s.grammar.vocab.bytes id with
    | none => rfl
    | some bytes =>
      dsimp only
      cases hs : s.schema with
      | none => cases s.cursor.tryAcceptToken bytes <;> simp [advanced, hs]
      | some schema =>
        cases hc : s.cursor with
        | Spec p => cases (Cursor.Spec p).tryAcceptToken bytes <;> simp [advanced, hs, hc]
        | Fixed pda =>
          simp only [Cursor.tryAcceptToken]
          cases hrun : Config.run step pda bytes with
          | none => rfl
          | some next =>
            simp only [Option.map_some, advanced, hs, hc, Except.ok.injEq]
            rw [(refreshL2Eos_frame _).2.2.2.2.2.2]

/-- A call that succeeds ended the stream or read the bytes of a token. -/
theorem acceptToken_cases {id : Nat} (h : s.acceptToken id = .ok t) :
    (id = s.grammar.eosBit ∧ s.cursor.isAccepting = true ∧ t = s) ∨
      ∃ bytes next, s.grammar.vocab.bytes id = some bytes ∧
        s.cursor.tryAcceptToken bytes = some next ∧ t = s.advanced bytes next := by
  rw [acceptToken_eq] at h
  split at h
  · next hid =>
    split at h
    · next hacc => exact .inl ⟨hid, hacc, (Except.ok.inj h).symm⟩
    · cases h
  · cases hb : s.grammar.vocab.bytes id with
    | none => simp [hb] at h
    | some bytes =>
      cases hn : s.cursor.tryAcceptToken bytes with
      | none => simp [hb, hn] at h
      | some next =>
        simp only [hb, hn] at h
        exact .inr ⟨bytes, next, rfl, hn, (Except.ok.inj h).symm⟩

theorem acceptToken_isOk {id : Nat} {bytes : List UInt8}
    (h : s.grammar.vocab.bytes id = some bytes) :
    (s.acceptToken id).isOk = s.cursor.admits bytes := by
  have hid : id ≠ s.grammar.eosBit := by
    have hlt := (s.grammar.vocab.bytes_eq_some_iff id).mp (by simp [h])
    rw [CompiledGrammar.eosBit, Vocab.lenU32_eq]
    omega
  rw [acceptToken_eq, if_neg hid, h, ← tryAcceptToken_isSome]
  dsimp only
  cases s.cursor.tryAcceptToken bytes <;> rfl

theorem advanced_frame (s : DecoderSession) (bytes : List UInt8) (next : Cursor) :
    (s.advanced bytes next).cursor = next ∧ (s.advanced bytes next).grammar = s.grammar ∧
      (s.advanced bytes next).mask = s.mask ∧
      (s.advanced bytes next).narrow_buf = s.narrow_buf ∧
      (s.advanced bytes next).schema = s.schema := by
  unfold advanced
  split
  · next schema pda hs hc =>
    obtain ⟨h1, h2, h3, h4, h5, -, -⟩ := refreshL2Eos_frame
      { s with tracker := s.tracker.observe bytes pda schema, cursor := next }
    exact ⟨h1, h2, h3, h4, h5⟩
  · exact ⟨rfl, rfl, rfl, rfl, rfl⟩

/-- The mask that the grammar alone gives. -/
def grammarMask (s : DecoderSession) : BitMask :=
  fillGrammar s.mask (s.cursor.cached s.grammar).1 s.cursor (s.cursor.cached s.grammar).2

/-- The session with the mask that the grammar alone gives. -/
def masked (s : DecoderSession) : DecoderSession :=
  { s with grammar := (s.cursor.cached s.grammar).2, mask := s.grammarMask }

theorem allowedMask_eq (s : DecoderSession) :
    s.allowedMask = match s.schema, s.cursor with
      | some schema, .Fixed pda =>
        ((s.masked.narrowPosition schema pda).narrowSigil pda).narrowFused schema
      | _, _ => s.masked := rfl

/-- What the mask of the next token leaves alone. -/
structure SameStream (s t : DecoderSession) : Prop where
  cursor : t.cursor = s.cursor
  grammar : t.grammar = s.grammar
  schema : t.schema = s.schema
  tracker : t.tracker = s.tracker
  l2_eos : t.l2_eos = s.l2_eos
  mask_len : t.mask.len = s.mask.len

theorem SameStream.refl (s : DecoderSession) : SameStream s s := ⟨rfl, rfl, rfl, rfl, rfl, rfl⟩

theorem SameStream.trans {r s t : DecoderSession} (h : SameStream r s) (k : SameStream s t) :
    SameStream r t where
  cursor := k.cursor.trans h.cursor
  grammar := k.grammar.trans h.grammar
  schema := k.schema.trans h.schema
  tracker := k.tracker.trans h.tracker
  l2_eos := k.l2_eos.trans h.l2_eos
  mask_len := k.mask_len.trans h.mask_len

theorem intersectNarrowed_same (s : DecoderSession) (n : narrow.Narrowed) :
    SameStream s (s.intersectNarrowed n) := by
  refine ⟨rfl, rfl, rfl, rfl, rfl, ?_⟩
  unfold intersectNarrowed
  dsimp only
  split <;> rfl

theorem narrowSigil_same (s : DecoderSession) (pda : Pda) : SameStream s (s.narrowSigil pda) := by
  unfold narrowSigil
  split
  · exact intersectNarrowed_same s _
  · exact .refl s

theorem narrowFused_same (s : DecoderSession) (schema : model.Schema) :
    SameStream s (s.narrowFused schema) := by
  unfold narrowFused
  split
  · exact intersectNarrowed_same s _
  · exact .refl s

theorem allowedMask_same (s : DecoderSession) : SameStream s.masked s.allowedMask := by
  rw [allowedMask_eq]
  split
  · exact ((intersectNarrowed_same _ _).trans (narrowSigil_same _ _)).trans (narrowFused_same _ _)
  · exact .refl _

/-! ## What every call keeps -/

/-- What every token, every mask and every reset keeps holds after every run. -/
theorem calls_keep {P : DecoderSession → Prop}
    (hread : ∀ s id bytes next, P s → s.grammar.vocab.bytes id = some bytes →
      s.cursor.tryAcceptToken bytes = some next → P (s.advanced bytes next))
    (hmask : ∀ s, P s → P s.allowedMask) (hreset : ∀ s, P s → P s.reset)
    (h : P s) (ops : List Op) : P (s.calls ops) := by
  have hcall : ∀ s op, P s → P (call s op) := by
    intro s op hs
    cases op with
    | allowedMask => exact hmask s hs
    | reset => exact hreset s hs
    | acceptToken id =>
      cases hacc : s.acceptToken id with
      | error e => simpa only [call, hacc] using hs
      | ok t =>
        simp only [call, hacc]
        obtain ⟨-, -, rfl⟩ | ⟨bytes, next, hbytes, hnext, rfl⟩ := acceptToken_cases hacc
        · exact hs
        · exact hread s id bytes next hs hbytes hnext
  induction ops generalizing s with
  | nil => exact h
  | cons op ops ih => exact ih (hcall s op h)

/-- The cursor runs the grammar's automaton, the cache is true to it, and
the mask has a bit for each token and one for the end. -/
structure Sound (s : DecoderSession) : Prop where
  drives : s.cursor.Drives s.grammar.engine
  cells : CellsSound s.grammar
  mask_len : s.mask.len = s.grammar.maskLen

theorem fillGrammar_len (m : BitMask) (cached : Cached) (c : Cursor) (g : CompiledGrammar) :
    (fillGrammar m cached c g).len = m.len := by
  unfold fillGrammar
  dsimp only
  split <;> split <;> simp

theorem masked_sound (h : s.Sound) : s.masked.Sound where
  drives := by
    show s.cursor.Drives (s.cursor.cached s.grammar).2.engine
    rw [cached_engine]
    exact h.drives
  cells := cached_sound h.cells h.drives
  mask_len := by
    show s.grammarMask.len = (s.cursor.cached s.grammar).2.maskLen
    rw [cached_maskLen, grammarMask, fillGrammar_len, h.mask_len]

theorem SameStream.sound (h : SameStream s t) (hs : s.Sound) : t.Sound where
  drives := by rw [h.cursor, h.grammar]; exact hs.drives
  cells := by rw [h.grammar]; exact hs.cells
  mask_len := by rw [h.mask_len, h.grammar]; exact hs.mask_len

theorem advanced_sound {bytes : List UInt8} {next : Cursor} (h : s.Sound)
    (hnext : s.cursor.tryAcceptToken bytes = some next) : (s.advanced bytes next).Sound := by
  obtain ⟨hc, hg, hm, -, -⟩ := s.advanced_frame bytes next
  refine ⟨?_, by rw [hg]; exact h.cells, by rw [hm, hg]; exact h.mask_len⟩
  rw [hc, hg]
  exact Cursor.tryAcceptToken_drives h.drives hnext

theorem build_sound {g : CompiledGrammar} (hg : CellsSound g) (schema : Option model.Schema) :
    (build g schema).Sound :=
  ⟨Cursor.new_drives g, hg, rfl⟩

theorem calls_sound (h : s.Sound) (ops : List Op) : (s.calls ops).Sound := by
  refine calls_keep (fun s id bytes next hs _ hnext => ?_) (fun s hs => ?_) (fun s hs => ?_) h ops
  · exact advanced_sound hs hnext
  · exact s.allowedMask_same.sound (masked_sound hs)
  · exact ⟨Cursor.reset_drives hs.drives, hs.cells, hs.mask_len⟩

end DecoderSession

theorem empty_cells {v : Vocab} {e : Engine} (n : Nat) :
    CellsSound ⟨v, e, List.replicate n none⟩ := by
  intro c _ cached h
  simp only [List.getD_eq_getElem?_getD, List.getElem?_replicate] at h
  split at h <;> cases h

theorem compile_cells (v : Vocab) : CellsSound (CompiledGrammar.compile v) := empty_cells _

/-! ## The bits of the mask -/

namespace Cursor

/-- The probe that fills the cell of a cursor: its state, on an empty stack. -/
def probe : Cursor → List UInt8 → Probe
  | .Fixed pda => Pda.probe (Pda.atState pda.state)
  | .Spec pda => (RtnPda.atState pda.automaton pda.config.state).probe

theorem partition_eq (c : Cursor) (v : Vocab) (mask_len : Nat) :
    c.partition v mask_len = buildPartition c.probe v mask_len := by
  cases c <;> rfl

/-- A token that did not ask for a frame lives here as it lived alone. -/
def Exact (c : Cursor) (bytes : List UInt8) : Prop :=
  (c.probe bytes).consulted_ambient = false → c.admits bytes = (c.probe bytes).alive

theorem admits_of_empty {c : Cursor} (h : c.stackTopPresent = false) (bytes : List UInt8) :
    c.admits bytes = (c.probe bytes).alive := by
  cases c with
  | Fixed pda =>
    obtain ⟨state, stack⟩ := pda
    cases stack with
    | nil => exact (probe_alive _ _).symm
    | cons f fs => simp [stackTopPresent, Pda.stackTop] at h
  | Spec pda =>
    obtain ⟨a, state, stack⟩ := pda
    cases stack with
    | nil => exact (probe_alive _ _).symm
    | cons f fs => simp [stackTopPresent, RtnPda.stackTop] at h

theorem not_alive_of_asked {c : Cursor} {bytes : List UInt8}
    (h : (c.probe bytes).consulted_ambient = true) : (c.probe bytes).alive = false := by
  by_contra halive
  rw [Bool.not_eq_false] at halive
  have hnot : (c.probe bytes).consulted_ambient = false := by
    cases c with
    | Fixed pda => exact not_consulted_of_alive halive
    | Spec pda => exact not_consulted_of_alive halive
  rw [h] at hnot
  cases hnot

end Cursor

namespace DecoderSession

/-- A bit of the mask below the end of the stream. -/
theorem test_fillGrammar_token {g : CompiledGrammar} {m : BitMask} {c : Cursor} {cached : Cached}
    {id : Nat} (hlen : m.len = cached.indep.len) (hid : id < g.eosBit) (hlt : id < m.len) :
    (fillGrammar m cached c g).test id =
      (cached.indep.test id || (c.stackTopPresent && decide (id ∈ cached.deferred) &&
        c.admits ((g.vocab.bytes id).getD []))) := by
  have hne : id ≠ g.eosBit := by omega
  have hlast : ∀ m : BitMask,
      (if c.isAccepting = true then m.set g.eosBit else m.clear g.eosBit).test id = m.test id := by
    intro m
    split
    · simp [BitMask.test_set, hne]
    · simp [BitMask.test_clear, hne]
  unfold fillGrammar
  dsimp only
  rw [hlast]
  cases c.stackTopPresent with
  | false => simp [BitMask.test_copyFrom hlen]
  | true =>
    rw [if_pos rfl, BitMask.test_foldl_set, BitMask.test_copyFrom hlen]
    simp [hlt]

theorem test_fillGrammar {g : CompiledGrammar} {m : BitMask} {c : Cursor} {id : Nat}
    {bytes : List UInt8} (hlen : m.len = g.maskLen) (hb : g.vocab.bytes id = some bytes)
    (hexact : c.Exact bytes) :
    (fillGrammar m (c.partition g.vocab g.maskLen) c g).test id = c.admits bytes := by
  have hid : id < g.vocab.len := (g.vocab.bytes_eq_some_iff id).mp (by simp [hb])
  have heos : g.eosBit = g.vocab.len := g.vocab.lenU32_eq
  have hlt : id < g.maskLen := by unfold CompiledGrammar.maskLen; omega
  rw [Cursor.partition_eq, test_fillGrammar_token (by simp [hlen]) (by omega) (by omega),
    test_indep]
  simp only [mem_deferred, hb, Option.getD_some, hid, hlt, and_self, decide_true, Bool.true_and,
    true_and]
  cases hasked : (c.probe bytes).consulted_ambient with
  | false => simp [hexact hasked]
  | true =>
    have hdead := Cursor.not_alive_of_asked hasked
    cases htop : c.stackTopPresent with
    | true => simp
    | false => simp [Cursor.admits_of_empty htop, hdead]

theorem test_fillGrammar_eos {g : CompiledGrammar} {m : BitMask} {c : Cursor} {cached : Cached}
    (hlen : m.len = g.maskLen) :
    (fillGrammar m cached c g).test g.eosBit = c.isAccepting := by
  unfold fillGrammar
  dsimp only
  have hlt : g.eosBit < m.len := by rw [hlen]; exact Nat.lt_succ_self _
  cases c.isAccepting with
  | false => simp [BitMask.test_clear]
  | true =>
    rw [if_pos rfl, BitMask.test_set]
    split <;> simp [hlt]

theorem test_grammarMask {s : DecoderSession} (h : s.Sound) {id : Nat} {bytes : List UInt8}
    (hb : s.grammar.vocab.bytes id = some bytes) (hexact : s.cursor.Exact bytes) :
    s.grammarMask.test id = s.cursor.admits bytes := by
  have hlen : s.mask.len = (s.cursor.cached s.grammar).2.maskLen := by
    rw [cached_maskLen]; exact h.mask_len
  have hb' : (s.cursor.cached s.grammar).2.vocab.bytes id = some bytes := by
    rw [cached_vocab]; exact hb
  rw [grammarMask, cached_fst h.cells h.drives]
  simpa only [cached_vocab, cached_maskLen] using test_fillGrammar hlen hb' hexact

theorem test_grammarMask_eos {s : DecoderSession} (h : s.Sound) :
    s.grammarMask.test s.grammar.eosBit = s.cursor.isAccepting := by
  have hlen : s.mask.len = (s.cursor.cached s.grammar).2.maskLen := by
    rw [cached_maskLen]; exact h.mask_len
  rw [grammarMask, ← cached_eosBit (c := s.cursor)]
  exact test_fillGrammar_eos hlen

theorem allowedMask_of_no_schema {s : DecoderSession} (h : s.schema = none) :
    s.allowedMask.mask = s.grammarMask := by
  rw [allowedMask_eq, h]
  rfl

end DecoderSession

/-! ## The fixed grammar -/

/-- What lives on an empty stack of the fixed grammar lives on every stack. -/
theorem fixed_exact (pda : Pda) (bytes : List UInt8) : (Cursor.Fixed pda).Exact bytes := by
  intro hasked
  have hframes : ∀ f ∈ pda.stack, f ∈ ALL_FRAMES := fun f _ => f.mem_all
  exact probe_exact step_popsGuarded hframes (steady_of_monotone step_monotone _ _ _) hasked

namespace DecoderSession

/-- What a run never changes. -/
theorem calls_same (s : DecoderSession) (ops : List Op) :
    (s.calls ops).schema = s.schema ∧ (s.calls ops).grammar.vocab = s.grammar.vocab ∧
      (s.calls ops).grammar.engine = s.grammar.engine := by
  refine calls_keep (P := fun t => t.schema = s.schema ∧ t.grammar.vocab = s.grammar.vocab ∧
    t.grammar.engine = s.grammar.engine) ?_ ?_ (fun t ht => ht) ⟨rfl, rfl, rfl⟩ ops
  · intro t id bytes next ht _ _
    obtain ⟨-, hg, -, -, hs⟩ := t.advanced_frame bytes next
    rw [hg, hs]
    exact ht
  · intro t ht
    have hsame := t.allowedMask_same
    rw [hsame.schema, hsame.grammar]
    exact ⟨ht.1, cached_vocab.trans ht.2.1, cached_engine.trans ht.2.2⟩

/-- A fresh session over the fixed grammar after a run of calls. -/
def overFixed (v : Vocab) (schema : Option model.Schema) (ops : List Op) : DecoderSession :=
  (build (CompiledGrammar.compile v) schema).calls ops

theorem overFixed_sound (v : Vocab) (schema : Option model.Schema) (ops : List Op) :
    (overFixed v schema ops).Sound :=
  calls_sound (build_sound (compile_cells v) schema) ops

theorem overFixed_same (v : Vocab) (schema : Option model.Schema) (ops : List Op) :
    (overFixed v schema ops).schema = schema ∧ (overFixed v schema ops).grammar.vocab = v ∧
      (overFixed v schema ops).grammar.engine = .Fixed :=
  calls_same _ ops

theorem overFixed_cursor (v : Vocab) (schema : Option model.Schema) (ops : List Op) :
    ∃ pda, (overFixed v schema ops).cursor = .Fixed pda := by
  have hdrives := (overFixed_sound v schema ops).drives
  rw [(overFixed_same v schema ops).2.2] at hdrives
  cases hc : (overFixed v schema ops).cursor with
  | Fixed pda => exact ⟨pda, rfl⟩
  | Spec p => rw [hc] at hdrives; exact hdrives.elim

/-- After every run, the mask of a session without a schema has the bit of a
token exactly when the session would accept the token, which is when its
bytes live from the live state over the whole live stack. It has the bit of
the end exactly when the automaton accepts. -/
theorem the_mask_is_the_replay (v : Vocab) (ops : List Op) :
    ∃ pda, (overFixed v none ops).cursor = .Fixed pda ∧
      (∀ id < v.len,
        ((overFixed v none ops).allowedMask.mask.test id = true ↔
          ((overFixed v none ops).acceptToken id).isOk = true) ∧
        (((overFixed v none ops).acceptToken id).isOk = true ↔
          ∃ next, Config.run step pda ((v.bytes id).getD []) = some next)) ∧
      (overFixed v none ops).allowedMask.mask.test v.len = Pda.isAccepting pda := by
  obtain ⟨pda, hpda⟩ := overFixed_cursor v none ops
  obtain ⟨hschema, hvocab, -⟩ := overFixed_same v none ops
  have hsound := overFixed_sound v none ops
  refine ⟨pda, hpda, fun id hid => ?_, ?_⟩
  · obtain ⟨bytes, hb⟩ := Option.isSome_iff_exists.mp ((v.bytes_eq_some_iff id).mpr hid)
    have hb' : (overFixed v none ops).grammar.vocab.bytes id = some bytes := by rw [hvocab, hb]
    have hexact : (overFixed v none ops).cursor.Exact bytes := by
      rw [hpda]; exact fixed_exact pda bytes
    rw [allowedMask_of_no_schema hschema, test_grammarMask hsound hb' hexact,
      acceptToken_isOk hb']
    refine ⟨Iff.rfl, ?_⟩
    rw [hpda, hb]
    exact Option.isSome_iff_exists
  · have heos : (overFixed v none ops).grammar.eosBit = v.len := by
      rw [CompiledGrammar.eosBit, hvocab, Vocab.lenU32_eq]
    rw [allowedMask_of_no_schema hschema, ← heos, test_grammarMask_eos hsound, hpda]
    rfl

def callTokens : List (List UInt8) := [lit "|A.all()->filter(", lit "x", lit "\x7d"]

theorem callTokens_fits : callTokens.length < 2 ^ 32 := by decide

def callVocab : Vocab := ⟨callTokens, callTokens_fits⟩

/-- Inside the parenthesis that a token has opened, a name is masked in as it is
accepted, and a brace is not. -/
theorem the_mask_inside_a_call :
    (overFixed callVocab none [.acceptToken 0]).allowedMask.mask.test 1 = true ∧
      (overFixed callVocab none [.acceptToken 0]).allowedMask.mask.test 2 = false := by
  obtain ⟨pda, -, htokens, -⟩ := the_mask_is_the_replay callVocab [.acceptToken 0]
  refine ⟨(htokens 1 (by decide)).1.mpr (by decide +kernel), ?_⟩
  rw [← Bool.not_eq_true, (htokens 2 (by decide)).1]
  decide +kernel

end DecoderSession

end purecard.session
