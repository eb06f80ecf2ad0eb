-- What a session remembers never shows. The masks kept for the rules, the
-- cells of the grammar and the old buffers change no answer: two sessions
-- that read the same stream answer alike, whatever else they were asked.
import PureAnalyzer.SessionLaws

namespace purecard.session.DecoderSession

open pushdown pda mask vocab compiled model scope narrow

/-! ## The calls of a host -/

/-- A call that a host makes, byte by byte or token by token. -/
inductive HostCall where
  | op (op : Op)
  | acceptByte (byte : UInt8)
deriving DecidableEq, Repr

/-- One call. A token or a byte that is refused changes nothing. -/
def hostCall (s : DecoderSession) : HostCall → DecoderSession
  | .op op => s.call op
  | .acceptByte byte =>
    match s.acceptByte byte with
    | .ok next => next
    | .error _ => s

/-- A run of calls. -/
def hostCalls (s : DecoderSession) (run : List HostCall) : DecoderSession := run.foldl hostCall s

/-- Two sessions that answer every call alike. -/
structure SameAnswers (s t : DecoderSession) : Prop where
  allowed_mask : s.allowedMask.mask = t.allowedMask.mask
  is_complete : s.isComplete = t.isComplete
  offset : s.offset = t.offset
  accept_token : ∀ id, (s.acceptToken id).map (fun _ => ()) = (t.acceptToken id).map fun _ => ()
  accept_byte : ∀ byte, (s.acceptByte byte).map (fun _ => ()) = (t.acceptByte byte).map fun _ => ()

/-- The second run is the first with calls put in that read nothing: masks,
and tokens that the session refuses. -/
inductive Padded : DecoderSession → List HostCall → List HostCall → Prop where
  | nil (s : DecoderSession) : Padded s [] []
  | allowedMask {s : DecoderSession} {run padded : List HostCall} :
    Padded s.allowedMask run padded → Padded s run (.op .allowedMask :: padded)
  | refused {s : DecoderSession} {run padded : List HostCall} {id : Nat} {e : DecodeError} :
    s.acceptToken id = .error e → Padded s run padded →
      Padded s run (.op (.acceptToken id) :: padded)
  | same {s : DecoderSession} {run padded : List HostCall} (call : HostCall) :
    Padded (s.hostCall call) run padded → Padded s (call :: run) (call :: padded)

/-! ## What every call keeps -/

/-- The cells of the grammar are true, and so is the cache of the rules. -/
structure Kept (s : DecoderSession) : Prop where
  sound : s.Sound
  narrowing : ∀ schema, s.schema = some schema → s.Narrowing schema

section kept

variable {s t : DecoderSession}

theorem advanceByte_drives {c d : Cursor} {e : Engine} {byte : UInt8} (h : c.Drives e)
    (hd : c.advanceByte byte = .ok d) : d.Drives e := by
  cases c with
  | Fixed pda =>
    cases e with
    | Spec a => exact h.elim
    | Fixed =>
      cases hadv : Pda.advance pda byte with
      | error dead => simp [Cursor.advanceByte, hadv] at hd
      | ok next =>
        simp only [Cursor.advanceByte, hadv, Except.ok.injEq] at hd
        subst hd
        trivial
  | Spec pda =>
    cases e with
    | Fixed => exact h.elim
    | Spec a =>
      cases hadv : pda.advance byte with
      | none => simp [Cursor.advanceByte, hadv] at hd
      | some next =>
        simp only [Cursor.advanceByte, hadv, Except.ok.injEq] at hd
        subst hd
        simp only [lower.RtnPda.advance, Option.map_eq_some_iff] at hadv
        obtain ⟨config, -, rfl⟩ := hadv
        exact h

theorem acceptByte_cases {byte : UInt8} (h : s.acceptByte byte = .ok t) :
    ∃ next, s.cursor.advanceByte byte = .ok next ∧
      t = { s with cursor := next, offset := s.offset + 1 } := by
  unfold acceptByte at h
  cases hadv : s.cursor.advanceByte byte with
  | error dead => rw [hadv] at h; cases h
  | ok next => rw [hadv] at h; exact ⟨next, rfl, (Except.ok.inj h).symm⟩

theorem advanced_narrowing {schema : Schema} {bytes : List UInt8} {next : Cursor}
    (hschema : s.schema = some schema) (h : s.Narrowing schema) :
    (s.advanced bytes next).Narrowing schema := by
  cases hc : s.cursor with
  | Spec p =>
    have hadvanced : s.advanced bytes next =
        { s with cursor := next, offset := s.offset + bytes.length } := by
      unfold advanced
      rw [hschema, hc]
    rw [hadvanced]
    exact ⟨h.buf_len, h.cache⟩
  | Fixed pda =>
    have hadvanced : s.advanced bytes next =
        { ({ s with tracker := s.tracker.observe bytes pda schema, cursor := next } :
            DecoderSession).refreshL2Eos with offset := s.offset + bytes.length } := by
      unfold advanced
      rw [hschema, hc]
    have hgrows := s.tracker.observe_grows schema bytes pda
    have hcache := cacheSound_grow hgrows.columns hgrows.vars h.cache
    rw [hadvanced]
    cases next with
    | Spec q =>
      unfold refreshL2Eos
      simp only [hschema]
      exact ⟨h.buf_len, hcache⟩
    | Fixed d =>
      have heos := admitsEos_eq ((s.tracker.observe bytes pda schema).position d.state)
        (s.tracker.observe bytes pda schema).narrowPrefix hcache
      unfold refreshL2Eos
      simp only [hschema]
      exact ⟨h.buf_len, heos.2⟩

theorem advanced_kept {bytes : List UInt8} {next : Cursor} (h : s.Kept)
    (hnext : s.cursor.tryAcceptToken bytes = some next) : (s.advanced bytes next).Kept := by
  refine ⟨advanced_sound h.sound hnext, ?_⟩
  intro schema hschema
  rw [(s.advanced_frame bytes next).2.2.2.2] at hschema
  exact advanced_narrowing hschema (h.narrowing schema hschema)

theorem allowedMask_of_spec {p : lower.RtnPda} (h : s.cursor = .Spec p) :
    s.allowedMask = s.masked := by
  rw [allowedMask_eq, h]
  cases s.schema <;> rfl

theorem allowedMask_kept (h : s.Kept) : s.allowedMask.Kept := by
  refine ⟨s.allowedMask_same.sound (masked_sound h.sound), ?_⟩
  intro schema hschema
  rw [s.allowedMask_same.schema] at hschema
  cases hc : s.cursor with
  | Fixed pda =>
    exact (allowedMask_applies h.sound hschema (h.narrowing schema hschema) hc).1
  | Spec p =>
    rw [allowedMask_of_spec hc]
    exact masked_narrowing (h.narrowing schema hschema)

theorem reset_kept (h : s.Kept) : s.reset.Kept := by
  refine ⟨⟨Cursor.reset_drives h.sound.drives, h.sound.cells, h.sound.mask_len⟩, ?_⟩
  intro schema hschema
  exact ⟨(h.narrowing schema hschema).buf_len, new_cacheSound⟩

theorem acceptByte_kept {byte : UInt8} (h : s.Kept) (ht : s.acceptByte byte = .ok t) :
    t.Kept := by
  obtain ⟨next, hnext, rfl⟩ := acceptByte_cases ht
  refine ⟨⟨advanceByte_drives h.sound.drives hnext, h.sound.cells, h.sound.mask_len⟩, ?_⟩
  intro schema hschema
  exact ⟨(h.narrowing schema hschema).buf_len, (h.narrowing schema hschema).cache⟩

theorem call_kept (h : s.Kept) (op : Op) : (s.call op).Kept :=
  calls_keep (fun _ _ _ _ hs _ hnext => advanced_kept hs hnext) (fun _ hs => allowedMask_kept hs)
    (fun _ hs => reset_kept hs) h [op]

theorem hostCall_kept (h : s.Kept) (call : HostCall) : (s.hostCall call).Kept := by
  cases call with
  | op op => exact call_kept h op
  | acceptByte byte =>
    cases hacc : s.acceptByte byte with
    | error e => simpa only [hostCall, hacc] using h
    | ok t => simpa only [hostCall, hacc] using acceptByte_kept h hacc

theorem hostCalls_kept (h : s.Kept) (run : List HostCall) : (s.hostCalls run).Kept := by
  induction run generalizing s with
  | nil => exact h
  | cons call run ih => exact ih (hostCall_kept h call)

theorem fresh_kept {g : CompiledGrammar} (hg : Compiled g) (hs : Fresh g s) : s.Kept := by
  refine ⟨fresh_sound (compiled_cells hg) hs, ?_⟩
  intro schema hschema
  cases hs with
  | plain => cases hschema
  | narrowed h =>
    rw [(withSchema_eq h).2]
    exact ⟨maskLen_eq g, new_cacheSound⟩

end kept

/-! ## Sessions that read the same stream -/

/-- Two sessions over one vocabulary that have read the same: they differ at
most in what they remember of their masks. -/
structure Alike (s t : DecoderSession) : Prop where
  cursor : s.cursor = t.cursor
  offset : s.offset = t.offset
  vocab : s.grammar.vocab = t.grammar.vocab
  schema : s.schema = t.schema
  tracker : s.tracker = t.tracker
  l2_eos : s.l2_eos = t.l2_eos

section alike

variable {s t u : DecoderSession}

theorem Alike.refl (s : DecoderSession) : Alike s s := ⟨rfl, rfl, rfl, rfl, rfl, rfl⟩

theorem Alike.symm (h : Alike s t) : Alike t s :=
  ⟨h.cursor.symm, h.offset.symm, h.vocab.symm, h.schema.symm, h.tracker.symm, h.l2_eos.symm⟩

theorem Alike.trans (h : Alike s t) (k : Alike t u) : Alike s u where
  cursor := h.cursor.trans k.cursor
  offset := h.offset.trans k.offset
  vocab := h.vocab.trans k.vocab
  schema := h.schema.trans k.schema
  tracker := h.tracker.trans k.tracker
  l2_eos := h.l2_eos.trans k.l2_eos

theorem narrowSigil_offset (s : DecoderSession) (pda : Pda) :
    (s.narrowSigil pda).offset = s.offset := by
  unfold narrowSigil
  split <;> rfl

theorem narrowFused_offset (s : DecoderSession) (schema : Schema) :
    (s.narrowFused schema).offset = s.offset := by
  unfold narrowFused
  split <;> rfl

/-- Asking for the mask reads nothing. -/
theorem allowedMask_alike (s : DecoderSession) : Alike s s.allowedMask := by
  have hsame := s.allowedMask_same
  have hoffset : s.allowedMask.offset = s.offset := by
    rw [allowedMask_eq]
    split
    · exact (narrowFused_offset _ _).trans (narrowSigil_offset _ _)
    · rfl
  refine ⟨hsame.cursor.symm, hoffset.symm, ?_, hsame.schema.symm, hsame.tracker.symm,
    hsame.l2_eos.symm⟩
  rw [hsame.grammar]
  exact cached_vocab.symm

theorem eosBit_alike (h : Alike s t) : s.grammar.eosBit = t.grammar.eosBit := by
  unfold CompiledGrammar.eosBit
  rw [h.vocab]

/-- The rule says of the end what it says, from either cache. -/
theorem advanced_alike (hs : s.Kept) (ht : t.Kept) (h : Alike s t) (bytes : List UInt8)
    (next : Cursor) : Alike (s.advanced bytes next) (t.advanced bytes next) := by
  cases hschema : s.schema with
  | none =>
    have hschema' : t.schema = none := h.schema.symm.trans hschema
    unfold advanced
    simp only [hschema, hschema']
    exact ⟨rfl, by simp only [h.offset], h.vocab, rfl, h.tracker, h.l2_eos⟩
  | some schema =>
    have hschema' : t.schema = some schema := h.schema.symm.trans hschema
    cases hc : s.cursor with
    | Spec p =>
      have hc' : t.cursor = .Spec p := h.cursor.symm.trans hc
      unfold advanced
      simp only [hschema, hschema', hc, hc']
      exact ⟨rfl, by simp only [h.offset], h.vocab, rfl, h.tracker,
        h.l2_eos⟩
    | Fixed pda =>
      have hc' : t.cursor = .Fixed pda := h.cursor.symm.trans hc
      have hgrows := s.tracker.observe_grows schema bytes pda
      have hcache := cacheSound_grow hgrows.columns hgrows.vars (hs.narrowing schema hschema).cache
      have hgrows' := t.tracker.observe_grows schema bytes pda
      have hcache' :=
        cacheSound_grow hgrows'.columns hgrows'.vars (ht.narrowing schema hschema').cache
      rw [← h.tracker] at hcache'
      unfold advanced refreshL2Eos
      simp only [hschema, hschema', hc, hc', h.tracker.symm]
      cases next with
      | Spec q =>
        exact ⟨rfl, by simp only [h.offset], h.vocab, rfl, rfl, h.l2_eos⟩
      | Fixed d =>
        refine ⟨rfl, by simp only [h.offset], h.vocab, rfl, rfl, ?_⟩
        exact (admitsEos_eq _ _ hcache).1.trans (admitsEos_eq _ _ hcache').1.symm

/-- Alike sessions refuse a token with the same error, or both read it. -/
theorem acceptToken_alike (hs : s.Kept) (ht : t.Kept) (h : Alike s t) (id : Nat) :
    (∃ e, s.acceptToken id = .error e ∧ t.acceptToken id = .error e) ∨
      ∃ s' t', s.acceptToken id = .ok s' ∧ t.acceptToken id = .ok t' ∧ Alike s' t' := by
  rw [acceptToken_eq, acceptToken_eq, ← eosBit_alike h, ← h.vocab, ← h.cursor]
  by_cases hid : id = s.grammar.eosBit
  · simp only [hid, if_true]
    cases s.cursor.isAccepting with
    | false => exact .inl ⟨_, rfl, rfl⟩
    | true => exact .inr ⟨_, _, rfl, rfl, h⟩
  · simp only [hid, if_false]
    cases s.grammar.vocab.bytes id with
    | none => exact .inl ⟨_, rfl, rfl⟩
    | some bytes =>
      cases hnext : s.cursor.tryAcceptToken bytes with
      | none => simp only [hnext]; exact .inl ⟨_, rfl, rfl⟩
      | some next =>
        simp only [hnext]
        exact .inr ⟨_, _, rfl, rfl, advanced_alike hs ht h bytes next⟩

theorem acceptByte_alike (h : Alike s t) (byte : UInt8) :
    (∃ e, s.acceptByte byte = .error e ∧ t.acceptByte byte = .error e) ∨
      ∃ s' t', s.acceptByte byte = .ok s' ∧ t.acceptByte byte = .ok t' ∧ Alike s' t' := by
  unfold acceptByte
  rw [← h.cursor, ← h.offset]
  cases s.cursor.advanceByte byte with
  | error dead => exact .inl ⟨_, rfl, rfl⟩
  | ok next => exact .inr ⟨_, _, rfl, rfl, ⟨rfl, rfl, h.vocab, h.schema, h.tracker, h.l2_eos⟩⟩

theorem reset_alike (h : Alike s t) : Alike s.reset t.reset :=
  ⟨congrArg Cursor.reset h.cursor, rfl, h.vocab, h.schema, rfl, rfl⟩

theorem hostCall_alike (hs : s.Kept) (ht : t.Kept) (h : Alike s t) (call : HostCall) :
    Alike (s.hostCall call) (t.hostCall call) := by
  cases call with
  | acceptByte byte =>
    rcases acceptByte_alike h byte with ⟨e, he, he'⟩ | ⟨s', t', hs', ht', hnext⟩
    · simpa only [hostCall, he, he'] using h
    · simpa only [hostCall, hs', ht'] using hnext
  | op op =>
    cases op with
    | allowedMask => exact ((allowedMask_alike s).symm.trans h).trans (allowedMask_alike t)
    | reset => exact reset_alike h
    | acceptToken id =>
      rcases acceptToken_alike hs ht h id with ⟨e, he, he'⟩ | ⟨s', t', hs', ht', hnext⟩
      · simpa only [hostCall, call, he, he'] using h
      · simpa only [hostCall, call, hs', ht'] using hnext

theorem hostCalls_alike (hs : s.Kept) (ht : t.Kept) (h : Alike s t) (run : List HostCall) :
    Alike (s.hostCalls run) (t.hostCalls run) := by
  induction run generalizing s t with
  | nil => exact h
  | cons call run ih =>
    exact ih (hostCall_kept hs call) (hostCall_kept ht call) (hostCall_alike hs ht h call)

/-- A padded run reads the same stream. -/
theorem padded_alike {run padded : List HostCall} (hp : Padded t run padded) (hs : s.Kept)
    (ht : t.Kept) (h : Alike s t) : Alike (s.hostCalls run) (t.hostCalls padded) := by
  induction hp generalizing s with
  | nil t => exact h
  | @allowedMask t run padded _ ih =>
    exact ih hs (allowedMask_kept ht) (h.trans (allowedMask_alike t))
  | @refused t run padded id e herr _ ih =>
    have hcall : t.hostCall (.op (.acceptToken id)) = t := by simp only [hostCall, call, herr]
    have hrun : t.hostCalls (.op (.acceptToken id) :: padded) = t.hostCalls padded := by
      unfold hostCalls
      rw [List.foldl_cons, hcall]
    rw [hrun]
    exact ih hs ht h
  | @same t run padded call _ ih =>
    exact ih (hostCall_kept hs call) (hostCall_kept ht call) (hostCall_alike hs ht h call)

/-! ## Alike sessions answer alike -/

theorem indep_clean (probe : List UInt8 → pushdown.Probe) (v : Vocab) (mask_len : Nat) :
    (buildPartition probe v mask_len).indep.Clean := by
  rw [buildPartition, foldl_placeToken]
  exact BitMask.foldl_set_clean _ _ (BitMask.withLen_clean _)

theorem grammarMask_clean (h : s.Sound) : s.grammarMask.Clean := by
  have hcached := cached_fst h.cells h.drives
  have hclean : (s.mask.copyFrom (s.cursor.cached s.grammar).1.indep).Clean := by
    rw [hcached, Cursor.partition_eq]
    exact BitMask.copyFrom_clean (indep_clean _ _ _) (by rw [h.mask_len, len_indep])
  unfold grammarMask fillGrammar
  dsimp only
  split <;> split
  · exact BitMask.set_clean (BitMask.foldl_set_clean _ _ hclean) _
  · exact BitMask.set_clean hclean _
  · exact BitMask.clear_clean (BitMask.foldl_set_clean _ _ hclean) _
  · exact BitMask.clear_clean hclean _

theorem intersectNarrowed_clean (n : Narrowed) (h : s.mask.Clean) :
    (s.intersectNarrowed n).mask.Clean := by
  unfold intersectNarrowed
  dsimp only
  split
  · exact BitMask.intersect_clean h _
  · exact h

theorem allowedMask_clean (h : s.Sound) : s.allowedMask.mask.Clean := by
  have hmasked : s.masked.mask.Clean := grammarMask_clean h
  rw [allowedMask_eq]
  split
  · next schema pda _ _ =>
    have hposition := intersectNarrowed_clean (s := s.masked)
      (narrowInto s.masked.narrow_buf s.masked.narrow_cache schema
        (s.masked.tracker.position pda.state) s.masked.tracker.narrowPrefix
        s.masked.tracker.emittedColumns s.masked.tracker.boundVariables s.masked.grammar.vocab
        s.masked.grammar.eosBit) hmasked
    have hsigil : ((s.masked.narrowPosition schema pda).narrowSigil pda).mask.Clean := by
      unfold narrowSigil
      split
      · exact intersectNarrowed_clean _ hposition
      · exact hposition
    unfold narrowFused
    split
    · exact intersectNarrowed_clean _ hsigil
    · exact hsigil
  · exact hmasked

theorem allowedMask_len (h : s.Sound) : s.allowedMask.mask.len = s.grammar.vocab.len + 1 := by
  rw [s.allowedMask_same.mask_len, (masked_sound h).mask_len, ← maskLen_eq]
  exact cached_maskLen

/-- The grammar's mask, bit for bit. -/
theorem test_grammarMask_alike (hs : s.Sound) (ht : t.Sound) (h : Alike s t) {id : Nat}
    (hid : id < s.grammar.vocab.len + 1) : s.grammarMask.test id = t.grammarMask.test id := by
  have hvocab := h.vocab
  have hmask := maskLen_eq s.grammar
  have hmask' := maskLen_eq t.grammar
  have hlen := hs.mask_len
  have hlen' := ht.mask_len
  rw [← hvocab] at hmask'
  by_cases heos : id = s.grammar.vocab.len
  · have hbit := test_grammarMask_eos hs
    have hbit' := test_grammarMask_eos ht
    rw [eosBit_eq, ← heos] at hbit
    rw [eosBit_eq, ← hvocab, ← heos, ← h.cursor] at hbit'
    exact hbit.trans hbit'.symm
  · rw [grammarMask, grammarMask, cached_fst hs.cells hs.drives, cached_fst ht.cells ht.drives,
      Cursor.partition_eq, Cursor.partition_eq, ← h.cursor, ← hvocab, hmask, hmask',
      test_fillGrammar_token (by simp [hlen, hmask]) (by simp [eosBit_eq]; omega) (by omega),
      test_fillGrammar_token (by simp [hlen', hmask'])
        (by simp [eosBit_eq, ← hvocab]; omega) (by omega)]
    simp [← hvocab]

theorem test_allowedMask_alike (hs : s.Kept) (ht : t.Kept) (h : Alike s t) {id : Nat}
    (hid : id < s.grammar.vocab.len + 1) :
    s.allowedMask.mask.test id = t.allowedMask.mask.test id := by
  have hgrammar := test_grammarMask_alike hs.sound ht.sound h hid
  cases hschema : s.schema with
  | none =>
    rw [allowedMask_of_no_schema hschema,
      allowedMask_of_no_schema (h.schema.symm.trans hschema), hgrammar]
  | some schema =>
    have hschema' : t.schema = some schema := h.schema.symm.trans hschema
    cases hc : s.cursor with
    | Spec p =>
      have hc' : t.cursor = .Spec p := h.cursor.symm.trans hc
      rw [allowedMask_of_spec hc, allowedMask_of_spec hc']
      exact hgrammar
    | Fixed pda =>
      have hc' : t.cursor = .Fixed pda := h.cursor.symm.trans hc
      obtain ⟨-, htoken, hend⟩ :=
        allowedMask_applies hs.sound hschema (hs.narrowing schema hschema) hc
      obtain ⟨-, htoken', hend'⟩ :=
        allowedMask_applies ht.sound hschema' (ht.narrowing schema hschema') hc'
      rw [← h.vocab, ← h.tracker] at htoken' hend'
      by_cases heos : id = s.grammar.vocab.len
      · rw [heos] at hgrammar ⊢
        rw [hend, hend', hgrammar]
      · rw [htoken id (by omega), htoken' id (by omega), hgrammar]

/-- Sessions that have read the same answer every call alike. -/
theorem alike_answers (hs : s.Kept) (ht : t.Kept) (h : Alike s t) : SameAnswers s t := by
  refine ⟨?_, ?_, h.offset, fun id => ?_, fun byte => ?_⟩
  · have hlen := allowedMask_len hs.sound
    have hlen' := allowedMask_len ht.sound
    apply BitMask.eq_of_test (allowedMask_clean hs.sound) (allowedMask_clean ht.sound)
    · rw [hlen, hlen', h.vocab]
    · intro id hid
      exact test_allowedMask_alike hs ht h (by omega)
  · rw [isComplete, isComplete, h.cursor, h.l2_eos]
  · rcases acceptToken_alike hs ht h id with ⟨e, he, he'⟩ | ⟨s', t', hs', ht', -⟩
    · rw [he, he']
    · rw [hs', ht']
      rfl
  · rcases acceptByte_alike h byte with ⟨e, he, he'⟩ | ⟨s', t', hs', ht', -⟩
    · rw [he, he']
    · rw [hs', ht']
      rfl

/-! ## After every run -/

theorem fresh_cursor {g : CompiledGrammar} (hs : Fresh g s) : s.cursor = Cursor.new g ∧
    s.offset = 0 ∧ s.grammar = g ∧ s.tracker = ScopeTracker.new ∧ s.l2_eos = true := by
  cases hs with
  | plain => exact ⟨rfl, rfl, rfl, rfl, rfl⟩
  | narrowed h =>
    rw [(withSchema_eq h).2]
    exact ⟨rfl, rfl, rfl, rfl, rfl⟩

/-- What a run leaves alone. -/
theorem hostCalls_frame (hs : s.Kept) (run : List HostCall) :
    (s.hostCalls run).grammar.vocab = s.grammar.vocab ∧
      (s.hostCalls run).grammar.engine = s.grammar.engine ∧
      (s.hostCalls run).schema = s.schema := by
  induction run generalizing s with
  | nil => exact ⟨rfl, rfl, rfl⟩
  | cons call run ih =>
    have hcall : (s.hostCall call).grammar.vocab = s.grammar.vocab ∧
        (s.hostCall call).grammar.engine = s.grammar.engine ∧
        (s.hostCall call).schema = s.schema := by
      cases call with
      | op op =>
        obtain ⟨hschema, hvocab, hengine⟩ := calls_same s [op]
        exact ⟨hvocab, hengine, hschema⟩
      | acceptByte byte =>
        cases hacc : s.acceptByte byte with
        | error e => simp [hostCall, hacc]
        | ok t =>
          obtain ⟨next, -, rfl⟩ := acceptByte_cases hacc
          simp [hostCall, hacc]
    obtain ⟨hvocab, hengine, hschema⟩ := ih (hostCall_kept hs call)
    exact ⟨hvocab.trans hcall.1, hengine.trans hcall.2.1, hschema.trans hcall.2.2⟩

theorem reset_of_drives {c : Cursor} {g : CompiledGrammar} (h : c.Drives g.engine) :
    c.reset = Cursor.new g := by
  unfold Cursor.new
  cases c with
  | Fixed pda =>
    cases he : g.engine with
    | Fixed => rfl
    | Spec a => rw [he] at h; exact h.elim
  | Spec pda =>
    cases he : g.engine with
    | Fixed => rw [he] at h; exact h.elim
    | Spec a =>
      rw [he] at h
      obtain rfl : pda.automaton = a := h
      rfl

/-- After every run, a reset reads the stream of the fresh session. -/
theorem reset_fresh {g : CompiledGrammar} (hg : Compiled g) (hs : Fresh g s)
    (run : List HostCall) : Alike s (s.hostCalls run).reset := by
  obtain ⟨hcursor, hoffset, hgrammar, htracker, heos⟩ := fresh_cursor hs
  have hkept := fresh_kept hg hs
  obtain ⟨hvocab, hengine, hschema⟩ := hostCalls_frame hkept run
  have hdrives := (hostCalls_kept hkept run).sound.drives
  refine ⟨?_, hoffset, hvocab.symm, hschema.symm, htracker, heos⟩
  rw [hengine, hgrammar] at hdrives
  exact hcursor.trans (reset_of_drives hdrives).symm

/-- Calls that read nothing, put anywhere into a run, change no later answer.
Every mask is the mask of a session that remembers no rule. After a reset,
the session answers as it did when it was fresh. -/
theorem what_it_remembers_never_shows {g : CompiledGrammar} {s : DecoderSession}
    (hg : Compiled g) (hs : Fresh g s) :
    (∀ run padded, Padded s run padded →
        SameAnswers (s.hostCalls run) (s.hostCalls padded)) ∧
      (∀ run, (s.hostCalls run).allowedMask.mask =
        { s.hostCalls run with narrow_cache := NarrowCache.new }.allowedMask.mask) ∧
      ∀ run more, SameAnswers (s.hostCalls more) ((s.hostCalls run).reset.hostCalls more) := by
  have hkept := fresh_kept hg hs
  refine ⟨fun run padded hp => ?_, fun run => ?_, fun run more => ?_⟩
  · have hrun := hostCalls_kept hkept run
    have hpadded := hostCalls_kept hkept padded
    exact alike_answers hrun hpadded (padded_alike hp hkept hkept (.refl s))
  · have hrun := hostCalls_kept hkept run
    have hforgot : Kept { s.hostCalls run with narrow_cache := NarrowCache.new } := by
      refine ⟨⟨hrun.sound.drives, hrun.sound.cells, hrun.sound.mask_len⟩, ?_⟩
      intro schema hschema
      exact ⟨(hrun.narrowing schema hschema).buf_len, new_cacheSound⟩
    exact (alike_answers hrun hforgot ⟨rfl, rfl, rfl, rfl, rfl, rfl⟩).allowed_mask
  · have hreset := reset_kept (hostCalls_kept hkept run)
    have hmore := hostCalls_kept hkept more
    have hagain := hostCalls_kept hreset more
    exact alike_answers hmore hagain (hostCalls_alike hkept hreset (reset_fresh hg hs run) more)

end alike

/-- Masks and a refused token before a source change no answer behind it. -/
theorem a_mask_before_a_source_never_shows :
    SameAnswers
      ((build (CompiledGrammar.compile blockVocab) (some oneClass)).hostCalls
        [.op (.acceptToken 0)])
      ((build (CompiledGrammar.compile blockVocab) (some oneClass)).hostCalls
        [.op .allowedMask, .op (.acceptToken 1), .op .allowedMask, .op (.acceptToken 0)]) := by
  have hrefused : ∀ s : DecoderSession, s.cursor = .Fixed Pda.new →
      s.grammar.vocab = blockVocab → s.acceptToken 1 = .error (.InadmissibleToken 1) := by
    intro s hcursor hvocab
    have heos : s.grammar.eosBit = 2 := by rw [eosBit_eq, hvocab]; rfl
    have hbytes : s.grammar.vocab.bytes 1 = some (lit "\x7d") := by rw [hvocab]; rfl
    have hdead : (Cursor.Fixed Pda.new).tryAcceptToken (lit "\x7d") = none := by decide +kernel
    rw [acceptToken_eq, heos, hbytes, hcursor]
    simp only [hdead]
    rfl
  have hmasked := allowedMask_alike (build (CompiledGrammar.compile blockVocab) (some oneClass))
  apply (what_it_remembers_never_shows (.fixed blockVocab) (.narrowed rfl)).1
  exact .allowedMask (.refused (hrefused _ hmasked.cursor.symm hmasked.vocab.symm)
    (.allowedMask (.same _ (.nil _))))

end purecard.session.DecoderSession
