-- The mask under a schema. Whatever a session was asked before, its mask has
-- the tokens that the grammar admits and that the rules of the live stream
-- keep, and the bit of the end agrees with `isComplete`.
import PureAnalyzer.MaskLaws
import PureAnalyzer.NarrowLaws
import PureAnalyzer.ScopeLaws

namespace purecard.scope.ScopeTracker

open pda model narrow

/-! ## The rules of the live stream -/

variable (t : ScopeTracker) (schema : Schema) (state : State)

/-- The rule of the position. -/
def rule : Option Rule :=
  ruleAt schema (t.position state) t.narrowPrefix t.emittedColumns t.boundVariables

def sigilRule : Option Rule :=
  if t.masksUnboundSigil state then some ⟨keepsUnboundSigil, true⟩ else none

def fusedNavRule : Option Rule :=
  (t.fusedNavPosition schema).bind fun pos => fusedRuleAt schema pos t.emittedColumns

/-- Every rule of the stream keeps the token. -/
def keeps (bytes : List UInt8) : Bool :=
  (t.rule schema state).all (·.keep bytes) && (t.sigilRule state).all (·.keep bytes) &&
    (t.fusedNavRule schema).all (·.keep bytes)

/-- The rule of the position lets the stream end. -/
def mayEnd : Bool := (t.rule schema state).all Rule.eos

end purecard.scope.ScopeTracker

namespace purecard.session.DecoderSession

open pushdown pda mask vocab compiled model scope narrow

/-! ## One rule on the mask -/

/-- The buffer has the size of the mask, and the cache is true to the names
that the stream has met. -/
structure Narrowing (s : DecoderSession) (schema : Schema) : Prop where
  buf_len : s.narrow_buf.len = s.grammar.vocab.len + 1
  cache : CacheSound s.grammar.vocab schema s.tracker.emittedColumns s.tracker.boundVariables
    s.narrow_cache

/-- From `s` to `t`, one rule was taken into the mask, or none. -/
structure Applies (schema : Schema) (s t : DecoderSession) (r : Option Rule) : Prop where
  same : SameStream s t
  narrowing : t.Narrowing schema
  token : ∀ id < s.grammar.vocab.len, t.mask.test id =
    (s.mask.test id && r.all (·.keep ((s.grammar.vocab.bytes id).getD [])))
  eos : t.mask.test s.grammar.vocab.len = (s.mask.test s.grammar.vocab.len && r.all Rule.eos)

theorem eosBit_eq (g : CompiledGrammar) : g.eosBit = g.vocab.len := g.vocab.lenU32_eq

theorem maskLen_eq (g : CompiledGrammar) : g.maskLen = g.vocab.len + 1 := by
  rw [CompiledGrammar.maskLen, eosBit_eq]

section rules

variable {s t : DecoderSession} {schema : Schema}

theorem applies_none (hs : s.Narrowing schema) : Applies schema s s none :=
  ⟨.refl s, hs, by simp, by simp⟩

theorem intersectNarrowed_applies {n : Narrowed} {r : Option Rule}
    (hlen : s.mask.len = s.grammar.vocab.len + 1)
    (h : Narrows s.grammar.vocab schema s.tracker.emittedColumns s.tracker.boundVariables n r) :
    Applies schema s (s.intersectNarrowed n) r := by
  have hsame : s.mask.len = n.dst.len := by rw [hlen, h.len]
  have hnarrowing : (s.intersectNarrowed n).Narrowing schema := ⟨h.len, h.cache⟩
  refine ⟨intersectNarrowed_same s n, hnarrowing, ?_, ?_⟩
  · intro id hid
    unfold intersectNarrowed
    dsimp only
    rw [h.applied]
    cases r with
    | none => simp
    | some q => simp [BitMask.test_intersect hsame, (h.rule q rfl).token id hid]
  · unfold intersectNarrowed
    dsimp only
    rw [h.applied]
    cases r with
    | none => simp
    | some q => simp [BitMask.test_intersect hsame, (h.rule q rfl).eos]

theorem narrowPosition_applies (pda : Pda) (hlen : s.mask.len = s.grammar.vocab.len + 1)
    (hs : s.Narrowing schema) :
    Applies schema s (s.narrowPosition schema pda) (s.tracker.rule schema pda.state) := by
  unfold narrowPosition
  rw [eosBit_eq]
  exact intersectNarrowed_applies hlen (narrowInto_narrows _ _ hs.buf_len hs.cache)

theorem narrowSigil_applies (pda : Pda) (hlen : s.mask.len = s.grammar.vocab.len + 1)
    (hs : s.Narrowing schema) :
    Applies schema s (s.narrowSigil pda) (s.tracker.sigilRule pda.state) := by
  unfold narrowSigil ScopeTracker.sigilRule
  split
  · rw [eosBit_eq]
    exact intersectNarrowed_applies hlen (narrowSigilInto_narrows hs.buf_len hs.cache)
  · exact applies_none hs

theorem narrowFused_applies (hlen : s.mask.len = s.grammar.vocab.len + 1)
    (hs : s.Narrowing schema) :
    Applies schema s (s.narrowFused schema) (s.tracker.fusedNavRule schema) := by
  unfold narrowFused ScopeTracker.fusedNavRule
  cases s.tracker.fusedNavPosition schema with
  | none => exact applies_none hs
  | some pos =>
    dsimp only [Option.bind_some]
    rw [eosBit_eq]
    exact intersectNarrowed_applies hlen (narrowFusedInto_narrows pos hs.buf_len hs.cache)

theorem sigilRule_eos (tracker : ScopeTracker) (state : State) :
    (tracker.sigilRule state).all Rule.eos = true := by
  unfold ScopeTracker.sigilRule
  split <;> rfl

theorem fusedNavRule_eos (tracker : ScopeTracker) :
    (tracker.fusedNavRule schema).all Rule.eos = true := by
  unfold ScopeTracker.fusedNavRule
  cases tracker.fusedNavPosition schema with
  | none => rfl
  | some pos => cases pos <;> rfl

/-! ## The whole mask -/

/-- A session bound to a schema: it runs the fixed grammar, its cache is
true, and it has asked the live rule whether the stream may end, which no
rule was asked before the first token. -/
structure Bound (schema : Schema) (s : DecoderSession) : Prop where
  sound : s.Sound
  schema_eq : s.schema = some schema
  engine : s.grammar.engine = .Fixed
  narrowing : s.Narrowing schema
  ended : ∀ pda, s.cursor = .Fixed pda → Pda.isAccepting pda = true →
    s.l2_eos = s.tracker.mayEnd schema pda.state

theorem Bound.cursor_eq (h : Bound schema s) : ∃ pda, s.cursor = .Fixed pda := by
  have hdrives := h.sound.drives
  rw [h.engine] at hdrives
  cases hc : s.cursor with
  | Fixed pda => exact ⟨pda, rfl⟩
  | Spec p => rw [hc] at hdrives; exact hdrives.elim

theorem masked_narrowing (hs : s.Narrowing schema) : s.masked.Narrowing schema := by
  have hvocab : s.masked.grammar.vocab = s.grammar.vocab := cached_vocab
  refine ⟨?_, ?_⟩
  · rw [hvocab]; exact hs.buf_len
  · rw [hvocab]; exact hs.cache

/-- The mask of the grammar with the three rules of the stream taken into it. -/
theorem allowedMask_applies (hsound : s.Sound) (hschema : s.schema = some schema)
    (hnarrowing : s.Narrowing schema) {pda : Pda} (hpda : s.cursor = .Fixed pda) :
    s.allowedMask.Narrowing schema ∧
      (∀ id < s.grammar.vocab.len, s.allowedMask.mask.test id =
        (s.grammarMask.test id &&
          s.tracker.keeps schema pda.state ((s.grammar.vocab.bytes id).getD []))) ∧
      s.allowedMask.mask.test s.grammar.vocab.len =
        (s.grammarMask.test s.grammar.vocab.len && s.tracker.mayEnd schema pda.state) := by
  have hvocab : s.masked.grammar.vocab = s.grammar.vocab := cached_vocab
  have hlen : s.masked.mask.len = s.masked.grammar.vocab.len + 1 := by
    rw [(masked_sound hsound).mask_len, maskLen_eq]
  have h1 := narrowPosition_applies pda hlen (masked_narrowing hnarrowing)
  have hlen1 : (s.masked.narrowPosition schema pda).mask.len =
      (s.masked.narrowPosition schema pda).grammar.vocab.len + 1 := by
    rw [h1.same.mask_len, h1.same.grammar, hlen]
  have h2 := narrowSigil_applies pda hlen1 h1.narrowing
  have hlen2 : ((s.masked.narrowPosition schema pda).narrowSigil pda).mask.len =
      ((s.masked.narrowPosition schema pda).narrowSigil pda).grammar.vocab.len + 1 := by
    rw [h2.same.mask_len, h2.same.grammar, hlen1]
  have h3 := narrowFused_applies hlen2 h2.narrowing
  have hmask : s.allowedMask =
      ((s.masked.narrowPosition schema pda).narrowSigil pda).narrowFused schema := by
    rw [allowedMask_eq, hschema, hpda]
  have hmasked : s.masked.mask = s.grammarMask := rfl
  have htracker : s.masked.tracker = s.tracker := rfl
  rw [hmask]
  refine ⟨h3.narrowing, ?_, ?_⟩
  · intro id hid
    have e1 := h1.token id (by rw [hvocab]; exact hid)
    have e2 := h2.token id (by rw [h1.same.grammar, hvocab]; exact hid)
    have e3 := h3.token id (by rw [h2.same.grammar, h1.same.grammar, hvocab]; exact hid)
    rw [h2.same.tracker, h1.same.tracker, h2.same.grammar, h1.same.grammar, hvocab,
      htracker] at e3
    rw [h1.same.tracker, h1.same.grammar, hvocab, htracker] at e2
    rw [hvocab, htracker, hmasked] at e1
    rw [e3, e2, e1, ScopeTracker.keeps]
    simp only [Bool.and_assoc]
  · have e1 := h1.eos
    have e2 := h2.eos
    have e3 := h3.eos
    rw [h2.same.grammar, h1.same.grammar, hvocab, fusedNavRule_eos, Bool.and_true] at e3
    rw [h1.same.grammar, hvocab, sigilRule_eos, Bool.and_true] at e2
    rw [hvocab, htracker, hmasked] at e1
    rw [e3, e2, e1, ScopeTracker.mayEnd]

/-- A token is masked in exactly when the grammar admits it from the live
automaton and every rule of the stream keeps it. -/
theorem test_allowedMask (h : Bound schema s) {pda : Pda} (hpda : s.cursor = .Fixed pda)
    {id : Nat} {bytes : List UInt8} (hb : s.grammar.vocab.bytes id = some bytes) :
    s.allowedMask.mask.test id =
      (Pda.admits pda bytes && s.tracker.keeps schema pda.state bytes) := by
  have hid : id < s.grammar.vocab.len :=
    (s.grammar.vocab.bytes_eq_some_iff id).mp (by simp [hb])
  have hexact : s.cursor.Exact bytes := by rw [hpda]; exact fixed_exact pda bytes
  rw [(allowedMask_applies h.sound h.schema_eq h.narrowing hpda).2.1 id hid, test_grammarMask h.sound hb hexact, hpda, hb]
  rfl

theorem test_allowedMask_eos (h : Bound schema s) {pda : Pda} (hpda : s.cursor = .Fixed pda) :
    s.allowedMask.mask.test s.grammar.vocab.len =
      (Pda.isAccepting pda && s.tracker.mayEnd schema pda.state) := by
  rw [(allowedMask_applies h.sound h.schema_eq h.narrowing hpda).2.2, ← eosBit_eq, test_grammarMask_eos h.sound, hpda]
  rfl

/-! ## What every call keeps -/

theorem refreshL2Eos_bound {t : DecoderSession} {pda : Pda} (hsound : t.Sound)
    (hschema : t.schema = some schema) (hengine : t.grammar.engine = .Fixed)
    (hpda : t.cursor = .Fixed pda) (hnarrowing : t.Narrowing schema) :
    Bound schema t.refreshL2Eos := by
  have heq := admitsEos_eq (t.tracker.position pda.state) t.tracker.narrowPrefix
    hnarrowing.cache
  have hrefresh : t.refreshL2Eos = { t with
      l2_eos := (admitsEos t.narrow_cache schema (t.tracker.position pda.state)
        t.tracker.narrowPrefix t.tracker.emittedColumns t.tracker.boundVariables).1
      narrow_cache := (admitsEos t.narrow_cache schema (t.tracker.position pda.state)
        t.tracker.narrowPrefix t.tracker.emittedColumns t.tracker.boundVariables).2 } := by
    unfold refreshL2Eos
    rw [hschema, hpda]
  rw [hrefresh]
  refine ⟨⟨hsound.drives, hsound.cells, hsound.mask_len⟩, hschema, hengine,
    ⟨hnarrowing.buf_len, heq.2⟩, ?_⟩
  intro pda' hpda' _
  obtain rfl : pda = pda' := by rw [hpda] at hpda'; exact Cursor.Fixed.inj hpda'
  exact heq.1

theorem advanced_bound (h : Bound schema s) {bytes : List UInt8} {next : Cursor}
    (hnext : s.cursor.tryAcceptToken bytes = some next) : Bound schema (s.advanced bytes next) := by
  obtain ⟨pda, hpda⟩ := h.cursor_eq
  have hsound := advanced_sound h.sound hnext
  rw [hpda, Cursor.tryAcceptToken, Option.map_eq_some_iff] at hnext
  obtain ⟨d, -, rfl⟩ := hnext
  have hgrows := s.tracker.observe_grows schema bytes pda
  have hbound : Bound schema
      { s with tracker := s.tracker.observe bytes pda schema, cursor := .Fixed d }.refreshL2Eos := by
    refine refreshL2Eos_bound ⟨?_, h.sound.cells, h.sound.mask_len⟩ h.schema_eq h.engine rfl
      ⟨h.narrowing.buf_len, cacheSound_grow hgrows.columns hgrows.vars h.narrowing.cache⟩
    show Cursor.Drives (.Fixed d) s.grammar.engine
    rw [h.engine]
    trivial
  have hadvanced : s.advanced bytes (.Fixed d) =
      { ({ s with tracker := s.tracker.observe bytes pda schema, cursor := .Fixed d } :
          DecoderSession).refreshL2Eos with offset := s.offset + bytes.length } := by
    unfold advanced
    rw [h.schema_eq, hpda]
  rw [hadvanced]
  exact ⟨⟨hbound.sound.drives, hbound.sound.cells, hbound.sound.mask_len⟩, hbound.schema_eq,
    hbound.engine, ⟨hbound.narrowing.buf_len, hbound.narrowing.cache⟩, hbound.ended⟩

theorem allowedMask_bound (h : Bound schema s) : Bound schema s.allowedMask := by
  obtain ⟨pda, hpda⟩ := h.cursor_eq
  have hsame := s.allowedMask_same
  refine ⟨hsame.sound (masked_sound h.sound), hsame.schema.trans h.schema_eq, ?_,
    (allowedMask_applies h.sound h.schema_eq h.narrowing hpda).1, ?_⟩
  · rw [hsame.grammar]
    exact cached_engine.trans h.engine
  · rw [hsame.cursor, hsame.l2_eos, hsame.tracker]
    exact h.ended

theorem start_not_accepting : Pda.isAccepting Pda.new = false := rfl

theorem fresh_bound {t : DecoderSession} (hsound : t.Sound) (hschema : t.schema = some schema)
    (hengine : t.grammar.engine = .Fixed) (hcursor : t.cursor = .Fixed Pda.new)
    (hbuf : t.narrow_buf.len = t.grammar.vocab.len + 1) (hcache : t.narrow_cache = NarrowCache.new) :
    Bound schema t := by
  refine ⟨hsound, hschema, hengine, ⟨hbuf, ?_⟩, ?_⟩
  · rw [hcache]
    exact new_cacheSound
  · intro pda hpda hacc
    obtain rfl : Pda.new = pda := by rw [hcursor] at hpda; exact Cursor.Fixed.inj hpda
    rw [start_not_accepting] at hacc
    cases hacc

theorem calls_bound (h : Bound schema s) (ops : List Op) : Bound schema (s.calls ops) := by
  refine calls_keep (fun s id bytes next hs _ hnext => ?_) (fun s hs => ?_) (fun s hs => ?_) h ops
  · exact advanced_bound hs hnext
  · exact allowedMask_bound hs
  · obtain ⟨pda, hpda⟩ := hs.cursor_eq
    refine fresh_bound ?_ hs.schema_eq hs.engine ?_ hs.narrowing.buf_len rfl
    · exact ⟨Cursor.reset_drives hs.sound.drives, hs.sound.cells, hs.sound.mask_len⟩
    · show s.cursor.reset = .Fixed Pda.new
      rw [hpda]
      rfl

theorem build_bound (v : Vocab) (schema : Schema) :
    Bound schema (build (CompiledGrammar.compile v) (some schema)) := by
  refine fresh_bound (build_sound (compile_cells v) _) rfl rfl rfl ?_ rfl
  exact maskLen_eq _

/-- Every session bound to a schema stays so. -/
theorem overFixed_bound (v : Vocab) (schema : Schema) (ops : List Op) :
    Bound schema (overFixed v (some schema) ops) :=
  calls_bound (build_bound v schema) ops

/-! ## The end of the stream -/

/-- A fresh session over a grammar, with a schema or without. -/
inductive Fresh (g : CompiledGrammar) : DecoderSession → Prop where
  | plain : Fresh g (new g)
  | narrowed {schema : Schema} {s : DecoderSession} : withSchema g schema = .ok s → Fresh g s

/-- A grammar as it is compiled, or after other sessions filled its cache. -/
inductive Compiled : CompiledGrammar → Prop where
  | fixed (v : Vocab) : Compiled (CompiledGrammar.compile v)
  | spec {parsed : spec.GrammarSpec} {v : Vocab} {g : CompiledGrammar} :
    CompiledGrammar.fromSpec parsed v = .ok g → Compiled g
  | shared {g : CompiledGrammar} {s : DecoderSession} (ops : List Op) :
    Compiled g → Fresh g s → Compiled (s.calls ops).grammar

theorem withSchema_eq {g : CompiledGrammar} (h : withSchema g schema = .ok s) :
    g.engine = .Fixed ∧ s = build g (some schema) := by
  unfold withSchema at h
  cases he : g.engine with
  | Fixed => rw [he] at h; exact ⟨rfl, (Except.ok.inj h).symm⟩
  | Spec a => rw [he] at h; cases h

theorem fresh_sound {g : CompiledGrammar} (hg : CellsSound g) (hs : Fresh g s) : s.Sound := by
  cases hs with
  | plain => exact build_sound hg none
  | narrowed h =>
    rw [(withSchema_eq h).2]
    exact build_sound hg _

theorem compiled_cells {g : CompiledGrammar} (hg : Compiled g) : CellsSound g := by
  induction hg with
  | fixed v => exact compile_cells v
  | @spec parsed v g h =>
    unfold CompiledGrammar.fromSpec at h
    cases hc : lower.CompiledAutomaton.compile parsed with
    | error e => rw [hc] at h; cases h
    | ok a =>
      rw [hc] at h
      cases h
      exact empty_cells _
  | shared ops _ hs ih => exact (calls_sound (fresh_sound ih hs) ops).cells

/-- Without a schema, nothing keeps the stream from ending. -/
theorem calls_plain {g : CompiledGrammar} (ops : List Op) :
    ((new g).calls ops).schema = none ∧ ((new g).calls ops).l2_eos = true := by
  refine calls_keep (P := fun t => t.schema = none ∧ t.l2_eos = true) ?_ ?_ ?_ ⟨rfl, rfl⟩ ops
  · rintro t id bytes next ⟨hschema, heos⟩ - -
    refine ⟨(t.advanced_frame bytes next).2.2.2.2.trans hschema, ?_⟩
    unfold advanced
    rw [hschema]
    exact heos
  · rintro t ⟨hschema, heos⟩
    exact ⟨t.allowedMask_same.schema.trans hschema, t.allowedMask_same.l2_eos.trans heos⟩
  · rintro t ⟨hschema, -⟩
    exact ⟨hschema, rfl⟩

theorem isComplete_eq (h : Bound schema s) {pda : Pda} (hpda : s.cursor = .Fixed pda) :
    s.isComplete = (Pda.isAccepting pda && s.tracker.mayEnd schema pda.state) := by
  unfold isComplete
  rw [hpda]
  cases hacc : Pda.isAccepting pda with
  | false => simp [Cursor.isAccepting, hacc]
  | true => simp [Cursor.isAccepting, hacc, h.ended pda hpda hacc]

/-- After every run, the stream is complete exactly when the mask has the
bit of the end. -/
theorem the_end_bit_is_completeness {g : CompiledGrammar} {s : DecoderSession}
    (hg : Compiled g) (hs : Fresh g s) (ops : List Op) :
    (s.calls ops).isComplete = (s.calls ops).allowedMask.mask.test g.eosBit := by
  have hcells := compiled_cells hg
  have hsound := calls_sound (fresh_sound hcells hs) ops
  cases hs with
  | plain =>
    obtain ⟨hschema, heos⟩ := calls_plain (g := g) ops
    have hbit : g.eosBit = ((new g).calls ops).grammar.eosBit := by
      rw [eosBit_eq, eosBit_eq, (calls_same (new g) ops).2.1]
      rfl
    rw [allowedMask_of_no_schema hschema, hbit, test_grammarMask_eos hsound, isComplete, heos,
      Bool.and_true]
  | @narrowed schema s h =>
    obtain ⟨hengine, rfl⟩ := withSchema_eq h
    have hfresh : Bound schema (build g (some schema)) := by
      refine fresh_bound (build_sound hcells _) rfl hengine ?_ (maskLen_eq g) rfl
      simp [build, Cursor.new, hengine]
    have hbound := calls_bound hfresh ops
    obtain ⟨pda, hpda⟩ := hbound.cursor_eq
    have hbit : g.eosBit = ((build g (some schema)).calls ops).grammar.vocab.len := by
      rw [eosBit_eq, (calls_same (build g (some schema)) ops).2.1]
      rfl
    rw [hbit, test_allowedMask_eos hbound hpda, isComplete_eq hbound hpda]

end rules

/-- A schema of one class that has no member. -/
def oneClass : Schema := ⟨lit "S", [(lit "A", ⟨[], [], [], none⟩)], []⟩

/-- A schema of one class that has one text. -/
def oneText : Schema :=
  ⟨lit "S", [(lit "A", ⟨[⟨lit "p", .Primitive .String, ⟨1, some 1⟩⟩], [], [], none⟩)], []⟩

/-- A stream of one whole source is complete, and its end is masked in. -/
theorem the_end_bit_of_a_source :
    ((build (CompiledGrammar.compile ⟨[lit "|A.all()"], by decide⟩) (some oneClass)).calls
        [.acceptToken 0]).isComplete =
      ((build (CompiledGrammar.compile ⟨[lit "|A.all()"], by decide⟩) (some oneClass)).calls
        [.acceptToken 0]).allowedMask.mask.test
          (CompiledGrammar.compile ⟨[lit "|A.all()"], by decide⟩).eosBit :=
  the_end_bit_is_completeness (.fixed _) (.narrowed rfl) [.acceptToken 0]

/-! ## Closers after a whole term -/

/-- The bytes that end a term or a statement. -/
def closers : List UInt8 := lit "),;]\x7d"

/-- The positions behind a whole term, where no dash was read. -/
def CompletedTerm (pos : L2Position) : Prop :=
  pos = .SourceExtent false ∨ pos = .StoreResult false ∨ pos = .StrOperator false

theorem closer_table : ∀ b ∈ closers,
    keepsSourceExtent false [b] = true ∧
      keepsAfterCompletedTerm false STORE_RESULT_DENIED_OPENERS [b] = true ∧
      keepsAfterCompletedTerm false STR_OPERATOR_DENIED_OPENERS [b] = true ∧
      keepsUnboundSigil [b] = true ∧ fusedPostDot [b] = none := by
  decide +kernel

theorem rule_keeps_closer {tracker : ScopeTracker} {schema : Schema} {state : State} {b : UInt8}
    (hpos : CompletedTerm (tracker.position state)) (hb : b ∈ closers) :
    (tracker.rule schema state).all (·.keep [b]) = true := by
  obtain ⟨hextent, hstore, hstr, -, -⟩ := closer_table b hb
  unfold ScopeTracker.rule
  rcases hpos with hpos | hpos | hpos
  · rw [hpos]; exact hextent
  · rw [hpos]; exact hstore
  · rw [hpos]; exact hstr

theorem fusedNavRule_keeps_closer {tracker : ScopeTracker} {schema : Schema} {b : UInt8}
    (hb : b ∈ closers) : (tracker.fusedNavRule schema).all (·.keep [b]) = true := by
  have hfused : ∀ t, keepsFused t [b] = true := by
    intro t
    unfold keepsFused
    rw [(closer_table b hb).2.2.2.2]
  unfold ScopeTracker.fusedNavRule
  cases tracker.fusedNavPosition schema with
  | none => rfl
  | some pos =>
    cases pos with
    | Member cls => exact hfused _
    | RelationColumn => exact hfused _
    | _ => rfl

/-- Behind a whole term, the rules of the schema keep every closer that the
grammar admits: the mask without the schema is the mask of the grammar. -/
theorem a_closer_survives_a_whole_term (v : Vocab) (schema : Schema) (ops : List Op)
    {pda : Pda} (hpda : (overFixed v (some schema) ops).cursor = .Fixed pda)
    (hpos : CompletedTerm ((overFixed v (some schema) ops).tracker.position pda.state))
    {id : Nat} {b : UInt8} (hid : v.bytes id = some [b]) (hb : b ∈ closers)
    (hgrammar : { overFixed v (some schema) ops with schema := none }.allowedMask.mask.test id =
      true) :
    (overFixed v (some schema) ops).allowedMask.mask.test id = true := by
  have hbound := overFixed_bound v schema ops
  have hid' : (overFixed v (some schema) ops).grammar.vocab.bytes id = some [b] := by
    rw [(overFixed_same v (some schema) ops).2.1, hid]
  have hexact : (overFixed v (some schema) ops).cursor.Exact [b] := by
    rw [hpda]; exact fixed_exact pda [b]
  rw [allowedMask_of_no_schema rfl] at hgrammar
  have hadmits : Pda.admits pda [b] = true := by
    have h := test_grammarMask hbound.sound hid' hexact
    rw [hpda] at h
    exact h.symm.trans hgrammar
  have hsigil : ((overFixed v (some schema) ops).tracker.sigilRule pda.state).all
      (·.keep [b]) = true := by
    unfold ScopeTracker.sigilRule
    split
    · exact (closer_table b hb).2.2.2.1
    · rfl
  rw [test_allowedMask hbound hpda hid', hadmits, ScopeTracker.keeps, rule_keeps_closer hpos hb,
    hsigil, fusedNavRule_keeps_closer hb]
  rfl

/-- A block around a whole source and the brace that closes it. -/
def blockVocab : Vocab := ⟨[lit "\x7b|A.all()", lit "\x7d"], by decide⟩

/-- The brace behind the source in its block survives. -/
theorem a_brace_survives_a_source :
    (overFixed blockVocab (some oneClass) [.acceptToken 0]).allowedMask.mask.test 1 = true := by
  have hpda : (overFixed blockVocab (some oneClass) [.acceptToken 0]).cursor =
      .Fixed ⟨.AfterValue, [.Brace]⟩ := by decide +kernel
  have hpos : (overFixed blockVocab (some oneClass) [.acceptToken 0]).tracker.position
      .AfterValue = .SourceExtent false := by decide +kernel
  exact a_closer_survives_a_whole_term blockVocab oneClass [.acceptToken 0] hpda (.inl hpos)
    rfl (by decide) (by decide +kernel)

end purecard.session.DecoderSession
