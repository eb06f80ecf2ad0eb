-- A session next to the tokens it has read. After every run of calls, the
-- automaton and the tracker are those of the tokens read since the last
-- reset, one after the other.
import PureAnalyzer.Reading
import PureAnalyzer.SessionLaws

namespace purecard.session.DecoderSession

open pushdown pda vocab compiled model scope

/-! ## The tokens of a run -/

/-- The tokens that the stream has after one more call. -/
def reads (s : DecoderSession) (done : List (List UInt8)) : Op → List (List UInt8)
  | .acceptToken id =>
    if (s.acceptToken id).isOk then done ++ (s.grammar.vocab.bytes id).toList else done
  | .allowedMask => done
  | .reset => []

/-- The tokens that a run has read since its last reset. -/
def tokens (s : DecoderSession) (done : List (List UInt8)) : List Op → List (List UInt8)
  | [] => done
  | op :: ops => tokens (s.call op) (s.reads done op) ops

/-- A session that has read the tokens: they took the automaton where it
is, and the tracker observed each of them. -/
structure Spells (schema : Schema) (s : DecoderSession) (done : List (List UInt8)) : Prop where
  bound : Bound schema s
  cursor : ∃ pda, s.cursor = .Fixed pda ∧ Config.run step Pda.new done.flatten = some pda
  tracker : s.tracker = ScopeTracker.observeAll schema ScopeTracker.new Pda.new done

variable {schema : Schema} {s : DecoderSession} {done : List (List UInt8)}

theorem advanced_tracker (h : Bound schema s) {pda : Pda} (hpda : s.cursor = .Fixed pda)
    (bytes : List UInt8) (next : Cursor) :
    (s.advanced bytes next).tracker = s.tracker.observe bytes pda schema := by
  unfold advanced
  rw [h.schema_eq, hpda]
  exact (refreshL2Eos_frame _).2.2.2.2.2.1

theorem advanced_spells (h : Spells schema s done) {bytes : List UInt8} {next : Cursor}
    (hnext : s.cursor.tryAcceptToken bytes = some next) :
    Spells schema (s.advanced bytes next) (done ++ [bytes]) := by
  obtain ⟨pda, hpda, hrun⟩ := h.cursor
  have hbound := advanced_bound h.bound hnext
  have htracker := advanced_tracker h.bound hpda bytes next
  have hcursor := (s.advanced_frame bytes next).1
  rw [hpda, Cursor.tryAcceptToken, Option.map_eq_some_iff] at hnext
  obtain ⟨d, hd, rfl⟩ := hnext
  refine ⟨hbound, ⟨d, hcursor, ?_⟩, ?_⟩
  · rw [List.flatten_append, run_append_of hrun]
    simpa using hd
  · rw [htracker, h.tracker, ScopeTracker.observeAll_snoc hrun hd]

theorem call_spells (h : Spells schema s done) (op : Op) :
    Spells schema (s.call op) (s.reads done op) := by
  cases op with
  | allowedMask =>
    have hsame := s.allowedMask_same
    exact ⟨allowedMask_bound h.bound, by rw [call, hsame.cursor]; exact h.cursor,
      hsame.tracker.trans h.tracker⟩
  | reset =>
    refine ⟨calls_bound h.bound [.reset], ⟨Pda.new, ?_, rfl⟩, rfl⟩
    obtain ⟨pda, hpda, -⟩ := h.cursor
    show s.cursor.reset = .Fixed Pda.new
    rw [hpda]
    rfl
  | acceptToken id =>
    cases hacc : s.acceptToken id with
    | error e =>
      simp only [call, reads, hacc]
      exact h
    | ok t =>
      simp only [call, reads, hacc]
      rw [if_pos (by rfl)]
      obtain ⟨hid, -, rfl⟩ | ⟨bytes, next, hbytes, hnext, rfl⟩ := acceptToken_cases hacc
      · have hnone : t.grammar.vocab.bytes id = none := by
          rw [← Option.not_isSome_iff_eq_none, t.grammar.vocab.bytes_eq_some_iff, hid, eosBit_eq]
          omega
        rw [hnone]
        simpa using h
      · rw [hbytes]
        exact advanced_spells h hnext

theorem calls_spells (h : Spells schema s done) (ops : List Op) :
    Spells schema (s.calls ops) (s.tokens done ops) := by
  induction ops generalizing s done with
  | nil => exact h
  | cons op ops ih => exact ih (call_spells h op)

/-- The tokens that a run over the fixed grammar has read since its last reset. -/
def tokensRead (v : Vocab) (schema : Schema) (ops : List Op) : List (List UInt8) :=
  (build (CompiledGrammar.compile v) (some schema)).tokens [] ops

theorem overFixed_spells (v : Vocab) (schema : Schema) (ops : List Op) :
    Spells schema (overFixed v (some schema) ops) (tokensRead v schema ops) :=
  calls_spells ⟨build_bound v schema, ⟨Pda.new, rfl, rfl⟩, rfl⟩ ops

end purecard.session.DecoderSession
