-- The lexemes and the operators of the automaton. One byte opens a lexeme,
-- goes on with it, leaves it for the gap behind it, or stays in a gap, and an
-- operator of two bytes has a state between them.
import PureAnalyzer.ByteClasses
import PureAnalyzer.ScopeLaws

namespace purecard.scope.ScopeTracker

open pushdown pda model

/-! ## The lexemes of the automaton -/

/-- The byte that a state was entered by, while an operator may go on. -/
def operatorByte : State → Option UInt8
  | .SawDash | .SourceDash => some '-'
  | .SawEq => some '='
  | .SawBang => some '!'
  | .SawAmp => some '&'
  | .SawPipe | .SawValuePipe => some '|'
  | .SawLt => some '<'
  | .SawGt => some '>'
  | _ => none

/-- The byte is the second one of the operator that a state opened. -/
def completes (state : State) (byte : UInt8) : Bool :=
  (operatorByte state).any (isTwoByteOp · byte)

/-- Where a value may open. -/
def VALUE_OPENERS : List State :=
  [.ExpectValue, .ExpectValueReq, .ExpectLambdaBody, .SawDash, .SawPipe, .SawGt, .SawLt]

/-- The states before the first byte of the lexeme that a state is in. -/
def anchors : State → List State
  | .InIdent => VALUE_OPENERS ++ [.ExpectBraceBinder, .AfterColon2]
  | .InMemberIdent => [.AfterDollar, .AfterDot]
  | .InSourceIdent | .SourceColon | .SourceColon2 =>
    [.ExpectSource, .BlockStmt, .BlockStmtClose, .ExpectBinderValue]
  | .LetL | .LetLe | .LetLet => [.BlockStmt, .BlockStmtClose]
  | .InBinderValueIdent => [.ExpectBinderValue]
  | .InBinder => [.ExpectBinder]
  | .InBinderType => [.AfterColon, .AfterColonWs]
  | .BinderTypeColon | .BinderTypeColon2 | .InBinderTypePath =>
    [.AfterColon, .AfterColonWs, .AfterBinderType, .AfterBinderTypePath]
  | .InRelColIdent | .InRelColStrLit _ => [.ExpectRelColSpec, .ExpectRelColSpecReq, .SawTilde]
  | .InRelColLambdaBinder => [.AfterRelColColon]
  | .InArrowIdent => [.AfterArrow]
  | .InRelAggReduceBinder => [.AfterValueColon]
  | .SawNumSign | .InNumberInt | .NeedFracDigit | .InNumberFrac | .SawExp | .NeedExpDigit
  | .InExp => VALUE_OPENERS
  | .SawPercent | .InDateLit | .DateSep | .InDateTime | .DateTimeSep | .DateFrac | .InDateFrac
  | .MilestoneL | .MilestoneLa | .MilestoneLat | .MilestoneLate | .MilestoneLates
  | .InMilestoneLit => VALUE_OPENERS ++ [.ExpectBinderValue]
  | .InStrLit _ => VALUE_OPENERS ++ [.AfterDot]
  | _ => []

/-- A byte that opens a lexeme, or goes on with it, keeps to its anchors. -/
def anchored (s n : State) : Bool :=
  if n.lexemeKind.isNone then true
  else if s.lexemeKind.isNone then decide (s ∈ anchors n)
  else (anchors s).all (· ∈ anchors n)

/-- Five facts about a byte that leads from one state to another: a lexeme
is left only for a gap, a byte of a gap opens no name, an operator that may
go on was opened by its own first byte, its second byte ends it, and a
lexeme has the anchors of its states. -/
def tidy (s : State) (b : UInt8) (n : State) : Bool :=
  (n.lexemeKind.isNone || s.lexemeKind.isNone || n.lexemeKind = s.lexemeKind) &&
    (n.lexemeKind.isSome || !isIdentStart b) && (operatorByte n).all (b = ·) &&
    (!completes s b || n = .AfterArrow || n = .ExpectValueReq) && anchored s n

theorem tidy_rows (s : State) :
    everyKey (fun top b => (step s top b).target.all (tidy s b)) = true := by
  cases s <;> decide +kernel +revert

theorem twoByteOp_spelled : ∀ op ∈ TWO_BYTE_OPS, ∀ c ∈ op, c ∈ SPELLED := by
  decide +kernel

theorem operatorByte_spelled : ∀ s : State, (operatorByte s).all (· ∈ SPELLED) = true := by
  decide

theorem isTwoByteOp_keyByte (a b : UInt8) : isTwoByteOp a (keyByte b) = isTwoByteOp a b := by
  rw [Bool.eq_iff_iff]
  simp only [isTwoByteOp, List.contains_iff_mem]
  constructor
  · intro h
    have hb : keyByte b = b := by
      have hspelled := twoByteOp_spelled _ h (keyByte b) (by simp)
      exact ((keyByte_eq_iff hspelled).mp rfl).symm
    rwa [hb] at h
  · intro h
    have hb : keyByte b = b := (keyByte_eq_iff (twoByteOp_spelled _ h b (by simp))).mpr rfl
    rwa [hb]

theorem tidy_keyByte (s : State) (b : UInt8) (n : State) : tidy s (keyByte b) n = tidy s b n := by
  have hopened : (operatorByte n).all (keyByte b = ·) = (operatorByte n).all (b = ·) := by
    have hspelled := operatorByte_spelled n
    cases ho : operatorByte n with
    | none => rfl
    | some x =>
      rw [ho] at hspelled
      simp only [Option.all_some, keyByte_eq_iff (of_decide_eq_true hspelled)]
  unfold tidy completes
  rw [isIdentStart_keyByte, hopened]
  simp only [isTwoByteOp_keyByte]

theorem tidy_advance {p q : Pda} {b : UInt8} (h : Config.advance step p b = some q) :
    tidy p.state b q.state = true := by
  have htable := of_everyKey (tidy_rows p.state) p.stack.head? (keyByte_mem b)
  rw [step_keyByte, advance_target h, Option.all_some, tidy_keyByte] at htable
  exact htable

/-- A lexeme is left only for a gap. -/
theorem kind_advance {p q : Pda} {b : UInt8} {kind : LexKind}
    (h : Config.advance step p b = some q) (hp : p.state.lexemeKind = some kind) :
    q.state.lexemeKind = none ∨ q.state.lexemeKind = some kind := by
  have htidy := tidy_advance h
  simp only [tidy, Bool.and_eq_true, Bool.or_eq_true, decide_eq_true_eq] at htidy
  rcases htidy.1.1.1.1 with (hnone | hnone) | hsame
  · exact .inl (Option.isNone_iff_eq_none.mp hnone)
  · simp [hp] at hnone
  · exact .inr (hsame.trans hp)

/-- A byte of a gap opens no name. -/
theorem gap_byte {p q : Pda} {b : UInt8} (h : Config.advance step p b = some q)
    (hq : q.state.lexemeKind = none) : isIdentStart b = false := by
  have htidy := tidy_advance h
  simp only [tidy, Bool.and_eq_true, Bool.or_eq_true] at htidy
  rcases htidy.1.1.1.2 with hsome | hident
  · simp [hq] at hsome
  · simpa using hident

theorem operatorByte_gap : ∀ s : State, (operatorByte s).isSome = true → s.lexemeKind = none := by
  decide

/-- The first byte of an operator that goes on is the byte that opened it. -/
theorem completes_pair {p q : Pda} {b c : UInt8} (h : Config.advance step p b = some q)
    (hc : completes q.state c = true) :
    isTwoByteOp b c = true ∧ operatorByte q.state = some b ∧ q.state.lexemeKind = none := by
  have htidy := tidy_advance h
  simp only [tidy, Bool.and_eq_true] at htidy
  have hopened := htidy.1.1.2
  unfold completes at hc
  cases ho : operatorByte q.state with
  | none => rw [ho] at hc; cases hc
  | some x =>
    rw [ho] at hc hopened
    obtain rfl : b = x := of_decide_eq_true hopened
    exact ⟨hc, rfl, operatorByte_gap q.state (by rw [ho]; rfl)⟩

/-- The second byte of an operator ends it, in a gap. -/
theorem completes_advance {p q : Pda} {b : UInt8} (h : Config.advance step p b = some q)
    (hb : completes p.state b = true) : q.state.lexemeKind = none ∧ operatorByte q.state = none := by
  have htidy := tidy_advance h
  simp only [tidy, hb, Bool.not_true, Bool.false_or, Bool.and_eq_true, Bool.or_eq_true,
    decide_eq_true_eq] at htidy
  rcases htidy.1.2 with hq | hq <;> rw [hq] <;> decide

theorem twoByteOp_not_ws {b c : UInt8} (h : isTwoByteOp b c = true) :
    isAsciiWhitespace b = false := by
  have hall : ∀ op ∈ TWO_BYTE_OPS, op.head?.all (!isAsciiWhitespace ·) = true := by decide
  have hmem : [b, c] ∈ TWO_BYTE_OPS := by simpa [isTwoByteOp] using h
  simpa using hall _ hmem

theorem anchored_advance {p q : Pda} {b : UInt8} (h : Config.advance step p b = some q) :
    anchored p.state q.state = true := by
  have htidy := tidy_advance h
  simp only [tidy, Bool.and_eq_true] at htidy
  exact htidy.2

end purecard.scope.ScopeTracker
