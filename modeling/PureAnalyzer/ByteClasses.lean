-- The automaton reads a byte only through a few questions: is it a space,
-- a digit, a letter, or one of the bytes that the grammar spells. So one
-- byte of each class stands for all of them, and a fact about a single
-- step is a check over the states, the frames and these bytes.
import PureAnalyzer.Pda

namespace purecard.pda

open pushdown

/-- The bytes that some transition spells. -/
def SPELLED : List UInt8 :=
  QUOTE :: ['a', 'e', 'l', 's', 't', 'E', 'T', '|', '{', '}', '[', ']', '(', ')', '.', '-', '>',
    '<', '=', '!', '&', '+', '*', '/', ',', ';', ':', '%', '$', '~'].map Char.toUInt8

/-- One byte of each class. -/
def KEY_BYTES : List UInt8 := 0 :: lit " 0x" ++ SPELLED

/-- The byte that stands for the class of `b`. -/
def keyByte (b : UInt8) : UInt8 :=
  if b ∈ SPELLED then b
  else if isWs b then ' '
  else if isAsciiDigit b then '0'
  else if isIdentStart b then 'x'
  else 0

theorem keyByte_mem (b : UInt8) : keyByte b ∈ KEY_BYTES := by
  unfold keyByte
  split_ifs with h
  · exact List.mem_append_right _ h
  all_goals decide

/-- A check of one state, made at the bytes of every class and under every top. -/
def everyKey (check : Option Frame → UInt8 → Bool) : Bool :=
  (none :: ALL_FRAMES.map some).all fun top => KEY_BYTES.all (check top)

theorem of_everyKey {check : Option Frame → UInt8 → Bool} (h : everyKey check = true)
    (top : Option Frame) {b : UInt8} (hb : b ∈ KEY_BYTES) : check top b = true := by
  have htop : top ∈ none :: ALL_FRAMES.map some := by
    cases top with
    | none => exact List.mem_cons_self
    | some f => exact List.mem_cons_of_mem _ (List.mem_map_of_mem f.mem_all)
  unfold everyKey at h
  exact List.all_eq_true.mp (List.all_eq_true.mp h top htop) b hb

theorem not_digit_of_identStart {b : UInt8} (h : isIdentStart b = true) :
    isAsciiDigit b = false := by
  simp only [isIdentStart, isAsciiAlphabetic, isAsciiDigit, Bool.or_eq_true, Bool.and_eq_true,
    decide_eq_true_eq, Bool.and_eq_false_iff, decide_eq_false_iff_not, UInt8.le_iff_toNat_le,
    ← UInt8.toNat_inj] at h ⊢
  simp only [Char.toUInt8] at h ⊢
  simp at h ⊢
  omega

theorem identTail_iff (b : UInt8) :
    isIdentTail b = (isIdentStart b || isAsciiDigit b) := by
  unfold isIdentTail isIdentStart
  cases isAsciiAlphabetic b <;> cases isAsciiDigit b <;> simp

theorem not_class_of_ws {b : UInt8} (h : isWs b = true) :
    isAsciiDigit b = false ∧ isIdentStart b = false := by
  simp only [isWs, Bool.or_eq_true, decide_eq_true_eq] at h
  rcases h with ((rfl | rfl) | rfl) | rfl <;> decide

/-! ## What a class keeps -/

theorem keyByte_eq_iff {b c : UInt8} (hc : c ∈ SPELLED) : keyByte b = c ↔ b = c := by
  unfold keyByte
  split_ifs with h
  · rfl
  all_goals
    refine ⟨fun hbc => absurd (hbc ▸ hc) (by decide), fun hbc => absurd (hbc ▸ hc) h⟩

theorem isWs_keyByte (b : UInt8) : isWs (keyByte b) = isWs b := by
  unfold keyByte
  split_ifs with h hws hd hi
  · rfl
  · rw [hws]; decide
  all_goals simp only [Bool.not_eq_true] at hws; rw [hws]; decide

theorem isAsciiDigit_keyByte (b : UInt8) : isAsciiDigit (keyByte b) = isAsciiDigit b := by
  unfold keyByte
  split_ifs with h hws hd hi
  · rfl
  · rw [(not_class_of_ws hws).1]; decide
  · rw [hd]; decide
  all_goals simp only [Bool.not_eq_true] at hd; rw [hd]; decide

theorem isIdentStart_keyByte (b : UInt8) : isIdentStart (keyByte b) = isIdentStart b := by
  unfold keyByte
  split_ifs with h hws hd hi
  · rfl
  · rw [(not_class_of_ws hws).2]; decide
  · cases hs : isIdentStart b with
    | false => decide
    | true => rw [not_digit_of_identStart hs] at hd; cases hd
  · rw [hi]; decide
  · simp only [Bool.not_eq_true] at hi; rw [hi]; decide

theorem isIdentTail_keyByte (b : UInt8) : isIdentTail (keyByte b) = isIdentTail b := by
  rw [identTail_iff, identTail_iff, isIdentStart_keyByte, isAsciiDigit_keyByte]

/-! ## A step sees the class and no more -/

/-- `keyByte_eq_iff` at every spelled byte. -/
theorem keyByte_spelled (b : UInt8) : SPELLED.Forall fun c => (keyByte b = c ↔ b = c) :=
  List.forall_iff_forall_mem.mpr fun _ hc => keyByte_eq_iff hc

theorem closeTo_keyByte (top : Option Frame) (b : UInt8) (resume : State) :
    closeTo top (keyByte b) resume = closeTo top b resume := by
  have h := keyByte_spelled b
  simp only [SPELLED, List.map_cons, List.map_nil, List.Forall] at h
  unfold closeTo
  simp only [h]

theorem valuePosition_keyByte (top : Option Frame) (b : UInt8) (k : Bool) :
    valuePosition top (keyByte b) k = valuePosition top b k := by
  have h := keyByte_spelled b
  simp only [SPELLED, List.map_cons, List.map_nil, List.Forall] at h
  unfold valuePosition close
  simp only [h, isWs_keyByte, isIdentStart_keyByte, isAsciiDigit_keyByte, closeTo_keyByte]

theorem stepAfterValue_keyByte (top : Option Frame) (b : UInt8) :
    stepAfterValue top (keyByte b) = stepAfterValue top b := by
  have h := keyByte_spelled b
  simp only [SPELLED, List.map_cons, List.map_nil, List.Forall] at h
  unfold stepAfterValue close
  simp only [h, isWs_keyByte, closeTo_keyByte]

theorem sourceIdent_keyByte (b : UInt8) (k : Bool) :
    sourceIdent (keyByte b) k = sourceIdent b k := by
  have h := keyByte_spelled b
  simp only [SPELLED, List.map_cons, List.map_nil, List.Forall] at h
  unfold sourceIdent
  simp only [h, isIdentTail_keyByte]

/-- The automaton does not tell two bytes of one class apart. -/
theorem step_keyByte (s : State) (top : Option Frame) (b : UInt8) :
    step s top (keyByte b) = step s top b := by
  have h := keyByte_spelled b
  simp only [SPELLED, List.map_cons, List.map_nil, List.Forall] at h
  cases s <;>
    simp only [step, relColSpecPosition, stepExpectRelColSpec, stepExpectRelColSpecReq, blockStmt,
    stepStart, stepExpectSource, stepAfterBraceOpen, stepBlockStmt, stepBlockStmtClose,
    stepExpectValue, stepExpectValueReq, stepAfterName, stepInIdent, stepAfterMemberName,
    stepInMemberIdent, stepAfterArrowName, stepInArrowIdent, stepAfterStrLit,
    stepAfterRelColName, stepInRelColIdent, stepInRelColStrLit, stepAfterRelColColon,
    stepAfterRelColLambdaBinder, stepInRelColLambdaBinder, stepAfterValueColon,
    stepAfterRelAggReduceBinder, stepInRelAggReduceBinder, stepInSourceIdent,
    stepInBinderValueIdent, stepSourceColon, stepSourceColon2, stepSourceDash, stepLetL,
    stepLetLe, stepLetLet, stepExpectBinder, stepInBinder, stepAfterBinder,
    stepExpectBinderValue, stepExpectBinderCallClose, stepInMultiplicity, stepExpectBraceBinder,
    stepSawNumSign, stepInNumberInt, stepNeedFracDigit, stepInNumberFrac, stepSawExp,
    stepNeedExpDigit, stepInExp, stepInStrLit, stepSawPercent, milestoneLink, stepInDateLit,
    dateField, stepDateSep, stepDateTimeSep, stepInDateTime, stepDateFrac, stepInDateFrac,
    stepInMilestoneLit, stepAfterDollar, stepAfterDot, stepAfterArrow, stepAfterColon,
    stepAfterColonWs, stepAfterColon2, stepInBinderType, stepAfterBinderType,
    stepBinderTypeColon, stepBinderTypeColon2, stepInBinderTypePath, stepAfterBinderTypePath,
    stepExpectBinderMult, stepInBinderMult, stepAfterBinderMultToken, stepAfterBinderMult,
    stepExpectLambdaBody, stepSawDash, stepSawPipe, stepSawValuePipe, stepSawEq, stepSawBang,
    stepSawGt, stepSawLt, stepSawAmp, stepSawTilde, close, h,
      isWs_keyByte, isIdentStart_keyByte, isIdentTail_keyByte, isAsciiDigit_keyByte,
      closeTo_keyByte, valuePosition_keyByte, stepAfterValue_keyByte, sourceIdent_keyByte]

end purecard.pda
