-- How the cuts between tokens change what the scope machine reads. A token
-- is read as its lexemes with the punctuation between them, and all the
-- punctuation of one gap is read under the state where the gap opens. A cut
-- is harmless when every piece still reads the same.
import PureAnalyzer.Lexemes

namespace purecard.scope.ScopeTracker

open pushdown pda model

/-! ## The pieces of a gap -/

/-- The pieces of the bytes between two lexemes. -/
def units (gap : List UInt8) : List (List UInt8) := gapUnits gap.length gap

theorem gapUnits_fuel {gap : List UInt8} {n m : Nat} (hn : gap.length ≤ n) (hm : gap.length ≤ m) :
    gapUnits n gap = gapUnits m gap := by
  induction n generalizing gap m with
  | zero =>
    obtain rfl : gap = [] := List.length_eq_zero_iff.mp (Nat.le_zero.mp hn)
    cases m <;> rfl
  | succ n ih =>
    cases m with
    | zero =>
      obtain rfl : gap = [] := List.length_eq_zero_iff.mp (Nat.le_zero.mp hm)
      rfl
    | succ m =>
      cases gap with
      | nil => rfl
      | cons b tail =>
        simp only [List.length_cons, Nat.add_le_add_iff_right] at hn hm
        have hdrop : (tail.drop 1).length ≤ tail.length := by simp
        have hwhile : (tail.dropWhile isIdentTail).length ≤ tail.length :=
          (List.dropWhile_suffix _).length_le
        unfold gapUnits
        rw [ih hn hm, ih (Nat.le_trans hdrop hn) (Nat.le_trans hdrop hm),
          ih (Nat.le_trans hwhile hn) (Nat.le_trans hwhile hm)]

theorem units_nil : units [] = [] := rfl

theorem units_ws {b : UInt8} {tail : List UInt8} (h : isAsciiWhitespace b = true) :
    units (b :: tail) = units tail := by
  show gapUnits (tail.length + 1) (b :: tail) = _
  unfold gapUnits
  rw [if_pos h]
  rfl

theorem units_pair {b c : UInt8} {tail : List UInt8} (hws : isAsciiWhitespace b = false)
    (hpair : isTwoByteOp b c = true) : units (b :: c :: tail) = [b, c] :: units tail := by
  show gapUnits (tail.length + 1 + 1) (b :: c :: tail) = _
  unfold gapUnits
  rw [if_neg (by simp [hws]), if_pos (by simpa using hpair)]
  simp only [List.take_succ_cons, List.take_zero, List.drop_succ_cons, List.drop_zero]
  rw [gapUnits_fuel (Nat.le_succ _) (Nat.le_refl _)]
  rfl

theorem units_single {b : UInt8} {tail : List UInt8} (hws : isAsciiWhitespace b = false)
    (hpair : tail.head?.any (isTwoByteOp b) = false) (hident : isIdentStart b = false) :
    units (b :: tail) = [b] :: units tail := by
  show gapUnits (tail.length + 1) (b :: tail) = _
  unfold gapUnits
  rw [if_neg (by simp [hws]), if_neg (by simp [hpair]), if_neg (by simp [hident])]
  rfl

/-- A byte that does not pair with the next one is a piece of its own. -/
theorem units_cons {b : UInt8} {tail : List UInt8}
    (hpair : tail.head?.any (isTwoByteOp b) = false) (hident : isIdentStart b = false) :
    units (b :: tail) = units [b] ++ units tail := by
  cases hws : isAsciiWhitespace b with
  | true => rw [units_ws hws, units_ws hws]; rfl
  | false => rw [units_single hws hpair hident, units_single hws rfl hident]; rfl

/-! ## A piece under two states -/

/-- The two bytes must not be cut apart. The two comparisons that take a `=`
read the same when they are cut. -/
def joins (state : State) (byte : UInt8) : Bool :=
  completes state byte && state ≠ .SawLt && state ≠ .SawGt

/-- Whether a state is one where a pipe opens the stream and no lambda. -/
def opensStream (state : State) : Bool := state = .Start || state = .ExpectSource

/-- A piece is the same lexeme under both states, and what its reader asks of
the state has the same answer. -/
def sameSense (piece : List UInt8) (a b : State) : Bool :=
  classifyAt piece a = classifyAt piece b &&
    isLogicalOperator piece a = isLogicalOperator piece b &&
    match classifyAt piece a with
    | .Pipe => opensStream a = opensStream b
    | .Open => decide (a = .SawTilde) = decide (b = .SawTilde)
    | .Ident _ => a = b
    | _ => true

theorem dispatchToken_of_sense {piece : List UInt8} {a b : State} (h : sameSense piece a b = true)
    (t : ScopeTracker) (schema : Schema) :
    t.dispatchToken piece a schema = t.dispatchToken piece b schema := by
  simp only [sameSense, Bool.and_eq_true, decide_eq_true_eq] at h
  obtain ⟨⟨hlex, hlogical⟩, hstate⟩ := h
  unfold dispatchToken
  rw [← hlex, ← hlogical]
  cases hc : classifyAt piece a with
  | Pipe =>
    rw [hc] at hstate
    have hopens : opensStream a = opensStream b := by simpa using hstate
    have hpipe : t.onPipe a = t.onPipe b := by
      unfold onPipe
      unfold opensStream at hopens
      rw [hopens]
    simp only [onLexeme, hpipe]
  | Open =>
    rw [hc] at hstate
    have htilde : decide (a = .SawTilde) = decide (b = .SawTilde) := by simpa using hstate
    have hopen : ∀ opener, t.onOpen a opener schema = t.onOpen b opener schema := by
      intro opener
      unfold onOpen
      dsimp only
      rw [htilde]
    simp only [onLexeme, hopen]
  | Ident text =>
    rw [hc] at hstate
    have hab : a = b := by simpa using hstate
    rw [hab]
  | _ => rfl

/-- An operator of two bytes reads the same under every state. -/
theorem sameSense_pair {b c : UInt8} (h : isTwoByteOp b c = true) (x y : State) :
    sameSense [b, c] x y = true := by
  have hclass : ∀ s, classifyAt [b, c] s = classify [b, c] := by
    intro s
    unfold classifyAt
    cases pendingOperatorByte s <;> rfl
  have hlogical : ∀ s, isLogicalOperator [b, c] s = LOGICAL_OPERATORS.contains [b, c] := by
    intro s
    unfold isLogicalOperator
    cases pendingOperatorByte s <;> simp
  unfold sameSense
  rw [hclass, hclass, hlogical, hlogical]
  have hmem : [b, c] ∈ TWO_BYTE_OPS := by simpa [isTwoByteOp] using h
  have hall : ∀ op ∈ TWO_BYTE_OPS, classify op = .Arrow ∨ classify op = .Cmp ∨
      classify op = .Other := by decide
  rcases hall _ hmem with h | h | h <;> simp [h]

/-- A comparison that is read twice is read once. -/
theorem dispatchToken_cmp_twice {u v w : List UInt8} {a b c : State}
    (hu : classifyAt u a = .Cmp) (hv : classifyAt v b = .Cmp) (hw : classifyAt w c = .Cmp)
    (hul : isLogicalOperator u a = false) (hvl : isLogicalOperator v b = false)
    (hwl : isLogicalOperator w c = false) (hud : u ≠ STEP_DASH_TOKEN) (hvd : v ≠ STEP_DASH_TOKEN)
    (hwd : w ≠ STEP_DASH_TOKEN) (t : ScopeTracker) (schema : Schema) :
    (t.dispatchToken u a schema).dispatchToken v b schema = t.dispatchToken w c schema := by
  unfold dispatchToken
  simp only [hu, hv, hw, hul, hvl, hwl, hud, hvd, hwd, decide_false]
  cases hnav : t.last_nav with
  | none => simp [onLexeme, settle, hnav]
  | some nav => cases nav <;> simp [onLexeme, settle, hnav]

end purecard.scope.ScopeTracker
