-- The laws of one stream of bytes through the automaton. What lives on an
-- empty stack lives the same under every frame, and every stream that is
-- still alive can be finished.
import PureAnalyzer.ByteClasses

namespace purecard.pda

open pushdown

/-! ## The frame that a state stands on -/

/-- The frames that a state can have on top. A multiplicity is inside its
bracket, a call with no argument inside its parenthesis, a column list inside
its own bracket, and an optional term inside the opener it came after. -/
def stands : State → Option Frame → Bool
  | .InMultiplicity, top | .ExpectBinderMult, top | .InBinderMult, top
  | .AfterBinderMultToken, top => top = some .Bracket
  | .ExpectBinderCallClose, top => top = some .Paren
  | .ExpectRelColSpec, top => top = some .RelColBracket
  | .ExpectValue, top => top = some .Paren || top = some .Group || top = some .Bracket
  | _, _ => true

/-- A move leaves its target under a frame that the target can have on top. -/
def lands (top : Option Frame) : Step → Bool
  | .Next t => stands t top
  | .Push f t => stands t (some f)
  | .Pop t => decide (∀ below, stands t below = true)
  | .Dead => true

def pops : Step → Bool
  | .Pop _ => true
  | _ => false

/-- What lives with no frame open goes on the same under every frame, pops
nothing, and every move lands. -/
theorem step_rows (s : State) :
    everyKey (fun top b => (step s none b = .Dead || step s top b = step s none b) &&
      !pops (step s none b) && (!stands s top || lands top (step s top b))) = true := by
  cases s <;> decide +kernel +revert

/-! ## One step under a frame -/

/-- A byte that lives with no frame open does the same under every frame. -/
theorem step_monotone : Monotone step := by
  intro s f b h
  rw [← step_keyByte] at h
  rw [← step_keyByte, ← step_keyByte s none]
  have hrow := of_everyKey (step_rows s) (some f) (keyByte_mem b)
  simp only [Bool.and_eq_true, Bool.or_eq_true, decide_eq_true_eq] at hrow
  exact hrow.1.1.resolve_left h

/-- A closer pops only a frame that is there. -/
theorem step_popsGuarded : PopsGuarded step := by
  intro s b t h
  have hrow := of_everyKey (step_rows s) none (keyByte_mem b)
  rw [step_keyByte, h] at hrow
  simp [pops] at hrow

theorem stands_advance (p : Pda) (b : UInt8) (q : Pda) (hp : stands p.state p.stack.head? = true)
    (h : Config.advance step p b = some q) : stands q.state q.stack.head? = true := by
  have hland := (Bool.and_eq_true_iff.mp
    (of_everyKey (step_rows p.state) p.stack.head? (keyByte_mem b))).2
  rw [hp, Bool.not_true, Bool.false_or, step_keyByte] at hland
  unfold Config.advance at h
  cases hm : step p.state p.stack.head? b with
  | Next t =>
    rw [hm] at h hland
    simp only [Config.apply, Option.some.injEq] at h
    subst h
    exact hland
  | Push f t =>
    rw [hm] at h hland
    simp only [Config.apply, Option.some.injEq] at h
    subst h
    exact hland
  | Pop t =>
    rw [hm] at h hland
    simp only [Config.apply, Option.some.injEq] at h
    subst h
    exact of_decide_eq_true hland _
  | Dead => rw [hm] at h; cases h

/-! ## A word that completes the open term -/

/-- The frame that the word of a state closes. -/
def need : State → Option Frame
  | .InMultiplicity | .ExpectBinderMult | .InBinderMult | .AfterBinderMultToken => some .Bracket
  | .ExpectBinderCallClose => some .Paren
  | .ExpectRelColSpec => some .RelColBracket
  | _ => none

theorem need_of_stands {s : State} {top : Option Frame} (h : stands s top = true) :
    need s = none ∨ need s = top := by
  cases s with
  | InMultiplicity => exact Or.inr (of_decide_eq_true h).symm
  | ExpectBinderMult => exact Or.inr (of_decide_eq_true h).symm
  | InBinderMult => exact Or.inr (of_decide_eq_true h).symm
  | AfterBinderMultToken => exact Or.inr (of_decide_eq_true h).symm
  | ExpectBinderCallClose => exact Or.inr (of_decide_eq_true h).symm
  | ExpectRelColSpec => exact Or.inr (of_decide_eq_true h).symm
  | _ => exact Or.inl rfl

/-- A word that takes a state to a completed term, with the frame the state
stands on closed and every other frame as it was. -/
def finish : State → String
  | .Start | .AfterBraceOpen => "|a.a "
  | .ExpectSource | .BlockStmt | .BlockStmtClose | .SourceColon2 => "a.a "
  | .InSourceIdent | .LetL | .LetLe | .LetLet | .InBinderValueIdent => ".a "
  | .SourceColon => ":a.a "
  | .SourceDash => ">a() "
  | .ExpectBinder => "a=%1 "
  | .InBinder | .AfterBinder => "=%1 "
  | .ExpectBinderValue => "%1 "
  | .ExpectBinderCallClose => ") "
  | .InMultiplicity | .ExpectRelColSpec => "] "
  | .ExpectBraceBinder | .AfterDollar | .AfterDot | .AfterColon2 | .SawTilde
  | .ExpectRelColSpecReq => "a "
  | .AfterColonWs => "a|1 "
  | .AfterColon => ":a "
  | .AfterValueColon | .AfterRelColColon => "a||1 "
  | .InRelColLambdaBinder | .AfterRelColLambdaBinder | .InRelAggReduceBinder
  | .AfterRelAggReduceBinder => "||1 "
  | .ExpectValue | .ExpectValueReq | .ExpectLambdaBody | .SawNumSign | .NeedFracDigit | .SawExp
  | .NeedExpDigit | .SawPercent | .DateSep | .DateTimeSep | .DateFrac | .SawDash | .SawGt
  | .SawLt => "1 "
  | .InStrLit false | .InRelColStrLit false => "' "
  | .MilestoneL => "atest "
  | .MilestoneLa => "test "
  | .MilestoneLat => "est "
  | .MilestoneLate => "st "
  | .MilestoneLates => "t "
  | .AfterArrow => "a() "
  | .InArrowIdent | .AfterArrowName => "() "
  | .InBinderType | .AfterBinderType | .AfterBinderMult => "|1 "
  | .BinderTypeColon => ":a[1]|1 "
  | .BinderTypeColon2 => "a[1]|1 "
  | .InBinderTypePath | .AfterBinderTypePath => "[1]|1 "
  | .ExpectBinderMult => "1]|1 "
  | .InBinderMult | .AfterBinderMultToken => "]|1 "
  | .SawPipe | .SawValuePipe => "|1 "
  | .SawEq | .SawBang => "=1 "
  | .SawAmp => "&1 "
  | _ => " "

theorem finish_table : ∀ s : State,
    ((Config.run step ⟨s, (need s).toList⟩ (lit (finish s))).any fun q =>
      q.stack.isEmpty && q.state.completesATerm) = true := by
  decide +kernel

/-- The byte that closes a frame. -/
def closer : Frame → UInt8
  | .Paren | .Group => ')'
  | .Bracket | .RelColBracket => ']'
  | .Brace | .BraceLambda => '}'

theorem closer_table : ∀ t : State, t.completesATerm = true → ∀ f : Frame,
    step t (some f) (closer f) = .Pop .AfterValue := by
  intro t ht f
  cases t <;> first | (cases f <;> rfl) | cases ht

theorem accepting_table : ∀ t : State, t.completesATerm = true →
    Pda.isAccepting ⟨t, []⟩ = true := by
  intro t ht
  cases t <;> first | rfl | cases ht

/-- From a completed term, the closers of the open frames end the stream. -/
theorem completes_of_term (t : State) (stack : List Frame) (ht : t.completesATerm = true) :
    Completes step (fun q => Pda.isAccepting q = true) ⟨t, stack⟩ := by
  induction stack generalizing t with
  | nil => exact ⟨[], ⟨t, []⟩, rfl, accepting_table t ht⟩
  | cons f stack ih =>
    have hclose : Config.run step ⟨t, f :: stack⟩ [closer f] = some ⟨.AfterValue, stack⟩ := by
      simp [Config.advance, closer_table t ht f, Config.apply]
    exact completes_of_run hclose (ih .AfterValue rfl)

/-- The word of its state takes the automaton to a completed term. -/
theorem finish_runs (p : Pda) (h : stands p.state p.stack.head? = true) :
    ∃ q, Config.run step p (lit (finish p.state)) = some q ∧ q.state.completesATerm = true := by
  have hfin := finish_table p.state
  rw [Option.any_eq_true] at hfin
  obtain ⟨q, hrun, hq⟩ := hfin
  simp only [Bool.and_eq_true, List.isEmpty_iff] at hq
  obtain ⟨rest, hrest⟩ : ∃ rest, p.stack = (need p.state).toList ++ rest := by
    rcases need_of_stands h with h | h
    · exact ⟨p.stack, by simp [h]⟩
    · cases hs : p.stack with
      | nil => exact ⟨[], by simp [h, hs]⟩
      | cons f fs => exact ⟨fs, by simp [h, hs]⟩
  have hp : p = (Config.over ⟨p.state, (need p.state).toList⟩ rest : Pda) := by
    cases p
    simp only [Config.over] at hrest ⊢
    rw [hrest]
  have hover := run_over step_popsGuarded (steady_of_monotone step_monotone rest.head? _ _) hrun
  rw [← hp] at hover
  exact ⟨_, hover, hq.2⟩

theorem completes_of_stands (p : Pda) (h : stands p.state p.stack.head? = true) :
    Completes step (fun q => Pda.isAccepting q = true) p := by
  obtain ⟨q, hrun, hq⟩ := finish_runs p h
  exact completes_of_run hrun (completes_of_term q.state q.stack hq)

/-! ## Every live stream can finish -/

/-- The automaton has read `w` from its start and stands at `p`. -/
def Reads (w : List UInt8) (p : Pda) : Prop := Config.run step Pda.new w = some p

instance (w : List UInt8) (p : Pda) : Decidable (Reads w p) :=
  inferInstanceAs (Decidable (_ = _))

theorem stands_of_reads {w : List UInt8} {p : Pda} (h : Reads w p) :
    stands p.state p.stack.head? = true :=
  run_keeps (P := fun p : Pda => stands p.state p.stack.head? = true) stands_advance rfl h

/-- No stream is stranded: whatever the automaton has read, some further
bytes end it, so it accepts here or takes one more byte. -/
theorem every_live_stream_can_finish (w : List UInt8) (p : Pda) (h : Reads w p) :
    (∃ v q, Reads (w ++ v) q ∧ Pda.isAccepting q = true) ∧
      (Pda.isAccepting p = true ∨ ∃ b q, Pda.advance p b = .ok q) := by
  obtain ⟨v, q, hv, hq⟩ := completes_of_stands p (stands_of_reads h)
  refine ⟨⟨v, q, by rw [Reads, run_append_of h, hv], hq⟩, ?_⟩
  cases v with
  | nil =>
    simp only [run_nil, Option.some.injEq] at hv
    exact Or.inl (hv ▸ hq)
  | cons b v =>
    simp only [run_cons, Option.bind_eq_some_iff] at hv
    obtain ⟨r, hr, -⟩ := hv
    rw [← advance_eq] at hr
    refine Or.inr ⟨b, r, ?_⟩
    cases ha : Pda.advance p b with
    | error e => simp [ha, Except.toOption] at hr
    | ok r' => simpa [ha, Except.toOption] using hr

/-- The stream `|a` is alive and not complete, and `|a.b` completes it. -/
theorem a_bare_source_can_finish :
    Reads (lit "|a") ⟨.InSourceIdent, []⟩ ∧
      ∃ v q, Reads (lit "|a" ++ v) q ∧ Pda.isAccepting q = true :=
  ⟨by decide, (every_live_stream_can_finish (lit "|a") ⟨.InSourceIdent, []⟩ (by decide)).1⟩

end purecard.pda
