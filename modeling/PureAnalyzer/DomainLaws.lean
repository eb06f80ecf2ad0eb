-- The productions of the Domain parser up to types are steps: they end, their
-- error nodes are reported, and what no fact can be read from lies in a coverage
-- gap. No branch against endless loops is taken.
import PureAnalyzer.DomainRules

namespace analyzer.domain

open fragments model cst totality m3 analyzer.domain.Parser

variable {n : Nat} {s : Parser}

/-! ## Tokens -/

theorem rawKind_eq_some {kind : TokenKind} (h : s.rawKind = some kind) :
    s.tokens[s.index]? = some (kind, s.currentSpan) := by
  unfold rawKind at h
  unfold currentSpan
  cases hget : s.tokens[s.index]? with
  | none => simp [hget] at h
  | some token =>
    obtain ⟨kind', range⟩ := token
    obtain rfl : kind' = kind := by simpa [hget] using h
    rfl

theorem atEnd_iff (s : Parser) : s.atEnd = true ↔ s.tokens.length ≤ s.index := by
  simp [atEnd, rawKind]

theorem currentSpan_start (s : Parser) : s.currentSpan.start = offsetAt s.tokens s.index := by
  unfold currentSpan offsetAt spanAt
  cases s.tokens[s.index]? <;> rfl

/-- There is a diagnostic about the token the parser stands at. -/
def Flagged (s : Parser) : Prop := Reported s.diagnostics (offsetAt s.tokens s.index)

theorem Clear.diagnosed (s : Parser) {d : Diagnostic} (h : ¬Stuck d.message) :
    Clear s { s with diagnostics := s.diagnostics ++ [d] } := by
  refine ⟨[], ⟨rfl, rfl, rfl, fun _ hd => List.mem_append_left _ hd, fun d' hd' => ?_,
    fun _ _ h => h, fun h => h, fun _ h => h, (List.append_nil _).symm, .nil _,
    fun i _ hi hi' => absurd hi (Nat.not_le_of_lt hi')⟩, .nil _⟩
  rcases List.mem_append.mp hd' with hd' | hd'
  · exact Or.inl hd'
  · obtain rfl := List.mem_singleton.mp hd'
    exact Or.inr h

theorem Clear.advanced {kind : TokenKind} {range : TextRange}
    (here : s.tokens[s.index]? = some (kind, range))
    (bad : kind = .Error → ReportedBad s.diagnostics range) :
    Clear s { s.with .Advance with index := s.index + 1 } := by
  refine ⟨[.Advance], ⟨rfl, rfl, rfl, fun _ hd => hd, fun _ hd => Or.inl hd, fun _ _ h => h,
    fun h => h, fun _ h => h, rfl, .token here (.nil _), fun i range' hi hi' hget => ?_⟩,
    .token here (.nil _)⟩
  obtain rfl : i = s.index := by
    have : i < s.index + 1 := hi'
    omega
  rw [here] at hget
  obtain ⟨rfl, rfl⟩ : kind = .Error ∧ range = range' := by simpa using hget
  exact bad rfl

theorem pushDiagnostic_goes {message : String} (h : ¬Stuck message) (code : DiagCode)
    (span : TextRange) (s : Parser) : (flow n).Goes s (pushDiagnostic code span message)
      fun _ s' => s'.index = s.index ∧ s'.tokens = s.tokens ∧ Reported s'.diagnostics span.start :=
  ⟨(), _, rfl, Clear.diagnosed s h, rfl, rfl, _,
    List.mem_append_right _ (List.mem_singleton_self _), rfl⟩

/-- An error is reported where the parser stands, and nothing is read. -/
theorem syntaxError_goes {message : String} (h : ¬Stuck message) (s : Parser) :
    (flow n).Goes s (syntaxError message) fun _ s' => s'.index = s.index ∧ Flagged s' := by
  refine Flow.Goes.read (Flow.Goes.mono (pushDiagnostic_goes h _ _ s) fun _ s' _ hs' => ?_)
  obtain ⟨hindex, htokens, hreported⟩ := hs'
  refine ⟨hindex, ?_⟩
  unfold Flagged
  rw [htokens, hindex, ← currentSpan_start]
  exact hreported

theorem syntaxError_safe {message : String} (h : ¬Stuck message) :
    (flow n).Safe (syntaxError message) := fun s _ =>
  Flow.Goes.mono (syntaxError_goes h s) fun _ _ _ _ => trivial

/-- A token is used up, wherever there is one. -/
theorem bump_goes (s : Parser) : (flow n).Goes s bump fun b s' =>
    b = s.rawKind.isSome ∧ s'.index = if s.rawKind.isSome then s.index + 1 else s.index := by
  unfold bump
  refine Flow.Goes.read ?_
  cases hkind : s.rawKind with
  | none => exact Flow.Goes.pure ⟨rfl, rfl⟩
  | some kind =>
    have here := rawKind_eq_some hkind
    refine Flow.Goes.read ?_
    by_cases hbad : kind = .Error
    · -- the diagnostic comes first, so the token finds it
      refine ⟨true, _, by rw [when, if_pos (by simpa using hbad)]; rfl, ?_, rfl, rfl⟩
      have hmessage : ¬Stuck "unrecognized token" := not_stuck (by decide)
      refine (Clear.diagnosed s hmessage).trans (Clear.advanced here fun _ => ?_)
      exact ⟨_, List.mem_append_right _ (List.mem_singleton_self _), rfl, rfl⟩
    · refine ⟨true, _, by rw [when, if_neg (by simpa using hbad)]; rfl, ?_, rfl, rfl⟩
      exact Clear.advanced here fun h => absurd h hbad

/-- Where there is a token, it is read. -/
theorem bump_moves (h : s.rawKind.isSome = true) :
    (flow n).Goes s bump fun b s' => b = true ∧ s.index < s'.index := by
  refine Flow.Goes.mono (bump_goes s) fun b s' _ hs' => ?_
  rw [if_pos h] at hs'
  exact ⟨hs'.1.trans h, by omega⟩

theorem bump_eats : (flow n).Eats bump := by
  intro lo s _ hlo
  refine Flow.Goes.mono (bump_goes s) fun b s' _ hs' hb => ?_
  have hlo' : lo ≤ s.index := hlo
  show lo + 1 ≤ s'.index
  obtain ⟨rfl, hindex⟩ := hs'
  rw [hindex, if_pos hb]
  omega

theorem bump_safe : (flow n).Safe bump := bump_eats.safe

theorem reaches_moved {before : Nat} :
    (flow n).Reaches before (before + 1) (· = true) (moved before) := by
  intro s _ hlo
  refine Flow.Goes.ask fun h => ?_
  have hne : s.index ≠ before := by simpa using h
  have hle : before ≤ s.index := hlo
  show before + 1 ≤ s.index
  omega

theorem moved_safe {before : Nat} : (flow n).Safe (moved before) := Flow.Safe.ask

/-- A token of the kind is read, and any other is left. -/
theorem consumeIfRaw_goes (kind : TokenKind) (s : Parser) :
    (flow n).Goes s (consumeIfRaw kind) fun _ s' =>
      (s.rawAt kind = true → s.index < s'.index) ∧ (s.rawAt kind = false → s' = s) := by
  unfold consumeIfRaw
  refine Flow.Goes.read (Flow.Goes.when (fun h => ?_) fun h => ⟨by simp [h], fun _ => rfl⟩)
  have hsome : s.rawKind.isSome = true := by
    have hraw : s.rawKind = some kind := by simpa [rawAt] using h
    rw [hraw]
    rfl
  refine Flow.Goes.bind (bump_moves hsome) fun _ s' _ hs' => ?_
  exact Flow.Goes.pure ⟨fun _ => hs'.2, by simp [h]⟩

theorem consumeIfRaw_safe (kind : TokenKind) : (flow n).Safe (consumeIfRaw kind) := fun s _ =>
  Flow.Goes.mono (consumeIfRaw_goes kind s) fun _ _ _ _ => trivial

/-! ## Trivia -/

/-- From one state to the next token that is not trivia. -/
structure Settled (s s' : Parser) : Prop where
  tokens : s'.tokens = s.tokens
  source : s'.source = s.source
  significant : s'.significantIndex = s.significantIndex
  raw : s'.rawKind = s'.significantKind

/-- White space and comments are looked through. -/
theorem nextSignificant_trivia {start : Nat} {token : Token}
    (here : s.tokens[start]? = some token) (htrivia : isTrivia token.1 = true) :
    s.nextSignificantIndexFrom (start + 1) = s.nextSignificantIndexFrom start := by
  obtain ⟨hlt, hget⟩ := List.getElem?_eq_some_iff.mp here
  unfold nextSignificantIndexFrom
  rw [List.drop_eq_getElem_cons hlt, List.findIdx?_cons, hget]
  simp only [htrivia, Bool.not_true, Bool.false_eq_true, if_false, Option.map_map]
  congr 1
  funext i
  show start + 1 + i = start + (i + 1)
  omega

theorem nextSignificant_here {start : Nat} {token : Token}
    (here : s.tokens[start]? = some token) (hplain : isTrivia token.1 = false) :
    s.nextSignificantIndexFrom start = some start := by
  obtain ⟨hlt, hget⟩ := List.getElem?_eq_some_iff.mp here
  unfold nextSignificantIndexFrom
  rw [List.drop_eq_getElem_cons hlt, List.findIdx?_cons, hget]
  simp [hplain]

/-- Where no trivia stands, the next token is the one that stands there. -/
theorem raw_significant (h : s.rawKind.any isTrivia = false) : s.rawKind = s.significantKind := by
  unfold significantKind nextSignificantKind
  cases hget : s.tokens[s.index]? with
  | none =>
    have hlen : s.tokens.length ≤ s.index := by simpa using hget
    simp [rawKind, nextSignificantIndexFrom, hget, List.drop_eq_nil_of_le hlen]
  | some token =>
    have hplain : isTrivia token.1 = false := by simpa [rawKind, hget] using h
    rw [nextSignificant_here hget hplain]
    rfl

theorem significantKind_eq (s : Parser) : s.significantKind =
    s.significantIndex.bind fun index => (s.tokens[index]?).map Prod.fst := rfl

/-- White space and comments are read up to the next token that counts. -/
theorem consumeTrivia_goes (hs : Ready n s) :
    (flow n).Goes s consumeTrivia fun _ s' => Settled s s' := by
  refine Flow.Goes.mono (goes_budgetWith (n := n) (i := fun _ s' =>
      s'.tokens = s.tokens ∧ s'.significantIndex = s.significantIndex)
    (q := fun _ s' => s'.tokens = s.tokens ∧ s'.significantIndex = s.significantIndex ∧
      s'.rawKind.any isTrivia = false) hs ⟨rfl, rfl⟩ (fun _ s' hs' hkept => ?_) ?_) ?_
  · refine Flow.Goes.bind (q := fun b s'' =>
      (b = true → s'.index < s''.index ∧ s''.tokens = s.tokens ∧
        s''.significantIndex = s.significantIndex) ∧
      (b = false → s''.tokens = s.tokens ∧ s''.significantIndex = s.significantIndex ∧
        s''.rawKind.any isTrivia = false)) ?_ fun b s'' _ hb => Flow.Goes.pure hb
    refine Flow.Goes.read (Flow.Goes.cond (fun htrivia => ?_) fun hplain => ?_)
    · obtain ⟨kind, hkind, hk⟩ : ∃ kind, s'.rawKind = some kind ∧ isTrivia kind = true := by
        simpa [Option.any_eq_true] using htrivia
      refine Flow.Goes.read (Flow.Goes.bind (bump_goes s') fun _ s'' hstep hindex => ?_)
      obtain ⟨-, hindex⟩ := hindex
      rw [if_pos (by rw [hkind]; rfl)] at hindex
      have htokens : s''.tokens = s'.tokens := hstep.follows.tokens
      refine Flow.Goes.ask ⟨fun _ => ⟨by omega, htokens.trans hkept.1, ?_⟩, fun hstop => ?_⟩
      · have hnext := nextSignificant_trivia (rawKind_eq_some hkind) hk
        refine Eq.trans ?_ hkept.2
        unfold significantIndex
        rw [← hnext, hindex]
        unfold nextSignificantIndexFrom
        rw [htokens]
      · simp at hstop
        omega
    · exact Flow.Goes.pure ⟨fun h => absurd h (by simp), fun _ => ⟨hkept.1, hkept.2,
        by simpa using hplain⟩⟩
  · rintro _ s' _ hkept hend
    refine ⟨hkept.1, hkept.2, ?_⟩
    have hnone : s'.tokens[s'.index]? = none := by simp [hend]
    simp [rawKind, hnone]
  · rintro _ s' hstep ⟨htokens, hsignificant, hplain⟩
    exact ⟨htokens, hstep.follows.source, hsignificant, raw_significant hplain⟩

namespace Settled

variable {s' : Parser}

theorem kind (h : Settled s s') : s'.significantKind = s.significantKind := by
  rw [significantKind_eq, significantKind_eq, h.significant, h.tokens]

theorem rawKind (h : Settled s s') : s'.rawKind = s.significantKind := h.raw.trans h.kind

theorem atKeyword (h : Settled s s') (keyword : String) :
    s'.atKeyword keyword = s.atKeyword keyword := by
  unfold Parser.atKeyword
  rw [h.significant, h.tokens, h.source]

end Settled

theorem consumeTrivia_safe : (flow n).Safe consumeTrivia := fun _ hs =>
  Flow.Goes.mono (consumeTrivia_goes hs) fun _ _ _ _ => trivial

/-- What a production does that begins behind trivia. -/
theorem goes_settled {α : Type} {f : Unit → P α} {q : α → Parser → Prop} (hs : Ready n s)
    (h : ∀ s', Ready n s' → s.index ≤ s'.index → Settled s s' → (flow n).Goes s' (f ()) q) :
    (flow n).Goes s (consumeTrivia >>= f) q :=
  Flow.Goes.bind (consumeTrivia_goes hs) fun _ s' hstep hsettled =>
    h s' (hs.follows hstep.follows) hstep.follows.index hsettled

theorem rawKind_some (h : s.atEnd = false) : s.rawKind.isSome = true := by
  simpa [atEnd, Option.isNone_eq_false_iff] using h

theorem consumeIf_eats (kind : TokenKind) : (flow n).Eats (consumeIf kind) := by
  intro lo
  refine Flow.Reaches.bind consumeTrivia_safe fun _ => Flow.Reaches.before fun i => ?_
  exact Flow.Reaches.bind (consumeIfRaw_safe kind) fun _ => reaches_moved

theorem consumeIf_safe (kind : TokenKind) : (flow n).Safe (consumeIf kind) :=
  (consumeIf_eats kind).safe

/-- A token of some sort is read: what the answer says, where there is one, and
that its absence is reported. -/
def Accepts (s : Parser) (here : Bool) (b : Bool) (s' : Parser) : Prop :=
  (b = true → s.index < s'.index) ∧ (here = true → b = true) ∧ (b = false → Flagged s')

theorem bump_accepts {s₀ : Parser} {here : Bool} (hle : s₀.index ≤ s.index)
    (h : s.rawKind.isSome = true) : (flow n).Goes s bump (Accepts s₀ here) := by
  refine Flow.Goes.mono (bump_moves h) fun b s' _ hs' => ?_
  obtain ⟨rfl, hless⟩ := hs'
  exact ⟨fun _ => by omega, fun _ => rfl, by simp⟩

theorem report_accepts {s₀ : Parser} {here : Bool} (hhere : here = false) {message : String}
    (hmessage : ¬Stuck message) : (flow n).Goes s (do
      syntaxError message
      return false) (Accepts s₀ here) := by
  refine Flow.Goes.bind (syntaxError_goes hmessage s) fun _ s' _ hs' => ?_
  exact Flow.Goes.pure ⟨by simp, by simp [hhere], fun _ => hs'.2⟩

/-- A token of the kind is read, or its absence is reported. -/
theorem expect_goes (hs : Ready n s) (kind : TokenKind) (expected : String) :
    (flow n).Goes s (expect kind expected) (Accepts s (s.significantKind = some kind)) := by
  refine goes_settled hs fun s' _ hle hsettled => ?_
  refine Flow.Goes.read (Flow.Goes.cond (fun hkind => ?_) fun hkind => ?_)
  · exact bump_accepts hle (by rw [hkind]; rfl)
  · refine report_accepts ?_ (expected_not_stuck expected)
    rw [hsettled.rawKind] at hkind
    simpa using hkind

theorem expectKeyword_goes (hs : Ready n s) (keyword : String) :
    (flow n).Goes s (expectKeyword keyword) (Accepts s (s.atKeyword keyword)) := by
  refine goes_settled hs fun s' _ hle hsettled => ?_
  refine Flow.Goes.read (Flow.Goes.cond (fun hkeyword => ?_) fun hkeyword => ?_)
  · refine bump_accepts hle ?_
    rw [hsettled.raw]
    have hindex : s'.significantIndex.isSome = true := by
      unfold Parser.atKeyword at hkeyword
      cases h : s'.significantIndex with
      | none => simp [h] at hkeyword
      | some index => rfl
    obtain ⟨index, hindex⟩ := Option.isSome_iff_exists.mp hindex
    have hget : (s'.tokens[index]?).isSome = true := by
      unfold Parser.atKeyword at hkeyword
      cases h : s'.tokens[index]? with
      | none => simp [hindex, h] at hkeyword
      | some token => rfl
    rw [significantKind_eq, hindex]
    simpa using hget
  · refine report_accepts ?_ ?_
    · rw [← hsettled.atKeyword]
      simpa using hkeyword
    · rw [String.append_assoc]
      exact not_stuck (by simp [String.toList_append])

/-- A name is read, or its absence is reported. -/
theorem consumeName_goes (hs : Ready n s) (expected : String) :
    (flow n).Goes s (consumeName expected) (Accepts s (s.significantKind.any isName)) := by
  refine goes_settled hs fun s' _ hle hsettled => ?_
  refine Flow.Goes.read (Flow.Goes.cond (fun hname => ?_) fun hname => ?_)
  · refine bump_accepts hle ?_
    cases h : s'.rawKind with
    | none => simp [h] at hname
    | some kind => rfl
  · refine report_accepts ?_ (expected_not_stuck expected)
    rw [hsettled.rawKind] at hname
    simpa using hname

section Accepts

variable {p : P Bool} {here : Parser → Bool}
  (h : ∀ {n : Nat} {s : Parser}, Ready n s → (flow n).Goes s p (Accepts s (here s)))
include h

/-- What accepts a token has read one when it says so. -/
theorem eats_of_accepts : (flow n).Eats p := by
  intro lo s hs hlo
  refine Flow.Goes.mono (h hs) fun b s' _ hs' hb => ?_
  have hlo' : lo ≤ s.index := hlo
  have hless := hs'.1 hb
  show lo + 1 ≤ s'.index
  omega

end Accepts

theorem expect_safe (kind : TokenKind) (expected : String) :
    (flow n).Safe (expect kind expected) :=
  (eats_of_accepts fun hs => expect_goes hs kind expected).safe

theorem expectKeyword_safe (keyword : String) : (flow n).Safe (expectKeyword keyword) :=
  (eats_of_accepts fun hs => expectKeyword_goes hs keyword).safe

theorem consumeName_safe (expected : String) : (flow n).Safe (consumeName expected) :=
  (eats_of_accepts fun hs => consumeName_goes hs expected).safe

/-! ## Recovery -/

/-- Tokens are passed over up to a boundary, or to the end. -/
theorem bumpUntil_goes (hs : Ready n s) (boundary : Parser → Bool) :
    (flow n).Goes s (bumpUntil boundary) fun _ s' => s'.atEnd = true ∨ boundary s' = true := by
  refine goes_loopWith (i := fun _ _ => True) hs trivial fun _ s _ _ => ?_
  refine Flow.Goes.bind (q := fun b s' => (b = true → s.index < s'.index ∧ True) ∧
    (b = false → s'.atEnd = true ∨ boundary s' = true)) ?_ fun _ _ _ hb => Flow.Goes.pure hb
  refine Flow.Goes.read (Flow.Goes.read (Flow.Goes.cond (fun hstop => ?_) fun hgo => ?_))
  · exact Flow.Goes.pure ⟨by simp, fun _ => by simpa using hstop⟩
  · have hmore : s.atEnd = false := by
      simp at hgo
      exact hgo.1
    refine Flow.Goes.read (Flow.Goes.bind (bump_moves (rawKind_some hmore)) fun _ s' _ hs' => ?_)
    have hmoved : s'.index ≠ s.index := by omega
    exact Flow.Goes.ask ⟨fun _ => ⟨hs'.2, trivial⟩, fun h => by simp [hmoved] at h⟩

theorem bumpUntil_safe (boundary : Parser → Bool) : (flow n).Safe (bumpUntil boundary) :=
  fun _ hs => Flow.Goes.mono (bumpUntil_goes hs boundary) fun _ _ _ _ => trivial

theorem recoverUntil_goes (hs : Ready n s) (boundaries : List TokenKind) :
    (flow n).Goes s (recoverUntil boundaries) fun _ s' =>
      s'.atEnd = true ∨ s'.atAny boundaries = true := bumpUntil_goes hs (atAny boundaries)

theorem recoverUntil_safe (boundaries : List TokenKind) : (flow n).Safe (recoverUntil boundaries) :=
  bumpUntil_safe (atAny boundaries)

/-- An error node for what was reported already. A gap is left to those who asked for it. -/
theorem steps_errorNode {p : P Unit} (hs : Ready n s) (hflag : Flagged s) (hp : (flow n).Safe p) :
    Steps s (node .ErrorNode p) fun _ _ _ => True := by
  refine Steps.node (by decide) (fun _ => hflag) ?_
  exact Steps.mono (Steps.ofGoes (hp _ (hs.with _))) fun _ _ _ _ _ => trivial

/-- What is skipped of a header lies behind an error that was reported. -/
theorem recoverDeclarationHeader_steps (hs : Ready n s) (hflag : Flagged s) :
    Steps s recoverDeclarationHeader fun _ _ _ => True := by
  refine steps_errorNode hs hflag ?_
  refine (bumpUntil_safe _).bind fun _ => fun s hs => ?_
  refine Flow.Goes.read (Flow.Goes.bind (consumeIfRaw_goes _ s) fun _ s' _ hraw => ?_)
  refine Flow.Goes.read (Flow.Goes.read (Flow.Goes.when (fun hstuck => ?_) fun _ => trivial))
  -- a semicolon is never left standing
  simp at hstuck
  obtain ⟨hindex, hsemicolon⟩ := hstuck
  cases hat : s.rawAt .Semicolon with
  | true =>
    have := hraw.1 hat
    omega
  | false =>
    rw [hraw.2 hat, hat] at hsemicolon
    cases hsemicolon

/-- What is skipped of a member lies behind an error that was reported. -/
theorem recoverMemberTail_steps (hs : Ready n s) (hflag : Flagged s) :
    Steps s recoverMemberTail fun _ _ _ => True := by
  refine Steps.read ?_
  unfold when
  refine Steps.cond (fun _ => steps_errorNode hs hflag ?_) fun _ => Steps.pure trivial
  refine (bumpUntil_safe _).bind fun _ => Flow.Safe.read fun _ => Flow.Safe.when ?_
  exact (consumeIf_safe _).bind fun _ => Flow.Safe.pure

theorem consumeMemberTerminator_steps (hs : Ready n s) :
    Steps s consumeMemberTerminator fun b c _ => b = true → c := by
  refine Steps.after (consumeTrivia_safe _ hs) fun _ s₁ h₁ _ => ?_
  refine Steps.read (Steps.after (n := n) (consumeIfRaw_safe _ s₁ (hs.follows h₁))
    fun _ s₂ h₂ _ => Steps.read (Steps.cond (fun _ => Steps.pure fun _ => trivial) fun _ => ?_))
  have hs₂ := (hs.follows h₁).follows h₂
  refine Steps.after (n := n) (syntaxError_goes (not_stuck (by decide)) s₂) fun _ s₃ h₃ hflag => ?_
  refine Steps.read (Steps.bind (q := fun _ _ _ => True) ?_ fun _ _ _ _ _ => Steps.pure (by simp))
  unfold when
  refine Steps.cond (fun _ => ?_) fun _ => Steps.pure trivial
  exact recoverMemberTail_steps (hs₂.follows h₃) hflag.2

/-! ## Delimited regions -/

theorem balancedTurn_safe (depth : Nat) : (flow n).Safe (balancedTurn depth) := by
  refine Flow.Safe.read fun kind => Flow.Safe.cond Flow.Safe.pure ?_
  refine Flow.Safe.read fun before => bump_safe.bind fun _ => Flow.Safe.cond ?_ ?_
  · refine moved_safe.bind fun _ => Flow.Safe.cond Flow.Safe.pure ?_
    exact Flow.Safe.cond Flow.Safe.pure Flow.Safe.pure
  · exact moved_safe.bind fun _ => Flow.Safe.pure

/-- The loop over brackets, whatever it finds. -/
theorem balanced_safe : (flow n).Safe (budgetWith (1, false) fun state => balancedTurn state.1) :=
  safe_budgetWith fun state => balancedTurn_safe state.1

/-- A region that was not closed is reported where the parser stands. -/
theorem closed_goes {closed : Bool} {message : String} (hmessage : ¬Stuck message) (s : Parser) :
    (flow n).Goes s (do
      when (!closed) (syntaxError message)
      return closed) fun b s' => b = false → Flagged s' := by
  cases closed with
  | true => exact Flow.Goes.pure (by simp)
  | false =>
    refine Flow.Goes.bind (syntaxError_goes hmessage s) fun _ s' _ hs' => ?_
    exact Flow.Goes.pure fun _ => hs'.2

/-- What the parser is to find where a region begins. -/
def Region (s : Parser) (p : P Bool) (n : Nat) : Prop :=
  (flow n).Goes s p fun b s' => (b = false → Flagged s') ∧ s.index < s'.index

/-- A region in braces is read past its opening, and a missing end is reported. -/
theorem consumeBalancedBraces_goes (hs : Ready n s)
    (hopen : s.significantKind = some .BraceOpen) : Region s consumeBalancedBraces n := by
  refine Flow.Goes.bind (expect_goes hs _ _) fun b s₁ h₁ haccepts => ?_
  obtain rfl : b = true := haccepts.2.1 (by simpa using hopen)
  have hless : s.index < s₁.index := haccepts.1 rfl
  have hs₁ := hs.follows h₁.follows
  refine Flow.Goes.cond (fun _ => ?_) fun h => absurd rfl h
  refine Flow.Goes.bind (balanced_safe s₁ hs₁) ?_
  rintro ⟨depth, closed⟩ s₂ h₂ _
  refine Flow.Goes.mono (closed_goes (not_stuck (by decide)) s₂) fun b s₃ h₃ hflag => ⟨hflag, ?_⟩
  have := h₂.follows.index
  have := h₃.follows.index
  omega

theorem consumeBalancedBraces_safe : (flow n).Safe consumeBalancedBraces := by
  refine (expect_safe _ _).bind fun _ => Flow.Safe.cond ?_ Flow.Safe.pure
  refine balanced_safe.bind fun _ => ?_
  exact (Flow.Safe.when (syntaxError_safe (not_stuck (by decide)))).bind fun _ => Flow.Safe.pure

theorem doubleAngleTurn_safe : (flow n).Safe doubleAngleTurn := by
  refine Flow.Safe.read fun _ => Flow.Safe.cond Flow.Safe.pure ?_
  refine Flow.Safe.read fun _ => Flow.Safe.read fun _ => Flow.Safe.cond ?_ ?_
  · exact (expect_safe _ _).bind fun _ => (expect_safe _ _).bind fun _ => Flow.Safe.pure
  · exact bump_safe.bind fun _ => moved_safe.bind fun _ => Flow.Safe.pure

/-- A region in double angles is read past its opening, and a missing end is reported. -/
theorem consumeDoubleAngle_goes (hs : Ready n s) (hopen : s.significantKind = some .Lt) :
    Region s consumeDoubleAngle n := by
  refine Flow.Goes.bind (expect_goes hs _ _) fun b s₁ h₁ haccepts => ?_
  obtain rfl : b = true := haccepts.2.1 (by simpa using hopen)
  have hless : s.index < s₁.index := haccepts.1 rfl
  have hs₁ := hs.follows h₁.follows
  refine Flow.Goes.bind (expect_goes hs₁ _ _) fun second s₂ h₂ haccepts' => ?_
  have hs₂ := hs₁.follows h₂.follows
  have hindex₂ := h₂.follows.index
  cases second with
  | false =>
    refine Flow.Goes.cond (fun h => absurd h (by simp)) fun _ => ?_
    exact Flow.Goes.pure ⟨fun _ => haccepts'.2.2 rfl, by omega⟩
  | true =>
    refine Flow.Goes.cond (fun _ => ?_) fun h => absurd rfl h
    refine Flow.Goes.bind (safe_budgetWith (fun _ => doubleAngleTurn_safe) s₂ hs₂) ?_
    intro closed s₃ h₃ _
    refine Flow.Goes.mono (closed_goes (not_stuck (by decide)) s₃) fun b s₄ h₄ hflag =>
      ⟨hflag, ?_⟩
    have := h₃.follows.index
    have := h₄.follows.index
    omega

/-- A turn that uses a token up wherever there is one. -/
theorem goes_bump {α : Type} {f : Bool → P α} (hf : ∀ b, (flow n).Safe (f b)) (hs : Ready n s)
    (hmore : s.atEnd = false) :
    (flow n).Goes s (bump >>= f) fun _ s' => s.index < s'.index := by
  refine Flow.Goes.bind (bump_moves (rawKind_some hmore)) fun b s' h hs' => ?_
  refine Flow.Goes.mono (hf b s' (hs.follows h.follows)) fun a s'' h' _ => ?_
  have := h'.follows.index
  omega

/-- A turn that asks for another one has read a token. -/
theorem opaqueExpressionTurn_reaches (lo : Nat) (depths : Depths) :
    (flow n).Reaches lo (lo + 1) (·.2 = true) (opaqueExpressionTurn depths) := by
  intro s hs hlo
  refine Flow.Goes.read (Flow.Goes.cond (fun _ => Flow.Goes.pure (by simp)) fun hmore => ?_)
  refine Flow.Goes.read (Flow.Goes.read (Flow.Goes.cond (fun _ => Flow.Goes.pure (by simp)) ?_))
  intro _
  refine Flow.Goes.read (Flow.Goes.mono (goes_bump (fun _ => Flow.Safe.pure) hs
    (by simpa using hmore)) fun _ s' _ hless _ => ?_)
  have hlo' : lo ≤ s.index := hlo
  show lo + 1 ≤ s'.index
  omega

theorem parseOpaqueExpression_safe : (flow n).Safe parseOpaqueExpression := by
  refine safe_node (by decide) (by decide) ?_
  exact (safe_loopWith opaqueExpressionTurn_reaches).bind fun _ => Flow.Safe.pure

theorem parseOpaqueBody_safe : (flow n).Safe parseOpaqueBody := by
  refine safe_node (by decide) (by decide) ?_
  exact consumeBalancedBraces_safe.bind fun _ => Flow.Safe.pure

/-- The node of a region that is kept as it is lies in a gap. -/
theorem opaque_held {p : P Unit} (hs : Ready n s) (gap : DomainCoverageGapKind)
    (hp : (flow n).Goes (s.with (.Open (.Node .DomainOpaqueNode))) p fun _ s' =>
      s.atEnd = false → s.index < s'.index) :
    (flow n).Goes s (do
      node .DomainOpaqueNode p
      markGapFrom s.index gap) fun _ s' => s.atEnd = false → s.index < s'.index := by
  refine Steps.goes (n := n) (Steps.settled (by decide) (Steps.ofGoes hp) ?_)
  rintro _ c s₁ h₁ ⟨hc, hless⟩
  have hs₁ : Ready n (s₁.with .Close) := ((hs.with _).follows h₁).with _
  have htokens : s₁.tokens = s.tokens := h₁.tokens
  refine Steps.mono (Steps.ofGoes (markGapFrom_goes hs₁ h₁.index gap)) ?_
  rintro _ c' s₂ h₂ ⟨hc', hindex, -, hgap, -⟩
  refine ⟨by simp [Told], fun _ _ => ?_, ⟨hc, hc'⟩, fun hmore => ?_⟩
  · have hgap' : InGap s₁.tokens s₂.coverage_gaps s.index s₁.index := hgap
    rwa [htokens] at hgap'
  · have hindex' : s₂.index = s₁.index := hindex
    rw [hindex']
    exact hless hmore

/-- The node of a region that is kept as it is, and its gap. -/
theorem opaque_goes {p : P Unit} (hs : Ready n s) (gap : DomainCoverageGapKind)
    (hp : (flow n).Goes (s.with (.Open (.Node .DomainOpaqueNode))) p fun _ s' =>
      s.atEnd = false → s.index < s'.index) :
    (flow n).Goes s (do
      let start ← ask index
      node .DomainOpaqueNode p
      markGapFrom start gap) fun _ s' =>
        (s.atEnd = false → s.index < s'.index) ∧ Whole s .DomainOpaqueNode s' ∧
          HasGap s'.coverage_gaps gap := by
  refine Flow.Goes.read (Flow.Goes.both ?_ (Ends.bind (whole_node hs hp) ?_))
  · exact opaque_held hs gap hp
  · rintro _ s₁ ⟨⟨es, hevents, hgrown⟩, hs₁⟩
    refine Ends.mono (markGapFrom_goes hs₁ hgrown.le gap) ?_
    rintro _ s₂ ⟨-, hindex, hevents', -, hkind⟩
    exact ⟨⟨es, hevents'.trans hevents, by rw [hindex]; exact hgrown⟩, hkind⟩

/-- What was consumed of a region before a turn. -/
def Begun (s₀ : Parser) (consumed : Bool) (s : Parser) : Prop :=
  s.tokens = s₀.tokens ∧ s₀.index ≤ s.index ∧ (consumed = true → s₀.index < s.index)

theorem Begun.atEnd {s₀ : Parser} {consumed : Bool} (h : Begun s₀ consumed s)
    (hend : s.atEnd = true) (hmore : s₀.atEnd = false) : s₀.index < s.index := by
  have hlen := (atEnd_iff s).mp hend
  rw [h.1] at hlen
  have : ¬s₀.tokens.length ≤ s₀.index := fun hle => by simp [(atEnd_iff s₀).mpr hle] at hmore
  omega

/-- Once a token is read, something has been consumed. -/
theorem Begun.bump {α : Type} {s₀ : Parser} {consumed : Bool} (h : Begun s₀ consumed s)
    (hmore : s.atEnd = false) {f : Bool → P α} {q : α → Parser → Prop}
    (hf : ∀ s', s.index < s'.index → Begun s₀ true s' → (flow n).Goes s' (f true) q) :
    (flow n).Goes s (domain.bump >>= f) q := by
  refine Flow.Goes.bind (bump_moves (rawKind_some hmore)) fun b s' hstep hs' => ?_
  obtain ⟨rfl, hless⟩ := hs'
  have hle := h.2.1
  exact hf s' hless ⟨hstep.follows.tokens.trans h.1, by omega, fun _ => by omega⟩

/-- A turn over an unknown declaration reads a token, or ends where one has been read. -/
theorem topLevelTurn_goes {s₀ : Parser} (state : Depths × Bool) (h : Begun s₀ state.2 s) :
    (flow n).Goes s (topLevelTurn state) fun r s' =>
      (r.2 = true → s.index < s'.index ∧ Begun s₀ r.1.2 s') ∧
        (r.2 = false → s₀.atEnd = false → s₀.index < s'.index) := by
  obtain ⟨depths, consumed⟩ := state
  refine Flow.Goes.read (Flow.Goes.cond (fun hend => ?_) fun hmore => ?_)
  · exact Flow.Goes.pure ⟨by simp, fun _ => h.atEnd hend⟩
  refine Flow.Goes.read (Flow.Goes.read (Flow.Goes.cond (fun hdone => ?_) fun _ => ?_))
  · simp at hdone
    exact Flow.Goes.pure ⟨by simp, fun _ _ => h.2.2 hdone.1.1⟩
  refine Flow.Goes.read (Flow.Goes.cond (fun hdone => ?_) fun _ => ?_)
  · simp at hdone
    exact Flow.Goes.pure ⟨by simp, fun _ _ => h.2.2 hdone.1.1⟩
  refine Flow.Goes.read (Flow.Goes.read (Flow.Goes.read ?_))
  refine h.bump (by simpa using hmore) fun s' hless hbegun => ?_
  exact Flow.Goes.pure ⟨fun _ => ⟨hless, hbegun⟩, fun _ _ => hbegun.2.2 rfl⟩

/-- The turns of a region use a token up, where there is one. -/
theorem topLevel_goes {s₀ : Parser} (hs : Ready n s) (h : Begun s₀ false s) :
    (flow n).Goes s (do
      let _ ← loopWith (⟨0, 0, 0⟩, false) topLevelTurn) fun _ s' =>
        s₀.atEnd = false → s₀.index < s'.index := by
  refine Flow.Goes.bind (goes_loopWith (i := fun state s' => Begun s₀ state.2 s') hs h
    fun state _ _ hbegun => topLevelTurn_goes state hbegun) fun _ _ _ hq => Flow.Goes.pure hq

/-- A declaration that is not understood is kept whole, with a gap for it. -/
theorem parseOpaqueTopLevel_goes (hs : Ready n s) : (flow n).Goes s parseOpaqueTopLevel
    fun _ s' => (s.atEnd = false → s.index < s'.index) ∧ Whole s .DomainOpaqueNode s' ∧
      HasGap s'.coverage_gaps .UnsupportedTopLevel :=
  opaque_goes hs _ (topLevel_goes (hs.with _) ⟨rfl, Nat.le_refl _, by simp⟩)

/-- A declaration that is of no interest is kept whole, without a gap. -/
theorem parseIgnoredTopLevel_goes (hs : Ready n s) : (flow n).Goes s parseIgnoredTopLevel
    fun _ s' => (s.atEnd = false → s.index < s'.index) ∧ Whole s .DomainIgnoredTopLevel s' := by
  have hbegun : Begun s false (s.with (.Open (.Node .DomainIgnoredTopLevel))) :=
    ⟨rfl, Nat.le_refl _, by simp⟩
  have hbody := topLevel_goes (hs.with _) hbegun
  exact Flow.Goes.both (goes_node (by decide) (by decide) hbody)
    (Ends.mono (whole_node hs hbody) fun _ _ h => h.1)

/-- A turn over an unknown member reads a token, or ends where one has been read. -/
theorem opaqueMemberTurn_goes {s₀ : Parser} (state : OpaqueMember) (h : Begun s₀ state.consumed s) :
    (flow n).Goes s (opaqueMemberTurn state) fun r s' =>
      (r.2 = true → s.index < s'.index ∧ Begun s₀ r.1.consumed s') ∧
        (r.2 = false → s₀.atEnd = false → s₀.index < s'.index) := by
  refine Flow.Goes.read (Flow.Goes.cond (fun hend => ?_) fun hmore => ?_)
  · exact Flow.Goes.pure ⟨by simp, fun _ => h.atEnd hend⟩
  refine Flow.Goes.read (Flow.Goes.cond (fun hdone => ?_) fun _ => ?_)
  · simp at hdone
    exact Flow.Goes.pure ⟨by simp, fun _ _ => h.2.2 hdone.1.1⟩
  refine Flow.Goes.read (Flow.Goes.read (Flow.Goes.read ?_))
  refine h.bump (by simpa using hmore) fun s' hless hbegun => ?_
  exact Flow.Goes.pure ⟨fun _ => ⟨hless, hbegun⟩, fun _ _ => hbegun.2.2 rfl⟩

/-- A member that is not understood is not left unread. -/
theorem parseOpaqueMember_goes (hs : Ready n s) :
    (flow n).Goes s parseOpaqueMember fun _ s' => s.atEnd = false → s.index < s'.index := by
  have hbegun : Begun s false (s.with (.Open (.Node .DomainOpaqueNode))) :=
    ⟨rfl, Nat.le_refl _, by simp⟩
  refine Flow.Goes.read (opaque_held hs _ ?_)
  refine Flow.Goes.bind (goes_loopWith (i := fun state s' => Begun s state.consumed s') (hs.with _)
    hbegun fun state _ _ h => opaqueMemberTurn_goes state h) fun _ _ _ hq => Flow.Goes.pure hq

/-! ## Stereotypes -/

theorem atDouble_kind {kind : TokenKind} (h : s.atDouble kind = true) :
    s.significantKind = some kind := by
  simp [atDouble, atToken] at h
  exact h.1

/-- Both kinds of regions alike. -/
theorem region_goes {braced : Bool} (hs : Ready n s)
    (hopen : s.significantKind = some (if braced then .BraceOpen else .Lt)) :
    Region s (if braced then consumeBalancedBraces else consumeDoubleAngle) n := by
  cases braced with
  | true => exact consumeBalancedBraces_goes hs hopen
  | false => exact consumeDoubleAngle_goes hs hopen

/-- An application that is not well formed is reported behind its node, and put in a gap. -/
theorem stereotypeApplication_safe : (flow n).Safe stereotypeApplication := by
  intro s hs
  refine Flow.Goes.read (Flow.Goes.read (Flow.Goes.read (Flow.Goes.cond
    (fun _ => Flow.Goes.pure trivial) fun hgo => ?_)))
  refine Flow.Goes.read (Flow.Goes.read (Flow.Goes.read ?_))
  have hopen : s.significantKind = some (if s.atToken .BraceOpen then .BraceOpen else .Lt) := by
    by_cases hbrace : s.atToken .BraceOpen = true
    · rw [if_pos hbrace]
      simpa [atToken] using hbrace
    · rw [if_neg hbrace]
      simp [hbrace] at hgo
      exact atDouble_kind hgo.2
  generalize s.atToken .BraceOpen = braced at hopen
  generalize (if braced = true then bracedAnnotationIsValid else doubleAngleStereotypeIsValid) s =
    structurally_valid
  have hkind : (if structurally_valid then NodeKind.DomainStereotypeApplications
      else .ErrorNode) ≠ .Root := by cases structurally_valid <;> decide
  refine Steps.goes (n := n) (Steps.settled hkind (Steps.ofGoes (region_goes (hs.with _) hopen)) ?_)
  rintro closed c s₁ h₁ ⟨hc, hflag, hless⟩
  have hs₁ : Ready n (s₁.with .Close) := ((hs.with _).follows h₁).with _
  have htokens : s₁.tokens = s.tokens := h₁.tokens
  have hmoved : (s₁.with .Close).index ≠ s.index := Nat.ne_of_gt hless
  refine Steps.read (Steps.cond (fun hstuck => absurd hstuck (by simpa using hmoved)) fun _ => ?_)
  refine Steps.mono (Steps.ofGoes (n := n) (q := fun _ s' =>
    structurally_valid = false ∨ closed = false →
      Reported s'.diagnostics (offsetAt s.tokens s₁.index) ∧
        InGap s.tokens s'.coverage_gaps s.index s₁.index) ?_) ?_
  · refine Flow.Goes.bind (q := fun _ s₂ => structurally_valid = false ∨ closed = false →
      Reported s₂.diagnostics (offsetAt s.tokens s₁.index) ∧
        InGap s.tokens s₂.coverage_gaps s.index s₁.index) ?_ fun _ s₂ h₂ hbad => ?_
    · refine Flow.Goes.when (fun _ => ?_) fun hfine hbad => ?_
      · refine Flow.Goes.bind (q := fun _ s₂ => s₂.index = s₁.index ∧ Flagged s₂) ?_ ?_
        · refine Flow.Goes.when (fun _ => syntaxError_goes (not_stuck (by decide)) _) ?_
          intro hopen
          exact ⟨rfl, hflag hopen⟩
        · intro _ s₂ h₂ hflagged
          have htokens₂ : s₂.tokens = s₁.tokens := h₂.follows.tokens
          refine Flow.Goes.mono (markGapFrom_goes (hs₁.follows h₂.follows)
            (Nat.le_trans h₁.index h₂.follows.index) _) fun _ s₃ h₃ hgap _ => ⟨?_, ?_⟩
          · obtain ⟨d, hd, hstart⟩ := hflagged.2
            obtain ⟨es, hran, -⟩ := h₃
            refine ⟨d, hran.diagnostics d hd, ?_⟩
            rw [hstart, htokens₂, htokens, hflagged.1]
          · have hin := hgap.2.2.1
            rw [htokens₂, htokens, hflagged.1] at hin
            exact hin
      · simp at hfine
        rcases hbad with hbad | hbad
        · simp [hfine] at hbad
        · simp [hfine] at hbad
    · have hs₂ := hs₁.follows h₂.follows
      refine Flow.Goes.bind (consumeTrivia_safe s₂ hs₂) fun _ s₃ h₃ _ => Flow.Goes.pure ?_
      intro hcase
      obtain ⟨⟨d, hd, hstart⟩, hgap⟩ := hbad hcase
      obtain ⟨es, hran, -⟩ := h₃
      have htokens₂ : s₂.tokens = s.tokens := (h₂.follows.tokens).trans htokens
      have hgaps := hran.gaps s.index s₁.index
      rw [htokens₂] at hgaps
      exact ⟨⟨d, hran.diagnostics d hd, hstart⟩, hgaps hgap⟩
  · rintro _ c' s₂ h₂ ⟨hc', hbad⟩
    refine ⟨fun herror => ?_, fun _ hfaulty => ?_, ⟨hc, hc'⟩, trivial⟩
    · refine Or.inr (hbad (Or.inl ?_)).1
      cases structurally_valid with
      | true => cases herror
      | false => rfl
    · refine (hbad (Or.inl ?_)).2
      cases structurally_valid with
      | true => exact absurd hfaulty (by decide)
      | false => rfl

theorem parseStereotypeApplications_safe : (flow n).Safe parseStereotypeApplications :=
  consumeTrivia_safe.bind fun _ => safe_budget stereotypeApplication_safe

/-! ## Names and types -/

theorem parseDomainQualifiedName_safe (expected : String) :
    (flow n).Safe (parseDomainQualifiedName expected) := by
  refine safe_node (by decide) (by decide) ?_
  refine (consumeIf_safe _).bind fun _ => (consumeName_safe _).bind fun valid => ?_
  refine safe_loopWith fun lo valid => ?_
  refine Flow.Reaches.after (consumeIf_eats _ lo) (fun b hb => ?_) fun b hb => ?_
  · exact ((Flow.Safe.cond ((consumeName_safe _).bind fun _ => Flow.Safe.pure)
      Flow.Safe.pure)).reaches
  · obtain rfl : b = false := by simpa using hb
    exact Flow.Reaches.pure (by simp)

/-- What the parser looks at, at a place that it did not move from. -/
theorem same_place {s' : Parser} (htokens : s'.tokens = s.tokens) (hindex : s'.index = s.index) :
    s'.rawKind = s.rawKind ∧ s'.significantKind = s.significantKind := by
  unfold rawKind significantKind nextSignificantKind nextSignificantIndexFrom
  rw [htokens, hindex]
  exact ⟨rfl, rfl⟩

/-- What a recovery that did not move found where it began. -/
theorem recovered_here {s' : Parser} {boundaries : List TokenKind}
    (h : s'.atEnd = true ∨ s'.atAny boundaries = true) (htokens : s'.tokens = s.tokens)
    (hindex : s'.index = s.index) (hmore : s.atEnd = false) : s.atAny boundaries = true := by
  obtain ⟨hraw, hsignificant⟩ := same_place htokens hindex
  rcases h with hend | hany
  · have : s.atEnd = true := by
      unfold atEnd at hend ⊢
      rw [← hraw]
      exact hend
    simp [this] at hmore
  · unfold atAny at hany ⊢
    rw [← hsignificant]
    exact hany

/-- Behind trivia, and at the place of before, where there was neither the end nor this
token: there is no such token either, when there is no comma. -/
theorem nothing_read {s' : Parser} {stop : TokenKind} (htokens : s'.tokens = s.tokens)
    (hindex : s'.index = s.index) (hraw : s'.rawKind = s'.significantKind)
    (hmore : s.atEnd = false) (hstop : s.atToken stop = false)
    (hcomma : s'.rawAt .Comma = false) : s'.atEnd = false ∧ s'.atAny [.Comma, stop] = false := by
  obtain ⟨hraw', hsignificant⟩ := same_place htokens hindex
  refine ⟨by unfold atEnd at hmore ⊢; rw [hraw']; exact hmore, ?_⟩
  unfold atToken at hstop
  unfold atAny
  rw [hsignificant]
  cases hk : s.significantKind with
  | none => rfl
  | some kind =>
    have hnotcomma : kind ≠ .Comma := by
      rintro rfl
      rw [hsignificant, hk] at hraw
      simp [rawAt, hraw] at hcomma
    have hnotstop : kind ≠ stop := by simpa [hk] using hstop
    simp [hnotcomma, hnotstop]

/-- A recovery up to a comma or this token uses one up, unless it stands there already. -/
theorem recoverList_goes {message : String} {stop : TokenKind} (hmessage : ¬Stuck message)
    (hs : Ready n s) : (flow n).Goes s (do
      syntaxError message
      recoverUntil [.Comma, stop]
      let comma_start ← ask index
      consumeIfRaw .Comma
      return !(← moved comma_start) && (← ask (rawAt .Comma))) fun _ s' =>
        s.atEnd = false ∧ s.atAny [.Comma, stop] = false → s.index < s'.index := by
  refine Flow.Goes.bind (syntaxError_goes hmessage s) fun _ s₁ h₁ hs₁ => ?_
  have hready₁ := hs.follows h₁.follows
  refine Flow.Goes.bind (recoverUntil_goes hready₁ _) fun _ s₂ h₂ hfound => ?_
  have hindex₂ := h₂.follows.index
  refine Flow.Goes.read (Flow.Goes.bind (consumeIfRaw_safe _ s₂ (hready₁.follows h₂.follows)) ?_)
  intro _ s₃ h₃ _
  have hindex₃ := h₃.follows.index
  refine Flow.Goes.read (Flow.Goes.read (Flow.Goes.pure fun hnone => ?_))
  by_contra hnot
  have htokens := h₂.follows.tokens.trans h₁.follows.tokens
  have hany := recovered_here hfound htokens (by omega) hnone.1
  simp [hnone.2] at hany

/-- A turn uses a token up: the argument, the comma behind it, or what the recovery
passes over. -/
theorem typeArgumentTurn_goes {self : P Bool} (hself : (flow n).Safe self) (hs : Ready n s)
    (valid : Bool) : (flow n).Goes s (typeArgumentTurn self valid) fun r s' =>
      r.2 = true → s.index < s'.index := by
  refine Flow.Goes.read (Flow.Goes.read (Flow.Goes.cond (fun _ => Flow.Goes.pure (by simp)) ?_))
  intro hgo
  simp at hgo
  obtain ⟨hmore, hnotgt⟩ := hgo
  refine Flow.Goes.read (Flow.Goes.bind (hself s hs) fun argument s₁ h₁ _ => ?_)
  have hs₁ := hs.follows h₁.follows
  refine Flow.Goes.bind (consumeTrivia_goes hs₁) fun _ s₂ h₂ hsettled => ?_
  have hs₂ := hs₁.follows h₂.follows
  have hindex : s.index ≤ s₂.index := Nat.le_trans h₁.follows.index h₂.follows.index
  have htokens : s₂.tokens = s.tokens := h₂.follows.tokens.trans h₁.follows.tokens
  refine Flow.Goes.read (Flow.Goes.bind (consumeIfRaw_goes _ s₂) fun _ s₃ h₃ hcomma => ?_)
  have hs₃ := hs₂.follows h₃.follows
  refine Flow.Goes.read (Flow.Goes.cond (fun hmoved => ?_) fun hstill => ?_)
  · -- a comma was read
    have hless : s₂.index < s₃.index := by
      have := h₃.follows.index
      simp at hmoved
      omega
    refine Flow.Goes.bind (consumeTrivia_safe s₃ hs₃) fun _ s₄ h₄ _ => ?_
    have hindex₄ := h₄.follows.index
    refine Flow.Goes.read (Flow.Goes.cond (fun hstuck => ?_) fun _ => ?_)
    · simp at hstuck
      omega
    · exact Flow.Goes.pure fun _ => by omega
  · have hnocomma : s₂.rawAt .Comma = false := by
      cases hraw : s₂.rawAt .Comma with
      | false => rfl
      | true =>
        have := hcomma.1 hraw
        simp at hstill
        omega
    obtain rfl := hcomma.2 hnocomma
    have hhere := fun hsame => nothing_read htokens hsame hsettled.raw hmore
      (show s.atToken .Gt = false from hnotgt) hnocomma
    refine Flow.Goes.bind (q := fun _ s' => s.index < s'.index) ?_ fun stuck s₄ h₄ hless => ?_
    · refine Flow.Goes.read (Flow.Goes.cond (fun hgt => Flow.Goes.pure ?_) fun _ => ?_)
      · by_contra hnot
        have hnone := (hhere (by omega)).2
        simp [atAny, atToken] at hgt hnone
        simp [hgt] at hnone
      · refine Flow.Goes.mono (recoverList_goes (not_stuck (by decide)) hs₃) fun _ s₄ h₄ hless => ?_
        have hindex₄ := h₄.follows.index
        by_cases hsame : s₃.index = s.index
        · have := hless (hhere hsame)
          omega
        · omega
    · refine Flow.Goes.cond (fun _ => Flow.Goes.pure (by simp)) fun _ => ?_
      refine Flow.Goes.read (Flow.Goes.cond (fun hstuck => ?_) fun _ => ?_)
      · simp at hstuck
        omega
      · exact Flow.Goes.pure fun _ => hless

/-- The arguments of a type, whose own types are read by the parser that is passed in. -/
theorem typeArguments_safe {self : P Bool} (hself : (flow n).Safe self) (valid : Bool) :
    (flow n).Safe (typeArguments self valid) := by
  refine consumeTrivia_safe.bind fun _ => Flow.Safe.read fun _ => ?_
  refine (Flow.Safe.when (syntaxError_safe (not_stuck (by decide)))).bind fun _ => ?_
  have hloop : ∀ valid, (flow n).Safe (loopWith valid (typeArgumentTurn self)) := by
    intro valid s hs
    refine goes_loopWith (i := fun _ _ => True) hs trivial fun x s hs _ => ?_
    refine Flow.Goes.mono (typeArgumentTurn_goes hself hs x) fun r s' _ hr => ?_
    exact ⟨fun hagain => ⟨hr hagain, trivial⟩, fun _ => trivial⟩
  refine (hloop _).bind fun _ => (expect_safe _ _).bind fun _ => Flow.Safe.pure

theorem Clear.nested {s' : Parser} (h : Clear { s with depth := s.depth + 1 } s') :
    Clear s { s' with depth := s'.depth - 1 } := by
  obtain ⟨es, hran, hcovered⟩ := h
  have hdepth : s'.depth = s.depth + 1 := hran.depth
  refine ⟨es, ⟨hran.source, hran.tokens, ?_, hran.diagnostics, hran.fresh, hran.gaps, hran.inside,
    hran.kinds, hran.events, hran.grown, hran.bad⟩, hcovered⟩
  show s'.depth - 1 = s.depth
  omega

/-- Types nest as deep as the limit lets them, and no deeper. -/
theorem parseDomainTypeReference_safe (n : Nat) : (flow n).Safe (parseDomainTypeReference n) := by
  induction n with
  | zero =>
    intro s hs
    have hdepth := hs.depth
    have hfuel := hs.fuel
    omega
  | succ n ih =>
    intro s hs
    show (flow (n + 1)).Goes s (enterParseDepth >>= _) _
    unfold enterParseDepth
    rw [bind_assoc]
    refine Flow.Goes.read ?_
    by_cases hlimit : MAX_PARSE_DEPTH ≤ s.depth
    · rw [if_pos hlimit, bind_assoc]
      have hmessage : ¬Stuck "Domain type nesting limit reached" := not_stuck (by decide)
      exact Flow.Goes.bind (syntaxError_goes hmessage s) fun _ _ _ _ => Flow.Goes.pure trivial
    · rw [if_neg hlimit, bind_assoc]
      have hs₁ : Ready n { s with depth := s.depth + 1 } := by
        have hfuel := hs.fuel
        refine ⟨hs.index, hs.tiles, ?_, ?_⟩
        · show s.depth + 1 ≤ MAX_PARSE_DEPTH
          omega
        · show MAX_PARSE_DEPTH < n + (s.depth + 1)
          omega
      have hbody : (flow n).Safe (node .DomainTypeRef (do
          let valid ← parseDomainQualifiedName "a type name"
          if ← consumeIf .Lt then typeArguments (parseDomainTypeReference n) valid
          else return valid)) := by
        refine safe_node (by decide) (by decide) ?_
        refine (parseDomainQualifiedName_safe _).bind fun _ => (consumeIf_safe _).bind fun _ => ?_
        exact Flow.Safe.cond (typeArguments_safe ih _) Flow.Safe.pure
      refine Ends.bind (m := fun _ s' => s' = { s with depth := s.depth + 1 }) (Ends.change rfl) ?_
      rintro _ _ rfl
      rw [pure_bind]
      refine Ends.cond (fun _ => Ends.bind (hbody _ hs₁) ?_) fun h => absurd rfl h
      rintro valid s' ⟨hclear, -⟩
      refine Ends.bind (m := fun _ s'' => s'' = { s' with depth := s'.depth - 1 })
        (Ends.change rfl) ?_
      rintro _ _ rfl
      exact Ends.pure ⟨hclear.nested, trivial⟩

/-- A type from the nesting where the parser stands. -/
theorem typeReference_safe : (flow n).Safe typeReference := by
  intro s hs
  refine parseDomainTypeReference_safe (MAX_PARSE_DEPTH + 1) s ⟨hs.index, hs.tiles, hs.depth, ?_⟩
  omega

theorem consumeMultiplicityBound_safe : (flow n).Safe consumeMultiplicityBound := by
  refine (consumeIf_safe _).bind fun _ => Flow.Safe.cond Flow.Safe.pure ?_
  refine (consumeIf_safe _).bind fun _ => Flow.Safe.cond Flow.Safe.pure ?_
  exact (syntaxError_safe (not_stuck (by decide))).bind fun _ => Flow.Safe.pure

theorem multiplicityUpper_safe : (flow n).Safe multiplicityUpper := by
  refine (consumeIf_safe _).bind fun _ => Flow.Safe.cond ?_ Flow.Safe.pure
  exact (expect_safe _ _).bind fun _ => Flow.Safe.cond consumeMultiplicityBound_safe Flow.Safe.pure

theorem parseDomainMultiplicity_safe : (flow n).Safe parseDomainMultiplicity := by
  refine consumeTrivia_safe.bind fun _ => Flow.Safe.read fun _ => Flow.Safe.cond ?_ ?_
  · exact (syntaxError_safe (not_stuck (by decide))).bind fun _ => Flow.Safe.pure
  · refine safe_node (by decide) (by decide) ?_
    refine (expect_safe _ _).bind fun _ => consumeMultiplicityBound_safe.bind fun _ => ?_
    exact multiplicityUpper_safe.bind fun _ => (expect_safe _ _).bind fun _ => Flow.Safe.pure

end analyzer.domain
