-- Every production of the parser of queries is a step: it ends, it uses the
-- tokens up in their order, and it reports what it could not read.
import PureAnalyzer.ParserRules

namespace analyzer.m3

open fragments model cst linkedarena totality analyzer.m3.Parser

variable {n : Nat}

/-! ## Tokens -/

theorem rawKind_eq_some {s : Parser} {kind : TokenKind} (h : s.rawKind = some kind) :
    s.tokens[s.index]? = some (kind, s.currentSpan) := by
  unfold rawKind at h
  unfold currentSpan
  cases hget : s.tokens[s.index]? with
  | none => simp [hget] at h
  | some token =>
    obtain ⟨kind', range⟩ := token
    obtain rfl : kind' = kind := by simpa [hget] using h
    rfl

theorem rawKind_eq_none {s : Parser} (h : s.rawKind = none) : s.tokens.length ≤ s.index := by
  simpa [rawKind] using h

/-- A token is used up, wherever there is one. -/
theorem bump_steps (s : Parser) :
    Steps s bump fun b i => if s.rawKind.isSome then b = true ∧ i = s.index + 1 else b = false := by
  unfold bump
  refine Steps.read ?_
  cases hkind : s.rawKind with
  | none => exact Steps.pure rfl
  | some kind =>
    refine Steps.read ?_
    have here := rawKind_eq_some hkind
    by_cases hbad : kind = .Error
    · -- the diagnostic comes first, so the token finds it
      refine ⟨true, _, by rw [when, if_pos (by simpa using hbad)]; rfl, ?_, rfl, rfl⟩
      exact (Ran.diagnosed s _).trans (Ran.advanced here fun _ =>
        ⟨_, List.mem_append_right _ (List.mem_singleton_self _), rfl, rfl⟩)
    · refine ⟨true, _, by rw [when, if_neg (by simpa using hbad)]; rfl, ?_, rfl, rfl⟩
      exact Ran.advanced here fun h => absurd h hbad

/-- A bad token is reported when it is used up. -/
theorem bump_reports {s : Parser} (hkind : s.rawKind = some .Error) :
    Ends bump s fun _ s' => Ran [] s s' ∧ s.index < s'.index ∧
      Reported s'.diagnostics s.currentSpan.start := by
  refine Ends.bind (m := fun kind s' => kind = some .Error ∧ s = s') (Ends.ask ⟨hkind, rfl⟩) ?_
  rintro _ _ ⟨rfl, rfl⟩
  let d : Diagnostic := ⟨.BadToken, .Error, "unrecognized token", ⟨s.file, s.currentSpan⟩⟩
  have hmem : d ∈ s.diagnostics ++ [d] := List.mem_append_right _ (List.mem_singleton_self d)
  refine ⟨true, _, rfl, ?_, Nat.lt_succ_self _, d, hmem, rfl⟩
  exact (Ran.diagnosed s d).trans (Ran.advanced (rawKind_eq_some hkind) fun _ => ⟨d, hmem, rfl, rfl⟩)

theorem bump_eats : Eats n bump := fun lo s _ hlo =>
  (bump_steps s).mono fun b i _ h hb => by
    cases hkind : s.rawKind with
    | none => simp [hkind, hb] at h
    | some kind =>
      simp [hkind] at h
      omega

theorem bump_safe : Safe n bump := bump_eats.safe

theorem pushDiagnostic_safe (code : DiagCode) (span : TextRange) (message : String) :
    Safe n (pushDiagnostic code span message) := fun s _ =>
  ⟨(), _, rfl, Ran.diagnosed s _, trivial⟩

theorem errorCurrent_safe (message : String) : Safe n (errorCurrent message) := by
  apply Safe.read
  intro span
  exact pushDiagnostic_safe _ _ _

/-- There is a diagnostic about the token the parser stands at. -/
def Flagged (s : Parser) : Prop := Reported s.diagnostics s.currentSpan.start

/-- After an error is reported the parser stands where it stood. -/
theorem errorCurrent_ends (message : String) (s : Parser) :
    Ends (errorCurrent message) s fun _ s' => Ran [] s s' ∧ s'.index = s.index ∧ Flagged s' :=
  ⟨(), _, rfl, Ran.diagnosed s _, rfl, _,
    List.mem_append_right _ (List.mem_singleton_self _), rfl⟩

theorem Flagged.ran {s s' : Parser} (hs : Flagged s) (h : Ran [] s s')
    (hindex : s'.index = s.index) : Flagged s' := by
  obtain ⟨d, hd, hstart⟩ := hs
  refine ⟨d, h.diagnostics d hd, ?_⟩
  rw [hstart, currentSpan_eq, currentSpan_eq, h.tokens, hindex]

theorem consumeTrivia_eats : Eats n (do
    if (← ask rawKind).any isTrivia then
      let before ← ask index
      if ← bump then moved before else return false
    else return false : P Bool) := by
  intro lo
  refine Reaches.read fun kind => Reaches.cond (fun _ => ?_) fun _ => Reaches.pure (by simp)
  refine Reaches.before fun i => Reaches.bind bump_safe fun b => ?_
  exact Reaches.cond (fun _ => Reaches.moved) fun _ => Reaches.pure (by simp)

theorem consumeTrivia_safe : Safe n consumeTrivia := Safe.loop consumeTrivia_eats

theorem consumeIf_eats (kind : TokenKind) : Eats n (consumeIf kind) := by
  intro lo
  refine Reaches.bind consumeTrivia_safe fun _ => Reaches.read fun raw => ?_
  exact Reaches.cond (fun _ => bump_eats lo) fun _ => Reaches.pure (by simp)

theorem consumeIf_safe (kind : TokenKind) : Safe n (consumeIf kind) := (consumeIf_eats kind).safe

theorem expect_eats (kind : TokenKind) (expected : String) : Eats n (expect kind expected) := by
  intro lo
  refine Reaches.bind consumeTrivia_safe fun _ => Reaches.read fun raw => ?_
  refine Reaches.cond (fun _ => bump_eats lo) fun _ => ?_
  exact Reaches.bind (errorCurrent_safe _) fun _ => Reaches.pure (by simp)

theorem expect_safe (kind : TokenKind) (expected : String) : Safe n (expect kind expected) :=
  (expect_eats kind expected).safe

theorem consumeName_eats (expected : String) : Eats n (consumeName expected) := by
  intro lo
  refine Reaches.bind consumeTrivia_safe fun _ => Reaches.read fun raw => ?_
  refine Reaches.cond (fun _ => bump_eats lo) fun _ => ?_
  exact Reaches.bind (errorCurrent_safe _) fun _ => Reaches.pure (by simp)

theorem consumeName_safe (expected : String) : Safe n (consumeName expected) :=
  (consumeName_eats expected).safe

/-! ## Recovery -/

/-- Any turn that uses a token up or stops. -/
theorem recoverUntil_steps {boundaries : List TokenKind} {s : Parser} (hs : Ready n s)
    (hflag : Flagged s) : Steps s (recoverUntil boundaries) fun _ _ => True := by
  refine Steps.node (by decide) (fun _ => hflag) ?_
  refine Safe.loop (n := n) (fun lo => ?_) _ (hs.opened _)
  refine Reaches.read fun eof => Reaches.cond (fun _ => Reaches.pure (by simp)) fun _ => ?_
  refine Reaches.read fun found => Reaches.cond (fun _ => Reaches.pure (by simp)) fun _ => ?_
  exact Reaches.before fun i => Reaches.bind bump_safe fun _ => Reaches.moved

/-- An error is reported, and what cannot be read is passed over. -/
theorem recover_safe (message : String) (boundaries : List TokenKind) :
    Safe n (errorCurrent message >>= fun _ => recoverUntil boundaries) := by
  intro s hs
  refine Ends.bind (errorCurrent_ends message s) ?_
  rintro _ s' ⟨hran, -, hflag⟩
  exact Ends.mono (recoverUntil_steps (hs.ran hran) hflag) fun _ s'' h => ⟨hran.trans h.1, trivial⟩

theorem recover_bind {α : Type} {message : String} {boundaries : List TokenKind} {f : Unit → P α}
    (hf : ∀ a, Safe n (f a)) :
    Safe n (errorCurrent message >>= fun _ => recoverUntil boundaries >>= f) := by
  have h := (recover_safe (n := n) message boundaries).bind hf
  rwa [bind_assoc] at h

/-- The same, where the place is looked up before it is left. -/
theorem recover_read {α : Type} {message : String} {boundaries : List TokenKind}
    {f : Nat → Unit → P α} (hf : ∀ i a, Safe n (f i a)) :
    Safe n (errorCurrent message >>= fun _ => ask index >>= fun i =>
      recoverUntil boundaries >>= f i) := by
  intro s hs
  refine Ends.bind (errorCurrent_ends message s) ?_
  rintro _ s' ⟨hran, -, hflag⟩
  have hs' := hs.ran hran
  refine Ends.mono (Steps.read ((recoverUntil_steps hs' hflag).bind fun a s'' h _ =>
    hf s'.index a s'' (hs'.ran h))) fun _ s'' h => ⟨hran.trans h.1, trivial⟩

theorem recoverOne_steps {s : Parser} (hflag : Flagged s) :
    Steps s recoverOne fun _ i => s.index < s.tokens.length → s.index < i := by
  refine Steps.read (Steps.cond (fun heof => ?_) fun heof => ?_)
  · refine Steps.node (by decide) (fun _ => hflag) (Steps.pure fun h => ?_)
    have : s.tokens.length ≤ s.index := by simpa [atEof] using heof
    omega
  · refine Steps.node (by decide) (fun _ => hflag) ?_
    refine (bump_steps _).bind fun b s' _ hb => Steps.pure fun _ => ?_
    cases hkind : s.rawKind with
    | none => exact absurd (by simpa [atEof] using rawKind_eq_none hkind) heof
    | some kind =>
      rw [show (s.with (.Open (.Node .ErrorNode))).rawKind = s.rawKind from rfl, hkind] at hb
      have hindex : s'.index = s.index + 1 := hb.2
      omega

/-! ## Names and types -/

theorem parseQualifiedName_eats : Eats n parseQualifiedName := by
  intro lo
  apply Reaches.node (by decide) (by decide)
  refine Reaches.bind (consumeIf_safe _) fun _ => ?_
  intro s hs hlo
  refine (consumeName_eats _ lo s hs hlo).bind fun valid s' h hvalid => ?_
  -- a name was read when the answer is yes
  refine ends_loopWith (i := fun valid s'' => Ran [] s' s'' ∧ (valid = true → lo + 1 ≤ s''.index))
    (fun valid s'' hinv => ?_) ⟨Ran.refl s', hvalid⟩
  have hs'' := (hs.ran h).ran hinv.1
  refine Ends.mono (show Steps s'' _ fun r i =>
    (r.2 = true → s''.index < i) ∧ (r.1 = true → lo + 1 ≤ i) from ?_) ?_
  · refine Steps.read ?_
    refine Steps.bind (consumeIf_eats _ s''.index s'' hs'' (Nat.le_refl _)) fun sep s₃ h₃ hsep => ?_
    refine Steps.read (Steps.cond (fun _ => ?_) fun hgo => ?_)
    · exact Steps.pure ⟨nofun, fun hv => Nat.le_trans (hinv.2 hv) h₃.index⟩
    · have hless : s''.index < s₃.index := hsep (by simp at hgo; exact hgo.2)
      refine Steps.bind (consumeName_eats _ lo s₃ (hs''.ran h₃) ?_) fun v s₄ h₄ hv => ?_
      · have := h.index
        have := hinv.1.index
        omega
      · exact Steps.pure ⟨fun _ => Nat.lt_of_lt_of_le hless h₄.index, hv⟩
  · rintro ⟨v, again⟩ s₃ ⟨hran, hagain, hv⟩
    refine ⟨hran.tokens, (hran.good hs''.good).index, ?_⟩
    cases again with
    | true => exact ⟨⟨hinv.1.trans hran, hv⟩, hagain rfl⟩
    | false => exact ⟨hinv.1.trans hran, hv⟩

theorem parseQualifiedName_safe : Safe n parseQualifiedName := parseQualifiedName_eats.safe

theorem consumeMultiplicityBound_safe : Safe n consumeMultiplicityBound := by
  refine (consumeIf_safe _).bind fun _ => Safe.cond Safe.pure ?_
  refine (consumeIf_safe _).bind fun _ => Safe.cond Safe.pure ?_
  exact errorCurrent_safe _

theorem parseMultiplicity_safe : Safe n parseMultiplicity := by
  apply Safe.node (by decide) (by decide)
  refine (expect_safe _ _).bind fun _ => ?_
  refine consumeMultiplicityBound_safe.bind fun _ => ?_
  refine (consumeIf_safe _).bind fun _ => ?_
  refine Safe.bind (Safe.when ?_) fun _ => (expect_safe _ _).bind fun _ => Safe.pure
  exact (expect_safe _ _).bind fun _ => consumeMultiplicityBound_safe

theorem parseOptionalMultiplicity_safe : Safe n parseOptionalMultiplicity :=
  Safe.read fun _ => Safe.when parseMultiplicity_safe

/-- Depth is used up while a production runs, and given back. -/
theorem enterParseDepth_ends {s : Parser} (hs : Ready (n + 1) s) :
    Ends enterParseDepth s fun entered s' =>
      if entered then s' = { s with depth := s.depth + 1 } ∧ Ready n s' else Ran [] s s' := by
  refine Ends.bind (m := fun d s' => d = s.depth ∧ s = s') (Ends.ask ⟨rfl, rfl⟩) ?_
  rintro _ _ ⟨rfl, rfl⟩
  refine Ends.cond (fun _ => ?_) fun hdepth => ?_
  · refine Ends.bind (errorCurrent_ends _ s) ?_
    rintro _ s' ⟨hran, -, -⟩
    exact Ends.pure hran
  · refine Ends.bind (m := fun _ s' => s' = { s with depth := s.depth + 1 }) (Ends.change rfl) ?_
    rintro _ _ rfl
    refine Ends.pure ⟨rfl, ⟨hs.good.index, ?_, hs.good.events⟩, ?_⟩
    · show s.depth + 1 ≤ MAX_RECURSION_DEPTH
      omega
    · have hfuel := hs.fuel
      unfold weight at hfuel ⊢
      show MAX_RECURSION_DEPTH - (s.depth + 1) + (s.tokens.length - s.index) < n
      omega

/-- A production at a depth of its own is a step where it is one below. -/
theorem atDepth_eats {p : P Bool} (hp : ∀ lo, Reaches n lo (lo + 1) (· = true) p) :
    Eats (n + 1) (do
      if ← enterParseDepth then
        let parsed ← p
        leaveParseDepth
        return parsed
      else return false) := by
  intro lo s hs hlo
  refine Ends.bind (enterParseDepth_ends hs) fun entered s' h => ?_
  cases entered with
  | false => exact Ends.pure ⟨h, nofun⟩
  | true =>
    obtain ⟨rfl, hready⟩ := h
    refine Ends.bind (hp lo _ hready hlo) fun parsed s'' h => ?_
    refine Ends.bind (m := fun _ s₃ => s₃ = { s'' with depth := s''.depth - 1 })
      (Ends.change rfl) ?_
    rintro _ _ rfl
    refine Ends.pure ⟨⟨h.1.tokens, ?_, h.1.index, h.1.diagnostics, h.1.events⟩, h.2⟩
    have hdepth : s''.depth = s.depth + 1 := h.1.depth
    show s''.depth - 1 = s.depth
    omega

/-- The productions that the others come back to are steps, where there is
fuel for them. -/
structure Fueled (n : Nat) (recur : Recur) : Prop where
  expression : ∀ minimum, Eats n (recur.expression minimum)
  type_reference : Eats n recur.type_reference
  primary_expression : Safe (n - 1) recur.primary_expression

section Productions

variable {self : Recur} (h : Fueled n self)
include h

theorem expression_safe (minimum : Nat) : Safe n (self.expression minimum) :=
  (h.expression minimum).safe

theorem type_reference_safe : Safe n self.type_reference := h.type_reference.safe

theorem parseColumnInfo_safe : Safe n (parseColumnInfo self) := by
  apply Safe.node (by decide) (by decide)
  refine (consumeName_safe _).bind fun _ => (expect_safe _ _).bind fun _ => ?_
  exact (type_reference_safe h).bind fun _ => parseOptionalMultiplicity_safe

omit h in
/-- A list whose members are steps, with a comma behind each but the last. -/
theorem commaLoop_eats {α : Type} {p : P α} (hp : Safe n p) : Eats n (do
    let before ← ask index
    let _ ← p
    let has_comma ← consumeIf .Comma
    if !(← moved before) || !has_comma then return false else return true) := by
  intro lo
  refine Reaches.before fun i => Reaches.bind hp fun _ => ?_
  refine Reaches.bind (consumeIf_safe _) fun comma => ?_
  exact Reaches.sinceMoved (Safe.cond Safe.pure Safe.pure) (Reaches.stop rfl (by simp))

theorem parseRelationType_safe : Safe n (parseRelationType self) := by
  apply Safe.node (by decide) (by decide)
  refine (expect_safe _ _).bind fun _ => Safe.read fun _ => ?_
  refine Safe.bind (Safe.when ?_) fun _ => (expect_safe _ _).bind fun _ => Safe.pure
  exact Safe.loop (commaLoop_eats (parseColumnInfo_safe h))

theorem parseTypeArguments_safe : Safe n (parseTypeArguments self) := by
  refine Safe.read fun _ => Safe.cond (parseRelationType_safe h) ?_
  exact Safe.loop (commaLoop_eats (type_reference_safe h))

theorem parseTypeReference_eats : Eats (n + 1) (parseTypeReference self) := by
  refine atDepth_eats fun lo => ?_
  apply Reaches.node (by decide) (by decide)
  refine (parseQualifiedName_eats lo).after (fun valid hvalid => ?_) fun valid hvalid => ?_
  · apply Safe.reaches
    refine (consumeIf_safe _).bind fun _ => Safe.cond ?_ Safe.pure
    exact (parseTypeArguments_safe h).bind fun _ => (expect_safe _ _).bind fun _ => Safe.pure
  · refine Reaches.bind (consumeIf_safe _) fun _ => Reaches.cond (fun _ => ?_) fun _ => ?_
    · refine Reaches.bind (parseTypeArguments_safe h) fun _ => ?_
      refine Reaches.bind (expect_safe _ _) fun _ => Reaches.pure ?_
      simp [hvalid]
    · exact Reaches.pure fun hv => absurd hv hvalid

theorem parseOptionalParameterType_safe : Safe n (parseOptionalParameterType self) := by
  refine (consumeIf_safe _).bind fun _ => Safe.when ?_
  exact (type_reference_safe h).bind fun _ => parseOptionalMultiplicity_safe

/-! ## Call arguments -/

/-- An expression, or an error and a recovery where there is none. -/
theorem expressionOr_safe (minimum : Nat) (message : String) (boundaries : List TokenKind) :
    Safe n (do
      when (!(← self.expression minimum)) do
        errorCurrent message
        recoverUntil boundaries) :=
  (expression_safe h minimum).bind fun _ => Safe.when (recover_safe message boundaries)

theorem parseArgument_safe (allow_named : Bool) : Safe n (parseArgument self allow_named) := by
  refine Safe.read fun _ => Safe.bind (Safe.when ?_) fun _ => expressionOr_safe h _ _ _
  exact (consumeName_safe _).bind fun _ => (expect_safe _ _).bind fun _ => Safe.pure

omit h in
/-- Reports an error and stops. -/
theorem errorStop_safe (message : String) :
    Safe n (errorCurrent message >>= fun _ => (pure false : P Bool)) :=
  (errorCurrent_safe message).bind fun _ => Safe.pure

theorem parseArgumentList_safe (allow_named : Bool) :
    Safe n (parseArgumentList self allow_named) := by
  refine Safe.read fun _ => Safe.cond Safe.pure (Safe.loop fun lo => Reaches.before fun i => ?_)
  refine Reaches.bind (parseArgument_safe h allow_named) fun _ => ?_
  refine Reaches.bind consumeTrivia_safe fun _ => Reaches.read fun _ => ?_
  refine Reaches.cond (fun _ => Reaches.pure (by simp)) fun _ => ?_
  refine Reaches.bind (consumeIf_safe _) fun _ => ?_
  refine Reaches.sinceMoved ?_ (Reaches.stop rfl (by simp))
  refine Safe.cond Safe.pure (Safe.cond (Safe.read fun _ => ?_) ?_)
  · exact Safe.cond (errorStop_safe _) Safe.pure
  · refine Safe.read fun _ => Safe.read fun _ => Safe.cond Safe.pure ?_
    refine recover_bind fun _ => Safe.read fun _ => Safe.cond Safe.pure ?_
    exact Safe.ask

theorem parseCallArguments_safe (allow_named : Bool) :
    Safe n (parseCallArguments self allow_named) := by
  apply Safe.node (by decide) (by decide)
  refine (expect_safe _ _).bind fun _ => ?_
  refine Safe.bind (Safe.when (parseArgumentList_safe h allow_named)) fun _ => ?_
  exact (expect_safe _ _).bind fun _ => Safe.pure

/-! ## Statements and lambdas -/

/-- Where there is a token, a query uses one up. -/
theorem parseQueryExpression_steps {s : Parser} (hs : Ready n s) :
    Steps s (parseQueryExpression self) fun _ i => s.index < s.tokens.length → s.index < i := by
  refine Steps.node (by decide) nofun ?_
  refine Steps.bind (h.expression _ s.index _ (hs.opened _) (Nat.le_refl _)) fun parsed s₁ h₁ hb => ?_
  cases parsed with
  | true => exact Steps.when nofun fun _ _ => hb rfl
  | false =>
    refine Steps.when (fun _ => ?_) nofun
    refine Ends.bind (errorCurrent_ends _ s₁) ?_
    rintro _ s₂ ⟨hran, hindex, hflag⟩
    refine Ends.mono (recoverOne_steps hflag) fun _ s₃ h₃ => ⟨hran.trans h₃.1, fun hless => ?_⟩
    have hle : s.index ≤ s₁.index := h₁.index
    have hle' := h₃.1.index
    have htokens : s₂.tokens = s.tokens := hran.tokens.trans h₁.tokens
    have hmoved := h₃.2
    rw [htokens] at hmoved
    omega

theorem parseQueryExpression_safe : Safe n (parseQueryExpression self) := fun _ hs =>
  (parseQueryExpression_steps h hs).mono fun _ _ _ _ => trivial

theorem parseLetStatement_safe : Safe n (parseLetStatement self) := by
  apply Safe.node (by decide) (by decide)
  refine (expect_safe _ _).bind fun _ => (consumeName_safe _).bind fun _ => ?_
  exact (expect_safe _ _).bind fun _ => expressionOr_safe h _ _ _

theorem parseStatement_safe : Safe n (parseStatement self) :=
  Safe.read fun _ => Safe.cond (parseLetStatement_safe h) (parseQueryExpression_safe h)

theorem parseCodeBlock_safe : Safe n (parseCodeBlock self) := by
  apply Safe.node (by decide) (by decide)
  refine Safe.loop fun lo => Reaches.read fun _ => ?_
  refine Reaches.cond (fun _ => Reaches.pure (by simp)) fun _ => Reaches.before fun i => ?_
  refine Reaches.bind (parseStatement_safe h) fun _ => ?_
  refine Reaches.bind consumeTrivia_safe fun _ => Reaches.bind (consumeIf_safe _) fun _ => ?_
  refine Reaches.sinceMoved (Safe.cond Safe.pure (Safe.cond Safe.pure ?_))
    (Reaches.stop rfl (by simp))
  exact consumeTrivia_safe.bind fun _ => Safe.pure

theorem parseLambdaParameters_safe : Safe n (parseLambdaParameters self) := by
  refine Safe.read fun _ => Safe.cond Safe.pure (Safe.node (by decide) (by decide) ?_)
  refine Safe.loop fun lo => Reaches.before fun i => Reaches.bind (consumeName_safe _) fun _ => ?_
  refine Reaches.bind (parseOptionalParameterType_safe h) fun _ => ?_
  refine Reaches.bind (consumeIf_safe _) fun _ => ?_
  exact Reaches.sinceMoved (Safe.cond Safe.pure Safe.pure) (Reaches.stop rfl (by simp))

/-! ## Primary expressions -/

omit h in
/-- Where no trivia stand there are none to pass over. -/
theorem consumeTrivia_still {s : Parser} (hindex : s.index ≤ s.tokens.length)
    (hs : s.rawKind.any isTrivia = false) : Ends consumeTrivia s fun _ s' => s = s' := by
  refine ends_loopWith (i := fun _ s' => s = s') ?_ rfl
  rintro _ _ rfl
  refine Ends.bind (m := fun again s' => again = false ∧ s = s') ?_ ?_
  · refine Ends.bind (m := fun kind s' => kind = s.rawKind ∧ s = s') (Ends.ask ⟨rfl, rfl⟩) ?_
    rintro _ _ ⟨rfl, rfl⟩
    exact Ends.cond (fun h => by simp [hs] at h) fun _ => Ends.pure ⟨rfl, rfl⟩
  · rintro _ _ ⟨rfl, rfl⟩
    exact Ends.pure ⟨rfl, hindex, rfl⟩

omit h in
/-- Where the parser stands at such a token, it uses it up. -/
theorem expect_steps {kind : TokenKind} {expected : String} {s : Parser}
    (hindex : s.index ≤ s.tokens.length) (hkind : s.rawKind = some kind)
    (htrivia : isTrivia kind = false) :
    Steps s (expect kind expected) fun _ i => s.index < i := by
  refine Ends.bind (consumeTrivia_still hindex (by simp [hkind, htrivia])) ?_
  rintro _ _ rfl
  refine Steps.read (Steps.cond (fun _ => ?_) fun hne => absurd hkind hne)
  refine (bump_steps s).mono fun b i _ hb => ?_
  simp only [hkind, Option.isSome_some, if_true] at hb
  omega

omit h in
/-- Two answers are both yes only when the first is. -/
theorem Reaches.both {lo hi : Nat} {p : P Bool} {f : Bool → P Bool}
    (hp : Reaches n lo hi (· = true) p) (hyes : Safe n (f true))
    (hno : Reaches n lo hi (· = true) (f false)) : Reaches n lo hi (· = true) (p >>= f) := by
  refine hp.after (fun b hb => ?_) fun b hb => ?_
  · rw [show b = true from hb]
    exact hyes.reaches
  · rw [show b = false by simpa using hb]
    exact hno

omit h in
theorem parseVariableExpression_eats : Eats n parseVariableExpression := by
  intro lo
  apply Reaches.node (by decide) (by decide)
  refine (expect_eats _ _ lo).both ?_ ?_
  · exact (consumeName_safe _).bind fun _ => Safe.pure
  · exact Reaches.bind (consumeName_safe _) fun _ => Reaches.pure nofun

omit h in
theorem parseLiteralExpression_eats : Eats n parseLiteralExpression := fun lo =>
  Reaches.node (by decide) (by decide) (bump_eats lo)

theorem parseParenthesizedItems_safe : Safe n (parseParenthesizedItems self) := by
  refine Safe.read fun _ => Safe.cond Safe.pure (Safe.loop fun lo => Reaches.before fun i => ?_)
  refine Reaches.bind (expression_safe h _) fun _ => ?_
  refine Reaches.bind (Safe.when (recover_safe _ _)) fun _ => ?_
  refine Reaches.bind (consumeIf_safe _) fun _ => ?_
  refine Reaches.sinceMoved (Safe.cond Safe.pure (Safe.read fun _ => ?_))
    (Reaches.stop rfl (by simp))
  exact Safe.cond (errorStop_safe _) Safe.pure

theorem parseParenthesizedExpression_eats : Eats n (parseParenthesizedExpression self) := by
  intro lo
  apply Reaches.node (by decide) (by decide)
  refine (expect_eats _ _ lo).both ?_ ?_
  · exact (parseParenthesizedItems_safe h).bind fun _ => (expect_safe _ _).bind fun _ => Safe.pure
  · refine Reaches.bind (parseParenthesizedItems_safe h) fun _ => ?_
    exact Reaches.bind (expect_safe _ _) fun _ => Reaches.pure nofun

theorem parseCollectionItems_safe : Safe n (parseCollectionItems self) := by
  refine Safe.read fun _ => Safe.cond Safe.pure (Safe.loop fun lo => Reaches.before fun i => ?_)
  refine Reaches.bind (expression_safe h _) fun _ => ?_
  refine Reaches.bind (Safe.when (recover_safe _ _)) fun _ => ?_
  refine Reaches.bind consumeTrivia_safe fun _ => Reaches.read fun _ => ?_
  refine Reaches.cond (fun _ => Reaches.pure (by simp)) fun _ => ?_
  refine Reaches.bind (consumeIf_safe _) fun _ => ?_
  refine Reaches.sinceMoved ?_ (Reaches.stop rfl (by simp))
  refine Safe.cond Safe.pure (Safe.cond (Safe.read fun _ => ?_) ?_)
  · exact Safe.cond (errorStop_safe _) Safe.pure
  · refine Safe.read fun _ => Safe.read fun _ => Safe.cond Safe.pure ?_
    refine recover_read fun _ _ => Safe.read fun _ => Safe.read fun _ => Safe.read fun _ => ?_
    refine Safe.cond Safe.pure (Safe.read fun _ => Safe.cond Safe.pure ?_)
    refine (consumeIf_safe _).bind fun _ => Safe.read fun _ => ?_
    exact Safe.cond (errorStop_safe _) Safe.pure

theorem parseCollectionLiteral_eats : Eats n (parseCollectionLiteral self) := by
  intro lo
  apply Reaches.node (by decide) (by decide)
  refine Reaches.bind (expect_safe _ _) fun _ => ?_
  exact Reaches.bind (parseCollectionItems_safe h) fun _ => expect_eats _ _ lo

theorem parseBracedLambda_eats : Eats n (parseBracedLambda self) := by
  intro lo
  apply Reaches.node (by decide) (by decide)
  refine Reaches.bind (expect_safe _ _) fun _ => ?_
  refine Reaches.bind (parseLambdaParameters_safe h) fun _ => (expect_eats _ _ lo).both ?_ ?_
  · exact (parseCodeBlock_safe h).bind fun _ => (expect_safe _ _).bind fun _ => Safe.pure
  · refine Reaches.bind (parseCodeBlock_safe h) fun _ => ?_
    exact Reaches.bind (expect_safe _ _) fun _ => Reaches.pure nofun

theorem parseShortLambda_eats : Eats n (parseShortLambda self) := by
  intro lo
  apply Reaches.node (by decide) (by decide)
  refine Reaches.bind (Safe.node (by decide) (by decide) ?_) fun _ => ?_
  · exact (consumeName_safe _).bind fun _ => parseOptionalParameterType_safe h
  · refine (expect_eats _ _ lo).both ?_ ?_
    · exact (parseCodeBlock_safe h).bind fun _ => Safe.pure
    · exact Reaches.bind (parseCodeBlock_safe h) fun _ => Reaches.pure nofun

theorem parseParameterlessLambda_eats : Eats n (parseParameterlessLambda self) := by
  intro lo
  apply Reaches.node (by decide) (by decide)
  refine (expect_eats _ _ lo).both ?_ ?_
  · exact (parseCodeBlock_safe h).bind fun _ => Safe.pure
  · exact Reaches.bind (parseCodeBlock_safe h) fun _ => Reaches.pure nofun

theorem parseNewInstanceExpression_eats : Eats n (parseNewInstanceExpression self) := by
  intro lo
  apply Reaches.node (by decide) (by decide)
  refine Reaches.bind (expect_safe _ _) fun _ => Reaches.both ?_ ?_ ?_
  · refine Reaches.read fun _ => Reaches.cond (fun _ => ?_) fun _ => ?_
    · exact parseVariableExpression_eats lo
    · exact parseQualifiedName_eats lo
  · refine Safe.read fun _ => Safe.bind (Safe.when ?_) fun _ => Safe.pure
    exact parseCallArguments_safe h true
  · refine Reaches.read fun _ => Reaches.bind (Safe.when ?_) fun _ => Reaches.pure nofun
    exact parseCallArguments_safe h true

theorem parseCastExpression_eats : Eats n (parseCastExpression self) := by
  intro lo
  apply Reaches.node (by decide) (by decide)
  exact Reaches.bind (expect_safe _ _) fun _ => h.type_reference lo

/-! ## Column specifications -/

omit h in
/-- A column name uses a token up, or an error is reported where it should stand. -/
theorem parseColumnName_ends {s : Parser} (hs : Ready n s) :
    Ends parseColumnName s fun b s' => Ran [] s s' ∧
      if b then s.index < s'.index else Flagged s' := by
  refine Ends.bind (consumeTrivia_safe s hs) fun _ s₁ h₁ => ?_
  refine Ends.bind (m := fun kind s' => kind = s₁.rawKind ∧ s₁ = s') (Ends.ask ⟨rfl, rfl⟩) ?_
  rintro _ _ ⟨rfl, rfl⟩
  refine Ends.cond (fun hname => ?_) fun _ => ?_
  · have hbump : Steps s₁ (node .ColumnName (bump >>= fun _ => pure ())) fun _ i =>
        s₁.index < i := by
      refine Steps.node (by decide) nofun ((bump_steps _).bind fun b s₂ _ hb => Steps.pure ?_)
      cases hkind : s₁.rawKind with
      | none => simp [hkind] at hname
      | some kind =>
        rw [show (s₁.with (.Open (.Node .ColumnName))).rawKind = s₁.rawKind from rfl, hkind] at hb
        have hindex : s₂.index = s₁.index + 1 := hb.2
        omega
    refine Ends.bind hbump fun _ s₂ h₂ => Ends.pure ⟨h₁.1.trans h₂.1, ?_⟩
    exact Nat.lt_of_le_of_lt h₁.1.index h₂.2
  · refine Ends.bind (errorCurrent_ends _ s₁) ?_
    rintro _ s₂ ⟨hran, -, hflag⟩
    exact Ends.pure ⟨h₁.1.trans hran, hflag⟩

theorem parseColumnSpecHead_safe : Safe (n - 1) (parseColumnSpecHead self) := by
  refine Safe.read fun _ => Safe.cond ?_ ?_
  · exact h.primary_expression.bind fun _ => Safe.pure
  · refine Safe.mono ?_ (Nat.sub_le n 1)
    exact (type_reference_safe h).bind fun _ => parseOptionalMultiplicity_safe

theorem parseColumnSpecBody_safe : Safe (n - 1) (parseColumnSpecBody self) := by
  refine (parseColumnSpecHead_safe h).bind fun _ => (consumeIf_safe _).bind fun _ => ?_
  refine Safe.when (Safe.read fun _ => Safe.cond ?_ (errorCurrent_safe _))
  exact h.primary_expression.bind fun _ => Safe.pure

/-- The body comes behind a colon, so it can do with less fuel. -/
theorem columnSpecRest_safe :
    Safe n (consumeIf .Colon >>= fun has_colon => when has_colon (parseColumnSpecBody self)) :=
  (consumeIf_eats _).safe_bind (Safe.when (parseColumnSpecBody_safe h))
    fun _ _ => Steps.when nofun fun _ => trivial

/-- A specification without its tilde, which got nowhere, was reported. -/
theorem parseColumnSpec_ends {s : Parser} (hs : Ready n s) (has_tilde : Bool) :
    Ends (parseColumnSpec self has_tilde) s fun b s' => Ran [] s s' ∧
      (b = true → s.index < s'.index) ∧ (s'.index = s.index → Flagged s') := by
  refine Ends.bind (m := fun _ s' => s' = s.with (.Open (.Node .ColumnSpec)))
    (Ends.change rfl) ?_
  rintro _ _ rfl
  have hopened := Ran.opened .ColumnSpec s
  have hs₀ := hs.ran hopened
  refine Ends.bind (m := fun b s' => Ran [] (s.with (.Open (.Node .ColumnSpec))) s' ∧
    (b = true → s.index < s'.index) ∧ (s'.index = s.index → Flagged s')) ?_ ?_
  · have htilde : Safe n (when has_tilde do
        let _ ← expect .Tilde "`~` before a column name") :=
      Safe.when ((expect_safe _ _).bind fun _ => Safe.pure)
    refine Ends.bind (htilde _ hs₀) fun _ s₁ h₁ => ?_
    have hs₁ := hs₀.ran h₁.1
    refine Ends.bind (parseColumnName_ends hs₁) fun name s₂ h₂ => ?_
    have hle : s.index ≤ s₁.index := h₁.1.index
    have hrest := columnSpecRest_safe h s₂ (hs₁.ran h₂.1)
    suffices hend : Ends (_ >>= fun _ => pure name) s₂ _ by rwa [bind_assoc] at hend
    refine Ends.bind hrest fun _ s₃ h₃ => Ends.pure ⟨h₁.1.trans (h₂.1.trans h₃.1), ?_⟩
    have hle' := h₃.1.index
    have hname := h₂.2
    cases name with
    | true =>
      have hless : s₁.index < s₂.index := hname
      exact ⟨fun _ => by omega, fun heq => by omega⟩
    | false =>
      have hle'' := h₂.1.index
      exact ⟨nofun, fun heq => hname.ran h₃.1 (by omega)⟩
  · rintro b s' ⟨hran, hname, hflag⟩
    refine Ends.bind (m := fun _ s'' => s'' = s'.with .Close) (Ends.change rfl) ?_
    rintro _ _ rfl
    exact Ends.pure ⟨(hopened.trans hran).closed (by decide) nofun, hname, hflag⟩

theorem parseColumnSpec_eats (has_tilde : Bool) : Eats n (parseColumnSpec self has_tilde) :=
  fun _ _ hs hlo => Ends.mono (parseColumnSpec_ends h hs has_tilde) fun _ _ hspec =>
    ⟨hspec.1, fun hyes => Nat.lt_of_le_of_lt hlo (hspec.2.1 hyes)⟩

omit h in
theorem recoverColumnSpec_steps {s : Parser} (hs : Ready n s) (hflag : Flagged s) :
    Steps s recoverColumnSpec fun b i => b = true → s.index + 1 ≤ i := by
  refine (recoverUntil_steps hs hflag).bind fun _ s' hran _ => ?_
  refine Reaches.read (fun _ => ?_) s' (hs.ran hran) hran.index
  refine Reaches.cond (fun _ => ?_) fun _ => Reaches.pure nofun
  refine Reaches.before fun i => (consumeIf_eats _ i).both ?_ ?_
  · refine Safe.read fun _ => Safe.cond ?_ Safe.pure
    exact Safe.read fun _ => Safe.read fun _ => Safe.cond (errorStop_safe _) Safe.pure
  · refine Reaches.read fun _ => Reaches.cond (fun hyes => ?_) fun _ => Reaches.pure nofun
    simp at hyes

/-- One turn of the members: it gets somewhere, or it recovers from the error it reported. -/
theorem parseColumnSpecArrayItems_safe : Safe n (parseColumnSpecArrayItems self) := by
  refine Safe.read fun _ => Safe.cond Safe.pure (Safe.loop fun lo => Reaches.before fun i => ?_)
  intro s hs hlo
  refine Ends.bind (parseColumnSpec_ends h hs false) fun _ s₁ h₁ => ?_
  have hs₁ := hs.ran h₁.1
  refine Ends.bind (consumeTrivia_safe s₁ hs₁) fun _ s₂ h₂ => ?_
  refine Ends.bind (m := fun _ s' => s₂ = s') (Ends.ask rfl) ?_
  rintro semicolon _ rfl
  refine Ends.cond (fun _ => Ends.pure ⟨h₁.1.trans h₂.1, nofun⟩) fun _ => ?_
  refine Ends.bind (consumeIf_safe _ s₂ (hs₁.ran h₂.1)) fun comma s₃ h₃ => ?_
  have hran : Ran [] s₁ s₃ := h₂.1.trans h₃.1
  have hs₃ := hs₁.ran hran
  have hle : s.index ≤ s₁.index := h₁.1.index
  have hle' : s₁.index ≤ s₃.index := hran.index
  refine Ends.bind (m := fun b s' => b = decide (s₃.index ≠ i) ∧ s₃ = s') (Ends.ask ⟨rfl, rfl⟩) ?_
  rintro _ _ ⟨rfl, rfl⟩
  by_cases hmoved : s₃.index = i
  · have hflag : Flagged s₃ := (h₁.2.2 (by omega)).ran hran (by omega)
    rw [if_pos (by simp [hmoved])]
    refine Ends.mono (recoverColumnSpec_steps hs₃ hflag) fun b s' hb => ?_
    exact ⟨h₁.1.trans (hran.trans hb.1), fun hyes => hmoved ▸ hb.2 hyes⟩
  · rw [if_neg (by simp [hmoved])]
    refine Ends.mono (show Steps s₃ _ fun _ _ => True from ?_) fun b s' hb =>
      ⟨h₁.1.trans (hran.trans hb.1), fun _ => ?_⟩
    · refine Safe.cond ?_ ?_ s₃ hs₃
      · refine Safe.read fun _ => Safe.read fun _ => ?_
        exact Safe.cond (errorStop_safe _) Safe.pure
      · refine Safe.read fun _ => Safe.read fun _ => Safe.cond Safe.pure ?_
        refine recover_read fun _ _ => Safe.read fun _ => Safe.read fun _ => Safe.read fun _ => ?_
        refine Safe.cond Safe.pure (Safe.read fun _ => Safe.cond Safe.pure ?_)
        refine (consumeIf_safe _).bind fun _ => Safe.read fun _ => Safe.read fun _ => ?_
        exact Safe.cond (errorStop_safe _) Safe.pure
    · have := hb.1.index
      omega

/-- The array starts with a tilde, so it uses a token up. -/
theorem parseColumnSpecArray_steps {s : Parser} (hs : Ready n s) (hkind : s.rawKind = some .Tilde) :
    Steps s (parseColumnSpecArray self) fun _ i => s.index < i := by
  refine Steps.bind (q := fun _ i => s.index < i) ?_ fun _ s' _ hless => ?_
  · refine Steps.node (by decide) nofun ?_
    refine Steps.bind (expect_steps hs.good.index hkind rfl) fun _ s₁ h₁ hless => ?_
    refine Steps.mono (Safe.bind (expect_safe _ _) (fun _ => ?_) s₁ ((hs.opened _).ran h₁)) ?_
    · exact (parseColumnSpecArrayItems_safe h).bind fun _ => expect_safe _ _
    · exact fun _ i hi _ => Nat.lt_of_lt_of_le hless hi
  · exact Steps.read (Steps.pure hless)

theorem parseColumnBuilder_steps {s : Parser} (hs : Ready n s) (hkind : s.rawKind = some .Tilde) :
    Steps s (parseColumnBuilder self) fun b i => b = true → s.index < i := by
  refine Steps.read (Steps.cond (fun _ => ?_) fun _ => ?_)
  · exact (parseColumnSpecArray_steps h hs hkind).mono fun _ _ _ hless _ => hless
  · exact parseColumnSpec_eats h true s.index s hs (Nat.le_refl _)

/-! ## Islands -/

omit h in
theorem bump_moves {s : Parser} (hkind : s.rawKind.isSome) :
    Steps s bump fun _ i => s.index < i :=
  (bump_steps s).mono fun b i _ hb => by
    rw [if_pos hkind] at hb
    omega

omit h in
theorem unterminatedIsland_ends (s : Parser) :
    Ends unterminatedIsland s fun _ s' => Ran [] s s' ∧ s'.index = s.index ∧ Flagged s' := by
  let d : Diagnostic := ⟨.UnterminatedIsland, .Error, "unterminated island",
    ⟨s.file, s.currentSpan⟩⟩
  have hdiagnosed := Ran.diagnosed s d
  have hflag : Flagged { s with diagnostics := s.diagnostics ++ [d] } :=
    ⟨d, List.mem_append_right _ (List.mem_singleton_self _), rfl⟩
  exact ⟨(), _, rfl, hdiagnosed.trans ((Ran.opened .ErrorNode _).closed (by decide)
    fun _ => hflag), rfl, hflag⟩

omit h in
theorem unterminatedIsland_safe : Safe n unterminatedIsland := fun s _ =>
  Ends.mono (unterminatedIsland_ends s) fun _ _ h => ⟨h.1, trivial⟩

omit h in
theorem recoverIslandEnd_steps {s : Parser} (hs : Ready n s) (hflag : Flagged s) :
    Steps s recoverIslandEnd fun _ _ => True := by
  refine Steps.node (by decide) (fun _ => hflag) (Safe.bind (Safe.loop fun lo => ?_)
    (fun _ => (consumeIf_safe _).bind fun _ => Safe.pure) _ (hs.opened _))
  refine Reaches.read fun _ => Reaches.read fun _ => ?_
  refine Reaches.cond (fun _ => Reaches.pure (by simp)) fun _ => ?_
  exact Reaches.before fun i => Reaches.bind bump_safe fun _ => Reaches.moved

omit h in
theorem unterminated_safe : Safe n (unterminatedIsland >>= fun _ => recoverIslandEnd) := by
  intro s hs
  refine Ends.bind (unterminatedIsland_ends s) ?_
  rintro _ s' ⟨hran, -, hflag⟩
  exact Ends.mono (recoverIslandEnd_steps (hs.ran hran) hflag) fun _ _ h =>
    ⟨hran.trans h.1, trivial⟩

omit h in
theorem parseStoreTablePointer_eats : Eats n parseStoreTablePointer := by
  intro lo
  refine Reaches.node (by decide) (by decide) (Reaches.node (by decide) (by decide) ?_)
  refine Reaches.bind (expect_safe _ _) fun _ => (parseQualifiedName_eats lo).both ?_ ?_
  · refine (expect_safe _ _).bind fun _ => (consumeName_safe _).bind fun _ => ?_
    refine (consumeIf_safe _).bind fun _ => ?_
    exact Safe.bind (Safe.when unterminated_safe) fun _ => Safe.pure
  · refine Reaches.bind (expect_safe _ _) fun _ => Reaches.bind (consumeName_safe _) fun _ => ?_
    refine Reaches.bind (consumeIf_safe _) fun _ => ?_
    exact Reaches.bind (Safe.when unterminated_safe) fun _ => Reaches.pure nofun

omit h in
theorem parseNavigationPathIsland_eats : Eats n parseNavigationPathIsland := fun lo =>
  Reaches.node (by decide) (by decide) (Reaches.node (by decide) (by decide) (bump_eats lo))

omit h in
/-- An island that starts with a token uses it up. -/
theorem island_steps {s : Parser} (hs : Ready n s) (hkind : s.rawKind.isSome) {f : Bool → P Bool}
    (hf : ∀ b, Safe n (f b)) :
    Steps s (node .Island (node .OpaqueIsland (bump >>= f))) fun _ i => s.index < i := by
  refine Steps.node (by decide) nofun (Steps.node (by decide) nofun ?_)
  refine Steps.bind (bump_moves (by exact hkind)) fun b s' h hless => ?_
  refine (hf b s' (((hs.opened _).opened _).ran h)).mono fun _ i hi _ => ?_
  exact Nat.lt_of_lt_of_le hless hi

omit h in
theorem parseBracedOpaqueIsland_steps {s : Parser} (hs : Ready n s) (hkind : s.rawKind.isSome) :
    Steps s parseBracedOpaqueIsland fun _ i => s.index < i := by
  refine island_steps hs hkind fun _ => Safe.bind (Safe.loopWith fun lo delimiters => ?_) fun _ => ?_
  · refine Reaches.read fun _ => Reaches.cond (fun _ => Reaches.pure (by simp)) fun _ => ?_
    refine Reaches.before fun i => Reaches.read fun _ => Reaches.bind bump_safe fun _ => ?_
    exact Reaches.cond (fun _ => Reaches.pure (by simp)) fun _ => Reaches.turn
  · exact Safe.cond Safe.pure (unterminatedIsland_safe.bind fun _ => Safe.pure)

omit h in
theorem parseHashOpaqueIsland_steps {s : Parser} (hs : Ready n s) (hkind : s.rawKind.isSome) :
    Steps s parseHashOpaqueIsland fun _ i => s.index < i := by
  refine island_steps hs hkind fun _ => Safe.bind (Safe.loopWith fun lo closed => ?_) fun _ => ?_
  · refine Reaches.read fun _ => Reaches.cond (fun _ => Reaches.pure (by simp)) fun _ => ?_
    refine Reaches.before fun i => Reaches.read fun _ => Reaches.bind bump_safe fun _ => ?_
    exact Reaches.cond (fun _ => Reaches.pure (by simp)) fun _ => Reaches.turn
  · exact Safe.cond Safe.pure (unterminatedIsland_safe.bind fun _ => Safe.pure)

omit h in
theorem parseIsland_steps {s : Parser} (hs : Ready n s) (hkind : s.rawKind.isSome) :
    Steps s parseIsland fun b i => b = true → s.index < i := by
  refine Steps.read ?_
  split
  · exact parseStoreTablePointer_eats s.index s hs (Nat.le_refl _)
  · exact parseNavigationPathIsland_eats s.index s hs (Nat.le_refl _)
  · exact (parseBracedOpaqueIsland_steps hs hkind).mono fun _ _ _ hless _ => hless
  · exact (parseHashOpaqueIsland_steps hs hkind).mono fun _ _ _ hless _ => hless
  · exact Steps.pure nofun

omit h in
/-- A bad token is an error node of its own, and using it up reports it. -/
theorem parseBadToken_steps {s : Parser} (hkind : s.rawKind = some .Error) :
    Steps s parseBadToken fun b i => b = true → s.index < i := by
  refine Ends.bind (m := fun _ s' => s' = s.with (.Open (.Node .ErrorNode))) (Ends.change rfl) ?_
  rintro _ _ rfl
  refine Ends.bind (bump_reports (s := s.with (.Open (.Node .ErrorNode))) hkind) ?_
  rintro b s' ⟨hran, hless, hreported⟩
  refine Ends.bind (m := fun _ s'' => s'' = s'.with .Close) (Ends.change rfl) ?_
  rintro _ _ rfl
  refine Ends.pure ⟨?_, fun _ => hless⟩
  exact ((Ran.opened .ErrorNode s).trans hran).closed (by decide) fun _ => hreported

theorem parsePrimaryExpression_eats : Eats n (parsePrimaryExpression self) := by
  intro lo s hs hlo
  refine (consumeTrivia_safe s hs).bind fun _ s' hran _ => Steps.read ?_
  have hs' := hs.ran hran
  have hlo' := Nat.le_trans hlo hran.index
  have hfrom : ∀ {p : P Bool}, Steps s' p (fun b i => b = true → s'.index < i) →
      Steps s' p fun b i => b = true → lo + 1 ≤ i := fun hp =>
    hp.mono fun _ i _ hless hb => Nat.lt_of_le_of_lt hlo' (hless hb)
  cases hkind : s'.rawKind with
  | none => exact Steps.pure nofun
  | some kind =>
    have hsome : s'.rawKind.isSome := by simp [hkind]
    dsimp only
    split
    · exact parseVariableExpression_eats lo s' hs' hlo'
    · exact parseLiteralExpression_eats lo s' hs' hlo'
    · exact parseLiteralExpression_eats lo s' hs' hlo'
    · exact parseLiteralExpression_eats lo s' hs' hlo'
    · exact parseLiteralExpression_eats lo s' hs' hlo'
    · exact parseLiteralExpression_eats lo s' hs' hlo'
    · exact parseLiteralExpression_eats lo s' hs' hlo'
    · exact parseParenthesizedExpression_eats h lo s' hs' hlo'
    · exact parseCollectionLiteral_eats h lo s' hs' hlo'
    · exact parseBracedLambda_eats h lo s' hs' hlo'
    · exact parseParameterlessLambda_eats h lo s' hs' hlo'
    · exact hfrom (parseColumnBuilder_steps h hs' hkind)
    · exact parseNewInstanceExpression_eats h lo s' hs' hlo'
    · exact parseCastExpression_eats h lo s' hs' hlo'
    · exact hfrom (parseIsland_steps hs' hsome)
    · exact hfrom (parseIsland_steps hs' hsome)
    · exact hfrom (parseIsland_steps hs' hsome)
    · exact hfrom (parseIsland_steps hs' hsome)
    · exact hfrom (parseBadToken_steps hkind)
    · refine Steps.read (Steps.cond (fun _ => ?_) fun _ => Steps.cond (fun _ => ?_) fun _ => ?_)
      · exact parseShortLambda_eats h lo s' hs' hlo'
      · exact parseQualifiedName_eats lo s' hs' hlo'
      · exact Steps.pure nofun

/-! ## Chains and operators -/

omit h in
/-- A node that is wrapped around all since the anchor. -/
theorem wrapped_ends {s₀ s : Parser} (hs₀ : Ready n s₀) (hran : Ran [] s₀ s) {anchor : Nat}
    (hanchor : s₀.events.tail = some anchor) {kind : NodeKind} (inner : kind ≠ .Root)
    (fine : kind ≠ .ErrorNode) {body : P Unit} (hbody : Safe n body) :
    Ends (wrapped anchor kind body) s fun _ s' => Ran [] s₀ s' ∧ s.index ≤ s'.index := by
  have hwrap := hran.wrapped hanchor kind
  refine Ends.bind (m := fun _ s' =>
    s' = { s with events := s.events.insertAfter anchor (.Open (.Node kind)) }) (Ends.change rfl) ?_
  rintro _ _ rfl
  refine Ends.bind (hbody _ (hs₀.ran hwrap)) fun _ s' h => ?_
  exact ⟨(), _, rfl, (hwrap.trans h.1).closed inner fun h => absurd h fine, h.1.index⟩

theorem parseAllExpression_safe : Safe n (do
    let _ ← expect .Dot "`.` before an all-expression"
    consumeTrivia
    match ← ask rawKind with
    | some .AllKw | some .AllVersionsInRangeKw =>
      let _ ← bump
      if ← ask (atToken .ParenOpen) then parseCallArguments self false
      else errorCurrent "expected arguments after an all-expression name"
    | some .AllVersionsKw =>
      let _ ← bump
    | _ => errorCurrent "expected an all-expression name" : P Unit) := by
  refine (expect_safe _ _).bind fun _ => consumeTrivia_safe.bind fun _ => Safe.read fun _ => ?_
  split
  · refine bump_safe.bind fun _ => Safe.read fun _ => ?_
    exact Safe.cond (parseCallArguments_safe h false) (errorCurrent_safe _)
  · refine bump_safe.bind fun _ => Safe.read fun _ => ?_
    exact Safe.cond (parseCallArguments_safe h false) (errorCurrent_safe _)
  · exact bump_safe.bind fun _ => Safe.pure
  · exact errorCurrent_safe _

theorem parsePropertyNavigation_safe : Safe n (parsePropertyNavigation self) := by
  apply Safe.node (by decide) (by decide)
  refine (expect_safe _ _).bind fun _ => (consumeName_safe _).bind fun _ => Safe.read fun _ => ?_
  exact Safe.when (parseCallArguments_safe h false)

theorem parseArrowCall_safe : Safe n (parseArrowCall self) := by
  apply Safe.node (by decide) (by decide)
  refine (expect_safe _ _).bind fun _ => parseQualifiedName_safe.bind fun _ => Safe.read fun _ => ?_
  exact Safe.cond (parseCallArguments_safe h false) (errorCurrent_safe _)

theorem parseBracketIndex_safe : Safe n (parseBracketIndex self) := by
  apply Safe.node (by decide) (by decide)
  refine (expect_safe _ _).bind fun _ => Safe.read fun _ => Safe.bind (Safe.when ?_) fun _ => ?_
  · exact expressionOr_safe h _ _ _
  · exact (expect_safe _ _).bind fun _ => Safe.pure

omit h in
theorem reserveRetroactiveWrap_safe (wrap_depth : Nat) :
    Safe n (reserveRetroactiveWrap wrap_depth) :=
  Safe.cond ((errorCurrent_safe _).bind fun _ => Safe.pure) Safe.pure

omit h in
/-- A step that goes on from another. -/
theorem Safe.from {s₀ s : Parser} {α : Type} {p : P α} (hp : Safe n p) (hs₀ : Ready n s₀)
    (hran : Ran [] s₀ s) : Ends p s fun _ s' => Ran [] s₀ s' ∧ s.index ≤ s'.index :=
  Ends.mono (hp s (hs₀.ran hran)) fun _ _ h => ⟨hran.trans h.1, h.1.index⟩

omit h in
theorem wrapPart_ends {s₀ s : Parser} (hs₀ : Ready n s₀) (hran : Ran [] s₀ s) (wrap_depth : Nat)
    {part : P Unit} (hpart : ∀ s, Ran [] s₀ s →
      Ends part s fun _ s' => Ran [] s₀ s' ∧ s.index ≤ s'.index) :
    Ends (wrapPart wrap_depth part) s fun _ s' => Ran [] s₀ s' ∧ s.index ≤ s'.index := by
  refine Ends.bind ((reserveRetroactiveWrap_safe wrap_depth).from hs₀ hran) fun r s₁ h₁ => ?_
  refine Ends.bind (m := fun _ s' => Ran [] s₀ s' ∧ s₁.index ≤ s'.index)
    (Ends.when (fun _ => hpart s₁ h₁.1) fun _ => ⟨h₁.1, Nat.le_refl _⟩) fun _ s₂ h₂ => ?_
  exact Ends.pure ⟨h₂.1, Nat.le_trans h₁.2 h₂.2⟩

/-- A part of a chain goes on from the start of the chain. -/
theorem parsePostfixPart_ends {s₀ s : Parser} (hs₀ : Ready n s₀) (hran : Ran [] s₀ s)
    {anchor : Nat} (hanchor : s₀.events.tail = some anchor) (wrap_depth : Nat) (kind : TokenKind) :
    Ends (parsePostfixPart self anchor wrap_depth kind) s
      fun _ s' => Ran [] s₀ s' ∧ s.index ≤ s'.index := by
  unfold parsePostfixPart
  split
  · refine Ends.bind (m := fun _ s' => s = s') (Ends.ask rfl) ?_
    rintro _ _ rfl
    refine Ends.cond (fun _ => ?_) fun _ => ?_
    · exact wrapPart_ends hs₀ hran wrap_depth fun s hran =>
        wrapped_ends hs₀ hran hanchor (by decide) (by decide) (parseAllExpression_safe h)
    · exact ((parsePropertyNavigation_safe h).bind fun _ => Safe.pure).from hs₀ hran
  · exact ((parseArrowCall_safe h).bind fun _ => Safe.pure).from hs₀ hran
  · exact ((parseBracketIndex_safe h).bind fun _ => Safe.pure).from hs₀ hran
  · exact wrapPart_ends hs₀ hran wrap_depth fun s hran =>
      wrapped_ends hs₀ hran hanchor (by decide) (by decide) (parseCallArguments_safe h false)
  · exact Safe.pure.from hs₀ hran

theorem parsePostfixTurn_ends {s₀ s : Parser} (hs₀ : Ready n s₀) (hran : Ran [] s₀ s)
    {anchor : Nat} (hanchor : s₀.events.tail = some anchor) (wrap_depth : Nat) :
    Ends (parsePostfixTurn self anchor wrap_depth) s fun r s' =>
      Ran [] s₀ s' ∧ s.index ≤ s'.index ∧ (r.2 = true → s.index < s'.index) := by
  refine Ends.bind (m := fun _ s' => s = s') (Ends.ask rfl) ?_
  rintro kind _ rfl
  cases kind with
  | none => exact Ends.pure ⟨hran, Nat.le_refl _, nofun⟩
  | some kind =>
    refine Ends.bind (m := fun before s' => before = s.index ∧ s = s') (Ends.ask ⟨rfl, rfl⟩) ?_
    rintro _ _ ⟨rfl, rfl⟩
    refine Ends.bind (parsePostfixPart_ends h hs₀ hran hanchor wrap_depth kind) ?_
    rintro ⟨wrap_depth', taken⟩ s' ⟨hran', hle⟩
    cases taken with
    | false => exact Ends.pure ⟨hran', hle, nofun⟩
    | true =>
      refine ⟨_, _, rfl, hran', hle, fun hmoved => ?_⟩
      have : s'.index ≠ s.index := by simpa using hmoved
      omega

theorem parsePostfixExpression_eats : Eats n (parsePostfixExpression self) := by
  intro lo s hs hlo
  refine Steps.read ?_
  cases htail : s.events.tail with
  | none => exact (errorCurrent_safe _ s hs).bind fun _ _ _ _ => Steps.pure nofun
  | some anchor =>
    refine Ends.bind (parsePrimaryExpression_eats h lo s hs hlo) fun parsed s₁ h₁ => ?_
    cases parsed with
    | false => exact Ends.pure ⟨h₁.1, nofun⟩
    | true =>
      have hless : lo + 1 ≤ s₁.index := h₁.2 rfl
      refine Ends.bind (ends_loopWith (i := fun _ s' => Ran [] s s' ∧ lo + 1 ≤ s'.index)
        (q := fun _ s' => Ran [] s s' ∧ lo + 1 ≤ s'.index) ?_ ⟨h₁.1, hless⟩)
        fun _ s₂ h₂ => Ends.pure ⟨h₂.1, fun _ => h₂.2⟩
      rintro wrap_depth s₂ ⟨hran, hless₂⟩
      refine Ends.mono (parsePostfixTurn_ends h hs hran htail wrap_depth) ?_
      rintro ⟨w, again⟩ s₃ ⟨hran₃, hle, hagain⟩
      refine ⟨hran₃.tokens.trans hran.tokens.symm, (hran₃.good hs.good).index, ?_⟩
      cases again with
      | false => exact ⟨hran₃, Nat.le_trans hless₂ hle⟩
      | true => exact ⟨⟨hran₃, Nat.le_trans hless₂ hle⟩, hagain rfl⟩

theorem parseOperand_eats (unary_count : Nat) : Eats n (parseOperand self unary_count) := by
  intro lo
  refine (parsePostfixExpression_eats h lo).both ?_ ?_
  · exact Safe.bind (Safe.when (errorCurrent_safe _)) fun _ => Safe.pure
  · exact Reaches.bind (Safe.when (errorCurrent_safe _)) fun _ => Reaches.pure nofun

theorem parseUnaryOperators_eats (remaining : Nat) :
    Eats n (parseUnaryOperators self remaining) := by
  induction remaining with
  | zero =>
    intro lo
    refine Reaches.read fun _ => Reaches.cond (fun _ => ?_) fun _ => parseOperand_eats h _ lo
    exact Reaches.bind (errorCurrent_safe _) fun _ => Reaches.pure nofun
  | succ remaining ih =>
    intro lo
    refine Reaches.read fun _ => Reaches.cond (fun _ => ?_) fun _ => parseOperand_eats h _ lo
    apply Reaches.node (by decide) (by decide)
    exact Reaches.bind bump_safe fun _ => ih lo

theorem parseUnaryExpression_eats : Eats n (parseUnaryExpression self) := fun lo =>
  Reaches.bind consumeTrivia_safe fun _ => parseUnaryOperators_eats h _ lo

/-- The node of the operators that was opened last, and is not closed yet. -/
def pending : Option Nat → List Event
  | none => []
  | some _ => [.Open (.Node .BinaryExpr)]

omit h in
/-- The node of the operators is closed, if there is one. -/
theorem closePending_ends {s₀ s : Parser} {active : Option Nat} (hran : Ran (pending active) s₀ s) :
    Ends (when active.isSome closeEvent) s fun _ s' => Ran [] s₀ s' ∧ s'.index = s.index := by
  cases active with
  | none => exact Ends.when nofun fun _ => ⟨hran, rfl⟩
  | some precedence => exact ⟨(), _, rfl, hran.closed (by decide) nofun, rfl⟩

theorem parseBinaryPart_ends {s₀ s : Parser} (hs₀ : Ready n s₀) {active : Option Nat}
    (hran : Ran (pending active) s₀ s) {anchor : Nat} (hanchor : s₀.events.tail = some anchor)
    (minimum_precedence : Nat) :
    Ends (parseBinaryPart self anchor minimum_precedence active) s fun r s' =>
      Ran (pending r.1) s₀ s' ∧ s.index ≤ s'.index ∧ (r.2 = true → s.index < s'.index) := by
  refine Ends.bind (m := fun _ s' => s = s') (Ends.ask rfl) ?_
  rintro precedence _ rfl
  cases precedence with
  | none => exact Ends.pure ⟨hran, Nat.le_refl _, nofun⟩
  | some precedence =>
    refine Ends.bind (m := fun before s' => before = s.index ∧ s = s') (Ends.ask ⟨rfl, rfl⟩) ?_
    rintro _ _ ⟨rfl, rfl⟩
    refine Ends.cond (fun _ => Ends.pure ⟨hran, Nat.le_refl _, nofun⟩) fun _ => ?_
    refine Ends.bind (m := fun _ s' => Ran (pending (some precedence)) s₀ s' ∧
      s'.index = s.index) (Ends.when (fun hnew => ?_) fun hsame => ?_) ?_
    · -- an operator of another precedence takes all that is read so far
      refine Ends.bind (closePending_ends hran) ?_
      rintro _ s₁ ⟨hran₁, hindex⟩
      exact Ends.change ⟨hran₁.wrapped hanchor .BinaryExpr, hindex⟩
    · have hactive : active = some precedence := by simpa using hsame
      exact ⟨hactive ▸ hran, rfl⟩
    · rintro _ s₁ ⟨hran₁, hindex⟩
      have hs₁ := hs₀.ran hran₁
      have hrest : Safe n (consumeTrivia >>= fun _ => bump >>= fun _ =>
          (do when (!(← self.expression (precedence + 1))) do
                errorCurrent "expected an expression after an operator"
                recoverUntil EXPRESSION_BOUNDARIES)) :=
        consumeTrivia_safe.bind fun _ => bump_safe.bind fun _ => expressionOr_safe h _ _ _
      have hend := Ends.bind (hrest s₁ hs₁) (f := fun _ => (do
          return (some precedence, ← moved s.index) : P (Option Nat × Bool)))
        (q := fun r s' => Ran (pending r.1) s₀ s' ∧ s.index ≤ s'.index ∧
          (r.2 = true → s.index < s'.index)) fun _ s₂ h₂ => by
        have hle := h₂.1.index
        refine ⟨_, _, rfl, hran₁.trans h₂.1, by omega, fun hmoved => ?_⟩
        have : s₂.index ≠ s.index := by simpa using hmoved
        omega
      simpa only [bind_assoc] using hend

theorem parseExpressionAtDepth_eats (minimum_precedence : Nat) :
    Eats n (parseExpressionAtDepth self minimum_precedence) := by
  intro lo s hs hlo
  refine Steps.read ?_
  cases htail : s.events.tail with
  | none => exact (errorCurrent_safe _ s hs).bind fun _ _ _ _ => Steps.pure nofun
  | some anchor =>
    refine Ends.bind (parseUnaryExpression_eats h lo s hs hlo) fun parsed s₁ h₁ => ?_
    cases parsed with
    | false => exact Ends.pure ⟨h₁.1, nofun⟩
    | true =>
      have hless : lo + 1 ≤ s₁.index := h₁.2 rfl
      refine Ends.bind (ends_loopWith
        (i := fun active s' => Ran (pending active) s s' ∧ lo + 1 ≤ s'.index)
        (q := fun active s' => Ran (pending active) s s' ∧ lo + 1 ≤ s'.index) ?_ ⟨h₁.1, hless⟩)
        fun active s₂ h₂ => ?_
      · rintro active s₂ ⟨hran, hless₂⟩
        refine Ends.mono (parseBinaryPart_ends h hs hran htail minimum_precedence) ?_
        rintro ⟨active', again⟩ s₃ ⟨hran₃, hle, hagain⟩
        refine ⟨hran₃.tokens.trans hran.tokens.symm, (hran₃.good hs.good).index, ?_⟩
        cases again with
        | false => exact ⟨hran₃, Nat.le_trans hless₂ hle⟩
        | true => exact ⟨⟨hran₃, Nat.le_trans hless₂ hle⟩, hagain rfl⟩
      · refine Ends.bind (closePending_ends h₂.1) fun _ s₃ h₃ => Ends.pure ⟨h₃.1, fun _ => ?_⟩
        rw [h₃.2]
        exact h₂.2

theorem parseExpression_eats (minimum_precedence : Nat) :
    Eats (n + 1) (parseExpression self minimum_precedence) :=
  atDepth_eats (parseExpressionAtDepth_eats h minimum_precedence)

/-! ## Sources -/

omit h in
theorem consumeSourceSeparator_safe : Safe n consumeSourceSeparator := by
  refine Safe.read fun _ => Safe.cond Safe.pure ?_
  refine (consumeIf_safe _).bind fun _ => Safe.cond Safe.pure ?_
  exact recover_bind fun _ => (consumeIf_safe _).bind fun _ => Safe.pure

/-- A source goes on until all tokens are used up. -/
theorem parseSourceTurn_steps {s : Parser} (hs : Ready n s) :
    Steps s (parseSourceTurn self) fun again i =>
      if again then s.index < i else s.tokens.length ≤ i := by
  refine Steps.read (Steps.cond (fun heof => Steps.pure (by simpa [atEof] using heof)) fun heof => ?_)
  have hlt : s.index < s.tokens.length := by simpa [atEof] using heof
  refine Steps.read ?_
  refine Steps.bind (consumeIf_eats _ s.index s hs (Nat.le_refl _)) fun semicolon s₁ h₁ hsemi => ?_
  have hs₁ := hs.ran h₁
  have hle : s.index ≤ s₁.index := h₁.index
  cases semicolon with
  | true =>
    refine (consumeTrivia_safe s₁ hs₁).bind fun _ s₂ h₂ _ => Steps.ask ?_
    have hless : s.index < s₂.index := Nat.lt_of_lt_of_le (hsemi rfl) h₂.index
    rw [if_pos (by simpa using Nat.ne_of_gt hless)]
    exact hless
  | false =>
    refine Steps.bind (parseQueryExpression_steps h hs₁) fun _ s₂ h₂ hquery => ?_
    have hs₂ := hs₁.ran h₂
    refine (consumeTrivia_safe s₂ hs₂).bind fun _ s₃ h₃ _ => ?_
    have hs₃ := hs₂.ran h₃
    refine (consumeSourceSeparator_safe s₃ hs₃).bind fun _ s₄ h₄ _ => Steps.read ?_
    have hless : s.index < s₄.index := by
      have hle₂ := h₂.index
      have hle₃ := h₃.index
      have hle₄ := h₄.index
      rw [h₁.tokens] at hquery
      omega
    rw [if_pos (by simpa using Nat.ne_of_gt hless)]
    refine (consumeTrivia_safe s₄ (hs₃.ran h₄)).bind fun _ s₅ h₅ _ => Steps.pure ?_
    exact Nat.lt_of_lt_of_le hless h₅.index

theorem parseSource_steps {s : Parser} (hs : Ready n s) :
    Steps s (parseSource self) fun _ i => i = s.tokens.length := by
  refine (consumeTrivia_safe s hs).bind fun _ s₁ h₁ _ => ?_
  have hs₁ := hs.ran h₁
  refine ends_loopWith (i := fun _ s' => Ran [] s₁ s') (fun _ s' hinv => ?_) (Ran.refl s₁)
  have hs' := hs₁.ran hinv
  refine Ends.bind (parseSourceTurn_steps h hs') fun again s'' hturn => Ends.pure ?_
  have hbound := (hturn.1.good hs'.good).index
  refine ⟨hturn.1.tokens, hbound, ?_⟩
  have hmoved := hturn.2
  cases again with
  | true => exact ⟨hinv.trans hturn.1, hmoved⟩
  | false =>
    refine ⟨hinv.trans hturn.1, Nat.le_antisymm ?_ ?_⟩
    · rwa [hturn.1.tokens, hinv.tokens, h₁.tokens] at hbound
    · rw [← h₁.tokens, ← hinv.tokens]
      exact hmoved

end Productions

/-- With more fuel, the productions are steps from more states. -/
theorem productions_fueled (fuel : Nat) : Fueled fuel (productions fuel) := by
  induction fuel with
  | zero =>
    refine ⟨fun _ _ s hs => ?_, fun _ s hs => ?_, fun s hs => ?_⟩
    all_goals exact absurd hs.fuel (Nat.not_lt_zero _)
  | succ fuel ih =>
    exact ⟨parseExpression_eats ih, parseTypeReference_eats ih,
      (parsePrimaryExpression_eats ih).safe⟩

/-- The parser of a source ends, and its events are one root over all tokens. -/
theorem parse_grown (file : Nat) (tokens : List Token) :
    ∃ es diagnostics, parse file tokens =
        some (.Open (.Node .Root) :: es ++ [.Close], diagnostics) ∧
      Grown tokens diagnostics 0 es tokens.length := by
  let fuel := MAX_RECURSION_DEPTH + tokens.length + 1
  let s := Parser.new file tokens
  let s₀ := s.with (.Open (.Node .Root))
  have hview₀ : Arena.View s₀.events ([] ++ [(0, .Open (.Node .Root))]) := Arena.view_empty.append _
  have hs₀ : Ready fuel s₀ :=
    ⟨⟨Nat.zero_le _, Nat.zero_le _, _, by simp, hview₀⟩, Nat.lt_succ_self _⟩
  have hnode : Ends (node .Root (parseSource (productions fuel))) s fun _ s' =>
      ∃ s₁, Ran [] s₀ s₁ ∧ s₁.index = tokens.length ∧ s' = s₁.with .Close := by
    refine Ends.bind (m := fun _ s' => s' = s₀) (Ends.change rfl) ?_
    rintro _ _ rfl
    refine Ends.bind (parseSource_steps (productions_fueled _) hs₀) fun _ s₁ h₁ => ?_
    exact ⟨(), _, rfl, s₁, h₁.1, h₁.2, rfl⟩
  obtain ⟨_, _, hrun, s₁, hran, hindex, rfl⟩ := hnode
  obtain ⟨l, es, hview, hmap, hgrown⟩ := hran.events _ hview₀
  refine ⟨es, s₁.diagnostics, ?_, by rwa [hindex] at hgrown⟩
  have hlist : (s₁.with .Close).events.toList = .Open (.Node .Root) :: es ++ [.Close] := by
    refine (hview.append .Close).toList.trans ?_
    simp [hmap]
  show (node .Root (parseSource (productions fuel)) s).map _ = _
  rw [hrun, ← hlist]
  rfl

end analyzer.m3
