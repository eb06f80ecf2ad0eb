-- The members, the declarations and the files of the Domain parser: a malformed
-- declaration is in a gap with all that its recovery passed over, and each turn
-- of a loop uses a token up.
import PureAnalyzer.DomainLaws

namespace analyzer.domain

open fragments model cst totality m3 analyzer.domain.Parser

variable {n : Nat} {s : Parser}

/-! ## Members -/

/-- A declaration with a malformed part is put in a gap, from its first token on. -/
theorem markMalformed_goes (hs : Ready n s) {start : Nat} (hstart : start ≤ s.index)
    (parts : List Bool) : (flow n).Goes s (markMalformed start parts) fun _ s' =>
      s'.index = s.index ∧ (false ∈ parts → InGap s.tokens s'.coverage_gaps start s'.index) := by
  refine Flow.Goes.when (fun _ => ?_) fun hfine => ⟨rfl, fun hmem => ?_⟩
  · refine Flow.Goes.mono (markGapFrom_goes hs hstart _) fun _ s' _ hs' => ⟨hs'.1, fun _ => ?_⟩
    rw [hs'.1]
    exact hs'.2.2.1
  · simp [hmem] at hfine

/-- A malformed part may hold nodes without facts. They are in the gap of the declaration. -/
theorem steps_malformed {c : Prop} {s₀ : Parser} (hs : Ready n s) (h : Follows s₀ s)
    {parts : List Bool} (hc : false ∉ parts → c) :
    Steps s (markMalformed s₀.index parts) fun _ c' s' =>
      (c ∧ c') ∨ InGap s₀.tokens s'.coverage_gaps s₀.index s'.index := by
  refine Steps.mono (Steps.ofGoes (markMalformed_goes hs h.index parts)) ?_
  rintro _ c' s' _ ⟨hc', -, hgap⟩
  by_cases hmem : false ∈ parts
  · refine Or.inr ?_
    rw [← h.tokens]
    exact hgap hmem
  · exact Or.inl ⟨hc hmem, hc'⟩

/-- A declaration: what comes first uses a token up, and what is left is put in a gap
where it may hold nodes without facts. -/
theorem goes_declaration {kind : NodeKind} {p : P Bool} {f : Bool → P Unit} {here : Bool}
    (inner : kind ≠ .Root) (fine : ¬Faulty kind) (hs : Ready n s)
    (hp : (flow n).Goes (s.with (.Open (.Node kind))) p
      (Accepts (s.with (.Open (.Node kind))) here))
    (hf : ∀ b s', Ready n s' → Follows (s.with (.Open (.Node kind))) s' →
      Steps s' (f b) fun _ c s'' => c ∨ InGap s.tokens s''.coverage_gaps s.index s''.index) :
    (flow n).Goes s (node kind (p >>= f)) fun _ s' =>
      (here = true → s.index < s'.index) ∧ Whole s kind s' := by
  have hbody : (flow n).Goes (s.with (.Open (.Node kind))) (p >>= f) fun _ s' =>
      here = true → s.index < s'.index := by
    refine Steps.rescue (hs.with _) (Steps.after hp fun b s' h haccepts => ?_)
    refine Steps.mono (hf b s' ((hs.with _).follows h) h) fun _ c s'' h'' hc =>
      ⟨hc, fun hhere => ?_⟩
    have hless : s.index < s'.index := haccepts.1 (haccepts.2.1 hhere)
    have hindex : s'.index ≤ s''.index := h''.index
    omega
  exact Flow.Goes.both (goes_node inner fine hbody)
    (Ends.mono (whole_node hs hbody) fun _ _ h => h.1)

theorem memberStarts_name {kind : TokenKind} (h : s.memberStarts kind = true) :
    s.significantKind.any isName = true := by
  unfold memberStarts at h
  rw [significantKind_eq]
  cases hindex : s.significantIndex with
  | none => simp [hindex] at h
  | some name =>
    simp only [hindex, Bool.and_eq_true] at h
    cases hget : s.tokens[name]? with
    | none => simp [hget] at h
    | some token => simpa [hget] using h.1

theorem parseProperty_goes (hs : Ready n s) : (flow n).Goes s parseProperty fun _ s' =>
    s.memberStartsProperty = true → s.index < s'.index := by
  refine Flow.Goes.read (Flow.Goes.mono (goes_declaration (by decide) (by decide) hs
    (consumeName_goes (hs.with _) _) fun name s₁ hs₁ h₁ => ?_) fun _ s' _ h hstarts =>
      h.1 (memberStarts_name hstarts))
  refine Steps.after (expect_safe _ _ s₁ hs₁) fun colon s₂ h₂ _ => ?_
  have hs₂ := hs₁.follows h₂
  refine Steps.after (typeReference_safe s₂ hs₂) fun ty s₃ h₃ _ => ?_
  have hs₃ := hs₂.follows h₃
  refine Steps.after (parseDomainMultiplicity_safe s₃ hs₃) fun multiplicity s₄ h₄ _ => ?_
  have hs₄ := hs₃.follows h₄
  refine Steps.after (consumeIf_safe _ s₄ hs₄) fun default s₅ h₅ _ => ?_
  have hs₅ := hs₄.follows h₅
  refine Steps.after (Flow.Safe.when parseOpaqueExpression_safe s₅ hs₅) fun _ s₆ h₆ _ => ?_
  have hs₆ := hs₅.follows h₆
  refine Steps.bind (consumeMemberTerminator_steps hs₆) fun terminator c s₇ h₇ hc => ?_
  have hfollows := (((((h₁.trans h₂).trans h₃).trans h₄).trans h₅).trans h₆).trans h₇
  refine steps_malformed (hs₆.follows h₇) hfollows fun hvalid => hc ?_
  simp at hvalid
  exact hvalid.2.2.2.2

theorem recoverParameter_goes {before : Nat} (hs : Ready n s) (hbefore : before ≤ s.index) :
    (flow n).Goes s (recoverParameter before) fun b s' => b = true → before < s'.index := by
  refine Flow.Goes.bind (syntaxError_safe (not_stuck (by decide)) s hs) fun _ s₁ h₁ _ => ?_
  have hs₁ := hs.follows h₁.follows
  refine Flow.Goes.bind (recoverUntil_safe _ s₁ hs₁) fun _ s₂ h₂ _ => ?_
  have hindex₂ := Nat.le_trans h₁.follows.index h₂.follows.index
  refine Flow.Goes.read (Flow.Goes.cond (fun _ => Flow.Goes.pure (by simp)) fun _ => ?_)
  refine Flow.Goes.read (Flow.Goes.bind (consumeIfRaw_safe _ s₂ (hs₁.follows h₂.follows)) ?_)
  intro _ s₃ h₃ _
  have hindex₃ := h₃.follows.index
  refine Flow.Goes.read (Flow.Goes.cond (fun hcomma => ?_) fun _ => Flow.Goes.pure (by simp))
  simp at hcomma
  refine Flow.Goes.read (Flow.Goes.cond (fun hstuck => ?_) fun _ => ?_)
  · simp at hstuck
    omega
  · exact Flow.Goes.pure fun _ => by omega

theorem parseParameter_safe : (flow n).Safe parseParameter := by
  refine safe_node (by decide) (by decide) ?_
  refine (consumeName_safe _).bind fun _ => (expect_safe _ _).bind fun _ => ?_
  exact typeReference_safe.bind fun _ => parseDomainMultiplicity_safe.bind fun _ => Flow.Safe.pure

theorem parameterTurn_goes (hs : Ready n s) (valid : Bool) :
    (flow n).Goes s (parameterTurn valid) fun r s' => r.2 = true → s.index < s'.index := by
  refine Flow.Goes.read (Flow.Goes.bind (parseParameter_safe s hs) fun parameter s₁ h₁ _ => ?_)
  have hs₁ := hs.follows h₁.follows
  refine Flow.Goes.bind (consumeTrivia_safe s₁ hs₁) fun _ s₂ h₂ _ => ?_
  have hs₂ := hs₁.follows h₂.follows
  have hindex₂ := Nat.le_trans h₁.follows.index h₂.follows.index
  refine Flow.Goes.read (Flow.Goes.bind (consumeIfRaw_safe _ s₂ hs₂) fun _ s₃ h₃ _ => ?_)
  have hs₃ := hs₂.follows h₃.follows
  have hindex₃ := h₃.follows.index
  refine Flow.Goes.read (Flow.Goes.cond (fun hcomma => ?_) fun _ => ?_)
  · simp at hcomma
    refine Flow.Goes.bind (consumeTrivia_safe s₃ hs₃) fun _ s₄ h₄ _ => ?_
    have hs₄ := hs₃.follows h₄.follows
    have hindex₄ := h₄.follows.index
    refine Flow.Goes.read (Flow.Goes.cond (fun _ => ?_) fun _ => ?_)
    · refine Flow.Goes.bind (syntaxError_safe (not_stuck (by decide)) s₄ hs₄) fun _ _ _ _ => ?_
      exact Flow.Goes.pure (by simp)
    · refine Flow.Goes.read (Flow.Goes.cond (fun hstuck => ?_) fun _ => ?_)
      · simp at hstuck
        omega
      · exact Flow.Goes.pure fun _ => by omega
  · refine Flow.Goes.read (Flow.Goes.read (Flow.Goes.cond (fun _ => Flow.Goes.pure (by simp)) ?_))
    intro _
    refine Flow.Goes.bind (recoverParameter_goes hs₃ (Nat.le_trans hindex₂ hindex₃)) ?_
    exact fun again s₄ _ hagain => Flow.Goes.pure hagain

theorem parseParameterList_safe : (flow n).Safe parseParameterList := by
  refine consumeTrivia_safe.bind fun _ => Flow.Safe.read fun _ => Flow.Safe.cond Flow.Safe.pure ?_
  intro s hs
  refine goes_loopWith (i := fun _ _ => True) hs trivial fun valid s hs _ => ?_
  refine Flow.Goes.mono (parameterTurn_goes hs valid) fun r s' _ hr => ?_
  exact ⟨fun hagain => ⟨hr hagain, trivial⟩, fun _ => trivial⟩

theorem parameters_safe (open_paren : Bool) : (flow n).Safe (parameters open_paren) := by
  refine Flow.Safe.cond ?_ Flow.Safe.pure
  exact parseParameterList_safe.bind fun _ => (expect_safe _ _).bind fun _ => Flow.Safe.pure

theorem qualifiedPropertyBody_steps (hs : Ready n s) :
    Steps s qualifiedPropertyBody fun b c _ => b = true → c := by
  refine Steps.read (Steps.cond (fun _ => ?_) fun _ => ?_)
  · exact Steps.after (parseOpaqueBody_safe s hs) fun _ _ _ _ => Steps.pure fun _ => trivial
  · refine Steps.after (n := n) (syntaxError_goes (not_stuck (by decide)) s) fun _ s₁ h₁ hflag => ?_
    exact Steps.bind (recoverMemberTail_steps (hs.follows h₁) hflag.2) fun _ _ _ _ _ =>
      Steps.pure (by simp)

theorem parseQualifiedProperty_goes (hs : Ready n s) :
    (flow n).Goes s parseQualifiedProperty fun _ s' =>
      s.memberStartsQualifiedProperty = true → s.index < s'.index := by
  refine Flow.Goes.read (Flow.Goes.mono (goes_declaration (by decide) (by decide) hs
    (consumeName_goes (hs.with _) _) fun name s₁ hs₁ h₁ => ?_) fun _ s' _ h hstarts =>
      h.1 (memberStarts_name hstarts))
  refine Steps.after (expect_safe _ _ s₁ hs₁) fun open_paren s₂ h₂ _ => ?_
  have hs₂ := hs₁.follows h₂
  refine Steps.after (parameters_safe _ s₂ hs₂) ?_
  rintro ⟨parameters, close_paren⟩ s₃ h₃ -
  have hs₃ := hs₂.follows h₃
  refine Steps.after (expect_safe _ _ s₃ hs₃) fun colon s₄ h₄ _ => ?_
  have hs₄ := hs₃.follows h₄
  refine Steps.after (typeReference_safe s₄ hs₄) fun ty s₅ h₅ _ => ?_
  have hs₅ := hs₄.follows h₅
  refine Steps.after (parseDomainMultiplicity_safe s₅ hs₅) fun multiplicity s₆ h₆ _ => ?_
  have hs₆ := hs₅.follows h₆
  refine Steps.bind (qualifiedPropertyBody_steps hs₆) fun body c s₇ h₇ hc => ?_
  have hs₇ := hs₆.follows h₇
  refine Steps.after (consumeIf_safe _ s₇ hs₇) fun _ s₈ h₈ _ => ?_
  have hfollows := ((((((h₁.trans h₂).trans h₃).trans h₄).trans h₅).trans h₆).trans h₇).trans h₈
  refine steps_malformed (hs₇.follows h₈) hfollows fun hvalid => hc ?_
  simp at hvalid
  exact hvalid.2.2.2.2.2.2.2

/-- A member uses a token up, where there is one. -/
theorem parseMember_goes (hs : Ready n s) (kind : DeclarationKind) :
    (flow n).Goes s (parseMember kind) fun _ s' => s.atEnd = false → s.index < s'.index := by
  refine Flow.Goes.bind (parseStereotypeApplications_safe s hs) fun _ s₁ h₁ _ => ?_
  have hs₁ := hs.follows h₁.follows
  refine Flow.Goes.bind (consumeTrivia_safe s₁ hs₁) fun _ s₂ h₂ _ => ?_
  have hs₂ := hs₁.follows h₂.follows
  have hfollows := h₁.follows.trans h₂.follows
  have hbegun : Begun s false s₂ := ⟨hfollows.tokens, hfollows.index, by simp⟩
  have hindex := hfollows.index
  refine Flow.Goes.read (Flow.Goes.cond (fun hend => Flow.Goes.pure (hbegun.atEnd hend)) ?_)
  intro hmore
  refine Flow.Goes.read (Flow.Goes.cond (fun hproperty => ?_) fun _ => ?_)
  · refine Flow.Goes.mono (parseProperty_goes hs₂) fun _ s₃ _ hless _ => ?_
    have := hless hproperty
    omega
  · refine Flow.Goes.read (Flow.Goes.cond (fun hqualified => ?_) fun _ => ?_)
    · refine Flow.Goes.mono (parseQualifiedProperty_goes hs₂) fun _ s₃ _ hless _ => ?_
      simp at hqualified
      have := hless hqualified.2
      omega
    · refine Flow.Goes.mono (parseOpaqueMember_goes hs₂) fun _ s₃ _ hless _ => ?_
      have := hless (by simpa using hmore)
      omega

/-! ## Declarations -/

/-- One turn of a body uses a token up, if it asks for another. -/
theorem declarationBodyTurn_goes (hs : Ready n s) (kind : DeclarationKind) :
    (flow n).Goes s (declarationBodyTurn kind) fun r s' => r.2 = true → s.index < s'.index := by
  refine Flow.Goes.read (Flow.Goes.cond (fun _ => Flow.Goes.pure (by simp)) fun _ => ?_)
  refine Flow.Goes.bind (consumeTrivia_safe s hs) fun _ s₁ h₁ _ => ?_
  have hs₁ := hs.follows h₁.follows
  have hindex₁ := h₁.follows.index
  refine Flow.Goes.read (Flow.Goes.cond (fun _ => Flow.Goes.pure (by simp)) fun hmore => ?_)
  refine Flow.Goes.read (Flow.Goes.cond (fun _ => ?_) fun _ => ?_)
  · exact Flow.Goes.bind (bump_safe s₁ hs₁) fun _ _ _ _ => Flow.Goes.pure (by simp)
  refine Flow.Goes.read (Flow.Goes.cond (fun _ => ?_) fun _ => ?_)
  · refine Flow.Goes.bind (syntaxError_safe (not_stuck (by decide)) s₁ hs₁) fun _ _ _ _ => ?_
    exact Flow.Goes.pure (by simp)
  refine Flow.Goes.read (Flow.Goes.bind (consumeIfRaw_goes _ s₁) fun _ s₂ h₂ hsemicolon => ?_)
  have hs₂ := hs₁.follows h₂.follows
  refine Flow.Goes.read (Flow.Goes.bind (q := fun _ s' => s₁.index < s'.index) ?_ ?_)
  · refine Flow.Goes.when (fun hstill => ?_) fun hmoved => ?_
    · have hsame : s₁.rawAt .Semicolon = false := by
        cases hraw : s₁.rawAt .Semicolon with
        | false => rfl
        | true =>
          have := hsemicolon.1 hraw
          simp at hstill
          omega
      obtain rfl := hsemicolon.2 hsame
      refine Flow.Goes.read (Flow.Goes.bind (parseMember_goes hs₂ kind) fun _ s₃ h₃ hless => ?_)
      have hless' := hless (by simpa using hmore)
      refine Flow.Goes.read (Flow.Goes.when (fun hstuck => ?_) fun _ => hless')
      simp at hstuck
      omega
    · have := h₂.follows.index
      simp at hmoved
      omega
  · intro _ s₃ h₃ hless
    refine Flow.Goes.read (Flow.Goes.bind (q := fun _ s' => s₁.index < s'.index) ?_ ?_)
    · refine Flow.Goes.when (fun hstuck => ?_) fun _ => hless
      simp at hstuck
      omega
    · exact fun _ s₄ _ hless' => Flow.Goes.pure fun _ => Nat.lt_of_le_of_lt hindex₁ hless'

theorem bodyEnd_safe (answer : Option Bool) : (flow n).Safe (bodyEnd answer) := by
  cases answer with
  | some answer => exact Flow.Safe.pure
  | none => exact (syntaxError_safe (not_stuck (by decide))).bind fun _ => Flow.Safe.pure

/-- A body behind its brace. Without the brace, what is passed over is left to the
gap of the declaration. -/
theorem steps_body {message : String} {p : P Bool} (hs : Ready n s) (hp : (flow n).Safe p) :
    Steps s (do
      if ← expect .BraceOpen message then p
      else
        recoverDeclarationHeader
        return false) fun b c _ => b = true → c := by
  refine Steps.after (expect_goes hs _ _) fun b s₁ h₁ haccepts => ?_
  have hs₁ := hs.follows h₁
  refine Steps.cond (fun _ => ?_) fun hclosed => ?_
  · exact Steps.mono (Steps.ofGoes (hp s₁ hs₁)) fun _ _ _ _ hc _ => hc.1
  · have hflag := haccepts.2.2 (by simpa using hclosed)
    exact Steps.bind (recoverDeclarationHeader_steps hs₁ hflag) fun _ _ _ _ _ =>
      Steps.pure (by simp)

theorem parseDeclarationBody_steps (hs : Ready n s) (kind : DeclarationKind) :
    Steps s (parseDeclarationBody kind) fun b c _ => b = true → c := by
  refine steps_body hs (Flow.Safe.bind (fun s hs => ?_) bodyEnd_safe)
  refine goes_loopWith (i := fun _ _ => True) hs trivial fun _ s hs _ => ?_
  refine Flow.Goes.mono (declarationBodyTurn_goes hs kind) fun r s' _ hr => ?_
  exact ⟨fun hagain => ⟨hr hagain, trivial⟩, fun _ => trivial⟩

theorem supertypeTurn_goes (hs : Ready n s) (valid : Bool) :
    (flow n).Goes s (supertypeTurn valid) fun r s' => r.2 = true → s.index < s'.index := by
  refine Flow.Goes.bind (consumeTrivia_safe s hs) fun _ s₁ h₁ _ => ?_
  have hs₁ := hs.follows h₁.follows
  have hindex₁ := h₁.follows.index
  refine Flow.Goes.read (Flow.Goes.bind (consumeIfRaw_safe _ s₁ hs₁) fun _ s₂ h₂ _ => ?_)
  have hs₂ := hs₁.follows h₂.follows
  have hindex₂ := h₂.follows.index
  refine Flow.Goes.read (Flow.Goes.cond (fun _ => Flow.Goes.pure (by simp)) fun hcomma => ?_)
  simp at hcomma
  refine Flow.Goes.bind (parseDomainQualifiedName_safe _ s₂ hs₂) fun named s₃ h₃ _ => ?_
  have hindex₃ := h₃.follows.index
  refine Flow.Goes.read (Flow.Goes.cond (fun hstuck => ?_) fun _ => ?_)
  · simp at hstuck
    omega
  · exact Flow.Goes.pure fun _ => by omega

theorem parseExtendsClause_safe : (flow n).Safe parseExtendsClause := by
  refine safe_node (by decide) (by decide) (Flow.Safe.bind ?_ fun _ => Flow.Safe.bind ?_ ?_)
  · refine (expectKeyword_safe _).bind fun _ => Flow.Safe.cond ?_ Flow.Safe.pure
    exact parseDomainQualifiedName_safe _
  · intro s hs
    refine goes_loopWith (i := fun _ _ => True) hs trivial fun valid s hs _ => ?_
    refine Flow.Goes.mono (supertypeTurn_goes hs valid) fun r s' _ hr => ?_
    exact ⟨fun hagain => ⟨hr hagain, trivial⟩, fun _ => trivial⟩
  · exact fun _ => (Flow.Safe.when (syntaxError_safe (not_stuck (by decide)))).bind fun _ =>
      Flow.Safe.pure

theorem optionalExtends_safe : (flow n).Safe optionalExtends :=
  Flow.Safe.read fun _ => Flow.Safe.cond parseExtendsClause_safe Flow.Safe.pure

theorem parseClass_goes (hs : Ready n s) : (flow n).Goes s parseClass fun _ s' =>
    (s.atKeyword "Class" = true → s.index < s'.index) ∧ Whole s .DomainClassDecl s' := by
  refine Flow.Goes.read (goes_declaration (by decide) (by decide) hs
    (expectKeyword_goes (hs.with _) "Class") fun keyword s₁ hs₁ h₁ => ?_)
  refine Steps.after (parseStereotypeApplications_safe s₁ hs₁) fun _ s₂ h₂ _ => ?_
  have hs₂ := hs₁.follows h₂
  refine Steps.after (parseDomainQualifiedName_safe _ s₂ hs₂) fun name s₃ h₃ _ => ?_
  have hs₃ := hs₂.follows h₃
  refine Steps.after (optionalExtends_safe s₃ hs₃) fun extends_ s₄ h₄ _ => ?_
  have hs₄ := hs₃.follows h₄
  refine Steps.bind (parseDeclarationBody_steps hs₄ .Class) fun body c s₅ h₅ hc => ?_
  have hfollows := (((h₁.trans h₂).trans h₃).trans h₄).trans h₅
  refine steps_malformed (hs₄.follows h₅) hfollows fun hvalid => hc ?_
  simp at hvalid
  exact hvalid.2.2.2

theorem parseAssociation_goes (hs : Ready n s) : (flow n).Goes s parseAssociation fun _ s' =>
    (s.atKeyword "Association" = true → s.index < s'.index) ∧
      Whole s .DomainAssociationDecl s' := by
  refine Flow.Goes.read (goes_declaration (by decide) (by decide) hs
    (expectKeyword_goes (hs.with _) "Association") fun keyword s₁ hs₁ h₁ => ?_)
  refine Steps.after (parseStereotypeApplications_safe s₁ hs₁) fun _ s₂ h₂ _ => ?_
  have hs₂ := hs₁.follows h₂
  refine Steps.after (parseDomainQualifiedName_safe _ s₂ hs₂) fun name s₃ h₃ _ => ?_
  have hs₃ := hs₂.follows h₃
  refine Steps.bind (parseDeclarationBody_steps hs₃ .Association) fun body c s₄ h₄ hc => ?_
  have hfollows := ((h₁.trans h₂).trans h₃).trans h₄
  refine steps_malformed (hs₃.follows h₄) hfollows fun hvalid => hc ?_
  simp at hvalid
  exact hvalid.2.2

/-! ## Profiles -/

theorem recoverStereotype_safe (at_close : Bool) : (flow n).Safe (recoverStereotype at_close) := by
  refine Flow.Safe.cond Flow.Safe.pure ?_
  refine (syntaxError_safe (not_stuck (by decide))).bind fun _ => (recoverUntil_safe _).bind ?_
  refine fun _ => Flow.Safe.read fun _ => (consumeIfRaw_safe _).bind fun _ => ?_
  exact moved_safe.bind fun _ => Flow.Safe.read fun _ => Flow.Safe.pure

/-- A turn uses a token up: the name, what is passed over in its place, or the comma. -/
theorem stereotypeTurn_safe (valid : Bool) : (flow n).Safe (stereotypeTurn valid) := by
  intro s hs
  refine Flow.Goes.read (Flow.Goes.read (Flow.Goes.cond (fun _ => Flow.Goes.pure trivial) ?_))
  intro hgo
  simp at hgo
  obtain ⟨hmore, hnotclose⟩ := hgo
  have hname : (flow n).Goes s (node .DomainStereotypeDecl (consumeName "a stereotype name"))
      fun b s' => b = true → s.index < s'.index :=
    goes_node (by decide) (by decide)
      (Flow.Goes.mono (consumeName_goes (hs.with _) _) fun _ _ _ h => h.1)
  refine Flow.Goes.read (Flow.Goes.bind hname fun name s₁ h₁ hless => ?_)
  have hs₁ := hs.follows h₁.follows
  refine Flow.Goes.bind (q := fun _ s' => s.index < s'.index ∨ s'.atEnd = true ∨
    s'.atAny [.Comma, .BracketClose] = true) ?_ fun _ s₂ h₂ hfound => ?_
  · refine Flow.Goes.when (fun _ => ?_) fun hname => Or.inl (hless (by simpa using hname))
    exact Flow.Goes.mono (recoverUntil_goes hs₁ _) fun _ _ _ hfound => Or.inr hfound
  have hs₂ := hs₁.follows h₂.follows
  refine Flow.Goes.bind (consumeTrivia_goes hs₂) fun _ s₃ h₃ hsettled => ?_
  have hs₃ := hs₂.follows h₃.follows
  have htokens₂ : s₂.tokens = s.tokens := h₂.follows.tokens.trans h₁.follows.tokens
  have hindex₂ := Nat.le_trans h₁.follows.index h₂.follows.index
  have hindex₃ := h₃.follows.index
  refine Flow.Goes.read (Flow.Goes.bind (consumeIfRaw_goes _ s₃) fun _ s₄ h₄ hcomma => ?_)
  have hs₄ := hs₃.follows h₄.follows
  have hindex₄ := h₄.follows.index
  refine Flow.Goes.read (Flow.Goes.cond (fun _ => ?_) fun hstill => ?_)
  · exact Flow.Goes.bind (consumeTrivia_safe s₄ hs₄) fun _ _ _ _ => Flow.Goes.pure trivial
  have hnocomma : s₃.rawAt .Comma = false := by
    cases hraw : s₃.rawAt .Comma with
    | false => rfl
    | true =>
      have := hcomma.1 hraw
      simp at hstill
      omega
  obtain rfl := hcomma.2 hnocomma
  have hmoved : s.index < s₄.index := by
    by_contra hnot
    have hsame : s₄.index = s.index := by omega
    have htokens₄ : s₄.tokens = s.tokens := h₃.follows.tokens.trans htokens₂
    have hnone := (nothing_read htokens₄ hsame hsettled.raw hmore
      (show s.atToken .BracketClose = false from hnotclose) hnocomma).2
    have hany : s.atAny [.Comma, .BracketClose] = true := by
      rcases hfound with hless | hfound
      · omega
      · exact recovered_here hfound htokens₂ (by omega) hmore
    unfold atAny at hnone hany
    rw [(same_place htokens₄ hsame).2, hany] at hnone
    cases hnone
  refine Flow.Goes.read ?_
  refine Flow.Goes.bind (recoverStereotype_safe _ s₄ hs₄) fun stuck s₅ h₅ _ => ?_
  have hindex₅ := h₅.follows.index
  refine Flow.Goes.cond (fun _ => Flow.Goes.pure trivial) fun _ => ?_
  refine Flow.Goes.read (Flow.Goes.cond (fun hstuck => ?_) fun _ => Flow.Goes.pure trivial)
  simp at hstuck
  omega

theorem parseStereotypeList_safe : (flow n).Safe parseStereotypeList :=
  consumeTrivia_safe.bind fun _ => safe_budgetWith stereotypeTurn_safe

theorem tagTurn_goes (s : Parser) (depth : Nat) :
    (flow n).Goes s (tagTurn depth) fun r s' => r.2 = true → s.index < s'.index := by
  have hstep : ∀ depth : Nat, s.rawKind.isSome = true → (flow n).Goes s (do
      let _ ← bump
      return (depth, true)) fun r s' => r.2 = true → s.index < s'.index := by
    intro depth hsome
    exact Flow.Goes.bind (bump_moves hsome) fun _ _ _ h => Flow.Goes.pure fun _ => h.2
  refine Flow.Goes.read ?_
  cases hkind : s.rawKind with
  | none => exact Flow.Goes.pure (by simp)
  | some kind =>
    have hsome : s.rawKind.isSome = true := by rw [hkind]; rfl
    split
    · exact Flow.Goes.pure (by simp)
    · exact Flow.Goes.cond (fun _ => Flow.Goes.pure (by simp)) fun _ => hstep _ hsome
    all_goals exact hstep _ hsome

theorem consumeProfileTagList_safe : (flow n).Safe consumeProfileTagList := by
  refine Flow.Safe.bind (fun s hs => ?_) fun _ => Flow.Safe.pure
  refine goes_loopWith (i := fun _ _ => True) hs trivial fun depth s _ _ => ?_
  refine Flow.Goes.mono (tagTurn_goes s depth) fun r s' _ hr => ?_
  exact ⟨fun hagain => ⟨hr hagain, trivial⟩, fun _ => trivial⟩

theorem sectionContents_safe (stereotypes header : Bool) :
    (flow n).Safe (sectionContents stereotypes header) := by
  refine Flow.Safe.cond (Flow.Safe.bind ?_ fun _ => ?_) Flow.Safe.pure
  · refine Flow.Safe.cond parseStereotypeList_safe ?_
    exact consumeProfileTagList_safe.bind fun _ => Flow.Safe.pure
  · exact (expect_safe _ _).bind fun _ => Flow.Safe.pure

theorem parseProfileSection_goes (hs : Ready n s) : (flow n).Goes s parseProfileSection fun _ s' =>
    s.atEnd = false → s.index < s'.index := by
  refine Flow.Goes.read (goes_node (by decide) (by decide) ?_)
  have hrest : ∀ stereotypes, (flow n).Safe (do
      let colon ← expect .Colon "`:` after a profile section name"
      let open_bracket ← expect .BracketOpen "`[` after a profile section name"
      let contents ← sectionContents stereotypes (colon && open_bracket)
      let _ ← consumeIf .Semicolon
      return (colon && open_bracket) && contents.1 && contents.2) := by
    intro stereotypes
    refine (expect_safe _ _).bind fun _ => (expect_safe _ _).bind fun _ => ?_
    refine (sectionContents_safe _ _).bind fun _ => (consumeIf_safe _).bind fun _ => ?_
    exact Flow.Safe.pure
  have hbump := bump_goes (n := n) (s.with (.Open (.Node .DomainProfileSection)))
  refine Flow.Goes.bind hbump fun _ s₁ h₁ hindex => ?_
  refine Flow.Goes.mono (hrest _ s₁ ((hs.with _).follows h₁.follows)) fun _ s₂ h₂ _ hmore => ?_
  have hindex₁ : s₁.index = s.index + 1 := by
    rw [hindex.2]
    exact if_pos (rawKind_some hmore)
  have hindex₂ : s₁.index ≤ s₂.index := h₂.follows.index
  show s.index < s₂.index
  omega

theorem profileMember_goes (hs : Ready n s) : (flow n).Goes s profileMember fun _ s' =>
    s.atEnd = false → s.index < s'.index := by
  refine Flow.Goes.read (Flow.Goes.read (Flow.Goes.cond (fun _ => parseProfileSection_goes hs) ?_))
  intro _
  refine Flow.Goes.read (Flow.Goes.bind (consumeIfRaw_goes _ s) fun _ s₁ h₁ hsemicolon => ?_)
  have hs₁ := hs.follows h₁.follows
  refine Flow.Goes.read (Flow.Goes.bind (q := fun _ s' => s.atEnd = false → s.index < s'.index)
    ?_ fun _ _ _ h => Flow.Goes.pure h)
  refine Flow.Goes.when (fun hstill => ?_) fun hmoved _ => ?_
  · have hsame : s.rawAt .Semicolon = false := by
      cases hraw : s.rawAt .Semicolon with
      | false => rfl
      | true =>
        have := hsemicolon.1 hraw
        simp at hstill
        omega
    obtain rfl := hsemicolon.2 hsame
    exact parseOpaqueMember_goes hs₁
  · have := h₁.follows.index
    simp at hmoved
    omega

theorem profileBodyTurn_goes (hs : Ready n s) (valid : Bool) :
    (flow n).Goes s (profileBodyTurn valid) fun r s' => r.2 = true → s.index < s'.index := by
  refine Flow.Goes.read (Flow.Goes.cond (fun _ => Flow.Goes.pure (by simp)) fun _ => ?_)
  refine Flow.Goes.bind (consumeTrivia_safe s hs) fun _ s₁ h₁ _ => ?_
  have hs₁ := hs.follows h₁.follows
  have hindex₁ := h₁.follows.index
  refine Flow.Goes.read (Flow.Goes.cond (fun _ => Flow.Goes.pure (by simp)) fun hmore => ?_)
  refine Flow.Goes.read (Flow.Goes.cond (fun _ => ?_) fun _ => ?_)
  · exact Flow.Goes.bind (bump_safe s₁ hs₁) fun _ _ _ _ => Flow.Goes.pure (by simp)
  refine Flow.Goes.read (Flow.Goes.cond (fun _ => ?_) fun _ => ?_)
  · refine Flow.Goes.bind (syntaxError_safe (not_stuck (by decide)) s₁ hs₁) fun _ _ _ _ => ?_
    exact Flow.Goes.pure (by simp)
  refine Flow.Goes.read (Flow.Goes.bind (profileMember_goes hs₁) fun member s₂ h₂ hless => ?_)
  have hless' := hless (by simpa using hmore)
  refine Flow.Goes.read (Flow.Goes.cond (fun hstuck => ?_) fun _ => ?_)
  · simp at hstuck
    omega
  · exact Flow.Goes.pure fun _ => by omega

theorem parseProfileBody_steps (hs : Ready n s) :
    Steps s parseProfileBody fun b c _ => b = true → c := by
  refine steps_body hs ?_
  have hloop : (flow n).Safe (loopWith (true, none) fun state => profileBodyTurn state.1) := by
    intro s hs
    refine goes_loopWith (i := fun _ _ => True) hs trivial fun state s hs _ => ?_
    refine Flow.Goes.mono (profileBodyTurn_goes hs state.1) fun r s' _ hr => ?_
    exact ⟨fun hagain => ⟨hr hagain, trivial⟩, fun _ => trivial⟩
  exact hloop.bind fun _ => bodyEnd_safe _

theorem parseProfile_goes (hs : Ready n s) : (flow n).Goes s parseProfile fun _ s' =>
    (s.atKeyword "Profile" = true → s.index < s'.index) ∧ Whole s .DomainProfileDecl s' := by
  refine Flow.Goes.read (goes_declaration (by decide) (by decide) hs
    (expectKeyword_goes (hs.with _) "Profile") fun keyword s₁ hs₁ h₁ => ?_)
  refine Steps.after (parseStereotypeApplications_safe s₁ hs₁) fun _ s₂ h₂ _ => ?_
  have hs₂ := hs₁.follows h₂
  refine Steps.after (parseDomainQualifiedName_safe _ s₂ hs₂) fun name s₃ h₃ _ => ?_
  have hs₃ := hs₂.follows h₃
  refine Steps.bind (parseProfileBody_steps hs₃) fun body c s₄ h₄ hc => ?_
  have hfollows := ((h₁.trans h₂).trans h₃).trans h₄
  refine steps_malformed (hs₃.follows h₄) hfollows fun hvalid => hc ?_
  simp at hvalid
  exact hvalid.2.2

/-! ## Files -/

/-- The word that a declaration begins with. -/
def DeclarationKind.keyword : DeclarationKind → String
  | .Class => "Class"
  | .Association => "Association"
  | .Profile => "Profile"

theorem declarationKind_keyword {kind : DeclarationKind} (h : s.declarationKind = some kind) :
    s.atKeyword kind.keyword = true := by
  unfold declarationKind at h
  by_cases hclass : s.atKeyword "Class" = true
  · rw [if_pos hclass] at h
    obtain rfl : DeclarationKind.Class = kind := by simpa using h
    exact hclass
  rw [if_neg hclass] at h
  by_cases hassociation : s.atKeyword "Association" = true
  · rw [if_pos hassociation] at h
    obtain rfl : DeclarationKind.Association = kind := by simpa using h
    exact hassociation
  rw [if_neg hassociation] at h
  by_cases hprofile : s.atKeyword "Profile" = true
  · rw [if_pos hprofile] at h
    obtain rfl : DeclarationKind.Profile = kind := by simpa using h
    exact hprofile
  · rw [if_neg hprofile] at h
    cases h

/-- The nodes that may stand in a file itself. -/
def topLevel : List NodeKind :=
  [.DomainClassDecl, .DomainAssociationDecl, .DomainProfileDecl, .DomainIgnoredTopLevel,
    .DomainOpaqueNode]

/-- The tokens that may stand in a file itself. -/
def Plain (kind : TokenKind) : Prop := isTrivia kind = true ∨ kind = .Semicolon

/-- The events are the parts of a file between two places. A region that was kept as it
is has its gap. -/
inductive Tops (tokens : List Token) (gaps : List DomainCoverageGap) :
    Nat → List Event → Nat → Prop where
  | nil (i : Nat) : Tops tokens gaps i [] i
  | token {i j : Nat} {es : List Event} {token : Token} (here : tokens[i]? = some token)
      (plain : Plain token.1) (rest : Tops tokens gaps (i + 1) es j) :
      Tops tokens gaps i (.Advance :: es) j
  | node {i j k : Nat} {es es' : List Event} {kind : NodeKind} (top : kind ∈ topLevel)
      (gapped : kind = .DomainOpaqueNode → HasGap gaps .UnsupportedTopLevel)
      (below : Grown tokens (fun _ _ _ => True) i es j) (rest : Tops tokens gaps j es' k) :
      Tops tokens gaps i (.Open (.Node kind) :: es ++ .Close :: es') k

theorem Tops.append {tokens : List Token} {gaps : List DomainCoverageGap} {i j k : Nat}
    {es es' : List Event} (h : Tops tokens gaps i es j) (h' : Tops tokens gaps j es' k) :
    Tops tokens gaps i (es ++ es') k := by
  induction h with
  | nil => exact h'
  | token here plain _ ih => exact token here plain (ih h')
  | node top gapped below _ ih =>
    have hnode := node top gapped below (ih h')
    simpa using hnode

theorem Tops.mono {tokens : List Token} {gaps gaps' : List DomainCoverageGap} {i j : Nat}
    {es : List Event} (h : Tops tokens gaps i es j)
    (hgaps : HasGap gaps .UnsupportedTopLevel → HasGap gaps' .UnsupportedTopLevel) :
    Tops tokens gaps' i es j := by
  induction h with
  | nil i => exact nil i
  | token here plain _ ih => exact token here plain ih
  | node top gapped below _ ih => exact node top (fun hkind => hgaps (gapped hkind)) below ih

/-- What was read from one state to another are parts of a file. -/
def Lists (s s' : Parser) : Prop :=
  s'.tokens = s.tokens ∧
    (HasGap s.coverage_gaps .UnsupportedTopLevel → HasGap s'.coverage_gaps .UnsupportedTopLevel) ∧
    ∃ es, s'.events = s.events ++ es ∧ Tops s.tokens s'.coverage_gaps s.index es s'.index

theorem Lists.refl (s : Parser) : Lists s s :=
  ⟨rfl, fun h => h, [], (List.append_nil _).symm, .nil _⟩

theorem Lists.trans {s' s'' : Parser} (h : Lists s s') (h' : Lists s' s'') : Lists s s'' := by
  obtain ⟨htokens, hgaps, es, hevents, htops⟩ := h
  obtain ⟨htokens', hgaps', es', hevents', htops'⟩ := h'
  rw [htokens] at htokens' htops'
  refine ⟨htokens', fun hgap => hgaps' (hgaps hgap), es ++ es', ?_, ?_⟩
  case refine_2 => exact (htops.mono hgaps').append htops'
  rw [hevents', hevents, List.append_assoc]

theorem Whole.lists {s' : Parser} {kind : NodeKind} (h : Whole s kind s') (top : kind ∈ topLevel)
    (gapped : kind = .DomainOpaqueNode → HasGap s'.coverage_gaps .UnsupportedTopLevel)
    (hfollows : Follows s s') : Lists s s' := by
  obtain ⟨es, hevents, hgrown⟩ := h
  obtain ⟨_, hran⟩ := hfollows
  exact ⟨hran.tokens, hran.kinds _, _, hevents, .node top gapped hgrown (.nil _)⟩

theorem bump_lists {kind : TokenKind} (h : s.rawKind = some kind) (plain : Plain kind) :
    Ends bump s fun _ s' => Lists s s' := by
  have here := rawKind_eq_some h
  refine Ends.read ?_
  rw [h]
  refine Ends.read (Ends.bind (m := fun _ s' => s'.tokens = s.tokens ∧ s'.index = s.index ∧
    s'.events = s.events ∧ s'.coverage_gaps = s.coverage_gaps) ?_ ?_)
  · exact Ends.when (fun _ => Ends.change ⟨rfl, rfl, rfl, rfl⟩) fun _ => ⟨rfl, rfl, rfl, rfl⟩
  · rintro _ s₁ ⟨htokens, hindex, hevents, hgaps⟩
    refine Ends.bind (m := fun _ s' => s' = s₁.with .Advance) (Ends.change rfl) ?_
    rintro _ _ rfl
    refine Ends.bind (m := fun _ s' => s' = { s₁.with .Advance with index := s₁.index + 1 })
      (Ends.change rfl) ?_
    rintro _ _ rfl
    refine Ends.pure ⟨htokens, fun hgap => ?_, [.Advance], ?_, ?_⟩
    · show HasGap s₁.coverage_gaps _
      rw [hgaps]
      exact hgap
    · show s₁.events ++ [.Advance] = _
      rw [hevents]
    · show Tops s.tokens s₁.coverage_gaps s.index [.Advance] (s₁.index + 1)
      rw [hindex]
      exact .token here plain (.nil _)

theorem consumeTrivia_lists (s : Parser) : Ends consumeTrivia s fun _ s' => Lists s s' := by
  refine Ends.read (ends_budgeted (i := fun _ _ s' => Lists s s') (fun _ _ s' hlists => ?_)
    (fun _ _ hlists => hlists) (Lists.refl s))
  refine Ends.bind (m := fun _ s'' => Lists s s'') ?_ fun b s'' hlists' => ?_
  · refine Ends.read (Ends.cond (fun htrivia => ?_) fun _ => Ends.pure hlists)
    obtain ⟨kind, hkind, hplain⟩ : ∃ kind, s'.rawKind = some kind ∧ isTrivia kind = true := by
      simpa [Option.any_eq_true] using htrivia
    refine Ends.read (Ends.bind (bump_lists hkind (Or.inl hplain)) fun _ s₁ hbump => ?_)
    exact Ends.ask (hlists.trans hbump)
  · refine Ends.pure ?_
    cases b with
    | true => exact hlists'
    | false => exact hlists'

/-- A declaration is one node, and uses a token up. -/
theorem parseDeclaration_goes (hs : Ready n s) : (flow n).Goes s parseDeclaration fun _ s' =>
    (s.atEnd = false → s.index < s'.index) ∧ ∃ kind ∈ topLevel, Whole s kind s' ∧
      (kind = .DomainOpaqueNode → HasGap s'.coverage_gaps .UnsupportedTopLevel) := by
  refine Flow.Goes.read ?_
  cases hkind : s.declarationKind with
  | none =>
    refine Flow.Goes.read (Flow.Goes.cond (fun _ => ?_) fun _ => ?_)
    · exact Flow.Goes.mono (parseIgnoredTopLevel_goes hs) fun _ _ _ h =>
        ⟨h.1, _, by decide, h.2, by simp⟩
    · exact Flow.Goes.mono (parseOpaqueTopLevel_goes hs) fun _ _ _ h =>
        ⟨h.1, _, by decide, h.2.1, fun _ => h.2.2⟩
  | some kind =>
    have hkeyword := declarationKind_keyword hkind
    cases kind with
    | Class =>
      exact Flow.Goes.mono (parseClass_goes hs) fun _ _ _ h =>
        ⟨fun _ => h.1 hkeyword, _, by decide, h.2, by simp⟩
    | Association =>
      exact Flow.Goes.mono (parseAssociation_goes hs) fun _ _ _ h =>
        ⟨fun _ => h.1 hkeyword, _, by decide, h.2, by simp⟩
    | Profile =>
      exact Flow.Goes.mono (parseProfile_goes hs) fun _ _ _ h =>
        ⟨fun _ => h.1 hkeyword, _, by decide, h.2, by simp⟩

theorem index_of_atEnd (hs : Ready n s) (hend : s.atEnd = true) : s.index = s.tokens.length := by
  have := (atEnd_iff s).mp hend
  have := hs.index
  omega

theorem fileTurn_goes (hs : Ready n s) : (flow n).Goes s fileTurn fun b s' =>
    ((b = true → s.index < s'.index) ∧ (b = false → s'.index = s'.tokens.length)) ∧
      Lists s s' := by
  refine Flow.Goes.read (Flow.Goes.cond (fun h => ?_) fun _ => ?_)
  · exact Flow.Goes.pure ⟨⟨by simp, fun _ => index_of_atEnd hs h⟩, Lists.refl s⟩
  refine Flow.Goes.bind (Flow.Goes.both (consumeTrivia_safe s hs) (consumeTrivia_lists s)) ?_
  rintro _ s₁ h₁ ⟨-, hlists₁⟩
  have hs₁ := hs.follows h₁.follows
  have hindex₁ := h₁.follows.index
  refine Flow.Goes.read (Flow.Goes.cond (fun h => ?_) fun hmore => ?_)
  · exact Flow.Goes.pure ⟨⟨by simp, fun _ => index_of_atEnd hs₁ h⟩, hlists₁⟩
  refine Flow.Goes.read (Flow.Goes.cond (fun hsemicolon => ?_) fun _ => ?_)
  · have hkind : s₁.rawKind = some .Semicolon := by simpa [rawAt] using hsemicolon
    refine Flow.Goes.bind (Flow.Goes.both (bump_moves (rawKind_some (by simpa using hmore)))
      (bump_lists hkind (Or.inr rfl))) ?_
    rintro _ s₂ - ⟨⟨-, hless⟩, hlists₂⟩
    exact Flow.Goes.pure ⟨⟨fun _ => by omega, by simp⟩, hlists₁.trans hlists₂⟩
  refine Flow.Goes.read (Flow.Goes.bind (parseDeclaration_goes hs₁) ?_)
  rintro _ s₂ h₂ ⟨hless, kind, htop, hwhole, hgapped⟩
  have hless' := hless (by simpa using hmore)
  refine Flow.Goes.read (Flow.Goes.cond (fun _ => ?_) fun hstuck => ?_)
  · refine Flow.Goes.pure ⟨⟨fun _ => by omega, by simp⟩, ?_⟩
    exact hlists₁.trans (hwhole.lists htop hgapped h₂.follows)
  · simp at hstuck
    omega

/-- A file is read to its end. -/
theorem budget_fileTurn (hs : Ready n s) : (flow n).Goes s (budget fileTurn) fun _ s' =>
    s'.index = s'.tokens.length ∧ Lists s s' := by
  refine goes_budgetWith (i := fun _ s' => Lists s s') hs (Lists.refl s) (fun _ s' hs' hlists => ?_)
    fun _ _ _ hlists hend => ⟨hend, hlists⟩
  refine Flow.Goes.bind (fileTurn_goes hs') fun b s'' _ hb => Flow.Goes.pure ?_
  have hlists' := hlists.trans hb.2
  exact ⟨fun hagain => ⟨hb.1.1 hagain, hlists'⟩, fun hend => ⟨hb.1.2 hend, hlists'⟩⟩

end analyzer.domain
