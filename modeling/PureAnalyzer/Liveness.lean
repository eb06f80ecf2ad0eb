-- The mask never empties under a schema, unless the stream is stuck: no
-- allowed name goes on from the bytes that are open, or a rule for the
-- opening of a value is still in force where a literal owes a digit.
import PureAnalyzer.PdaLaws
import PureAnalyzer.Stream
import PureAnalyzer.TrieLaws

namespace purecard.scope.ScopeTracker

open pushdown pda model narrow trie

/-! ## Streams that are not stuck -/

/-- A printable byte of ASCII, or a space. -/
def isPlain (byte : UInt8) : Bool := isAsciiWhitespace byte || (32 ≤ byte && byte ≤ 126)

/-- The automaton lives on after the byte. -/
def takes (p : Pda) (byte : UInt8) : Bool := (Config.advance step p byte).isSome

/-- The names go on from the open bytes: one of them has a next byte that is
still of the name's lexeme and that the automaton takes, or the bytes are a
whole name and the automaton takes what follows it. -/
def goesOn (names : List (List UInt8 × NameClose)) (kind : TrieKind) (p : Pda)
    (pre : List UInt8) : Bool :=
  (names.any fun e => pre.isPrefixOf e.1 && (e.1.drop pre.length).head?.any fun byte =>
    isPlain byte && isCandidate kind true [byte] && takes p byte) ||
  match Trie.lastClose names pre with
  | some .Free => takes p ' ' || takes p '.'
  | some (.MustFollow owed) => takes p owed
  | none => false

/-- The states where a literal owes a digit. -/
def DIGIT_STATES : List State :=
  [.SawNumSign, .NeedFracDigit, .NeedExpDigit, .DateSep, .DateTimeSep, .DateFrac]

/-- The states where a literal owes a digit, a sign or a letter. -/
def OWING_STATES : List State :=
  DIGIT_STATES ++ [.SawExp, .SawPercent, .MilestoneL, .MilestoneLa, .MilestoneLat, .MilestoneLate,
    .MilestoneLates]

/-- No rule for the opening of a value, or for an arrow, is in force where a
literal owes what the rule never keeps. -/
def literalOpen (pos : L2Position) (state : State) : Bool :=
  match pos with
  | .LogicalOperand => !DIGIT_STATES.contains state
  | .ReceiverOnlyArg | .SourceExtent true | .StoreResult true | .StrOperator true =>
    !OWING_STATES.contains state
  | _ => true

/-- While a name is open, the names of its rule go on from it. A value of a
`let` is held to the names only between the colons of a path. -/
def nameOpen (t : ScopeTracker) (schema : Schema) (p : Pda) : Bool :=
  match TrieRule.ofPosition (t.position p.state) schema t.emittedColumns t.boundVariables with
  | none => true
  | some rule =>
    t.narrowPrefix.isEmpty || !(rule.names.closing.any fun e => t.narrowPrefix.isPrefixOf e.1) ||
      (rule.kind = .ClassPathContinuation && p.state ≠ .SourceColon) ||
      goesOn rule.names.closing rule.kind p t.narrowPrefix

def unstuck (t : ScopeTracker) (schema : Schema) (p : Pda) : Bool :=
  literalOpen (t.position p.state) p.state && t.nameOpen schema p

/-! ## Where a rule opens -/

/-- The states where a value opens that a rule of its call may narrow. -/
def OPERAND_OPENERS : List State :=
  [.ExpectValue, .ExpectValueReq, .ExpectRelColSpec, .ExpectRelColSpecReq]

/-- The states of a completed term. -/
def TERM_STATES : List State :=
  [.AfterValue, .AfterName, .AfterMemberName, .AfterStrLit, .AfterRelColName]

/-- The states where the rule of a position opens. -/
def openers : L2Position → List State
  | .SourceIdent => [.ExpectSource, .BlockStmt, .BlockStmtClose]
  | .BinderValueSourceIdent => [.ExpectBinderValue]
  | .RefVar => [.AfterDollar]
  | .SourceMethod | .RelationColumn | .Member _ => [.AfterDot]
  | .StoreMethod | .ExtentMethod | .Reducer _ | .ScalarMethod _ => [.AfterArrow]
  | .SourceExtent true | .StoreResult true | .StrOperator true => [.SawDash]
  | .SourceExtent false | .StoreResult false | .StrOperator false | .Comparator _
  | .OrderedOperand => TERM_STATES
  | .SourceMethodArg _ _ | .PropertyMethodArg _ _ | .StoreMethodArg | .ReceiverOnlyArg
  | .ExtentMethodArg _ | .LogicalOperand | .ReValue _ | .Column => OPERAND_OPENERS
  | .ValueIdent => OPERAND_OPENERS ++ [.SawDash, .SawPipe, .SawLt, .SawGt]
  | _ => []

theorem valueOpening_openers (t : ScopeTracker) (state : State) :
    t.valueOpeningPosition state = .None ∨
      OPERAND_OPENERS ⊆ openers (t.valueOpeningPosition state) := by
  have hsame : OPERAND_OPENERS ⊆ OPERAND_OPENERS := List.Subset.refl _
  unfold valueOpeningPosition
  split
  · exact .inr hsame
  split
  · exact .inr hsame
  split
  · exact .inr hsame
  split
  · exact .inr hsame
  split
  · exact .inr hsame
  split
  · exact .inr hsame
  split
  · exact .inr hsame
  split
  · exact .inr hsame
  split
  · exact .inl rfl
  split
  · exact .inl rfl
  · exact .inr (List.subset_append_left _ _)

theorem completedTerm_openers (t : ScopeTracker) :
    t.completedTermPosition = .None ∨ TERM_STATES ⊆ openers t.completedTermPosition := by
  have hsame : TERM_STATES ⊆ TERM_STATES := List.Subset.refl _
  unfold completedTermPosition
  split
  · exact .inr hsame
  split
  · exact .inr hsame
  split
  · exact .inr hsame
  · exact .inr hsame
  · split
    · exact .inr hsame
    · exact .inl rfl

/-- A rule opens only at its own states. -/
theorem opening_openers (t : ScopeTracker) (state : State) :
    t.openingPosition state = .None ∨ state ∈ openers (t.openingPosition state) := by
  have hvalue : ∀ s ∈ OPERAND_OPENERS, t.valueOpeningPosition s = .None ∨
      s ∈ openers (t.valueOpeningPosition s) :=
    fun s hs => (valueOpening_openers t s).imp_right fun h => h hs
  have hterm : ∀ s ∈ TERM_STATES, t.completedTermPosition = .None ∨
      s ∈ openers t.completedTermPosition :=
    fun s hs => (completedTerm_openers t).imp_right fun h => h hs
  unfold openingPosition
  split
  case h_1 => exact .inr (by decide)
  case h_2 => exact .inr (by decide)
  case h_3 => exact .inr (by decide)
  case h_4 => exact .inr (by decide)
  case h_5 =>
    split
    · exact .inl rfl
    · exact .inr (by decide)
  case h_6 =>
    split
    · exact .inr (by decide)
    split
    · exact .inr (by decide)
    split
    · exact .inr (List.mem_singleton_self _)
    · exact .inl rfl
  case h_7 => exact hvalue _ (by decide)
  case h_8 => exact hvalue _ (by decide)
  case h_9 => exact hvalue _ (by decide)
  case h_10 => exact hvalue _ (by decide)
  case h_11 =>
    split
    · exact .inr (by decide)
    split
    · exact .inr (by decide)
    split
    · exact .inr (by decide)
    · exact .inr (by decide)
  case h_12 => exact .inr (by decide)
  case h_13 => exact .inr (by decide)
  case h_14 => exact .inr (by decide)
  case h_15 =>
    split
    · exact .inr (by decide)
    · exact hterm _ (by decide)
  case h_16 => exact hterm _ (by decide)
  case h_17 => exact hterm _ (by decide)
  case h_18 => exact hterm _ (by decide)
  case h_19 => exact hterm _ (by decide)
  case h_20 =>
    split
    · exact .inr (by decide)
    split
    · exact .inr (by decide)
    split
    · exact .inr (List.mem_singleton_self _)
    · exact .inr (List.mem_singleton_self _)
    · exact .inl rfl
  case h_21 => exact .inl rfl

/-! ## The bytes that a rule keeps -/

/-- The rules that keep only the end of an arrow. -/
def afterDash : L2Position → Bool
  | .SourceExtent true | .StoreResult true | .StrOperator true => true
  | _ => false

/-- The rules that deny the names of methods. -/
def denies : L2Position → Bool
  | .ExtentMethod | .ScalarMethod _ => true
  | _ => false

section rules

variable {schema : Schema} {columns : List (List UInt8)} {vars : List Text}

theorem keepsTrieToken_space (t : Trie) (kind : TrieKind) :
    keepsTrieToken t t.root kind (lit " ") = true := by
  have hpoint : namePoint t t.root = .Anchor := if_pos rfl
  unfold keepsTrieToken
  rw [hpoint]
  cases kind <;> rfl

/-- A space is kept by every rule that no name or arrow decides. -/
theorem operand_space {pos : L2Position} (pre : List UInt8) (hident : pos ≠ .ValueIdent)
    (hdash : afterDash pos = false) (hdenies : denies pos = false) :
    ((operandKey pos pre).bind keyRule).all (·.keep (lit " ")) = true := by
  cases pos with
  | ValueIdent => exact absurd rfl hident
  | ExtentMethod => cases hdenies
  | ScalarMethod tc => cases hdenies
  | SourceExtent after_dash => cases after_dash <;> first | rfl | cases hdash
  | StoreResult after_dash => cases after_dash <;> first | rfl | cases hdash
  | StrOperator after_dash => cases after_dash <;> first | rfl | cases hdash
  | ReValue tc => cases tc <;> rfl
  | Comparator tc => cases tc <;> rfl
  | ExtentMethodArg arg => cases arg <;> rfl
  | _ => rfl

/-- The rules that deny methods keep a space before the name. -/
theorem denied_space {pos : L2Position} (h : denies pos = true) :
    ((operandKey pos []).bind keyRule).all (·.keep (lit " ")) = true := by
  cases pos with
  | ExtentMethod => decide +kernel
  | ScalarMethod tc => cases tc <;> decide +kernel
  | _ => cases h

/-- They keep every byte that goes on with the name. -/
theorem denied_tail {pos : L2Position} (h : denies pos = true) (pre : List UInt8) :
    ((operandKey pos pre).bind keyRule).all (·.keep (lit "a")) = true := by
  have hkeep : ∀ (deny : Trie) (receiver : Option TypeClass) (cursor : Nat),
      (deniedRule deny receiver cursor).keep (lit "a") = true := by
    intro deny receiver cursor
    have hwalk : doesNotCloseDenied deny cursor (lit "a") = true := by
      show doesNotCloseDenied deny cursor ['a'] = true
      unfold doesNotCloseDenied walk
      cases deny.child cursor 'a' with
      | some c => rfl
      | none =>
        cases deny.isTerminal cursor <;> rfl
    have hmethod : receiver.any (deniedStringMethod (lit "a")) = false := by
      cases receiver with
      | none => rfl
      | some tc => rfl
    show (doesNotCloseDenied deny cursor (lit "a") &&
      !receiver.any (deniedStringMethod (lit "a"))) = true
    rw [hwalk, hmethod]
    rfl
  cases pos with
  | ExtentMethod =>
    unfold operandKey
    cases denyCursor EXTENT_DENY pre with
    | none => rfl
    | some cursor => exact hkeep _ _ cursor
  | ScalarMethod tc =>
    unfold operandKey
    cases denyCursor SCALAR_DENY pre with
    | none => rfl
    | some cursor => exact hkeep _ _ cursor
  | _ => cases h

theorem dash_arrow {pos : L2Position} (h : afterDash pos = true) (pre : List UInt8) :
    ((operandKey pos pre).bind keyRule).all (·.keep (lit ">")) = true := by
  cases pos with
  | SourceExtent after_dash => cases after_dash with
    | true => rfl
    | false => cases h
  | StoreResult after_dash => cases after_dash with
    | true => rfl
    | false => cases h
  | StrOperator after_dash => cases after_dash with
    | true => rfl
    | false => cases h
  | _ => cases h

/-- In a gap every rule keeps a space, but for the end of an arrow. -/
theorem ruleAt_space {pos : L2Position} (hident : pos ≠ .ValueIdent)
    (hdash : afterDash pos = false) :
    (ruleAt schema pos [] columns vars).all (·.keep (lit " ")) = true := by
  unfold ruleAt
  cases TrieRule.ofPosition pos schema columns vars with
  | some rule => exact keepsTrieToken_space _ _
  | none =>
    cases hdenies : denies pos with
    | true => exact denied_space hdenies
    | false => exact operand_space [] hident hdash hdenies

end rules

/-! ## The names of a rule -/

/-- The bytes that a whole name may owe. -/
theorem owed_byte {names : Names} {name : List UInt8} {owed : UInt8}
    (h : (name, NameClose.MustFollow owed) ∈ names.closing) : owed ∈ lit ".-(" := by
  cases names with
  | Source schema =>
    simp only [Names.closing, List.mem_append, List.mem_map, Prod.mk.injEq] at h
    rcases h with ⟨path, -, -, hclose⟩ | h
    · unfold sourceClose at hclose
      split at hclose <;> cases hclose <;> decide
    · simp at h
  | SourceMethod =>
    obtain ⟨-, hclose⟩ : name = SOURCE_METHOD ∧ NameClose.MustFollow owed = .MustFollow '(' := by
      simpa [Names.closing] using h
    cases hclose
    decide
  | StoreMethod =>
    simp only [Names.closing, List.mem_map, Prod.mk.injEq] at h
    obtain ⟨e, -, -, hclose⟩ := h
    cases hclose
    decide
  | Member schema cls => simp [Names.closing, free] at h
  | Column columns => simp [Names.closing, free] at h
  | RelationColumn columns => simp [Names.closing, free] at h
  | RefVar vars => simp [Names.closing, free] at h

theorem lastClose_mem {names : List (List UInt8 × NameClose)} {name : List UInt8}
    {close : NameClose} (h : Trie.lastClose names name = some close) : (name, close) ∈ names := by
  unfold Trie.lastClose at h
  obtain ⟨l₁, l₂, hl, -⟩ := List.lookup_eq_some_iff.mp h
  rw [← List.mem_reverse, hl]
  simp

theorem boundary_table : ∀ b ∈ lit " .-(", isPlain b = true ∧
    NameShape.continues .Plain b = false ∧ NameShape.continues .ClassPath b = false := by
  decide +kernel

section names

variable {names : List (List UInt8 × NameClose)} {pre : List UInt8} {cursor : Nat}

theorem namePoint_of_open (hpre : pre ≠ [])
    (hcursor : (Trie.fromClosingNames names).follow 0 pre = some cursor) :
    namePoint (Trie.fromClosingNames names) cursor ≠ .Anchor := by
  have hrep := Trie.fromClosingNames_represents names
  have hroot : cursor ≠ (Trie.fromClosingNames names).root := by
    rintro rfl
    exact hpre (Trie.follow_inj hrep.wellFormed hcursor rfl)
  unfold namePoint
  rw [if_neg hroot]
  split
  · exact nofun
  · split <;> exact nofun

/-- A byte that goes on with a name is kept, when it is of the name's lexeme. -/
theorem keeps_child {kind : TrieKind} {b : UInt8} {e : List UInt8 × NameClose} (hpre : pre ≠ [])
    (hcursor : (Trie.fromClosingNames names).follow 0 pre = some cursor) (he : e ∈ names)
    (hb : pre ++ [b] <+: e.1) (hkind : isCandidate kind true [b] = true) :
    keepsTrieToken (Trie.fromClosingNames names) cursor kind [b] = true := by
  have hrep := Trie.fromClosingNames_represents names
  have hpath := (hrep.paths (pre ++ [b])).mpr (.inr ⟨e, he, hb⟩)
  rw [Trie.follow_snoc, hcursor, Option.bind_some] at hpath
  obtain ⟨c, hc⟩ := Option.isSome_iff_exists.mp hpath
  have hwalk : walk (Trie.fromClosingNames names) cursor kind.shape [b] = .Stay c := by
    rw [walk_stay_iff, Trie.follow, hc]
    rfl
  have hpoint := namePoint_of_open hpre hcursor
  unfold keepsTrieToken keepsCandidate
  simp only [hpoint, ne_eq, not_false_eq_true, decide_true, hkind, if_true, hwalk]

/-- Where a whole name stands. -/
def wholePoint : NameClose → NamePoint
  | .Free => .Whole
  | .MustFollow owed => .WholeMustFollow owed

theorem namePoint_of_whole {close : NameClose} (hpre : pre ≠ [])
    (hcursor : (Trie.fromClosingNames names).follow 0 pre = some cursor)
    (hclose : Trie.lastClose names pre = some close) :
    namePoint (Trie.fromClosingNames names) cursor = wholePoint close := by
  have hrep := Trie.fromClosingNames_represents names
  obtain ⟨hterminal, hcloseAt⟩ := hrep.marks pre cursor hcursor
  have hopen := namePoint_of_open hpre hcursor
  rw [hclose] at hterminal hcloseAt
  unfold namePoint at hopen ⊢
  by_cases hroot : cursor = (Trie.fromClosingNames names).root
  · rw [if_pos hroot] at hopen
    exact absurd rfl hopen
  · rw [if_neg hroot, hterminal, hcloseAt]
    cases close <;> rfl

/-- A boundary behind a whole name is kept, when it is the byte that the name
owes or the name owes none. -/
theorem keeps_boundary {kind : TrieKind} {b : UInt8} {close : NameClose} (hpre : pre ≠ [])
    (hcursor : (Trie.fromClosingNames names).follow 0 pre = some cursor)
    (hclose : Trie.lastClose names pre = some close) (hadmits : close.admits b = true)
    (hb : b ∈ lit " .-(") :
    keepsTrieToken (Trie.fromClosingNames names) cursor kind [b] = true := by
  have hrep := Trie.fromClosingNames_represents names
  obtain ⟨hterminal, hcloseAt⟩ := hrep.marks pre cursor hcursor
  rw [hclose] at hterminal hcloseAt
  have hcontinues : kind.shape.continues b = false := by
    obtain ⟨-, hplain, hpath⟩ := boundary_table b hb
    cases kind.shape with
    | Plain => exact hplain
    | ClassPath => exact hpath
  have hcandidate : keepsCandidate (Trie.fromClosingNames names) cursor kind.shape [b] = true := by
    unfold keepsCandidate walk
    cases (Trie.fromClosingNames names).child cursor b with
    | some c => rfl
    | none =>
      simp only [hterminal, hcontinues, Option.isSome_some, Bool.not_false, Bool.and_self, if_true,
        hcloseAt, Option.getD_some]
      exact hadmits
  unfold keepsTrieToken
  dsimp only
  rw [namePoint_of_whole hpre hcursor hclose]
  split
  · exact hcandidate
  split
  · rfl
  · cases close with
    | Free => rfl
    | MustFollow owed =>
      obtain rfl : b = owed := of_decide_eq_true hadmits
      simp [wholePoint]

/-- Names that go on leave a byte that the automaton takes and the rule keeps. -/
theorem keeps_of_goesOn {names : Names} {kind : TrieKind} {p : Pda} (hpre : pre ≠ [])
    (hcursor : names.build.follow 0 pre = some cursor)
    (hgo : goesOn names.closing kind p pre = true) :
    ∃ b, isPlain b = true ∧ takes p b = true ∧ keepsTrieToken names.build cursor kind [b] = true := by
  unfold goesOn at hgo
  rw [Bool.or_eq_true] at hgo
  rcases hgo with hnext | hwhole
  · simp only [List.any_eq_true, Bool.and_eq_true, List.isPrefixOf_iff_prefix] at hnext
    obtain ⟨e, he, ⟨rest, hrest⟩, hbyte⟩ := hnext
    rw [← hrest, List.drop_left, Option.any_eq_true] at hbyte
    obtain ⟨b, hb, hkeep⟩ := hbyte
    simp only [Bool.and_eq_true] at hkeep
    obtain ⟨⟨hplain, hkind⟩, htakes⟩ := hkeep
    have hmore : pre ++ [b] <+: e.1 := by
      obtain ⟨tail, rfl⟩ := List.head?_eq_some_iff.mp hb
      exact ⟨tail, by rw [← hrest]; simp⟩
    exact ⟨b, hplain, htakes, keeps_child hpre hcursor he hmore hkind⟩
  · cases hclose : Trie.lastClose names.closing pre with
    | none => rw [hclose] at hwhole; cases hwhole
    | some close =>
      rw [hclose] at hwhole
      cases close with
      | Free =>
        simp only [Bool.or_eq_true] at hwhole
        rcases hwhole with hspace | hdot
        · exact ⟨' ', by decide, hspace, keeps_boundary hpre hcursor hclose rfl (by decide)⟩
        · exact ⟨'.', by decide, hdot, keeps_boundary hpre hcursor hclose rfl (by decide)⟩
      | MustFollow owed =>
        have hbyte := owed_byte (lastClose_mem hclose)
        have hbound : owed ∈ lit " .-(" := List.mem_cons_of_mem _ hbyte
        exact ⟨owed, (boundary_table owed hbound).1, hwhole,
          keeps_boundary hpre hcursor hclose (by simp [NameClose.admits]) hbound⟩

end names

/-! ## A byte that is left -/

/-- Some printable byte lives on and is kept by every rule of the stream. -/
def Leaves (t : ScopeTracker) (schema : Schema) (p : Pda) : Prop :=
  ∃ b, isPlain b = true ∧ takes p b = true ∧ t.keeps schema p.state [b] = true

/-- A byte that a state takes with no frame open. -/
def lives (s : State) (b : UInt8) : Bool := step s none b ≠ .Dead

theorem takes_of_lives {p : Pda} {b : UInt8} (h : lives p.state b = true) : takes p b = true := by
  have hdead : step p.state none b ≠ .Dead := of_decide_eq_true h
  have hstep : step p.state p.stack.head? b = step p.state none b := by
    cases p.stack.head? with
    | none => rfl
    | some f => exact step_monotone p.state f b hdead
  unfold takes
  rw [Option.isSome_iff_ne_none, Ne, advance_eq_none, hstep]
  exact hdead

/-- The first byte of the word that completes the open term. -/
def spare (s : State) : UInt8 := (lit (finish s)).headD 0

theorem state_table : ∀ s : State,
    (lit (finish s) = spare s :: (lit (finish s)).tail ∧ isPlain (spare s) = true ∧
      spare s ≠ '$') ∧
    ((endsMilestoneArg s || s = .InStrLit true) = true → lives s ' ' = true) ∧
    ((s ∈ [State.ExpectSource, .BlockStmt, .BlockStmtClose, .ExpectBinderValue, .AfterDot,
      .AfterArrow, .SawDash] ++ TERM_STATES ++ OPERAND_OPENERS → lives s ' ' = true) ∧
      (s = .SawDash → lives s '>' = true)) ∧
    (State.ExpectBinderValue ∈ anchors s → s = .SourceColon ∨ spare s ≠ ':') := by
  decide +kernel

theorem spare_table (s : State) : lit (finish s) = spare s :: (lit (finish s)).tail ∧
    isPlain (spare s) = true ∧ spare s ≠ '$' :=
  (state_table s).1

theorem takes_spare {p : Pda} (h : stands p.state p.stack.head? = true) :
    takes p (spare p.state) = true := by
  obtain ⟨q, hrun, -⟩ := finish_runs p h
  rw [(spare_table p.state).1, run_cons, Option.bind_eq_some_iff] at hrun
  obtain ⟨d, hd, -⟩ := hrun
  unfold takes
  rw [hd]
  rfl

section leaves

variable {t : ScopeTracker} {schema : Schema} {p : Pda}

theorem leaves_of {b : UInt8} (hplain : isPlain b = true) (htakes : takes p b = true)
    (hsigil : b ≠ '$' ∨ p.state.opensRefvarSigil = false)
    (hrule : (t.rule schema p.state).all (·.keep [b]) = true) : Leaves t schema p := by
  refine ⟨b, hplain, htakes, ?_⟩
  have hkeep : (t.sigilRule p.state).all (·.keep [b]) = true := by
    unfold sigilRule
    split
    · next hmasks =>
      rcases hsigil with hne | hstate
      · simpa [keepsUnboundSigil, opensWith] using hne
      · simp [masksUnboundSigil, hstate] at hmasks
    · rfl
  have hfused : (t.fusedNavRule schema).all (·.keep [b]) = true := by
    have hnone : fusedPostDot [b] = none := by simp [fusedPostDot]
    have hkeeps : ∀ names, keepsFused names [b] = true := by
      intro names
      unfold keepsFused
      rw [hnone]
    unfold fusedNavRule
    cases t.fusedNavPosition schema with
    | none => rfl
    | some pos =>
      cases pos with
      | Member cls => exact hkeeps _
      | RelationColumn => exact hkeeps _
      | _ => rfl
  rw [keeps, hrule, hkeep, hfused]
  rfl

/-- Where no rule applies, the automaton goes on. -/
theorem leaves_none (hstands : stands p.state p.stack.head? = true)
    (h : t.rule schema p.state = none) : Leaves t schema p := by
  obtain ⟨-, hplain, hne⟩ := spare_table p.state
  refine leaves_of hplain (takes_spare hstands) (.inl hne) ?_
  rw [h]
  rfl

theorem leaves_space (hlives : lives p.state ' ' = true)
    (hrule : (t.rule schema p.state).all (·.keep (lit " ")) = true) : Leaves t schema p :=
  leaves_of (b := ' ') (by decide) (takes_of_lives hlives) (.inl (by decide)) hrule

theorem leaves_operand (htrie : TrieRule.ofPosition (t.position p.state) schema
      t.emittedColumns t.boundVariables = none) {b : UInt8} (hplain : isPlain b = true)
    (hlives : lives p.state b = true) (hne : b ≠ '$')
    (hkeep : ((operandKey (t.position p.state) t.narrowPrefix).bind keyRule).all (·.keep [b]) =
      true) : Leaves t schema p := by
  refine leaves_of hplain (takes_of_lives hlives) (.inl hne) ?_
  unfold rule ruleAt
  rw [htrie]
  exact hkeep

/-! ## Behind an argument -/

/-- The rules behind a whole argument or a whole literal. -/
def separates : L2Position → Bool
  | .StoreMethodArgSep _ | .SourceMethodArgSep _ _ | .PropertyMethodArgSep _ _
  | .StrOperator false => true
  | _ => false

theorem argument_table (s : State) (h : (endsMilestoneArg s || s = .InStrLit true) = true) :
    lives s ' ' = true :=
  (state_table s).2.1 h

/-- The rule behind an argument stands where a space lives, and every other
rule is that of the open lexeme or of one that would open. -/
theorem position_cases (t : ScopeTracker) (s : State) :
    (separates (t.position s) = true ∧ lives s ' ' = true) ∨ t.position s = t.basePosition s := by
  have hends : s.completesATerm = true → endsMilestoneArg s = true := by
    intro h
    simp [endsMilestoneArg, h]
  unfold position
  cases hstore : t.storeMethodArgSep s with
  | some sep =>
    unfold storeMethodArgSep at hstore
    rw [Option.bind_eq_some_iff] at hstore
    obtain ⟨arity, -, hsep⟩ := hstore
    split at hsep
    · next hstate =>
      obtain rfl := Option.some.inj hsep
      refine .inl ⟨rfl, argument_table s ?_⟩
      rw [Bool.or_eq_true] at hstate ⊢
      exact hstate.imp_left hends
    · cases hsep
  | none =>
    cases hsource : t.sourceMethodArgSep s with
    | some sep =>
      unfold sourceMethodArgSep at hsource
      split at hsource
      · cases hsource
      · rw [Option.bind_eq_some_iff] at hsource
        obtain ⟨required, -, hsep⟩ := hsource
        split at hsep
        · next hstate =>
          obtain rfl := Option.some.inj hsep
          exact .inl ⟨rfl, argument_table s (by rw [hstate]; rfl)⟩
        · cases hsep
    | none =>
      cases hproperty : t.propertyMethodArgSep s with
      | some sep =>
        unfold propertyMethodArgSep at hproperty
        split at hproperty
        · cases hproperty
        · rw [Option.bind_eq_some_iff] at hproperty
          obtain ⟨required, -, hsep⟩ := hproperty
          split at hsep
          · next hstate =>
            obtain rfl := Option.some.inj hsep
            exact .inl ⟨rfl, argument_table s (by rw [hstate]; rfl)⟩
          · cases hsep
      | none =>
        dsimp only
        split
        · next hquote =>
          simp only [Bool.and_eq_true, decide_eq_true_eq] at hquote
          refine .inl ⟨rfl, argument_table s ?_⟩
          rw [hquote.2]
          rfl
        · exact .inr rfl

theorem separates_no_trie {pos : L2Position} {columns : List (List UInt8)} {vars : List Text}
    (h : separates pos = true) : TrieRule.ofPosition pos schema columns vars = none := by
  cases pos <;> first | rfl | cases h

theorem leaves_separates (h : separates (t.position p.state) = true)
    (hlives : lives p.state ' ' = true) : Leaves t schema p := by
  cases hpos : t.position p.state with
  | StoreMethodArgSep remaining =>
    exact leaves_operand (by rw [hpos]; rfl) (by decide) hlives (by decide) (by rw [hpos]; rfl)
  | SourceMethodArgSep remaining state =>
    exact leaves_operand (by rw [hpos]; rfl) (by decide) hlives (by decide) (by rw [hpos]; rfl)
  | PropertyMethodArgSep remaining state =>
    exact leaves_operand (by rw [hpos]; rfl) (by decide) hlives (by decide) (by rw [hpos]; rfl)
  | StrOperator after_dash =>
    cases after_dash with
    | true => rw [hpos] at h; cases h
    | false =>
      exact leaves_operand (by rw [hpos]; rfl) (by decide) hlives (by decide) (by rw [hpos]; rfl)
  | _ => rw [hpos] at h; cases h

/-! ## In a gap -/

theorem openers_table (s : State) :
    (s ∈ [State.ExpectSource, .BlockStmt, .BlockStmtClose, .ExpectBinderValue, .AfterDot,
      .AfterArrow, .SawDash] ++ TERM_STATES ++ OPERAND_OPENERS → lives s ' ' = true) ∧
    (s = .SawDash → lives s '>' = true) :=
  (state_table s).2.2.1

/-- Where a rule opens, a space lives, but for the name of a variable. -/
theorem opener_space {pos : L2Position} {s : State} (h : s ∈ openers pos)
    (hident : pos ≠ .ValueIdent) : lives s ' ' = true ∨ pos = .RefVar := by
  have htable := (openers_table s).1
  cases pos with
  | RefVar => exact .inr rfl
  | ValueIdent => exact absurd rfl hident
  | SourceIdent =>
    simp only [openers, List.mem_cons, List.not_mem_nil, or_false] at h
    rcases h with rfl | rfl | rfl <;> exact .inl (htable (by decide))
  | SourceExtent after_dash => cases after_dash <;> exact .inl (htable (by simp_all [openers]))
  | StoreResult after_dash => cases after_dash <;> exact .inl (htable (by simp_all [openers]))
  | StrOperator after_dash => cases after_dash <;> exact .inl (htable (by simp_all [openers]))
  | _ => exact .inl (htable (by simp_all [openers]))

theorem opener_dash {pos : L2Position} {s : State} (h : s ∈ openers pos)
    (hdash : afterDash pos = true) : s = .SawDash := by
  cases pos with
  | SourceExtent after_dash => cases after_dash with
    | true => exact List.mem_singleton.mp h
    | false => cases hdash
  | StoreResult after_dash => cases after_dash with
    | true => exact List.mem_singleton.mp h
    | false => cases hdash
  | StrOperator after_dash => cases after_dash with
    | true => exact List.mem_singleton.mp h
    | false => cases hdash
  | _ => cases hdash

theorem afterDash_no_trie {pos : L2Position} (hdash : afterDash pos = true)
    (columns : List (List UInt8)) (vars : List Text) :
    TrieRule.ofPosition pos schema columns vars = none := by
  cases pos <;> first | rfl | cases hdash

theorem plain_of_identStart {b : UInt8} (h : isIdentStart b = true) : isPlain b = true := by
  simp only [isIdentStart, isAsciiAlphabetic, Bool.or_eq_true, Bool.and_eq_true,
    decide_eq_true_eq, UInt8.le_iff_toNat_le, ← UInt8.toNat_inj] at h
  simp only [isPlain, Bool.or_eq_true, Bool.and_eq_true, decide_eq_true_eq,
    UInt8.le_iff_toNat_le]
  simp only [Char.toUInt8] at h
  simp at h ⊢
  omega

/-- A variable that is bound has a first byte that the automaton takes. -/
theorem leaves_var (hvars : ∀ name ∈ t.bound_vars, opensName name = true)
    (hgap : t.narrowPrefix = []) (hstands : stands p.state p.stack.head? = true)
    (hpos : t.position p.state = .RefVar) (hstate : p.state = .AfterDollar) :
    Leaves t schema p := by
  cases hbound : t.bound_vars with
  | nil =>
    refine leaves_none hstands ?_
    unfold rule ruleAt boundVariables
    rw [hpos, hbound]
    rfl
  | cons name rest =>
    have hname := hvars name (by rw [hbound]; exact List.mem_cons_self)
    unfold opensName at hname
    rw [Option.any_eq_true] at hname
    obtain ⟨b, hb, hident⟩ := hname
    have htable : ∀ x : UInt8, isIdentStart x = true →
        lives .AfterDollar x = true ∧ isPlain x = true := by
      intro x hx
      refine ⟨?_, plain_of_identStart hx⟩
      simp [lives, step, stepAfterDollar, hx]
    obtain ⟨hlives, hplain⟩ := htable b hident
    have hwalk : ∃ c, walk (Names.RefVar (name :: rest)).build 0 .Plain [b] = .Stay c := by
      have hrep := Trie.fromClosingNames_represents (Names.RefVar (name :: rest)).closing
      have hpath := (hrep.paths [b]).mpr
      obtain ⟨tail, rfl⟩ := List.head?_eq_some_iff.mp hb
      have hfirst : (b :: tail, NameClose.Free) ∈ (Names.RefVar ((b :: tail) :: rest)).closing := by
        simp [Names.closing, free]
      obtain ⟨c, hc⟩ := Option.isSome_iff_exists.mp (hpath (.inr ⟨_, hfirst, ⟨tail, rfl⟩⟩))
      exact ⟨c, (walk_stay_iff _ _ _ _ _).mpr hc⟩
    obtain ⟨c, hc⟩ := hwalk
    refine leaves_of hplain (takes_of_lives (by rw [hstate]; exact hlives)) (.inr ?_) ?_
    · rw [hstate]
      rfl
    · have htail : isIdentTail b = true := by rw [identTail_iff, hident]; rfl
      unfold rule ruleAt boundVariables
      rw [hpos, hbound, hgap]
      show keepsTrieToken (Names.RefVar (name :: rest)).build 0 .Ident [b] = true
      unfold keepsTrieToken
      simp only [isCandidate, htail, if_true, keepsCandidate, TrieKind.shape, hc]

theorem leaves_gap (ht : Synced t p) (hstands : stands p.state p.stack.head? = true)
    (hgap : p.state.lexemeKind = none) (hbase : t.position p.state = t.basePosition p.state) :
    Leaves t schema p := by
  have hpending : t.pending = none := by
    have h := ht.inStep
    unfold InStep at h
    rw [hgap, Option.map_eq_none_iff] at h
    exact h
  have hpre : t.narrowPrefix = [] := by
    unfold narrowPrefix
    rw [hpending]
  have hopening : t.position p.state = .None ∨
      (t.position p.state = t.openingPosition p.state ∧ t.openingPosition p.state ≠ .ValueIdent) := by
    rw [hbase]
    unfold basePosition valueIdentNarrows
    rw [hgap, hpending]
    dsimp only [Option.isSome_none]
    by_cases hident : t.openingPosition p.state = .ValueIdent
    · exact .inl (by simp [hident])
    · exact .inr (by simp [hident])
  rcases hopening with hnone | ⟨hpos, hident⟩
  · refine leaves_none hstands ?_
    unfold rule
    rw [hnone]
    rfl
  · rcases opening_openers t p.state with hnone | hopener
    · refine leaves_none hstands ?_
      unfold rule
      rw [hpos, hnone]
      rfl
    · rw [← hpos] at hopener hident
      cases hdash : afterDash (t.position p.state) with
      | true =>
        have hstate := opener_dash hopener hdash
        exact leaves_operand (afterDash_no_trie hdash _ _) (by decide)
          ((openers_table p.state).2 hstate) (by decide) (dash_arrow hdash _)
      | false =>
        rcases opener_space hopener hident with hlives | hvar
        · refine leaves_space hlives ?_
          unfold rule
          rw [hpre]
          exact ruleAt_space hident hdash
        · rw [hvar] at hopener
          exact leaves_var ht.named hpre hstands hvar (List.mem_singleton.mp hopener)

/-! ## In a lexeme -/

theorem cursorOf_follow (names : Names) (kind : TrieKind) {pre : List UInt8} (hpre : pre ≠ []) :
    cursorOf ⟨names.build, kind, []⟩ pre = names.build.follow 0 pre := by
  unfold cursorOf
  rw [if_neg (by simpa using hpre)]
  cases hf : names.build.follow 0 pre with
  | some cursor =>
    have hwalk := (walk_stay_iff names.build 0 cursor kind.shape pre).mpr hf
    simp only [Trie.root, hwalk]
  | none =>
    cases hwalk : walk names.build 0 kind.shape pre with
    | Stay cursor =>
      rw [walk_stay_iff, hf] at hwalk
      cases hwalk
    | Complete n b => simp only [Trie.root, hwalk]
    | Diverge => simp only [Trie.root, hwalk]

theorem lexeme_sigil : ∀ s : State, s.lexemeKind.isSome = true → s.opensRefvarSigil = false := by
  decide

/-- Between the names of a `let`, only the colons of a path are held to them. -/
theorem binder_table (s : State) (h : State.ExpectBinderValue ∈ anchors s) :
    s = .SourceColon ∨ spare s ≠ ':' :=
  (state_table s).2.2.2 h

theorem leaves_names {rule : TrieRule} (hstands : stands p.state p.stack.head? = true)
    (hlexeme : p.state.lexemeKind.isSome = true) (hpre : t.narrowPrefix ≠ [])
    (hrule : TrieRule.ofPosition (t.position p.state) schema t.emittedColumns t.boundVariables =
      some rule) (hopen : t.nameOpen schema p = true)
    (hbinder : rule.kind = .ClassPathContinuation → State.ExpectBinderValue ∈ anchors p.state) :
    Leaves t schema p := by
  have hat : t.rule schema p.state = (rule.names.build.follow 0 t.narrowPrefix).map fun cursor =>
      trieRule rule.names.build cursor rule.kind := by
    unfold ScopeTracker.rule ruleAt
    rw [hrule]
    dsimp only
    rw [cursorOf_follow rule.names rule.kind hpre]
  cases hcursor : rule.names.build.follow 0 t.narrowPrefix with
  | none => exact leaves_none hstands (by rw [hat, hcursor]; rfl)
  | some cursor =>
    rw [hcursor] at hat
    have hsigil := lexeme_sigil p.state hlexeme
    have hbegins : (rule.names.closing.any fun e => t.narrowPrefix.isPrefixOf e.1) = true := by
      have hrep := Trie.fromClosingNames_represents rule.names.closing
      have hpath := (hrep.paths t.narrowPrefix).mp (by
        show (rule.names.build.follow 0 t.narrowPrefix).isSome = true
        rw [hcursor]
        rfl)
      rcases hpath with hnil | ⟨e, he, hpre'⟩
      · exact absurd hnil hpre
      · exact List.any_eq_true.mpr ⟨e, he, List.isPrefixOf_iff_prefix.mpr hpre'⟩
    unfold nameOpen at hopen
    rw [hrule] at hopen
    simp only [hbegins, Bool.not_true, Bool.or_false, Bool.or_eq_true, List.isEmpty_iff, hpre,
      false_or, Bool.and_eq_true, decide_eq_true_eq] at hopen
    rcases hopen with ⟨hkind, hcolon⟩ | hgo
    · obtain ⟨-, hplain, hne⟩ := spare_table p.state
      have hspare : spare p.state ≠ ':' :=
        (binder_table p.state (hbinder hkind)).resolve_left hcolon
      refine leaves_of hplain (takes_spare hstands) (.inl hne) ?_
      rw [hat]
      show keepsTrieToken rule.names.build cursor rule.kind [spare p.state] = true
      have hnot : isCandidate .ClassPathContinuation
          (decide (namePoint rule.names.build cursor ≠ .Anchor)) [spare p.state] = false := by
        simpa [isCandidate] using hspare.symm
      unfold keepsTrieToken
      rw [hkind]
      dsimp only
      rw [if_neg (ne_true_of_eq_false hnot), if_pos rfl]
    · obtain ⟨b, hplain, htakes, hkeep⟩ := keeps_of_goesOn hpre hcursor hgo
      refine leaves_of hplain htakes (.inr hsigil) ?_
      rw [hat]
      exact hkeep

/-- A lexeme that opened where an argument or an operand was asked for is past
that rule. -/
def passed : L2Position → Bool
  | .ReValue _ | .SourceMethodArg _ _ | .PropertyMethodArg _ _ | .StoreMethodArg
  | .ExtentMethodArg _ => true
  | _ => false

/-- The rule of an open lexeme opened at its anchor. -/
theorem opened_openers {waiting : Pending} {s : State} (h : Opened waiting s) :
    waiting.pos = .None ∨ waiting.pos = .ValueIdent ∨
      (waiting.anchor ∈ openers waiting.pos ∧ passed waiting.pos = false) := by
  obtain ⟨u, hu⟩ := h.pos
  have hopening := opening_openers u waiting.anchor
  rw [hu]
  cases hpos : u.openingPosition waiting.anchor <;> rw [hpos] at hopening <;>
    cases waiting.kind <;>
    first
    | exact .inl rfl
    | exact .inr (.inl rfl)
    | exact .inr (.inr ⟨hopening.resolve_left nofun, rfl⟩)

theorem lexeme_table : ∀ s : State,
    (s.lexemeKind = some .Ident → lives s 'a' = true ∨ lives s ':' = true) ∧
    (State.AfterArrow ∈ anchors s → lives s 'a' = true) ∧
    (State.SawDash ∈ anchors s → s ∈ OWING_STATES ∨ lives s '>' = true) ∧
    (∀ a ∈ OPERAND_OPENERS, a ∈ anchors s → s ∈ OWING_STATES ∨ lives s ' ' = true) ∧
    (∀ a ∈ TERM_STATES, a ∉ anchors s) := by
  decide +kernel

/-- The byte that a literal owes and that a logical operand keeps. -/
theorem logical_table : ∀ s ∈ OWING_STATES, s ∈ DIGIT_STATES ∨
    ∃ b ∈ lit "+lates", lives s b = true ∧ isPlain b = true ∧ b ≠ '$' ∧
      keepsLogicalOperand [b] = true := by
  decide +kernel

theorem reducer_byte (tc : TypeClass) (b : UInt8) : keepsReducer tc [b] = true := by
  have hsum : ([b] = lit "sum") = False := by simp [lit]
  have haverage : ([b] = lit "average") = False := by simp [lit]
  simp [keepsReducer, hsum, haverage]

/-- An open value name goes on by a letter, or by the colons of its path. -/
theorem leaves_valueIdent (hkind : p.state.lexemeKind = some .Ident)
    (hpos : t.position p.state = .ValueIdent) : Leaves t schema p := by
  rcases (lexeme_table p.state).1 hkind with hlives | hlives
  · exact leaves_operand (by rw [hpos]; rfl) (by decide) hlives (by decide) (by rw [hpos]; rfl)
  · exact leaves_operand (by rw [hpos]; rfl) (by decide) hlives (by decide) (by rw [hpos]; rfl)

theorem leaves_dash {a : State} (ha : a ∈ anchors p.state) (hanchor : a = .SawDash)
    (hdash : afterDash (t.position p.state) = true)
    (hliteral : (!OWING_STATES.contains p.state) = true) : Leaves t schema p := by
  have howing : p.state ∉ OWING_STATES := by simpa using hliteral
  rw [hanchor] at ha
  have hlives := ((lexeme_table p.state).2.2.1 ha).resolve_left howing
  exact leaves_operand (afterDash_no_trie hdash _ _) (by decide) hlives (by decide)
    (dash_arrow hdash _)

/-- The rules of an open lexeme that no trie decides. -/
theorem leaves_opened {a : State} (hstands : stands p.state p.stack.head? = true)
    (ha : a ∈ anchors p.state) (hopener : a ∈ openers (t.position p.state))
    (hpassed : passed (t.position p.state) = false) (hident : t.position p.state ≠ .ValueIdent)
    (hliteral : literalOpen (t.position p.state) p.state = true)
    (htrie : TrieRule.ofPosition (t.position p.state) schema t.emittedColumns t.boundVariables =
      none) : Leaves t schema p := by
  obtain ⟨-, harrow, hdash, hoperand, hterm⟩ := lexeme_table p.state
  cases hpos : t.position p.state with
  | ReceiverOnlyArg =>
    rw [hpos] at hopener hliteral
    have howing : p.state ∉ OWING_STATES := by simpa [literalOpen] using hliteral
    have hlives := (hoperand a hopener ha).resolve_left howing
    exact leaves_operand htrie (by decide) hlives (by decide) (by rw [hpos]; rfl)
  | LogicalOperand =>
    rw [hpos] at hopener hliteral
    have hdigit : p.state ∉ DIGIT_STATES := by simpa [literalOpen] using hliteral
    rcases hoperand a hopener ha with howing | hlives
    · obtain ⟨b, -, hlives, hplain, hne, hkeep⟩ :=
        (logical_table p.state howing).resolve_left hdigit
      exact leaves_operand htrie hplain hlives hne (by rw [hpos]; exact hkeep)
    · exact leaves_operand htrie (by decide) hlives (by decide) (by rw [hpos]; rfl)
  | Reducer tc =>
    obtain ⟨-, hplain, hne⟩ := spare_table p.state
    refine leaves_of hplain (takes_spare hstands) (.inl hne) ?_
    unfold rule ruleAt
    rw [htrie, hpos]
    exact reducer_byte tc _
  | ExtentMethod =>
    rw [hpos] at hopener
    obtain rfl : a = .AfterArrow := List.mem_singleton.mp hopener
    exact leaves_operand htrie (by decide) (harrow ha) (by decide)
      (by rw [hpos]; exact denied_tail rfl _)
  | ScalarMethod tc =>
    rw [hpos] at hopener
    obtain rfl : a = .AfterArrow := List.mem_singleton.mp hopener
    exact leaves_operand htrie (by decide) (harrow ha) (by decide)
      (by rw [hpos]; exact denied_tail rfl _)
  | SourceExtent after_dash =>
    rw [hpos] at hopener hliteral
    cases after_dash with
    | true => exact leaves_dash ha (List.mem_singleton.mp hopener) (by rw [hpos]; rfl) hliteral
    | false => exact absurd ha (hterm a hopener)
  | StoreResult after_dash =>
    rw [hpos] at hopener hliteral
    cases after_dash with
    | true => exact leaves_dash ha (List.mem_singleton.mp hopener) (by rw [hpos]; rfl) hliteral
    | false => exact absurd ha (hterm a hopener)
  | StrOperator after_dash =>
    rw [hpos] at hopener hliteral
    cases after_dash with
    | true => exact leaves_dash ha (List.mem_singleton.mp hopener) (by rw [hpos]; rfl) hliteral
    | false => exact absurd ha (hterm a hopener)
  | Comparator tc => rw [hpos] at hopener; exact absurd ha (hterm a hopener)
  | OrderedOperand => rw [hpos] at hopener; exact absurd ha (hterm a hopener)
  | ValueIdent => exact absurd hpos hident
  | RefVar =>
    refine leaves_none hstands ?_
    unfold rule ruleAt
    rw [htrie, hpos]
    rfl
  | ReValue tc => rw [hpos] at hpassed; cases hpassed
  | SourceMethodArg required seen => rw [hpos] at hpassed; cases hpassed
  | PropertyMethodArg required seen => rw [hpos] at hpassed; cases hpassed
  | StoreMethodArg => rw [hpos] at hpassed; cases hpassed
  | ExtentMethodArg arg => rw [hpos] at hpassed; cases hpassed
  | StoreMethodArgSep remaining => rw [hpos] at hopener; cases hopener
  | SourceMethodArgSep remaining state => rw [hpos] at hopener; cases hopener
  | PropertyMethodArgSep remaining state => rw [hpos] at hopener; cases hopener
  | None => rw [hpos] at hopener; cases hopener
  | SourceIdent => rw [hpos] at htrie; cases htrie
  | BinderValueSourceIdent => rw [hpos] at htrie; cases htrie
  | SourceMethod => rw [hpos] at htrie; cases htrie
  | StoreMethod => rw [hpos] at htrie; cases htrie
  | Member cls => rw [hpos] at htrie; cases htrie
  | Column => rw [hpos] at htrie; cases htrie
  | RelationColumn => rw [hpos] at htrie; cases htrie

theorem binder_kind {pos : L2Position} {columns : List (List UInt8)} {vars : List Text}
    {rule : TrieRule} (h : TrieRule.ofPosition pos schema columns vars = some rule)
    (hkind : rule.kind = .ClassPathContinuation) : pos = .BinderValueSourceIdent := by
  cases pos with
  | BinderValueSourceIdent => rfl
  | RefVar =>
    unfold TrieRule.ofPosition at h
    dsimp only at h
    split at h
    · cases h
    · cases h
      cases hkind
  | _ => cases h <;> cases hkind

/-- In a lexeme its bytes are open. -/
theorem Synced.prefix_ne (ht : Synced t p) (hlexeme : p.state.lexemeKind.isSome = true) :
    t.narrowPrefix ≠ [] := by
  have hstep := ht.inStep
  unfold InStep at hstep
  unfold narrowPrefix
  cases hp : t.pending with
  | some waiting => exact (ht.tracked waiting hp).bytes
  | none => rw [hp] at hstep; rw [← hstep] at hlexeme; cases hlexeme

/-- In a lexeme the rule in force is the one of the state that the lexeme opened at. -/
theorem opened_rule (ht : Synced t p) (hlexeme : p.state.lexemeKind.isSome = true)
    (hbase : t.position p.state = t.basePosition p.state) :
    t.position p.state = .None ∨
      (t.position p.state = .ValueIdent ∧ p.state.lexemeKind = some .Ident) ∨
      t.position p.state ≠ .ValueIdent ∧ ∃ a ∈ anchors p.state,
        a ∈ openers (t.position p.state) ∧ passed (t.position p.state) = false := by
  have hstep := ht.inStep
  unfold InStep at hstep
  obtain ⟨waiting, hwaiting⟩ : ∃ waiting, t.pending = some waiting := by
    cases hp : t.pending with
    | some waiting => exact ⟨waiting, rfl⟩
    | none => rw [hp] at hstep; rw [← hstep] at hlexeme; cases hlexeme
  have hopened := ht.tracked waiting hwaiting
  have hpos : t.position p.state = .None ∨ (t.position p.state = waiting.pos ∧
      (waiting.pos = .ValueIdent → waiting.kind = .Ident)) := by
    rw [hbase]
    unfold basePosition valueIdentNarrows
    rw [if_pos hlexeme, hwaiting]
    dsimp only
    split
    · exact .inl rfl
    · next hnarrows =>
      refine .inr ⟨rfl, fun hident => ?_⟩
      simp only [hident, decide_true, Bool.true_and, Bool.not_eq_true', Bool.not_eq_false,
        Option.any_some, Bool.and_eq_true, decide_eq_true_eq] at hnarrows
      exact hnarrows.1
  rcases hpos with h | ⟨hpos, hkind⟩
  · exact .inl h
  · rw [hpos]
    by_cases hident : waiting.pos = .ValueIdent
    · refine .inr (.inl ⟨hident, ?_⟩)
      rw [← hstep, hwaiting, Option.map_some, hkind hident]
    · rcases opened_openers hopened with h | h | ⟨hopener, hpassed⟩
      · exact .inl h
      · exact absurd h hident
      · exact .inr (.inr ⟨hident, waiting.anchor, hopened.anchor, hopener, hpassed⟩)

theorem leaves_lexeme (ht : Synced t p) (hstands : stands p.state p.stack.head? = true)
    (hlexeme : p.state.lexemeKind.isSome = true)
    (hbase : t.position p.state = t.basePosition p.state)
    (hopen : t.unstuck schema p = true) : Leaves t schema p := by
  obtain ⟨hliteral, hname⟩ := Bool.and_eq_true_iff.mp hopen
  rcases opened_rule ht hlexeme hbase with hnone | ⟨hident, hkind⟩ | ⟨hident, a, ha, hopener, hpassed⟩
  · refine leaves_none hstands ?_
    unfold rule
    rw [hnone]
    rfl
  · exact leaves_valueIdent hkind hident
  · cases htrie : TrieRule.ofPosition (t.position p.state) schema t.emittedColumns
        t.boundVariables with
    | none => exact leaves_opened hstands ha hopener hpassed hident hliteral htrie
    | some rule =>
      refine leaves_names hstands hlexeme (ht.prefix_ne hlexeme) htrie hname fun hcontinuation => ?_
      rw [binder_kind htrie hcontinuation] at hopener
      rw [← List.mem_singleton.mp hopener]
      exact ha

/-! ## The spelling of names -/

/-- The bytes that go on with a name from a state, or with a path of names. -/
def goesFrom : State → UInt8 → Bool
  | .SourceColon, byte => byte = ':'
  | .SourceColon2, byte => isIdentStart byte
  | .InSourceIdent, byte | .LetL, byte | .LetLe, byte | .LetLet, byte
  | .InBinderValueIdent, byte => isIdentTail byte || byte = ':'
  | _, byte => isIdentTail byte

/-- How the rest of a name is spelled behind the open bytes: it ends, though not
between the colons of a path, or its next byte goes on with the name. -/
def spelledFrom (s : State) : List UInt8 → Bool
  | [] => s ≠ .SourceColon && s ≠ .SourceColon2
  | byte :: _ => goesFrom s byte

theorem goesFrom_keyByte (s : State) (b : UInt8) : goesFrom s (keyByte b) = goesFrom s b := by
  have h := keyByte_spelled b
  simp only [SPELLED, List.map_cons, List.map_nil, List.Forall] at h
  cases s <;> simp only [goesFrom, h, isIdentStart_keyByte, isIdentTail_keyByte]

theorem lives_keyByte (s : State) (b : UInt8) : lives s (keyByte b) = lives s b := by
  unfold lives
  rw [step_keyByte]

/-- The states where a name opens that a rule decides. -/
def NAME_OPENERS : List State :=
  [.ExpectSource, .BlockStmt, .BlockStmtClose, .ExpectBinderValue, .AfterDollar, .AfterDot,
    .AfterArrow] ++ OPERAND_OPENERS

/-- Inside a name the automaton takes the bytes that go on with it, and behind it
a space or a dot. -/
theorem name_table : ∀ s : State, s.lexemeKind = some .Ident → ∀ a ∈ NAME_OPENERS,
    a ∈ anchors s → (∀ b ∈ KEY_BYTES, goesFrom s b = true → lives s b = true) ∧
      (spelledFrom s [] = true → lives s ' ' = true ∨ lives s '.' = true) := by
  decide +kernel

/-- Behind the name of a source it takes a dot or a dash, and behind the name of
a method a parenthesis. -/
theorem owed_table : ∀ s : State, s.lexemeKind = some .Ident → ∀ a ∈ anchors s,
    (a ∈ [State.ExpectSource, .BlockStmt, .BlockStmtClose, .ExpectBinderValue] →
      spelledFrom s [] = true → lives s '.' = true ∧ lives s '-' = true) ∧
    (a ∈ [State.AfterDot, .AfterArrow] → lives s '(' = true) ∧
    (a ∈ [State.AfterDollar, .AfterDot] → s = .InMemberIdent) := by
  decide +kernel

theorem tail_of_goesFrom {s : State} {b : UInt8} (h : goesFrom s b = true) :
    isIdentTail b = true ∨ b = ':' := by
  cases s <;> simp_all [goesFrom, identTail_iff]

theorem plain_of_identTail {b : UInt8} (h : isIdentTail b = true) : isPlain b = true := by
  rw [identTail_iff, Bool.or_eq_true] at h
  rcases h with h | h
  · exact plain_of_identStart h
  · simp only [isAsciiDigit, Bool.and_eq_true, decide_eq_true_eq, UInt8.le_iff_toNat_le] at h
    simp only [isPlain, Bool.or_eq_true, Bool.and_eq_true, decide_eq_true_eq,
      UInt8.le_iff_toNat_le]
    simp only [Char.toUInt8] at h
    simp at h ⊢
    omega

theorem plain_of_goesFrom {s : State} {b : UInt8} (h : goesFrom s b = true) : isPlain b = true := by
  rcases tail_of_goesFrom h with htail | rfl
  · exact plain_of_identTail htail
  · decide

section spelling

variable {pos : L2Position} {rule : TrieRule} {s a : State} {b : UInt8}
  {columns : List (List UInt8)} {vars : List Text}

theorem rule_opener (hrule : TrieRule.ofPosition pos schema columns vars = some rule)
    (ha : a ∈ openers pos) : a ∈ NAME_OPENERS := by
  have hsub : openers pos ⊆ NAME_OPENERS := by
    cases pos with
    | SourceIdent | BinderValueSourceIdent | RefVar | SourceMethod | StoreMethod | Column
    | RelationColumn => decide
    | Member cls => exact (by decide : [State.AfterDot] ⊆ NAME_OPENERS)
    | _ => cases hrule
  exact hsub ha

/-- A byte that goes on with the name is one that its rule decides. -/
theorem candidate_of_goesFrom (hrule : TrieRule.ofPosition pos schema columns vars = some rule)
    (ha : a ∈ openers pos) (hanchor : a ∈ anchors s) (hident : s.lexemeKind = some .Ident)
    (hcolon : rule.kind = .ClassPathContinuation → s = .SourceColon) (h : goesFrom s b = true) :
    isCandidate rule.kind true [b] = true := by
  have hmember : a ∈ [State.AfterDollar, .AfterDot] → isIdentTail b = true := fun hin => by
    obtain rfl := (owed_table s hident a hanchor).2.2 hin
    exact h
  unfold TrieRule.ofPosition at hrule
  cases pos with
  | SourceIdent =>
    obtain rfl := Option.some.inj hrule
    simpa [isCandidate] using tail_of_goesFrom h
  | BinderValueSourceIdent =>
    obtain rfl := Option.some.inj hrule
    obtain rfl := hcolon rfl
    simpa [goesFrom, isCandidate, eq_comm] using h
  | RelationColumn =>
    obtain rfl := Option.some.inj hrule
    exact hmember (List.mem_cons_of_mem _ ha)
  | RefVar =>
    dsimp only at hrule
    split at hrule
    · cases hrule
    · obtain rfl := Option.some.inj hrule
      rw [List.mem_singleton.mp ha] at hmember
      exact hmember (by decide)
  | SourceMethod | StoreMethod | Member cls | Column =>
    obtain rfl := Option.some.inj hrule
    simp [isCandidate]
  | _ => cases hrule

/-- The byte that a whole name owes is one that the automaton takes. -/
theorem lives_owed {name : List UInt8} {owed : UInt8}
    (hrule : TrieRule.ofPosition pos schema columns vars = some rule)
    (ha : a ∈ openers pos) (hanchor : a ∈ anchors s) (hident : s.lexemeKind = some .Ident)
    (hwhole : spelledFrom s [] = true) (hmem : (name, .MustFollow owed) ∈ rule.names.closing) :
    lives s owed = true := by
  obtain ⟨hsource, hmethod, -⟩ := owed_table s hident a hanchor
  have hpath : a ∈ [State.ExpectSource, .BlockStmt, .BlockStmtClose, .ExpectBinderValue] →
      rule.names = .Source schema → lives s owed = true := by
    intro hin hnames
    obtain ⟨hdot, hdash⟩ := hsource hin hwhole
    rw [hnames] at hmem
    simp only [Names.closing, List.mem_append, List.mem_map, Prod.mk.injEq] at hmem
    rcases hmem with ⟨path, -, -, hclose⟩ | hlet
    · unfold sourceClose at hclose
      split at hclose
      · rw [← NameClose.MustFollow.inj hclose]
        exact hdot
      · rw [← NameClose.MustFollow.inj hclose]
        exact hdash
    · simp at hlet
  unfold TrieRule.ofPosition at hrule
  cases pos with
  | SourceIdent =>
    obtain rfl := Option.some.inj hrule
    exact hpath (List.mem_append_left [_] ha) rfl
  | BinderValueSourceIdent =>
    obtain rfl := Option.some.inj hrule
    exact hpath (List.mem_append_right [_, _, _] ha) rfl
  | SourceMethod =>
    obtain rfl := Option.some.inj hrule
    obtain ⟨-, rfl⟩ : name = SOURCE_METHOD ∧ owed = '(' := by simpa [Names.closing] using hmem
    exact hmethod (List.mem_append_left [_] ha)
  | StoreMethod =>
    obtain rfl := Option.some.inj hrule
    simp only [Names.closing, List.mem_map, Prod.mk.injEq] at hmem
    obtain ⟨e, -, -, hclose⟩ := hmem
    rw [← NameClose.MustFollow.inj hclose]
    exact hmethod (List.mem_append_right [_] ha)
  | Member cls | Column | RelationColumn =>
    obtain rfl := Option.some.inj hrule
    simp [Names.closing, free] at hmem
  | RefVar =>
    dsimp only at hrule
    split at hrule
    · cases hrule
    · obtain rfl := Option.some.inj hrule
      simp [Names.closing, free] at hmem
  | _ => cases hrule

end spelling

/-- The names of the rule in force that begin with the open bytes are spelled as the
automaton reads names from its state on. -/
def Spelled (t : ScopeTracker) (schema : Schema) (s : State) : Prop :=
  ∀ rule, TrieRule.ofPosition (t.position s) schema t.emittedColumns t.boundVariables = some rule →
    ∀ e ∈ rule.names.closing, t.narrowPrefix <+: e.1 →
      spelledFrom s (e.1.drop t.narrowPrefix.length) = true

/-- The automaton takes the next byte of a name that is spelled so, or what follows the
whole name. -/
theorem nameOpen_of_spelled (ht : Synced t p) (hident : p.state.lexemeKind = some .Ident)
    (hspelled : Spelled t schema p.state) : t.nameOpen schema p = true := by
  have hlexeme : p.state.lexemeKind.isSome = true := by rw [hident]; rfl
  unfold nameOpen
  cases hrule : TrieRule.ofPosition (t.position p.state) schema t.emittedColumns
      t.boundVariables with
  | none => rfl
  | some rule =>
    obtain ⟨a, hanchor, ha⟩ : ∃ a ∈ anchors p.state, a ∈ openers (t.position p.state) := by
      have hbase : t.position p.state = t.basePosition p.state := by
        rcases position_cases t p.state with ⟨hsep, -⟩ | hbase
        · rw [separates_no_trie hsep] at hrule
          cases hrule
        · exact hbase
      rcases opened_rule ht hlexeme hbase with hnone | ⟨hvalue, -⟩ | ⟨-, a, hanchor, ha, -⟩
      · rw [hnone] at hrule
        cases hrule
      · rw [hvalue] at hrule
        cases hrule
      · exact ⟨a, hanchor, ha⟩
    have hopener := rule_opener hrule ha
    obtain ⟨hnext, hend⟩ := name_table p.state hident a hopener hanchor
    by_cases hbegins : ∃ e ∈ rule.names.closing, t.narrowPrefix <+: e.1
    · obtain ⟨e, he, hpre⟩ := hbegins
      by_cases hcolon : rule.kind = .ClassPathContinuation → p.state = .SourceColon
      · have hgo : goesOn rule.names.closing rule.kind p t.narrowPrefix = true := by
          have hrest := hspelled rule hrule e he hpre
          unfold goesOn
          rw [Bool.or_eq_true]
          cases hdrop : e.1.drop t.narrowPrefix.length with
          | nil =>
            rw [hdrop] at hrest
            have hwhole : e.1 = t.narrowPrefix :=
              (hpre.eq_of_length_le (List.drop_eq_nil_iff.mp hdrop)).symm
            obtain ⟨close, hclose⟩ := Option.isSome_iff_exists.mp
              ((Trie.lastClose_isSome_iff rule.names.closing t.narrowPrefix).mpr ⟨e, he, hwhole⟩)
            refine .inr ?_
            rw [hclose]
            cases close with
            | Free =>
              dsimp only
              rw [Bool.or_eq_true]
              exact (hend hrest).imp takes_of_lives takes_of_lives
            | MustFollow owed =>
              have hmem := lastClose_mem hclose
              exact takes_of_lives (lives_owed hrule ha hanchor hident hrest hmem)
          | cons b rest =>
            rw [hdrop] at hrest
            have hlives := hnext (keyByte b) (keyByte_mem b) (by rw [goesFrom_keyByte]; exact hrest)
            rw [lives_keyByte] at hlives
            refine .inl (List.any_eq_true.mpr ⟨e, he, ?_⟩)
            rw [hdrop]
            simp only [List.head?_cons, Option.any_some, Bool.and_eq_true,
              List.isPrefixOf_iff_prefix]
            exact ⟨hpre, ⟨plain_of_goesFrom hrest, candidate_of_goesFrom hrule ha hanchor hident
              hcolon hrest⟩, takes_of_lives hlives⟩
        simp [hgo]
      · obtain ⟨hkind, hstate⟩ := Classical.not_imp.mp hcolon
        simp [hkind, hstate]
    · have hnone : (rule.names.closing.any fun e => t.narrowPrefix.isPrefixOf e.1) = false := by
        rw [List.any_eq_false]
        intro e he hpre
        exact hbegins ⟨e, he, List.isPrefixOf_iff_prefix.mp hpre⟩
      simp [hnone]

/-- No name that is spelled so is a dead end. -/
theorem unstuck_of_spelled (ht : Synced t p) (hident : p.state.lexemeKind = some .Ident)
    (hspelled : Spelled t schema p.state) : t.unstuck schema p = true := by
  have hliteral : ∀ s : State, s.lexemeKind = some .Ident →
      s ∉ OWING_STATES ∧ s ∉ DIGIT_STATES := by
    decide
  obtain ⟨howing, hdigit⟩ := hliteral p.state hident
  unfold unstuck
  rw [nameOpen_of_spelled ht hident hspelled, Bool.and_true]
  unfold literalOpen
  split <;> simp [howing, hdigit]

/-- A stream that is not stuck goes on by some byte. -/
theorem leaves_of_unstuck (ht : Synced t p) (hstands : stands p.state p.stack.head? = true)
    (hopen : t.unstuck schema p = true) : Leaves t schema p := by
  rcases position_cases t p.state with ⟨hsep, hlives⟩ | hbase
  · exact leaves_separates hsep hlives
  · cases hk : p.state.lexemeKind with
    | none => exact leaves_gap ht hstands hk hbase
    | some kind => exact leaves_lexeme ht hstands (by rw [hk]; rfl) hbase hopen

end leaves

end purecard.scope.ScopeTracker

namespace purecard.session.DecoderSession

open pushdown pda vocab compiled model scope

/-! ## The mask is never empty -/

/-- Every printable byte and every space is a token. -/
def HasPlain (v : Vocab) : Prop :=
  ∀ b, ScopeTracker.isPlain b = true → ∃ id, v.bytes id = some [b]

theorem overFixed_synced {v : Vocab} {schema : Schema} {ops : List Op} {pda : Pda}
    (hpda : (overFixed v (some schema) ops).cursor = .Fixed pda) :
    ScopeTracker.Synced (overFixed v (some schema) ops).tracker pda := by
  have hspells := overFixed_spells v schema ops
  obtain ⟨pda', hpda', hrun⟩ := hspells.cursor
  obtain rfl : pda' = pda := by
    rw [hpda] at hpda'
    exact (Cursor.Fixed.inj hpda').symm
  rw [hspells.tracker]
  exact ScopeTracker.observeAll_synced ScopeTracker.new_synced hrun

/-- After every run, a stream that is not stuck has a token in its mask. -/
theorem an_open_stream_has_a_token (v : Vocab) (hv : HasPlain v) (schema : Schema) (ops : List Op)
    {pda : Pda} (hpda : (overFixed v (some schema) ops).cursor = .Fixed pda)
    (hopen : (overFixed v (some schema) ops).tracker.unstuck schema pda = true) :
    ∃ id < v.len, (overFixed v (some schema) ops).allowedMask.mask.test id = true := by
  have hspells := overFixed_spells v schema ops
  have hvocab := (overFixed_same v (some schema) ops).2.1
  obtain ⟨pda', hpda', hrun⟩ := hspells.cursor
  obtain rfl : pda' = pda := by
    rw [hpda] at hpda'
    exact (Cursor.Fixed.inj hpda').symm
  have hsynced : ScopeTracker.Synced (overFixed v (some schema) ops).tracker pda' :=
    overFixed_synced hpda
  obtain ⟨b, hplain, htakes, hkeeps⟩ :=
    ScopeTracker.leaves_of_unstuck hsynced (stands_of_reads hrun) hopen
  obtain ⟨id, hid⟩ := hv b hplain
  have hid' : (overFixed v (some schema) ops).grammar.vocab.bytes id = some [b] := by
    rw [hvocab, hid]
  refine ⟨id, (v.bytes_eq_some_iff id).mp (by rw [hid]; rfl), ?_⟩
  have hadmits : Pda.admits pda' [b] = true := by
    unfold ScopeTracker.takes at htakes
    obtain ⟨d, hd⟩ := Option.isSome_iff_exists.mp htakes
    simp [Pda.admits, hd]
  rw [test_allowedMask hspells.bound hpda hid', hadmits, hkeeps]
  rfl

/-- Every printable byte and every space in a token of its own. -/
def plainTokens : List (List UInt8) :=
  (((List.range 256).map Nat.toUInt8).filter ScopeTracker.isPlain).map fun b => [b]

/-- The plain tokens, and two relations with one column up to a row of them. -/
def plainVocab : Vocab :=
  ⟨plainTokens ++ [lit "|A.all()->project(~", lit "['a b':x|$x.p])->filter(r|$r.",
    lit "['ab':x|$x.p])->filter(r|$r.a"], by decide +kernel⟩

theorem plainVocab_hasPlain : HasPlain plainVocab := by
  intro b hb
  have hmem : [b] ∈ plainVocab.tokens := by
    refine List.mem_append_left _ (List.mem_map.mpr ⟨b, List.mem_filter.mpr ⟨?_, hb⟩, rfl⟩)
    refine List.mem_map.mpr ⟨b.toNat, List.mem_range.mpr b.toNat_lt, ?_⟩
    simp
  obtain ⟨id, hid⟩ := List.mem_iff_getElem?.mp hmem
  exact ⟨id, hid⟩

/-- A column whose name has a space is a dead end: its row may be followed by
the first letter of the column, and no token is left behind the letter. Each
token of the run was masked in before it was read. -/
theorem a_column_with_a_space_is_a_dead_end :
    (overFixed plainVocab (some oneText) []).allowedMask.mask.test 99 = true ∧
      (overFixed plainVocab (some oneText) [.acceptToken 99]).allowedMask.mask.test 100 = true ∧
      (overFixed plainVocab (some oneText)
        [.acceptToken 99, .acceptToken 100]).allowedMask.mask.test 69 = true ∧
      plainVocab.bytes 69 = some (lit "a") ∧
      ∀ id ≤ plainVocab.len, (overFixed plainVocab (some oneText)
        [.acceptToken 99, .acceptToken 100, .acceptToken 69]).allowedMask.mask.test id = false := by
  decide +kernel

/-- Inside the name of a column without a space the stream is not stuck. -/
theorem a_row_of_the_column_has_a_token :
    ∃ id < plainVocab.len, (overFixed plainVocab (some oneText)
      [.acceptToken 99, .acceptToken 101]).allowedMask.mask.test id = true := by
  have hpda : (overFixed plainVocab (some oneText) [.acceptToken 99, .acceptToken 101]).cursor =
      .Fixed ⟨.InMemberIdent, [.Paren]⟩ := by decide +kernel
  have hspelled : ScopeTracker.Spelled (overFixed plainVocab (some oneText)
      [.acceptToken 99, .acceptToken 101]).tracker oneText .InMemberIdent := by
    have hcolumns : (overFixed plainVocab (some oneText)
        [.acceptToken 99, .acceptToken 101]).tracker.emittedColumns = [lit "ab"] := by
      decide +kernel
    have hposition : (overFixed plainVocab (some oneText)
        [.acceptToken 99, .acceptToken 101]).tracker.position .InMemberIdent = .RelationColumn := by
      decide +kernel
    have hnarrow : (overFixed plainVocab (some oneText)
        [.acceptToken 99, .acceptToken 101]).tracker.narrowPrefix = lit "a" := by decide +kernel
    intro rule hrule e he hpre
    rw [hposition, hcolumns] at hrule
    obtain rfl := Option.some.inj hrule
    obtain rfl := List.mem_singleton.mp he
    rw [hnarrow]
    decide
  exact an_open_stream_has_a_token plainVocab plainVocab_hasPlain oneText
    [.acceptToken 99, .acceptToken 101] hpda
    (ScopeTracker.unstuck_of_spelled (overFixed_synced hpda) rfl hspelled)

end purecard.session.DecoderSession
