-- Operators nest by their precedence: the parser reads every well-formed
-- expression, without a complaint, as the tree of its one proper nesting.
import PureAnalyzer.OperatorRules
import Mathlib.Data.List.Chain

namespace analyzer.m3

open fragments model cst linkedarena totality precedence analyzer.m3.Parser
open Piece (empty token list callArgs)

variable {lo : Nat}

/-! ## Tokens -/

/-- The token where the parser stands is used up. -/
theorem bump_ends {s : Parser} {kind : TokenKind} (h : s.rawKind = some kind)
    (hkind : kind ≠ .Error) :
    Ends bump s fun b s' => b = true ∧ s' = s.advance ∧ Made [] s s' (leaf (.Token kind)) := by
  unfold bump
  apply Ends.read
  rw [h]
  apply Ends.read
  refine ⟨true, s.advance, ?_, rfl, rfl, Made.advanced (rawKind_eq_some h)⟩
  rw [when, if_neg (by simpa using hkind)]
  rfl

theorem trivia_ne_error {kind : TokenKind} (h : isTrivia kind = true) : kind ≠ .Error := by
  rintro rfl
  simp [isTrivia] at h

theorem leaf_trivia {kind : TokenKind} (h : isTrivia kind = true) : leaf (.Token kind) = [] := by
  simp [leaf, h]

/-- After the spaces the parser stands at the next terminal. -/
theorem consumeTrivia_ends {s : Parser} {terminals : List Terminal} (hs : Good s)
    (hstands : Stands terminals s) (hnext : Next (fun _ => true) terminals) :
    Ends consumeTrivia s fun _ s' => Made [] s s' [] ∧ Stands terminals s' ∧
      s'.rawKind = terminals.head?.map Terminal.kind := by
  refine ends_loopWith (i := fun _ s' => Made [] s s' [] ∧ Stands terminals s') ?_
    ⟨Made.refl s, hstands⟩
  rintro _ s' ⟨hmade, hstands'⟩
  have hs' := hmade.good hs
  refine Ends.bind (m := fun again s'' => Made [] s' s'' [] ∧ Stands terminals s'' ∧
    if again then s'.index < s''.index else s''.rawKind = terminals.head?.map Terminal.kind) ?_ ?_
  · refine Ends.read (Ends.cond (fun htrivia => ?_) fun hnone => ?_)
    · cases hkind : s'.rawKind with
      | none => simp [hkind] at htrivia
      | some kind =>
        have hspace : isTrivia kind = true := by simpa [hkind] using htrivia
        refine Ends.read (Ends.bind (bump_ends hkind (trivia_ne_error hspace)) ?_)
        rintro _ _ ⟨rfl, rfl, hmade'⟩
        rw [leaf_trivia hspace] at hmade'
        have hrest : Stands terminals s'.advance := by
          rw [Stands, drop_index hkind] at hstands'
          exact hstands'.skip hnext hspace
        refine ⟨true, _, ?_, hmade', hrest, Nat.lt_succ_self _⟩
        show some (decide (s'.index + 1 ≠ s'.index), s'.advance) = _
        simp
    · refine Ends.pure ⟨Made.refl s', hstands', ?_⟩
      rw [rawKind_eq_head] at hnone ⊢
      exact hstands'.head (by simpa using hnone)
  · rintro again s'' ⟨hmade', hstands'', hindex⟩
    refine Ends.pure ⟨hmade'.tokens, (hmade'.good hs').index, ?_⟩
    cases again with
    | true => exact ⟨⟨hmade.trans hmade', hstands''⟩, hindex⟩
    | false => exact ⟨hmade.trans hmade', hstands'', hindex⟩

section Tokens

variable {α : Type} {a : α} {x : Piece} {follow : List Terminal → Prop}

/-- A terminal with no spaces before it is the next token. -/
theorem Stands.rawKind {s : Parser} {kind : TokenKind} {terminals : List Terminal}
    (h : Stands (⟨kind, true⟩ :: terminals) s) : s.rawKind = some kind := by
  rw [rawKind_eq_head]
  generalize hkinds : (s.tokens.drop s.index).map Prod.fst = kinds
  rw [Stands, hkinds] at h
  cases h
  rfl

/-- Past the spaces before a piece. -/
theorem Reads.spaced {f : Unit → P α} (hf : Reads lo (f ()) a x.tight follow)
    (hx : Starts (fun _ => true) x.terminals) : Reads lo (consumeTrivia >>= f) a x follow := by
  intro s more hs hat hdepth hstands hmore
  refine Ends.bind (consumeTrivia_ends hs hstands (hx.append more).next) ?_
  rintro _ s' ⟨hmade, hstands', hraw⟩
  have hindex := hmade.index
  have hdepth' := hmade.depth
  have htight : Stands (x.tight.terminals ++ more) s' := by
    obtain ⟨kind, rest, heq, hsolid, -⟩ := hx
    unfold Piece.tight
    rw [heq, List.cons_append] at hstands' hraw
    rw [heq]
    rw [rawKind_eq_head] at hraw
    exact hstands'.tighten hraw hsolid
  refine (hf s' more (hmade.good hs) (by omega) ?_ htight hmore).mono ?_
  · show s'.depth + x.height ≤ MAX_RECURSION_DEPTH
    omega
  · rintro _ s'' ⟨rfl, hmade', hstands''⟩
    exact ⟨rfl, hmade.trans hmade', hstands''⟩

/-- What reads a piece reads it with no spaces before it as well. -/
theorem Reads.tight {p : P α} (h : Reads lo p a x follow) : Reads lo p a x.tight follow := by
  intro s more hs hat hdepth hstands hmore
  refine h s more hs hat hdepth ?_ hmore
  unfold Piece.tight at hstands
  cases hx : x.terminals with
  | nil => simpa [hx] using hstands
  | cons terminal rest =>
    obtain ⟨kind, tight⟩ := terminal
    simp only [hx] at hstands
    cases tight with
    | true => exact hstands
    | false =>
      have hraw := hstands.rawKind
      rw [rawKind_eq_head] at hraw
      unfold Stands at hstands ⊢
      generalize (s.tokens.drop s.index).map Prod.fst = kinds at hstands
      cases hstands with
      | tight hrest =>
        have hgap : ∀ k ∈ ([] : List TokenKind), isTrivia k = true := nofun
        exact .free hgap hrest

/-- The next token, where no spaces stand before it. -/
theorem Reads.rawKind {g : Option TokenKind → P α} {kind : TokenKind} {rest : List Terminal}
    (hx : x.terminals = ⟨kind, true⟩ :: rest) (hg : Reads lo (g (some kind)) a x follow) :
    Reads lo (ask rawKind >>= g) a x follow := by
  refine Reads.read (fun s more _ hs _ => ?_) hg
  rw [hx, List.cons_append] at hs
  exact hs.rawKind

theorem bump_reads {kind : TokenKind} (herror : kind ≠ .Error) :
    Reads lo bump true (token kind).tight fun _ => True := by
  intro s more _ _ _ hstands _
  have hraw := hstands.rawKind
  refine (bump_ends hraw herror).mono ?_
  rintro _ _ ⟨rfl, rfl, hmade⟩
  refine ⟨rfl, hmade, ?_⟩
  rw [Stands, drop_index hraw] at hstands
  cases hstands with
  | tight hrest => exact hrest

theorem starts_token {kind : TokenKind} {p : TokenKind → Bool} (hsolid : solid kind = true)
    (hp : p kind = true) : Starts p (token kind).terminals := ⟨kind, [], rfl, hsolid, hp⟩

theorem callArgs_starts (args : List Piece) :
    Starts (fun kind => decide (kind = .ParenOpen)) (callArgs args).terminals := by
  have hopen : Starts (fun kind => decide (kind = .ParenOpen)) (token .ParenOpen).terminals :=
    starts_token rfl rfl
  exact hopen.append _

theorem expect_reads {kind : TokenKind} (expected : String) (hsolid : solid kind = true)
    (herror : kind ≠ .Error) :
    Reads lo (expect kind expected) true (token kind) fun _ => True := by
  refine Reads.spaced (Reads.rawKind rfl ?_) (starts_token hsolid rfl)
  rw [if_pos rfl]
  exact bump_reads herror

theorem consumeIf_reads {kind : TokenKind} (hsolid : solid kind = true) (herror : kind ≠ .Error) :
    Reads lo (consumeIf kind) true (token kind) fun _ => True := by
  refine Reads.spaced (Reads.rawKind rfl ?_) (starts_token hsolid rfl)
  rw [if_pos rfl]
  exact bump_reads herror

theorem name_solid {kind : TokenKind} (h : isName kind = true) :
    solid kind = true ∧ kind ≠ .Error := by
  revert h
  cases kind <;> decide

theorem consumeName_reads (expected : String) (name : NameToken) :
    Reads lo (consumeName expected) true (token name.kind) fun _ => True := by
  obtain ⟨hsolid, herror⟩ := name_solid name.name
  refine Reads.spaced (Reads.rawKind rfl ?_) (starts_token hsolid rfl)
  rw [if_pos (by simpa using name.name)]
  exact bump_reads herror

/-- Where another token comes, nothing is used up. -/
theorem consumeIf_stops (kind : TokenKind) :
    Reads lo (consumeIf kind) false empty (Next (· ≠ kind)) := by
  intro s more hs _ _ hstands hmore
  refine Ends.bind (consumeTrivia_ends hs hstands (hmore.mono fun _ _ => rfl)) ?_
  rintro _ s' ⟨hmade, hstands', hraw⟩
  apply Ends.read
  rw [if_neg]
  · exact Ends.pure ⟨rfl, hmade, hstands'⟩
  · rw [hraw]
    cases more with
    | nil => nofun
    | cons terminal rest =>
      have hne := hmore.2.2
      simpa using hne

theorem consumeTrivia_reads : Reads lo consumeTrivia () empty (Next fun _ => true) := by
  intro s more hs _ _ hstands hmore
  refine (consumeTrivia_ends hs hstands hmore).mono ?_
  rintro _ s' ⟨hmade, hstands', -⟩
  exact ⟨rfl, hmade, hstands'⟩

end Tokens

/-! ## Names -/

/-- The names behind the first. -/
theorem qualifiedName_turns (rest : List NameToken) : Turns (fun valid => (do
    let before ← ask index
    let has_separator ← consumeIf .PathSeparator
    if !(← moved before) || !has_separator then return (valid, false)
    else
      let valid ← consumeName "a name after `::`"
      return (valid, valid) : P (Bool × Bool))) (Next (· ≠ .PathSeparator)) true
    (QualifiedName.tail rest) true := by
  induction rest with
  | nil =>
    refine .last fun lo => Reads.before fun i => ?_
    refine Reads.skip (consumeIf_stops _) (Reads.any fun again => ?_) fun more h => h
    rw [if_pos (by simp)]
    exact Reads.pure
  | cons name rest ih =>
    rw [QualifiedName.tail, ← Piece.append_assoc]
    refine .turn (Piece.solid_token rfl).append_left (fun lo => Reads.before fun i => ?_) ih
    refine Reads.past (consumeIf_reads rfl nofun) (Piece.solid_token rfl) ?_ fun _ _ => trivial
    refine Reads.moved ?_
    rw [if_neg (by simp)]
    exact (consumeName_reads _ name).map.mono (Nat.zero_le _) fun _ _ => trivial

theorem parseQualifiedName_reads (q : QualifiedName) :
    Reads lo parseQualifiedName true q.piece (Next (· ≠ .PathSeparator)) := by
  have hnames : Reads lo (consumeName "a name" >>= fun valid => loopWith valid fun valid => do
      let before ← ask index
      let has_separator ← consumeIf .PathSeparator
      if !(← moved before) || !has_separator then return (valid, false)
      else
        let valid ← consumeName "a name after `::`"
        return (valid, valid)) true (token q.first.kind ++ QualifiedName.tail q.rest)
      (Next (· ≠ .PathSeparator)) :=
    (consumeName_reads _ q.first).bind (Reads.loopWith (qualifiedName_turns q.rest))
      fun _ _ => trivial
  refine Reads.node (by decide) ?_
  cases habsolute : q.absolute with
  | true =>
    rw [if_pos rfl]
    exact Reads.bind (consumeIf_reads rfl nofun) hnames fun _ _ => trivial
  | false =>
    rw [if_neg nofun]
    refine Reads.bind (consumeIf_stops _) hnames fun more _ => ?_
    have hname := q.first.name
    refine ⟨rfl, (name_solid hname).1, ?_⟩
    have hne : q.first.kind ≠ .PathSeparator := by
      intro heq
      rw [heq] at hname
      cases hname
    simpa using hne

/-! ## What can come next -/

/-- A token that the parser takes for the end of an operand. -/
def endsOperand (kind : TokenKind) : Bool :=
  EXPRESSION_BOUNDARIES.contains kind || BinaryOp.all.any fun op => op.kind = kind

/-- A token that ends an expression of operators of this precedence. -/
def stops (minimum : Nat) (kind : TokenKind) : Bool :=
  EXPRESSION_BOUNDARIES.contains kind ||
    BinaryOp.all.any fun op => op.kind = kind && decide (op.level < minimum)

def startsPrimary (kind : TokenKind) : Bool :=
  LITERALS.contains kind || [.Dollar, .ParenOpen].contains kind || isQualifiedNameStart kind

def startsOperand (kind : TokenKind) : Bool := isSign kind || startsPrimary kind

theorem startsPrimary_solid {kind : TokenKind} (h : startsPrimary kind = true) :
    solid kind = true ∧ isSign kind = false := by
  revert h
  cases kind <;> decide

theorem name_startsPrimary {kind : TokenKind} (h : isName kind = true) :
    startsPrimary kind = true := by
  revert h
  cases kind <;> decide

/-- A primary expression starts as one. -/
theorem primary_starts (primary : Primary) : Starts startsPrimary primary.piece.terminals := by
  have hstarts : ∀ kind rest, startsPrimary kind = true →
      Starts startsPrimary (⟨kind, false⟩ :: rest) := fun kind rest h =>
    ⟨kind, rest, rfl, (startsPrimary_solid h).1, h⟩
  cases primary with
  | literal kind hliteral =>
    refine hstarts kind _ ?_
    simp [startsPrimary, hliteral]
  | var name => exact hstarts .Dollar _ (by decide)
  | name name =>
    show Starts startsPrimary name.piece.terminals
    unfold QualifiedName.piece
    cases name.absolute with
    | true => exact hstarts .PathSeparator _ (by decide)
    | false => exact hstarts name.first.kind _ (name_startsPrimary name.first.name)
  | paren items => exact hstarts .ParenOpen _ (by decide)

theorem after_terminals (p : Piece) (part : Part) :
    (part.after p).terminals = p.terminals ++ part.own.terminals := by
  unfold Part.after
  cases part.wraps with
  | none => rfl
  | some kind => rfl

theorem parts_terminals (p : Piece) (parts : List Part) : (parts.foldl Part.after p).terminals =
    p.terminals ++ parts.flatMap fun part => part.own.terminals := by
  induction parts generalizing p with
  | nil => simp
  | cons part parts ih => simp [ih, after_terminals]

theorem operand_starts (o : Operand) : Starts startsOperand o.piece.terminals := by
  unfold Operand.piece Signs.before Signs.terminals
  have hfirst := o.signs.first
  cases hkinds : o.signs.kinds with
  | nil =>
    rw [parts_terminals]
    refine (primary_starts o.primary).append _ |>.mono fun kind h => ?_
    simp [startsOperand, h]
  | cons kind kinds =>
    have hsign : isSign kind = true := hfirst kind (by simp [hkinds])
    refine ⟨kind, _, rfl, ?_, by simp [startsOperand, hsign]⟩
    revert hsign
    cases kind <;> decide

theorem closed_terminals (n : Nesting BinaryOp Operand) (p : Piece) :
    (within.closed n p).terminals = p.terminals := by
  cases n <;> rfl

/-- A nesting is spelled as the sequence of its operands and operators. -/
theorem within_terminals (n : Nesting BinaryOp Operand) :
    (within n).terminals = spelling n.first n.rest := by
  have hspelling : ∀ first rest op second rest',
      spelling first (rest ++ (op, second) :: rest') =
        spelling first rest ++ (⟨op.kind, false⟩ :: spelling second rest') := by
    intro first rest op second rest'
    simp [spelling]
  induction n with
  | operand o => simp [within, spelling, Nesting.first, Nesting.rest]
  | start f op s ihf ihs =>
    rw [Nesting.first, Nesting.rest, hspelling, ← ihf, ← ihs]
    show (within.closed f (within f)).terminals ++
      ([⟨op.kind, false⟩] ++ (within.closed s (within s)).terminals) = _
    rw [closed_terminals, closed_terminals]
    rfl
  | next r op p ihr ihp =>
    rw [Nesting.first, Nesting.rest, hspelling, ← ihr, ← ihp]
    show (within r).terminals ++ ([⟨op.kind, false⟩] ++ (within.closed p (within p)).terminals) = _
    rw [closed_terminals]
    rfl

theorem expression_terminals (n : Nesting BinaryOp Operand) :
    (expression n).terminals = spelling n.first n.rest := by
  show (within.closed n (within n)).terminals = _
  rw [closed_terminals, within_terminals]

theorem expression_starts (n : Nesting BinaryOp Operand) :
    Starts startsOperand (expression n).terminals := by
  rw [expression_terminals, spelling]
  exact (operand_starts _).append _

theorem Sequence.starts {p : Piece} (h : Sequence p) : Starts startsOperand p.terminals := by
  obtain ⟨n, -, -⟩ := h
  exact expression_starts n

theorem Sequence.solid {p : Piece} (h : Sequence p) : p.Solid := Piece.Solid.of_starts h.starts

/-! ## Expressions among others -/

/-- The production of expressions reads the nestings that are no higher, with
operators that are strong enough. -/
def ReadsExpressions (n : Nat) (self : Recur) : Prop :=
  ∀ lo minimum (m : Nesting BinaryOp Operand), m.Proper BinaryOp.level →
    m.AtLeast BinaryOp.level minimum → (∀ o ∈ m.operands, ∀ p ∈ o.inner, Sequence p) →
    (expression m).height ≤ n →
    Reads lo (self.expression minimum) true (expression m) (Next (stops minimum))

section Productions

variable {self : Recur} {n : Nat} (h : ReadsExpressions n self)
include h

theorem sequence_reads {e : Piece} (he : Sequence e) (hn : e.height ≤ n) :
    Reads lo (self.expression LOWEST_PRECEDENCE) true e (Next (stops LOWEST_PRECEDENCE)) := by
  obtain ⟨m, hproper, hinner⟩ := he
  exact h lo _ m hproper (fun op _ => Nat.zero_le _) hinner hn

/-- An expression where one has to be. -/
theorem required_reads {e : Piece} (he : Sequence e) (hn : e.height ≤ n) (recovery : P Unit) :
    Reads lo (do when (!(← self.expression LOWEST_PRECEDENCE)) recovery) () e
      (Next (stops LOWEST_PRECEDENCE)) := by
  rw [← Piece.append_empty e]
  exact (sequence_reads h he hn).bind Reads.unless
    fun more (hmore : Next (stops LOWEST_PRECEDENCE) more) => hmore

theorem parseArgument_reads {e : Piece} (he : Sequence e) (hn : e.height ≤ n) :
    Reads lo (parseArgument self false) () e (Next (stops LOWEST_PRECEDENCE)) := by
  refine Reads.any fun named => ?_
  refine Reads.skip_unless ?_
  exact required_reads h he hn _

omit h in
theorem list_height {e : Piece} {items : List Piece} (he : e ∈ items) :
    e.height ≤ (list items).height := by
  induction items with
  | nil => cases he
  | cons p items ih =>
    cases items with
    | nil => rw [List.mem_singleton.mp he]; exact Nat.le_refl _
    | cons q rest =>
      show e.height ≤ max p.height (max 0 (list (q :: rest)).height)
      rcases List.mem_cons.mp he with rfl | he
      · omega
      · have := ih he
        omega

omit h in
theorem list_starts {e : Piece} (he : Sequence e) (rest : List Piece) :
    Starts startsOperand (list (e :: rest)).terminals := by
  cases rest with
  | nil => exact he.starts
  | cons q rest => exact he.starts.append _

/-- Before a closing parenthesis. -/
abbrev BeforeParen : List Terminal → Prop := Starts fun kind => decide (kind = .ParenClose)

omit h in
theorem BeforeParen.stops {more : List Terminal} (hmore : BeforeParen more) (minimum : Nat) :
    Next (stops minimum) more := by
  refine hmore.next.mono fun kind hkind => ?_
  obtain rfl : kind = .ParenClose := by simpa using hkind
  rfl

omit h in
theorem stops_comma (minimum : Nat) (more : List Terminal) :
    Next (stops minimum) ((token .Comma).terminals ++ more) := ⟨rfl, rfl, rfl⟩

theorem parseArgumentList_reads {items : List Piece} (hitems : ∀ e ∈ items, Sequence e)
    (hn : (list items).height ≤ n) :
    Reads lo (parseArgumentList self false) () (list items) BeforeParen := by
  have hheight : ∀ e ∈ items, e.height ≤ n := fun e he => Nat.le_trans (list_height he) hn
  cases items with
  | nil =>
    refine Reads.read (a := true) (fun s more _ hs hmore => hmore.atToken_true hs) ?_
    rw [if_pos rfl]
    exact Reads.pure
  | cons e rest =>
    refine Reads.read (a := false) (fun s more _ hs _ => ?_) ?_
    · exact ((list_starts (hitems e List.mem_cons_self) _).append more).atToken_false hs rfl
    rw [if_neg nofun]
    refine Reads.loop ?_
    clear hn
    induction rest generalizing e with
    | nil =>
      have he := hitems e List.mem_cons_self
      have hle := hheight e List.mem_cons_self
      refine Rounds.last fun lo => Reads.before fun i => ?_
      refine (parseArgument_reads h he hle).past_last he.solid ?_
        fun more hmore => hmore.stops _
      refine Reads.skip consumeTrivia_reads ?_ fun more hmore => hmore.next.mono fun _ _ => rfl
      refine Reads.read (a := false) (fun s more _ hs hmore => hmore.atToken_false hs rfl) ?_
      rw [if_neg nofun]
      refine Reads.skip (consumeIf_stops .Comma) (Reads.moved ?_) fun more hmore => ?_
      · rw [if_neg nofun, if_neg nofun]
        refine Reads.read (a := true) (fun s more _ hs hmore => hmore.atToken_true hs) ?_
        refine Reads.any fun eof => ?_
        rw [Bool.true_or, if_pos rfl]
        exact Reads.pure
      · refine hmore.next.mono fun kind hkind => ?_
        obtain rfl : kind = .ParenClose := by simpa using hkind
        rfl
    | cons f rest ih =>
      have he := hitems e List.mem_cons_self
      have hrest := ih f (fun p hp => hitems p (List.mem_cons_of_mem _ hp))
        fun p hp => hheight p (List.mem_cons_of_mem _ hp)
      have hf := list_starts (hitems f (List.mem_cons_of_mem _ List.mem_cons_self)) rest
      have hle := hheight e List.mem_cons_self
      rw [list, ← Piece.append_assoc]
      refine Rounds.turn he.solid.append_left (fun lo => Reads.before fun i => ?_) hrest
      refine (parseArgument_reads h he hle).past he.solid ?_
        fun more _ => stops_comma _ more
      refine Reads.skip consumeTrivia_reads ?_ fun more _ =>
        ((starts_token rfl rfl).append more).next
      refine Reads.read (a := false) (fun s more _ hs _ => ?_) ?_
      · exact ((starts_token (p := (· ≠ .Semicolon)) rfl rfl).append more).atToken_false hs rfl
      rw [if_neg nofun]
      refine Reads.last (consumeIf_reads rfl nofun) (Reads.moved ?_) fun _ _ => trivial
      rw [if_neg nofun, if_pos rfl]
      refine Reads.read (a := false) (fun s more _ hs hmore => ?_) ?_
      · obtain ⟨more', rfl, -⟩ := hmore
        exact (hf.append more').atToken_false hs rfl
      rw [if_neg nofun]
      exact Reads.pure

omit h in
theorem beforeParen_token (more : List Terminal) :
    BeforeParen ((token .ParenClose).terminals ++ more) := (starts_token rfl rfl).append more

theorem parseCallArguments_reads {args : List Piece} (hargs : ∀ e ∈ args, Sequence e)
    (hn : (list args).height ≤ n) :
    Reads lo (parseCallArguments self false) () (callArgs args) fun _ => True := by
  refine Reads.node (by decide) ?_
  refine Reads.bind (expect_reads _ rfl nofun) ?_ fun _ _ => trivial
  refine Reads.bind (Reads.when (parseArgumentList_reads h hargs hn)) ?_ fun more _ =>
    beforeParen_token more
  exact (expect_reads _ rfl (by decide)).map

theorem parseParenthesizedItems_reads {items : List Piece} (hitems : ∀ e ∈ items, Sequence e)
    (hn : (list items).height ≤ n) :
    Reads lo (parseParenthesizedItems self) () (list items) BeforeParen := by
  have hheight : ∀ e ∈ items, e.height ≤ n := fun e he => Nat.le_trans (list_height he) hn
  cases items with
  | nil =>
    refine Reads.read (a := true) (fun s more _ hs hmore => hmore.atToken_true hs) ?_
    rw [if_pos rfl]
    exact Reads.pure
  | cons e rest =>
    refine Reads.read (a := false) (fun s more _ hs _ => ?_) ?_
    · exact ((list_starts (hitems e List.mem_cons_self) _).append more).atToken_false hs rfl
    rw [if_neg nofun]
    refine Reads.loop ?_
    clear hn
    induction rest generalizing e with
    | nil =>
      have he := hitems e List.mem_cons_self
      have hle := hheight e List.mem_cons_self
      refine Rounds.last fun lo => Reads.before fun i => ?_
      refine (sequence_reads h he hle).past_last he.solid ?_
        fun more hmore => hmore.stops _
      refine Reads.skip_unless ?_
      refine Reads.skip (consumeIf_stops .Comma) (Reads.any fun again => ?_) fun more hmore => ?_
      · rw [if_pos (by simp)]
        exact Reads.pure
      · refine hmore.next.mono fun kind hkind => ?_
        obtain rfl : kind = .ParenClose := by simpa using hkind
        rfl
    | cons f rest ih =>
      have he := hitems e List.mem_cons_self
      have hrest := ih f (fun p hp => hitems p (List.mem_cons_of_mem _ hp))
        fun p hp => hheight p (List.mem_cons_of_mem _ hp)
      have hf := list_starts (hitems f (List.mem_cons_of_mem _ List.mem_cons_self)) rest
      have hle := hheight e List.mem_cons_self
      rw [list, ← Piece.append_assoc]
      refine Rounds.turn he.solid.append_left (fun lo => Reads.before fun i => ?_) hrest
      refine (sequence_reads h he hle).past he.solid ?_
        fun more _ => stops_comma _ more
      refine Reads.skip_unless ?_
      refine Reads.last (consumeIf_reads rfl nofun) (Reads.moved ?_) fun _ _ => trivial
      rw [if_neg nofun]
      refine Reads.read (a := false) (fun s more _ hs hmore => ?_) ?_
      · obtain ⟨more', rfl, -⟩ := hmore
        exact (hf.append more').atToken_false hs rfl
      rw [if_neg nofun]
      exact Reads.pure

/-! ## Operands -/

/-- A token that can stand behind a name. -/
def endsName (kind : TokenKind) : Bool :=
  endsOperand kind || [.Dot, .Arrow, .BracketOpen, .ParenOpen].contains kind

/-- A token that does not make a lambda of the name before it. -/
def namesNoParameter (kind : TokenKind) : Bool := kind ≠ .Pipe && kind ≠ .Colon

omit h in
theorem endsName_kinds {kind : TokenKind} (hkind : endsName kind = true) :
    kind ≠ .PathSeparator ∧ namesNoParameter kind = true := by
  revert hkind
  cases kind <;> decide

omit h in
/-- A name with nothing of a lambda behind it starts none. -/
theorem isShortLambdaStart_false {s : Parser} {first : Terminal} {more : List Terminal}
    (hs : Stands (first :: more) s) (hsolid : solid first.kind = true)
    (hmore : Next namesNoParameter more) : s.isShortLambdaStart = false := by
  obtain ⟨i, hindex, -, hnext⟩ :=
    nextSignificantKind_after hs hsolid (hmore.mono fun _ _ => rfl)
  unfold isShortLambdaStart
  simp only [hindex]
  split
  · rfl
  · rw [nextSignificantKind] at hnext
    cases hat : s.nextSignificantIndexFrom (i + 1) with
    | none => rfl
    | some next =>
      rw [hat, Option.bind_some] at hnext
      simp only [hnext]
      cases more with
      | nil => rfl
      | cons terminal rest =>
        obtain ⟨-, -, hnone⟩ := hmore
        obtain ⟨kind', tight⟩ := terminal
        simp only [List.head?_cons, Option.map_some]
        cases kind' <;> first | rfl | cases hnone

omit h in
theorem literal_ne_error : ∀ kind ∈ LITERALS, kind ≠ .Error := by decide

omit h in
theorem parseVariableExpression_reads (name : NameToken) :
    Reads lo parseVariableExpression true (Primary.var name).piece fun _ => True := by
  refine Reads.node (by decide) ?_
  exact Reads.bind (expect_reads _ rfl nofun) (consumeName_reads _ name).map fun _ _ => trivial

omit h in
theorem parseLiteralExpression_reads {kind : TokenKind} (hkind : kind ∈ LITERALS) :
    Reads lo parseLiteralExpression true ((token kind).tight.node .LiteralExpr) fun _ => True :=
  Reads.node (by decide) (bump_reads (literal_ne_error kind hkind))

theorem parseParenthesizedExpression_reads {items : List Piece}
    (hitems : ∀ e ∈ items, Sequence e) (hn : (list items).height ≤ n) :
    Reads lo (parseParenthesizedExpression self) true (Primary.paren items).piece
      fun _ => True := by
  refine Reads.node (by decide) ?_
  refine Reads.bind (expect_reads _ rfl nofun) ?_ fun _ _ => trivial
  refine Reads.bind (parseParenthesizedItems_reads h hitems hn) ?_ fun more _ =>
    beforeParen_token more
  exact (expect_reads _ rfl (by decide)).map

omit h in
theorem QualifiedName.tight_terminals (q : QualifiedName) :
    q.piece.tight.terminals = if q.absolute then
      ⟨.PathSeparator, true⟩ :: ⟨q.first.kind, false⟩ :: (QualifiedName.tail q.rest).terminals
    else ⟨q.first.kind, true⟩ :: (QualifiedName.tail q.rest).terminals := by
  obtain ⟨absolute, first, rest⟩ := q
  cases absolute with
  | true => rfl
  | false => rfl

theorem parsePrimaryExpression_reads (primary : Primary)
    (hinner : ∀ p ∈ primary.inner, Sequence p) (hn : primary.piece.height ≤ n) :
    Reads lo (parsePrimaryExpression self) true primary.piece (Next endsName) := by
  refine Reads.spaced ?_ ((primary_starts primary).mono fun _ _ => rfl)
  cases primary with
  | literal kind hliteral =>
    have hread : Reads lo parseLiteralExpression true (Primary.literal kind hliteral).piece.tight
        (Next endsName) :=
      (parseLiteralExpression_reads hliteral).mono (Nat.le_refl lo) fun _ _ => trivial
    refine Reads.rawKind rfl ?_
    simp only [LITERALS, List.mem_cons, List.not_mem_nil, or_false] at hliteral
    rcases hliteral with rfl | rfl | rfl | rfl | rfl | rfl <;> exact hread
  | var name =>
    refine Reads.rawKind rfl ?_
    exact ((parseVariableExpression_reads name).mono (Nat.le_refl _) fun _ _ => trivial).tight
  | name q =>
    have hread : Reads lo parseQualifiedName true q.piece.tight (Next endsName) :=
      ((parseQualifiedName_reads q).mono (Nat.le_refl _) fun more hmore =>
        hmore.mono fun kind hkind => by simpa using (endsName_kinds hkind).1).tight
    have hterminals := q.tight_terminals
    cases habsolute : q.absolute with
    | true =>
      rw [habsolute, if_pos rfl] at hterminals
      refine Reads.rawKind hterminals (Reads.any fun short => ?_)
      rw [if_neg (by simp [isName]), if_pos (by rfl)]
      exact hread
    | false =>
      rw [habsolute, if_neg nofun] at hterminals
      have hname := q.first.name
      have hnamed : Reads lo (do
          let short ← ask isShortLambdaStart
          if isName q.first.kind && short then parseShortLambda self
          else if isQualifiedNameStart q.first.kind then parseQualifiedName
          else return false) true q.piece.tight (Next endsName) := by
        refine Reads.read (a := false) (fun s more _ hs hmore => ?_) ?_
        · have hs' := hs
          rw [hterminals, List.cons_append] at hs'
          refine isShortLambdaStart_false hs' (name_solid hname).1 ?_
          cases q.rest with
          | nil => exact hmore.mono fun kind hkind => (endsName_kinds hkind).2
          | cons name rest => exact ⟨rfl, rfl, rfl⟩
        · rw [if_neg (by simp), if_pos (by simp [isQualifiedNameStart, hname])]
          exact hread
      refine Reads.rawKind hterminals ?_
      clear hterminals
      revert hname hnamed
      cases q.first.kind <;> first | exact fun _ hnamed => hnamed | exact nofun
  | paren items =>
    refine Reads.rawKind rfl ?_
    have hitems : (list items).height ≤ n := by
      have hle : max 0 (max (list items).height 0) ≤ n := hn
      omega
    exact ((parseParenthesizedExpression_reads h hinner hitems).mono (Nat.le_refl _)
      fun _ _ => trivial).tight

/-! ## Postfixes -/

/-- A token that can stand behind a postfix. Behind a property name there are
no arguments but its own. -/
def Part.follows (part : Part) (kind : TokenKind) : Bool :=
  endsName kind && match part with
    | .property _ _ none => kind ≠ .ParenOpen
    | _ => true

omit h in
/-- The token behind the dot tells an all-expression. -/
theorem dotStartsAllExpression_eq {s : Parser} {kind : TokenKind} {more : List Terminal}
    (hs : Stands (⟨.Dot, false⟩ :: ⟨kind, false⟩ :: more) s) (hsolid : solid kind = true) :
    s.dotStartsAllExpression = ALL_KEYWORDS.contains kind := by
  obtain ⟨i, hindex, -, hnext⟩ :=
    nextSignificantKind_after hs rfl ⟨rfl, hsolid, rfl⟩
  unfold dotStartsAllExpression
  simp only [hindex, hnext, List.head?_cons, Option.map_some]
  cases kind <;> rfl

theorem parsePropertyNavigation_reads {name : NameToken} {plain : name.kind ∉ ALL_KEYWORDS}
    {args : Option (List Piece)} (hargs : ∀ e ∈ args.getD [], Sequence e)
    (hn : (Part.property name plain args).own.height ≤ n) :
    Reads lo (parsePropertyNavigation self) () (Part.property name plain args).own
      (Next (Part.property name plain args).follows) := by
  refine Reads.node (by decide) ?_
  refine Reads.bind (expect_reads _ rfl nofun) ?_ fun _ _ => trivial
  refine Reads.bind (consumeName_reads _ name) ?_ fun _ _ => trivial
  cases args with
  | none =>
    refine Reads.read (a := false) (fun s more _ hs hmore => ?_) Reads.unless
    exact hmore.atToken_false hs (by simp [Part.follows])
  | some args =>
    refine Reads.read (a := true) (fun s more _ hs _ => ?_) ?_
    · exact (callArgs_starts args).append more |>.atToken_true hs
    have hlist : (list args).height ≤ n := by simpa [Part.own, callArgs] using hn
    exact (parseCallArguments_reads h hargs hlist).mono (Nat.le_refl _) fun _ _ => trivial

theorem parseArrowCall_reads {name : QualifiedName} {args : List Piece}
    (hargs : ∀ e ∈ args, Sequence e) (hn : (Part.arrow name args).own.height ≤ n) :
    Reads lo (parseArrowCall self) () (Part.arrow name args).own fun _ => True := by
  have hlist : (list args).height ≤ n := by
    have hle : max 0 (max name.piece.height (max 0 (max (list args).height 0))) ≤ n := hn
    omega
  refine Reads.node (by decide) ?_
  refine Reads.bind (expect_reads _ rfl nofun) ?_ fun _ _ => trivial
  refine Reads.bind (parseQualifiedName_reads name) ?_ fun more _ => ⟨rfl, rfl, rfl⟩
  refine Reads.read (a := true) (fun s more _ hs _ => ?_) ?_
  · exact (callArgs_starts args).append more |>.atToken_true hs
  rw [if_pos rfl]
  exact parseCallArguments_reads h hargs hlist

theorem parseBracketIndex_reads {item : Option Piece} (hitem : ∀ e ∈ item.toList, Sequence e)
    (hn : (Part.index item).own.height ≤ n) :
    Reads lo (parseBracketIndex self) () (Part.index item).own fun _ => True := by
  have hclose (more : List Terminal) : Starts (fun kind => decide (kind = .BracketClose))
      ((token .BracketClose).terminals ++ more) :=
    (starts_token rfl rfl).append more
  refine Reads.node (by decide) ?_
  refine Reads.bind (expect_reads _ rfl nofun) ?_ fun _ _ => trivial
  cases item with
  | none =>
    refine Reads.read (a := true) (fun s more _ hs _ => (hclose more).atToken_true hs) ?_
    rw [Option.getD_none, Piece.empty_append]
    exact Reads.skip_unless (expect_reads _ rfl (by decide)).map
  | some e =>
    have he := hitem e (by simp)
    have hheight : e.height ≤ n := by
      have hle : max 0 (max e.height 0) ≤ n := hn
      omega
    refine Reads.read (a := false) (fun s more _ hs _ => ?_) ?_
    · have hs' := hs
      rw [show ((some e).getD empty ++ token .BracketClose).terminals = e.terminals ++
        (token .BracketClose).terminals from rfl, List.append_assoc] at hs'
      exact (he.starts.append _).atToken_false hs' rfl
    refine Reads.bind (Reads.when (required_reads h he hheight _)) ?_ fun more _ =>
      (hclose more).next.mono fun kind hkind => ?_
    · exact (expect_reads _ rfl (by decide)).map
    · obtain rfl : kind = .BracketClose := by simpa using hkind
      rfl

omit h in
/-- A node around all that was made since the anchor, and what the body reads. -/
theorem wrapped_makes {kind : NodeKind} {body : P Unit} {own x : Piece}
    (hbody : Reads 0 body () own fun _ => True) {s₀ s : Parser}
    (hs₀ : Good s₀) {anchor : Nat} (hanchor : s₀.events.tail = some anchor)
    (hmade : Made [] s₀ s x.trees) {more : List Terminal}
    (hstands : Stands (own.terminals ++ more) s)
    (hdepth : s.depth + own.height ≤ MAX_RECURSION_DEPTH) (inner : kind ≠ .Root) :
    Ends (wrapped anchor kind body) s fun _ s' =>
      Made [] s₀ s' ((x ++ own).node kind).trees ∧ Stands more s' := by
  have hopened := hmade.wrapped hanchor kind
  refine Ends.bind (m := fun _ s' => s' =
    { s with events := s.events.insertAfter anchor (.Open (.Node kind)) }) (Ends.change rfl) ?_
  rintro _ _ rfl
  refine Ends.bind (hbody _ more (hopened.good hs₀) (Nat.zero_le _) hdepth hstands trivial) ?_
  rintro _ s' ⟨-, hmade', hstands'⟩
  exact Ends.change ⟨(hopened.trans hmade').closed inner, hstands'⟩

theorem parseAllExpression_makes {part : Part} {x : Piece} (hinner : ∀ e ∈ part.inner, Sequence e)
    (hn : part.own.height ≤ n) (hall : part.wraps = some .AllExpr) {s₀ s : Parser}
    (hs₀ : Good s₀) {anchor : Nat} (hanchor : s₀.events.tail = some anchor)
    (hmade : Made [] s₀ s x.trees) {more : List Terminal}
    (hstands : Stands (part.own.terminals ++ more) s)
    (hdepth : s.depth + part.own.height ≤ MAX_RECURSION_DEPTH) :
    Ends (parseAllExpression self anchor) s fun _ s' =>
      Made [] s₀ s' ((x ++ part.own).node .AllExpr).trees ∧ Stands more s' := by
  refine wrapped_makes ?_ hs₀ hanchor hmade hstands hdepth (by decide)
  cases part with
  | property _ _ _ => cases hall
  | arrow _ _ => cases hall
  | index _ => cases hall
  | call _ => cases hall
  | all in_range args =>
    have hlist : (list args).height ≤ n := by simpa [Part.own, callArgs] using hn
    have hargs : ∀ lo, Reads lo (do
        if ← ask (atToken .ParenOpen) then parseCallArguments self false
        else errorCurrent "expected arguments after an all-expression name") () (callArgs args)
        fun _ => True := by
      intro lo
      refine Reads.read (a := true) (fun s more _ hs _ => ?_) ?_
      · exact (callArgs_starts args).append more |>.atToken_true hs
      rw [if_pos rfl]
      exact parseCallArguments_reads h hinner hlist
    refine Reads.bind (expect_reads _ rfl nofun) ?_ fun _ _ => trivial
    cases in_range with
    | true =>
      refine Reads.spaced (Reads.rawKind rfl ?_) ((starts_token rfl rfl).append _)
      exact Reads.bind (bump_reads (by decide)) (hargs _) fun _ _ => trivial
    | false =>
      refine Reads.spaced (Reads.rawKind rfl ?_) ((starts_token rfl rfl).append _)
      exact Reads.bind (bump_reads (by decide)) (hargs _) fun _ _ => trivial
  | allVersions =>
    refine Reads.bind (expect_reads _ rfl nofun) ?_ fun _ _ => trivial
    refine Reads.spaced (Reads.rawKind rfl ?_) (starts_token rfl rfl)
    exact (bump_reads (by decide)).map

omit h in
theorem wrapPart_makes {s : Parser} {w : Nat} {part : P Unit} {post : Parser → Prop}
    (hw : w < MAX_RETROACTIVE_WRAP_DEPTH) (hpart : Ends part s fun _ s' => post s') :
    Ends (wrapPart w part) s fun r s' => r = (w + 1, true) ∧ post s' := by
  refine Ends.bind (m := fun r s' => r = (w + 1, true) ∧ s' = s) ?_ ?_
  · refine Ends.cond (fun hle => ?_) fun _ => Ends.pure ⟨rfl, rfl⟩
    omega
  · rintro _ _ ⟨rfl, rfl⟩
    exact Ends.bind hpart fun _ s' hs' => Ends.pure ⟨rfl, hs'⟩

def Part.head : Part → TokenKind
  | property _ _ _ | all _ _ | allVersions => .Dot
  | arrow _ _ => .Arrow
  | index _ => .BracketOpen
  | call _ => .ParenOpen

omit h in
theorem own_head (part : Part) : ∃ rest, part.own.terminals = ⟨part.head, false⟩ :: rest := by
  cases part <;> exact ⟨_, rfl⟩

omit h in
theorem own_starts (part : Part) : Starts endsName part.own.terminals := by
  obtain ⟨rest, heq⟩ := own_head part
  refine ⟨part.head, rest, heq, ?_, ?_⟩
  · cases part <;> rfl
  · cases part <;> rfl

/-- How often the part wraps the chain. -/
def Part.count (part : Part) : Nat := if part.wraps.isSome then 1 else 0

theorem parsePostfixPart_makes {part : Part} {x : Piece} {w : Nat}
    (hinner : ∀ e ∈ part.inner, Sequence e) (hn : part.own.height ≤ n)
    (hw : w + part.count ≤ MAX_RETROACTIVE_WRAP_DEPTH) {s₀ s : Parser} (hs₀ : Good s₀)
    {anchor : Nat} (hanchor : s₀.events.tail = some anchor) (hmade : Made [] s₀ s x.trees)
    {more : List Terminal} (hstands : Stands (part.own.terminals ++ more) s)
    (hmore : Next part.follows more) (hdepth : s.depth + part.own.height ≤ MAX_RECURSION_DEPTH) :
    Ends (parsePostfixPart self anchor w part.head) s fun r s' => r = (w + part.count, true) ∧
      Made [] s₀ s' (part.after x).trees ∧ Stands more s' := by
  have hs := hmade.good hs₀
  -- the parts that stand behind the chain
  have hbehind : ∀ {prod : P Unit} {follow : List Terminal → Prop}, follow more →
      part.wraps = none → Reads 0 prod () part.own follow →
      Ends (do prod; return (w, true)) s fun r s' => r = (w + part.count, true) ∧
        Made [] s₀ s' (part.after x).trees ∧ Stands more s' := by
    intro prod follow hfollow hwraps hprod
    refine Ends.bind (hprod s more hs (Nat.zero_le _) hdepth hstands hfollow) ?_
    rintro _ s' ⟨-, hmade', hstands'⟩
    refine Ends.pure ⟨?_, ?_, hstands'⟩
    · simp [Part.count, hwraps]
    · rw [Part.after, hwraps]
      exact hmade.trans hmade'
  cases part with
  | property name plain args =>
    have hdot : s.dotStartsAllExpression = false := by
      rw [dotStartsAllExpression_eq hstands (name_solid name.name).1]
      simpa using plain
    refine Ends.read ?_
    rw [hdot, if_neg nofun]
    exact hbehind hmore rfl (parsePropertyNavigation_reads h hinner hn)
  | arrow name args => exact hbehind trivial rfl (parseArrowCall_reads h hinner hn)
  | index item => exact hbehind trivial rfl (parseBracketIndex_reads h hinner hn)
  | call args =>
    have hlist : (list args).height ≤ n := by simpa [Part.own, callArgs] using hn
    have hread : Reads 0 (parseCallArguments self false) () (Part.call args).own fun _ => True :=
      parseCallArguments_reads h hinner hlist
    exact wrapPart_makes hw (wrapped_makes hread hs₀ hanchor hmade hstands hdepth (by decide))
  | all in_range args =>
    have hdot : s.dotStartsAllExpression = true := by
      cases in_range with
      | true => exact dotStartsAllExpression_eq hstands rfl
      | false => exact dotStartsAllExpression_eq hstands rfl
    refine Ends.read ?_
    rw [hdot, if_pos rfl]
    exact wrapPart_makes hw
      (parseAllExpression_makes h hinner hn rfl hs₀ hanchor hmade hstands hdepth)
  | allVersions =>
    have hdot : s.dotStartsAllExpression = true := dotStartsAllExpression_eq hstands rfl
    refine Ends.read ?_
    rw [hdot, if_pos rfl]
    exact wrapPart_makes hw
      (parseAllExpression_makes h hinner hn rfl hs₀ hanchor hmade hstands hdepth)

/-- One postfix more. -/
theorem parsePostfixTurn_makes {part : Part} {x : Piece} {w : Nat}
    (hinner : ∀ e ∈ part.inner, Sequence e) (hn : part.own.height ≤ n)
    (hw : w + part.count ≤ MAX_RETROACTIVE_WRAP_DEPTH) {s₀ s : Parser} (hs₀ : Good s₀)
    {anchor : Nat} (hanchor : s₀.events.tail = some anchor) (hmade : Made [] s₀ s x.trees)
    {more : List Terminal} (hstands : Stands (part.own.terminals ++ more) s)
    (hmore : Next part.follows more) (hdepth : s.depth + part.own.height ≤ MAX_RECURSION_DEPTH) :
    Ends (parsePostfixTurn self anchor w) s fun r s' => r = (w + part.count, true) ∧
      Made [] s₀ s' (part.after x).trees ∧ Stands more s' ∧ s.index < s'.index := by
  obtain ⟨rest, hhead⟩ := own_head part
  have hkind : s.significantKind = some part.head := by
    rw [significantKind_eq hstands (((own_starts part).append more).next.mono fun _ _ => rfl),
      hhead]
    rfl
  apply Ends.read
  rw [hkind]
  apply Ends.read
  refine Ends.bind (parsePostfixPart_makes h hinner hn hw hs₀ hanchor hmade hstands hmore hdepth) ?_
  rintro _ s' ⟨rfl, hmade', hstands'⟩
  have hindex := index_lt (hmade'.tokens.trans hmade.tokens.symm) hstands hstands'
    (Piece.Solid.of_starts (own_starts part))
  refine ⟨_, s', ?_, rfl, hmade', hstands', hindex⟩
  show some ((w + part.count, decide (s'.index ≠ s.index)), s') = _
  rw [decide_eq_true (by omega)]

omit h in
theorem after_height (x : Piece) (part : Part) :
    (part.after x).height = max x.height part.own.height := by
  unfold Part.after
  cases part.wraps with
  | none => rfl
  | some kind => rfl

omit h in
theorem parts_height (x : Piece) (parts : List Part) :
    x.height ≤ (parts.foldl Part.after x).height ∧
      ∀ part ∈ parts, part.own.height ≤ (parts.foldl Part.after x).height := by
  induction parts generalizing x with
  | nil => exact ⟨Nat.le_refl _, nofun⟩
  | cons part parts ih =>
    obtain ⟨hfirst, hrest⟩ := ih (part.after x)
    rw [after_height] at hfirst
    rw [List.foldl_cons]
    refine ⟨by omega, fun q hq => ?_⟩
    rcases List.mem_cons.mp hq with rfl | hq
    · omega
    · exact hrest q hq

omit h in
theorem endsOperand_follows {kind : TokenKind} (hkind : endsOperand kind = true) (part : Part) :
    part.follows kind = true := by
  have hname : endsName kind = true := by simp [endsName, hkind]
  have hparen : kind ≠ .ParenOpen := by
    rintro rfl
    cases hkind
  unfold Part.follows
  rw [hname]
  split
  · simpa using hparen
  · rfl

omit h in
/-- Behind a part there is the next one, or the end of the operand. -/
theorem parts_follow {part : Part} {parts : List Part} {more : List Terminal}
    (hapart : (part :: parts).IsChain Part.Apart) (hmore : Next endsOperand more) :
    Next part.follows (parts.flatMap (fun part => part.own.terminals) ++ more) := by
  cases parts with
  | nil => exact hmore.mono fun kind hkind => endsOperand_follows hkind part
  | cons next parts =>
    have hnext := (List.isChain_cons_cons.mp hapart).1
    obtain ⟨rest, heq⟩ := own_head next
    rw [List.flatMap_cons, heq]
    refine ⟨rfl, ?_, ?_⟩
    · cases next <;> rfl
    · cases part with
      | property name plain args =>
        cases args with
        | none =>
          cases next with
          | call args => exact absurd hnext id
          | _ => rfl
        | some args => cases next <;> rfl
      | _ => cases next <;> rfl

omit h in
theorem good_tail {s : Parser} (hs : Good s) : ∃ anchor, s.events.tail = some anchor := by
  obtain ⟨l, hne, hview⟩ := hs.events
  obtain ⟨xs, ⟨i, a⟩, rfl⟩ := (List.eq_nil_or_concat l).resolve_left hne
  rw [List.concat_eq_append] at hview
  exact ⟨i, hview.anchor⟩

omit h in
/-- At the end of an operand there is no postfix more. -/
theorem parsePostfixTurn_stops {s : Parser} {more : List Terminal} (hs : Stands more s)
    (hmore : Next endsOperand more) (anchor w : Nat) :
    parsePostfixTurn self anchor w s = some ((w, false), s) := by
  have hkind := significantKind_eq hs (hmore.mono fun _ _ => rfl)
  have hends : Ends (parsePostfixTurn self anchor w) s fun r s' => r = (w, false) ∧ s' = s := by
    apply Ends.read
    rw [hkind]
    cases more with
    | nil => exact Ends.pure ⟨rfl, rfl⟩
    | cons terminal rest =>
      obtain ⟨-, -, hkind'⟩ := hmore
      obtain ⟨kind, tight⟩ := terminal
      apply Ends.read
      refine Ends.bind (m := fun r s' => r = (w, false) ∧ s' = s) ?_ ?_
      · cases kind <;> first | exact Ends.pure ⟨rfl, rfl⟩ | cases hkind'
      · rintro _ _ ⟨rfl, rfl⟩
        exact Ends.pure ⟨rfl, rfl⟩
  obtain ⟨_, _, hrun, rfl, rfl⟩ := hends
  exact hrun

theorem parsePostfixExpression_reads {primary : Primary} {parts : List Part}
    (hprimary : ∀ p ∈ primary.inner, Sequence p)
    (hparts : ∀ p ∈ parts.flatMap Part.inner, Sequence p)
    (hapart : parts.IsChain Part.Apart)
    (hfew : (parts.filter fun part => part.wraps.isSome).length ≤ MAX_RETROACTIVE_WRAP_DEPTH)
    (hn : (parts.foldl Part.after primary.piece).height ≤ n) :
    Reads lo (parsePostfixExpression self) true (parts.foldl Part.after primary.piece)
      (Next endsOperand) := by
  intro s more hs hat hdepth hstands hmore
  obtain ⟨anchor, hanchor⟩ := good_tail hs
  obtain ⟨hfirst, hheights⟩ := parts_height primary.piece parts
  rw [parts_terminals, List.append_assoc] at hstands
  have hnext : Next endsName (parts.flatMap (fun part => part.own.terminals) ++ more) := by
    cases parts with
    | nil => exact hmore.mono fun kind hkind => by simp [endsName, hkind]
    | cons part parts =>
      rw [List.flatMap_cons, List.append_assoc]
      exact ((own_starts part).append _).next
  apply Ends.read
  rw [hanchor]
  refine Ends.bind (parsePrimaryExpression_reads h primary hprimary (by omega) s _ hs hat (by omega)
    hstands hnext) ?_
  rintro _ s₁ ⟨rfl, hmade₁, hstands₁⟩
  rw [if_pos rfl]
  refine Ends.bind (m := fun _ s' => Made [] s s' (parts.foldl Part.after primary.piece).trees ∧
    Stands more s') ?_ fun _ s' h => Ends.pure ⟨rfl, h⟩
  -- the chain so far, and the parts that are left
  refine ends_loopWith (i := fun w s' => ∃ done left, parts = done ++ left ∧
    Made [] s s' (done.foldl Part.after primary.piece).trees ∧
    Stands (left.flatMap (fun part => part.own.terminals) ++ more) s' ∧
    w + (left.filter fun part => part.wraps.isSome).length ≤ MAX_RETROACTIVE_WRAP_DEPTH) ?_
    ⟨[], parts, rfl, hmade₁, hstands₁, by omega⟩
  rintro w s' ⟨done, left, rfl, hmade, hstands', hw⟩
  have hs' := hmade.good hs
  cases left with
  | nil =>
    refine ⟨_, s', parsePostfixTurn_stops hstands' hmore anchor w, rfl, hs'.index, ?_⟩
    rw [if_neg nofun]
    rw [List.append_nil]
    exact ⟨hmade, hstands'⟩
  | cons part left =>
    have hpart : part ∈ done ++ part :: left := by simp
    have hinner : ∀ e ∈ part.inner, Sequence e := fun e he =>
      hparts e (List.mem_flatMap.mpr ⟨part, hpart, he⟩)
    have hheight := hheights part hpart
    have hdepth' := hmade.depth
    have hcount : w + part.count +
        (left.filter fun part => part.wraps.isSome).length ≤ MAX_RETROACTIVE_WRAP_DEPTH := by
      unfold Part.count
      rw [List.filter_cons] at hw
      split at hw
      · rename_i hwraps
        rw [if_pos hwraps]
        rw [List.length_cons] at hw
        omega
      · rename_i hwraps
        rw [if_neg hwraps]
        omega
    rw [List.flatMap_cons, List.append_assoc] at hstands'
    refine (parsePostfixTurn_makes h hinner (by omega) (by omega) hs hanchor hmade hstands'
      (parts_follow hapart.right_of_append hmore) (by omega)).mono ?_
    rintro _ s'' ⟨rfl, hmade'', hstands'', hindex⟩
    refine ⟨hmade''.tokens.trans hmade.tokens.symm, (hmade''.good hs).index, ?_⟩
    rw [if_pos rfl]
    refine ⟨⟨done ++ [part], left, by simp, ?_, hstands'', hcount⟩, hindex⟩
    rw [List.foldl_append]
    exact hmade''

/-! ## Signs -/

/-- The signs with no spaces before the first. -/
def signed : List TokenKind → Piece → Piece
  | [], x => x
  | kind :: kinds, x => ((token kind).tight ++ signed kinds x).node .UnaryExpr

omit h in
theorem signed_eq (kinds : List TokenKind) (x : Piece) : signed kinds x =
    ⟨kinds.map (⟨·, true⟩) ++ x.terminals, unaries kinds x.trees, x.height⟩ := by
  induction kinds with
  | nil => rfl
  | cons kind kinds ih =>
    rw [signed, ih]
    show Piece.mk _ _ (max 0 x.height) = _
    rw [Nat.zero_max]
    rfl

omit h in
theorem before_tight {signs : Signs} (hne : signs.kinds ≠ []) (x : Piece) :
    (signs.before x).tight = signed signs.kinds x := by
  rw [signed_eq]
  unfold Signs.before Signs.terminals
  cases hkinds : signs.kinds with
  | nil => exact absurd hkinds hne
  | cons kind kinds => rfl

omit h in
/-- The next sign, past the spaces before it. -/
theorem signs_head {kinds : List TokenKind} (hne : kinds ≠ [])
    (hkinds : ∀ kind ∈ kinds, isSign kind = true ∨ isTrivia kind = true)
    (hlast : ∀ kind ∈ kinds.getLast?, isSign kind = true) :
    ∃ kind rest, kinds.filter solid = kind :: rest ∧ isSign kind = true := by
  induction kinds with
  | nil => exact absurd rfl hne
  | cons kind kinds ih =>
    by_cases hsign : isSign kind = true
    · refine ⟨kind, kinds.filter solid, List.filter_cons_of_pos ?_, hsign⟩
      revert hsign
      cases kind <;> decide
    · have htrivia := (hkinds kind List.mem_cons_self).resolve_left hsign
      rw [List.filter_cons_of_neg (by simp [solid, htrivia])]
      have hrest : kinds ≠ [] := by
        rintro rfl
        exact hsign (hlast kind rfl)
      refine ih hrest (fun k hk => hkinds k (List.mem_cons_of_mem _ hk)) fun k hk => hlast k ?_
      obtain ⟨first, rest, rfl⟩ := List.exists_cons_of_ne_nil hrest
      rwa [List.getLast?_cons_cons]

omit h in
theorem atAny_signs (s : Parser) (kind : TokenKind) (hkind : s.significantKind = some kind) :
    s.atAny [.Plus, .Minus] = isSign kind := by
  unfold atAny
  rw [hkind]
  cases kind <;> rfl

omit h in
theorem parseOperand_reads {x : Piece}
    (hx : ∀ lo, Reads lo (parsePostfixExpression self) true x (Next endsOperand)) (count : Nat) :
    Reads lo (parseOperand self count) true x (Next endsOperand) := by
  refine Reads.last (hx lo) ?_ fun _ hmore => hmore
  exact Reads.skip_unless Reads.pure

omit h in
/-- Each sign is read into a node, and so is a space before the next sign. -/
theorem parseUnaryOperators_reads {x : Piece}
    (hx : ∀ lo, Reads lo (parsePostfixExpression self) true x (Next endsOperand))
    (hstarts : Starts startsPrimary x.terminals) {kinds : List TokenKind}
    (hkinds : ∀ kind ∈ kinds, isSign kind = true ∨ isTrivia kind = true)
    (hlast : ∀ kind ∈ kinds.getLast?, isSign kind = true) {remaining : Nat}
    (hle : kinds.length ≤ remaining) :
    Reads lo (parseUnaryOperators self remaining) true (signed kinds x) (Next endsOperand) := by
  induction kinds generalizing remaining lo with
  | nil =>
    have hnone : ∀ s more, Good s → Stands (x.terminals ++ more) s → Next endsOperand more →
        s.atAny [.Plus, .Minus] = false := by
      intro s more _ hs _
      have hnext := hstarts.append more
      have hkind := significantKind_eq hs (hnext.next.mono fun _ _ => rfl)
      obtain ⟨kind, rest, heq, -, hprimary⟩ := hnext
      rw [heq] at hkind
      rw [atAny_signs s kind hkind]
      exact (startsPrimary_solid hprimary).2
    cases remaining with
    | zero =>
      refine Reads.read hnone ?_
      rw [if_neg nofun]
      exact parseOperand_reads hx _
    | succ remaining =>
      refine Reads.read hnone ?_
      rw [if_neg nofun]
      exact parseOperand_reads hx _
  | cons kind kinds ih =>
    obtain ⟨remaining, rfl⟩ : ∃ r, remaining = r + 1 :=
      Nat.exists_eq_succ_of_ne_zero (by rintro rfl; cases hle)
    refine Reads.read (a := true) (fun s more _ hs _ => ?_) ?_
    · obtain ⟨sign, rest, hfilter, hsign⟩ := signs_head (List.cons_ne_nil _ _) hkinds hlast
      rw [atAny_signs s sign ?_]
      · exact hsign
      · rw [significantKind, nextSignificantKind_eq, solid_kinds hs, signed_eq, List.map_append,
          List.map_append, List.filter_append, List.filter_append]
        simp only [List.map_map, Function.comp_def, List.map_id']
        rw [hfilter]
        rfl
    · rw [if_pos rfl]
      have herror : kind ≠ .Error := by
        rintro rfl
        rcases hkinds .Error List.mem_cons_self with hkind | hkind <;> cases hkind
      refine Reads.node (by decide) (Reads.bind (bump_reads herror) ?_ fun _ _ => trivial)
      refine ih (fun k hk => hkinds k (List.mem_cons_of_mem _ hk)) (fun k hk => hlast k ?_)
        (Nat.le_of_succ_le_succ hle)
      cases kinds with
      | nil => cases hk
      | cons first rest => rwa [List.getLast?_cons_cons]

theorem parseUnaryExpression_reads (o : Operand) (hinner : ∀ p ∈ o.inner, Sequence p)
    (hn : o.piece.height ≤ n) :
    Reads lo (parseUnaryExpression self) true o.piece (Next endsOperand) := by
  have hx : ∀ lo, Reads lo (parsePostfixExpression self) true
      (o.parts.foldl Part.after o.primary.piece) (Next endsOperand) := fun lo =>
    parsePostfixExpression_reads h (fun p hp => hinner p (List.mem_append_left _ hp))
      (fun p hp => hinner p (List.mem_append_right _ hp)) o.apart o.few hn
  have hstarts : Starts startsPrimary (o.parts.foldl Part.after o.primary.piece).terminals := by
    rw [parts_terminals]
    exact (primary_starts o.primary).append _
  have hread := fun lo => @parseUnaryOperators_reads lo _ _ hx hstarts _ o.signs.tokens
    o.signs.last _ o.signs.short
  refine Reads.spaced ?_ ((operand_starts o).mono fun _ _ => rfl)
  by_cases hne : o.signs.kinds = []
  · have hpiece : o.piece = signed o.signs.kinds (o.parts.foldl Part.after o.primary.piece) := by
      unfold Operand.piece Signs.before Signs.terminals
      rw [hne]
      rfl
    rw [hpiece]
    exact (hread lo).tight
  · rw [Operand.piece, before_tight hne]
    exact hread lo

/-! ## Operators -/

omit h in
theorem binaryPrecedence_eq {s : Parser} (op : BinaryOp)
    (hkind : s.significantKind = some op.kind) :
    s.binaryPrecedence = some op.level := by
  unfold binaryPrecedence
  rw [hkind]
  cases op <;> rfl

omit h in
theorem stops_mono {minimum minimum' : Nat} (hle : minimum ≤ minimum') {kind : TokenKind}
    (hkind : stops minimum kind = true) : stops minimum' kind = true := by
  unfold stops at hkind ⊢
  rw [Bool.or_eq_true] at hkind ⊢
  refine hkind.imp_right fun hop => ?_
  obtain ⟨op, hmem, hop⟩ := List.any_eq_true.mp hop
  simp only [Bool.and_eq_true, decide_eq_true_eq] at hop
  refine List.any_eq_true.mpr ⟨op, hmem, ?_⟩
  simp only [Bool.and_eq_true, decide_eq_true_eq]
  exact ⟨hop.1, Nat.lt_of_lt_of_le hop.2 hle⟩

omit h in
theorem stops_endsOperand {minimum : Nat} {kind : TokenKind} (hkind : stops minimum kind = true) :
    endsOperand kind = true := by
  unfold stops at hkind
  unfold endsOperand
  rw [Bool.or_eq_true] at hkind ⊢
  refine hkind.imp_right fun hop => ?_
  obtain ⟨op, hmem, hop⟩ := List.any_eq_true.mp hop
  rw [Bool.and_eq_true] at hop
  exact List.any_eq_true.mpr ⟨op, hmem, hop.1⟩

omit h in
/-- The operator is a token that is no trivia, and ends the operand before it. -/
theorem op_kind (op : BinaryOp) : solid op.kind = true ∧ op.kind ≠ .Error ∧
    endsOperand op.kind = true := by
  cases op <;> decide

omit h in
theorem op_stops {op : BinaryOp} {minimum : Nat} (hless : op.level < minimum) :
    stops minimum op.kind = true := by
  unfold stops
  rw [Bool.or_eq_true]
  refine .inr (List.any_eq_true.mpr ⟨op, ?_, by simpa using hless⟩)
  cases op <;> decide

/-- The operators on the way up and the parts behind them, as they are spelled. -/
def spineTerminals (parts : List (BinaryOp × Nesting BinaryOp Operand)) : List Terminal :=
  parts.flatMap fun p => ⟨p.1.kind, false⟩ :: (expression p.2).terminals

omit h in
theorem spelling_spine (m : Nesting BinaryOp Operand) :
    spelling m.first m.rest = m.first.piece.terminals ++ spineTerminals m.spine := by
  rw [Nesting.rest_eq_spine]
  unfold spelling spineTerminals
  congr 1
  rw [List.flatMap_assoc]
  congr 1
  funext p
  rw [expression_terminals, List.flatMap_cons]
  rfl

omit h in
theorem spine_next {left : List (BinaryOp × Nesting BinaryOp Operand)} {more : List Terminal}
    {minimum : Nat} (hmore : Next (stops minimum) more) :
    Next endsOperand (spineTerminals left ++ more) := by
  cases left with
  | nil => exact hmore.mono fun kind hkind => stops_endsOperand hkind
  | cons p left =>
    obtain ⟨hsolid, -, hends⟩ := op_kind p.1
    exact ⟨rfl, hsolid, hends⟩

omit h in
theorem closed_height (m : Nesting BinaryOp Operand) (p : Piece) :
    (within.closed m p).height = p.height := by
  cases m <;> rfl

omit h in
theorem expression_height (m : Nesting BinaryOp Operand) :
    (expression m).height = (within m).height + 1 := by
  show (within.closed m (within m)).height + 1 = _
  rw [closed_height]

omit h in
/-- No operand and no part is higher than the expression. -/
theorem within_height (m : Nesting BinaryOp Operand) : m.first.piece.height ≤ (within m).height ∧
    ∀ p ∈ m.spine, (expression p.2).height ≤ (within m).height := by
  induction m with
  | operand o => exact ⟨Nat.le_refl _, nofun⟩
  | start f op s ihf _ =>
    have hheight : (within (.start f op s)).height =
        max (within f).height (max 0 (expression s).height) := by
      show max (within.closed f (within f)).height _ = _
      rw [closed_height]
      rfl
    obtain ⟨hfirst, hparts⟩ := ihf
    rw [hheight]
    refine ⟨Nat.le_trans hfirst (by omega), fun p hp => ?_⟩
    rcases List.mem_append.mp hp with hp | hp
    · have := hparts p hp
      omega
    · rw [List.mem_singleton.mp hp]
      exact Nat.le_trans (Nat.le_max_right 0 _) (Nat.le_max_right _ _)
  | next r op s ihr _ =>
    have hheight : (within (.next r op s)).height =
        max (within r).height (max 0 (expression s).height) := rfl
    obtain ⟨hfirst, hparts⟩ := ihr
    rw [hheight]
    refine ⟨Nat.le_trans hfirst (by omega), fun p hp => ?_⟩
    rcases List.mem_append.mp hp with hp | hp
    · have := hparts p hp
      omega
    · rw [List.mem_singleton.mp hp]
      exact Nat.le_trans (Nat.le_max_right 0 _) (Nat.le_max_right _ _)

omit h in
theorem spine_operands {m : Nesting BinaryOp Operand} {p : BinaryOp × Nesting BinaryOp Operand}
    (hp : p ∈ m.spine) : ∀ o ∈ p.2.operands, o ∈ m.operands := by
  intro o ho
  refine List.mem_cons_of_mem _ ?_
  rw [Nesting.rest_eq_spine, List.map_flatMap]
  exact List.mem_flatMap.mpr ⟨p, hp, ho⟩

/-- The precedence of the run that is still open. -/
def active (m : Nesting BinaryOp Operand) : Option Nat := m.top.map BinaryOp.level

omit h in
theorem closePending_makes {m : Nesting BinaryOp Operand} {s₀ s : Parser}
    (hmade : Made (pending (active m)) s₀ s (within m).trees) :
    Ends (when (active m).isSome closeEvent) s fun _ s' =>
      Made [] s₀ s' (within.closed m (within m)).trees ∧ s'.tokens = s.tokens ∧
        s'.index = s.index := by
  cases m with
  | operand o => exact Ends.when nofun fun _ => ⟨hmade, rfl, rfl⟩
  | start f op s => exact ⟨(), _, rfl, hmade.closed (by decide), rfl, rfl⟩
  | next r op p => exact ⟨(), _, rfl, hmade.closed (by decide), rfl, rfl⟩

omit h in
theorem within_join (m part : Nesting BinaryOp Operand) (op : BinaryOp) :
    within (m.join BinaryOp.level op part) =
      (if active m = some op.level then within m else within.closed m (within m)) ++
        (token op.kind ++ expression part) := by
  unfold Nesting.join active
  split <;> rfl

omit h in
theorem active_join (m part : Nesting BinaryOp Operand) (op : BinaryOp) :
    active (m.join BinaryOp.level op part) = some op.level := by
  unfold active
  rw [Nesting.join_top]
  rfl

omit h in
/-- An operator of another precedence takes all that is read so far. -/
theorem openRun_makes {m : Nesting BinaryOp Operand} {op : BinaryOp} {s₀ s : Parser} {anchor : Nat}
    (hanchor : s₀.events.tail = some anchor)
    (hmade : Made (pending (active m)) s₀ s (within m).trees) :
    Ends (when (active m ≠ some op.level) do
        when (active m).isSome closeEvent
        wrapFrom anchor .BinaryExpr) s fun _ s' =>
      Made (pending (some op.level)) s₀ s'
        (if active m = some op.level then within m else within.closed m (within m)).trees ∧
        s'.tokens = s.tokens ∧ s'.index = s.index := by
  refine Ends.when (fun hnew => ?_) fun hsame => ?_
  · have hne : active m ≠ some op.level := by simpa using hnew
    rw [if_neg hne]
    refine Ends.bind (closePending_makes hmade) ?_
    rintro _ s₁ ⟨hmade₁, htokens, hindex⟩
    exact Ends.change ⟨hmade₁.wrapped hanchor .BinaryExpr, htokens, hindex⟩
  · have heq : active m = some op.level := by simpa using hsame
    rw [if_pos heq]
    rw [heq] at hmade
    exact ⟨hmade, rfl, rfl⟩

/-- One operator more, with the part behind it. -/
theorem parseBinaryPart_makes {m part : Nesting BinaryOp Operand} {op : BinaryOp} {minimum : Nat}
    (hop : minimum ≤ op.level) (hproper : part.Proper BinaryOp.level)
    (hstronger : part.AtLeast BinaryOp.level (op.level + 1))
    (hinner : ∀ o ∈ part.operands, ∀ p ∈ o.inner, Sequence p)
    (hn : (expression part).height ≤ n) {s₀ s : Parser} (hs₀ : Good s₀) {anchor : Nat}
    (hanchor : s₀.events.tail = some anchor)
    (hmade : Made (pending (active m)) s₀ s (within m).trees) {more : List Terminal}
    (hstands : Stands (⟨op.kind, false⟩ :: (expression part).terminals ++ more) s)
    (hmore : Next (stops (op.level + 1)) more)
    (hdepth : s.depth + (expression part).height ≤ MAX_RECURSION_DEPTH) :
    Ends (parseBinaryPart self anchor minimum (active m)) s fun r s' =>
      r = (some op.level, true) ∧
      Made (pending (some op.level)) s₀ s' (within (m.join BinaryOp.level op part)).trees ∧
      Stands more s' ∧ s.index < s'.index := by
  obtain ⟨hsolid, herror, -⟩ := op_kind op
  have hprecedence : s.binaryPrecedence = some op.level :=
    binaryPrecedence_eq op (significantKind_eq hstands ⟨rfl, hsolid, rfl⟩)
  -- the operator and the part behind it
  have hread : Reads s.index (do
      consumeTrivia
      let _ ← bump
      when (!(← self.expression (op.level + 1))) do
        errorCurrent "expected an expression after an operator"
        recoverUntil EXPRESSION_BOUNDARIES
      return (some op.level, ← moved s.index)) (some op.level, true)
      (token op.kind ++ expression part) (Next (stops (op.level + 1))) := by
    refine Reads.spaced ?_ ((starts_token hsolid rfl).append _)
    refine Reads.past (bump_reads herror) ⟨_, List.mem_singleton_self _, hsolid⟩ ?_
      fun _ _ => trivial
    refine Reads.last (h _ _ part hproper hstronger hinner hn) ?_ fun _ hmore => hmore
    refine Reads.skip_unless ?_
    exact Reads.moved Reads.pure
  apply Ends.read
  rw [hprecedence]
  apply Ends.read
  refine Ends.cond (fun hless => by omega) fun _ => ?_
  refine Ends.bind (openRun_makes hanchor hmade) ?_
  rintro _ s₁ ⟨hmade₁, htokens, hindex⟩
  have hstands₁ : Stands ((token op.kind ++ expression part).terminals ++ more) s₁ := by
    unfold Stands
    rw [htokens, hindex]
    exact hstands
  have hdepth₁ := hmade₁.depth
  have hdepth₀ := hmade.depth
  refine (hread s₁ more (hmade₁.good hs₀) (Nat.le_of_eq hindex.symm) ?_ hstands₁ hmore).mono ?_
  · show s₁.depth + max 0 (expression part).height ≤ MAX_RECURSION_DEPTH
    omega
  · rintro _ s₂ ⟨rfl, hmade₂, hstands₂⟩
    have hpast := hmade₂.past hstands₁ hstands₂ (Piece.solid_token hsolid).append_left
    rw [within_join]
    exact ⟨rfl, hmade₁.trans hmade₂, hstands₂, by omega⟩

omit h in
/-- Where no operator comes that is strong enough, the run is over. -/
theorem parseBinaryPart_stops {s : Parser} {more : List Terminal} {minimum : Nat}
    (hs : Stands more s) (hmore : Next (stops minimum) more) (anchor : Nat) (active : Option Nat) :
    parseBinaryPart self anchor minimum active s = some ((active, false), s) := by
  have hkind := significantKind_eq hs (hmore.mono fun _ _ => rfl)
  have hweak : ∀ precedence, s.binaryPrecedence = some precedence → precedence < minimum := by
    intro precedence hprecedence
    unfold binaryPrecedence at hprecedence
    rw [hkind] at hprecedence
    cases more with
    | nil => cases hprecedence
    | cons terminal rest =>
      have hstops := hmore.2.2
      unfold stops at hstops
      rw [Bool.or_eq_true] at hstops
      rcases hstops with hboundary | hop
      · simp only [EXPRESSION_BOUNDARIES, List.contains_cons, Bool.or_eq_true, beq_iff_eq,
          List.contains_nil, Bool.false_eq_true, or_false] at hboundary
        rcases hboundary with heq | heq | heq | heq | heq <;> simp [heq] at hprecedence
      · obtain ⟨op, -, hop⟩ := List.any_eq_true.mp hop
        simp only [Bool.and_eq_true, decide_eq_true_eq] at hop
        have heq := binaryPrecedence_eq op (s := s) (by rw [hkind, hop.1]; rfl)
        unfold binaryPrecedence at heq
        rw [hkind, hprecedence] at heq
        rw [Option.some.inj heq]
        exact hop.2
  have hends : Ends (parseBinaryPart self anchor minimum active) s fun r s' =>
      r = (active, false) ∧ s' = s := by
    apply Ends.read
    cases hprecedence : s.binaryPrecedence with
    | none => exact Ends.pure ⟨rfl, rfl⟩
    | some precedence =>
      apply Ends.read
      exact Ends.cond (fun _ => Ends.pure ⟨rfl, rfl⟩) fun hle =>
        absurd (hweak precedence hprecedence) hle
  obtain ⟨_, _, hrun, rfl, rfl⟩ := hends
  exact hrun

/-- The first operand is read, and then one operator after the other. -/
theorem parseExpressionAtDepth_reads {m : Nesting BinaryOp Operand} {minimum : Nat}
    (hproper : m.Proper BinaryOp.level) (hleast : m.AtLeast BinaryOp.level minimum)
    (hinner : ∀ o ∈ m.operands, ∀ p ∈ o.inner, Sequence p) (hn : (within m).height ≤ n) :
    Reads lo (parseExpressionAtDepth self minimum) true (within.closed m (within m))
      (Next (stops minimum)) := by
  intro s more hs hat hdepth hstands hmore
  obtain ⟨anchor, hanchor⟩ := good_tail hs
  obtain ⟨hfirst, hparts⟩ := within_height m
  rw [closed_height] at hdepth
  rw [closed_terminals, within_terminals, spelling_spine, List.append_assoc] at hstands
  apply Ends.read
  rw [hanchor]
  refine Ends.bind (parseUnaryExpression_reads h m.first (hinner _ List.mem_cons_self) (by omega)
    s _ hs hat (by omega) hstands (spine_next hmore)) ?_
  rintro _ s₁ ⟨rfl, hmade₁, hstands₁⟩
  rw [if_pos rfl]
  refine Ends.bind (m := fun last s' => last = active m ∧
    Made (pending (active m)) s s' (within m).trees ∧ Stands more s') ?_ ?_
  · -- the nesting so far, and the operators that are left
    refine ends_loopWith (i := fun last s' => ∃ done left, m.spine = done ++ left ∧
      last = active ((Nesting.operand m.first).joins BinaryOp.level done) ∧
      Made (pending last) s s'
        (within ((Nesting.operand m.first).joins BinaryOp.level done)).trees ∧
      Stands (spineTerminals left ++ more) s') ?_
      ⟨[], m.spine, rfl, rfl, hmade₁, hstands₁⟩
    rintro _ s' ⟨done, left, hspine, rfl, hmade, hstands'⟩
    have hs' := hmade.good hs
    cases left with
    | nil =>
      rw [List.append_nil] at hspine
      rw [← hspine, Nesting.joins_spine hproper] at hmade ⊢
      refine ⟨_, s', parseBinaryPart_stops hstands' hmore anchor _, rfl, hs'.index, ?_⟩
      rw [if_neg nofun]
      exact ⟨rfl, hmade, hstands'⟩
    | cons p left =>
      obtain ⟨op, part⟩ := p
      have hmem : (op, part) ∈ m.spine := by simp [hspine]
      obtain ⟨hpart, hstronger⟩ : part.Proper BinaryOp.level ∧
          part.AtLeast BinaryOp.level (op.level + 1) :=
        Nesting.spine_parts hproper (op, part) hmem
      have hop : minimum ≤ op.level := Nesting.spine_atLeast hleast hproper (op, part) hmem
      have hheight : (expression part).height ≤ (within m).height := hparts (op, part) hmem
      have hdepth' := hmade.depth
      have hnext : Next (stops (op.level + 1)) (spineTerminals left ++ more) := by
        cases left with
        | nil => exact hmore.mono fun kind hkind => stops_mono (by omega) hkind
        | cons q left =>
          have hpair := Nesting.spine_pairwise hproper
          rw [hspine] at hpair
          have hle := (List.pairwise_cons.mp (List.pairwise_append.mp hpair).2.1).1 q
            List.mem_cons_self
          exact ⟨rfl, (op_kind q.1).1, op_stops (Nat.lt_succ_of_le hle)⟩
      have hstands'' : Stands (⟨op.kind, false⟩ :: (expression part).terminals ++
          (spineTerminals left ++ more)) s' := by
        simpa [spineTerminals] using hstands'
      refine (parseBinaryPart_makes h hop hpart hstronger
        (fun o ho => hinner o (spine_operands hmem o ho)) (by omega) hs hanchor hmade hstands''
        hnext (by omega)).mono ?_
      rintro _ s'' ⟨rfl, hmade'', hstands'', hindex⟩
      refine ⟨hmade''.tokens.trans hmade.tokens.symm, (hmade''.good hs).index, ?_⟩
      rw [if_pos rfl]
      have hjoins : (Nesting.operand m.first).joins BinaryOp.level (done ++ [(op, part)]) =
          ((Nesting.operand m.first).joins BinaryOp.level done).join BinaryOp.level op part := by
        simp [Nesting.joins]
      refine ⟨⟨done ++ [(op, part)], left, by simp [hspine], ?_, ?_, hstands''⟩, hindex⟩
      · rw [hjoins, active_join]
      · rw [hjoins]
        exact hmade''
  · rintro _ s₂ ⟨rfl, hmade₂, hstands₂⟩
    refine Ends.bind (closePending_makes hmade₂) ?_
    rintro _ s₃ ⟨hmade₃, htokens, hindex⟩
    refine Ends.pure ⟨rfl, hmade₃, ?_⟩
    unfold Stands
    rw [htokens, hindex]
    exact hstands₂

theorem parseExpression_reads {m : Nesting BinaryOp Operand} {minimum : Nat}
    (hproper : m.Proper BinaryOp.level) (hleast : m.AtLeast BinaryOp.level minimum)
    (hinner : ∀ o ∈ m.operands, ∀ p ∈ o.inner, Sequence p) (hn : (expression m).height ≤ n + 1) :
    Reads lo (parseExpression self minimum) true (expression m) (Next (stops minimum)) := by
  intro s more hs hat hdepth hstands hmore
  rw [expression_height] at hn hdepth
  let s₁ : Parser := { s with depth := s.depth + 1 }
  have hs₁ : Good s₁ := ⟨hs.index, by show s.depth + 1 ≤ _; omega, hs.events⟩
  have henter : Ends enterParseDepth s fun entered s' => entered = true ∧ s' = s₁ := by
    apply Ends.read
    refine Ends.cond (fun hfull => by omega) fun _ => ?_
    exact ⟨_, _, rfl, rfl, rfl⟩
  refine Ends.bind henter ?_
  rintro _ _ ⟨rfl, rfl⟩
  rw [if_pos rfl]
  refine Ends.bind (parseExpressionAtDepth_reads h hproper hleast hinner (by omega) s₁ more hs₁
    hat ?_ hstands hmore) ?_
  · rw [closed_height]
    show s.depth + 1 + (within m).height ≤ MAX_RECURSION_DEPTH
    omega
  · rintro _ s₂ ⟨rfl, hmade, hstands₂⟩
    have hdepth₂ : s₂.depth = s.depth + 1 := hmade.depth
    refine ⟨true, { s₂ with depth := s₂.depth - 1 }, rfl, rfl, ?_, hstands₂⟩
    exact ⟨hmade.tokens, by show s₂.depth - 1 = s.depth; omega, hmade.index, hmade.diagnostics,
      hmade.events⟩

end Productions

/-- With so much fuel the parser reads every expression that is no higher. -/
theorem productions_read (n : Nat) : ReadsExpressions n (productions n) := by
  induction n with
  | zero =>
    intro lo minimum m _ _ _ hn
    rw [expression_height] at hn
    cases hn
  | succ n ih =>
    intro lo minimum m hproper hleast hinner hn
    exact parseExpression_reads ih hproper hleast hinner hn

/-! ## Sources -/

theorem parseQueryExpression_reads {self : Recur} {n : Nat} (h : ReadsExpressions n self)
    {e : Piece} (he : Sequence e) (hn : e.height ≤ n) :
    Reads lo (parseQueryExpression self) () (e.node .QueryExpr)
      (Next (stops LOWEST_PRECEDENCE)) :=
  Reads.node (by decide) (required_reads h he hn _)

theorem atEof_eq {s : Parser} (h : s.rawKind = none) : s.atEof = true := by
  unfold atEof
  exact decide_eq_true (rawKind_eq_none h)

theorem atEof_false {s : Parser} {p : TokenKind → Bool} {terminals : List Terminal}
    (h : Starts p terminals) (hs : Stands terminals s) : s.atEof = false := by
  unfold atEof
  refine decide_eq_false fun hle => ?_
  obtain ⟨kind, rest, rfl, hsolid, -⟩ := h
  have hkinds := solid_kinds hs
  rw [List.drop_eq_nil_of_le hle, List.map_cons, List.filter_cons_of_pos hsolid] at hkinds
  cases hkinds

/-- The turn that reads the query, up to the end of the source. -/
theorem parseSourceTurn_makes {self : Recur} {n : Nat} (h : ReadsExpressions n self) {e : Piece}
    (he : Sequence e) (hn : e.height ≤ n) {s : Parser} (hs : Good s)
    (hdepth : s.depth + e.height ≤ MAX_RECURSION_DEPTH) (hstands : Stands e.terminals s) :
    Ends (parseSourceTurn self) s fun again s' => again = true ∧
      Made [] s s' [.Node (.Node .QueryExpr) e.trees] ∧ s'.rawKind = none ∧ s.index < s'.index := by
  have hsemicolon : Next (· ≠ .Semicolon) e.terminals := by
    refine he.starts.next.mono fun kind hkind => ?_
    have hne : kind ≠ .Semicolon := by
      rintro rfl
      cases hkind
    simpa using hne
  apply Ends.read
  rw [atEof_false he.starts hstands, if_neg nofun]
  apply Ends.read
  refine Ends.bind (consumeIf_stops .Semicolon s e.terminals hs (Nat.zero_le _)
    (Nat.le_trans (Nat.le_add_right _ _) hdepth) hstands hsemicolon) ?_
  rintro _ s₁ ⟨rfl, hmade₁, hstands₁⟩
  rw [if_neg nofun]
  have hdepth₁ := hmade₁.depth
  rw [← List.append_nil e.terminals] at hstands₁
  refine Ends.bind (parseQueryExpression_reads h he hn s₁ [] (hmade₁.good hs) (Nat.zero_le _)
    (by rw [hdepth₁]; exact hdepth) hstands₁ trivial) ?_
  rintro _ s₂ ⟨-, hmade₂, hstands₂⟩
  have hpast := hmade₂.past hstands₁ hstands₂ he.solid
  have hmade : Made [] s s₂ [.Node (.Node .QueryExpr) e.trees] := hmade₁.trans hmade₂
  refine Ends.bind (consumeTrivia_ends (hmade.good hs) hstands₂ trivial) ?_
  rintro _ s₃ ⟨hmade₃, hstands₃, hraw₃⟩
  refine Ends.bind (m := fun _ s' => s₃ = s') ?_ ?_
  · apply Ends.read
    rw [atEof_eq hraw₃, if_pos rfl]
    exact Ends.pure rfl
  rintro _ _ rfl
  have hindex₁ := hmade₁.index
  have hindex₃ := hmade₃.index
  have hmoved : decide (s₃.index ≠ s.index) = true := decide_eq_true (by omega)
  apply Ends.read
  rw [hmoved, if_pos rfl]
  have hmade' := hmade.trans hmade₃
  refine Ends.bind (consumeTrivia_ends (hmade'.good hs) hstands₃ trivial) ?_
  rintro _ s₄ ⟨hmade₄, -, hraw₄⟩
  have hindex₄ := hmade₄.index
  exact Ends.pure ⟨rfl, by simpa using hmade'.trans hmade₄, hraw₄, by omega⟩

/-- A source that is one expression is read as one query. -/
theorem parseSource_makes {self : Recur} {n : Nat} (h : ReadsExpressions n self) {e : Piece}
    (he : Sequence e) (hn : e.height ≤ n) {s : Parser} (hs : Good s)
    (hdepth : s.depth + e.height ≤ MAX_RECURSION_DEPTH) (hstands : Stands e.terminals s) :
    Ends (parseSource self) s fun _ s' =>
      Made [] s s' [.Node (.Node .QueryExpr) e.trees] ∧ s'.index = s.tokens.length := by
  refine Ends.bind (consumeTrivia_ends hs hstands (he.starts.next.mono fun _ _ => rfl)) ?_
  rintro _ s₁ ⟨hmade₁, hstands₁, -⟩
  refine ends_loopWith (i := fun _ s' => (Made [] s s' [] ∧ Stands e.terminals s') ∨
    (Made [] s s' [.Node (.Node .QueryExpr) e.trees] ∧ s'.rawKind = none)) ?_
    (.inl ⟨hmade₁, hstands₁⟩)
  rintro _ s' (⟨hmade, hstands'⟩ | ⟨hmade, hraw⟩)
  · have hdepth' := hmade.depth
    refine Ends.bind (parseSourceTurn_makes h he hn (hmade.good hs) (by omega) hstands') ?_
    rintro _ s'' ⟨rfl, hmade', hraw, hindex⟩
    exact Ends.pure ⟨hmade'.tokens, (hmade'.good (hmade.good hs)).index,
      .inr ⟨hmade.trans hmade', hraw⟩, hindex⟩
  · have hs' := hmade.good hs
    refine Ends.bind (m := fun again s'' => again = false ∧ s'' = s') ?_ ?_
    · apply Ends.read
      rw [atEof_eq hraw, if_pos rfl]
      exact Ends.pure ⟨rfl, rfl⟩
    · rintro _ _ ⟨rfl, rfl⟩
      have hend := rawKind_eq_none hraw
      have hindex := hs'.index
      rw [hmade.tokens] at hend hindex
      exact Ends.pure ⟨rfl, hs'.index, hmade, Nat.le_antisymm hindex hend⟩

theorem parse_builds (file : Nat) {tokens : List Token} {e : Piece} (he : Sequence e)
    (hheight : e.height ≤ MAX_RECURSION_DEPTH)
    (hspaced : Spaced e.terminals (tokens.map Prod.fst)) :
    ∃ es, parse file tokens = some (.Open (.Node .Root) :: es ++ [.Close], []) ∧
      Builds tokens 0 es tokens.length [.Node (.Node .QueryExpr) e.trees] := by
  let fuel := MAX_RECURSION_DEPTH + tokens.length + 1
  let s := Parser.new file tokens
  let s₀ := s.with (.Open (.Node .Root))
  have hview₀ : Arena.View s₀.events ([] ++ [(0, .Open (.Node .Root))]) := Arena.view_empty.append _
  have hs₀ : Good s₀ := ⟨Nat.zero_le _, Nat.zero_le _, _, by simp, hview₀⟩
  have hnode : Ends (node .Root (parseSource (productions fuel))) s fun _ s' =>
      ∃ s₁, Made [] s₀ s₁ [.Node (.Node .QueryExpr) e.trees] ∧ s₁.index = tokens.length ∧
        s' = s₁.with .Close := by
    refine Ends.bind (m := fun _ s' => s' = s₀) (Ends.change rfl) ?_
    rintro _ _ rfl
    refine Ends.bind (parseSource_makes (productions_read fuel) he ?_ hs₀ ?_ hspaced)
      fun _ s₁ h₁ => ?_
    · show e.height ≤ MAX_RECURSION_DEPTH + tokens.length + 1
      omega
    · show 0 + e.height ≤ MAX_RECURSION_DEPTH
      omega
    · exact ⟨(), _, rfl, s₁, h₁.1, h₁.2, rfl⟩
  obtain ⟨_, _, hrun, s₁, hmade, hindex, rfl⟩ := hnode
  obtain ⟨l, es, hview, hmap, hbuilds⟩ := hmade.events _ hview₀
  refine ⟨es, ?_, by rwa [hindex] at hbuilds⟩
  have hlist : (s₁.with .Close).events.toList = .Open (.Node .Root) :: es ++ [.Close] := by
    refine (hview.append .Close).toList.trans ?_
    simp [hmap]
  have hdiagnostics : (s₁.with .Close).diagnostics = [] := hmade.diagnostics
  show (node .Root (parseSource (productions fuel)) s).map _ = _
  rw [hrun, ← hlist, ← hdiagnostics]
  rfl

/-- A well-formed sequence of operands with operators between them, within the
limits of the parser, is parsed without a complaint. In the tree is the one
nesting in which the operators of a run are of one precedence and the parts
between them hold only stronger ones, with the operands in their order. Signs
stand around their operand, and inside them the postfixes. -/
theorem operators_nest_by_precedence (lex : Text → List Token) (source : Text) (file : Nat)
    (first : Operand) (rest : List (BinaryOp × Operand))
    (hinner : ∀ o ∈ first :: rest.map Prod.snd, ∀ p ∈ o.inner, Sequence p)
    (hlex : Tiles source 0 (lex source)) (hshort : source.length < 2 ^ 32)
    (hspelt : Spaced (spelling first rest) ((lex source).map Prod.fst))
    (hdepth : (expression (Nesting.nest BinaryOp.level first rest)).height ≤ MAX_RECURSION_DEPTH) :
    ∃ p n, parseQuery lex source file = some (.ok p) ∧ p.diagnostics = [] ∧
      skeleton p.green = .Node (.Node .Root) [.Node (.Node .QueryExpr) (expression n).trees] ∧
      n.Proper BinaryOp.level ∧ n.first = first ∧ n.rest = rest ∧
      ∀ m : Nesting BinaryOp Operand,
        m.Proper BinaryOp.level → m.first = first → m.rest = rest → m = n := by
  let n := Nesting.nest BinaryOp.level first rest
  have hfirst : n.first = first := Nesting.nest_first first rest
  have hrest : n.rest = rest := Nesting.nest_rest first rest
  have hproper : n.Proper BinaryOp.level := Nesting.nest_proper first rest
  have hsequence : Sequence (expression n) := by
    refine .mk n hproper fun o ho => hinner o ?_
    rwa [Nesting.operands, hfirst, hrest] at ho
  have hspaced : Spaced (expression n).terminals ((lex source).map Prod.fst) := by
    rwa [expression_terminals, hfirst, hrest]
  obtain ⟨es, hparse, hbuilds⟩ := parse_builds file hsequence hdepth hspaced
  obtain ⟨elements, htrees, hfold⟩ := hbuilds.fold hlex
  refine ⟨⟨.new (.Node .Root) elements ⟨0, source.length, Nat.zero_le _⟩, []⟩, n, ?_, rfl, ?_,
    hproper, hfirst, hrest, ?_⟩
  · unfold parseQuery
    simp only [hparse, Option.map_some, finish_folds hlex hshort hfold]
    rfl
  · rw [skeleton, htrees]
  · intro m hm hmfirst hmrest
    exact (Nesting.existsUnique_proper first rest).unique ⟨hm, hmfirst, hmrest⟩
      ⟨hproper, hfirst, hrest⟩

/-! ## A sum -/

def integer : Operand :=
  ⟨⟨[], nofun, nofun, nofun, Nat.zero_le _⟩, .literal .Integer (by decide), [], .nil, Nat.zero_le _⟩

def negated : Operand :=
  { integer with signs := ⟨[.Minus], by decide, by decide, by decide, by decide⟩ }

def bracketed : Operand := { integer with primary := .paren [expression (.operand integer)] }

def byteToken (kind : TokenKind) (start : Nat) : Token :=
  (kind, ⟨start, start + 1, Nat.le_succ start⟩)

/-- The tokens of `-1 + 2*(3)`. -/
def lexSum (_ : Text) : List Token :=
  [byteToken .Minus 0, byteToken .Integer 1, byteToken .Whitespace 2, byteToken .Plus 3,
    byteToken .Whitespace 4, byteToken .Integer 5, byteToken .Star 6, byteToken .ParenOpen 7,
    byteToken .Integer 8, byteToken .ParenClose 9]

theorem Spaced.next {kind : TokenKind} {terminals : List Terminal} {kinds : List TokenKind}
    (h : Spaced terminals kinds) : Spaced (⟨kind, false⟩ :: terminals) (kind :: kinds) :=
  have hgap : ∀ k ∈ ([] : List TokenKind), isTrivia k = true := nofun
  .free hgap h

theorem Spaced.blank {terminals : List Terminal} {kind : TokenKind} {kinds : List TokenKind}
    (h : Spaced terminals kinds) :
    Spaced (⟨kind, false⟩ :: terminals) (.Whitespace :: kind :: kinds) :=
  have hgap : ∀ k ∈ [TokenKind.Whitespace], isTrivia k = true := by decide
  .free hgap h

theorem inner_sum : ∀ o ∈ [negated, integer, bracketed], ∀ p ∈ o.inner, Sequence p := by
  intro o ho p hp
  have hp : p ∈ [expression (.operand integer)] := by
    simp only [List.mem_cons, List.not_mem_nil, or_false] at ho
    rcases ho with rfl | rfl | rfl
    · cases hp
    · cases hp
    · exact hp
  rw [List.mem_singleton.mp hp]
  refine .mk _ trivial fun o ho q hq => ?_
  rw [List.mem_singleton.mp ho] at hq
  cases hq

def number : Skeleton := .Node (.Node .LiteralExpr) [.Leaf (.Token .Integer)]

/-- The tree of `-1 + 2*(3)`: the sign is at the first number alone, and the product
is one part of the sum. -/
def sumTree : Skeleton :=
  .Node (.Node .BinaryExpr)
    [.Node (.Node .UnaryExpr) [.Leaf (.Token .Minus), number],
      .Leaf (.Token .Plus),
      .Node (.Node .BinaryExpr)
        [number,
          .Leaf (.Token .Star),
          .Node (.Node .ParenExpr)
            [.Leaf (.Token .ParenOpen), number, .Leaf (.Token .ParenClose)]]]

def productInSum : Nesting BinaryOp Operand :=
  .start (.operand negated) .Plus (.start (.operand integer) .Star (.operand bracketed))

theorem productInSum_proper : productInSum.Proper BinaryOp.level := by
  refine ⟨trivial, ⟨trivial, trivial, Nesting.atLeast_operand _, Nesting.atLeast_operand _⟩,
    Nesting.atLeast_operand _, fun op hop => ?_⟩
  obtain rfl : BinaryOp.Star = op := Option.some.inj hop
  decide

theorem a_sum_is_parsed : ∃ p,
    parseQuery lexSum (ascii "-1 + 2*(3)") 0 = some (.ok p) ∧ p.diagnostics = [] ∧
      skeleton p.green = .Node (.Node .Root) [.Node (.Node .QueryExpr) [sumTree]] := by
  have hend : ∀ k ∈ ([] : List TokenKind), isTrivia k = true := nofun
  obtain ⟨p, n, hparse, hclean, htree, -, -, -, honly⟩ :=
    operators_nest_by_precedence lexSum (ascii "-1 + 2*(3)") 0 negated
      [(.Plus, integer), (.Star, bracketed)]
      inner_sum (by decide) (by decide)
      (.next (.next (.blank (.blank (.next (.next (.next (.next (.done hend)))))))))
      (by decide)
  obtain rfl : productInSum = n := honly productInSum productInSum_proper rfl rfl
  exact ⟨p, hparse, hclean, htree⟩

end analyzer.m3
