-- What a production reads: the terminals that spell a piece, whose trees it
-- builds without a complaint. A rule for each way in which productions are
-- put together.
import PureAnalyzer.Operators

namespace analyzer.m3

open fragments model cst linkedarena totality analyzer.m3.Parser

/-! ## Trees that events build -/

/-- The events are these trees over the tokens between two places. -/
inductive Builds (tokens : List Token) : Nat → List Event → Nat → List Skeleton → Prop where
  | nil (i : Nat) : Builds tokens i [] i []
  | token {i j : Nat} {es : List Event} {kind : TokenKind} {range : TextRange}
      {trees : List Skeleton} (here : tokens[i]? = some (kind, range))
      (rest : Builds tokens (i + 1) es j trees) :
      Builds tokens i (.Advance :: es) j (leaf (.Token kind) ++ trees)
  | node {i j k : Nat} {es es' : List Event} {kind : NodeKind} {trees trees' : List Skeleton}
      (inner : kind ≠ .Root) (below : Builds tokens i es j trees)
      (rest : Builds tokens j es' k trees') :
      Builds tokens i (.Open (.Node kind) :: es ++ .Close :: es') k
        (.Node (.Node kind) trees :: trees')

namespace Builds

variable {tokens : List Token} {i j k : Nat} {es es' : List Event} {trees trees' : List Skeleton}

theorem append (h : Builds tokens i es j trees) (h' : Builds tokens j es' k trees') :
    Builds tokens i (es ++ es') k (trees ++ trees') := by
  induction h with
  | nil => exact h'
  | token here _ ih =>
    rw [List.append_assoc]
    exact token here (ih h')
  | node inner below _ _ ih =>
    have hnode := node inner below (ih h')
    simpa using hnode

theorem bound (h : Builds tokens i es j trees) (hi : i ≤ tokens.length) : j ≤ tokens.length := by
  induction h with
  | nil => exact hi
  | token here _ ih =>
    have hlt := (List.getElem?_eq_some_iff.mp here).1
    exact ih (by omega)
  | node _ _ _ ih ih' => exact ih' (ih hi)

/-- The elements that the events become have these trees. -/
theorem fold {source : Text} {start : Nat} (htiles : Tiles source start tokens)
    (h : Builds tokens i es j trees) :
    ∃ elements, skeletons elements = trees ∧ Folds source tokens i es j elements := by
  induction h with
  | nil i => exact ⟨[], rfl, .nil i⟩
  | @token i j es kind range trees here rest ih =>
    obtain ⟨elements, htrees, hfold⟩ := ih
    refine ⟨_, ?_, hfold.token htiles here⟩
    rw [skeletons, htrees]
    rfl
  | node inner below rest ih ih' =>
    obtain ⟨elements, htrees, hfold⟩ := ih
    obtain ⟨elements', htrees', hfold'⟩ := ih'
    refine ⟨_, ?_, hfold.node inner hfold'⟩
    rw [skeletons, skeleton, htrees, htrees']

end Builds

/-- From one state to another: no diagnostics, and behind the events that are
put ahead of them the events of the trees. -/
structure Made (ahead : List Event) (s s' : Parser) (trees : List Skeleton) : Prop where
  tokens : s'.tokens = s.tokens
  depth : s'.depth = s.depth
  index : s.index ≤ s'.index
  diagnostics : s'.diagnostics = s.diagnostics
  events : ∀ l, Arena.View s.events l → ∃ l' es, Arena.View s'.events (l ++ l') ∧
    l'.map Prod.snd = ahead ++ es ∧ Builds s.tokens s.index es s'.index trees

namespace Made

variable {ahead : List Event} {s s' s'' : Parser} {trees trees' : List Skeleton}

theorem refl (s : Parser) : Made [] s s [] :=
  ⟨rfl, rfl, Nat.le_refl _, rfl, fun l h => ⟨[], [], by simpa using h, rfl, .nil _⟩⟩

theorem trans (h : Made ahead s s' trees) (h' : Made [] s' s'' trees') :
    Made ahead s s'' (trees ++ trees') := by
  refine ⟨h'.tokens.trans h.tokens, h'.depth.trans h.depth, Nat.le_trans h.index h'.index,
    h'.diagnostics.trans h.diagnostics, fun l hl => ?_⟩
  obtain ⟨l₁, es₁, hview₁, hmap₁, hbuilds₁⟩ := h.events l hl
  obtain ⟨l₂, es₂, hview₂, hmap₂, hbuilds₂⟩ := h'.events _ hview₁
  refine ⟨l₁ ++ l₂, es₁ ++ es₂, by simpa using hview₂, by simp [hmap₁, hmap₂], ?_⟩
  rw [h.tokens] at hbuilds₂
  exact hbuilds₁.append hbuilds₂

theorem good (h : Made ahead s s' trees) (hs : Good s) : Good s' := by
  obtain ⟨l, hne, hview⟩ := hs.events
  obtain ⟨l', es, hview', -, hbuilds⟩ := h.events l hview
  refine ⟨?_, ?_, l ++ l', by simp [hne], hview'⟩
  · rw [h.tokens]
    exact hbuilds.bound hs.index
  · rw [h.depth]
    exact hs.depth

theorem opened (kind : NodeKind) (s : Parser) :
    Made [.Open (.Node kind)] s (s.with (.Open (.Node kind))) [] :=
  ⟨rfl, rfl, Nat.le_refl _, rfl, fun _ h => ⟨_, [], h.append _, rfl, .nil _⟩⟩

/-- A node is closed. -/
theorem closed {kind : NodeKind} (h : Made [.Open (.Node kind)] s s' trees)
    (inner : kind ≠ .Root) : Made [] s (s'.with .Close) [.Node (.Node kind) trees] := by
  refine ⟨h.tokens, h.depth, h.index, h.diagnostics, fun l hl => ?_⟩
  obtain ⟨l', es, hview, hmap, hbuilds⟩ := h.events l hl
  refine ⟨_, _, by simpa [Parser.with] using hview.append .Close, ?_,
    .node inner hbuilds (.nil _)⟩
  simp [hmap]

/-- A node is opened where the step began. -/
theorem wrapped (h : Made [] s s' trees) {anchor : Nat} (hanchor : s.events.tail = some anchor)
    (kind : NodeKind) : Made [.Open (.Node kind)] s
      { s' with events := s'.events.insertAfter anchor (.Open (.Node kind)) } trees := by
  refine ⟨h.tokens, h.depth, h.index, h.diagnostics, fun l hl => ?_⟩
  obtain ⟨l', es, hview, hmap, hbuilds⟩ := h.events l hl
  exact ⟨_, es, hl.insertBehind hview hanchor _, by simpa using hmap, hbuilds⟩

/-- A token is used up. -/
theorem advanced {kind : TokenKind} {range : TextRange}
    (here : s.tokens[s.index]? = some (kind, range)) :
    Made [] s { s.with .Advance with index := s.index + 1 } (leaf (.Token kind)) := by
  refine ⟨rfl, rfl, Nat.le_succ _, rfl, fun _ h => ?_⟩
  refine ⟨_, _, h.append .Advance, rfl, ?_⟩
  rw [← List.append_nil (leaf _)]
  exact .token here (.nil _)

end Made

/-! ## Terminals -/

/-- The tokens that are left spell the terminals. -/
def Stands (terminals : List Terminal) (s : Parser) : Prop :=
  Spaced terminals ((s.tokens.drop s.index).map Prod.fst)

def solid (kind : TokenKind) : Bool := !isTrivia kind

/-- The next terminal can have spaces before it, and its kind is as asked for. -/
def Next (p : TokenKind → Bool) : List Terminal → Prop
  | [] => True
  | terminal :: _ => terminal.tight = false ∧ solid terminal.kind = true ∧ p terminal.kind = true

theorem Next.mono {p q : TokenKind → Bool} {terminals : List Terminal} (h : Next p terminals)
    (hpq : ∀ kind, p kind = true → q kind = true) : Next q terminals := by
  cases terminals with
  | nil => trivial
  | cons terminal rest => exact ⟨h.1, h.2.1, hpq _ h.2.2⟩

theorem filter_gap {gap : List TokenKind} (h : ∀ kind ∈ gap, isTrivia kind = true) :
    gap.filter solid = [] := by
  rw [List.filter_eq_nil_iff]
  intro kind hkind
  simp [solid, h kind hkind]

/-- The tokens that are no trivia are those of the terminals. -/
theorem Spaced.filter_solid {terminals : List Terminal} {kinds : List TokenKind}
    (h : Spaced terminals kinds) :
    kinds.filter solid = (terminals.map Terminal.kind).filter solid := by
  induction h with
  | done trivia => simp [filter_gap trivia]
  | tight _ ih => simp [List.filter_cons, ih]
  | free trivia _ ih => simp [List.filter_append, List.filter_cons, filter_gap trivia, ih]

/-- Spaces before the next terminal can be passed over. -/
theorem Spaced.skip {terminals : List Terminal} {kind : TokenKind} {kinds : List TokenKind}
    (h : Spaced terminals (kind :: kinds)) (hnext : Next (fun _ => true) terminals)
    (htrivia : isTrivia kind = true) : Spaced terminals kinds := by
  generalize hall : kind :: kinds = all at h
  cases h with
  | done trivia =>
    subst hall
    exact .done fun k hk => trivia k (List.mem_cons_of_mem _ hk)
  | tight _ => exact absurd hnext.1 nofun
  | @free k terminals gap kinds' trivia rest =>
    cases gap with
    | nil =>
      obtain ⟨rfl, -⟩ := List.cons.inj hall
      simp [Next, solid, htrivia] at hnext
    | cons g gap =>
      obtain ⟨-, rfl⟩ := List.cons.inj hall
      exact .free (fun k hk => trivia k (List.mem_cons_of_mem _ hk)) rest

/-- Where no spaces are left, the next token is the next terminal. -/
theorem Spaced.head {terminals : List Terminal} {kinds : List TokenKind}
    (h : Spaced terminals kinds) (hfirst : kinds.head?.any isTrivia = false) :
    kinds.head? = terminals.head?.map Terminal.kind := by
  cases h with
  | done trivia =>
    cases kinds with
    | nil => rfl
    | cons k kinds => simp [trivia k List.mem_cons_self] at hfirst
  | tight _ => rfl
  | @free k terminals gap kinds' trivia rest =>
    cases gap with
    | nil => rfl
    | cons g gap => simp [trivia g List.mem_cons_self] at hfirst

/-- Past the next token the other terminals are left. -/
theorem Spaced.tail {terminal : Terminal} {terminals : List Terminal} {kind : TokenKind}
    {kinds : List TokenKind} (h : Spaced (terminal :: terminals) (kind :: kinds))
    (hkind : isTrivia kind = false) : Spaced terminals kinds := by
  generalize hall : kind :: kinds = all at h
  cases h with
  | tight rest =>
    obtain ⟨-, rfl⟩ := List.cons.inj hall
    exact rest
  | @free k terminals gap kinds' trivia rest =>
    cases gap with
    | nil =>
      obtain ⟨-, rfl⟩ := List.cons.inj hall
      exact rest
    | cons g gap =>
      obtain ⟨rfl, -⟩ := List.cons.inj hall
      simp [trivia kind List.mem_cons_self] at hkind

/-- Where no spaces are left before a terminal, there are none before it. -/
theorem Spaced.tighten {kind : TokenKind} {terminals : List Terminal} {kinds : List TokenKind}
    (h : Spaced (⟨kind, false⟩ :: terminals) kinds) (hfirst : kinds.head? = some kind)
    (hsolid : solid kind = true) : Spaced (⟨kind, true⟩ :: terminals) kinds := by
  cases kinds with
  | nil => cases hfirst
  | cons k kinds =>
    obtain rfl : k = kind := by simpa using hfirst
    exact .tight (h.tail (by simpa [solid] using hsolid))

/-! ## Looking ahead -/

theorem rawKind_eq_head (s : Parser) :
    s.rawKind = ((s.tokens.drop s.index).map Prod.fst).head? := by
  simp [rawKind, List.head?_drop]

/-- The parser past one more token. -/
def Parser.advance (s : Parser) : Parser := { s.with .Advance with index := s.index + 1 }

theorem drop_index {s : Parser} {kind : TokenKind} (h : s.rawKind = some kind) :
    (s.tokens.drop s.index).map Prod.fst =
      kind :: (s.tokens.drop s.advance.index).map Prod.fst := by
  obtain ⟨hlt, hget⟩ := List.getElem?_eq_some_iff.mp (rawKind_eq_some h)
  rw [List.drop_eq_getElem_cons hlt, hget]
  rfl

/-- Where the first token that is no trivia is. -/
theorem findIdx?_solid {tokens : List Token} {kind : TokenKind} {kinds : List TokenKind}
    (h : (tokens.map Prod.fst).filter solid = kind :: kinds) :
    ∃ i, tokens.findIdx? (fun token => !isTrivia token.1) = some i ∧
      (tokens[i]?).map Prod.fst = some kind ∧
      ((tokens.drop (i + 1)).map Prod.fst).filter solid = kinds := by
  induction tokens with
  | nil => cases h
  | cons token tokens ih =>
    rw [List.map_cons] at h
    by_cases hsolid : solid token.1 = true
    · rw [List.filter_cons_of_pos hsolid] at h
      obtain ⟨rfl, rfl⟩ := List.cons.inj h
      exact ⟨0, by rw [List.findIdx?_cons]; exact if_pos hsolid, rfl, rfl⟩
    · rw [List.filter_cons_of_neg hsolid] at h
      obtain ⟨i, hfind, hkind, hrest⟩ := ih h
      refine ⟨i + 1, ?_, hkind, hrest⟩
      rw [List.findIdx?_cons, hfind]
      exact if_neg hsolid

theorem nextSignificant {s : Parser} {start : Nat} {kind : TokenKind} {kinds : List TokenKind}
    (h : ((s.tokens.drop start).map Prod.fst).filter solid = kind :: kinds) :
    ∃ i, s.nextSignificantIndexFrom start = some i ∧
      (s.tokens[i]?).map Prod.fst = some kind ∧
      ((s.tokens.drop (i + 1)).map Prod.fst).filter solid = kinds := by
  obtain ⟨i, hfind, hkind, hrest⟩ := findIdx?_solid h
  refine ⟨start + i, ?_, ?_, ?_⟩
  · rw [nextSignificantIndexFrom, hfind]
    rfl
  · rwa [List.getElem?_drop] at hkind
  · rwa [List.drop_drop] at hrest

theorem nextSignificantKind_eq (s : Parser) (start : Nat) :
    s.nextSignificantKind start =
      (((s.tokens.drop start).map Prod.fst).filter solid).head? := by
  unfold nextSignificantKind
  cases h : ((s.tokens.drop start).map Prod.fst).filter solid with
  | nil =>
    have hnone : s.nextSignificantIndexFrom start = none := by
      rw [nextSignificantIndexFrom, Option.map_eq_none_iff, List.findIdx?_eq_none_iff]
      intro token htoken
      have hnot := List.filter_eq_nil_iff.mp h token.1 (List.mem_map_of_mem htoken)
      simpa [solid] using hnot
    rw [hnone]
    rfl
  | cons kind kinds =>
    obtain ⟨i, hindex, hkind, -⟩ := nextSignificant h
    rw [hindex]
    exact hkind

section Lookahead

variable {s : Parser} {terminals : List Terminal} {kind : TokenKind}

theorem solid_kinds (h : Stands terminals s) :
    ((s.tokens.drop s.index).map Prod.fst).filter solid =
      (terminals.map Terminal.kind).filter solid := Spaced.filter_solid h

theorem head_solid {terminals : List Terminal} (h : Next (fun _ => true) terminals) :
    ((terminals.map Terminal.kind).filter solid).head? = terminals.head?.map Terminal.kind := by
  cases terminals with
  | nil => rfl
  | cons terminal rest => rw [List.map_cons, List.filter_cons_of_pos h.2.1]; rfl

theorem significantKind_eq (h : Stands terminals s) (hnext : Next (fun _ => true) terminals) :
    s.significantKind = terminals.head?.map Terminal.kind := by
  rw [significantKind, nextSignificantKind_eq, solid_kinds h, head_solid hnext]

theorem atToken_eq (h : Stands terminals s) (hnext : Next (fun _ => true) terminals) :
    s.atToken kind = decide (terminals.head?.map Terminal.kind = some kind) := by
  rw [atToken, significantKind_eq h hnext]

/-- The next terminal but one. -/
theorem nextSignificantKind_after {first : Terminal} (h : Stands (first :: terminals) s)
    (hfirst : solid first.kind = true) (hnext : Next (fun _ => true) terminals) :
    ∃ i, s.significantIndex = some i ∧ (s.tokens[i]?).map Prod.fst = some first.kind ∧
      s.nextSignificantKind (i + 1) = terminals.head?.map Terminal.kind := by
  have hkinds := solid_kinds h
  rw [List.map_cons, List.filter_cons_of_pos hfirst] at hkinds
  obtain ⟨i, hindex, hkind, hrest⟩ := nextSignificant hkinds
  refine ⟨i, hindex, hkind, ?_⟩
  rw [nextSignificantKind_eq, hrest, head_solid hnext]

end Lookahead

/-- The next terminal is there, and its kind is as asked for. -/
def Starts (p : TokenKind → Bool) (terminals : List Terminal) : Prop :=
  ∃ kind rest, terminals = ⟨kind, false⟩ :: rest ∧ solid kind = true ∧ p kind = true

section Starts

variable {p q : TokenKind → Bool} {terminals : List Terminal}

theorem Starts.next (h : Starts p terminals) : Next p terminals := by
  obtain ⟨kind, rest, rfl, hsolid, hp⟩ := h
  exact ⟨rfl, hsolid, hp⟩

theorem Starts.append (h : Starts p terminals) (more : List Terminal) :
    Starts p (terminals ++ more) := by
  obtain ⟨kind, rest, rfl, hsolid, hp⟩ := h
  exact ⟨kind, rest ++ more, rfl, hsolid, hp⟩

theorem Starts.mono (h : Starts p terminals) (hpq : ∀ kind, p kind = true → q kind = true) :
    Starts q terminals := by
  obtain ⟨kind, rest, rfl, hsolid, hp⟩ := h
  exact ⟨kind, rest, rfl, hsolid, hpq kind hp⟩

theorem Next.atToken_false {s : Parser} {kind : TokenKind} (h : Next p terminals)
    (hs : Stands terminals s) (hkind : p kind = false) : s.atToken kind = false := by
  rw [atToken_eq hs (h.mono fun _ _ => rfl)]
  refine decide_eq_false ?_
  intro heq
  cases terminals with
  | nil => cases heq
  | cons terminal rest =>
    have hp := h.2.2
    rw [Option.some.inj heq, hkind] at hp
    cases hp

theorem Starts.atToken_false {s : Parser} {kind : TokenKind} (h : Starts p terminals)
    (hs : Stands terminals s) (hkind : p kind = false) : s.atToken kind = false :=
  h.next.atToken_false hs hkind

theorem Starts.atToken_true {s : Parser} {kind : TokenKind}
    (h : Starts (fun k => decide (k = kind)) terminals) (hs : Stands terminals s) :
    s.atToken kind = true := by
  rw [atToken_eq hs (h.next.mono fun _ _ => rfl)]
  obtain ⟨kind', rest, rfl, -, hp⟩ := h
  obtain rfl : kind' = kind := by simpa using hp
  simp

end Starts

/-! ## Pieces -/

namespace Piece

variable (p q r : Piece)

@[simp] theorem append_terminals : (p ++ q).terminals = p.terminals ++ q.terminals := rfl

@[simp] theorem append_trees : (p ++ q).trees = p.trees ++ q.trees := rfl

@[simp] theorem append_height : (p ++ q).height = max p.height q.height := rfl

@[simp] theorem node_terminals (kind : NodeKind) : (p.node kind).terminals = p.terminals := rfl

@[simp] theorem node_height (kind : NodeKind) : (p.node kind).height = p.height := rfl

@[simp] theorem token_terminals (kind : TokenKind) : (token kind).terminals = [⟨kind, false⟩] := rfl

@[simp] theorem token_height (kind : TokenKind) : (token kind).height = 0 := rfl

@[simp] theorem empty_terminals : empty.terminals = [] := rfl

@[simp] theorem empty_trees : empty.trees = [] := rfl

@[simp] theorem empty_height : empty.height = 0 := rfl

theorem append_assoc : p ++ q ++ r = p ++ (q ++ r) := by
  show Piece.mk _ _ _ = Piece.mk _ _ _
  simp [Nat.max_assoc]

@[simp] theorem append_empty : p ++ empty = p := by
  show Piece.mk _ _ _ = p
  simp

@[simp] theorem empty_append : empty ++ p = p := by
  show Piece.mk _ _ _ = p
  simp

/-- The piece where no spaces stand before it. -/
def tight : Piece :=
  { p with terminals := match p.terminals with
      | [] => []
      | terminal :: rest => ⟨terminal.kind, true⟩ :: rest }

/-- Some token of it is no trivia. -/
def Solid (p : Piece) : Prop := ∃ terminal ∈ p.terminals, solid terminal.kind = true

variable {p q}

theorem Solid.append_left (h : p.Solid) : (p ++ q).Solid := by
  obtain ⟨terminal, hmem, hsolid⟩ := h
  exact ⟨terminal, List.mem_append_left _ hmem, hsolid⟩

theorem Solid.of_starts {k : TokenKind → Bool} (h : Starts k p.terminals) : p.Solid := by
  obtain ⟨kind, rest, heq, hsolid, -⟩ := h
  exact ⟨⟨kind, false⟩, by simp [heq], hsolid⟩

theorem solid_token {kind : TokenKind} (h : solid kind = true) : (token kind).Solid :=
  ⟨_, List.mem_singleton_self _, h⟩

end Piece

open Piece (empty token list callArgs)

/-- Over terminals of which some are no trivia the parser gets on. -/
theorem index_lt {s s' : Parser} {p : Piece} {more : List Terminal} (htokens : s'.tokens = s.tokens)
    (hs : Stands (p.terminals ++ more) s) (hs' : Stands more s') (hp : p.Solid) :
    s.index < s'.index := by
  refine Nat.lt_of_not_le fun hle => ?_
  have hkinds := solid_kinds hs
  have hkinds' := solid_kinds hs'
  rw [htokens] at hkinds'
  have hsub : (s.tokens.drop s.index).Sublist (s.tokens.drop s'.index) := by
    have hdrop : s.tokens.drop s.index = (s.tokens.drop s'.index).drop (s.index - s'.index) := by
      rw [List.drop_drop]
      congr 1
      omega
    rw [hdrop]
    exact List.drop_sublist _ _
  have hlength := ((hsub.map Prod.fst).filter solid).length_le
  rw [hkinds, hkinds', List.map_append, List.filter_append, List.length_append] at hlength
  obtain ⟨terminal, hmem, hsolid⟩ := hp
  have hpos : 0 < ((p.terminals.map Terminal.kind).filter solid).length :=
    List.length_pos_of_mem (List.mem_filter.mpr ⟨List.mem_map_of_mem hmem, hsolid⟩)
  omega

theorem Made.past {ahead : List Event} {s s' : Parser} {trees : List Skeleton} {p : Piece}
    {more : List Terminal} (h : Made ahead s s' trees) (hs : Stands (p.terminals ++ more) s)
    (hs' : Stands more s') (hp : p.Solid) : s.index < s'.index := index_lt h.tokens hs hs' hp

/-! ## Reading -/

/-- From this state the production answers so, and leaves these terminals
behind the trees. -/
def Yields {α : Type} (s : Parser) (p : P α) (a : α) (trees : List Skeleton)
    (more : List Terminal) : Prop :=
  Ends p s fun b s' => b = a ∧ Made [] s s' trees ∧ Stands more s'

/-- From any state at this index or a later one, the production reads the piece
and answers so, where what follows is as asked for. -/
def Reads {α : Type} (lo : Nat) (p : P α) (a : α) (piece : Piece)
    (follow : List Terminal → Prop) : Prop :=
  ∀ s more, Good s → lo ≤ s.index → s.depth + piece.height ≤ MAX_RECURSION_DEPTH →
    Stands (piece.terminals ++ more) s → follow more → Yields s p a piece.trees more

section Reads

variable {α β : Type} {lo : Nat} {p : P α} {a : α} {b : β} {x y : Piece}
  {follow follow' : List Terminal → Prop}

theorem Reads.mono {lo' : Nat} (h : Reads lo p a x follow) (hlo : lo ≤ lo')
    (hfollow : ∀ more, follow' more → follow more) : Reads lo' p a x follow' :=
  fun s more hs hat hdepth hstands hmore =>
    h s more hs (Nat.le_trans hlo hat) hdepth hstands (hfollow more hmore)

theorem Reads.pure : Reads lo (pure a : P α) a empty follow := fun s _ _ _ _ hstands _ =>
  Ends.pure ⟨rfl, Made.refl s, hstands⟩

/-- One production after the other. -/
theorem Reads.bind {f : α → P β} (hp : Reads lo p a x follow) (hf : Reads lo (f a) b y follow')
    (hfollow : ∀ more, follow' more → follow (y.terminals ++ more)) :
    Reads lo (p >>= f) b (x ++ y) follow' := by
  intro s more hs hat hdepth hstands hmore
  rw [Piece.append_height] at hdepth
  rw [Piece.append_terminals, List.append_assoc] at hstands
  refine Ends.bind (hp s _ hs hat (by omega) hstands (hfollow more hmore)) ?_
  rintro _ s' ⟨rfl, hmade, hstands'⟩
  have hindex := hmade.index
  have hdepth' := hmade.depth
  refine (hf s' more (hmade.good hs) (by omega) (by omega) hstands' hmore).mono ?_
  rintro _ s'' ⟨rfl, hmade', hstands''⟩
  exact ⟨rfl, hmade.trans hmade', hstands''⟩

/-- One production after the other, of which the first uses tokens up. -/
theorem Reads.past {f : α → P β} (hp : Reads lo p a x follow) (hx : x.Solid)
    (hf : Reads (lo + 1) (f a) b y follow')
    (hfollow : ∀ more, follow' more → follow (y.terminals ++ more)) :
    Reads lo (p >>= f) b (x ++ y) follow' := by
  intro s more hs hat hdepth hstands hmore
  rw [Piece.append_height] at hdepth
  rw [Piece.append_terminals, List.append_assoc] at hstands
  refine Ends.bind (hp s _ hs hat (by omega) hstands (hfollow more hmore)) ?_
  rintro _ s' ⟨rfl, hmade, hstands'⟩
  have hindex := hmade.past hstands hstands' hx
  have hdepth' := hmade.depth
  refine (hf s' more (hmade.good hs) (by omega) (by omega) hstands' hmore).mono ?_
  rintro _ s'' ⟨rfl, hmade', hstands''⟩
  exact ⟨rfl, hmade.trans hmade', hstands''⟩

/-- The first of the two reads nothing. -/
theorem Reads.skip {f : α → P β} (hp : Reads lo p a empty follow)
    (hf : Reads lo (f a) b y follow')
    (hfollow : ∀ more, follow' more → follow (y.terminals ++ more)) :
    Reads lo (p >>= f) b y follow' := by
  rw [← Piece.empty_append y]
  exact hp.bind hf hfollow

/-- The second of the two reads nothing. -/
theorem Reads.last {f : α → P β} (hp : Reads lo p a x follow)
    (hf : Reads lo (f a) b empty follow') (hfollow : ∀ more, follow' more → follow more) :
    Reads lo (p >>= f) b x follow' := by
  rw [← Piece.append_empty x]
  exact hp.bind hf hfollow

/-- The second of the two reads nothing, where the first uses tokens up. -/
theorem Reads.past_last {f : α → P β} (hp : Reads lo p a x follow) (hx : x.Solid)
    (hf : Reads (lo + 1) (f a) b empty follow') (hfollow : ∀ more, follow' more → follow more) :
    Reads lo (p >>= f) b x follow' := by
  rw [← Piece.append_empty x]
  exact hp.past hx hf hfollow

/-- What is done with the answer reads nothing. -/
theorem Reads.map {f : α → β} (hp : Reads lo p a x follow) :
    Reads lo (p >>= fun a => Pure.pure (f a)) (f a) x follow := by
  rw [← Piece.append_empty x]
  exact hp.bind Reads.pure fun _ (h : follow _) => h

/-- A question whose answer is known where the piece stands. -/
theorem Reads.read {f : Parser → α} {g : α → P β}
    (hf : ∀ s more, Good s → Stands (x.terminals ++ more) s → follow more → f s = a)
    (hg : Reads lo (g a) b x follow) : Reads lo (ask f >>= g) b x follow := by
  intro s more hs hat hdepth hstands hmore
  apply Ends.read
  rw [hf s more hs hstands hmore]
  exact hg s more hs hat hdepth hstands hmore

/-- A question whose answer does not matter. -/
theorem Reads.any {f : Parser → α} {g : α → P β} (hg : ∀ a, Reads lo (g a) b x follow) :
    Reads lo (ask f >>= g) b x follow := by
  intro s more hs hat hdepth hstands hmore
  exact Ends.read (hg (f s) s more hs hat hdepth hstands hmore)

/-- A turn of a loop counts from where it starts. -/
theorem Reads.before {g : Nat → P α} (hg : ∀ i, Reads i (g i) a x follow) :
    Reads lo (ask index >>= g) a x follow := by
  intro s more hs _ hdepth hstands hmore
  exact Ends.read (hg s.index s more hs (Nat.le_refl _) hdepth hstands hmore)

theorem Reads.moved {before : Nat} {g : Bool → P α} (hg : Reads (before + 1) (g true) a x follow) :
    Reads (before + 1) (m3.moved before >>= g) a x follow := by
  intro s more hs hat hdepth hstands hmore
  have hmoved : decide (s.index ≠ before) = true := decide_eq_true (by omega)
  refine Ends.bind (m := fun again s' => again = true ∧ s = s') (Ends.ask ⟨hmoved, rfl⟩) ?_
  rintro _ _ ⟨rfl, rfl⟩
  exact hg s more hs hat hdepth hstands hmore

theorem Reads.node {kind : NodeKind} (inner : kind ≠ .Root) (hp : Reads lo p a x follow) :
    Reads lo (node kind p) a (x.node kind) follow := by
  intro s more hs hat hdepth hstands hmore
  have hopened := Made.opened kind s
  refine Ends.bind (m := fun _ s' => s' = s.with (.Open (.Node kind))) (Ends.change rfl) ?_
  rintro _ _ rfl
  refine Ends.bind (hp _ more (hopened.good hs) hat hdepth hstands hmore) ?_
  rintro _ s' ⟨rfl, hmade, hstands'⟩
  refine Ends.bind (m := fun _ s'' => s'' = s'.with .Close) (Ends.change rfl) ?_
  rintro _ _ rfl
  exact Ends.pure ⟨rfl, (hopened.trans hmade).closed inner, hstands'⟩

/-- The turns of a loop, and the pieces that they read. -/
inductive Turns (body : β → P (β × Bool)) (follow : List Terminal → Prop) : β → Piece → β → Prop
    where
  | last {b c : β} {x : Piece} (h : ∀ lo, Reads lo (body b) (c, false) x follow) :
      Turns body follow b x c
  | turn {b c d : β} {x y : Piece} (solid : x.Solid)
      (h : ∀ lo, Reads lo (body b) (c, true) x fun more =>
        ∃ more', more = y.terminals ++ more' ∧ follow more')
      (rest : Turns body follow c y d) : Turns body follow b (x ++ y) d

theorem Reads.loopWith {body : β → P (β × Bool)} {b c : β} (h : Turns body follow b x c) :
    Reads lo (loopWith b body) c x follow := by
  intro s more hs hat hdepth hstands hmore
  refine ends_loopWith (i := fun b' s' => ∃ y done, Turns body follow b' y c ∧
    y.height ≤ x.height ∧ Made [] s s' done ∧ done ++ y.trees = x.trees ∧
    Stands (y.terminals ++ more) s') ?_
    ⟨x, [], h, Nat.le_refl _, Made.refl s, rfl, hstands⟩
  rintro b' s' ⟨y, done, hturns, hheight, hmade, htrees, hstands'⟩
  have hs' := hmade.good hs
  have hdepth' := hmade.depth
  cases hturns with
  | last hlast =>
    refine (hlast 0 s' more hs' (Nat.zero_le _) (by omega) hstands' hmore).mono ?_
    rintro _ s'' ⟨rfl, hmade', hstands''⟩
    refine ⟨hmade'.tokens, (hmade'.good hs').index, ?_⟩
    rw [if_neg nofun]
    refine ⟨rfl, ?_, hstands''⟩
    rw [← htrees]
    exact hmade.trans hmade'
  | @turn _ c' _ z w hsolid hturn hrest =>
    rw [Piece.append_height] at hheight
    rw [Piece.append_terminals, List.append_assoc] at hstands'
    refine (hturn 0 s' _ hs' (Nat.zero_le _) (by omega) hstands' ⟨more, rfl, hmore⟩).mono ?_
    rintro _ s'' ⟨rfl, hmade', hstands''⟩
    refine ⟨hmade'.tokens, (hmade'.good hs').index, ?_⟩
    rw [if_pos rfl]
    refine ⟨⟨w, _, hrest, by omega, hmade.trans hmade', ?_, hstands''⟩,
      hmade'.past hstands' hstands'' hsolid⟩
    rw [List.append_assoc, ← htrees]
    rfl

theorem Reads.unless {p : P Unit} : Reads lo (when false p) () empty follow := Reads.pure

/-- What is not done is no step. -/
theorem Reads.skip_unless {p : P Unit} {f : Unit → P β} (hf : Reads lo (f ()) b y follow') :
    Reads lo (when false p >>= f) b y follow' :=
  hf

theorem Reads.when {p : P Unit} (hp : Reads lo p () x follow) :
    Reads lo (when true p) () x follow :=
  hp

/-- The turns of a loop that hands nothing on. -/
def Rounds (body : P Bool) (follow : List Terminal → Prop) (x : Piece) : Prop :=
  Turns (fun _ => do return ((), ← body)) follow () x ()

theorem Rounds.last {body : P Bool} (h : ∀ lo, Reads lo body false x follow) :
    Rounds body follow x := Turns.last fun lo => (h lo).map

theorem Rounds.turn {body : P Bool} (solid : x.Solid)
    (h : ∀ lo, Reads lo body true x fun more =>
      ∃ more', more = y.terminals ++ more' ∧ follow more')
    (rest : Rounds body follow y) : Rounds body follow (x ++ y) :=
  Turns.turn solid (fun lo => (h lo).map) rest

theorem Reads.loop {body : P Bool} (h : Rounds body follow x) :
    Reads lo (loop body) () x follow := Reads.loopWith h

end Reads

end analyzer.m3
