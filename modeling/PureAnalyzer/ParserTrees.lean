-- From the events of the parser to its tree: every source is parsed, its tree
-- holds the tokens of the lexer and so its text, and each error in it is
-- reported.
import PureAnalyzer.ParserLaws

namespace analyzer.m3

open fragments model cst linkedarena totality analyzer.m3.Parser

/-! ## Tokens that cover a source -/

/-- From an offset on, the tokens follow one another to the end of the source. -/
def Tiles (source : Text) : Nat → List Token → Prop
  | start, [] => start = source.length
  | start, (_, range) :: tokens =>
    range.start = start ∧ range.start < range.stop ∧ isCharBoundary source range.start = true ∧
      isCharBoundary source range.stop = true ∧ Tiles source range.stop tokens

instance decidableTiles (source : Text) :
    ∀ (start : Nat) (tokens : List Token), Decidable (Tiles source start tokens)
  | start, [] => inferInstanceAs (Decidable (start = source.length))
  | start, (_, range) :: tokens =>
    have := decidableTiles source range.stop tokens
    inferInstanceAs (Decidable (range.start = start ∧ range.start < range.stop ∧
      isCharBoundary source range.start = true ∧ isCharBoundary source range.stop = true ∧
      Tiles source range.stop tokens))

/-- Where a token begins, or the last one ends. -/
def offsetAt (tokens : List Token) (i : Nat) : Nat := (spanAt tokens i).start

theorem offsetAt_cons (token next : Token) (tokens : List Token) (i : Nat) :
    offsetAt (token :: next :: tokens) (i + 1) = offsetAt (next :: tokens) i := by
  unfold offsetAt spanAt eofSpan
  simp [List.getLast?_cons_cons]

namespace Tiles

variable {source : Text} {start : Nat} {tokens : List Token}

theorem le (h : Tiles source start tokens) : start ≤ source.length := by
  induction tokens generalizing start with
  | nil => exact Nat.le_of_eq h
  | cons token tokens ih =>
    obtain ⟨rfl, hless, -, -, hrest⟩ := h
    have := ih hrest
    omega

theorem offsetAt_zero (h : Tiles source 0 tokens) : offsetAt tokens 0 = 0 := by
  cases tokens with
  | nil => rfl
  | cons token tokens => exact h.1

/-- Each token ends where the next one begins. -/
theorem stop_eq (h : Tiles source start tokens) {i : Nat} {kind : TokenKind} {range : TextRange}
    (hget : tokens[i]? = some (kind, range)) : range.stop = offsetAt tokens (i + 1) := by
  induction tokens generalizing start i with
  | nil => cases hget
  | cons token tokens ih =>
    obtain ⟨-, -, -, -, hrest⟩ := h
    cases i with
    | zero =>
      obtain rfl : token = (kind, range) := by simpa using hget
      cases tokens with
      | nil => rfl
      | cons next tokens => exact hrest.1.symm
    | succ i =>
      cases tokens with
      | nil => simp at hget
      | cons next tokens => rw [ih hrest hget, offsetAt_cons]

theorem start_eq {i : Nat} {kind : TokenKind} {range : TextRange}
    (hget : tokens[i]? = some (kind, range)) : range.start = offsetAt tokens i := by
  unfold offsetAt spanAt
  rw [hget]

theorem offsetAt_mono (h : Tiles source start tokens) {i j : Nat} (hle : i ≤ j)
    (hj : j ≤ tokens.length) : offsetAt tokens i ≤ offsetAt tokens j := by
  induction hle with
  | refl => exact Nat.le_refl _
  | @step j hle ih =>
    obtain ⟨⟨kind, range⟩, hget⟩ : ∃ token, tokens[j]? = some token :=
      ⟨_, List.getElem?_eq_getElem hj⟩
    have hstart := start_eq hget
    have hstop := h.stop_eq hget
    have hordered := range.ordered
    have hbefore := ih (Nat.le_of_succ_le hj)
    show offsetAt tokens i ≤ offsetAt tokens (j + 1)
    omega

/-- The last token ends where the source does. -/
theorem offsetAt_length (h : Tiles source start tokens) (hne : tokens ≠ []) :
    offsetAt tokens tokens.length = source.length := by
  induction tokens generalizing start with
  | nil => exact absurd rfl hne
  | cons token tokens ih =>
    obtain ⟨-, -, -, -, hrest⟩ := h
    cases tokens with
    | nil => exact hrest
    | cons next tokens =>
      rw [List.length_cons, offsetAt_cons]
      exact ih hrest (by simp)

theorem offsetAt_end (h : Tiles source 0 tokens) :
    offsetAt tokens tokens.length = source.length := by
  by_cases hne : tokens = []
  · subst hne
    exact h
  · exact h.offsetAt_length hne

theorem bound (h : Tiles source start tokens) {kind : TokenKind} {range : TextRange}
    (hmem : (kind, range) ∈ tokens) : range.stop ≤ source.length := by
  induction tokens generalizing start with
  | nil => cases hmem
  | cons token tokens ih =>
    obtain ⟨-, -, -, -, hrest⟩ := h
    rcases List.mem_cons.mp hmem with rfl | hmem
    · exact hrest.le
    · exact ih hrest hmem

/-- Tokens that cover a source pass the check of the builder. -/
theorem validate (h : Tiles source start tokens) (token_index : Nat) :
    validateTokenRanges source source.length token_index start tokens = .ok source.length := by
  induction tokens generalizing start token_index with
  | nil => exact congrArg Except.ok h
  | cons token tokens ih =>
    obtain ⟨kind, range⟩ := token
    obtain ⟨hstart, hless, hfrom, hto, hrest⟩ := h
    have hrange : validateTokenRange source token_index range start source.length = .ok () := by
      have hle := hrest.le
      have hne : range.stop ≠ range.start := Nat.ne_of_gt hless
      unfold validateTokenRange
      rw [if_neg (not_not.mpr hstart), if_neg hne, if_neg (by omega), if_neg (by simp [hfrom]),
        if_neg (by simp [hto])]
    simp only [validateTokenRanges, hrange]
    exact ih hrest (token_index + 1)

theorem validateTokens (h : Tiles source 0 tokens) (hshort : source.length < 2 ^ 32) :
    cst.validateTokens source tokens = .ok source.length := by
  have hend : sourceEnd source = .ok source.length := by
    unfold sourceEnd TEXT_SIZE_MAX
    rw [if_pos (by omega)]
  unfold cst.validateTokens
  rw [hend]
  show (validateTokenRanges source source.length 0 0 tokens >>= _) = _
  rw [h.validate]
  show (if source.length ≠ source.length then _ else _) = _
  rw [if_neg (by simp)]

/-- The slices of the tokens, put together again. -/
theorem text (h : Tiles source start tokens) :
    tokens.flatMap (fun token => slice source token.2) = source.drop start := by
  induction tokens generalizing start with
  | nil => simp [show start = source.length from h]
  | cons token tokens ih =>
    obtain ⟨rfl, hless, hfrom, hto, hrest⟩ := h
    have hle := hrest.le
    have hcut : slice source token.2 = (source.drop token.2.start).take
        (token.2.stop - token.2.start) := by
      unfold slice
      rw [if_pos (by simp [hle, hfrom, hto]), List.drop_take]
    rw [List.flatMap_cons, ih hrest, hcut]
    have hdrop : source.drop token.2.stop =
        (source.drop token.2.start).drop (token.2.stop - token.2.start) := by
      rw [List.drop_drop]
      congr 1
      omega
    rw [hdrop, List.take_append_drop]

end Tiles

/-! ## Trees -/

/-- A token of the lexer as a token of the tree. -/
def greenToken (source : Text) (token : Token) : GreenToken :=
  .new (.Token token.1) source token.2

/-- The elements hold the tokens between two places, and their errors are reported. -/
structure Built (source : Text) (tokens : List Token) (diagnostics : List Diagnostic) (i j : Nat)
    (elements : List GreenElement) : Prop where
  tokens : tokensOf elements = ((tokens.take j).drop i).map (greenToken source)
  bad : ∀ token ∈ tokensOf elements, token.kind = .Token .Error →
    ReportedBad diagnostics token.range
  errors : ∀ node ∈ nodesOf elements, node.kind = .Node .ErrorNode →
    Reported diagnostics node.textRange.start

theorem tokensOf_append (xs ys : List GreenElement) :
    tokensOf (xs ++ ys) = tokensOf xs ++ tokensOf ys := by
  induction xs with
  | nil => rfl
  | cons x xs ih =>
    cases x with
    | Node node => simp [tokensOf, ih]
    | Token token => simp [tokensOf, ih]

theorem nodesOf_append (xs ys : List GreenElement) :
    nodesOf (xs ++ ys) = nodesOf xs ++ nodesOf ys := by
  induction xs with
  | nil => rfl
  | cons x xs ih =>
    cases x with
    | Node node => simp [nodesOf, ih]
    | Token token => simp [nodesOf, ih]

theorem Built.append {source : Text} {tokens : List Token} {diagnostics : List Diagnostic}
    {i j k : Nat} {xs ys : List GreenElement} (hij : i ≤ j) (hjk : j ≤ k) (hx : Built source tokens diagnostics i j xs)
    (hy : Built source tokens diagnostics j k ys) :
    Built source tokens diagnostics i k (xs ++ ys) := by
  refine ⟨?_, ?_, ?_⟩
  · rw [tokensOf_append, hx.tokens, hy.tokens, ← List.map_append]
    have hdrop : tokens.drop j = (tokens.drop i).drop (j - i) := by
      rw [List.drop_drop]
      congr 1
      omega
    have hcount : k - i = (j - i) + (k - j) := by omega
    rw [List.drop_take, List.drop_take, List.drop_take, hdrop, hcount, List.take_add]
  · intro token htoken
    rw [tokensOf_append] at htoken
    rcases List.mem_append.mp htoken with hmem | hmem
    · exact hx.bad token hmem
    · exact hy.bad token hmem
  · intro node hnode
    rw [nodesOf_append] at hnode
    rcases List.mem_append.mp hnode with hmem | hmem
    · exact hx.errors node hmem
    · exact hy.errors node hmem

theorem foldFrom_append (source : Text) (tokens : List Token) (es es' : List Event)
    (event_index : Nat) (s : FoldState) : foldFrom source tokens event_index (es ++ es') s =
      foldFrom source tokens event_index es s >>=
        foldFrom source tokens (event_index + es.length) es' := by
  induction es generalizing event_index s with
  | nil => rfl
  | cons e es ih =>
    simp only [List.cons_append, foldFrom, List.length_cons]
    cases foldEvent source tokens event_index e s with
    | error e => rfl
    | ok s' =>
      have hindex : event_index + (es.length + 1) = event_index + 1 + es.length := by omega
      rw [hindex]
      exact ih (event_index + 1) s'

/-- The events become these elements of the node they stand in. -/
def Folds (source : Text) (tokens : List Token) (i : Nat) (es : List Event) (j : Nat)
    (elements : List GreenElement) : Prop :=
  ∀ (parent : PendingNode) (stack : List PendingNode) (roots : List GreenNode) (event_index : Nat),
    foldFrom source tokens event_index es ⟨parent :: stack, roots, i, offsetAt tokens i⟩ =
      .ok ⟨{ parent with children := parent.children ++ elements } :: stack, roots, j,
        offsetAt tokens j⟩

section Folds

variable {source : Text} {tokens : List Token} {i j k : Nat} {es es' : List Event}
  {elements elements' : List GreenElement}

theorem Folds.nil (i : Nat) : Folds source tokens i [] i [] := by
  intro parent stack roots event_index
  simp [foldFrom]

theorem Folds.token {start : Nat} (htiles : Tiles source start tokens) {kind : TokenKind}
    {range : TextRange} (here : tokens[i]? = some (kind, range))
    (rest : Folds source tokens (i + 1) es j elements) :
    Folds source tokens i (.Advance :: es) j
      (.Token (greenToken source (kind, range)) :: elements) := by
  intro parent stack roots event_index
  simp only [foldFrom, foldEvent, advanceToken, here]
  rw [htiles.stop_eq here]
  refine (rest _ stack roots (event_index + 1)).trans ?_
  simp [greenToken]

theorem Folds.node {kind : NodeKind} (inner : kind ≠ .Root)
    (below : Folds source tokens i es j elements) (rest : Folds source tokens j es' k elements') :
    Folds source tokens i (.Open (.Node kind) :: es ++ .Close :: es') k
      (.Node (.new (.Node kind) elements (pendingRange (offsetAt tokens i) (offsetAt tokens j))) ::
        elements') := by
  intro parent stack roots event_index
  have hopen : openNode event_index (.Node kind) ⟨parent :: stack, roots, i, offsetAt tokens i⟩ =
      .ok ⟨⟨.Node kind, [], offsetAt tokens i⟩ :: parent :: stack, roots, i,
        offsetAt tokens i⟩ := by
    unfold openNode
    simp [SyntaxKind.isNode, inner]
  rw [List.cons_append]
  simp only [foldFrom, foldEvent, hopen]
  refine (foldFrom_append source tokens es (.Close :: es') (event_index + 1) _).trans ?_
  rw [below]
  refine (rest _ stack roots _).trans ?_
  simp

end Folds

/-- Whole nodes over the tokens become elements of the node they stand in. -/
theorem Grown.fold {source : Text} {tokens : List Token} {diagnostics : List Diagnostic} {i j : Nat}
    {es : List Event} (h : Grown tokens diagnostics i es j) {start : Nat}
    (htiles : Tiles source start tokens) (hi : i ≤ tokens.length) :
    ∃ elements, Built source tokens diagnostics i j elements ∧
      Folds source tokens i es j elements := by
  induction h with
  | nil i =>
    refine ⟨[], ⟨?_, by simp [tokensOf], by simp [nodesOf]⟩, .nil i⟩
    simp [tokensOf]
  | @token i j es kind range here bad rest ih =>
    have hlt := (List.getElem?_eq_some_iff.mp here).1
    let child := greenToken source (kind, range)
    obtain ⟨elements, hbuilt, hfold⟩ := ih hlt
    have hchild : Built source tokens diagnostics i (i + 1) [.Token child] := by
      refine ⟨?_, ?_, by simp [nodesOf]⟩
      · rw [List.drop_take, List.drop_eq_getElem_cons hlt]
        have hget : tokens[i] = (kind, range) := (List.getElem?_eq_some_iff.mp here).2
        simp [tokensOf, hget, child]
      · intro token htoken hkind
        obtain rfl : token = child := by simpa [tokensOf] using htoken
        exact bad (by simpa [child, greenToken, GreenToken.new] using hkind)
    exact ⟨_, hchild.append (Nat.le_succ i) rest.le hbuilt, hfold.token htiles here⟩
  | @node i j k es es' kind inner error below rest ih ih' =>
    have hj := below.bound hi
    obtain ⟨elements, hbuilt, hfold⟩ := ih hi
    let child := GreenNode.new (.Node kind) elements
      (pendingRange (offsetAt tokens i) (offsetAt tokens j))
    obtain ⟨elements', hbuilt', hfold'⟩ := ih' hj
    have hchild : Built source tokens diagnostics i j [.Node child] := by
      refine ⟨?_, ?_, ?_⟩
      · rw [← hbuilt.tokens]
        simp [tokensOf, child, GreenNode.tokens]
      · intro token htoken
        exact hbuilt.bad token (by simpa [tokensOf, child, GreenNode.tokens] using htoken)
      · intro node hnode hkind
        have hnode' : node = child ∨ node ∈ nodesOf elements := by
          simpa [nodesOf, child, GreenNode.nodes] using hnode
        rcases hnode' with rfl | hmem
        · have hmono := htiles.offsetAt_mono below.le hj
          have hreported := error (by simpa [child, GreenNode.kind] using hkind)
          show Reported diagnostics (pendingRange (offsetAt tokens i) (offsetAt tokens j)).start
          unfold pendingRange
          rw [dif_pos hmono]
          exact hreported
        · exact hbuilt.errors node hmem hkind
    exact ⟨_, hchild.append below.le rest.le hbuilt', hfold.node inner hfold'⟩

/-! ## Sources -/

theorem push_events (es : List Event) (builder : GreenNodeBuilder) :
    es.foldl GreenNodeBuilder.push builder =
      { builder with events := builder.events ++ es.map BuilderEvent.Event } := by
  induction es generalizing builder with
  | nil => simp
  | cons e es ih =>
    rw [List.foldl_cons, ih]
    simp [GreenNodeBuilder.push]

theorem filterMap_events (es : List Event) :
    (es.map BuilderEvent.Event).filterMap BuilderEvent.event = es := by
  induction es with
  | nil => rfl
  | cons e es ih => simpa [BuilderEvent.event] using ih

theorem finish_push (owner : Nat) (source : Text) (tokens : List Token) (es : List Event) :
    (es.foldl GreenNodeBuilder.push (.new owner source tokens)).finish =
      validateTokens source tokens >>= foldEvents source tokens es := by
  rw [push_events]
  show (validateTokens source tokens >>= fun source_end => foldEvents source tokens
    (([] ++ _).filterMap BuilderEvent.event) source_end) = _
  rw [List.nil_append, filterMap_events]

/-- The root that its elements make, once the events between have made them. -/
theorem foldEvents_root {source : Text} {tokens : List Token} {es : List Event}
    {elements : List GreenElement} (hfold : ∀ event_index, foldFrom source tokens event_index es
      ⟨[⟨.Node .Root, [], 0⟩], [], 0, 0⟩ =
        .ok ⟨[⟨.Node .Root, elements, 0⟩], [], tokens.length, source.length⟩) :
    foldEvents source tokens (.Open (.Node .Root) :: es ++ [.Close]) source.length =
      .ok (.new (.Node .Root) elements ⟨0, source.length, Nat.zero_le _⟩) := by
  have hevents : foldFrom source tokens 0 (.Open (.Node .Root) :: es ++ [.Close]) ⟨[], [], 0, 0⟩ =
      .ok ⟨[], [.new (.Node .Root) elements ⟨0, source.length, Nat.zero_le _⟩], tokens.length,
        source.length⟩ := by
    rw [List.cons_append]
    show foldFrom source tokens 1 (es ++ [.Close]) ⟨[⟨.Node .Root, [], 0⟩], [], 0, 0⟩ = _
    rw [foldFrom_append, hfold]
    rfl
  unfold foldEvents
  rw [hevents]
  refine Eq.trans (b := finishRoot ⟨[], _, tokens.length, source.length⟩ tokens.length
    source.length) rfl ?_
  simp [finishRoot, GreenNode.kind, GreenNode.textRange]

theorem finish_folds {source : Text} {tokens : List Token} {es : List Event}
    {elements : List GreenElement} (htiles : Tiles source 0 tokens)
    (hshort : source.length < 2 ^ 32) (h : Folds source tokens 0 es tokens.length elements) :
    ((Event.Open (.Node .Root) :: es ++ [Event.Close]).foldl GreenNodeBuilder.push
      (.new 0 source tokens)).finish =
        .ok (.new (.Node .Root) elements ⟨0, source.length, Nat.zero_le _⟩) := by
  have hfold := h ⟨.Node .Root, [], 0⟩ [] []
  rw [htiles.offsetAt_zero, htiles.offsetAt_end] at hfold
  rw [finish_push, htiles.validateTokens hshort]
  exact foldEvents_root hfold

/-- The events of a whole source build one root. -/
theorem finish_root {source : Text} {tokens : List Token} {diagnostics : List Diagnostic}
    {es : List Event} (htiles : Tiles source 0 tokens) (hshort : source.length < 2 ^ 32)
    (h : Grown tokens diagnostics 0 es tokens.length) :
    ∃ root elements, root = GreenNode.new (.Node .Root) elements ⟨0, source.length, Nat.zero_le _⟩ ∧
      Built source tokens diagnostics 0 tokens.length elements ∧
      ((Event.Open (.Node .Root) :: es ++ [Event.Close]).foldl GreenNodeBuilder.push
        (.new 0 source tokens)).finish = .ok root := by
  obtain ⟨elements, hbuilt, hfold⟩ := h.fold htiles (Nat.zero_le _)
  exact ⟨_, elements, rfl, hbuilt, finish_folds htiles hshort hfold⟩

/-- A source is always parsed: every loop of the parser ends, the builder takes its
events, the tree holds the tokens of the lexer and so the text of the source,
and a diagnostic stands at each bad token and at each error node. -/
theorem parser_is_total_and_lossless (lex : Text → List Token) (source : Text) (file : Nat)
    (hlex : Tiles source 0 (lex source)) (hshort : source.length < 2 ^ 32) :
    ∃ p, parseQuery lex source file = some (.ok p) ∧
      p.green.text = source ∧
      p.green.tokens = (lex source).map (greenToken source) ∧
      (∀ token ∈ p.green.tokens, token.kind = .Token .Error →
        ReportedBad p.diagnostics token.range) ∧
      ∀ node ∈ p.green.nodes, node.kind = .Node .ErrorNode →
        Reported p.diagnostics node.textRange.start := by
  obtain ⟨es, diagnostics, hparse, hgrown⟩ := parse_grown file (lex source)
  obtain ⟨root, elements, rfl, hbuilt, hfinish⟩ := finish_root hlex hshort hgrown
  have htokens : tokensOf elements = (lex source).map (greenToken source) := by
    simpa using hbuilt.tokens
  refine ⟨⟨.new (.Node .Root) elements ⟨0, source.length, Nat.zero_le _⟩, diagnostics⟩, ?_⟩
  refine ⟨?_, ?_, ?_, ?_, ?_⟩
  · unfold parseQuery
    simp only [hparse, Option.map_some, hfinish]
    rfl
  · have htext := hlex.text
    rw [List.drop_zero] at htext
    rw [GreenNode.text, GreenNode.tokens, htokens, List.flatMap_map]
    exact htext
  · rw [GreenNode.tokens]
    exact htokens
  · intro token htoken hkind
    rw [GreenNode.tokens] at htoken
    exact hbuilt.bad token htoken hkind
  · intro node hnode hkind
    rw [GreenNode.nodes] at hnode
    rcases List.mem_cons.mp hnode with rfl | hmem
    · simp [GreenNode.kind] at hkind
    · exact hbuilt.errors node hmem hkind

theorem lexParen_bounds : 0 ≤ 1 := Nat.zero_le 1

/-- What the lexer makes of a single closing parenthesis. -/
def lexParen (_ : Text) : List Token := [(.ParenClose, ⟨0, 1, lexParen_bounds⟩)]

/-- The closing parenthesis is an error, and it is parsed and reported. -/
theorem a_paren_is_parsed : ∃ p, parseQuery lexParen (ascii ")") 0 = some (.ok p) ∧
    p.green.text = ascii ")" ∧
    p.green.tokens = (lexParen (ascii ")")).map (greenToken (ascii ")")) ∧
    (∀ token ∈ p.green.tokens, token.kind = .Token .Error →
      ReportedBad p.diagnostics token.range) ∧
    ∀ node ∈ p.green.nodes, node.kind = .Node .ErrorNode →
      Reported p.diagnostics node.textRange.start :=
  parser_is_total_and_lossless lexParen (ascii ")") 0
    ⟨rfl, by decide, by decide, by decide, rfl⟩ (by decide)

end analyzer.m3
