-- From the events of the Domain parser to its tree: every Domain source is
-- parsed, its tree holds the text of the source, and what the parser did not
-- understand is reported and lies in a coverage gap.
import PureAnalyzer.DomainDeclarations

namespace analyzer.domain

open fragments model cst totality m3 analyzer.domain.Parser

/-! ## Trees -/

/-- This holds of a node and of the places of its two ends. -/
def Spans (tokens : List Token) (Q : NodeKind → Nat → Nat → Prop) (node : GreenNode) : Prop :=
  ∃ kind a b, node.kind = .Node kind ∧ Q kind a b ∧
    node.textRange.start = offsetAt tokens a ∧ node.textRange.stop = offsetAt tokens b

/-- The elements hold the tokens between two places, and this holds of their nodes. -/
structure Made (source : Text) (tokens : List Token) (Q : NodeKind → Nat → Nat → Prop) (i j : Nat)
    (elements : List GreenElement) : Prop where
  held : tokensOf elements = ((tokens.take j).drop i).map (greenToken source)
  nodes : ∀ node ∈ nodesOf elements, Spans tokens Q node

theorem between_append {α : Type} (xs : List α) {i j k : Nat} (hij : i ≤ j) (hjk : j ≤ k) :
    (xs.take j).drop i ++ (xs.take k).drop j = (xs.take k).drop i := by
  have hdrop : xs.drop j = (xs.drop i).drop (j - i) := by
    rw [List.drop_drop]
    congr 1
    omega
  have hcount : k - i = (j - i) + (k - j) := by omega
  rw [List.drop_take, List.drop_take, List.drop_take, hdrop, hcount, List.take_add]

theorem Made.append {source : Text} {tokens : List Token} {Q : NodeKind → Nat → Nat → Prop}
    {i j k : Nat} {xs ys : List GreenElement} (hij : i ≤ j) (hjk : j ≤ k)
    (hx : Made source tokens Q i j xs) (hy : Made source tokens Q j k ys) :
    Made source tokens Q i k (xs ++ ys) := by
  refine ⟨?_, fun node hnode => ?_⟩
  · rw [tokensOf_append, hx.held, hy.held, ← List.map_append, between_append tokens hij hjk]
  · rw [nodesOf_append] at hnode
    rcases List.mem_append.mp hnode with hmem | hmem
    · exact hx.nodes node hmem
    · exact hy.nodes node hmem

/-- Whole nodes over the tokens become elements of the node they stand in. -/
theorem Grown.fold {source : Text} {tokens : List Token} {Q : NodeKind → Nat → Nat → Prop}
    {i j start : Nat} {es : List Event} (h : Grown tokens Q i es j)
    (htiles : Tiles source start tokens) (hi : i ≤ tokens.length) :
    ∃ elements, Made source tokens Q i j elements ∧ Folds source tokens i es j elements := by
  induction h with
  | nil i =>
    refine ⟨[], ⟨?_, by simp [nodesOf]⟩, .nil i⟩
    simp [tokensOf]
  | @token i j es token here rest ih =>
    obtain ⟨hlt, hget⟩ := List.getElem?_eq_some_iff.mp here
    obtain ⟨elements, hmade, hfold⟩ := ih hlt
    have hchild : Made source tokens Q i (i + 1) [.Token (greenToken source token)] := by
      refine ⟨?_, by simp [nodesOf]⟩
      rw [List.drop_take, List.drop_eq_getElem_cons hlt, hget]
      simp [tokensOf]
    exact ⟨_, hchild.append (Nat.le_succ i) rest.le hmade, hfold.token htiles here⟩
  | @node i j k es es' kind inner here below rest ih ih' =>
    have hj := below.bound hi
    obtain ⟨elements, hmade, hfold⟩ := ih hi
    obtain ⟨elements', hmade', hfold'⟩ := ih' hj
    let child := GreenNode.new (.Node kind) elements
      (pendingRange (offsetAt tokens i) (offsetAt tokens j))
    have hchild : Made source tokens Q i j [.Node child] := by
      refine ⟨?_, fun node hnode => ?_⟩
      · rw [← hmade.held]
        simp [tokensOf, child, GreenNode.tokens]
      · have hnode' : node = child ∨ node ∈ nodesOf elements := by
          simpa [nodesOf, child, GreenNode.nodes] using hnode
        rcases hnode' with rfl | hmem
        · have hmono := htiles.offsetAt_mono below.le hj
          have hrange : child.textRange = ⟨offsetAt tokens i, offsetAt tokens j, hmono⟩ :=
            dif_pos hmono
          exact ⟨kind, i, j, rfl, here, by rw [hrange], by rw [hrange]⟩
        · exact hmade.nodes node hmem
    exact ⟨_, hchild.append below.le rest.le hmade', hfold.node inner hfold'⟩

theorem Folds.unique {source : Text} {tokens : List Token} {i j : Nat} {es : List Event}
    {xs ys : List GreenElement} (hx : Folds source tokens i es j xs)
    (hy : Folds source tokens i es j ys) : xs = ys := by
  have h := (hx ⟨.Node .Root, [], 0⟩ [] [] 0).symm.trans (hy ⟨.Node .Root, [], 0⟩ [] [] 0)
  simpa using h

/-! ## Ranges -/

/-- The range of a node holds those of the nodes and tokens below it. -/
structure Encloses (node : GreenNode) : Prop where
  nodes : ∀ inner ∈ node.nodes, node.textRange.start ≤ inner.textRange.start ∧
    inner.textRange.stop ≤ node.textRange.stop
  tokens : ∀ token ∈ node.tokens, node.textRange.start ≤ token.range.start ∧
    token.range.stop ≤ node.textRange.stop

/-- A token between two places lies between their offsets. -/
theorem between_bounds {source : Text} {tokens : List Token} {start i j : Nat}
    (htiles : Tiles source start tokens) (hj : j ≤ tokens.length) {token : GreenToken}
    (htoken : token ∈ ((tokens.take j).drop i).map (greenToken source)) :
    offsetAt tokens i ≤ token.range.start ∧ token.range.stop ≤ offsetAt tokens j := by
  obtain ⟨⟨kind, range⟩, hmem, rfl⟩ := List.mem_map.mp htoken
  obtain ⟨m, hm, hget⟩ := List.mem_iff_getElem.mp hmem
  rw [List.length_drop, List.length_take] at hm
  have hplace : tokens[i + m]? = some (kind, range) := by
    rw [List.getElem_drop, List.getElem_take] at hget
    rw [← hget]
    exact List.getElem?_eq_getElem (by omega)
  constructor
  · show offsetAt tokens i ≤ range.start
    rw [Tiles.start_eq hplace]
    exact htiles.offsetAt_mono (Nat.le_add_right i m) (by omega)
  · show range.stop ≤ offsetAt tokens j
    rw [htiles.stop_eq hplace]
    exact htiles.offsetAt_mono (by omega) hj

/-- Whole nodes over the tokens enclose what stands below them. -/
theorem Grown.encloses {source : Text} {tokens : List Token} {Q : NodeKind → Nat → Nat → Prop}
    {i j start : Nat} {es : List Event} {elements : List GreenElement} (h : Grown tokens Q i es j)
    (htiles : Tiles source start tokens) (hi : i ≤ tokens.length)
    (hfold : Folds source tokens i es j elements) : ∀ node ∈ nodesOf elements, Encloses node := by
  induction h generalizing elements with
  | nil i =>
    obtain rfl := Folds.unique hfold (.nil i)
    simp [nodesOf]
  | @token i j es token here rest ih =>
    have hlt := (List.getElem?_eq_some_iff.mp here).1
    obtain ⟨behind, -, hbehind⟩ := rest.fold htiles hlt
    obtain rfl := Folds.unique hfold (hbehind.token htiles here)
    exact @ih behind hlt hbehind
  | @node i j k es es' kind inner here below rest ih ih' =>
    have hj := below.bound hi
    have hplaces : Grown tokens (fun _ a b => i ≤ a ∧ a ≤ b ∧ b ≤ j) i es j :=
      below.mono fun _ _ _ ha hab hb _ => ⟨ha, hab, hb⟩
    obtain ⟨inside, hmade, hinside⟩ := hplaces.fold htiles hi
    obtain ⟨behind, -, hbehind⟩ := rest.fold htiles hj
    obtain rfl := Folds.unique hfold (hinside.node inner hbehind)
    have hmono := htiles.offsetAt_mono below.le hj
    have hrange : pendingRange (offsetAt tokens i) (offsetAt tokens j) =
        ⟨offsetAt tokens i, offsetAt tokens j, hmono⟩ := dif_pos hmono
    rw [hrange]
    intro node hnode
    rw [nodesOf, GreenNode.nodes] at hnode
    rcases List.mem_append.mp hnode with hnode | hnode
    · rcases List.mem_cons.mp hnode with rfl | hnode
      · refine ⟨fun low hlow => ?_, fun token htoken => ?_⟩
        · rw [GreenNode.nodes] at hlow
          rcases List.mem_cons.mp hlow with rfl | hlow
          · exact ⟨Nat.le_refl _, Nat.le_refl _⟩
          · obtain ⟨_, a, b, -, ⟨ha, hab, hb⟩, hstart, hstop⟩ := hmade.nodes low hlow
            rw [hstart, hstop]
            exact ⟨htiles.offsetAt_mono ha (by omega), htiles.offsetAt_mono hb hj⟩
        · rw [GreenNode.tokens, hmade.held] at htoken
          exact between_bounds htiles hj htoken
      · exact ih hi hinside node hnode
    · exact ih' hj hbehind node hnode

/-! ## Files -/

/-- What may stand in a file itself: white space, a comment, `;`, a declaration, the
header of a section, an import, or a region that is kept as it is. -/
def InFile : GreenElement → Prop
  | .Token token => ∃ kind, token.kind = .Token kind ∧ Plain kind
  | .Node node => ∃ kind ∈ topLevel, node.kind = .Node kind

theorem root_not_top : NodeKind.Root ∉ topLevel := by decide

/-- A node of this kind. -/
def OfKind (kind : NodeKind) : GreenElement → Prop
  | .Token _ => False
  | .Node node => node.kind = .Node kind

/-- The parts of a file become elements that may stand in it. -/
theorem Tops.fold {source : Text} {tokens : List Token} {gaps : List DomainCoverageGap}
    {i j start : Nat} {es : List Event} (h : Tops tokens gaps i es j)
    (htiles : Tiles source start tokens) (hi : i ≤ tokens.length) :
    ∃ elements, (∀ element ∈ elements, InFile element ∧
        (OfKind .DomainOpaqueNode element → HasGap gaps .UnsupportedTopLevel)) ∧
      Folds source tokens i es j elements := by
  induction h with
  | nil i => exact ⟨[], by simp, .nil i⟩
  | @token i j es token here plain rest ih =>
    have hlt := (List.getElem?_eq_some_iff.mp here).1
    obtain ⟨elements, hin, hfold⟩ := ih hlt
    refine ⟨_, fun element hmem => ?_, hfold.token htiles here⟩
    rcases List.mem_cons.mp hmem with rfl | hmem
    · exact ⟨⟨token.1, rfl, plain⟩, fun hkind => hkind.elim⟩
    · exact hin element hmem
  | @node i j k es es' kind top gapped below rest ih =>
    obtain ⟨below_elements, -, hbelow⟩ := below.fold htiles hi
    obtain ⟨elements, hin, hfold⟩ := ih (below.bound hi)
    have inner : kind ≠ .Root := by
      rintro rfl
      exact root_not_top top
    refine ⟨_, fun element hmem => ?_, hbelow.node inner hfold⟩
    rcases List.mem_cons.mp hmem with rfl | hmem
    · refine ⟨⟨kind, top, rfl⟩, fun hkind => gapped ?_⟩
      have hkinds : SyntaxKind.Node kind = .Node .DomainOpaqueNode := hkind
      exact SyntaxKind.Node.inj hkinds
    · exact hin element hmem

/-! ## Sources -/

theorem gapLe_total (a b : DomainCoverageGap) : (gapLe a b || gapLe b a) = true := by
  simp [gapLe]
  omega

theorem gapLe_trans (a b c : DomainCoverageGap) (hab : gapLe a b = true) (hbc : gapLe b c = true) :
    gapLe a c = true := by
  simp [gapLe] at hab hbc ⊢
  omega

/-- What the parser makes of the tokens of a source. -/
structure Parsed (source : Text) (tokens : List Token) (es : List Event)
    (diagnostics : List Diagnostic) (gaps : List DomainCoverageGap) : Prop where
  told : Grown tokens (Told tokens diagnostics) 0 (.Open (.Node .DomainFile) :: es ++ [.Close])
    tokens.length
  held : Grown tokens (Held tokens gaps) 0 (.Open (.Node .DomainFile) :: es ++ [.Close])
    tokens.length
  tops : Tops tokens gaps 0 es tokens.length
  bad : ∀ range, (TokenKind.Error, range) ∈ tokens → ReportedBad diagnostics range
  fresh : ∀ d ∈ diagnostics, ¬Stuck d.message
  inside : ∀ gap ∈ gaps, gap.span.stop ≤ source.length
  sorted : gaps.Pairwise fun a b => gapLe a b = true

/-- Every loop of the parser ends, at the end of the tokens. -/
theorem parse_parsed {source : Text} {tokens : List Token} (file : Nat)
    (htiles : Tiles source 0 tokens) : ∃ es diagnostics gaps,
      parse source file tokens = some (.Open (.Node .Root) ::
        (.Open (.Node .DomainFile) :: es ++ [.Close]) ++ [.Close], diagnostics, gaps) ∧
      Parsed source tokens es diagnostics gaps := by
  let s₀ := (Parser.new source file tokens).with (.Open (.Node .Root))
  have hs₀ : Ready (MAX_PARSE_DEPTH + 1) s₀ :=
    ⟨Nat.zero_le _, htiles, Nat.zero_le _, Nat.lt_succ_self _⟩
  have hfile : (flow (MAX_PARSE_DEPTH + 1)).Goes s₀ (node .DomainFile (budget fileTurn))
      fun _ s' => s'.index = tokens.length ∧ ∃ es,
        s'.events = s₀.events ++ (.Open (.Node .DomainFile) :: es ++ [.Close]) ∧
          Tops tokens s'.coverage_gaps 0 es s'.index := by
    refine goes_node (by decide) (by decide) (Flow.Goes.mono (budget_fileTurn (hs₀.with _)) ?_)
    rintro _ s₁ - ⟨hend, htokens, -, es, hevents, htops⟩
    have htokens' : s₁.tokens = tokens := htokens
    refine ⟨hend.trans (congrArg List.length htokens'), es, ?_, htops⟩
    show s₁.events ++ [.Close] = _
    rw [hevents]
    simp [Parser.with]
  obtain ⟨_, s₁, hrun, ⟨es', hran, hcovered⟩, hend, es, hevents, htops⟩ := hfile
  obtain rfl : es' = .Open (.Node .DomainFile) :: es ++ [.Close] :=
    List.append_cancel_left (hran.events.symm.trans hevents)
  have htold : Grown tokens (Told tokens s₁.diagnostics) 0 _ s₁.index := hran.grown
  have hheld : Grown tokens (Held tokens s₁.coverage_gaps) 0 _ s₁.index := hcovered
  have hperm := List.mergeSort_perm s₁.coverage_gaps gapLe
  rw [hend] at htold hheld htops
  have hsorted : HasGap s₁.coverage_gaps .UnsupportedTopLevel →
      HasGap (s₁.coverage_gaps.mergeSort gapLe) .UnsupportedTopLevel := by
    rintro ⟨gap, hmem, hkind⟩
    exact ⟨gap, hperm.mem_iff.mpr hmem, hkind⟩
  refine ⟨es, s₁.diagnostics, s₁.coverage_gaps.mergeSort gapLe, ?_, htold, ?_, htops.mono hsorted,
    ?_, ?_, ?_, ?_⟩
  · have hnode : node .Root (node .DomainFile (budget fileTurn)) (Parser.new source file tokens) =
        some ((), s₁.with .Close) := by
      show (node .DomainFile (budget fileTurn) s₀).bind _ = _
      rw [hrun]
      rfl
    unfold parse
    rw [hnode]
    have hstart : s₀.events = [.Open (.Node .Root)] := rfl
    have hclosed : (s₁.with .Close).events = .Open (.Node .Root) ::
        (.Open (.Node .DomainFile) :: es ++ [.Close]) ++ [.Close] := by
      show s₁.events ++ [.Close] = _
      rw [hevents, hstart]
      rfl
    show some ((s₁.with .Close).events, _, _) = _
    rw [hclosed]
    rfl
  · refine hheld.mono fun kind a b _ _ _ hin hfaulty => ?_
    obtain ⟨gap, hmem, hbounds⟩ := hin hfaulty
    exact ⟨gap, hperm.mem_iff.mpr hmem, hbounds⟩
  · intro range hmem
    obtain ⟨i, hi, hget⟩ := List.mem_iff_getElem.mp hmem
    refine hran.bad i range (Nat.zero_le _) (by rw [hend]; exact hi) ?_
    show tokens[i]? = _
    rw [List.getElem?_eq_getElem hi, hget]
  · intro d hd
    rcases hran.fresh d hd with hd | hd
    · cases hd
    · exact hd
  · intro gap hgap
    refine hran.inside (fun gap hgap => ?_) gap (hperm.mem_iff.mp hgap)
    cases hgap
  · exact List.pairwise_mergeSort gapLe_trans gapLe_total _

/-- The tree of a source, with what is known of the events it was built from. -/
theorem parseDomain_built (lex : Text → List Token) (source : Text) (file : Nat)
    (hlex : Tiles source 0 (lex source)) (hshort : source.length < 2 ^ 32) :
    ∃ p es elements range, parseDomain lex source file = some (.ok p) ∧
      Parsed source (lex source) es p.diagnostics p.coverage_gaps ∧
      p.green = .new (.Node .Root) [.Node (.new (.Node .DomainFile) elements range)]
        ⟨0, source.length, Nat.zero_le _⟩ ∧
      (∀ element ∈ elements, InFile element ∧
        (OfKind .DomainOpaqueNode element → HasGap p.coverage_gaps .UnsupportedTopLevel)) ∧
      Made source (lex source) (Told (lex source) p.diagnostics) 0 (lex source).length
        p.green.children ∧
      Made source (lex source) (Held (lex source) p.coverage_gaps) 0 (lex source).length
        p.green.children ∧
      ∀ node ∈ nodesOf p.green.children, Encloses node := by
  obtain ⟨es, diagnostics, gaps, hparse, hparsed⟩ := parse_parsed file hlex
  obtain ⟨children, hmade, hfold⟩ := hparsed.told.fold hlex (Nat.zero_le _)
  obtain ⟨children', hmade', hfold'⟩ := hparsed.held.fold hlex (Nat.zero_le _)
  obtain ⟨elements, hin, hfolds⟩ := hparsed.tops.fold hlex (Nat.zero_le _)
  -- the events say what the elements are, whatever else is known of them
  obtain rfl := Folds.unique hfold hfold'
  have inner : NodeKind.DomainFile ≠ .Root := by decide
  have hfile := hfolds.node inner (Folds.nil _)
  obtain rfl := Folds.unique hfold hfile
  have hfinish := finish_folds hlex hshort hfold
  refine ⟨⟨.new (.Node .Root) _ ⟨0, source.length, Nat.zero_le _⟩, diagnostics, gaps⟩, es,
    elements, _, ?_, hparsed, rfl, hin, hmade, hmade',
    hparsed.told.encloses hlex (Nat.zero_le _) hfile⟩
  unfold parseDomain
  simp only [hparse, Option.map_some, hfinish]
  rfl

/-- A node of the tree below its root. -/
theorem below_root {children : List GreenElement} {range : TextRange} {node : GreenNode}
    {kind : NodeKind} (hmem : node ∈ (GreenNode.new (.Node .Root) children range).nodes)
    (hkind : node.kind = .Node kind) (hinner : kind ≠ .Root) : node ∈ nodesOf children := by
  rw [GreenNode.nodes] at hmem
  rcases List.mem_cons.mp hmem with rfl | hmem
  · have : SyntaxKind.Node .Root = .Node kind := hkind
    cases this
    exact absurd rfl hinner
  · exact hmem

/-- A Domain source is always parsed: every loop of the parser ends, and the tree
holds the tokens of the lexer and so the text of the source. A diagnostic stands at
each bad token and at the start or the end of each error node, and no diagnostic says
that the parser made no progress. -/
theorem domain_sources_are_kept (lex : Text → List Token) (source : Text) (file : Nat)
    (hlex : Tiles source 0 (lex source)) (hshort : source.length < 2 ^ 32) :
    ∃ p, parseDomain lex source file = some (.ok p) ∧
      p.green.text = source ∧
      p.green.tokens = (lex source).map (greenToken source) ∧
      (∀ token ∈ p.green.tokens, token.kind = .Token .Error →
        ReportedBad p.diagnostics token.range) ∧
      (∀ node ∈ p.green.nodes, node.kind = .Node .ErrorNode →
        Reported p.diagnostics node.textRange.start ∨ Reported p.diagnostics node.textRange.stop) ∧
      ∀ d ∈ p.diagnostics, ¬Stuck d.message := by
  obtain ⟨p, es, elements, range, hrun, hparsed, hgreen, -, hmade, -, -⟩ :=
    parseDomain_built lex source file hlex hshort
  have htokens : p.green.tokens = (lex source).map (greenToken source) := by
    have hheld := hmade.held
    rw [List.take_length, List.drop_zero] at hheld
    rw [← hheld, hgreen, GreenNode.tokens]
    rfl
  refine ⟨p, hrun, ?_, htokens, ?_, ?_, hparsed.fresh⟩
  · have htext := hlex.text
    rw [List.drop_zero] at htext
    rw [GreenNode.text, htokens, List.flatMap_map]
    exact htext
  · intro token htoken hkind
    rw [htokens] at htoken
    obtain ⟨⟨kind, range'⟩, hmem, rfl⟩ := List.mem_map.mp htoken
    obtain rfl : kind = .Error := by simpa [greenToken, GreenToken.new] using hkind
    exact hparsed.bad range' hmem
  · intro node hnode hkind
    rw [hgreen] at hnode
    have hbelow := below_root hnode hkind (by decide)
    rw [hgreen] at hmade
    obtain ⟨kind, a, b, hkind', htold, hstart, hstop⟩ := hmade.nodes node hbelow
    obtain rfl : NodeKind.ErrorNode = kind := by simpa using hkind.symm.trans hkind'
    rw [hstart, hstop]
    exact htold rfl

/-- A token of a kind, by its place and its length. -/
def spannedToken (kind : TokenKind) (start length : Nat) : Token :=
  (kind, ⟨start, start + length, Nat.le_add_right start length⟩)

/-- What the lexer makes of a class without a name, and without the end of its body. -/
def lexNameless (_ : Text) : List Token :=
  [spannedToken .Ident 0 5, spannedToken .Whitespace 5 1, spannedToken .BraceOpen 6 1]

/-- A class without a name is kept as it is. -/
theorem a_nameless_class_is_kept : ∃ p,
    parseDomain lexNameless (ascii "Class \x7b") 0 = some (.ok p) ∧
      p.green.text = ascii "Class \x7b" ∧
      p.green.tokens = (lexNameless (ascii "Class \x7b")).map (greenToken (ascii "Class \x7b")) ∧
      (∀ token ∈ p.green.tokens, token.kind = .Token .Error →
        ReportedBad p.diagnostics token.range) ∧
      (∀ node ∈ p.green.nodes, node.kind = .Node .ErrorNode →
        Reported p.diagnostics node.textRange.start ∨ Reported p.diagnostics node.textRange.stop) ∧
      ∀ d ∈ p.diagnostics, ¬Stuck d.message :=
  domain_sources_are_kept lexNameless (ascii "Class \x7b") 0
    ⟨rfl, by decide, by decide, by decide, rfl, by decide, by decide, by decide, rfl, by decide,
      by decide, by decide, rfl⟩ (by decide)

end analyzer.domain
