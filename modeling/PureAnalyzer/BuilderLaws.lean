-- What the tree builder takes: tokens that cover the source, and events that
-- are one tree under one root. It builds that tree and no other.
import PureAnalyzer.ParserTrees

namespace analyzer.cst

open fragments model analyzer.m3

/-! ## Nested events -/

/-- Whole nodes and tokens one after another, with no root among the nodes. -/
inductive Nested : List Event → Prop
  | nil : Nested []
  | advance {es : List Event} : Nested es → Nested (.Advance :: es)
  | node {es es' : List Event} (kind : SyntaxKind) (inner : kind ≠ .Node .Root) :
      Nested es → Nested es' → Nested (.Open kind :: es ++ .Close :: es')

/-- One root, and all the rest inside it. -/
def OneRoot (events : List Event) : Prop :=
  ∃ es, Nested es ∧ events = .Open (.Node .Root) :: es ++ [.Close]

/-- Every opened kind is the kind of a node. -/
def OpensNodes (events : List Event) : Prop :=
  ∀ kind, Event.Open kind ∈ events → kind.isNode = true

/-- From an offset to an offset, each element begins where the one before it
ends, and a node covers its children and nothing else. -/
inductive Placed : Nat → List GreenElement → Nat → Prop
  | nil (offset : Nat) : Placed offset [] offset
  | token {offset : Nat} (token : GreenToken) {rest : List GreenElement} {last : Nat}
      (start : token.range.start = offset) :
      Placed token.range.stop rest last → Placed offset (.Token token :: rest) last
  | node {offset : Nat} (kind : SyntaxKind) {children : List GreenElement} {range : TextRange}
      {rest : List GreenElement} {last : Nat} (start : range.start = offset) :
      Placed offset children range.stop → Placed range.stop rest last →
      Placed offset (.Node (.new kind children range) :: rest) last

/-! ## What is built -/

theorem Nested.fold {source : Text} {tokens : List Token} {es : List Event} (h : Nested es)
    (hopens : OpensNodes es) {start i : Nat} (htiles : Tiles source start tokens)
    (hi : i + es.count .Advance ≤ tokens.length) (parent : PendingNode)
    (stack : List PendingNode) (roots : List GreenNode) :
    ∃ elements, Placed (offsetAt tokens i) elements (offsetAt tokens (i + es.count .Advance)) ∧
      tokensOf elements = ((tokens.drop i).take (es.count .Advance)).map (greenToken source) ∧
      ∀ event_index,
        foldFrom source tokens event_index es ⟨parent :: stack, roots, i, offsetAt tokens i⟩ =
          .ok ⟨{ parent with children := parent.children ++ elements } :: stack, roots,
            i + es.count .Advance, offsetAt tokens (i + es.count .Advance)⟩ := by
  induction h generalizing i parent stack with
  | nil => exact ⟨[], .nil _, by simp [tokensOf], fun _ => by simp [foldFrom]⟩
  | @advance es hes ih =>
    rw [List.count_cons_self] at hi ⊢
    have hlt : i < tokens.length := by omega
    obtain ⟨⟨kind, range⟩, hget⟩ : ∃ token, tokens[i]? = some token :=
      ⟨_, List.getElem?_eq_getElem hlt⟩
    let child := greenToken source (kind, range)
    have hopens' : OpensNodes es := fun kind hmem => hopens kind (List.mem_cons_of_mem _ hmem)
    obtain ⟨elements, hplaced, htokens, hfold⟩ := ih hopens' (i := i + 1) (by omega)
      { parent with children := parent.children ++ [.Token child] } stack
    have hcount : i + 1 + es.count .Advance = i + (es.count .Advance + 1) := by omega
    rw [hcount] at hplaced hfold
    refine ⟨.Token child :: elements, ?_, ?_, fun event_index => ?_⟩
    · refine .token child (Tiles.start_eq hget) ?_
      rw [show child.range.stop = offsetAt tokens (i + 1) from htiles.stop_eq hget]
      exact hplaced
    · have hdrop : tokens.drop i = (kind, range) :: tokens.drop (i + 1) := by
        rw [List.drop_eq_getElem_cons hlt, (List.getElem?_eq_some_iff.mp hget).2]
      rw [hdrop, List.take_succ_cons, List.map_cons, ← htokens]
      rfl
    · simp only [foldFrom, foldEvent, advanceToken, hget]
      rw [htiles.stop_eq hget]
      refine (hfold (event_index + 1)).trans ?_
      simp
  | @node es es' kind inner hes hes' ih ih' =>
    have hcount : (Event.Open kind :: es ++ Event.Close :: es').count .Advance =
        es.count .Advance + es'.count .Advance := by
      simp [List.count_append]
    rw [hcount] at hi ⊢
    have hbelow : OpensNodes es := fun k hmem => hopens k (by simp [hmem])
    have hrest : OpensNodes es' := fun k hmem => hopens k (by simp [hmem])
    obtain ⟨elements, hplaced, htokens, hfold⟩ :=
      ih hbelow (i := i) (by omega) ⟨kind, [], offsetAt tokens i⟩ (parent :: stack)
    let j := i + es.count .Advance
    let child := GreenNode.new kind elements (pendingRange (offsetAt tokens i) (offsetAt tokens j))
    obtain ⟨elements', hplaced', htokens', hfold'⟩ := ih' hrest (i := j) (by omega)
      { parent with children := parent.children ++ [.Node child] } stack
    have hmono : offsetAt tokens i ≤ offsetAt tokens j :=
      htiles.offsetAt_mono (by omega) (by omega)
    have hrange : pendingRange (offsetAt tokens i) (offsetAt tokens j) =
        ⟨offsetAt tokens i, offsetAt tokens j, hmono⟩ := dif_pos hmono
    have hj : j + es'.count .Advance = i + (es.count .Advance + es'.count .Advance) := by omega
    rw [hj] at hplaced' hfold'
    refine ⟨.Node child :: elements', ?_, ?_, fun event_index => ?_⟩
    · refine .node kind ?_ ?_ ?_
      · rw [hrange]
      · rw [hrange]
        exact hplaced
      · rw [hrange]
        exact hplaced'
    · show tokensOf elements ++ tokensOf elements' = _
      rw [htokens, htokens', ← List.map_append, List.take_add, List.drop_drop]
    · have hopen : openNode event_index kind ⟨parent :: stack, roots, i, offsetAt tokens i⟩ =
          .ok ⟨⟨kind, [], offsetAt tokens i⟩ :: parent :: stack, roots, i, offsetAt tokens i⟩ := by
        unfold openNode
        simp [hopens kind (by simp), inner]
      rw [List.cons_append]
      simp only [foldFrom, foldEvent, hopen]
      refine (foldFrom_append source tokens es (.Close :: es') (event_index + 1) _).trans ?_
      rw [hfold]
      refine (hfold' _).trans ?_
      simp

/-! ## What is taken -/

/-- The outermost nodes, one after another, by their kinds. -/
inductive Roots : List SyntaxKind → List Event → Prop
  | nil : Roots [] []
  | cons {kinds : List SyntaxKind} {es es' : List Event} (kind : SyntaxKind) :
      Nested es → Roots kinds es' → Roots (kind :: kinds) (.Open kind :: es ++ .Close :: es')

/-- The events that close so many open nodes, and the roots that follow. -/
def Leaves : Nat → List SyntaxKind → List Event → Prop
  | 0, kinds, es => Roots kinds es
  | depth + 1, kinds, es => ∃ body rest, Nested body ∧ es = body ++ .Close :: rest ∧
      Leaves depth kinds rest

section Fold

variable {source : Text} {tokens : List Token}

theorem foldFrom_cons {event_index : Nat} {e : Event} {es : List Event} {s t : FoldState}
    (h : foldFrom source tokens event_index (e :: es) s = .ok t) :
    ∃ u, foldEvent source tokens event_index e s = .ok u ∧
      foldFrom source tokens (event_index + 1) es u = .ok t := by
  simp only [foldFrom] at h
  cases hu : foldEvent source tokens event_index e s with
  | error e => rw [hu] at h; cases h
  | ok u =>
    rw [hu] at h
    exact ⟨u, rfl, h⟩

theorem openNode_ok {event_index : Nat} {kind : SyntaxKind} {s t : FoldState}
    (h : openNode event_index kind s = .ok t) :
    kind.isNode = true ∧ (s.stack ≠ [] → kind ≠ .Node .Root) ∧
      t = { s with stack := ⟨kind, [], s.offset⟩ :: s.stack } := by
  unfold openNode at h
  split_ifs at h with hnode hroot
  refine ⟨by simpa using hnode, fun hstack hkind => hroot ?_, (Except.ok.inj h).symm⟩
  simp [hkind, hstack]

theorem advanceToken_ok {event_index : Nat} {s t : FoldState}
    (h : advanceToken source tokens event_index s = .ok t) :
    ∃ parent stack kind range, s.stack = parent :: stack ∧
      tokens[s.token_index]? = some (kind, range) ∧
      t = { s with
        stack := { parent with children := parent.children ++
          [.Token (greenToken source (kind, range))] } :: stack
        token_index := s.token_index + 1
        offset := range.stop } := by
  unfold advanceToken at h
  cases hstack : s.stack with
  | nil => rw [hstack] at h; cases h
  | cons parent stack =>
    rw [hstack] at h
    dsimp only at h
    cases hget : tokens[s.token_index]? with
    | none => rw [hget] at h; cases h
    | some token =>
      obtain ⟨kind, range⟩ := token
      rw [hget] at h
      exact ⟨parent, stack, kind, range, rfl, rfl, (Except.ok.inj h).symm⟩

/-- The node that a close event makes of the innermost open one. -/
def PendingNode.closed (pending : PendingNode) (offset : Nat) : GreenNode :=
  .new pending.kind pending.children (pendingRange pending.start offset)

theorem closeNode_ok {event_index : Nat} {s t : FoldState}
    (h : closeNode event_index s = .ok t) :
    (∃ pending, s.stack = [pending] ∧
      t = { s with stack := [], roots := s.roots ++ [pending.closed s.offset] }) ∨
    ∃ pending parent stack, s.stack = pending :: parent :: stack ∧
      t = { s with stack := { parent with children := parent.children ++
        [.Node (pending.closed s.offset)] } :: stack } := by
  unfold closeNode at h
  cases hstack : s.stack with
  | nil => rw [hstack] at h; cases h
  | cons pending stack =>
    rw [hstack] at h
    cases stack with
    | nil => exact .inl ⟨pending, rfl, (Except.ok.inj h).symm⟩
    | cons parent stack => exact .inr ⟨pending, parent, stack, rfl, (Except.ok.inj h).symm⟩

theorem foldFrom_opens {event_index : Nat} {es : List Event} {s t : FoldState}
    (h : foldFrom source tokens event_index es s = .ok t) : OpensNodes es := by
  induction es generalizing event_index s with
  | nil => exact fun kind hmem => nomatch hmem
  | cons e es ih =>
    obtain ⟨u, hu, hrest⟩ := foldFrom_cons h
    intro kind hmem
    rcases List.mem_cons.mp hmem with rfl | hmem
    · exact (openNode_ok hu).1
    · exact ih hrest kind hmem

theorem foldFrom_advances {event_index : Nat} {es : List Event} {s t : FoldState}
    (h : foldFrom source tokens event_index es s = .ok t) :
    t.token_index = s.token_index + es.count .Advance := by
  induction es generalizing event_index s with
  | nil =>
    obtain rfl : s = t := Except.ok.inj h
    simp
  | cons e es ih =>
    obtain ⟨u, hu, hrest⟩ := foldFrom_cons h
    have hcount := ih hrest
    cases e with
    | Open kind =>
      obtain ⟨-, -, rfl⟩ := openNode_ok hu
      simpa using hcount
    | Advance =>
      obtain ⟨parent, stack, kind, range, -, -, rfl⟩ := advanceToken_ok hu
      rw [List.count_cons_self]
      simp only at hcount
      omega
    | Close =>
      rcases closeNode_ok hu with ⟨_, -, rfl⟩ | ⟨_, _, _, -, rfl⟩ <;> simpa using hcount

/-- A fold that leaves no node open has closed every one it found or opened. -/
theorem foldFrom_leaves {event_index : Nat} {es : List Event} {s t : FoldState}
    (h : foldFrom source tokens event_index es s = .ok t) (hdone : t.stack = []) :
    ∃ kinds, Leaves s.stack.length kinds es ∧ t.roots.map GreenNode.kind =
      s.roots.map GreenNode.kind ++ (s.stack.getLast?.map PendingNode.kind).toList ++ kinds := by
  induction es generalizing event_index s with
  | nil =>
    obtain rfl : s = t := Except.ok.inj h
    exact ⟨[], by rw [hdone]; exact .nil, by simp [hdone]⟩
  | cons e es ih =>
    obtain ⟨u, hu, hrest⟩ := foldFrom_cons h
    obtain ⟨kinds, hleaves, hkinds⟩ := ih hrest
    cases e with
    | Open kind =>
      obtain ⟨-, hinner, rfl⟩ := openNode_ok hu
      cases hstack : s.stack with
      | nil =>
        simp only [hstack, List.length_singleton, List.getLast?_singleton] at hleaves hkinds
        obtain ⟨body, rest, hbody, rfl, hroots⟩ := hleaves
        exact ⟨kind :: kinds, .cons kind hbody hroots, by simpa using hkinds⟩
      | cons parent stack =>
        simp only [hstack, List.length_cons, List.getLast?_cons_cons] at hleaves hkinds ⊢
        obtain ⟨body, rest, hbody, rfl, body', rest', hbody', rfl, hleaves⟩ := hleaves
        refine ⟨kinds, ⟨.Open kind :: body ++ .Close :: body', rest', ?_, ?_, hleaves⟩, hkinds⟩
        · exact .node kind (hinner (by simp [hstack])) hbody hbody'
        · simp
    | Advance =>
      obtain ⟨parent, stack, kind, range, hstack, -, rfl⟩ := advanceToken_ok hu
      simp only [hstack, List.length_cons] at hleaves hkinds ⊢
      obtain ⟨body, rest, hbody, rfl, hleaves⟩ := hleaves
      refine ⟨kinds, ⟨.Advance :: body, rest, .advance hbody, rfl, hleaves⟩, ?_⟩
      cases stack with
      | nil => simpa using hkinds
      | cons below stack => simpa [List.getLast?_cons_cons] using hkinds
    | Close =>
      rcases closeNode_ok hu with ⟨pending, hstack, rfl⟩ | ⟨pending, parent, stack, hstack, rfl⟩
      · refine ⟨kinds, ?_, ?_⟩
        · rw [hstack]
          exact ⟨[], es, .nil, rfl, hleaves⟩
        · rw [hstack]
          simpa [PendingNode.closed, GreenNode.kind] using hkinds
      · refine ⟨kinds, ?_, ?_⟩
        · rw [hstack]
          exact ⟨[], es, .nil, rfl, hleaves⟩
        · rw [hstack, List.getLast?_cons_cons]
          cases stack with
          | nil => simpa using hkinds
          | cons below stack => simpa [List.getLast?_cons_cons] using hkinds

theorem validate_tiles {source_end token_index start last : Nat}
    (hend : source_end = source.length)
    (h : validateTokenRanges source source_end token_index start tokens = .ok last)
    (hlast : last = source_end) : Tiles source start tokens := by
  induction tokens generalizing token_index start with
  | nil =>
    obtain rfl : start = last := Except.ok.inj h
    exact hlast.trans hend
  | cons token tokens ih =>
    obtain ⟨kind, range⟩ := token
    simp only [validateTokenRanges] at h
    cases hrange : validateTokenRange source token_index range start source_end with
    | error e => rw [hrange] at h; cases h
    | ok u =>
      rw [hrange] at h
      unfold validateTokenRange at hrange
      split_ifs at hrange with hstart hempty houtside hfrom hto
      have hordered := range.ordered
      exact ⟨not_not.mp hstart, by omega, by simpa using hfrom, by simpa using hto, ih h⟩

theorem validateTokens_ok {source_end : Nat} (h : validateTokens source tokens = .ok source_end) :
    source_end = source.length ∧ Tiles source 0 tokens := by
  unfold validateTokens at h
  cases hend : sourceEnd source with
  | error e => rw [hend] at h; cases h
  | ok bound =>
    rw [hend] at h
    have hbound : bound = source.length := by
      unfold sourceEnd at hend
      split_ifs at hend
      exact (Except.ok.inj hend).symm
    cases hlast : validateTokenRanges source bound 0 0 tokens with
    | error e => simp [hlast, bind, Except.bind] at h
    | ok last =>
      simp only [hlast, bind, Except.bind] at h
      split_ifs at h with hcover
      obtain rfl : bound = source_end := Except.ok.inj h
      exact ⟨hbound, validate_tiles hbound hlast (not_not.mp hcover)⟩

theorem finishRoot_ok {s : FoldState} {total source_end : Nat} {root : GreenNode}
    (h : finishRoot s total source_end = .ok root) :
    s.stack = [] ∧ s.token_index = total ∧ s.roots = [root] ∧ root.kind = .Node .Root := by
  unfold finishRoot at h
  split_ifs at h with hstack htotal
  cases hroots : s.roots with
  | nil => rw [hroots] at h; cases h
  | cons first rest =>
    cases rest with
    | nil =>
      rw [hroots] at h
      dsimp only at h
      split_ifs at h with hkind hrange
      obtain rfl : first = root := Except.ok.inj h
      exact ⟨by simpa using hstack, not_not.mp htotal, rfl, not_not.mp hkind⟩
    | cons second rest => rw [hroots] at h; cases h

/-- A fold that ends in one root was given one tree. -/
theorem foldEvents_oneRoot {events : List Event} {source_end : Nat} {root : GreenNode}
    (h : foldEvents source tokens events source_end = .ok root) :
    OpensNodes events ∧ OneRoot events ∧ events.count .Advance = tokens.length := by
  unfold foldEvents at h
  cases hfold : foldFrom source tokens 0 events ⟨[], [], 0, 0⟩ with
  | error e => rw [hfold] at h; cases h
  | ok s =>
    rw [hfold] at h
    obtain ⟨hstack, htotal, hroots, hkind⟩ := finishRoot_ok h
    refine ⟨foldFrom_opens hfold, ?_, ?_⟩
    · obtain ⟨kinds, hleaves, hkinds⟩ := foldFrom_leaves hfold hstack
      have hone : kinds = [.Node .Root] := by
        rw [hroots] at hkinds
        simpa [hkind] using hkinds.symm
      subst hone
      cases hleaves with
      | cons kind hbody hrest =>
        cases hrest
        exact ⟨_, hbody, rfl⟩
    · have hcount := foldFrom_advances hfold
      simp only at hcount
      omega

/-- The root that one tree of events becomes. -/
theorem OneRoot.finish {events : List Event} (htiles : Tiles source 0 tokens)
    (hopens : OpensNodes events) (h : OneRoot events)
    (hcount : events.count .Advance = tokens.length) :
    ∃ elements, Placed 0 elements source.length ∧
      tokensOf elements = tokens.map (greenToken source) ∧
      foldEvents source tokens events source.length =
        .ok (.new (.Node .Root) elements ⟨0, source.length, Nat.zero_le _⟩) := by
  obtain ⟨es, hes, rfl⟩ := h
  have hcount' : es.count .Advance = tokens.length := by
    simpa [List.count_append] using hcount
  have hopens' : OpensNodes es := fun kind hmem => hopens kind (by simp [hmem])
  obtain ⟨elements, hplaced, htokens, hfold⟩ :=
    hes.fold hopens' htiles (i := 0) (by omega) ⟨.Node .Root, [], 0⟩ [] []
  rw [Nat.zero_add, hcount', htiles.offsetAt_zero, htiles.offsetAt_end] at hplaced hfold
  refine ⟨elements, hplaced, ?_, ?_⟩
  · simpa [hcount'] using htokens
  · exact foldEvents_root hfold

end Fold

/-- The builder takes the events of one tree over tokens that cover the source,
and nothing else. The tree it makes holds the text and the tokens, and each of
its nodes covers its children. -/
theorem the_builder_takes_one_tree (owner : Nat) (source : Text) (tokens : List Token)
    (events : List Event) (hshort : source.length < 2 ^ 32) :
    ((∃ root, (events.foldl GreenNodeBuilder.push (.new owner source tokens)).finish = .ok root) ↔
      Tiles source 0 tokens ∧ OpensNodes events ∧ OneRoot events ∧
        events.count .Advance = tokens.length) ∧
    ∀ root, (events.foldl GreenNodeBuilder.push (.new owner source tokens)).finish = .ok root →
      root.text = source ∧ root.tokens = tokens.map (greenToken source) ∧
        Placed 0 [.Node root] source.length := by
  rw [finish_push]
  have hneeds : ∀ root, (validateTokens source tokens >>= foldEvents source tokens events) =
      .ok root → Tiles source 0 tokens ∧ OpensNodes events ∧ OneRoot events ∧
        events.count .Advance = tokens.length := by
    intro root h
    cases hvalid : validateTokens source tokens with
    | error e => rw [hvalid] at h; cases h
    | ok source_end =>
      rw [hvalid] at h
      exact ⟨(validateTokens_ok hvalid).2, foldEvents_oneRoot h⟩
  have hmakes : Tiles source 0 tokens ∧ OpensNodes events ∧ OneRoot events ∧
      events.count .Advance = tokens.length → ∃ elements, Placed 0 elements source.length ∧
        tokensOf elements = tokens.map (greenToken source) ∧
        (validateTokens source tokens >>= foldEvents source tokens events) =
          .ok (.new (.Node .Root) elements ⟨0, source.length, Nat.zero_le _⟩) := by
    rintro ⟨htiles, hopens, hone, hcount⟩
    rw [htiles.validateTokens hshort]
    exact hone.finish htiles hopens hcount
  refine ⟨⟨fun ⟨root, h⟩ => hneeds root h, fun h => ?_⟩, fun root h => ?_⟩
  · obtain ⟨elements, -, -, hfinish⟩ := hmakes h
    exact ⟨_, hfinish⟩
  · have hgiven := hneeds root h
    obtain ⟨elements, hplaced, htokens, hfinish⟩ := hmakes hgiven
    rw [hfinish] at h
    obtain rfl := Except.ok.inj h
    refine ⟨?_, htokens, .node _ rfl hplaced (.nil _)⟩
    have htext := hgiven.1.text
    rw [List.drop_zero] at htext
    rw [GreenNode.text, GreenNode.tokens, htokens, List.flatMap_map]
    exact htext

def navTokens : List Token := [(.Ident, ⟨0, 1, Nat.zero_le 1⟩), (.Ident, ⟨1, 2, Nat.le_succ 1⟩)]

def navEvents : List Event :=
  [.Open (.Node .Root), .Advance, .Open (.Node .PropertyNav), .Advance, .Close, .Close]

/-- A root around a token and a node of another token, over a source of two bytes. -/
theorem two_tokens_are_one_tree :
    ∃ root, (navEvents.foldl GreenNodeBuilder.push (.new 0 (ascii "ab") navTokens)).finish =
        .ok root ∧
      root.text = ascii "ab" ∧
      root.nodes.map GreenNode.kind = [.Node .Root, .Node .PropertyNav] ∧
      Placed 0 [.Node root] 2 := by
  obtain ⟨hiff, htree⟩ := the_builder_takes_one_tree 0 (ascii "ab") navTokens navEvents (by decide)
  have hopens : OpensNodes navEvents := by
    intro kind hkind
    simp only [navEvents, List.mem_cons, Event.Open.injEq, reduceCtorEq, false_or, or_false,
      List.not_mem_nil] at hkind
    rcases hkind with rfl | rfl
    · rfl
    · rfl
  have hone : OneRoot navEvents := ⟨[.Advance, .Open (.Node .PropertyNav), .Advance, .Close],
    .advance (@Nested.node [.Advance] [] _ (by decide) (.advance .nil) .nil), rfl⟩
  obtain ⟨root, hroot⟩ := hiff.mpr ⟨by decide, hopens, hone, rfl⟩
  obtain ⟨htext, -, hplaced⟩ := htree root hroot
  refine ⟨root, hroot, htext, ?_, hplaced⟩
  rw [← Except.ok.inj (show Except.ok _ = Except.ok root from hroot)]
  rfl

end analyzer.cst
