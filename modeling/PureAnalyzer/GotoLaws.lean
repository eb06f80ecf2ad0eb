-- The laws of the `Goto` rules. The walk of a table is a depth-first search
-- of its `Goto` edges that never runs out of turns, so a table is refused
-- exactly when they have a cycle. Where they have none, the bounded loop of
-- a step decides as the rules do with no bound.
import Mathlib.Algebra.Group.Action.Defs
import Mathlib.Data.Finset.Range
import Mathlib.Data.List.GetD
import PureAnalyzer.DepthFirst
import PureAnalyzer.Lowering

namespace purecard.lower

open pushdown pda spec depthfirst attempts

/-! ## The edges -/

/-- The rules of the state `s` have a `Goto` to `t`. -/
def GotoEdge (v1 : GrammarSpecV1) (s t : String) : Prop :=
  ∃ state ∈ v1.states, state.1 = s ∧ ∃ rule ∈ state.2.rules, rule.action = .Goto t

/-- The `Goto` rules come back to a state. -/
def GotoCycle (v1 : GrammarSpecV1) : Prop := ∃ s, Relation.TransGen (GotoEdge v1) s s

/-- The edges that the walk follows, by the ids of the states. -/
def gotoEdges (v1 : GrammarSpecV1) : List (List Nat) :=
  v1.states.map fun entry => (gotoRules (stateIds v1.states) entry.2.rules).map Prod.fst

def succOf (edges : List (List Nat)) (id : Nat) : List Nat := edges.getD id []

theorem mem_gotoRules {state_ids : Ids} {rules : List TransitionRule} {next : Nat} :
    next ∈ (gotoRules state_ids rules).map Prod.fst ↔
      ∃ rule ∈ rules, ∃ target, rule.action = .Goto target ∧
        state_ids.lookup target = some next := by
  unfold gotoRules
  rw [List.mem_map]
  constructor
  · rintro ⟨⟨found, i⟩, hmem, rfl⟩
    obtain ⟨⟨rule, j⟩, hrule, hsome⟩ := List.mem_filterMap.mp hmem
    have hin : rule ∈ rules := List.mem_of_getElem? (List.mk_mem_zipIdx_iff_getElem?.mp hrule)
    cases haction : rule.action with
    | Goto target =>
      simp only [haction, Option.map_eq_some_iff] at hsome
      obtain ⟨id, hid, heq⟩ := hsome
      obtain ⟨rfl, -⟩ := Prod.mk.inj heq
      exact ⟨rule, hin, target, haction, hid⟩
    | _ => simp [haction] at hsome
  · rintro ⟨rule, hin, target, haction, hid⟩
    obtain ⟨i, hi⟩ := List.getElem?_of_mem hin
    refine ⟨(next, i), List.mem_filterMap.mpr ⟨(rule, i), ?_, ?_⟩, rfl⟩
    · exact List.mk_mem_zipIdx_iff_getElem?.mpr hi
    · simp [haction, hid]

theorem mem_succOf {v1 : GrammarSpecV1} {id next : Nat} :
    next ∈ succOf (gotoEdges v1) id ↔ ∃ entry, v1.states[id]? = some entry ∧
      ∃ rule ∈ entry.2.rules, ∃ target, rule.action = .Goto target ∧
        (stateIds v1.states).lookup target = some next := by
  unfold succOf gotoEdges
  rw [List.getD_eq_getElem?_getD, List.getElem?_map]
  cases h : v1.states[id]? with
  | none => simp
  | some entry =>
    rw [Option.map_some, Option.getD_some, mem_gotoRules]
    simp

theorem succOf_lt {v1 : GrammarSpecV1} {id next : Nat}
    (h : next ∈ succOf (gotoEdges v1) id) : next < v1.states.length := by
  obtain ⟨_, _, _, _, target, _, hnext⟩ := mem_succOf.mp h
  obtain ⟨hlt, -⟩ := List.getElem?_eq_some_iff.mp ((lookup_stateIds v1 target next).mp hnext)
  simpa using hlt

/-- A cycle of ids is a cycle of names. -/
theorem gotoCycle_of_ids {v1 : GrammarSpecV1} {id : Nat}
    (h : Relation.TransGen (Edge (succOf (gotoEdges v1))) id id) : GotoCycle v1 := by
  refine ⟨(v1.states.map Prod.fst).getD id "",
    h.lift (fun id => (v1.states.map Prod.fst).getD id "") ?_⟩
  intro s t hedge
  obtain ⟨entry, hentry, rule, hrule, target, haction, ht⟩ := mem_succOf.mp hedge
  rw [lookup_stateIds] at ht
  refine ⟨entry, List.mem_of_getElem? hentry, ?_, rule, hrule, ?_⟩
  · simp [List.getElem?_map, hentry]
  · show rule.action = .Goto ((v1.states.map Prod.fst).getD t "")
    rw [haction, List.getD_eq_getElem?_getD, ht]
    rfl

/-- A cycle of names that all resolve is a cycle of ids. -/
theorem ids_of_gotoCycle {v1 : GrammarSpecV1} {a : CompiledAutomaton} (ha : IsLowered v1 a)
    (h : GotoCycle v1) : ∃ id, Relation.TransGen (Edge (succOf (gotoEdges v1))) id id := by
  -- each name on the way has an id, and each rule on the way an edge
  have hedge : ∀ s t, GotoEdge v1 s t → ∃ i j, (stateIds v1.states).lookup s = some i ∧
      (stateIds v1.states).lookup t = some j ∧ j ∈ succOf (gotoEdges v1) i := by
    rintro s t ⟨entry, hmem, rfl, rule, hrule, haction⟩
    obtain ⟨i, hi⟩ := List.getElem?_of_mem hmem
    obtain ⟨frame_ids, -, -, hstates⟩ := ha.states
    obtain ⟨hlt, hget⟩ := List.getElem?_eq_some_iff.mp hi
    have hlt' : i < a.states.length := by
      rw [ha.length]
      exact hlt
    have hstate := hstates.get hlt hlt'
    rw [List.get_eq_getElem, hget] at hstate
    obtain ⟨compiled, -, hlowers⟩ := forall₂_mem_left hstate.rules hrule
    obtain ⟨k, hk⟩ := hlowers.action
    rw [haction] at hk
    obtain ⟨j, hj, -⟩ := map_ok hk
    have htarget := resolve_ok.mp hj
    refine ⟨i, j, ?_, htarget, mem_succOf.mpr ⟨entry, hi, rule, hrule, t, haction, htarget⟩⟩
    rw [lookup_stateIds, List.getElem?_map, hi]
    rfl
  have hpath : ∀ s t, Relation.TransGen (GotoEdge v1) s t →
      ∃ i j, (stateIds v1.states).lookup s = some i ∧ (stateIds v1.states).lookup t = some j ∧
        Relation.TransGen (Edge (succOf (gotoEdges v1))) i j := by
    intro s t hst
    induction hst with
    | single h =>
      obtain ⟨i, j, hi, hj, hij⟩ := hedge _ _ h
      exact ⟨i, j, hi, hj, .single hij⟩
    | tail _ h ih =>
      obtain ⟨i, j, hi, hj, hij⟩ := ih
      obtain ⟨j', k, hj', hk, hjk⟩ := hedge _ _ h
      obtain rfl := Option.some.inj (hj.symm.trans hj')
      exact ⟨i, k, hi, hk, .tail hij hjk⟩
  obtain ⟨s, hs⟩ := h
  obtain ⟨i, j, hi, hj, hij⟩ := hpath s s hs
  obtain rfl := Option.some.inj (hi.symm.trans hj)
  exact ⟨i, hij⟩

/-! ## The walk is a depth-first search -/

/-- The search that the marks and the stack of the walk stand for. -/
def search (edges : List (List Nat)) (marks : List Mark) (stack : List (Nat × Nat)) :
    Search Nat where
  stack := stack.map fun frame => (frame.1, (succOf edges frame.1).drop frame.2)
  done := {id | marks.getD id .Unvisited = .Done}

/-- Every state has its mark, and the states in progress are the open ones. -/
structure Marked (n : Nat) (marks : List Mark) (stack : List (Nat × Nat)) : Prop where
  length : marks.length = n
  known : ∀ id ∈ stack.map Prod.fst, id < n
  open_ : ∀ id, marks.getD id .Unvisited = .InProgress ↔ id ∈ stack.map Prod.fst

theorem search_open (edges : List (List Nat)) (marks : List Mark) (stack : List (Nat × Nat)) :
    (search edges marks stack).openNodes = stack.map Prod.fst := by
  unfold search Search.openNodes
  rw [List.map_map]
  rfl

theorem mem_search_done {edges : List (List Nat)} {marks : List Mark} {stack : List (Nat × Nat)}
    {id : Nat} : id ∈ (search edges marks stack).done ↔ marks.getD id .Unvisited = .Done := Iff.rfl

theorem getD_set_mark (marks : List Mark) {i : Nat} (hi : i < marks.length) (m : Mark) (j : Nat) :
    (marks.set i m).getD j .Unvisited = if j = i then m else marks.getD j .Unvisited := by
  rw [List.getD_eq_getElem?_getD, List.getElem?_set, List.getD_eq_getElem?_getD]
  by_cases hj : j = i
  · subst hj
    simp [hi]
  · rw [if_neg fun h => hj h.symm, if_neg hj]

section walk

variable {edges : List (List Nat)} {owner : Nat → Nat → String × Nat} {n : Nat}
  {marks : List Mark} {node next_edge : Nat} {stack : List (Nat × Nat)}

variable (edges stack) in
theorem search_done_set (hlen : marks.length = n) (hnode : node < n) :
    (search edges (marks.set node .Done) stack).done =
      insert node (search edges marks stack).done := by
  ext id
  rw [Set.mem_insert_iff, mem_search_done, mem_search_done, getD_set_mark marks (by omega)]
  by_cases h : id = node
  · simp [h]
  · simp [h]

theorem search_enter_set (hlen : marks.length = n) (hnode : node < n)
    (hnew : marks.getD node .Unvisited = .Unvisited) :
    (search edges (marks.set node .InProgress) stack).done = (search edges marks stack).done := by
  ext id
  rw [mem_search_done, mem_search_done, getD_set_mark marks (by omega)]
  by_cases h : id = node
  · subst h
    rw [if_pos rfl, hnew]
    simp
  · rw [if_neg h]

/-- A frame with no edge left is closed. -/
theorem turn_finish (hm : Marked n marks ((node, next_edge) :: stack))
    (hend : (succOf edges node)[next_edge]? = none) :
    Turn (succOf edges) (search edges marks ((node, next_edge) :: stack))
      (search edges (marks.set node .Done) stack) := by
  have hdrop : (succOf edges node).drop next_edge = [] :=
    List.drop_eq_nil_of_le (List.getElem?_eq_none_iff.mp hend)
  have hdone := search_done_set edges stack hm.length
    (hm.known node List.mem_cons_self)
  have hto : search edges (marks.set node .Done) stack =
      ⟨(search edges marks stack).stack, insert node (search edges marks stack).done⟩ := by
    rw [← hdone]
    rfl
  have hfrom : search edges marks ((node, next_edge) :: stack) =
      ⟨(node, []) :: (search edges marks stack).stack, (search edges marks stack).done⟩ := by
    simp only [search, List.map_cons, hdrop]
  rw [hfrom, hto]
  exact .finish

theorem search_next {neighbor : Nat} (hget : (succOf edges node)[next_edge]? = some neighbor) :
    search edges marks ((node, next_edge) :: stack) =
      ⟨(node, neighbor :: (succOf edges node).drop (next_edge + 1)) ::
        (search edges marks stack).stack, (search edges marks stack).done⟩ := by
  obtain ⟨hlt, heq⟩ := List.getElem?_eq_some_iff.mp hget
  simp only [search, List.map_cons, List.drop_eq_getElem_cons hlt, heq]

theorem marked_finish (hm : Marked n marks ((node, next_edge) :: stack))
    (hnew : node ∉ stack.map Prod.fst) : Marked n (marks.set node .Done) stack := by
  have hnode := hm.known node List.mem_cons_self
  constructor
  · rw [List.length_set, hm.length]
  · exact fun id hid => hm.known id (List.mem_cons_of_mem _ hid)
  · intro id
    rw [getD_set_mark marks (by rw [hm.length]; exact hnode)]
    by_cases h : id = node
    · subst h
      rw [if_pos rfl]
      exact ⟨nofun, fun hid => absurd hid hnew⟩
    · rw [if_neg h, hm.open_, List.map_cons, List.mem_cons]
      exact or_iff_right h

theorem marked_enter {neighbor : Nat} (hm : Marked n marks ((node, next_edge) :: stack))
    (hlt : neighbor < n) :
    Marked n (marks.set neighbor .InProgress)
      ((neighbor, 0) :: (node, next_edge + 1) :: stack) := by
  constructor
  · rw [List.length_set, hm.length]
  · intro id hid
    rcases List.mem_cons.mp hid with rfl | hid
    · exact hlt
    · exact hm.known id hid
  · intro id
    rw [getD_set_mark marks (by rw [hm.length]; exact hlt), List.map_cons, List.mem_cons]
    by_cases h : id = neighbor
    · rw [if_pos h]
      exact ⟨fun _ => .inl h, fun _ => rfl⟩
    · rw [if_neg h, hm.open_]
      exact (or_iff_right h).symm

/-- How a walk ends: all that was open is done, or an edge led back. -/
def Ends (n : Nat) (edges : List (List Nat)) (marks : List Mark) (stack : List (Nat × Nat))
    (result : Except SpecError (Option (List Mark))) : Prop :=
  (∃ last, result = .ok (some last) ∧ Marked n last [] ∧
    Sound (succOf edges) (search edges last []) ∧
    (search edges marks stack).done ⊆ (search edges last []).done ∧
    ∀ id ∈ stack.map Prod.fst, id ∈ (search edges last []).done) ∨
  ∃ state rule, result = .error (.CyclicGoto state rule) ∧
    ∃ id, Relation.TransGen (Edge (succOf edges)) id id

/-- The walk ends before its turns do. -/
theorem gotoWalk_ends (hedges : ∀ id, ∀ next ∈ succOf edges id, next < n) {turns : Nat}
    (hm : Marked n marks stack) (hs : Sound (succOf edges) (search edges marks stack))
    (hcost : (search edges marks stack).cost (Finset.range n) (succOf edges) < turns) :
    Ends n edges marks stack (gotoWalk edges owner turns marks stack) := by
  induction turns generalizing marks stack with
  | zero => omega
  | succ turns ih =>
    rcases stack with _ | ⟨⟨node, next_edge⟩, stack⟩
    · exact .inl ⟨marks, rfl, hm, hs, subset_rfl, fun id hid => by cases hid⟩
    -- a turn of the search, and what the walk does from there
    have hgo : ∀ marks' stack', gotoWalk edges owner (turns + 1) marks ((node, next_edge) :: stack) =
          gotoWalk edges owner turns marks' stack' →
        Marked n marks' stack' →
        Turn (succOf edges) (search edges marks ((node, next_edge) :: stack))
          (search edges marks' stack') →
        Ends n edges marks ((node, next_edge) :: stack)
          (gotoWalk edges owner (turns + 1) marks ((node, next_edge) :: stack)) := by
      intro marks' stack' hwalk hm' hturn
      have hless : (search edges marks' stack').cost (Finset.range n) (succOf edges) + 1 = _ :=
        hturn.cost (fun v w hw => Finset.mem_range.mpr (hedges v w hw)) hs
      have hrest := ih hm' (hs.turn hturn) (by omega)
      rw [← hwalk] at hrest
      rcases hrest with ⟨last, hend, hmarked, hsound, hdone, hall⟩ | hcycle
      · refine Or.inl ⟨last, hend, hmarked, hsound,
          fun id hid => hdone (hturn.done_subset hid), ?_⟩
        intro id hid
        rw [← search_open edges marks] at hid
        rcases hturn.open_or_done hid with hid | hid
        · rw [search_open] at hid
          exact hall id hid
        · exact hdone hid
      · exact Or.inr hcycle
    cases hget : (succOf edges node)[next_edge]? with
    | none =>
      have hnew : node ∉ stack.map Prod.fst := by
        have hopened := hs.opened
        simp only [search, List.map_cons] at hopened
        have hfresh := hopened.1.2
        rwa [List.map_map] at hfresh
      refine hgo _ _ ?_ (marked_finish hm hnew) (turn_finish hm hget)
      unfold succOf at hget
      rw [gotoWalk, hget]
    | some neighbor =>
      have hfrom : search edges marks ((node, next_edge) :: stack) = _ := search_next hget
      have hlt : neighbor < n := hedges node neighbor (List.mem_of_getElem? hget)
      have hget' := hget
      unfold succOf at hget'
      cases hmark : marks.getD neighbor .Unvisited with
      | InProgress =>
        refine Or.inr ⟨(owner node neighbor).1, (owner node neighbor).2, ?_, hs.cycle ?_⟩
        · rw [gotoWalk, hget']
          dsimp only
          rw [hmark]
        · refine ⟨node, neighbor, _, _, by rw [hfrom], ?_⟩
          have hopen := (hm.open_ neighbor).mp hmark
          rw [← search_open edges marks, hfrom] at hopen
          exact hopen
      | Unvisited =>
        have hclosed : neighbor ∉ (search edges marks stack).done := by
          intro hdone
          rw [mem_search_done, hmark] at hdone
          cases hdone
        have hunopened : neighbor ∉ node :: (search edges marks stack).stack.map Prod.fst := by
          intro hopen
          have hmem : neighbor ∈ ((node, next_edge) :: stack).map Prod.fst := by
            rw [← search_open edges marks, hfrom]
            exact hopen
          rw [← hm.open_, hmark] at hmem
          cases hmem
        refine hgo (marks.set neighbor .InProgress)
          ((neighbor, 0) :: (node, next_edge + 1) :: stack) ?_ (marked_enter hm hlt) ?_
        · rw [gotoWalk, hget']
          dsimp only
          rw [hmark]
        · have hto : search edges (marks.set neighbor .InProgress)
              ((neighbor, 0) :: (node, next_edge + 1) :: stack) =
              ⟨(neighbor, succOf edges neighbor) ::
                (node, (succOf edges node).drop (next_edge + 1)) ::
                (search edges marks stack).stack, (search edges marks stack).done⟩ := by
            rw [← search_enter_set hm.length hlt hmark]
            rfl
          rw [hfrom, hto]
          exact .enter hclosed hunopened
      | Done =>
        refine hgo marks ((node, next_edge + 1) :: stack) ?_ ?_ ?_
        · rw [gotoWalk, hget']
          dsimp only
          rw [hmark]
        · exact ⟨hm.length, hm.known, hm.open_⟩
        · rw [hfrom]
          exact .skip hmark

/-- The walks from all states end with every one of them done, or at a cycle. -/
theorem gotoWalks_ends (v1 : GrammarSpecV1) (owner : Nat → Nat → String × Nat)
    (hedges : ∀ id, ∀ next ∈ succOf edges id, next < n)
    (hbudget : (Finset.range n).sum (fun id => (succOf edges id).length + 1) ≤
      GRAPH_TRAVERSAL_BUDGET)
    (starts : List Nat) (hstarts : ∀ id ∈ starts, id < n) (hm : Marked n marks [])
    (hs : Sound (succOf edges) (search edges marks [])) :
    (gotoWalks v1 edges owner starts marks = .ok () ∧
      ∃ last, Sound (succOf edges) (search edges last []) ∧
        (search edges marks []).done ⊆ (search edges last []).done ∧
        ∀ id ∈ starts, id ∈ (search edges last []).done) ∨
    ∃ state rule, gotoWalks v1 edges owner starts marks = .error (.CyclicGoto state rule) ∧
      ∃ id, Relation.TransGen (Edge (succOf edges)) id id := by
  induction starts generalizing marks with
  | nil => exact .inl ⟨rfl, marks, hs, subset_rfl, fun id hid => by cases hid⟩
  | cons start rest ih =>
    have hlt : start < n := hstarts start List.mem_cons_self
    have hrest : ∀ id ∈ rest, id < n := fun id hid => hstarts id (List.mem_cons_of_mem _ hid)
    by_cases hmark : marks.getD start .Unvisited = .Unvisited
    · -- a walk from a state that no walk before has met
      have hopened : Marked n (marks.set start .InProgress) [(start, 0)] := by
        refine ⟨by rw [List.length_set, hm.length], ?_, ?_⟩
        · intro id hid
          rwa [List.mem_singleton.mp hid]
        · intro id
          rw [getD_set_mark marks (by rw [hm.length]; exact hlt)]
          by_cases h : id = start
          · simp [h]
          · rw [if_neg h, hm.open_]
            simp [h]
      have hfrom : search edges (marks.set start .InProgress) [(start, 0)] =
          ⟨[(start, succOf edges start)], (search edges marks []).done⟩ := by
        rw [← search_enter_set hm.length hlt hmark]
        rfl
      have hclosed : start ∉ (search edges marks []).done := by
        rw [mem_search_done, hmark]
        nofun
      have hsound : Sound (succOf edges) (search edges (marks.set start .InProgress)
          [(start, 0)]) := by
        rw [hfrom]
        refine ⟨⟨⟨hclosed, List.not_mem_nil⟩, fun t ht => .inl ht, ?_, trivial⟩, hs.closed,
          hs.acyclic⟩
        rintro t (ht | ht)
        · exact ht
        · cases ht
      have hcost : (search edges (marks.set start .InProgress) [(start, 0)]).cost
          (Finset.range n) (succOf edges) < GRAPH_TRAVERSAL_BUDGET + 1 := by
        rw [hfrom]
        have hstart : (⟨[(start, succOf edges start)], (search edges marks []).done⟩ :
            Search Nat).cost (Finset.range n) (succOf edges) ≤ _ :=
          cost_start (Finset.mem_range.mpr hlt)
        omega
      have hwalk : Ends n edges _ _ (gotoWalk edges owner _ _ _) :=
        gotoWalk_ends hedges hopened hsound hcost
      rcases hwalk with ⟨last, hend, hmarked, hlast, hgrow, hall⟩ | ⟨state, rule, hend, hcycle⟩
      · have hone : gotoWalks v1 edges owner (start :: rest) marks =
            gotoWalks v1 edges owner rest last := by
          rw [gotoWalks, if_neg (not_not.mpr hmark), hend]
          rfl
        rw [hone]
        rw [hfrom] at hgrow
        rcases ih hrest hmarked hlast with ⟨hok, final, hfinal, hdone, hstarted⟩ | hcycle
        · refine .inl ⟨hok, final, hfinal, fun id hid => hdone (hgrow hid), ?_⟩
          intro id hid
          rcases List.mem_cons.mp hid with rfl | hid
          · exact hdone (hall id List.mem_cons_self)
          · exact hstarted id hid
        · exact .inr hcycle
      · refine .inr ⟨state, rule, ?_, hcycle⟩
        rw [gotoWalks, if_neg (not_not.mpr hmark), hend]
        rfl
    · have hone : gotoWalks v1 edges owner (start :: rest) marks =
          gotoWalks v1 edges owner rest marks := by
        rw [gotoWalks, if_pos hmark]
      have hdone : start ∈ (search edges marks []).done := by
        rw [mem_search_done]
        have hopen := hm.open_ start
        cases hcase : marks.getD start .Unvisited with
        | Unvisited => exact absurd hcase hmark
        | InProgress => exact absurd (hopen.mp hcase) List.not_mem_nil
        | Done => rfl
      rw [hone]
      rcases ih hrest hm hs with ⟨hok, final, hfinal, hgrow, hstarted⟩ | hcycle
      · refine .inl ⟨hok, final, hfinal, hgrow, ?_⟩
        intro id hid
        rcases List.mem_cons.mp hid with rfl | hid
        · exact hgrow hdone
        · exact hstarted id hid
      · exact .inr hcycle

end walk

/-! ## The check finds the cycles -/

theorem gotoEdges_few {v1 : GrammarSpecV1} {a : CompiledAutomaton} (ha : IsLowered v1 a)
    (id : Nat) : (succOf (gotoEdges v1) id).length ≤ MAX_RULES_PER_STATE := by
  unfold succOf gotoEdges
  rw [List.getD_eq_getElem?_getD, List.getElem?_map]
  cases h : v1.states[id]? with
  | none => exact Nat.zero_le _
  | some entry =>
    obtain ⟨frame_ids, -, -, hstates⟩ := ha.states
    obtain ⟨compiled, -, hstate⟩ := forall₂_mem_left hstates (List.mem_of_getElem? h)
    rw [Option.map_some, Option.getD_some, List.length_map]
    refine le_trans (List.length_filterMap_le _ _) ?_
    rw [List.length_zipIdx]
    exact hstate.few_rules

/-- Every table is small enough for the walk. -/
theorem walk_within_budget {v1 : GrammarSpecV1} {a : CompiledAutomaton} (ha : IsLowered v1 a) :
    (Finset.range v1.states.length).sum (fun id => (succOf (gotoEdges v1) id).length + 1) ≤
      GRAPH_TRAVERSAL_BUDGET := by
  have heach : ∀ id ∈ Finset.range v1.states.length,
      (succOf (gotoEdges v1) id).length + 1 ≤ MAX_RULES_PER_STATE + 1 :=
    fun id _ => Nat.succ_le_succ (gotoEdges_few ha id)
  have hsum := Finset.sum_le_card_nsmul _ _ _ heach
  rw [Finset.card_range, smul_eq_mul] at hsum
  have hfew := Nat.mul_le_mul_right (MAX_RULES_PER_STATE + 1) ha.few_states
  calc (Finset.range v1.states.length).sum (fun id => (succOf (gotoEdges v1) id).length + 1)
      ≤ MAX_STATES * (MAX_RULES_PER_STATE + 1) := le_trans hsum hfew
    _ ≤ GRAPH_TRAVERSAL_BUDGET := by decide

/-- The check passes a table without a cycle of `Goto` rules, and it reports
every other as cyclic. -/
theorem checkGotoAcyclic_ends {v1 : GrammarSpecV1} {a : CompiledAutomaton} (ha : IsLowered v1 a) :
    (checkGotoAcyclic v1 (stateIds v1.states) = .ok () ∧
      ∀ id, ¬ Relation.TransGen (Edge (succOf (gotoEdges v1))) id id) ∨
    ∃ state rule, checkGotoAcyclic v1 (stateIds v1.states) = .error (.CyclicGoto state rule) ∧
      GotoCycle v1 := by
  have hblank : ∀ id, (List.replicate v1.states.length Mark.Unvisited).getD id .Unvisited =
      .Unvisited := by
    intro id
    rw [List.getD_eq_getElem?_getD, List.getElem?_getD_replicate_default_eq]
  have hmarked : Marked v1.states.length (List.replicate v1.states.length .Unvisited) [] := by
    refine ⟨List.length_replicate, nofun, fun id => ?_⟩
    rw [hblank]
    exact ⟨nofun, nofun⟩
  have hnone : ∀ id, id ∉ (search (gotoEdges v1)
      (List.replicate v1.states.length .Unvisited) []).done := by
    intro id
    rw [mem_search_done, hblank]
    nofun
  have hsound : Sound (succOf (gotoEdges v1))
      (search (gotoEdges v1) (List.replicate v1.states.length .Unvisited) []) :=
    ⟨trivial, fun id hid => absurd hid (hnone id), fun id hid => absurd hid (hnone id)⟩
  have hwalks := gotoWalks_ends v1 (owningRule v1 (stateIds v1.states))
    (fun _ _ hnext => succOf_lt hnext) (walk_within_budget ha) (List.range v1.states.length)
    (fun id hid => List.mem_range.mp hid) hmarked hsound
  unfold checkGotoAcyclic
  rw [stateIds_length]
  rcases hwalks with ⟨hok, last, hlast, -, hall⟩ | ⟨state, rule, herr, id, hcycle⟩
  · refine .inl ⟨hok, fun id hcycle => ?_⟩
    by_cases hid : id < v1.states.length
    · exact hlast.acyclic id (hall id (List.mem_range.mpr hid)) hcycle
    · -- no edge leaves an id that is none of the states
      obtain ⟨next, hedge, -⟩ := Relation.TransGen.head'_iff.mp hcycle
      obtain ⟨entry, hentry, -⟩ := mem_succOf.mp hedge
      obtain ⟨hlt, -⟩ := List.getElem?_eq_some_iff.mp hentry
      exact hid hlt
  · exact .inr ⟨state, rule, herr, gotoCycle_of_ids hcycle⟩

/-! ## A step is what the rules decide -/

/-- The move of an action that is no `Goto`. -/
def CompiledAction.move : CompiledAction → Option Step
  | .Next s => some (.Next s)
  | .Push f s => some (.Push f s)
  | .Pop s => some (.Pop s)
  | .Goto _ => none
  | .Dead => some .Dead

/-- The first rules that match decide, with every `Goto` followed and no
bound on them. The number counts the states that were asked. -/
inductive DecidesIn (a : CompiledAutomaton) (top : Option Nat) (byte : UInt8) :
    Nat → Nat → Step → Prop
  | unknown {id} : a.states[id]? = none → DecidesIn a top byte 1 id .Dead
  | unmatched {id compiled} : a.states[id]? = some compiled →
      CompiledAutomaton.select compiled.rules top byte = none → DecidesIn a top byte 1 id .Dead
  | matched {id compiled rule move} : a.states[id]? = some compiled →
      CompiledAutomaton.select compiled.rules top byte = some rule →
      rule.action.move = some move → DecidesIn a top byte 1 id move
  | goto {id compiled rule next asked move} : a.states[id]? = some compiled →
      CompiledAutomaton.select compiled.rules top byte = some rule →
      rule.action = .Goto next → DecidesIn a top byte asked next move →
      DecidesIn a top byte (asked + 1) id move

/-- The rules decide on one move. -/
theorem DecidesIn.unique {a : CompiledAutomaton} {top : Option Nat} {byte : UInt8}
    {asked asked' id : Nat} {move move' : Step} (h : DecidesIn a top byte asked id move)
    (h' : DecidesIn a top byte asked' id move') : move = move' := by
  induction h generalizing asked' with
  | unknown hid =>
    cases h' with
    | unknown => rfl
    | unmatched => rfl
    | matched hid' => rw [hid] at hid'; cases hid'
    | goto hid' => rw [hid] at hid'; cases hid'
  | unmatched hid hrule =>
    cases h' with
    | unknown => rfl
    | unmatched => rfl
    | matched hid' hrule' =>
      obtain rfl := Option.some.inj (hid.symm.trans hid')
      rw [hrule] at hrule'
      cases hrule'
    | goto hid' hrule' =>
      obtain rfl := Option.some.inj (hid.symm.trans hid')
      rw [hrule] at hrule'
      cases hrule'
  | matched hid hrule hmove =>
    cases h' with
    | unknown hid' => rw [hid] at hid'; cases hid'
    | unmatched hid' hrule' =>
      obtain rfl := Option.some.inj (hid.symm.trans hid')
      rw [hrule] at hrule'
      cases hrule'
    | matched hid' hrule' hmove' =>
      obtain rfl := Option.some.inj (hid.symm.trans hid')
      obtain rfl := Option.some.inj (hrule.symm.trans hrule')
      exact Option.some.inj (hmove.symm.trans hmove')
    | goto hid' hrule' hgoto =>
      obtain rfl := Option.some.inj (hid.symm.trans hid')
      obtain rfl := Option.some.inj (hrule.symm.trans hrule')
      rw [hgoto] at hmove
      cases hmove
  | goto hid hrule hgoto _ ih =>
    cases h' with
    | unknown hid' => rw [hid] at hid'; cases hid'
    | unmatched hid' hrule' =>
      obtain rfl := Option.some.inj (hid.symm.trans hid')
      rw [hrule] at hrule'
      cases hrule'
    | matched hid' hrule' hmove' =>
      obtain rfl := Option.some.inj (hid.symm.trans hid')
      obtain rfl := Option.some.inj (hrule.symm.trans hrule')
      rw [hgoto] at hmove'
      cases hmove'
    | goto hid' hrule' hgoto' hnext =>
      obtain rfl := Option.some.inj (hid.symm.trans hid')
      obtain rfl := Option.some.inj (hrule.symm.trans hrule')
      rw [hgoto] at hgoto'
      obtain rfl := CompiledAction.Goto.inj hgoto'
      exact ih hnext

section table

variable {v1 : GrammarSpecV1} {a : CompiledAutomaton} {id next : Nat} {compiled : CompiledState}
  {rule : CompiledRule} {top : Option Nat} {byte : UInt8}

theorem select_mem {compiled : CompiledState} (h : CompiledAutomaton.select compiled.rules top byte = some rule) :
    rule ∈ compiled.rules ∧ rule.byte_test.matches byte = true ∧
      rule.guard.matches top = true := by
  have hmatch := List.find?_some h
  rw [Bool.and_eq_true] at hmatch
  exact ⟨List.mem_of_find?_eq_some h, hmatch⟩

/-- A `Goto` of the table is an edge that the walk follows. -/
theorem IsLowered.goto_edge (ha : IsLowered v1 a) (hid : a.states[id]? = some compiled)
    (hrule : rule ∈ compiled.rules) (hgoto : rule.action = .Goto next) :
    next ∈ succOf (gotoEdges v1) id := by
  obtain ⟨frame_ids, entry, hentry, hstate⟩ := ha.state_at hid
  obtain ⟨source, hsource, hlowers⟩ := forall₂_mem_right hstate.rules hrule
  obtain ⟨i, haction⟩ := hlowers.action
  rw [hgoto] at haction
  refine mem_succOf.mpr ⟨entry, hentry, source, hsource, ?_⟩
  cases hkind : source.action with
  | Goto target =>
    rw [hkind] at haction
    obtain ⟨found, hfound, heq⟩ := map_ok haction
    obtain rfl := CompiledAction.Goto.inj heq
    exact ⟨target, rfl, resolve_ok.mp hfound⟩
  | Next target =>
    rw [hkind] at haction
    obtain ⟨_, _, heq⟩ := map_ok haction
    cases heq
  | Push frame target =>
    rw [hkind] at haction
    obtain ⟨_, _, haction⟩ := bind_ok haction
    obtain ⟨_, _, haction⟩ := bind_ok haction
    cases haction
  | Pop target =>
    rw [hkind] at haction
    unfold compileAction at haction
    dsimp only at haction
    split at haction
    · cases haction
    · obtain ⟨_, _, heq⟩ := map_ok haction
      cases heq
  | Dead =>
    rw [hkind] at haction
    cases haction

/-- The guard of a pop proves that there is a frame. -/
theorem IsLowered.pop_guarded (ha : IsLowered v1 a) (hid : a.states[id]? = some compiled)
    (hrule : rule ∈ compiled.rules) (hpop : rule.action = .Pop next) :
    rule.guard.provesFrame = true := by
  obtain ⟨frame_ids, entry, -, hstate⟩ := ha.state_at hid
  obtain ⟨source, -, hlowers⟩ := forall₂_mem_right hstate.rules hrule
  obtain ⟨i, haction⟩ := hlowers.action
  rw [hpop] at haction
  cases hkind : source.action with
  | Pop target =>
    rw [hkind] at haction
    unfold compileAction at haction
    cases hguard : rule.guard.provesFrame with
    | true => rfl
    | false => simp [hguard] at haction
  | Goto target =>
    rw [hkind] at haction
    obtain ⟨_, _, heq⟩ := map_ok haction
    cases heq
  | Next target =>
    rw [hkind] at haction
    obtain ⟨_, _, heq⟩ := map_ok haction
    cases heq
  | Push frame target =>
    rw [hkind] at haction
    obtain ⟨_, _, haction⟩ := bind_ok haction
    obtain ⟨_, _, haction⟩ := bind_ok haction
    cases haction
  | Dead =>
    rw [hkind] at haction
    cases haction

/-- No pop is selected on an empty stack. -/
theorem IsLowered.pop_has_frame (ha : IsLowered v1 a) (hid : a.states[id]? = some compiled)
    (hselect : CompiledAutomaton.select compiled.rules top byte = some rule)
    (hpop : rule.action = .Pop next) : top ≠ none := by
  rintro rfl
  obtain ⟨hrule, -, hmatch⟩ := select_mem hselect
  have hguard := ha.pop_guarded hid hrule hpop
  cases hkind : rule.guard with
  | StackTopIs frame => simp [hkind, CompiledGuard.matches] at hmatch
  | StackNonEmpty => simp [hkind, CompiledGuard.matches] at hmatch
  | Always => simp [hkind, CompiledGuard.provesFrame] at hguard
  | StackTopIsNot frame => simp [hkind, CompiledGuard.provesFrame] at hguard
  | StackEmpty => simp [hkind, CompiledGuard.provesFrame] at hguard

/-- The loop decides before its turns run out. The states on the `path` were
asked before, they are all different, and so they leave turns enough. -/
theorem stepFrom_decides (ha : IsLowered v1 a)
    (hacyclic : ∀ id, ¬ Relation.TransGen (Edge (succOf (gotoEdges v1))) id id)
    {fuel : Nat} {path : List Nat} (hnodup : path.Nodup)
    (hlt : ∀ p ∈ path, p < a.states.length)
    (hreach : ∀ p ∈ path, Relation.TransGen (Edge (succOf (gotoEdges v1))) p id)
    (hfuel : a.states.length < path.length + fuel) :
    ∃ asked ≤ fuel, DecidesIn a top byte asked id (a.stepFrom top byte fuel id) := by
  induction fuel generalizing id path with
  | zero =>
    have hsubset : path ⊆ List.range a.states.length :=
      fun p hp => List.mem_range.mpr (hlt p hp)
    have hle := (hnodup.subperm hsubset).length_le
    rw [List.length_range] at hle
    omega
  | succ fuel ih =>
    cases hid : a.states[id]? with
    | none =>
      refine ⟨1, by omega, ?_⟩
      rw [CompiledAutomaton.stepFrom, hid]
      exact .unknown hid
    | some compiled =>
      cases hselect : CompiledAutomaton.select compiled.rules top byte with
      | none =>
        refine ⟨1, by omega, ?_⟩
        rw [CompiledAutomaton.stepFrom, hid]
        simp only [hselect, Option.map_none]
        exact .unmatched hid hselect
      | some rule =>
        cases haction : rule.action with
        | Next n =>
          refine ⟨1, by omega, ?_⟩
          rw [CompiledAutomaton.stepFrom, hid]
          simp only [hselect, Option.map_some, haction]
          exact .matched hid hselect (by rw [haction]; rfl)
        | Push f n =>
          refine ⟨1, by omega, ?_⟩
          rw [CompiledAutomaton.stepFrom, hid]
          simp only [hselect, Option.map_some, haction]
          exact .matched hid hselect (by rw [haction]; rfl)
        | Pop n =>
          refine ⟨1, by omega, ?_⟩
          have hframe : top.isNone = false := by
            cases top with
            | none => exact absurd rfl (ha.pop_has_frame hid hselect haction)
            | some f => rfl
          rw [CompiledAutomaton.stepFrom, hid]
          simp only [hselect, Option.map_some, haction, hframe]
          exact .matched hid hselect (by rw [haction]; rfl)
        | Dead =>
          refine ⟨1, by omega, ?_⟩
          rw [CompiledAutomaton.stepFrom, hid]
          simp only [hselect, Option.map_some, haction]
          exact .matched hid hselect (by rw [haction]; rfl)
        | Goto n =>
          have hedge := ha.goto_edge hid (select_mem hselect).1 haction
          have hnew : id ∉ path := fun hmem => hacyclic id (hreach id hmem)
          obtain ⟨hidlt, -⟩ := List.getElem?_eq_some_iff.mp hid
          have hrest : ∃ asked ≤ fuel, DecidesIn a top byte asked n (a.stepFrom top byte fuel n) :=
            ih (List.nodup_cons.mpr ⟨hnew, hnodup⟩)
            (by
              intro p hp
              rcases List.mem_cons.mp hp with rfl | hp
              · exact hidlt
              · exact hlt p hp)
            (by
              intro p hp
              rcases List.mem_cons.mp hp with rfl | hp
              · exact .single hedge
              · exact .tail (hreach p hp) hedge)
            (by rw [List.length_cons]; omega)
          obtain ⟨asked, hasked, hdecides⟩ := hrest
          refine ⟨asked + 1, by omega, ?_⟩
          rw [CompiledAutomaton.stepFrom, hid]
          simp only [hselect, Option.map_some, haction]
          exact .goto hid hselect haction hdecides

/-- A step is what the rules decide, within the turns of the loop. -/
theorem step_decides (ha : IsLowered v1 a)
    (hacyclic : ∀ id, ¬ Relation.TransGen (Edge (succOf (gotoEdges v1))) id id) (id : Nat)
    (top : Option Nat) (byte : UInt8) :
    ∃ asked ≤ a.states.length + 1, DecidesIn a top byte asked id (a.step id top byte) :=
  stepFrom_decides ha hacyclic (List.nodup_nil : ([] : List Nat).Nodup) nofun nofun (by simp)

end table

/-! ## Specs that compile -/

theorem compile_ok {v1 : GrammarSpecV1} {a : CompiledAutomaton}
    (h : CompiledAutomaton.compile (.V1 v1) = .ok a) :
    lowered v1 = .ok a ∧ checkGotoAcyclic v1 (stateIds v1.states) = .ok () := by
  rw [CompiledAutomaton.compile, compileV1_eq] at h
  obtain ⟨automaton, hlowered, h⟩ := bind_ok h
  obtain ⟨_, hacyclic, h⟩ := bind_ok h
  obtain ⟨_, _, h⟩ := bind_ok h
  obtain rfl := Except.ok.inj h
  exact ⟨hlowered, hacyclic⟩

/-- A spec is refused as cyclic exactly when it can be lowered and its `Goto`
rules have a cycle. -/
theorem compile_cyclic_iff (v1 : GrammarSpecV1) :
    (∃ state rule, CompiledAutomaton.compile (.V1 v1) = .error (.CyclicGoto state rule)) ↔
      (∃ a, lowered v1 = .ok a) ∧ GotoCycle v1 := by
  rw [CompiledAutomaton.compile, compileV1_eq]
  cases hlowered : lowered v1 with
  | error err =>
    have hearly := lowered_failsEarly v1 err hlowered
    constructor
    · rintro ⟨state, rule, h⟩
      obtain rfl := Except.error.inj h
      cases hearly
    · rintro ⟨⟨a, h⟩, -⟩
      cases h
  | ok a =>
    have ha := lowered_ok hlowered
    rw [ok_bind]
    rcases checkGotoAcyclic_ends ha with ⟨hok, hacyclic⟩ | ⟨state, rule, herr, hcycle⟩
    · rw [hok, ok_bind]
      constructor
      · rintro ⟨state, rule, h⟩
        unfold checkReachableAccept at h
        split at h
        · cases h
        · cases h
      · rintro ⟨-, hcycle⟩
        obtain ⟨id, hid⟩ := ids_of_gotoCycle ha hcycle
        exact absurd hid (hacyclic id)
    · rw [herr]
      exact ⟨fun _ => ⟨⟨a, rfl⟩, hcycle⟩, fun _ => ⟨state, rule, rfl⟩⟩

/-- A spec that passes what is checked before is refused as cyclic exactly
when its `Goto` rules have a cycle. In a table that is accepted every step is
what its rules decide with no bound, within the turns of the loop, and no
rule pops an empty stack. -/
theorem goto_rules_end (v1 : GrammarSpecV1) :
    ((∃ state rule, CompiledAutomaton.compile (.V1 v1) = .error (.CyclicGoto state rule)) ↔
      (∃ a, lowered v1 = .ok a) ∧ GotoCycle v1) ∧
    ∀ a, CompiledAutomaton.compile (.V1 v1) = .ok a →
      (∀ id top byte,
        (∃ asked ≤ a.states.length + 1, DecidesIn a top byte asked id (a.step id top byte)) ∧
        ∀ asked move, DecidesIn a top byte asked id move → move = a.step id top byte) ∧
      ∀ (id : Nat) (compiled : CompiledState) (top : Option Nat) (byte : UInt8)
        (rule : CompiledRule) (next : Nat), a.states[id]? = some compiled →
        CompiledAutomaton.select compiled.rules top byte = some rule →
        rule.action = .Pop next → top ≠ none := by
  refine ⟨compile_cyclic_iff v1, fun a hcompile => ?_⟩
  obtain ⟨hlowered, hchecked⟩ := compile_ok hcompile
  have ha := lowered_ok hlowered
  have hacyclic : ∀ id, ¬ Relation.TransGen (Edge (succOf (gotoEdges v1))) id id := by
    rcases checkGotoAcyclic_ends ha with ⟨-, hacyclic⟩ | ⟨state, rule, herr, -⟩
    · exact hacyclic
    · rw [hchecked] at herr
      cases herr
  refine ⟨fun id top byte => ?_, fun id compiled top byte rule next => ha.pop_has_frame⟩
  obtain ⟨asked, hasked, hdecides⟩ := step_decides ha hacyclic id top byte
  exact ⟨⟨asked, hasked, hdecides⟩, fun asked' move h => h.unique hdecides⟩

/-- One state that goes to itself, by the same rule twice. -/
def loopedTwice : GrammarSpecV1 where
  start := "s"
  states := [("s", {
    accepting := true
    rules := [{ byte_test := .Any, action := .Goto "s" },
      { byte_test := .Any, action := .Goto "s" }] })]
  sorted := by simp

/-- The repeated rule is found before the cycle is, and hides it. -/
theorem a_repeated_rule_hides_the_cycle :
    ¬ ∀ v1 : GrammarSpecV1, WithinLimits v1 → NamesResolve v1 →
      ((∃ state rule, CompiledAutomaton.compile (.V1 v1) = .error (.CyclicGoto state rule)) ↔
        GotoCycle v1) := by
  intro hall
  have hlimits : WithinLimits loopedTwice := by
    constructor <;> decide
  have hnames : NamesResolve loopedTwice := by
    constructor <;> decide
  have hcycle : GotoCycle loopedTwice :=
    ⟨"s", .single ⟨_, List.mem_cons_self, rfl, _, List.mem_cons_self, rfl⟩⟩
  have hcompile : CompiledAutomaton.compile (.V1 loopedTwice) =
      .error (.AmbiguousTransition "s" 0 1) := by decide +kernel
  obtain ⟨state, rule, hcyclic⟩ := (hall loopedTwice hlimits hnames).mpr hcycle
  rw [hcompile] at hcyclic
  cases hcyclic

end purecard.lower
