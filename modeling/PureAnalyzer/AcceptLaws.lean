-- The law of the check that something is accepted. A table is refused by it
-- only when the states that the rules reach from the start, whatever their
-- guards, are none of them accepting, and so no run over the table accepts.
import PureAnalyzer.GotoLaws

namespace purecard.lower

open pushdown pda spec

/-! ## Sets of states that nothing leaves -/

/-- No rule leaves these states and none of them accepts. -/
structure Barren (a : CompiledAutomaton) (states : Nat → Prop) : Prop where
  rejects : ∀ id, states id → a.isAcceptingState id = false
  closed : ∀ id compiled rule next, states id → a.states[id]? = some compiled →
    rule ∈ compiled.rules → rule.action.target = some next → states next

variable {a : CompiledAutomaton} {states : Nat → Prop}

theorem Barren.stepFrom (h : Barren a states) {top : Option Nat} {byte : UInt8} {fuel id : Nat}
    (hid : states id) {next : Nat} (hnext : (a.stepFrom top byte fuel id).target = some next) :
    states next := by
  induction fuel generalizing id with
  | zero => cases hnext
  | succ fuel ih =>
    cases hcompiled : a.states[id]? with
    | none =>
      rw [CompiledAutomaton.stepFrom, hcompiled] at hnext
      cases hnext
    | some compiled =>
      rw [CompiledAutomaton.stepFrom, hcompiled] at hnext
      dsimp only at hnext
      cases hselect : CompiledAutomaton.select compiled.rules top byte with
      | none =>
        rw [hselect] at hnext
        cases hnext
      | some rule =>
        have hrule : rule ∈ compiled.rules := List.mem_of_find?_eq_some hselect
        have hclosed := h.closed id compiled rule
        rw [hselect, Option.map_some] at hnext
        cases haction : rule.action with
        | Next n =>
          rw [haction] at hnext
          obtain rfl := Option.some.inj hnext
          exact hclosed n hid hcompiled hrule (by rw [haction]; rfl)
        | Push f n =>
          rw [haction] at hnext
          obtain rfl := Option.some.inj hnext
          exact hclosed n hid hcompiled hrule (by rw [haction]; rfl)
        | Pop n =>
          rw [haction] at hnext
          dsimp only at hnext
          split at hnext
          · cases hnext
          · obtain rfl := Option.some.inj hnext
            exact hclosed n hid hcompiled hrule (by rw [haction]; rfl)
        | Goto n =>
          rw [haction] at hnext
          exact ih (hclosed n hid hcompiled hrule (by rw [haction]; rfl)) hnext
        | Dead =>
          rw [haction] at hnext
          cases hnext

/-- A run that starts in such a set never leaves it. -/
theorem Barren.run (h : Barren a states) {c d : Config Nat Nat} {w : List UInt8}
    (hc : states c.state) (hrun : c.run a.step w = some d) : states d.state := by
  refine run_keeps (P := fun c => states c.state) (fun c b d hc hd => ?_) hc hrun
  exact h.stepFrom hc (advance_target hd)

theorem Barren.not_accepting (h : Barren a states) {c d : Config Nat Nat} {w : List UInt8}
    (hc : states c.state) (hrun : c.run a.step w = some d) :
    (RtnPda.mk a d).isAccepting = false := by
  unfold RtnPda.isAccepting
  rw [h.rejects d.state (h.run hc hrun), Bool.and_false]

/-! ## The search -/

/-- What stacking the targets of some rules does: they are marked, only those
on the stack are marked anew, and as many are unmarked and stacked as before. -/
structure Stacked (rules : List CompiledRule) (seen : List Bool) (stack : List Nat)
    (seen' : List Bool) (stack' : List Nat) : Prop where
  length : seen'.length = seen.length
  kept : ∀ id, seen.getD id false = true → seen'.getD id false = true
  grown : stack ⊆ stack'
  marked : ∀ rule ∈ rules, ∀ next, rule.action.target = some next → seen'.getD next false = true
  new : ∀ id, seen'.getD id false = true → seen.getD id false = true ∨ id ∈ stack'
  known : (∀ id ∈ stack, seen.getD id false = true) → ∀ id ∈ stack', seen'.getD id false = true
  count : seen'.count false + stack'.length = seen.count false + stack.length

theorem getD_set_seen (seen : List Bool) {i : Nat} (hi : i < seen.length) (j : Nat) :
    (seen.set i true).getD j false = if j = i then true else seen.getD j false := by
  rw [List.getD_eq_getElem?_getD, List.getElem?_set, List.getD_eq_getElem?_getD]
  by_cases hj : j = i
  · subst hj
    simp [hi]
  · rw [if_neg fun h => hj h.symm, if_neg hj]

theorem count_set_seen (seen : List Bool) {i : Nat} (hi : i < seen.length)
    (hnew : seen.getD i false = false) :
    (seen.set i true).count false + 1 = seen.count false := by
  have hget : seen[i] = false := by
    rw [List.getD_eq_getElem?_getD, List.getElem?_eq_getElem hi] at hnew
    exact hnew
  have hpos : 0 < seen.count false := by
    rw [List.count_pos_iff, ← hget]
    exact List.getElem_mem hi
  rw [List.count_set hi, hget]
  simp only [beq_self_eq_true, if_true]
  have hdiff : (true == false) = false := rfl
  rw [hdiff, if_neg (by simp)]
  omega

theorem visitTargets_stacked {rules : List CompiledRule} (seen : List Bool) (stack : List Nat)
    (hlt : ∀ rule ∈ rules, ∀ next, rule.action.target = some next → next < seen.length) :
    Stacked rules seen stack (visitTargets rules seen stack).1
      (visitTargets rules seen stack).2 := by
  induction rules generalizing seen stack with
  | nil =>
    exact ⟨rfl, fun _ h => h, List.Subset.refl _, nofun, fun _ h => .inl h, fun h => h, rfl⟩
  | cons rule rules ih =>
    have hrest : ∀ r ∈ rules, ∀ next, r.action.target = some next → next < seen.length :=
      fun r hr => hlt r (List.mem_cons_of_mem _ hr)
    cases htarget : rule.action.target with
    | none =>
      have hone : visitTargets (rule :: rules) seen stack = visitTargets rules seen stack := by
        rw [visitTargets, htarget]
      rw [hone]
      have h := ih seen stack hrest
      refine ⟨h.length, h.kept, h.grown, ?_, h.new, h.known, h.count⟩
      intro r hr next hnext
      rcases List.mem_cons.mp hr with rfl | hr
      · rw [htarget] at hnext
        cases hnext
      · exact h.marked r hr next hnext
    | some next =>
      have hnext : next < seen.length := hlt rule List.mem_cons_self next htarget
      cases hseen : seen.getD next false with
      | true =>
        have hone : visitTargets (rule :: rules) seen stack = visitTargets rules seen stack := by
          rw [visitTargets, htarget]
          simp only [hseen, if_true]
        rw [hone]
        have h := ih seen stack hrest
        refine ⟨h.length, h.kept, h.grown, ?_, h.new, h.known, h.count⟩
        intro r hr n hn
        rcases List.mem_cons.mp hr with rfl | hr
        · rw [htarget] at hn
          obtain rfl := Option.some.inj hn
          exact h.kept next hseen
        · exact h.marked r hr n hn
      | false =>
        have hone : visitTargets (rule :: rules) seen stack =
            visitTargets rules (seen.set next true) (next :: stack) := by
          rw [visitTargets, htarget]
          simp only [hseen, Bool.false_eq_true, if_false]
        rw [hone]
        have h := ih (seen.set next true) (next :: stack) (by rw [List.length_set]; exact hrest)
        have hset := getD_set_seen seen hnext
        have hkept : ∀ id, seen.getD id false = true → (seen.set next true).getD id false = true := by
          intro id hid
          rw [hset, hid]
          split <;> rfl
        have hself : (seen.set next true).getD next false = true := by
          rw [hset, if_pos rfl]
        constructor
        · rw [h.length, List.length_set]
        · exact fun id hid => h.kept id (hkept id hid)
        · exact fun id hid => h.grown (List.mem_cons_of_mem _ hid)
        · intro r hr n hn
          rcases List.mem_cons.mp hr with rfl | hr
          · rw [htarget] at hn
            obtain rfl := Option.some.inj hn
            exact h.kept next hself
          · exact h.marked r hr n hn
        · intro id hid
          rcases h.new id hid with hid | hid
          · rw [hset] at hid
            by_cases heq : id = next
            · exact .inr (h.grown (by rw [heq]; exact List.mem_cons_self))
            · rw [if_neg heq] at hid
              exact .inl hid
          · exact .inr hid
        · intro hstack
          refine h.known fun id hid => ?_
          rcases List.mem_cons.mp hid with rfl | hid
          · exact hself
          · exact hkept id (hstack id hid)
        · have hcount := h.count
          have hone := count_set_seen seen hnext hseen
          rw [List.length_cons] at hcount
          omega

/-- The states that were marked and taken off the stack reject, and their
rules lead to marked states. -/
structure Searched (a : CompiledAutomaton) (seen : List Bool) (stack : List Nat) : Prop where
  length : seen.length = a.states.length
  known : ∀ id ∈ stack, seen.getD id false = true
  rejects : ∀ id, seen.getD id false = true → id ∉ stack → a.isAcceptingState id = false
  closed : ∀ id compiled rule next, seen.getD id false = true → id ∉ stack →
    a.states[id]? = some compiled → rule ∈ compiled.rules → rule.action.target = some next →
    seen.getD next false = true

/-- A search that finds no accepting state has marked a barren set. -/
theorem barren_of_search
    (htargets : a.TargetsKnown)
    {turns : Nat} {seen : List Bool} {stack : List Nat} (hs : Searched a seen stack)
    (hturns : seen.count false + stack.length < turns)
    (hfound : reachesAccept a turns seen stack = false) :
    ∃ states, Barren a states ∧ ∀ id, seen.getD id false = true → states id := by
  induction turns generalizing seen stack with
  | zero => omega
  | succ turns ih =>
    cases stack with
    | nil =>
      refine ⟨fun id => seen.getD id false = true, ⟨?_, ?_⟩, fun id hid => hid⟩
      · exact fun id hid => hs.rejects id hid List.not_mem_nil
      · exact fun id compiled rule next hid => hs.closed id compiled rule next hid List.not_mem_nil
    | cons id stack =>
      rw [reachesAccept, Bool.or_eq_false_iff] at hfound
      obtain ⟨hreject, hfound⟩ := hfound
      rw [List.length_cons] at hturns
      cases hid : a.states[id]? with
      | none =>
        rw [hid] at hfound
        refine ih ⟨hs.length, fun i hi => hs.known i (List.mem_cons_of_mem _ hi), ?_, ?_⟩
          (by omega) hfound
        · intro i hi hnot
          by_cases heq : i = id
          · rwa [heq]
          · exact hs.rejects i hi (by simp [heq, hnot])
        · intro i compiled rule next hi hnot hcompiled
          by_cases heq : i = id
          · rw [heq, hid] at hcompiled
            cases hcompiled
          · exact hs.closed i compiled rule next hi (by simp [heq, hnot]) hcompiled
      | some compiled =>
        rw [hid] at hfound
        have hvisit := visitTargets_stacked seen stack (by
          rw [hs.length]
          exact fun rule hrule next hnext => htargets id next compiled rule hid hrule hnext)
        have hcount := hvisit.count
        have hafter : Searched a (visitTargets compiled.rules seen stack).1
            (visitTargets compiled.rules seen stack).2 := by
          refine ⟨by rw [hvisit.length, hs.length],
            hvisit.known fun i hi => hs.known i (List.mem_cons_of_mem _ hi), ?_, ?_⟩
          · intro i hi hnot
            rcases hvisit.new i hi with hi | hi
            · by_cases heq : i = id
              · rwa [heq]
              · refine hs.rejects i hi ?_
                rw [List.mem_cons, not_or]
                exact ⟨heq, fun hmem => hnot (hvisit.grown hmem)⟩
            · exact absurd hi hnot
          · intro i other rule next hi hnot hother hrule hnext
            rcases hvisit.new i hi with hi | hi
            · by_cases heq : i = id
              · rw [heq, hid] at hother
                obtain rfl := Option.some.inj hother
                exact hvisit.marked rule hrule next hnext
              · refine hvisit.kept next (hs.closed i other rule next hi ?_ hother hrule hnext)
                rw [List.mem_cons, not_or]
                exact ⟨heq, fun hmem => hnot (hvisit.grown hmem)⟩
            · exact absurd hi hnot
        obtain ⟨states, hbarren, hall⟩ := ih hafter (by omega) hfound
        exact ⟨states, hbarren, fun i hi => hall i (hvisit.kept i hi)⟩

/-! ## Refused specs -/

theorem barren_of_refused {v1 : GrammarSpecV1} (ha : IsLowered v1 a) {start name : String}
    (h : checkReachableAccept a start = .error (.NoReachableAccept name)) :
    ∃ states, Barren a states ∧ states a.start := by
  have hstart := ha.start_lt
  have hfound : reachesAccept a (MAX_STATES + 1)
      ((List.replicate a.states.length false).set a.start true) [a.start] = false := by
    unfold checkReachableAccept at h
    split at h
    · cases h
    · rename_i hnot
      simpa using hnot
  have hblank : ∀ id, (List.replicate a.states.length false).getD id false = false := by
    intro id
    rw [List.getD_eq_getElem?_getD, List.getElem?_getD_replicate_default_eq]
  have hset := getD_set_seen (List.replicate a.states.length false)
    (by rwa [List.length_replicate] : a.start < (List.replicate a.states.length false).length)
  have honly : ∀ id, ((List.replicate a.states.length false).set a.start true).getD id false =
      true → id = a.start := by
    intro id hid
    rw [hset, hblank] at hid
    by_cases heq : id = a.start
    · exact heq
    · rw [if_neg heq] at hid
      cases hid
  have hs : Searched a ((List.replicate a.states.length false).set a.start true) [a.start] := by
    refine ⟨by rw [List.length_set, List.length_replicate], ?_, ?_, ?_⟩
    · intro id hid
      rw [hset, if_pos (List.mem_singleton.mp hid)]
    · exact fun id hid hnot => absurd (List.mem_singleton.mpr (honly id hid)) hnot
    · exact fun id _ _ _ hid hnot => absurd (List.mem_singleton.mpr (honly id hid)) hnot
  have hcount := count_set_seen (List.replicate a.states.length false) (i := a.start)
    (by rwa [List.length_replicate]) (hblank a.start)
  rw [List.count_replicate_self] at hcount
  have hfew := ha.few_states
  rw [← ha.length] at hfew
  obtain ⟨states, hbarren, hall⟩ := barren_of_search ha.targetsKnown hs
    (by rw [List.length_singleton]; omega) hfound
  exact ⟨states, hbarren, hall a.start (by rw [hset, if_pos rfl])⟩

/-- The table of a spec that is refused because nothing is accepted steps as its
rules decide, and has no run from the start, however long, to a configuration
that accepts. -/
theorem a_refused_table_accepts_nothing (v1 : GrammarSpecV1) (name : String)
    (h : CompiledAutomaton.compile (.V1 v1) = .error (.NoReachableAccept name)) :
    ∃ a, lowered v1 = .ok a ∧
      (∀ id top byte, ∃ asked, DecidesIn a top byte asked id (a.step id top byte)) ∧
      ∀ (w : List UInt8) (c : Config Nat Nat),
        Config.run a.step ⟨a.start, []⟩ w = some c → (RtnPda.mk a c).isAccepting = false := by
  rw [CompiledAutomaton.compile, compileV1_eq] at h
  cases hlowered : lowered v1 with
  | error err =>
    rw [hlowered] at h
    have hearly := lowered_failsEarly v1 err hlowered
    obtain rfl := Except.error.inj h
    cases hearly
  | ok a =>
    have ha := lowered_ok hlowered
    rw [hlowered, ok_bind] at h
    rcases checkGotoAcyclic_ends ha with ⟨hok, hacyclic⟩ | ⟨state, rule, herr, -⟩
    · rw [hok, ok_bind] at h
      cases hcheck : checkReachableAccept a v1.start with
      | ok _ =>
        rw [hcheck] at h
        cases h
      | error err =>
        rw [hcheck] at h
        obtain rfl := Except.error.inj h
        obtain ⟨states, hbarren, hstart⟩ := barren_of_refused ha hcheck
        refine ⟨a, rfl, fun id top byte => ?_, fun w c hrun => hbarren.not_accepting hstart hrun⟩
        obtain ⟨asked, -, hdecides⟩ := step_decides ha hacyclic id top byte
        exact ⟨asked, hdecides⟩
    · rw [herr] at h
      cases h

/-- A state that loops on every byte and never accepts. -/
def neverAccepting : GrammarSpecV1 where
  start := "s"
  states := [("s", { rules := [{ byte_test := .Any, action := .Next "s" }] })]
  sorted := by simp

theorem nothing_accepts_a_byte :
    CompiledAutomaton.compile (.V1 neverAccepting) = .error (.NoReachableAccept "s") ∧
      ∃ a, lowered neverAccepting = .ok a ∧
        (∀ id top byte, ∃ asked, DecidesIn a top byte asked id (a.step id top byte)) ∧
        ∀ (w : List UInt8) (c : Config Nat Nat),
          Config.run a.step ⟨a.start, []⟩ w = some c → (RtnPda.mk a c).isAccepting = false := by
  have h : CompiledAutomaton.compile (.V1 neverAccepting) = .error (.NoReachableAccept "s") := by
    decide +kernel
  exact ⟨h, a_refused_table_accepts_nothing neverAccepting "s" h⟩

end purecard.lower
