-- What lowering makes of a spec: the table before the two walks over it, the
-- ids that its names become, and each rule of a state beside the rule that
-- it was lowered to.
import Mathlib.Data.List.Forall2
import Mathlib.Data.List.Nodup
import Mathlib.Data.String.Basic
import PureAnalyzer.SpecLaws

namespace purecard.lower

open pushdown pda spec attempts

/-! ## Specs that are small and that declare what they name -/

/-- The bounds on the size of a spec. -/
structure WithinLimits (v1 : GrammarSpecV1) : Prop where
  frames : v1.frames.length ≤ MAX_FRAMES
  states : v1.states.length ≤ MAX_STATES
  total : (v1.states.map fun entry => entry.2.rules.length).sum ≤ MAX_TOTAL_RULES
  rules : ∀ entry ∈ v1.states, entry.2.rules.length ≤ MAX_RULES_PER_STATE

def guardFrame : Guard → Option String
  | .StackTopIs frame | .StackTopIsNot frame => some frame
  | _ => none

def actionFrame : Action → Option String
  | .Push frame _ => some frame
  | _ => none

def actionTarget : Action → Option String
  | .Next state | .Push _ state | .Pop state | .Goto state => some state
  | .Dead => none

/-- Every name that a spec uses is declared, and no frame is declared twice. -/
structure NamesResolve (v1 : GrammarSpecV1) : Prop where
  start : v1.start ∈ v1.states.map Prod.fst
  frames : v1.frames.Nodup
  guards : ∀ entry ∈ v1.states, ∀ rule ∈ entry.2.rules,
    ∀ frame ∈ guardFrame rule.guard, frame ∈ v1.frames
  pushes : ∀ entry ∈ v1.states, ∀ rule ∈ entry.2.rules,
    ∀ frame ∈ actionFrame rule.action, frame ∈ v1.frames
  targets : ∀ entry ∈ v1.states, ∀ rule ∈ entry.2.rules,
    ∀ target ∈ actionTarget rule.action, target ∈ v1.states.map Prod.fst

/-! ## The table before the walks -/

/-- Lowers a spec to its table. Nothing is said yet about cycles or accepting. -/
def lowered (v1 : GrammarSpecV1) : Except SpecError CompiledAutomaton := do
  if v1.frames.length > MAX_FRAMES then
    throw (.TooManyFrames v1.frames.length MAX_FRAMES)
  let frame_ids ← frameIdsFrom 0 [] v1.frames
  if v1.states.length > MAX_STATES then
    throw (.TooManyStates v1.states.length MAX_STATES)
  let start ← resolve (stateIds v1.states) v1.start (.UnknownStartState v1.start)
  let total_rules := (v1.states.map fun entry => entry.2.rules.length).sum
  if total_rules > MAX_TOTAL_RULES then
    throw (.TooManyTotalRules total_rules MAX_TOTAL_RULES)
  let states ← v1.states.mapM (compileState (stateIds v1.states) frame_ids)
  return ⟨states, start, frame_ids.length, v1.boundary_byte, v1.states.map Prod.fst, v1.frames⟩

theorem ok_bind {α β : Type} (x : α) (f : α → Except SpecError β) :
    (Except.ok x : Except SpecError α) >>= f = f x := rfl

/-- A spec compiles when it can be lowered and its table passes the two walks. -/
theorem compileV1_eq (v1 : GrammarSpecV1) :
    compileV1 v1 = lowered v1 >>= fun automaton =>
      checkGotoAcyclic v1 (stateIds v1.states) >>= fun _ =>
      checkReachableAccept automaton v1.start >>= fun _ => .ok automaton := by
  unfold compileV1 lowered
  by_cases hframes : v1.frames.length > MAX_FRAMES
  · simp only [hframes, if_true]
    rfl
  simp only [hframes, if_false]
  cases frameIdsFrom 0 [] v1.frames with
  | error err => rfl
  | ok frame_ids =>
    simp only [ok_bind]
    by_cases hstates : v1.states.length > MAX_STATES
    · simp only [hstates, if_true]
      rfl
    simp only [hstates, if_false]
    cases resolve (stateIds v1.states) v1.start (.UnknownStartState v1.start) with
    | error err => rfl
    | ok start =>
      simp only [ok_bind]
      by_cases htotal : (v1.states.map fun entry => entry.2.rules.length).sum > MAX_TOTAL_RULES
      · simp only [htotal, if_true]
        rfl
      simp only [htotal, if_false]
      cases v1.states.mapM (compileState (stateIds v1.states) frame_ids) with
      | error err => rfl
      | ok states => rfl

/-! ## The errors of lowering -/

/-- The errors that are found before the two walks. -/
def early : SpecError → Bool
  | .CyclicGoto _ _ | .NoReachableAccept _ => false
  | _ => true

/-- Whatever the error is, the walks did not report it. -/
def FailsEarly {α : Type} (x : Except SpecError α) : Prop :=
  ∀ err, x = .error err → early err = true

theorem failsEarly_ok {α : Type} (x : α) : FailsEarly (.ok x : Except SpecError α) := nofun

theorem failsEarly_error {α : Type} {err : SpecError} (h : early err = true) :
    FailsEarly (.error err : Except SpecError α) := by
  intro found hfound
  obtain rfl := Except.error.inj hfound
  exact h

theorem FailsEarly.bind {α β : Type} {x : Except SpecError α} {f : α → Except SpecError β}
    (hx : FailsEarly x) (hf : ∀ y, FailsEarly (f y)) : FailsEarly (x >>= f) := by
  cases x with
  | error err => exact failsEarly_error (hx err rfl)
  | ok y => exact hf y

theorem FailsEarly.map {α β : Type} {x : Except SpecError α} (hx : FailsEarly x) (f : α → β) :
    FailsEarly (x.map f) := by
  cases x with
  | error err => exact failsEarly_error (hx err rfl)
  | ok y => exact failsEarly_ok (f y)

theorem resolve_failsEarly (ids : Ids) (name : String) {err : SpecError} (h : early err = true) :
    FailsEarly (resolve ids name err) := by
  unfold resolve
  cases ids.lookup name with
  | some id => exact failsEarly_ok id
  | none => exact failsEarly_error h

theorem frameIdsFrom_failsEarly (index : Nat) (seen : Ids) (names : List String) :
    FailsEarly (frameIdsFrom index seen names) := by
  induction names generalizing index seen with
  | nil => exact failsEarly_ok seen
  | cons name names ih =>
    unfold frameIdsFrom
    split
    · exact failsEarly_error rfl
    · exact ih (index + 1) (seen ++ [(name, index)])

theorem compileGuard_failsEarly (state : String) (i : Nat) (guard : Guard) (frame_ids : Ids) :
    FailsEarly (compileGuard state i guard frame_ids) := by
  cases guard with
  | StackTopIs frame => exact (resolve_failsEarly frame_ids frame rfl).map _
  | StackTopIsNot frame => exact (resolve_failsEarly frame_ids frame rfl).map _
  | Always => exact failsEarly_ok _
  | StackNonEmpty => exact failsEarly_ok _
  | StackEmpty => exact failsEarly_ok _

theorem compileAction_failsEarly (state : String) (i : Nat) (action : Action)
    (state_ids frame_ids : Ids) (guard : CompiledGuard) :
    FailsEarly (compileAction state i action state_ids frame_ids guard) := by
  cases action with
  | Next target => exact (resolve_failsEarly state_ids target rfl).map _
  | Goto target => exact (resolve_failsEarly state_ids target rfl).map _
  | Dead => exact failsEarly_ok _
  | Push frame target =>
    exact (resolve_failsEarly frame_ids frame rfl).bind fun f =>
      (resolve_failsEarly state_ids target rfl).bind fun t => failsEarly_ok _
  | Pop target =>
    unfold compileAction
    dsimp only
    split
    · exact failsEarly_error rfl
    · exact (resolve_failsEarly state_ids target rfl).map _

theorem checkShadowing_failsEarly (state : String) (i : Nat) (byte_test : ByteTest)
    (guard : CompiledGuard) (index : Nat) (earlier : List CompiledRule) :
    FailsEarly (checkShadowing state i byte_test guard index earlier) := by
  induction earlier generalizing index with
  | nil => exact failsEarly_ok ()
  | cons rule rules ih =>
    unfold checkShadowing
    split
    · exact ih (index + 1)
    · split
      · exact failsEarly_error rfl
      · split
        · exact failsEarly_error rfl
        · exact ih (index + 1)

theorem compileRules_failsEarly (state : String) (state_ids frame_ids : Ids) (i : Nat)
    (done : List CompiledRule) (rules : List TransitionRule) :
    FailsEarly (compileRules state state_ids frame_ids i done rules) := by
  induction rules generalizing i done with
  | nil => exact failsEarly_ok done
  | cons rule rules ih =>
    unfold compileRules
    exact (compileGuard_failsEarly state i rule.guard frame_ids).bind fun guard =>
      (compileAction_failsEarly state i rule.action state_ids frame_ids guard).bind fun action =>
      (checkShadowing_failsEarly state i rule.byte_test guard 0 done).bind fun _ => ih _ _

theorem compileState_failsEarly (state_ids frame_ids : Ids) (entry : String × StateSpec) :
    FailsEarly (compileState state_ids frame_ids entry) := by
  unfold compileState
  split
  · exact failsEarly_error rfl
  · exact (compileRules_failsEarly entry.1 state_ids frame_ids 0 [] entry.2.rules).map _

theorem mapM_failsEarly {α β : Type} {f : α → Except SpecError β} (hf : ∀ x, FailsEarly (f x))
    (xs : List α) : FailsEarly (xs.mapM f) := by
  induction xs with
  | nil => exact failsEarly_ok []
  | cons x xs ih =>
    rw [List.mapM_cons]
    exact (hf x).bind fun y => ih.bind fun ys => failsEarly_ok (y :: ys)

/-- No error of lowering is one of the walks. -/
theorem lowered_failsEarly (v1 : GrammarSpecV1) : FailsEarly (lowered v1) := by
  simp only [lowered]
  split
  · exact failsEarly_error rfl
  refine (frameIdsFrom_failsEarly 0 [] v1.frames).bind fun frame_ids => ?_
  split
  · exact failsEarly_error rfl
  refine (resolve_failsEarly _ v1.start rfl).bind fun start => ?_
  split
  · exact failsEarly_error rfl
  · exact (mapM_failsEarly (compileState_failsEarly _ frame_ids) v1.states).bind fun states =>
      failsEarly_ok _

/-! ## The ids of the states -/

theorem names_nodup (v1 : GrammarSpecV1) : (v1.states.map Prod.fst).Nodup := by
  have hpairs : (v1.states.map Prod.fst).Pairwise (· < ·) := v1.sorted.pairwise
  exact hpairs.imp fun hlt => hlt.ne

theorem lookup_stateIds (v1 : GrammarSpecV1) (name : String) (id : Nat) :
    (stateIds v1.states).lookup name = some id ↔ (v1.states.map Prod.fst)[id]? = some name := by
  have hfound : ∀ id, (stateIds v1.states).lookup name = some id →
      (v1.states.map Prod.fst)[id]? = some name := by
    intro id h
    have hresolve : resolve (stateIds v1.states) name (.UnknownStartState name) = .ok id := by
      unfold resolve
      rw [h]
    exact List.mk_mem_zipIdx_iff_getElem?.mp (resolve_mem hresolve)
  refine ⟨hfound id, fun h => ?_⟩
  have hmem : (name, id) ∈ stateIds v1.states := List.mk_mem_zipIdx_iff_getElem?.mpr h
  cases hl : (stateIds v1.states).lookup name with
  | none =>
    have hnone := List.lookup_eq_none_iff.mp hl (name, id) hmem
    simp at hnone
  | some found =>
    have hsame := hfound found hl
    obtain ⟨hlt, -⟩ := List.getElem?_eq_some_iff.mp h
    rw [(List.getElem?_inj hlt (names_nodup v1)).mp (h.trans hsame.symm)]

theorem stateIds_length (v1 : GrammarSpecV1) : (stateIds v1.states).length = v1.states.length := by
  unfold stateIds
  rw [List.length_zipIdx, List.length_map]

theorem resolve_ok {ids : Ids} {name : String} {err : SpecError} {id : Nat} :
    resolve ids name err = .ok id ↔ ids.lookup name = some id := by
  unfold resolve
  cases ids.lookup name <;> simp

/-! ## The rules of a state -/

/-- A rule of the table beside the rule of the spec that it came from. -/
structure Lowers (state : String) (state_ids frame_ids : Ids) (rule : TransitionRule)
    (compiled : CompiledRule) : Prop where
  byte_test : compiled.byte_test = rule.byte_test
  guard : ∃ i, compileGuard state i rule.guard frame_ids = .ok compiled.guard
  action : ∃ i,
    compileAction state i rule.action state_ids frame_ids compiled.guard = .ok compiled.action

theorem compileRules_lowers {state : String} {state_ids frame_ids : Ids} {i : Nat}
    {done out : List CompiledRule} {rules : List TransitionRule}
    (h : compileRules state state_ids frame_ids i done rules = .ok out) :
    ∃ new, out = done ++ new ∧ List.Forall₂ (Lowers state state_ids frame_ids) rules new := by
  induction rules generalizing i done with
  | nil =>
    obtain rfl := Except.ok.inj h
    exact ⟨[], (List.append_nil done).symm, .nil⟩
  | cons rule rules ih =>
    unfold compileRules at h
    obtain ⟨guard, hguard, h⟩ := bind_ok h
    obtain ⟨action, haction, h⟩ := bind_ok h
    obtain ⟨_, _, h⟩ := bind_ok h
    obtain ⟨new, rfl, hnew⟩ := ih h
    exact ⟨⟨rule.byte_test, guard, action⟩ :: new, by simp,
      .cons ⟨rfl, ⟨i, hguard⟩, ⟨i, haction⟩⟩ hnew⟩

/-- A state of the table beside the state of the spec that it came from. -/
structure LowersState (state_ids frame_ids : Ids) (entry : String × StateSpec)
    (compiled : CompiledState) : Prop where
  few_rules : entry.2.rules.length ≤ MAX_RULES_PER_STATE
  accepting : compiled.accepting = entry.2.accepting
  rules : List.Forall₂ (Lowers entry.1 state_ids frame_ids) entry.2.rules compiled.rules

theorem compileState_lowers {state_ids frame_ids : Ids} {entry : String × StateSpec}
    {compiled : CompiledState} (h : compileState state_ids frame_ids entry = .ok compiled) :
    LowersState state_ids frame_ids entry compiled := by
  unfold compileState at h
  split at h
  · cases h
  · rename_i hfew
    obtain ⟨rules, hrules, rfl⟩ := map_ok h
    obtain ⟨new, rfl, hnew⟩ := compileRules_lowers hrules
    exact ⟨Nat.le_of_not_gt hfew, rfl, hnew⟩

/-- What is known of a spec that was lowered and of its table. -/
structure IsLowered (v1 : GrammarSpecV1) (a : CompiledAutomaton) : Prop where
  few_states : v1.states.length ≤ MAX_STATES
  start : (stateIds v1.states).lookup v1.start = some a.start
  states : ∃ frame_ids, frameIdsFrom 0 [] v1.frames = .ok frame_ids ∧
    a.frame_count = frame_ids.length ∧
    List.Forall₂ (LowersState (stateIds v1.states) frame_ids) v1.states a.states

theorem lowered_ok {v1 : GrammarSpecV1} {a : CompiledAutomaton} (h : lowered v1 = .ok a) :
    IsLowered v1 a := by
  simp only [lowered] at h
  split at h
  · cases h
  obtain ⟨frame_ids, hframes, h⟩ := bind_ok h
  split at h
  · cases h
  rename_i hstates
  obtain ⟨start, hstart, h⟩ := bind_ok h
  split at h
  · cases h
  obtain ⟨states, hcompiled, h⟩ := bind_ok h
  obtain rfl := Except.ok.inj h
  constructor
  · exact Nat.le_of_not_gt hstates
  · exact resolve_ok.mp hstart
  · exact ⟨frame_ids, hframes, rfl, (mapM_forall₂ hcompiled).imp fun _ _ => compileState_lowers⟩

namespace IsLowered

variable {v1 : GrammarSpecV1} {a : CompiledAutomaton}

theorem length (h : IsLowered v1 a) : a.states.length = v1.states.length := by
  obtain ⟨_, _, _, hstates⟩ := h.states
  exact hstates.length_eq.symm

theorem id_lt (h : IsLowered v1 a) {name : String} {id : Nat}
    (hid : (stateIds v1.states).lookup name = some id) : id < a.states.length := by
  obtain ⟨hlt, -⟩ := List.getElem?_eq_some_iff.mp ((lookup_stateIds v1 name id).mp hid)
  rw [h.length]
  simpa using hlt

theorem start_lt (h : IsLowered v1 a) : a.start < a.states.length := h.id_lt h.start

/-- The state of the table at an id, beside the state of the spec there. -/
theorem state_at (h : IsLowered v1 a) {id : Nat} {compiled : CompiledState}
    (hid : a.states[id]? = some compiled) :
    ∃ frame_ids entry, v1.states[id]? = some entry ∧
      LowersState (stateIds v1.states) frame_ids entry compiled := by
  obtain ⟨frame_ids, _, _, hstates⟩ := h.states
  obtain ⟨hlt, rfl⟩ := List.getElem?_eq_some_iff.mp hid
  have hlt' : id < v1.states.length := by
    rw [← h.length]
    exact hlt
  exact ⟨frame_ids, v1.states[id], List.getElem?_eq_getElem hlt', hstates.get hlt' hlt⟩

end IsLowered

theorem forall₂_mem_right {α β : Type} {r : α → β → Prop} {xs : List α} {ys : List β}
    (h : List.Forall₂ r xs ys) {y : β} (hy : y ∈ ys) : ∃ x ∈ xs, r x y := by
  induction h with
  | nil => cases hy
  | cons hxy _ ih =>
    rcases List.mem_cons.mp hy with rfl | hy
    · exact ⟨_, List.mem_cons_self, hxy⟩
    · obtain ⟨x, hx, hr⟩ := ih hy
      exact ⟨x, List.mem_cons_of_mem _ hx, hr⟩

theorem forall₂_mem_left {α β : Type} {r : α → β → Prop} {xs : List α} {ys : List β}
    (h : List.Forall₂ r xs ys) {x : α} (hx : x ∈ xs) : ∃ y ∈ ys, r x y := by
  obtain ⟨y, hy, hr⟩ := forall₂_mem_right h.flip hx
  exact ⟨y, hy, hr⟩

theorem compileAction_target {state : String} {i : Nat} {action : Action} {state_ids frame_ids : Ids}
    {guard : CompiledGuard} {compiled : CompiledAction} {next : Nat}
    (h : compileAction state i action state_ids frame_ids guard = .ok compiled)
    (hnext : compiled.target = some next) : ∃ name, state_ids.lookup name = some next := by
  cases action with
  | Next target =>
    obtain ⟨id, hid, rfl⟩ := map_ok h
    obtain rfl := Option.some.inj hnext
    exact ⟨target, resolve_ok.mp hid⟩
  | Push frame target =>
    obtain ⟨f, -, h⟩ := bind_ok h
    obtain ⟨id, hid, h⟩ := bind_ok h
    obtain rfl := Except.ok.inj h
    obtain rfl := Option.some.inj hnext
    exact ⟨target, resolve_ok.mp hid⟩
  | Pop target =>
    unfold compileAction at h
    dsimp only at h
    split at h
    · cases h
    · obtain ⟨id, hid, rfl⟩ := map_ok h
      obtain rfl := Option.some.inj hnext
      exact ⟨target, resolve_ok.mp hid⟩
  | Goto target =>
    obtain ⟨id, hid, rfl⟩ := map_ok h
    obtain rfl := Option.some.inj hnext
    exact ⟨target, resolve_ok.mp hid⟩
  | Dead =>
    obtain rfl := Except.ok.inj h
    cases hnext

/-- Every target of a table is one of its states. -/
def CompiledAutomaton.TargetsKnown (a : CompiledAutomaton) : Prop :=
  ∀ (id next : Nat) (compiled : CompiledState) (rule : CompiledRule),
    a.states[id]? = some compiled → rule ∈ compiled.rules → rule.action.target = some next →
    next < a.states.length

theorem IsLowered.targetsKnown {v1 : GrammarSpecV1} {a : CompiledAutomaton}
    (h : IsLowered v1 a) : a.TargetsKnown := by
  intro id next compiled rule hid hrule hnext
  obtain ⟨frame_ids, entry, -, hstate⟩ := h.state_at hid
  obtain ⟨source, -, hlowers⟩ := forall₂_mem_right hstate.rules hrule
  obtain ⟨i, haction⟩ := hlowers.action
  obtain ⟨name, hname⟩ := compileAction_target haction hnext
  exact h.id_lt hname

end purecard.lower
