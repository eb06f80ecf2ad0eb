-- The laws of a supplied grammar. Every frame that the lowered table pushes
-- is one of its frames, and a pop needs a frame. The mask of a token is
-- exact where the bytes of the token do under the live frame what they do
-- on an empty stack, and can be wrong where they do not.
import PureAnalyzer.Attempts
import PureAnalyzer.MaskLaws

namespace purecard.lower

open pushdown pda spec attempts

/-! ## The ids that lowering resolves -/

theorem frameIdsFrom_lt {names : List String} {index : Nat} {seen ids : Ids}
    (h : frameIdsFrom index seen names = .ok ids) (hlen : seen.length = index)
    (hseen : ∀ e ∈ seen, e.2 < index) : ∀ e ∈ ids, e.2 < ids.length := by
  induction names generalizing index seen with
  | nil =>
    cases h
    rwa [hlen]
  | cons name names ih =>
    unfold frameIdsFrom at h
    split at h
    · cases h
    · refine ih h (by simp [hlen]) ?_
      intro e he
      rcases List.mem_append.mp he with he | he
      · exact Nat.lt_succ_of_lt (hseen e he)
      · rw [List.mem_singleton.mp he]
        exact Nat.lt_succ_self index

theorem resolve_mem {ids : Ids} {name : String} {err : SpecError} {id : Nat}
    (h : resolve ids name err = .ok id) : (name, id) ∈ ids := by
  unfold resolve at h
  cases hl : ids.lookup name with
  | none => simp [hl] at h
  | some found =>
    rw [hl] at h
    cases h
    obtain ⟨pre, post, rfl, -⟩ := List.lookup_eq_some_iff.mp hl
    simp

/-! ## The frames of a table -/

/-- A rule pushes one of `count` frames if it pushes at all. -/
def CompiledRule.PushesBelow (count : Nat) (rule : CompiledRule) : Prop :=
  ∀ frame next, rule.action = .Push frame next → frame < count

theorem compileAction_push {state : String} {i : Nat} {action : Action} {state_ids frame_ids : Ids}
    {guard : CompiledGuard} {frame next : Nat} (hids : ∀ e ∈ frame_ids, e.2 < frame_ids.length)
    (h : compileAction state i action state_ids frame_ids guard = .ok (.Push frame next)) :
    frame < frame_ids.length := by
  cases action with
  | Next target => obtain ⟨_, _, hx⟩ := map_ok h; cases hx
  | Goto target => obtain ⟨_, _, hx⟩ := map_ok h; cases hx
  | Dead => cases h
  | Pop target =>
    unfold compileAction at h
    dsimp only at h
    split at h
    · cases h
    · obtain ⟨_, _, hx⟩ := map_ok h; cases hx
  | Push f target =>
    obtain ⟨x, hx, h⟩ := bind_ok h
    obtain ⟨y, _, h⟩ := bind_ok h
    cases h
    exact hids _ (resolve_mem hx)

theorem compileRules_push {state : String} {state_ids frame_ids : Ids} {i : Nat}
    {done out : List CompiledRule} {rules : List TransitionRule}
    (hids : ∀ e ∈ frame_ids, e.2 < frame_ids.length)
    (hdone : ∀ r ∈ done, r.PushesBelow frame_ids.length)
    (h : compileRules state state_ids frame_ids i done rules = .ok out) :
    ∀ r ∈ out, r.PushesBelow frame_ids.length := by
  induction rules generalizing i done with
  | nil =>
    cases h
    exact hdone
  | cons rule rules ih =>
    unfold compileRules at h
    obtain ⟨guard, _, h⟩ := bind_ok h
    obtain ⟨action, haction, h⟩ := bind_ok h
    obtain ⟨_, _, h⟩ := bind_ok h
    refine ih ?_ h
    intro r hr
    rcases List.mem_append.mp hr with hr | hr
    · exact hdone r hr
    · rw [List.mem_singleton.mp hr]
      rintro frame next rfl
      exact compileAction_push hids haction

theorem compileState_push {state_ids frame_ids : Ids} {entry : String × StateSpec}
    {compiled : CompiledState} (hids : ∀ e ∈ frame_ids, e.2 < frame_ids.length)
    (h : compileState state_ids frame_ids entry = .ok compiled) :
    ∀ r ∈ compiled.rules, r.PushesBelow frame_ids.length := by
  unfold compileState at h
  split at h
  · cases h
  · obtain ⟨rules, hrules, rfl⟩ := map_ok h
    exact compileRules_push hids (by simp) hrules

/-- Every frame that a table pushes is one of its frames. -/
def CompiledAutomaton.FramesKnown (a : CompiledAutomaton) : Prop :=
  ∀ compiled ∈ a.states, ∀ r ∈ compiled.rules, r.PushesBelow a.frame_count

theorem compile_framesKnown {parsed : GrammarSpec} {a : CompiledAutomaton}
    (h : CompiledAutomaton.compile parsed = .ok a) : a.FramesKnown := by
  obtain ⟨v1⟩ := parsed
  simp only [CompiledAutomaton.compile, compileV1] at h
  split at h
  · cases h
  obtain ⟨frame_ids, hframes, h⟩ := bind_ok h
  have hids := frameIdsFrom_lt hframes rfl (by simp)
  split at h
  · cases h
  obtain ⟨start, _, h⟩ := bind_ok h
  split at h
  · cases h
  obtain ⟨states, hstates, h⟩ := bind_ok h
  obtain ⟨_, _, h⟩ := bind_ok h
  obtain ⟨_, _, h⟩ := bind_ok h
  cases h
  intro compiled hcompiled
  obtain ⟨entry, _, hentry⟩ := mapM_mem hstates compiled hcompiled
  exact compileState_push hids hentry

/-! ## The moves of a table -/

variable {a : CompiledAutomaton}

theorem stepFrom_push (ha : a.FramesKnown) {top : Option Nat} {byte : UInt8} {fuel state : Nat}
    {frame next : Nat} (h : a.stepFrom top byte fuel state = .Push frame next) :
    frame < a.frame_count := by
  induction fuel generalizing state with
  | zero => cases h
  | succ fuel ih =>
    unfold CompiledAutomaton.stepFrom at h
    cases hs : a.states[state]? with
    | none => simp [hs] at h
    | some compiled =>
      cases hr : CompiledAutomaton.select compiled.rules top byte with
      | none => simp [hs, hr] at h
      | some rule =>
        have hmem : rule ∈ compiled.rules := List.mem_of_find?_eq_some hr
        have hrule := ha compiled (List.mem_of_getElem? hs) rule hmem
        cases haction : rule.action with
        | Next n => simp [hs, hr, haction] at h
        | Push f n =>
          simp only [hs, hr, haction, Option.map_some, Move.Push.injEq] at h
          rw [← h.1]
          exact hrule f n haction
        | Pop n =>
          simp only [hs, hr, haction, Option.map_some] at h
          split at h <;> cases h
        | Goto n =>
          simp only [hs, hr, haction, Option.map_some] at h
          exact ih h
        | Dead => simp [hs, hr, haction] at h

theorem stepFrom_pop {byte : UInt8} {fuel state next : Nat} :
    a.stepFrom none byte fuel state ≠ .Pop next := by
  induction fuel generalizing state with
  | zero => simp [CompiledAutomaton.stepFrom]
  | succ fuel ih =>
    unfold CompiledAutomaton.stepFrom
    cases a.states[state]? with
    | none => simp
    | some compiled =>
      dsimp only
      cases (CompiledAutomaton.select compiled.rules none byte).map CompiledRule.action with
      | none => simp
      | some action =>
        cases action with
        | Goto n => exact ih
        | _ => simp

theorem step_pops_guarded (a : CompiledAutomaton) : PopsGuarded a.step := by
  intro s b t
  exact stepFrom_pop

/-- Only frames of the table are on the stack. -/
def StackKnown (a : CompiledAutomaton) (c : Config Nat Nat) : Prop :=
  ∀ f ∈ c.stack, f < a.frame_count

theorem run_stackKnown (ha : a.FramesKnown) {c d : Config Nat Nat} {w : List UInt8}
    (hc : StackKnown a c) (h : c.run a.step w = some d) : StackKnown a d := by
  refine run_keeps (fun c b d hc hd => ?_) hc h
  unfold Config.advance at hd
  cases hmove : a.step c.state c.stack.head? b with
  | Next n => rw [hmove] at hd; cases hd; exact hc
  | Pop n =>
    rw [hmove] at hd
    cases hd
    exact fun f hf => hc f (List.mem_of_mem_tail hf)
  | Push f n =>
    rw [hmove] at hd
    cases hd
    intro g hg
    rcases List.mem_cons.mp hg with rfl | hg
    · exact stepFrom_push ha hmove
    · exact hc g hg
  | Dead => rw [hmove] at hd; cases hd

end purecard.lower

namespace purecard.session

open pushdown pda spec lower mask vocab compiled attempts

/-! ## The mask of a supplied grammar -/

/-- The bytes of a token that live on an empty stack do the same under the
live frame on top, wherever the token has no frame of its own. -/
def SteadyToken (p : RtnPda) (bytes : List UInt8) : Prop :=
  Steady p.automaton.step p.stackTop ⟨p.config.state, []⟩ bytes

theorem spec_exact {p : RtnPda} {bytes : List UInt8} (hstack : StackKnown p.automaton p.config)
    (hsteady : SteadyToken p bytes) : (Cursor.Spec p).Exact bytes := by
  intro hasked
  have hframes : ∀ f ∈ p.config.stack, f ∈ List.range p.automaton.frame_count :=
    fun f hf => List.mem_range.mpr (hstack f hf)
  exact probe_exact (step_pops_guarded _) hframes hsteady hasked

namespace DecoderSession

theorem fromSpec_eq {parsed : GrammarSpec} {v : Vocab} {g : CompiledGrammar}
    (h : CompiledGrammar.fromSpec parsed v = .ok g) :
    ∃ a : CompiledAutomaton, a.FramesKnown ∧
      g = ⟨v, .Spec a, List.replicate a.states.length none⟩ := by
  obtain ⟨a, ha, rfl⟩ := map_ok h
  exact ⟨a, compile_framesKnown ha, rfl⟩

/-- Every run over a table stays on that table and on its frames. -/
theorem calls_stackKnown {g : CompiledGrammar} {a : CompiledAutomaton} (ha : a.FramesKnown)
    (hg : g.engine = .Spec a) (ops : List Op) :
    ∃ config, ((new g).calls ops).cursor = .Spec ⟨a, config⟩ ∧ StackKnown a config := by
  refine calls_keep (P := fun t => ∃ config, t.cursor = .Spec ⟨a, config⟩ ∧ StackKnown a config)
    ?_ ?_ ?_ ?_ ops
  · rintro t id bytes next ⟨config, hc, hknown⟩ - hnext
    rw [(t.advanced_frame bytes next).1]
    rw [hc, Cursor.tryAcceptToken, Option.map_eq_some_iff] at hnext
    obtain ⟨d, hrun, rfl⟩ := hnext
    exact ⟨d, rfl, run_stackKnown ha hknown hrun⟩
  · rintro t ⟨config, hc, hknown⟩
    rw [t.allowedMask_same.cursor]
    exact ⟨config, hc, hknown⟩
  · rintro t ⟨config, hc, -⟩
    refine ⟨⟨a.start, []⟩, ?_, by simp [StackKnown]⟩
    simp [reset, hc, Cursor.reset, RtnPda.reset, RtnPda.new]
  · refine ⟨⟨a.start, []⟩, ?_, by simp [StackKnown]⟩
    simp [new, build, Cursor.new, hg, RtnPda.new]

/-- After every run over a supplied grammar, the bit of a steady token is
set exactly when the session would accept the token. -/
theorem the_mask_of_a_steady_token_is_exact {parsed : GrammarSpec} {v : Vocab}
    {g : CompiledGrammar} (hg : CompiledGrammar.fromSpec parsed v = .ok g) (ops : List Op)
    {p : RtnPda} (hp : ((new g).calls ops).cursor = .Spec p) {id : Nat} (hid : id < v.len)
    (hsteady : SteadyToken p ((v.bytes id).getD [])) :
    ((new g).calls ops).allowedMask.mask.test id = true ↔
      (((new g).calls ops).acceptToken id).isOk = true := by
  obtain ⟨a, ha, hga⟩ := fromSpec_eq hg
  have hengine : g.engine = .Spec a := by rw [hga]
  obtain ⟨config, hc, hknown⟩ := calls_stackKnown ha hengine ops
  obtain rfl : p = ⟨a, config⟩ := by rw [hp] at hc; exact Cursor.Spec.inj hc
  obtain ⟨hschema, hvocab, -⟩ := calls_same (new g) ops
  have hcells : CellsSound g := by rw [hga]; exact empty_cells _
  have hsound : ((new g).calls ops).Sound := calls_sound (build_sound hcells none) ops
  obtain ⟨bytes, hb⟩ := Option.isSome_iff_exists.mp ((v.bytes_eq_some_iff id).mpr hid)
  rw [hb] at hsteady
  have hb' : ((new g).calls ops).grammar.vocab.bytes id = some bytes := by
    rw [hvocab, ← hb, hga]
    rfl
  rw [allowedMask_of_no_schema hschema, acceptToken_isOk hb',
    test_grammarMask hsound hb' (by rw [hp]; exact spec_exact hknown hsteady)]

/-- A grammar of nested parentheses that takes an `x` outside of them only. -/
def outsideOnlySpec : GrammarSpec := .V1 {
  start := "s"
  frames := ["Paren"]
  states := [("s", {
    accepting := true
    rules := [
      { byte_test := .Exact '(', action := .Push "Paren" "s" },
      { byte_test := .Exact 'x', guard := .StackEmpty, action := .Next "s" },
      { byte_test := .Exact ')', guard := .StackTopIs "Paren", action := .Pop "s" }] })]
  sorted := by simp }

def outsideOnlyVocab : Vocab := ⟨[lit "(", lit "x", lit ")"], by decide⟩

def outsideOnlyAutomaton : CompiledAutomaton where
  states := [⟨true, [⟨.Exact '(', .Always, .Push 0 0⟩, ⟨.Exact 'x', .StackEmpty, .Next 0⟩,
    ⟨.Exact ')', .StackTopIs 0, .Pop 0⟩]⟩]
  start := 0
  frame_count := 1
  boundary_byte := ' '
  state_names := ["s"]
  frame_names := ["Paren"]

def outsideOnlyGrammar : CompiledGrammar := ⟨outsideOnlyVocab, .Spec outsideOnlyAutomaton, [none]⟩

theorem outsideOnly_compiles :
    CompiledGrammar.fromSpec outsideOnlySpec outsideOnlyVocab = .ok outsideOnlyGrammar := by
  have h : CompiledAutomaton.compile outsideOnlySpec = .ok outsideOnlyAutomaton := by
    decide +kernel
  unfold CompiledGrammar.fromSpec
  rw [h]
  rfl

/-- Inside a parenthesis the mask still has the `x`, which is not accepted. -/
theorem an_outside_token_is_masked_in_inside :
    CompiledGrammar.fromSpec outsideOnlySpec outsideOnlyVocab = .ok outsideOnlyGrammar ∧
      1 < outsideOnlyVocab.len ∧
      ¬ (((new outsideOnlyGrammar).calls [.acceptToken 0]).allowedMask.mask.test 1 = true ↔
        (((new outsideOnlyGrammar).calls [.acceptToken 0]).acceptToken 1).isOk = true) := by
  refine ⟨outsideOnly_compiles, by decide, ?_⟩
  decide +kernel

/-- A second opener is steady there: the automaton reads it inside as it does
outside. Its bit is exact, and it is set. -/
theorem an_opener_is_exact_inside :
    ((new outsideOnlyGrammar).calls [.acceptToken 0]).allowedMask.mask.test 0 = true := by
  have hp : ((new outsideOnlyGrammar).calls [.acceptToken 0]).cursor =
      .Spec ⟨outsideOnlyAutomaton, ⟨0, [0]⟩⟩ := rfl
  have hsteady : SteadyToken ⟨outsideOnlyAutomaton, ⟨0, [0]⟩⟩
      ((outsideOnlyVocab.bytes 0).getD []) := ⟨fun _ _ => rfl, fun _ _ => trivial⟩
  refine (the_mask_of_a_steady_token_is_exact outsideOnly_compiles [.acceptToken 0] hp
    (by decide) hsteady).mpr ?_
  decide +kernel

end DecoderSession

end purecard.session
