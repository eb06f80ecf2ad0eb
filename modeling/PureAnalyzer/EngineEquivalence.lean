-- The two engines read the same language. The hand-written automaton and
-- the table of the emitted subset go through the same states by name, so
-- they die at the same byte and accept at the same byte.
import Mathlib.Data.List.Find
import PureAnalyzer.PdaLaws
import PureAnalyzer.EmittedSubset

namespace purecard.emitted_subset

open pushdown pda spec lower

/-! ## A table that sees byte classes -/

/-- The test does not tell two bytes of one class apart. -/
def coarse : ByteTest → Bool
  | .Exact byte => SPELLED.contains byte
  | .OneOf bytes => bytes.all SPELLED.contains
  | .NoneOf bytes => bytes.all SPELLED.contains
  | _ => true

theorem contains_keyByte {bytes : List UInt8} (h : bytes.all SPELLED.contains = true)
    (b : UInt8) : bytes.contains (keyByte b) = bytes.contains b := by
  rw [Bool.eq_iff_iff, List.contains_iff_mem, List.contains_iff_mem]
  simp only [List.all_eq_true, List.contains_iff_mem] at h
  constructor
  · intro hmem
    rwa [← (keyByte_eq_iff (h _ hmem)).mp rfl] at hmem
  · intro hmem
    rwa [(keyByte_eq_iff (b := b) (h _ hmem)).mpr rfl]

theorem matches_keyByte {t : ByteTest} (h : coarse t = true) (b : UInt8) :
    t.matches (keyByte b) = t.matches b := by
  cases t with
  | Whitespace => exact isWs_keyByte b
  | IdentStart => exact isIdentStart_keyByte b
  | IdentTail => exact isIdentTail_keyByte b
  | Digit => exact isAsciiDigit_keyByte b
  | Exact byte =>
    simp only [coarse, List.contains_iff_mem] at h
    simp only [ByteTest.matches, keyByte_eq_iff h]
  | OneOf bytes => exact contains_keyByte h b
  | NoneOf bytes => simp only [ByteTest.matches, contains_keyByte h b]
  | Any => rfl

theorem select_keyByte {rules : List CompiledRule}
    (h : ∀ rule ∈ rules, coarse rule.byte_test = true) (top : Option Nat) (b : UInt8) :
    CompiledAutomaton.select rules top (keyByte b) = CompiledAutomaton.select rules top b := by
  unfold CompiledAutomaton.select
  apply List.find?_congr
  intro rule hrule
  rw [matches_keyByte (h rule hrule)]

def coarseTable (a : CompiledAutomaton) : Bool :=
  a.states.all fun state => state.rules.all fun rule => coarse rule.byte_test

theorem stepFrom_keyByte {a : CompiledAutomaton} (h : coarseTable a = true) (top : Option Nat)
    (b : UInt8) (fuel state : Nat) :
    a.stepFrom top (keyByte b) fuel state = a.stepFrom top b fuel state := by
  induction fuel generalizing state with
  | zero => rfl
  | succ fuel ih =>
    unfold CompiledAutomaton.stepFrom
    cases hs : a.states[state]? with
    | none => rfl
    | some compiled =>
      simp only [coarseTable, List.all_eq_true] at h
      simp only [select_keyByte (h compiled (List.mem_of_getElem? hs)), ih]

/-! ## The same states by name -/

/-- The name that the spec gives to a state. -/
def specName : State → String
  | .InStrLit true => "InStrLitPending"
  | .InRelColStrLit true => "InRelColStrLitPending"
  | s => s.name

def specId (a : CompiledAutomaton) (s : State) : Nat := a.state_names.idxOf (specName s)

def specFrame (a : CompiledAutomaton) (f : Frame) : Nat := a.frame_names.idxOf f.name

def specMove (a : CompiledAutomaton) : pda.Step → lower.Step
  | .Next t => .Next (specId a t)
  | .Push f t => .Push (specFrame a f) (specId a t)
  | .Pop t => .Pop (specId a t)
  | .Dead => .Dead

/-- The table takes every step of the automaton, at the bytes of each class
and under the frames that a state can have on top. -/
def Agrees (a : CompiledAutomaton) : Prop :=
  ∀ s : State, (a.isAcceptingState (specId a s) = Pda.isAccepting ⟨s, []⟩) ∧
    ∀ top, stands s top = true → ∀ b ∈ KEY_BYTES,
      a.step (specId a s) (top.map (specFrame a)) b = specMove a (pda.step s top b)

instance : DecidablePred Agrees := fun a =>
  have (s : State) (top : Option Frame) : Decidable (∀ b ∈ KEY_BYTES,
      a.step (specId a s) (top.map (specFrame a)) b = specMove a (pda.step s top b)) :=
    List.decidableBAll _ _
  by unfold Agrees; infer_instance

/-- The lowering went through, to a table that agrees with the automaton. -/
def agreesWith : Except SpecError CompiledAutomaton → Bool
  | .ok a => coarseTable a && decide (a.start = specId a .Start) && decide (Agrees a)
  | .error _ => false

theorem of_agreesWith {r : Except SpecError CompiledAutomaton} (h : agreesWith r = true) :
    ∃ a, r = .ok a ∧ coarseTable a = true ∧ a.start = specId a .Start ∧ Agrees a := by
  cases r with
  | error e => cases h
  | ok a =>
    simp only [agreesWith, Bool.and_eq_true, decide_eq_true_eq] at h
    exact ⟨a, rfl, h.1.1, h.1.2, h.2⟩

/-- The agreement about one state, as a check. -/
def agreesRow (a : CompiledAutomaton) (s : State) : Bool :=
  decide (a.isAcceptingState (specId a s) = Pda.isAccepting ⟨s, []⟩) &&
    everyKey fun top b => !stands s top ||
      decide (a.step (specId a s) (top.map (specFrame a)) b = specMove a (pda.step s top b))

theorem agrees_of_rows {a : CompiledAutomaton} (h : State.all.all (agreesRow a) = true) :
    Agrees a := by
  intro s
  have hrow := List.all_eq_true.mp h s s.mem_all
  unfold agreesRow at hrow
  simp only [Bool.and_eq_true, decide_eq_true_eq] at hrow
  obtain ⟨hacc, hkeys⟩ := hrow
  refine ⟨hacc, fun top htop b hb => ?_⟩
  have hkey := of_everyKey hkeys top hb
  simpa [htop] using hkey

def rowsWith : Except SpecError CompiledAutomaton → Bool
  | .ok a => coarseTable a && decide (a.start = specId a .Start) && State.all.all (agreesRow a)
  | .error _ => false

theorem emitted_rows : rowsWith (CompiledAutomaton.compile EMITTED_SUBSET_SPEC) = true := by
  decide +kernel

theorem emitted_table :
    agreesWith (CompiledAutomaton.compile EMITTED_SUBSET_SPEC) = true := by
  have hrows := emitted_rows
  cases h : CompiledAutomaton.compile EMITTED_SUBSET_SPEC with
  | error e => rw [h] at hrows; cases hrows
  | ok a =>
    rw [h] at hrows
    obtain ⟨hhead, hall⟩ := Bool.and_eq_true_iff.mp hrows
    exact Bool.and_eq_true_iff.mpr ⟨hhead, decide_eq_true (agrees_of_rows hall)⟩

/-- The configuration of the table that stands for one of the automaton. -/
def specConfig (a : CompiledAutomaton) (p : Pda) : Config Nat Nat :=
  ⟨specId a p.state, p.stack.map (specFrame a)⟩

/-- The table is where the automaton is, by name. -/
def Mirrors (a : CompiledAutomaton) (p : Pda) (c : Config Nat Nat) : Prop :=
  stands p.state p.stack.head? = true ∧ c = specConfig a p

theorem step_mirrors {a : CompiledAutomaton} (hcoarse : coarseTable a = true)
    (hagrees : Agrees a) (p : Pda) (hp : stands p.state p.stack.head? = true) (b : UInt8) :
    a.step (specId a p.state) (p.stack.map (specFrame a)).head? b =
      specMove a (pda.step p.state p.stack.head? b) := by
  have htable := (hagrees p.state).2 p.stack.head? hp (keyByte b) (keyByte_mem b)
  unfold CompiledAutomaton.step at htable ⊢
  rw [stepFrom_keyByte hcoarse, step_keyByte] at htable
  rwa [List.head?_map]

theorem mirrors_inStep {a : CompiledAutomaton} (hcoarse : coarseTable a = true)
    (hagrees : Agrees a) : InStep pda.step a.step (Mirrors a) := by
  rintro p c b ⟨hp, rfl⟩
  have hstep := step_mirrors hcoarse hagrees p hp b
  cases ha : Config.advance pda.step p b with
  | none =>
    have hdead : Config.advance a.step (specConfig a p) b = none := by
      rw [advance_eq_none] at ha ⊢
      rw [specConfig, hstep, ha]
      rfl
    rw [hdead]
    exact .none
  | some q =>
    have hq : Config.advance a.step (specConfig a p) b = some (specConfig a q) := by
      unfold Config.advance at ha ⊢
      rw [specConfig, hstep]
      cases hm : pda.step p.state p.stack.head? b with
      | Next t => rw [hm] at ha; cases ha; rfl
      | Push f t => rw [hm] at ha; cases ha; rfl
      | Pop t => rw [hm] at ha; cases ha; simp [specMove, Config.apply, specConfig]
      | Dead => rw [hm] at ha; cases ha
    rw [hq]
    exact .some ⟨stands_advance p b q hp ha, rfl⟩

theorem accepting_mirrors {a : CompiledAutomaton} (hagrees : Agrees a) {p : Pda}
    {c : Config Nat Nat} (h : Mirrors a p c) :
    (RtnPda.mk a c).isAccepting = Pda.isAccepting p := by
  obtain ⟨-, rfl⟩ := h
  have hacc := (hagrees p.state).1
  unfold RtnPda.isAccepting
  simp only [specConfig, hacc, Pda.isAccepting, List.isEmpty_nil, Bool.true_and]
  cases p.stack <;> rfl

/-! ## The engines agree -/

/-- The spec compiles, and over every stream the two engines die at the same
byte or at none, and accept the same of the streams they survive. -/
theorem the_two_engines_read_alike (w : List UInt8) :
    ∃ a, CompiledAutomaton.compile EMITTED_SUBSET_SPEC = .ok a ∧
      Config.deadAt pda.step Pda.new w = Config.deadAt a.step (RtnPda.new a).config w ∧
      ∀ u, u <+: w → ∀ p, Reads u p → ∃ c, (RtnPda.new a).config.run a.step u = some c ∧
        (RtnPda.mk a c).isAccepting = Pda.isAccepting p := by
  obtain ⟨a, hok, hcoarse, hstart, hagrees⟩ := of_agreesWith emitted_table
  have hinit : Mirrors a Pda.new (RtnPda.new a).config :=
    ⟨rfl, by rw [RtnPda.new, hstart]; rfl⟩
  have hin := mirrors_inStep hcoarse hagrees
  refine ⟨a, hok, deadAt_inStep hin hinit w, ?_⟩
  intro u _ p hp
  have hrel := run_inStep hin hinit u
  rw [hp] at hrel
  cases hc : (RtnPda.new a).config.run a.step u with
  | none => rw [hc] at hrel; cases hrel
  | some c =>
    rw [hc] at hrel
    cases hrel with
    | some hm => exact ⟨c, rfl, accepting_mirrors hagrees hm⟩

end purecard.emitted_subset
