-- Machines that read symbols and keep a stack of frames. A machine is a
-- transition function that sees its state, the frame on top of its stack
-- and the next symbol. Nothing here knows which grammar it reads.
import Mathlib.Data.List.Basic
import Mathlib.Data.Option.Basic

namespace pushdown

variable {σ φ β : Type*}

/-! ## The machine -/

/-- What one symbol does to the state and to the stack. -/
inductive Move (σ φ : Type*) where
  | Next (next : σ)
  | Push (frame : φ) (next : σ)
  | Pop (next : σ)
  | Dead
deriving DecidableEq, Repr

/-- A state and the open frames, the frame on top first. -/
structure Config (σ φ : Type*) where
  state : σ
  stack : List φ
deriving DecidableEq, Repr

/-- A transition function: state, frame on top, symbol. -/
abbrev Delta (σ φ β : Type*) := σ → Option φ → β → Move σ φ

def Config.apply (c : Config σ φ) : Move σ φ → Option (Config σ φ)
  | .Next s => some ⟨s, c.stack⟩
  | .Push f s => some ⟨s, f :: c.stack⟩
  | .Pop s => some ⟨s, c.stack.tail⟩
  | .Dead => none

def Config.advance (δ : Delta σ φ β) (c : Config σ φ) (b : β) : Option (Config σ φ) :=
  c.apply (δ c.state c.stack.head? b)

/-- The state that a move goes to. -/
def Move.target : Move σ φ → Option σ
  | .Next s | .Push _ s | .Pop s => some s
  | .Dead => none

/-- Reads every symbol of a word, or stops at the first dead one. -/
def Config.run (δ : Delta σ φ β) : Config σ φ → List β → Option (Config σ φ)
  | c, [] => some c
  | c, b :: bs => (c.advance δ b).bind fun d => d.run δ bs

section run

variable {δ : Delta σ φ β}

@[simp]
theorem apply_eq_none (c : Config σ φ) (m : Move σ φ) : c.apply m = none ↔ m = .Dead := by
  cases m <;> simp [Config.apply]

theorem advance_eq_none (c : Config σ φ) (b : β) :
    c.advance δ b = none ↔ δ c.state c.stack.head? b = .Dead := by
  simp [Config.advance]

theorem advance_target {c d : Config σ φ} {b : β} (h : c.advance δ b = some d) :
    (δ c.state c.stack.head? b).target = some d.state := by
  unfold Config.advance at h
  cases hm : δ c.state c.stack.head? b with
  | Next s | Push f s | Pop s => rw [hm] at h; cases h; rfl
  | Dead => rw [hm] at h; cases h

@[simp]
theorem run_nil (c : Config σ φ) : c.run δ [] = some c := rfl

@[simp]
theorem run_cons (c : Config σ φ) (b : β) (bs : List β) :
    c.run δ (b :: bs) = (c.advance δ b).bind fun d => d.run δ bs := rfl

theorem run_append (c : Config σ φ) (u v : List β) :
    c.run δ (u ++ v) = (c.run δ u).bind fun d => d.run δ v := by
  induction u generalizing c with
  | nil => rfl
  | cons b u ih =>
    cases h : c.advance δ b with
    | none => simp [h]
    | some d => simp [h, ih]

theorem run_append_of {c d : Config σ φ} {u : List β} (h : c.run δ u = some d) (v : List β) :
    c.run δ (u ++ v) = d.run δ v := by
  rw [run_append, h]; rfl

/-- What every step keeps, every run keeps. -/
theorem run_keeps {P : Config σ φ → Prop}
    (hstep : ∀ c b d, P c → c.advance δ b = some d → P d)
    {c d : Config σ φ} {w : List β} (hc : P c) (hrun : c.run δ w = some d) : P d := by
  induction w generalizing c with
  | nil => simp only [run_nil, Option.some.injEq] at hrun; exact hrun ▸ hc
  | cons b w ih =>
    simp only [run_cons, Option.bind_eq_some_iff] at hrun
    obtain ⟨e, he, hrun⟩ := hrun
    exact ih (hstep c b e hc he) hrun

/-- The same rule for what also looks at the word that was read. -/
theorem run_keeps_word {P : List β → Config σ φ → Prop}
    (hstep : ∀ u c b d, P u c → c.advance δ b = some d → P (u ++ [b]) d)
    {u w : List β} {c d : Config σ φ} (hc : P u c) (hrun : c.run δ w = some d) :
    P (u ++ w) d := by
  induction w generalizing u c with
  | nil => simp only [run_nil, Option.some.injEq] at hrun; simpa [← hrun] using hc
  | cons b w ih =>
    simp only [run_cons, Option.bind_eq_some_iff] at hrun
    obtain ⟨e, he, hrun⟩ := hrun
    simpa using ih (hstep u c b e hc he) hrun

end run

/-! ## The same run over a deeper stack -/

/-- The configuration with more frames below its own. -/
def Config.over (c : Config σ φ) (ambient : List φ) : Config σ φ :=
  ⟨c.state, c.stack ++ ambient⟩

@[simp]
theorem over_nil (c : Config σ φ) : c.over [] = c := by
  simp [Config.over]

@[simp]
theorem over_state (c : Config σ φ) (ambient : List φ) : (c.over ambient).state = c.state := rfl

theorem over_head? (c : Config σ φ) (ambient : List φ) :
    (c.over ambient).stack.head? = c.stack.head?.or ambient.head? := by
  cases h : c.stack <;> simp [Config.over, h]

/-- No symbol pops a stack that is empty. -/
def PopsGuarded (δ : Delta σ φ β) : Prop := ∀ s b t, δ s none b ≠ .Pop t

/-- The symbols of `w` that live on an empty stack do the same under the
frame `top`, at each point where the run of `w` has no frame of its own. -/
def Steady (δ : Delta σ φ β) (top : Option φ) : Config σ φ → List β → Prop
  | _, [] => True
  | c, b :: bs =>
    (c.stack = [] → δ c.state none b ≠ .Dead → δ c.state top b = δ c.state none b) ∧
      ∀ d, c.advance δ b = some d → Steady δ top d bs

/-- What lives on an empty stack does the same under every frame. -/
def Monotone (δ : Delta σ φ β) : Prop :=
  ∀ s f b, δ s none b ≠ .Dead → δ s (some f) b = δ s none b

theorem steady_of_monotone {δ : Delta σ φ β} (h : Monotone δ) (top : Option φ)
    (c : Config σ φ) (w : List β) : Steady δ top c w := by
  induction w generalizing c with
  | nil => trivial
  | cons b w ih =>
    refine ⟨fun _ hlive => ?_, fun d _ => ih d⟩
    cases top with
    | none => rfl
    | some f => exact h c.state f b hlive

section Over

variable {δ : Delta σ φ β}

theorem apply_over {c d : Config σ φ} {m : Move σ φ} (ambient : List φ)
    (hpop : c.stack = [] → ∀ t, m ≠ .Pop t) (h : c.apply m = some d) :
    (c.over ambient).apply m = some (d.over ambient) := by
  cases m with
  | Next s => simp only [Config.apply, Option.some.injEq] at h; subst h; rfl
  | Push f s => simp only [Config.apply, Option.some.injEq] at h; subst h; rfl
  | Pop s =>
    simp only [Config.apply, Option.some.injEq] at h
    subst h
    cases hs : c.stack with
    | nil => exact absurd rfl (hpop hs s)
    | cons f fs => simp [Config.apply, Config.over, hs]
  | Dead => simp [Config.apply] at h

theorem advance_over {c d : Config σ φ} {b : β} {ambient : List φ} (hpop : PopsGuarded δ)
    (hsteady : c.stack = [] → δ c.state none b ≠ .Dead →
      δ c.state ambient.head? b = δ c.state none b)
    (h : c.advance δ b = some d) :
    (c.over ambient).advance δ b = some (d.over ambient) := by
  unfold Config.advance at h ⊢
  have hmove : δ (c.over ambient).state (c.over ambient).stack.head? b =
      δ c.state c.stack.head? b := by
    rw [over_head?, over_state]
    cases hs : c.stack with
    | nil =>
      simp only [List.head?_nil, Option.none_or]
      refine hsteady hs fun hdead => ?_
      simp [hs, hdead, Config.apply] at h
    | cons f fs => rfl
  rw [hmove]
  refine apply_over ambient (fun hs t => ?_) h
  rw [hs]
  exact hpop c.state b t

/-- A run that lives by itself lives over every stack it is steady under,
and leaves the frames below alone. -/
theorem run_over {ambient : List φ} (hpop : PopsGuarded δ) {c d : Config σ φ} {w : List β}
    (hsteady : Steady δ ambient.head? c w) (h : c.run δ w = some d) :
    (c.over ambient).run δ w = some (d.over ambient) := by
  induction w generalizing c with
  | nil => simp only [run_nil, Option.some.injEq] at h; simp [h]
  | cons b w ih =>
    simp only [run_cons, Option.bind_eq_some_iff] at h
    obtain ⟨e, he, h⟩ := h
    obtain ⟨hhere, hthere⟩ := hsteady
    simp [advance_over hpop hhere he, ih (hthere e he) h]

end Over

/-! ## The probe of one word from an empty stack -/

/-- Whether a word lives, and whether a dead one died for want of a frame
below its own. -/
structure Probe where
  alive : Bool
  consulted_ambient : Bool
deriving DecidableEq, Repr

section probe

variable [DecidableEq σ] [DecidableEq φ]

/-- Reads a word. At a dead symbol on an empty stack it asks whether one of
`frames` would have kept the symbol alive. -/
def probe (δ : Delta σ φ β) (frames : List φ) : Config σ φ → List β → Probe
  | _, [] => ⟨true, false⟩
  | c, b :: bs =>
    match c.advance δ b with
    | some d => probe δ frames d bs
    | none => ⟨false, c.stack.isEmpty && frames.any fun f => δ c.state (some f) b ≠ .Dead⟩

variable {δ : Delta σ φ β} {frames : List φ}

theorem probe_alive (c : Config σ φ) (w : List β) :
    (probe δ frames c w).alive = (c.run δ w).isSome := by
  induction w generalizing c with
  | nil => rfl
  | cons b w ih => cases h : c.advance δ b <;> simp [probe, h, ih]

theorem not_consulted_of_alive {c : Config σ φ} {w : List β}
    (h : (probe δ frames c w).alive = true) : (probe δ frames c w).consulted_ambient = false := by
  induction w generalizing c with
  | nil => rfl
  | cons b w ih =>
    unfold probe at h ⊢
    cases hd : c.advance δ b with
    | none => simp [hd] at h
    | some d => simp only [hd] at h ⊢; exact ih h

/-- A word that died without asking for a frame is dead over every stack it
is steady under. -/
theorem dead_over {ambient : List φ} (hpop : PopsGuarded δ) (hframes : ∀ f ∈ ambient, f ∈ frames)
    {c : Config σ φ} {w : List β} (hsteady : Steady δ ambient.head? c w)
    (hdead : (probe δ frames c w).alive = false)
    (hasked : (probe δ frames c w).consulted_ambient = false) :
    (c.over ambient).run δ w = none := by
  induction w generalizing c with
  | nil => simp [probe] at hdead
  | cons b w ih =>
    obtain ⟨hhere, hthere⟩ := hsteady
    unfold probe at hdead hasked
    cases hd : c.advance δ b with
    | some d =>
      simp only [hd] at hdead hasked
      simp [advance_over hpop hhere hd, ih (hthere d hd) hdead hasked]
    | none =>
      simp only [hd, Bool.and_eq_false_iff] at hasked
      have hstuck : (c.over ambient).advance δ b = none := by
        rw [advance_eq_none] at hd ⊢
        rw [over_head?, over_state]
        rcases hasked with hs | hf
        · cases hc : c.stack with
          | nil => simp [hc] at hs
          | cons f fs => simpa [hc] using hd
        · cases hc : c.stack with
          | cons f fs => simpa [hc] using hd
          | nil =>
            cases ha : ambient with
            | nil => simpa [hc] using hd
            | cons f fs =>
              simp only [List.any_eq_false, ne_eq, decide_not, Bool.not_eq_true',
                Bool.not_eq_false, decide_eq_true_eq] at hf
              simpa using hf f (hframes f (by simp [ha]))
      simp [hstuck]

/-- The probe answers for every stack it is steady under: a word that did
not ask for a frame lives there exactly when it lived alone. -/
theorem probe_exact {ambient : List φ} (hpop : PopsGuarded δ)
    (hframes : ∀ f ∈ ambient, f ∈ frames) {c : Config σ φ} {w : List β}
    (hsteady : Steady δ ambient.head? c w)
    (hasked : (probe δ frames c w).consulted_ambient = false) :
    ((c.over ambient).run δ w).isSome = (probe δ frames c w).alive := by
  cases h : (probe δ frames c w).alive with
  | false => simp [dead_over hpop hframes hsteady h hasked]
  | true =>
    rw [probe_alive, Option.isSome_iff_exists] at h
    obtain ⟨d, hd⟩ := h
    simp [run_over hpop hsteady hd]

end probe

/-! ## Two machines in step -/

/-- Two machines are in step on `R` when a symbol kills both or neither, and
related configurations stay related. -/
def InStep {σ' φ' : Type*} (δ : Delta σ φ β) (δ' : Delta σ' φ' β)
    (R : Config σ φ → Config σ' φ' → Prop) : Prop :=
  ∀ c c' b, R c c' → Option.Rel R (c.advance δ b) (c'.advance δ' b)

theorem run_inStep {σ' φ' : Type*} {δ : Delta σ φ β} {δ' : Delta σ' φ' β}
    {R : Config σ φ → Config σ' φ' → Prop} (h : InStep δ δ' R) {c : Config σ φ}
    {c' : Config σ' φ'} (hc : R c c') (w : List β) :
    Option.Rel R (c.run δ w) (c'.run δ' w) := by
  induction w generalizing c c' with
  | nil => exact .some hc
  | cons b w ih =>
    have hstep := h c c' b hc
    cases hd : c.advance δ b with
    | none =>
      cases hd' : c'.advance δ' b with
      | none => simp only [run_cons, hd, hd']; exact .none
      | some d' => rw [hd, hd'] at hstep; cases hstep
    | some d =>
      cases hd' : c'.advance δ' b with
      | none => rw [hd, hd'] at hstep; cases hstep
      | some d' =>
        rw [hd, hd'] at hstep
        cases hstep with
        | some hdd => simp only [run_cons, hd, hd', Option.bind_some]; exact ih hdd

/-- The offset of the first dead symbol of a word. -/
def Config.deadAt (δ : Delta σ φ β) : Config σ φ → List β → Option Nat
  | _, [] => none
  | c, b :: bs =>
    match c.advance δ b with
    | none => some 0
    | some d => (d.deadAt δ bs).map (· + 1)

theorem deadAt_inStep {σ' φ' : Type*} {δ : Delta σ φ β} {δ' : Delta σ' φ' β}
    {R : Config σ φ → Config σ' φ' → Prop} (h : InStep δ δ' R) {c : Config σ φ}
    {c' : Config σ' φ'} (hc : R c c') (w : List β) : c.deadAt δ w = c'.deadAt δ' w := by
  induction w generalizing c c' with
  | nil => rfl
  | cons b w ih =>
    have hstep := h c c' b hc
    unfold Config.deadAt
    cases hd : c.advance δ b with
    | none =>
      cases hd' : c'.advance δ' b with
      | none => rfl
      | some d' => rw [hd, hd'] at hstep; cases hstep
    | some d =>
      cases hd' : c'.advance δ' b with
      | none => rw [hd, hd'] at hstep; cases hstep
      | some d' =>
        rw [hd, hd'] at hstep
        cases hstep with
        | some hdd => simp only [ih hdd]

/-! ## Words that finish -/

/-- Some word takes the configuration to one that is accepted. -/
def Completes (δ : Delta σ φ β) (acc : Config σ φ → Prop) (c : Config σ φ) : Prop :=
  ∃ w d, c.run δ w = some d ∧ acc d

theorem completes_of_run {δ : Delta σ φ β} {acc : Config σ φ → Prop} {c d : Config σ φ}
    {w : List β} (h : c.run δ w = some d) (hd : Completes δ acc d) : Completes δ acc c := by
  obtain ⟨v, e, hv, he⟩ := hd
  exact ⟨w ++ v, e, by rw [run_append_of h, hv], he⟩

end pushdown
