-- Programs whose runs go forward: an order on the states that every step of a
-- run goes along, and a place in each state that never goes back. The rules for
-- showing that a program is such a step, and how far it gets.
import PureAnalyzer.Totality

namespace totality

/-- An order that runs go along. The states that are ready stay so, and the place
that a run has come to stays below a limit. -/
structure Flow (σ : Type) where
  step : σ → σ → Prop
  refl : ∀ s, step s s
  trans : ∀ {s s' s''}, step s s' → step s' s'' → step s s''
  place : σ → Nat
  limit : σ → Nat
  ready : σ → Prop
  forward : ∀ {s s'}, step s s' → place s ≤ place s'
  same : ∀ {s s'}, step s s' → limit s' = limit s
  kept : ∀ {s s'}, ready s → step s s' → ready s'
  within : ∀ {s}, ready s → place s ≤ limit s

namespace Flow

variable {σ α β : Type} (F : Flow σ)

/-- A run from this state ends as a step, and its end is as asked for. -/
def Goes (s : σ) (p : StateT σ Option α) (q : α → σ → Prop) : Prop :=
  Ends p s fun a s' => F.step s s' ∧ q a s'

/-- The program is a step. -/
def Safe (p : StateT σ Option α) : Prop := ∀ s, F.ready s → F.Goes s p fun _ _ => True

/-- The program is a step, and with such an answer it gets from one place to the other. -/
def Reaches (lo hi : Nat) (done : α → Prop) (p : StateT σ Option α) : Prop :=
  ∀ s, F.ready s → lo ≤ F.place s → F.Goes s p fun a s' => done a → hi ≤ F.place s'

/-- The program is a step, and when it answers yes it got further. -/
def Eats (p : StateT σ Option Bool) : Prop := ∀ lo, F.Reaches lo (lo + 1) (· = true) p

variable {F}

/-! ## Runs from one state -/

section Goes

variable {s : σ} {p : StateT σ Option α} {q : α → σ → Prop}

theorem Goes.pure {a : α} (h : q a s) : F.Goes s (Pure.pure a) q := Ends.pure ⟨F.refl s, h⟩

theorem Goes.ask {f : σ → α} (h : q (f s) s) : F.Goes s (ask f) q := Ends.ask ⟨F.refl s, h⟩

theorem Goes.read {f : σ → β} {g : β → StateT σ Option α} (h : F.Goes s (g (f s)) q) :
    F.Goes s (totality.ask f >>= g) q := Ends.read h

theorem Goes.bind {f : α → StateT σ Option β} {r : β → σ → Prop} (hp : F.Goes s p q)
    (hf : ∀ a s', F.step s s' → q a s' → F.Goes s' (f a) r) : F.Goes s (p >>= f) r := by
  refine Ends.bind hp ?_
  rintro a s' ⟨hstep, hq⟩
  refine Ends.mono (hf a s' hstep hq) ?_
  rintro b s'' ⟨hstep', hr⟩
  exact ⟨F.trans hstep hstep', hr⟩

theorem Goes.mono {q' : α → σ → Prop} (hp : F.Goes s p q)
    (h : ∀ a s', F.step s s' → q a s' → q' a s') : F.Goes s p q' :=
  Ends.mono hp fun a s' hs' => ⟨hs'.1, h a s' hs'.1 hs'.2⟩

theorem Goes.cond {c : Prop} [Decidable c] {p' : StateT σ Option α} (hp : c → F.Goes s p q)
    (hq : ¬c → F.Goes s p' q) : F.Goes s (if c then p else p') q := Ends.cond hp hq

theorem Goes.when {c : Bool} {p : StateT σ Option Unit} {q : Unit → σ → Prop}
    (hp : c = true → F.Goes s p q) (hq : c = false → q () s) : F.Goes s (when c p) q :=
  Ends.when hp fun h => ⟨F.refl s, hq h⟩

/-- What else is known of the same run. -/
theorem Goes.both {r : α → σ → Prop} (hp : F.Goes s p q) (hr : Ends p s r) :
    F.Goes s p fun a s' => q a s' ∧ r a s' := by
  obtain ⟨a, s', hrun, hstep, hq⟩ := hp
  obtain ⟨a', s'', hrun', hr⟩ := hr
  rw [hrun] at hrun'
  obtain ⟨rfl, rfl⟩ : a = a' ∧ s' = s'' := by simpa using hrun'
  exact ⟨a, s', hrun, hstep, hq, hr⟩

/-- A loop ends when each turn that asks for another gets further. -/
theorem Goes.iterate {body : β → StateT σ Option (β × Bool)} {i q : β → σ → Prop}
    (hbody : ∀ x s, F.ready s → i x s → F.Goes s (body x) fun r s' =>
      (r.2 = true → F.place s < F.place s' ∧ i r.1 s') ∧ (r.2 = false → q r.1 s'))
    {turns : Nat} {x : β} (hs : F.ready s) (hx : i x s) (hturns : F.limit s - F.place s < turns) :
    F.Goes s (iterate body turns x) q := by
  refine Ends.iterate (m := fun s => F.limit s - F.place s)
    (i := fun x s' => F.step s s' ∧ i x s') (fun x s' hinv => ?_) ⟨F.refl s, hx⟩ hturns
  have hs' := F.kept hs hinv.1
  refine Ends.mono (hbody x s' hs' hinv.2) ?_
  rintro ⟨x', again⟩ s'' ⟨hstep', hmore, hdone⟩
  cases again with
  | false => exact ⟨F.trans hinv.1 hstep', hdone rfl⟩
  | true =>
    obtain ⟨hless, hkept⟩ : F.place s' < F.place s'' ∧ i x' s'' := hmore rfl
    have hwithin := F.within (F.kept hs' hstep')
    have hsame := F.same hstep'
    refine ⟨⟨F.trans hinv.1 hstep', hkept⟩, ?_⟩
    omega

end Goes

/-! ## Runs from every state -/

section Safe

variable {lo hi : Nat} {p : StateT σ Option α} {done : α → Prop}

theorem Safe.pure {a : α} : F.Safe (Pure.pure a : StateT σ Option α) :=
  fun _ _ => Goes.pure trivial

theorem Safe.ask {f : σ → α} : F.Safe (ask f) := fun _ _ => Goes.ask trivial

theorem Safe.bind {f : α → StateT σ Option β} (hp : F.Safe p) (hf : ∀ a, F.Safe (f a)) :
    F.Safe (p >>= f) :=
  fun s hs => Goes.bind (hp s hs) fun a s' hstep _ => hf a s' (F.kept hs hstep)

theorem Safe.read {f : σ → β} {g : β → StateT σ Option α} (h : ∀ b, F.Safe (g b)) :
    F.Safe (totality.ask f >>= g) := Safe.ask.bind h

theorem Safe.cond {c : Prop} [Decidable c] {p' : StateT σ Option α} (hp : F.Safe p)
    (hq : F.Safe p') : F.Safe (if c then p else p') :=
  fun s hs => Goes.cond (fun _ => hp s hs) fun _ => hq s hs

theorem Safe.when {c : Bool} {p : StateT σ Option Unit} (hp : F.Safe p) : F.Safe (when c p) :=
  fun s hs => Goes.when (fun _ => hp s hs) fun _ => trivial

theorem Reaches.safe (hp : F.Reaches 0 hi done p) : F.Safe p := fun s hs =>
  Goes.mono (hp s hs (Nat.zero_le _)) fun _ _ _ _ => trivial

/-- Where the place is reached, any step will do. -/
theorem Safe.reaches (hp : F.Safe p) : F.Reaches hi hi done p := fun s hs hlo =>
  Goes.mono (hp s hs) fun _ _ hstep _ _ => Nat.le_trans hlo (F.forward hstep)

theorem Reaches.pure {a : α} (h : done a → hi ≤ lo) :
    F.Reaches lo hi done (Pure.pure a : StateT σ Option α) :=
  fun _ _ hlo => Goes.pure fun ha => Nat.le_trans (h ha) hlo

theorem Reaches.bind {f : α → StateT σ Option β} {done : β → Prop} (hp : F.Safe p)
    (hf : ∀ a, F.Reaches lo hi done (f a)) : F.Reaches lo hi done (p >>= f) := fun s hs hlo =>
  Goes.bind (hp s hs) fun a s' hstep _ =>
    hf a s' (F.kept hs hstep) (Nat.le_trans hlo (F.forward hstep))

/-- What an answer tells about the way so far. -/
theorem Reaches.after {mid : Nat} {f : α → StateT σ Option β} {done' : β → Prop}
    (hp : F.Reaches lo mid done p) (hyes : ∀ a, done a → F.Reaches mid hi done' (f a))
    (hno : ∀ a, ¬done a → F.Reaches lo hi done' (f a)) : F.Reaches lo hi done' (p >>= f) := by
  intro s hs hlo
  refine Goes.bind (hp s hs hlo) fun a s' hstep ha => ?_
  by_cases hdone : done a
  · exact hyes a hdone s' (F.kept hs hstep) (ha hdone)
  · exact hno a hdone s' (F.kept hs hstep) (Nat.le_trans hlo (F.forward hstep))

/-- A turn of a loop counts from where it starts. -/
theorem Reaches.before {g : Nat → StateT σ Option α}
    (h : ∀ i, F.Reaches i (i + 1) done (g i)) :
    F.Reaches lo (lo + 1) done (totality.ask F.place >>= g) := by
  intro s hs hlo
  refine Goes.read (Goes.mono (h _ s hs (Nat.le_refl _)) fun a s' _ ha hdone => ?_)
  have := ha hdone
  omega

theorem Eats.safe {p : StateT σ Option Bool} (hp : F.Eats p) : F.Safe p := (hp 0).safe

end Safe

end Flow

end totality
