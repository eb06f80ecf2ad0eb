-- Programs over a state that can get stuck, and the rules for showing that
-- they do not: what a run needs of its start so that it ends, and ends well.
import Mathlib.Order.Basic

namespace totality

variable {σ α β : Type}

/-- A run from this state ends, and its end is as asked for. -/
def Ends (p : StateT σ Option α) (s : σ) (post : α → σ → Prop) : Prop :=
  ∃ a s', p s = some (a, s') ∧ post a s'

/-- What a program reads of the state. -/
def ask (f : σ → α) : StateT σ Option α := fun s => some (f s, s)

def change (f : σ → σ) : StateT σ Option Unit := fun s => some ((), f s)

def when (c : Bool) (p : StateT σ Option Unit) : StateT σ Option Unit := if c then p else pure ()

/-- Runs a step again and again, at most so many times, until it says stop. -/
def iterate (body : β → StateT σ Option (β × Bool)) : Nat → β → StateT σ Option β
  | 0, _ => fun _ => none
  | steps + 1, x => do
    let (x, again) ← body x
    if again then iterate body steps x else pure x

/-! ## The rules -/

theorem Ends.pure {a : α} {s : σ} {post : α → σ → Prop} (h : post a s) :
    Ends (Pure.pure a) s post := ⟨a, s, rfl, h⟩

theorem Ends.bind {p : StateT σ Option α} {f : α → StateT σ Option β} {s : σ}
    {m : α → σ → Prop} {q : β → σ → Prop} (hp : Ends p s m)
    (hf : ∀ a s', m a s' → Ends (f a) s' q) : Ends (p >>= f) s q := by
  obtain ⟨a, s', hrun, hmid⟩ := hp
  obtain ⟨b, s'', hrun', hpost⟩ := hf a s' hmid
  refine ⟨b, s'', ?_, hpost⟩
  show (p s).bind (fun r => f r.1 r.2) = some (b, s'')
  rw [hrun]
  exact hrun'

theorem Ends.mono {p : StateT σ Option α} {s : σ} {post post' : α → σ → Prop}
    (hp : Ends p s post) (h : ∀ a s', post a s' → post' a s') : Ends p s post' := by
  obtain ⟨a, s', hrun, hpost⟩ := hp
  exact ⟨a, s', hrun, h a s' hpost⟩

theorem Ends.ask {f : σ → α} {s : σ} {post : α → σ → Prop} (h : post (f s) s) :
    Ends (ask f) s post := ⟨f s, s, rfl, h⟩

/-- A program that starts by reading the state. -/
theorem Ends.read {f : σ → α} {g : α → StateT σ Option β} {s : σ} {post : β → σ → Prop}
    (h : Ends (g (f s)) s post) : Ends (totality.ask f >>= g) s post :=
  Ends.bind (m := fun a s' => a = f s ∧ s' = s) (Ends.ask ⟨rfl, rfl⟩)
    (by rintro _ _ ⟨rfl, rfl⟩; exact h)

theorem Ends.change {f : σ → σ} {s : σ} {post : Unit → σ → Prop} (h : post () (f s)) :
    Ends (change f) s post := ⟨(), f s, rfl, h⟩

theorem Ends.cond {c : Prop} [Decidable c] {p q : StateT σ Option α} {s : σ}
    {post : α → σ → Prop} (hp : c → Ends p s post) (hq : ¬c → Ends q s post) :
    Ends (if c then p else q) s post := by
  by_cases h : c
  · rw [if_pos h]
    exact hp h
  · rw [if_neg h]
    exact hq h

theorem Ends.when {c : Bool} {p : StateT σ Option Unit} {s : σ} {post : Unit → σ → Prop}
    (hp : c = true → Ends p s post) (hq : c = false → post () s) : Ends (when c p) s post := by
  unfold totality.when
  apply Ends.cond hp
  intro h
  exact Ends.pure (hq (by simpa using h))

/-- A loop ends when each turn that asks for another brings a measure down. -/
theorem Ends.iterate {body : β → StateT σ Option (β × Bool)} {m : σ → Nat}
    {i : β → σ → Prop} {q : β → σ → Prop}
    (hbody : ∀ x s, i x s → Ends (body x) s fun r s' =>
      if r.2 then i r.1 s' ∧ m s' < m s else q r.1 s')
    {steps : Nat} {x : β} {s : σ} (hinv : i x s) (hsteps : m s < steps) :
    Ends (iterate body steps x) s q := by
  induction steps generalizing x s with
  | zero => exact absurd hsteps (Nat.not_lt_zero _)
  | succ steps ih =>
    apply Ends.bind (hbody x s hinv)
    rintro ⟨x', again⟩ s' hturn
    cases again with
    | false => exact Ends.pure hturn
    | true =>
      obtain ⟨hinv', hless⟩ := hturn
      exact ih hinv' (by omega)

end totality
