-- A store that others write to as well, and in which two places can be swapped.
-- What others wrote last at a place is not lost as long as it stands there or
-- at the place that was swapped with it.
import Mathlib.Logic.Equiv.Basic

namespace sharedstore

/-- What stands at each place, and the writes of others, the latest first. -/
structure Store (π α : Type) where
  get : π → Option α
  edits : List (π × α)

namespace Store

variable {π α : Type} [DecidableEq π]

def put (s : Store π α) (p : π) (v : Option α) : Store π α :=
  { s with get := fun q => if q = p then v else s.get q }

def swap (s : Store π α) (p q : π) : Store π α :=
  { s with get := fun r => s.get (Equiv.swap p q r) }

/-- A write of another. -/
def edit (s : Store π α) (e : π × α) : Store π α :=
  { s.put e.1 (some e.2) with edits := e :: s.edits }

def editAll (s : Store π α) (es : List (π × α)) : Store π α := es.foldl edit s

/-- What others wrote last at the place. -/
def last (s : Store π α) (p : π) : Option α := (s.edits.find? (·.1 = p)).map Prod.snd

@[simp] theorem get_put_self (s : Store π α) (p : π) (v : Option α) : (s.put p v).get p = v :=
  if_pos rfl

@[simp] theorem last_put (s : Store π α) (p q : π) (v : Option α) :
    (s.put p v).last q = s.last q := rfl

@[simp] theorem last_swap (s : Store π α) (p q r : π) : (s.swap p q).last r = s.last r := rfl

@[simp] theorem get_swap_left (s : Store π α) (p q : π) : (s.swap p q).get p = s.get q :=
  congrArg s.get (Equiv.swap_apply_left p q)

@[simp] theorem get_swap_right (s : Store π α) (p q : π) : (s.swap p q).get q = s.get p :=
  congrArg s.get (Equiv.swap_apply_right p q)

theorem get_put_of_ne (s : Store π α) {p q : π} (v : Option α) (h : q ≠ p) :
    (s.put p v).get q = s.get q := if_neg h

theorem get_swap_of_ne (s : Store π α) {p q r : π} (hp : r ≠ p) (hq : r ≠ q) :
    (s.swap p q).get r = s.get r := congrArg s.get (Equiv.swap_apply_of_ne_of_ne hp hq)

/-- A write of another shows at its place, and nowhere else. -/
theorem edit_cases (s : Store π α) (e : π × α) (q : π) :
    ((s.edit e).get q = s.get q ∧ (s.edit e).last q = s.last q) ∨
      e.1 = q ∧ (s.edit e).get q = some e.2 ∧ (s.edit e).last q = some e.2 := by
  by_cases h : e.1 = q
  · refine .inr ⟨h, if_pos h.symm, ?_⟩
    show ((e :: s.edits).find? (·.1 = q)).map Prod.snd = some e.2
    simp [h]
  · refine .inl ⟨if_neg (Ne.symm h), ?_⟩
    show ((e :: s.edits).find? (·.1 = q)).map Prod.snd = s.last q
    simp [h, last]

/-! ## What a step leaves alone -/

/-- A step changes the places that it touches in any way. Any other place changes
only where others write. -/
structure Moves (edited touched : π → Prop) (s s' : Store π α) : Prop where
  kept : ∀ q, ¬ edited q → ¬ touched q → s'.get q = s.get q
  shown : ∀ q, ¬ touched q → (s'.get q = s.get q ∧ s'.last q = s.last q) ∨
    ∃ v, s'.get q = some v ∧ s'.last q = some v
  unedited : ∀ q, ¬ edited q → s'.last q = s.last q

variable {edited touched : π → Prop} {s s' s'' : Store π α}

theorem Moves.refl (s : Store π α) : Moves edited touched s s :=
  ⟨fun _ _ _ => rfl, fun _ _ => .inl ⟨rfl, rfl⟩, fun _ _ => rfl⟩

theorem Moves.trans (h : Moves edited touched s s') (h' : Moves edited touched s' s'') :
    Moves edited touched s s'' := by
  refine ⟨fun q he ht => (h'.kept q he ht).trans (h.kept q he ht), fun q ht => ?_,
    fun q he => (h'.unedited q he).trans (h.unedited q he)⟩
  rcases h'.shown q ht with ⟨hget, hlast⟩ | hedit
  · rw [hget, hlast]
    exact h.shown q ht
  · exact .inr hedit

theorem Moves.mono {touched' : π → Prop} (h : Moves edited touched s s')
    (hle : ∀ q, touched q → touched' q) : Moves edited touched' s s' :=
  ⟨fun q he ht => h.kept q he (mt (hle q) ht), fun q ht => h.shown q (mt (hle q) ht), h.unedited⟩

theorem moves_edit (s : Store π α) {e : π × α} (he : edited e.1) :
    Moves edited touched s (s.edit e) := by
  refine ⟨fun q hedited _ => ?_, fun q _ => ?_, fun q hedited => ?_⟩
  · rcases edit_cases s e q with ⟨hget, -⟩ | ⟨rfl, -⟩
    · exact hget
    · exact absurd he hedited
  · exact (edit_cases s e q).imp_right fun h => ⟨e.2, h.2⟩
  · rcases edit_cases s e q with ⟨-, hlast⟩ | ⟨rfl, -⟩
    · exact hlast
    · exact absurd he hedited

theorem moves_editAll (s : Store π α) {es : List (π × α)} (h : ∀ e ∈ es, edited e.1) :
    Moves edited touched s (s.editAll es) := by
  unfold editAll
  induction es generalizing s with
  | nil => exact .refl s
  | cons e es ih =>
    exact (moves_edit s (h e List.mem_cons_self)).trans
      (ih (s.edit e) fun e' he' => h e' (List.mem_cons_of_mem _ he'))

theorem moves_put (s : Store π α) {p : π} (v : Option α) (hp : touched p) :
    Moves edited touched s (s.put p v) := by
  have hne : ∀ q, ¬ touched q → q ≠ p := by
    rintro q hq rfl
    exact hq hp
  exact ⟨fun q _ hq => get_put_of_ne s v (hne q hq),
    fun q hq => .inl ⟨get_put_of_ne s v (hne q hq), rfl⟩, fun _ _ => rfl⟩

theorem moves_swap (s : Store π α) {p q : π} (hp : touched p) (hq : touched q) :
    Moves edited touched s (s.swap p q) := by
  have hne : ∀ r, ¬ touched r → (s.swap p q).get r = s.get r := by
    intro r hr
    apply get_swap_of_ne
    · rintro rfl
      exact hr hp
    · rintro rfl
      exact hr hq
  exact ⟨fun r _ hr => hne r hr, fun r hr => .inl ⟨hne r hr, rfl⟩, fun _ _ => rfl⟩

/-! ## What others wrote -/

section

variable (own : α → Prop) (p t : π)

/-- What others wrote last at the place is there, unless it is a value of our own. -/
def AtHome (s : Store π α) : Prop := ∀ v, s.last p = some v → ¬ own v → s.get p = some v

/-- What others wrote last at the place is there or at the other place. -/
def Held (s : Store π α) : Prop :=
  ∀ v, s.last p = some v → ¬ own v → s.get p = some v ∨ s.get t = some v

end

variable {own : α → Prop} {p t : π}

theorem AtHome.held (h : AtHome own p s) : Held own p t s := fun v hv hown => .inl (h v hv hown)

/-- Nothing is held at a place with a value of our own. -/
theorem Held.atHome (h : Held own p t s) {v : α} (hv : s.get t = some v) (hown : own v) :
    AtHome own p s := by
  intro e he hforeign
  rcases h e he hforeign with hp | ht
  · exact hp
  · rw [hv] at ht
    rw [Option.some.inj ht] at hown
    exact absurd hown hforeign

theorem AtHome.moves (hm : Moves edited touched s s') (hp : ¬ touched p) (h : AtHome own p s) :
    AtHome own p s' := by
  intro v hv hown
  rcases hm.shown p hp with ⟨hget, hlast⟩ | ⟨e, hget, hlast⟩
  · rw [hlast] at hv
    rw [hget]
    exact h v hv hown
  · rw [hget, ← hlast, hv]

theorem Held.moves (hm : Moves edited touched s s') (hp : ¬ touched p) (ht : ¬ touched t)
    (hedited : ¬ edited t) (h : Held own p t s) : Held own p t s' := by
  intro v hv hown
  rcases hm.shown p hp with ⟨hget, hlast⟩ | ⟨e, hget, hlast⟩
  · rw [hlast] at hv
    rw [hget, hm.kept t hedited ht]
    exact h v hv hown
  · rw [hget, ← hlast, hv]
    exact .inl rfl

theorem Held.swap (h : Held own p t s) : Held own p t (s.swap t p) := by
  intro v hv hown
  rw [get_swap_left, get_swap_right]
  exact (h v hv hown).symm

end Store

end sharedstore
