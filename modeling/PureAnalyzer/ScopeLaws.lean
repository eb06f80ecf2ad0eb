-- What reading the stream never takes back: the columns and the variables
-- that the scope machine has met stay, in the order they came.
import PureAnalyzer.Scope

namespace purecard.scope

open pushdown pda model

namespace ScopeTracker

/-- A text opens as a name does. -/
def opensName (text : Text) : Bool := text.head?.any isIdentStart

/-- The columns and the variables of `t` come first among those of `u`, and
the new variables open as names do. -/
structure Grows (t u : ScopeTracker) : Prop where
  columns : t.emitted_strings <+: u.emitted_strings
  vars : t.bound_vars <+: u.bound_vars
  named : (∀ name ∈ t.bound_vars, opensName name = true) →
    ∀ name ∈ u.bound_vars, opensName name = true

theorem Grows.of_eq {t u : ScopeTracker} (hcolumns : u.emitted_strings = t.emitted_strings)
    (hvars : u.bound_vars = t.bound_vars) : Grows t u :=
  ⟨hcolumns ▸ List.prefix_rfl, hvars ▸ List.prefix_rfl, hvars ▸ fun h => h⟩

theorem Grows.trans {t u w : ScopeTracker} (h : Grows t u) (k : Grows u w) : Grows t w :=
  ⟨h.columns.trans k.columns, h.vars.trans k.vars, fun ht => k.named (h.named ht)⟩

/-- What reading a whole lexeme leaves: it grows the tracker, and the lexeme
that waits goes on to wait. -/
structure Handles (t u : ScopeTracker) : Prop where
  grows : Grows t u
  pending : u.pending = t.pending

theorem Handles.of_eq {t u : ScopeTracker} (hcolumns : u.emitted_strings = t.emitted_strings)
    (hvars : u.bound_vars = t.bound_vars) (hpending : u.pending = t.pending) : Handles t u :=
  ⟨.of_eq hcolumns hvars, hpending⟩

theorem Handles.refl (t : ScopeTracker) : Handles t t := .of_eq rfl rfl rfl

/-- What two handlers leave one after the other. -/
theorem Handles.trans {t u w : ScopeTracker} (h : Handles t u) (k : Handles u w) :
    Handles t w :=
  ⟨h.grows.trans k.grows, k.pending.trans h.pending⟩

/-- The same, from a tracker that agrees with `t` on all three. -/
theorem Handles.after {t u w : ScopeTracker} (k : Handles u w)
    (hcolumns : u.emitted_strings = t.emitted_strings) (hvars : u.bound_vars = t.bound_vars)
    (hpending : u.pending = t.pending) : Handles t w :=
  (Handles.of_eq hcolumns hvars hpending).trans k

variable (t : ScopeTracker) (schema : Schema)

/-! ## One lexeme -/

/-- A variable goes behind those that were bound before, if it is not one of them. -/
theorem bindVar_handles {name : Text} (hname : opensName name = true) :
    Handles t (t.bindVar name) := by
  unfold bindVar
  split
  · exact .refl t
  · split
    · exact .refl t
    · refine ⟨⟨List.prefix_rfl, List.prefix_append _ _, fun h other hother => ?_⟩, rfl⟩
      rcases List.mem_append.mp hother with hold | hnew
      · exact h other hold
      · rw [List.mem_singleton.mp hnew]
        exact hname

/-- The name of a binder is bound where it is read. -/
theorem openBinder_handles {name : Text} (hname : opensName name = true) :
    Handles t (t.openBinder name) := by
  unfold openBinder
  exact .after (bindVar_handles _ hname) rfl rfl rfl

theorem resolveMember_handles (ident : Text) : Handles t (t.resolveMember ident schema).1 := by
  unfold resolveMember
  split
  · exact .of_eq rfl rfl rfl
  · split
    · exact .of_eq rfl rfl rfl
    · split
      · exact .refl t
      · split <;> exact .of_eq rfl rfl rfl

/-- Whatever a name is by the state in front of it, it binds itself or nothing. -/
theorem onIdentAt_handles {text : Text} (htext : opensName text = true) (pre_state : State) :
    Handles t (t.onIdentAt text pre_state schema).1 := by
  unfold onIdentAt
  split
  · split <;> exact .of_eq rfl rfl rfl
  · exact resolveMember_handles t schema text
  · exact openBinder_handles t htext
  · exact openBinder_handles t htext
  · exact bindVar_handles t htext
  · exact openBinder_handles t htext
  · split
    · split <;> exact .of_eq rfl rfl rfl
    · split
      · split <;> exact .of_eq rfl rfl rfl
      · exact openBinder_handles t htext
  · split
    · split <;> exact .of_eq rfl rfl rfl
    · split
      · split <;> exact .of_eq rfl rfl rfl
      · exact openBinder_handles t htext
  · exact openBinder_handles t htext
  · exact openBinder_handles t htext
  · exact .refl t

theorem nameColumn_handles (text : Text) (pre_state : State) :
    Handles t (t.nameColumn text pre_state) := by
  unfold nameColumn
  split
  · exact ⟨⟨List.prefix_append _ _, List.prefix_rfl, fun h => h⟩, rfl⟩
  · exact .refl t

/-- The name of a column goes behind the columns that are known. -/
theorem onIdent_handles {text : Text} (htext : opensName text = true) (pre_state : State) :
    Handles t (t.onIdent text pre_state schema).1 := by
  have hsource : Handles t (t.nameSource text pre_state schema) := .of_eq rfl rfl rfl
  have hident := hsource.trans (onIdentAt_handles _ schema htext pre_state)
  have hcolumn := hident.trans (nameColumn_handles _ text pre_state)
  exact hcolumn.trans (.of_eq rfl rfl rfl)

theorem onDot_handles : Handles t t.onDot := by
  unfold onDot
  dsimp only
  split
  · split <;> exact .of_eq rfl rfl rfl
  · split
    · exact .of_eq rfl rfl rfl
    · split <;> exact .of_eq rfl rfl rfl

theorem bindLambda_handles : Handles t t.bindLambda := by
  unfold bindLambda
  split
  · exact .of_eq rfl rfl rfl
  · split
    · exact .of_eq rfl rfl rfl
    · dsimp only
      split <;> exact .of_eq rfl rfl rfl

/-- A pipe changes the types of the variables, and not which there are. -/
theorem onPipe_handles (pre_state : State) : Handles t (t.onPipe pre_state) := by
  unfold onPipe
  split
  · exact .refl t
  · exact .after (bindLambda_handles _) rfl rfl rfl

theorem restoreBinders_handles (saves : List BinderSave) : Handles t (t.restoreBinders saves) := by
  induction saves generalizing t with
  | nil => exact .of_eq rfl rfl rfl
  | cons save rest ih =>
    unfold restoreBinders
    split
    · exact .after (ih _) rfl rfl rfl
    · exact .of_eq rfl rfl rfl

theorem restoreScopes_handles (saves : List ScopeSave) : Handles t (t.restoreScopes saves) := by
  induction saves generalizing t with
  | nil => exact .of_eq rfl rfl rfl
  | cons save rest ih =>
    unfold restoreScopes
    split
    · exact .after (ih _) rfl rfl rfl
    · exact .of_eq rfl rfl rfl

/-- A closer restores types that were shadowed, and forgets no name. -/
theorem onClose_handles : Handles t t.onClose := by
  have hend : Handles t t.endCall := .of_eq rfl rfl rfl
  have hbinders := hend.trans (restoreBinders_handles _ t.endCall.binder_saves)
  have hscopes := hbinders.trans
    (restoreScopes_handles _ (t.endCall.restoreBinders t.endCall.binder_saves).scope_saves)
  exact hscopes.trans (.of_eq rfl rfl rfl)

theorem eq_of_ite {c : Prop} [Decidable c] {x y z : Lexeme} (h : (if c then x else y) = z)
    (hx : x ≠ z) : y = z := by
  by_cases hc : c
  · rw [if_pos hc] at h
    exact absurd h hx
  · rwa [if_neg hc] at h

/-- The text of an identifier opens as a name. -/
theorem classify_ident {bytes : List UInt8} {text : Text} (h : classify bytes = .Ident text) :
    opensName text = true := by
  unfold classify at h
  -- the nine kinds that are spelled out come first
  iterate 9 replace h := eq_of_ite h nofun
  cases bytes with
  | nil => cases h
  | cons first rest =>
    dsimp only at h
    iterate 3 replace h := eq_of_ite h nofun
    by_cases hident : (isIdentStart first && isUtf8 (first :: rest)) = true
    · rw [if_pos hident] at h
      obtain rfl := Lexeme.Ident.inj h
      exact (Bool.and_eq_true_iff.mp hident).1
    · rw [if_neg hident] at h
      cases h

/-- What is classified as a name begins as a name does. -/
theorem classifyAt_ident {bytes : List UInt8} {state : State} {text : Text}
    (h : classifyAt bytes state = .Ident text) : opensName text = true := by
  unfold classifyAt at h
  split at h
  · split at h <;> exact classify_ident h
  · exact classify_ident h

/-- No kind of lexeme makes the tracker forget a name. -/
theorem onLexeme_handles (bytes : List UInt8) (pre_state : State) (was_logical : Bool) :
    Handles t
      (t.onLexeme (classifyAt bytes pre_state) bytes pre_state was_logical schema).1 := by
  cases hlex : classifyAt bytes pre_state with
  | Ident text => exact onIdent_handles t schema (classifyAt_ident hlex) pre_state
  | Dot => exact onDot_handles t
  | Cmp =>
    unfold onLexeme
    dsimp only
    split <;> exact .of_eq rfl rfl rfl
  | Pipe => exact onPipe_handles t pre_state
  | Close => exact onClose_handles t
  | Str content => exact ⟨⟨List.prefix_append _ _, List.prefix_rfl, fun h => h⟩, rfl⟩
  | _ => exact .of_eq rfl rfl rfl

/-- A token is handled by what it is classified as. -/
theorem dispatchToken_handles (bytes : List UInt8) (pre_state : State) :
    Handles t (t.dispatchToken bytes pre_state schema) := by
  unfold dispatchToken
  dsimp only
  split
  · exact .refl t
  · exact .trans (onLexeme_handles t schema bytes pre_state _) (.of_eq rfl rfl rfl)

/-- The units of a gap are dispatched one after the other. -/
theorem flushGap_handles (gap : List UInt8) (anchor : State) :
    Handles t (t.flushGap gap anchor schema) := by
  unfold flushGap
  induction gapUnits gap.length gap generalizing t with
  | nil => exact .refl t
  | cons unit units ih => exact .trans (dispatchToken_handles t schema unit anchor) (ih _)

/-! ## One token -/

/-- A lexeme that waited and is read now. -/
theorem endPending_grows (bytes : List UInt8) (anchor : State) :
    Grows t ({ t with pending := none }.dispatchToken bytes anchor schema) := by
  have h := (dispatchToken_handles { t with pending := none } schema bytes anchor).grows
  exact ⟨h.columns, h.vars, h.named⟩

theorem emitLexeme_grows (seg : List UInt8) (anchor : State) (continuing : Bool) :
    Grows t (t.emitLexeme seg anchor continuing schema) := by
  unfold emitLexeme
  split
  · exact endPending_grows t schema _ _
  · exact (dispatchToken_handles t schema seg anchor).grows

theorem bufferTrailing_grows (kind : LexKind) (seg : List UInt8) (anchor : State)
    (continuing : Bool) : Grows t (t.bufferTrailing kind seg anchor continuing) := by
  unfold bufferTrailing
  split <;> exact .of_eq rfl rfl

theorem start_grows (pre : Pda) : Grows t (Reading.start t pre schema).tracker := by
  unfold Reading.start
  split
  · split
    · exact .of_eq rfl rfl
    · exact endPending_grows t schema _ _
  · exact .of_eq rfl rfl

/-- A byte is kept back, or completes a lexeme that is dispatched. -/
theorem take_grows (r : Reading) (byte : UInt8) (next : Pda) :
    Grows r.tracker (r.take byte next schema).tracker := by
  unfold Reading.take
  split
  · split
    · exact .of_eq rfl rfl
    · exact emitLexeme_grows _ schema _ _ _
  · split
    · exact (flushGap_handles _ schema _ _).grows
    · exact .of_eq rfl rfl

theorem finish_grows (r : Reading) : Grows r.tracker (r.finish schema) := by
  unfold Reading.finish
  split
  · exact bufferTrailing_grows _ _ _ _ _
  · exact (flushGap_handles _ schema _ _).grows

/-- Whatever bytes are read, no name is forgotten. -/
theorem read_grows (r : Reading) (bytes : List UInt8) :
    Grows r.tracker (Reading.read schema r bytes) := by
  induction bytes generalizing r with
  | nil => exact finish_grows schema r
  | cons byte rest ih =>
    unfold Reading.read
    split
    · exact .of_eq rfl rfl
    · exact .trans (take_grows schema r byte _) (ih _)

/-- A token only adds columns and variables. -/
theorem observe_grows (bytes : List UInt8) (pre : Pda) :
    Grows t (t.observe bytes pre schema) :=
  .trans (start_grows t schema pre) (read_grows schema _ bytes)

end ScopeTracker

end purecard.scope
