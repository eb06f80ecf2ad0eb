-- The frames of the scope machine next to the stack of the automaton. The
-- machine cuts its own lexemes out of the tokens, and opens and closes a frame
-- at each bracket lexeme, so its depth is the depth of the automaton.
import PureAnalyzer.Brackets
import PureAnalyzer.Stream

namespace purecard.scope.ScopeTracker

open pushdown pda model

/-! ## What a lexeme that is no bracket leaves -/

/-- The frames that are open, what waits to be restored when they close, and
the bindings. -/
structure Core where
  depth : Nat
  paren_receiver : List (Option Text)
  tilde_open : List Bool
  brace_binder_open : List Bool
  call_return : List (Option TypeClass)
  est_stack : List Nat
  ref_stack : List Nat
  binder_saves : List BinderSave
  scope_saves : List ScopeSave
  var_class : Map (Option Text)
  relation_row_vars : List Text
  var_reducer_type : Map TypeClass

def core (t : ScopeTracker) : Core :=
  ⟨t.depth, t.paren_receiver, t.tilde_open, t.brace_binder_open, t.call_return, t.est_stack,
    t.ref_stack, t.binder_saves, t.scope_saves, t.var_class, t.relation_row_vars,
    t.var_reducer_type⟩

section Lexemes

variable (t : ScopeTracker) (schema : Schema)

theorem bindVar_core (name : Text) : (t.bindVar name).core = t.core := by
  unfold bindVar
  split
  · rfl
  · split <;> rfl

theorem openBinder_core (name : Text) : (t.openBinder name).core = t.core :=
  bindVar_core { t with lambda_first_ident := some name } name

theorem resolveMember_core (ident : Text) : (t.resolveMember ident schema).1.core = t.core := by
  unfold resolveMember
  split
  · rfl
  · split
    · rfl
    · split
      · rfl
      · dsimp only
        split <;> rfl

theorem onIdentAt_core (text : Text) (pre_state : State) :
    (t.onIdentAt text pre_state schema).1.core = t.core := by
  unfold onIdentAt
  split
  · split <;> rfl
  · exact resolveMember_core t schema text
  · exact openBinder_core t text
  · exact openBinder_core t text
  · exact bindVar_core t text
  · exact openBinder_core t text
  · split
    · split <;> rfl
    · split
      · split <;> rfl
      · exact openBinder_core t text
  · split
    · split <;> rfl
    · split
      · split <;> rfl
      · exact openBinder_core t text
  · exact openBinder_core t text
  · exact openBinder_core t text
  · rfl

theorem nameColumn_core (text : Text) (pre_state : State) :
    (t.nameColumn text pre_state).core = t.core := by
  unfold nameColumn
  split <;> rfl

theorem onIdent_core (text : Text) (pre_state : State) :
    (t.onIdent text pre_state schema).1.core = t.core := by
  have hident := onIdentAt_core (t.nameSource text pre_state schema) schema text pre_state
  have hcolumn := nameColumn_core
    ((t.nameSource text pre_state schema).onIdentAt text pre_state schema).1 text pre_state
  exact hcolumn.trans hident

theorem onDot_core : t.onDot.core = t.core := by
  unfold onDot
  dsimp only
  split
  · split <;> rfl
  · split
    · rfl
    · split <;> rfl

/-- A lexeme that is no bracket and no pipe leaves the frames. -/
theorem onLexeme_core {lex : Lexeme} (bytes : List UInt8) (pre_state : State)
    (was_logical : Bool) (hopen : lex ≠ .Open) (hclose : lex ≠ .Close) (hpipe : lex ≠ .Pipe) :
    (t.onLexeme lex bytes pre_state was_logical schema).1.core = t.core := by
  cases lex with
  | Ident text => exact onIdent_core t schema text pre_state
  | Dot => exact onDot_core t
  | Cmp =>
    unfold onLexeme
    dsimp only
    split <;> rfl
  | Pipe => exact absurd rfl hpipe
  | Open => exact absurd rfl hopen
  | Close => exact absurd rfl hclose
  | _ => rfl

/-- Reading a piece leaves the frames as its own handler leaves them. -/
theorem dispatchToken_onLexeme {bytes : List UInt8} {pre_state : State} {lex : Lexeme}
    (hlex : classifyAt bytes pre_state = lex) (hws : lex ≠ .Ws) :
    (t.dispatchToken bytes pre_state schema).core =
      (t.onLexeme lex bytes pre_state (isLogicalOperator bytes pre_state) schema).1.core := by
  unfold dispatchToken
  rw [hlex, if_neg hws]
  rfl

theorem dispatchToken_open {bytes : List UInt8} {pre_state : State}
    (h : classifyAt bytes pre_state = .Open) :
    (t.dispatchToken bytes pre_state schema).core =
      (t.onOpen pre_state (bytes.headD 0) schema).core :=
  dispatchToken_onLexeme t schema h nofun

theorem dispatchToken_close {bytes : List UInt8} {pre_state : State}
    (h : classifyAt bytes pre_state = .Close) :
    (t.dispatchToken bytes pre_state schema).core = t.onClose.core :=
  dispatchToken_onLexeme t schema h nofun

theorem dispatchToken_pipe {bytes : List UInt8} {pre_state : State}
    (h : classifyAt bytes pre_state = .Pipe) :
    (t.dispatchToken bytes pre_state schema).core = (t.onPipe pre_state).core :=
  dispatchToken_onLexeme t schema h nofun

theorem dispatchToken_core {bytes : List UInt8} {pre_state : State}
    (hopen : classifyAt bytes pre_state ≠ .Open) (hclose : classifyAt bytes pre_state ≠ .Close)
    (hpipe : classifyAt bytes pre_state ≠ .Pipe) :
    (t.dispatchToken bytes pre_state schema).core = t.core := by
  by_cases hws : classifyAt bytes pre_state = .Ws
  · unfold dispatchToken
    rw [if_pos hws]
  · rw [dispatchToken_onLexeme t schema rfl hws]
    exact onLexeme_core t schema bytes pre_state _ hopen hclose hpipe

end Lexemes

/-! ## The level -/

/-- Every stack of frames is `n` deep, and what waits to be restored was
saved at a frame that is open. The latest comes first, so the depths do not
rise. -/
structure Core.Level (c : Core) (n : Nat) : Prop where
  depth : c.depth = n
  receivers : c.paren_receiver.length = n
  tildes : c.tilde_open.length = n
  braces : c.brace_binder_open.length = n
  returns : c.call_return.length = n
  binders : (c.binder_saves.map BinderSave.depth).Pairwise (· ≥ ·)
  binders_le : ∀ save ∈ c.binder_saves, save.depth ≤ n
  scopes : (c.scope_saves.map ScopeSave.depth).Pairwise (· ≥ ·)
  scopes_le : ∀ save ∈ c.scope_saves, save.depth ≤ n
  ests : c.est_stack.Pairwise (· > ·)
  ests_le : ∀ depth ∈ c.est_stack, depth ≤ n
  refs : c.ref_stack.Pairwise (· > ·)
  refs_le : ∀ depth ∈ c.ref_stack, depth ≤ n

theorem new_level : new.core.Level 0 :=
  ⟨rfl, rfl, rfl, rfl, rfl, .nil, nofun, .nil, nofun, .nil, nofun, .nil, nofun⟩

/-- A list of depths that fall, with a new one that is deeper. -/
theorem pairwise_deeper {xs : List Nat} {n : Nat} (h : xs.Pairwise (· > ·))
    (hle : ∀ d ∈ xs, d ≤ n) (c : Bool) :
    (if c then (n + 1) :: xs else xs).Pairwise (· > ·) ∧
      ∀ d ∈ (if c then (n + 1) :: xs else xs), d ≤ n + 1 := by
  cases c with
  | false => exact ⟨h, fun d hd => Nat.le_succ_of_le (hle d hd)⟩
  | true =>
    refine ⟨List.pairwise_cons.mpr ⟨fun d hd => Nat.lt_succ_of_le (hle d hd), h⟩, ?_⟩
    intro d hd
    rcases List.mem_cons.mp hd with rfl | hd
    · exact Nat.le_refl _
    · exact Nat.le_succ_of_le (hle d hd)

/-- The one at the frame that closes goes. -/
theorem pairwise_shallower {xs : List Nat} {n : Nat} (h : xs.Pairwise (· > ·))
    (hle : ∀ d ∈ xs, d ≤ n + 1) :
    (if xs.head? = some (n + 1) then xs.tail else xs).Pairwise (· > ·) ∧
      ∀ d ∈ (if xs.head? = some (n + 1) then xs.tail else xs), d ≤ n := by
  cases xs with
  | nil => exact ⟨.nil, nofun⟩
  | cons x xs =>
    obtain ⟨hx, hxs⟩ := List.pairwise_cons.mp h
    simp only [List.head?_cons, Option.some.injEq, List.tail_cons]
    by_cases heq : x = n + 1
    · rw [if_pos heq]
      refine ⟨hxs, fun d hd => ?_⟩
      have hlt := hx d hd
      omega
    · rw [if_neg heq]
      have hxle := hle x List.mem_cons_self
      refine ⟨h, fun d hd => ?_⟩
      rcases List.mem_cons.mp hd with rfl | hd
      · omega
      · have hlt := hx d hd
        omega

/-- Dropping the saves of a depth leaves those of the depths above. -/
theorem dropWhile_shallower {α : Type} (depth : α → Nat) {xs : List α} {n : Nat}
    (h : (xs.map depth).Pairwise (· ≥ ·)) (hle : ∀ x ∈ xs, depth x ≤ n + 1) :
    ((xs.dropWhile fun x => depth x = n + 1).map depth).Pairwise (· ≥ ·) ∧
      ∀ x ∈ xs.dropWhile (fun x => depth x = n + 1), depth x ≤ n := by
  induction xs with
  | nil => exact ⟨.nil, nofun⟩
  | cons x xs ih =>
    obtain ⟨hx, hxs⟩ := List.pairwise_cons.mp h
    by_cases heq : depth x = n + 1
    · rw [List.dropWhile_cons_of_pos (by simpa using heq)]
      exact ih hxs fun y hy => hle y (List.mem_cons_of_mem _ hy)
    · rw [List.dropWhile_cons_of_neg (by simpa using heq)]
      have hxle := hle x List.mem_cons_self
      refine ⟨h, fun y hy => ?_⟩
      rcases List.mem_cons.mp hy with rfl | hy
      · omega
      · have hge := hx (depth y) (List.mem_map_of_mem hy)
        omega

variable {t : ScopeTracker} {n : Nat}

theorem onOpen_level (h : t.core.Level n) (pre_state : State) (opener : UInt8) (schema : Schema) :
    (t.onOpen pre_state opener schema).core.Level (n + 1) := by
  have hdepth : t.depth = n := h.depth
  have hests := pairwise_deeper h.ests h.ests_le (t.last_ident.any ESTABLISHING_METHODS.contains)
  have hrefs := pairwise_deeper h.refs h.refs_le (t.last_ident.any REF_METHODS.contains)
  simp only [core] at hests hrefs
  unfold onOpen
  constructor
  case depth => exact congrArg (· + 1) hdepth
  case receivers => exact congrArg (· + 1) h.receivers
  case tildes => exact congrArg (· + 1) h.tildes
  case braces => exact congrArg (· + 1) h.braces
  case returns => exact congrArg (· + 1) h.returns
  case binders => exact h.binders
  case binders_le => exact fun save hs => Nat.le_succ_of_le (h.binders_le save hs)
  case scopes => exact h.scopes
  case scopes_le => exact fun save hs => Nat.le_succ_of_le (h.scopes_le save hs)
  case ests => simp only [core, hdepth]; exact hests.1
  case ests_le => simp only [core, hdepth]; exact hests.2
  case refs => simp only [core, hdepth]; exact hrefs.1
  case refs_le => simp only [core, hdepth]; exact hrefs.2

/-! ## Pipes -/

/-- What a pipe does with the frames: it may save one binder of the innermost
frame. -/
theorem bindLambda_frames (t : ScopeTracker) :
    ∃ saves : List BinderSave, (∀ save ∈ saves, save.depth = t.depth) ∧
      t.bindLambda.core = { t.core with
        binder_saves := saves ++ t.binder_saves
        var_class := t.bindLambda.var_class
        relation_row_vars := t.bindLambda.relation_row_vars
        var_reducer_type := t.bindLambda.var_reducer_type } := by
  have hone : ∀ save : BinderSave, save.depth = t.depth → ∀ s ∈ [save], s.depth = t.depth := by
    intro save hsave s hs
    rw [List.mem_singleton.mp hs]
    exact hsave
  unfold bindLambda
  split
  · exact ⟨[t.saveBinder _], hone _ rfl, rfl⟩
  · split
    · exact ⟨[t.saveBinder _], hone _ rfl, rfl⟩
    · dsimp only
      split
      · exact ⟨[⟨t.depth, _, none, false, _⟩], hone _ rfl, rfl⟩
      · exact ⟨[], nofun, rfl⟩

/-- New saves of the innermost frame in front of the old. -/
theorem pairwise_saves {α : Type} (depth : α → Nat) {new old : List α} {n : Nat}
    (hnew : ∀ x ∈ new, depth x = n) (h : (old.map depth).Pairwise (· ≥ ·))
    (hle : ∀ x ∈ old, depth x ≤ n) :
    ((new ++ old).map depth).Pairwise (· ≥ ·) ∧ ∀ x ∈ new ++ old, depth x ≤ n := by
  induction new with
  | nil => exact ⟨h, hle⟩
  | cons x new ih =>
    have hx := hnew x List.mem_cons_self
    obtain ⟨hpair, hall⟩ := ih fun y hy => hnew y (List.mem_cons_of_mem _ hy)
    refine ⟨List.pairwise_cons.mpr ⟨?_, hpair⟩, ?_⟩
    · intro d hd
      obtain ⟨y, hy, rfl⟩ := List.mem_map.mp hd
      rw [hx]
      exact hall y hy
    · intro y hy
      rcases List.mem_cons.mp hy with rfl | hy
      · exact Nat.le_of_eq hx
      · exact hall y hy

theorem bindLambda_level (h : t.core.Level n) : t.bindLambda.core.Level n := by
  obtain ⟨saves, hsaves, hcore⟩ := bindLambda_frames t
  have hdepth : t.depth = n := h.depth
  rw [hdepth] at hsaves
  have hbinders := pairwise_saves BinderSave.depth hsaves h.binders h.binders_le
  rw [hcore]
  exact ⟨h.depth, h.receivers, h.tildes, h.braces, h.returns, hbinders.1, hbinders.2, h.scopes,
    h.scopes_le, h.ests, h.ests_le, h.refs, h.refs_le⟩

/-- What a pipe saves before it binds. -/
def pipeSaved (t : ScopeTracker) : ScopeTracker :=
  { t with
    brace_binder_open := match t.brace_binder_open with
      | [] => []
      | _ :: rest => false :: rest
    scope_saves :=
      ⟨t.depth, t.cur_class, t.rel_explicit, t.saw_tilde_bracket⟩ :: t.scope_saves }

theorem onPipe_eq (t : ScopeTracker) (pre_state : State) :
    t.onPipe pre_state =
      if pre_state = .Start || pre_state = .ExpectSource then t else t.pipeSaved.bindLambda := rfl

theorem pipeSaved_level (h : t.core.Level n) : t.pipeSaved.core.Level n := by
  have hbraces : t.brace_binder_open.length = n := h.braces
  have hsave : ∀ save ∈ [(⟨t.depth, t.cur_class, t.rel_explicit, t.saw_tilde_bracket⟩ :
      ScopeSave)], save.depth = n := by
    intro save hs
    rw [List.mem_singleton.mp hs]
    exact h.depth
  have hscopes := pairwise_saves ScopeSave.depth hsave h.scopes h.scopes_le
  constructor
  case braces =>
    rw [← hbraces]
    unfold pipeSaved
    cases t.brace_binder_open <;> rfl
  case scopes => exact hscopes.1
  case scopes_le => exact hscopes.2
  case depth => exact h.depth
  case receivers => exact h.receivers
  case tildes => exact h.tildes
  case returns => exact h.returns
  case binders => exact h.binders
  case binders_le => exact h.binders_le
  case ests => exact h.ests
  case ests_le => exact h.ests_le
  case refs => exact h.refs
  case refs_le => exact h.refs_le

theorem onPipe_level (h : t.core.Level n) (pre_state : State) :
    (t.onPipe pre_state).core.Level n := by
  rw [onPipe_eq]
  split
  · exact h
  · exact bindLambda_level (pipeSaved_level h)

/-! ## Closing -/

/-- Restoring a binder leaves the frames, and changes the three maps alone. -/
theorem restoreBinder_core (t : ScopeTracker) (save : BinderSave) :
    (t.restoreBinder save).core = { t.core with
      var_class := (t.restoreBinder save).var_class
      relation_row_vars := (t.restoreBinder save).relation_row_vars
      var_reducer_type := (t.restoreBinder save).var_reducer_type } := rfl

/-- The binders of the depth that closes are restored one after the other. -/
theorem restoreBinders_eq (t : ScopeTracker) (saves : List BinderSave) :
    t.restoreBinders saves =
      { (saves.takeWhile fun save => save.depth = t.depth).foldl restoreBinder t with
        binder_saves := saves.dropWhile fun save => save.depth = t.depth } := by
  induction saves generalizing t with
  | nil => rfl
  | cons save rest ih =>
    unfold restoreBinders
    by_cases hdepth : save.depth = t.depth
    · rw [if_pos hdepth, ih, List.takeWhile_cons_of_pos (by simpa using hdepth),
        List.dropWhile_cons_of_pos (by simpa using hdepth)]
      rfl
    · rw [if_neg hdepth, List.takeWhile_cons_of_neg (by simpa using hdepth),
        List.dropWhile_cons_of_neg (by simpa using hdepth)]
      rfl

theorem restoreFold_core (t : ScopeTracker) (saves : List BinderSave) :
    (saves.foldl restoreBinder t).core = { t.core with
      var_class := (saves.foldl restoreBinder t).var_class
      relation_row_vars := (saves.foldl restoreBinder t).relation_row_vars
      var_reducer_type := (saves.foldl restoreBinder t).var_reducer_type } := by
  induction saves generalizing t with
  | nil => rfl
  | cons save rest ih =>
    rw [List.foldl_cons, ih, restoreBinder_core]

theorem restoreScopes_core (t : ScopeTracker) (saves : List ScopeSave) :
    (t.restoreScopes saves).core =
      { t.core with scope_saves := saves.dropWhile fun save => save.depth = t.depth } := by
  induction saves generalizing t with
  | nil => rfl
  | cons save rest ih =>
    unfold restoreScopes
    by_cases hdepth : save.depth = t.depth
    · rw [if_pos hdepth, ih, List.dropWhile_cons_of_pos (by simpa using hdepth)]
      rfl
    · rw [if_neg hdepth, List.dropWhile_cons_of_neg (by simpa using hdepth)]
      rfl

theorem leaveFrame_core (t : ScopeTracker) :
    t.leaveFrame.core = { t.core with
      depth := t.core.depth - 1
      paren_receiver := t.core.paren_receiver.tail
      tilde_open := t.core.tilde_open.tail
      brace_binder_open := t.core.brace_binder_open.tail
      call_return := t.core.call_return.tail
      est_stack :=
        if t.core.est_stack.head? = some t.core.depth then t.core.est_stack.tail
        else t.core.est_stack
      ref_stack :=
        if t.core.ref_stack.head? = some t.core.depth then t.core.ref_stack.tail
        else t.core.ref_stack } := by
  unfold leaveFrame core
  dsimp only

/-- What a closing bracket does: it restores the binders of its frame, drops
the saves of it, and leaves it. -/
theorem onClose_core (t : ScopeTracker) :
    t.onClose.core =
      { depth := t.depth - 1
        paren_receiver := t.paren_receiver.tail
        tilde_open := t.tilde_open.tail
        brace_binder_open := t.brace_binder_open.tail
        call_return := t.call_return.tail
        est_stack :=
          if t.est_stack.head? = some t.depth then t.est_stack.tail else t.est_stack
        ref_stack :=
          if t.ref_stack.head? = some t.depth then t.ref_stack.tail else t.ref_stack
        binder_saves := t.binder_saves.dropWhile fun save => save.depth = t.depth
        scope_saves := t.scope_saves.dropWhile fun save => save.depth = t.depth
        var_class := ((t.binder_saves.takeWhile fun save => save.depth = t.depth).foldl
          restoreBinder t.endCall).var_class
        relation_row_vars := ((t.binder_saves.takeWhile fun save => save.depth = t.depth).foldl
          restoreBinder t.endCall).relation_row_vars
        var_reducer_type := ((t.binder_saves.takeWhile fun save => save.depth = t.depth).foldl
          restoreBinder t.endCall).var_reducer_type } := by
  have hbinders : (t.endCall.restoreBinders t.endCall.binder_saves).core =
      { ((t.binder_saves.takeWhile fun save => save.depth = t.depth).foldl
          restoreBinder t.endCall).core with
        binder_saves := t.binder_saves.dropWhile fun save => save.depth = t.depth } := by
    rw [restoreBinders_eq]
    rfl
  rw [restoreFold_core] at hbinders
  have hscopes := restoreScopes_core (t.endCall.restoreBinders t.endCall.binder_saves)
    (t.endCall.restoreBinders t.endCall.binder_saves).scope_saves
  have hsaves : (t.endCall.restoreBinders t.endCall.binder_saves).scope_saves = t.scope_saves :=
    congrArg Core.scope_saves hbinders
  have hdepth : (t.endCall.restoreBinders t.endCall.binder_saves).depth = t.depth :=
    congrArg Core.depth hbinders
  rw [hbinders, hsaves, hdepth] at hscopes
  unfold onClose
  dsimp only
  rw [leaveFrame_core, hsaves, hscopes]
  rfl

theorem onClose_level (h : t.core.Level (n + 1)) : t.onClose.core.Level n := by
  have hdepth : t.depth = n + 1 := h.depth
  have hbinders := dropWhile_shallower BinderSave.depth h.binders h.binders_le
  have hscopes := dropWhile_shallower ScopeSave.depth h.scopes h.scopes_le
  have hests := pairwise_shallower h.ests h.ests_le
  have hrefs := pairwise_shallower h.refs h.refs_le
  rw [onClose_core, hdepth]
  have htail : ∀ {α : Type} {xs : List α}, xs.length = n + 1 → xs.tail.length = n := by
    intro α xs hxs
    rw [List.length_tail, hxs]
    rfl
  exact ⟨rfl, htail h.receivers, htail h.tildes, htail h.braces, htail h.returns, hbinders.1,
    hbinders.2, hscopes.1, hscopes.2, hests.1, hests.2, hrefs.1, hrefs.2⟩

/-! ## Which pieces are brackets -/

def OPENERS : List (List UInt8) := [lit "(", lit "[", lit "\x7b"]

def CLOSERS : List (List UInt8) := [lit ")", lit "]", lit "\x7d"]

theorem classify_brackets : (∀ unit ∈ OPENERS, classify unit = .Open) ∧
    ∀ unit ∈ CLOSERS, classify unit = .Close := by decide

theorem classify_open {bytes : List UInt8} : classify bytes = .Open ↔ bytes ∈ OPENERS := by
  refine ⟨fun h => ?_, classify_brackets.1 bytes⟩
  unfold classify at h
  iterate 7 replace h := eq_of_ite h nofun
  by_cases hopen : [lit "(", lit "[", lit "\x7b"].contains bytes = true
  · exact List.contains_iff_mem.mp hopen
  · rw [if_neg hopen] at h
    replace h := eq_of_ite h nofun
    cases bytes with
    | nil => cases h
    | cons first rest =>
      dsimp only at h
      iterate 4 replace h := eq_of_ite h nofun
      cases h

theorem classify_close {bytes : List UInt8} : classify bytes = .Close ↔ bytes ∈ CLOSERS := by
  refine ⟨fun h => ?_, classify_brackets.2 bytes⟩
  unfold classify at h
  iterate 8 replace h := eq_of_ite h nofun
  by_cases hclose : [lit ")", lit "]", lit "\x7d"].contains bytes = true
  · exact List.contains_iff_mem.mp hclose
  · rw [if_neg hclose] at h
    cases bytes with
    | nil => cases h
    | cons first rest =>
      dsimp only at h
      iterate 4 replace h := eq_of_ite h nofun
      cases h

/-- No operator of two bytes is a bracket, and none ends with one. -/
theorem twoByteOps_plain : ∀ op ∈ TWO_BYTE_OPS,
    classify op ≠ .Open ∧ classify op ≠ .Close ∧ op.tail ∉ OPENERS ∧ op.tail ∉ CLOSERS := by
  decide

theorem classifyAt_open {bytes : List UInt8} {anchor : State} :
    classifyAt bytes anchor = .Open ↔ bytes ∈ OPENERS := by
  unfold classifyAt
  split
  · rename_i first second _
    split
    · rename_i hop
      have hplain := twoByteOps_plain _ (List.contains_iff_mem.mp hop)
      exact ⟨fun h => absurd h hplain.1, fun h => absurd h hplain.2.2.1⟩
    · exact classify_open
  · exact classify_open

theorem classifyAt_close {bytes : List UInt8} {anchor : State} :
    classifyAt bytes anchor = .Close ↔ bytes ∈ CLOSERS := by
  unfold classifyAt
  split
  · rename_i first second _
    split
    · rename_i hop
      have hplain := twoByteOps_plain _ (List.contains_iff_mem.mp hop)
      exact ⟨fun h => absurd h hplain.2.1, fun h => absurd h hplain.2.2.2⟩
    · exact classify_close
  · exact classify_close

theorem mem_openers {b : UInt8} {rest : List UInt8} :
    b :: rest ∈ OPENERS ↔ (openerOf b).isSome = true ∧ rest = [] := by
  have hopeners : OPENERS = [[('(' : UInt8)], [('[' : UInt8)], [('{' : UInt8)]] := by decide
  have hopener : (openerOf b).isSome = true ↔ b = '(' ∨ b = '[' ∨ b = '{' := by
    unfold openerOf
    grind
  rw [hopeners, hopener]
  simp only [List.mem_cons, List.cons.injEq, List.not_mem_nil, or_false, or_and_right]

theorem mem_closers {b : UInt8} {rest : List UInt8} :
    b :: rest ∈ CLOSERS ↔ (closerOf b).isSome = true ∧ rest = [] := by
  have hclosers : CLOSERS = [[(')' : UInt8)], [(']' : UInt8)], [('}' : UInt8)]] := by decide
  have hcloser : (closerOf b).isSome = true ↔ b = ')' ∨ b = ']' ∨ b = '}' := by
    unfold closerOf
    grind
  rw [hclosers, hcloser]
  simp only [List.mem_cons, List.cons.injEq, List.not_mem_nil, or_false, or_and_right]

end purecard.scope.ScopeTracker
