-- The names that a stream binds, and what a closing bracket makes of them. A
-- pipe keeps what its binder shadows, and the bracket that closes puts it back.
import Mathlib.Logic.Function.Basic
import PureAnalyzer.Lockstep

namespace purecard.scope.ScopeTracker

open pushdown pda model session.DecoderSession

/-! ## Bindings -/

/-- What every name is bound to: its class, whether it is a row of a
relation, and the type that a reducer finds in it. -/
@[ext]
structure Bindings where
  classes : Text → Option (Option Text)
  rows : Text → Bool
  reducers : Text → Option TypeClass

/-- The bindings of the tracker, as maps on names. -/
def bindings (t : ScopeTracker) : Bindings :=
  ⟨fun name => t.var_class.lookup name, fun name => t.relation_row_vars.contains name,
    fun name => t.var_reducer_type.lookup name⟩

theorem bindings_of_core {t u : ScopeTracker} (h : u.core = t.core) : u.bindings = t.bindings := by
  have hclasses : u.var_class = t.var_class := congrArg Core.var_class h
  have hrows : u.relation_row_vars = t.relation_row_vars := congrArg Core.relation_row_vars h
  have hreducers : u.var_reducer_type = t.var_reducer_type := congrArg Core.var_reducer_type h
  unfold bindings
  rw [hclasses, hrows, hreducers]

namespace Bindings

def bind (b : Bindings) (name : Text) (cls : Option (Option Text)) (row : Bool)
    (reducer : Option TypeClass) : Bindings :=
  ⟨Function.update b.classes name cls, Function.update b.rows name row,
    Function.update b.reducers name reducer⟩

/-- Puts back what a binder shadowed. -/
def restore (b : Bindings) (save : BinderSave) : Bindings :=
  b.bind save.name save.prev_class save.prev_relation_row save.prev_reducer_type

/-- Puts back what several binders shadowed, the latest first. -/
def unwind (b : Bindings) (saves : List BinderSave) : Bindings := saves.foldl restore b

variable (b : Bindings)

theorem bind_bind (name : Text) (cls cls' : Option (Option Text)) (row row' : Bool)
    (reducer reducer' : Option TypeClass) :
    (b.bind name cls row reducer).bind name cls' row' reducer' =
      b.bind name cls' row' reducer' := by
  simp [bind]

theorem bind_self (name : Text) :
    b.bind name (b.classes name) (b.rows name) (b.reducers name) = b := by
  simp [bind]

theorem bind_comm {name other : Text} (hne : name ≠ other) (cls cls' : Option (Option Text))
    (row row' : Bool) (reducer reducer' : Option TypeClass) :
    (b.bind name cls row reducer).bind other cls' row' reducer' =
      (b.bind other cls' row' reducer').bind name cls row reducer := by
  unfold bind
  rw [Function.update_comm hne, Function.update_comm hne, Function.update_comm hne]

/-- Restoring a name forgets what it was bound to. -/
theorem restore_bind (save : BinderSave) (cls : Option (Option Text)) (row : Bool)
    (reducer : Option TypeClass) :
    (b.bind save.name cls row reducer).restore save = b.restore save :=
  bind_bind b save.name _ _ _ _ _ _

theorem unwind_bind {saves : List BinderSave} {name : Text}
    (h : ∃ save ∈ saves, save.name = name) (cls : Option (Option Text)) (row : Bool)
    (reducer : Option TypeClass) :
    (b.bind name cls row reducer).unwind saves = b.unwind saves := by
  induction saves generalizing b with
  | nil =>
    obtain ⟨save, hsave, -⟩ := h
    cases hsave
  | cons save rest ih =>
    unfold unwind
    rw [List.foldl_cons, List.foldl_cons]
    by_cases hname : save.name = name
    · subst hname
      rw [restore_bind]
    · have hrest : ∃ other ∈ rest, other.name = name := by
        obtain ⟨other, hother, hsame⟩ := h
        rcases List.mem_cons.mp hother with rfl | hother
        · exact absurd hsame hname
        · exact ⟨other, hother, hsame⟩
      have hcomm : (b.bind name cls row reducer).restore save =
          (b.restore save).bind name cls row reducer := bind_comm b (Ne.symm hname) _ _ _ _ _ _
      rw [hcomm]
      exact ih (b.restore save) hrest

end Bindings

/-! ## The maps of the tracker -/

theorem lookup_cons_ne {α : Type} {key other : Text} (hne : other ≠ key) (v : α) (m : Map α) :
    ((key, v) :: m).lookup other = m.lookup other := by
  rw [List.lookup_cons, beq_eq_false_iff_ne.mpr hne]

theorem lookup_filter {α : Type} (m : Map α) (name other : Text) :
    (m.filter fun e => e.1 ≠ name).lookup other =
      if other = name then none else m.lookup other := by
  induction m with
  | nil => simp
  | cons e m ih =>
    obtain ⟨key, value⟩ := e
    by_cases hkey : key = name
    · subst hkey
      rw [List.filter_cons_of_neg (by simp), ih]
      by_cases hother : other = key
      · rw [if_pos hother, if_pos hother]
      · rw [if_neg hother, if_neg hother, lookup_cons_ne hother]
    · rw [List.filter_cons_of_pos (by simpa using hkey)]
      by_cases hother : other = key
      · subst hother
        rw [if_neg hkey, List.lookup_cons_self, List.lookup_cons_self]
      · rw [lookup_cons_ne hother, lookup_cons_ne hother, ih]

theorem lookup_insert {α : Type} (m : Map α) (name : Text) (v : α) :
    (fun other => (m.insert name v).lookup other) =
      Function.update (fun other => m.lookup other) name (some v) := by
  funext other
  unfold Map.insert
  by_cases hother : other = name
  · subst hother
    rw [List.lookup_cons_self, Function.update_self]
  · rw [lookup_cons_ne hother, lookup_filter, if_neg hother, Function.update_of_ne hother]

theorem lookup_remove {α : Type} (m : Map α) (name : Text) :
    (fun other => (m.remove name).lookup other) =
      Function.update (fun other => m.lookup other) name none := by
  funext other
  unfold Map.remove
  rw [lookup_filter]
  by_cases hother : other = name <;> simp [hother]

theorem contains_setInsert (s : List Text) (name : Text) :
    (fun other => (setInsert s name).contains other) =
      Function.update (fun other => s.contains other) name true := by
  funext other
  unfold setInsert
  by_cases hother : other = name
  · subst hother
    by_cases hmem : other ∈ s <;> simp [hmem]
  · by_cases hmem : name ∈ s <;> simp [hmem, hother]

theorem contains_setRemove (s : List Text) (name : Text) :
    (fun other => (setRemove s name).contains other) =
      Function.update (fun other => s.contains other) name false := by
  funext other
  unfold setRemove
  by_cases hother : other = name <;> simp [hother]

theorem restoreBinder_bindings (t : ScopeTracker) (save : BinderSave) :
    (t.restoreBinder save).bindings = t.bindings.restore save := by
  ext1
  · cases hprev : save.prev_class with
    | none =>
      simp only [restoreBinder, bindings, hprev, Bindings.restore, Bindings.bind, lookup_remove]
    | some cls =>
      simp only [restoreBinder, bindings, hprev, Bindings.restore, Bindings.bind, lookup_insert]
  · cases hprev : save.prev_relation_row with
    | false =>
      simp only [restoreBinder, bindings, hprev, Bindings.restore, Bindings.bind,
        Bool.false_eq_true, if_false, contains_setRemove]
    | true =>
      simp only [restoreBinder, bindings, hprev, Bindings.restore, Bindings.bind, if_true,
        contains_setInsert]
  · cases hprev : save.prev_reducer_type with
    | none =>
      simp only [restoreBinder, bindings, hprev, Bindings.restore, Bindings.bind, lookup_remove]
    | some tc =>
      simp only [restoreBinder, bindings, hprev, Bindings.restore, Bindings.bind, lookup_insert]

theorem restoreFold_bindings (t : ScopeTracker) (saves : List BinderSave) :
    (saves.foldl restoreBinder t).bindings = t.bindings.unwind saves := by
  induction saves generalizing t with
  | nil => rfl
  | cons save rest ih =>
    unfold Bindings.unwind
    rw [List.foldl_cons, List.foldl_cons, ih, restoreBinder_bindings]
    rfl

/-- A closing bracket unwinds the binders of its own frame. -/
theorem onClose_bindings (t : ScopeTracker) :
    t.onClose.bindings =
      t.bindings.unwind (t.binder_saves.takeWhile fun s => s.depth = t.depth) := by
  have hcore := onClose_core t
  have hfold := restoreFold_bindings t.endCall
    (t.binder_saves.takeWhile fun save => save.depth = t.depth)
  have hclasses := congrArg Core.var_class hcore
  have hrows := congrArg Core.relation_row_vars hcore
  have hreducers := congrArg Core.var_reducer_type hcore
  simp only [core] at hclasses hrows hreducers
  unfold bindings
  rw [hclasses, hrows, hreducers]
  exact hfold

/-! ## What a pipe shadows -/

/-- The name that a pipe binds by its element type alone, with nothing kept of
its class: the type had brackets of its own, and these ended the open binder. -/
def wiped (t : ScopeTracker) : Option Text :=
  match t.pending_binder_class, t.lambda_first_ident, t.pending_binder_element with
  | some _, _, _ => none
  | none, some (_ :: _), _ => none
  | none, _, some (name, _) => some name
  | none, _, none => none

/-- A pipe that keeps all it must: a name that it wipes has no class and is
no row, or the same frame has a save of it. -/
def Visit.keepsShadowed (v : Visit) : Bool :=
  v.lexeme != .Pipe || v.anchor = .Start || v.anchor = .ExpectSource ||
    v.tracker.wiped.all fun name =>
      ((v.tracker.var_class.lookup name).isNone && !v.tracker.relation_row_vars.contains name) ||
        v.tracker.binder_saves.any fun save =>
          save.depth = v.tracker.depth && save.name = name

/-- What binding does: nothing, or one name is bound and its save is on top. -/
structure Shadows (t u : ScopeTracker) (save : BinderSave) : Prop where
  depth : save.depth = t.depth
  saves : u.binder_saves = save :: t.binder_saves
  bound : ∃ cls row reducer, u.bindings = t.bindings.bind save.name cls row reducer
  kept : save = t.saveBinder save.name ∨ t.wiped = some save.name ∧
    save = ⟨t.depth, save.name, none, false, t.var_reducer_type.lookup save.name⟩

/-- A binder that opened is bound to the receiver, or to a row. -/
theorem bindLambda_named {t : ScopeTracker} {name : Text} (hcls : t.pending_binder_class = none)
    (hname : t.lambda_first_ident = some name) (hne : name ≠ []) :
    Shadows t t.bindLambda (t.saveBinder name) := by
  obtain ⟨b, rest, rfl⟩ := List.exists_cons_of_ne_nil hne
  refine ⟨rfl, ?_, ?_, .inl rfl⟩
  · unfold bindLambda
    rw [hcls, hname]
  · unfold bindLambda
    rw [hcls, hname]
    dsimp only
    cases (t.paren_receiver.head?.join.isNone && t.rel_explicit && t.saw_tilde_bracket) <;>
      cases t.pending_binder_element <;>
      simp only [bindings, saveBinder, Bool.false_eq_true, if_true, if_false, lookup_insert,
        lookup_remove, contains_setInsert, contains_setRemove] <;>
      exact ⟨_, _, _, rfl⟩

theorem bindLambda_shadows (t : ScopeTracker) :
    t.bindLambda.core = t.core ∨ ∃ save, Shadows t t.bindLambda save := by
  cases hcls : t.pending_binder_class with
  | some pair =>
    obtain ⟨name, cls⟩ := pair
    refine .inr ⟨t.saveBinder name, rfl, ?_, ⟨some (some cls), false, none, ?_⟩, .inl rfl⟩
    · unfold bindLambda
      rw [hcls]
    · unfold bindLambda
      rw [hcls]
      simp only [bindings, Bindings.bind, saveBinder, lookup_insert, lookup_remove,
        contains_setRemove]
  | none =>
    by_cases hnamed : ∃ name, t.lambda_first_ident = some name ∧ name ≠ []
    · obtain ⟨name, hname, hne⟩ := hnamed
      exact .inr ⟨_, bindLambda_named hcls hname hne⟩
    · have hopen : t.lambda_first_ident = none ∨ t.lambda_first_ident = some [] := by
        cases hname : t.lambda_first_ident with
        | none => exact .inl rfl
        | some name =>
          refine .inr (congrArg some ?_)
          by_contra hne
          exact hnamed ⟨name, hname, hne⟩
      cases helement : t.pending_binder_element with
      | none =>
        left
        unfold bindLambda
        rcases hopen with hopen | hopen <;> rw [hcls, hopen] <;> dsimp only <;> rw [helement] <;>
          rfl
      | some pair =>
        obtain ⟨name, tc⟩ := pair
        have hlambda : t.bindLambda = { t with
            lambda_first_ident := none
            pending_binder_element := none
            binder_saves :=
              ⟨t.depth, name, none, false, t.var_reducer_type.lookup name⟩ :: t.binder_saves
            var_reducer_type := t.var_reducer_type.insert name tc } := by
          unfold bindLambda
          rcases hopen with hopen | hopen <;> rw [hcls, hopen] <;> dsimp only <;> rw [helement]
        refine .inr ⟨⟨t.depth, name, none, false, t.var_reducer_type.lookup name⟩, rfl, ?_,
          ⟨t.bindings.classes name, t.bindings.rows name, some tc, ?_⟩, .inr ⟨?_, rfl⟩⟩
        · rw [hlambda]
        · rw [hlambda]
          simp only [bindings, Bindings.bind, lookup_insert, Function.update_eq_self]
        · unfold wiped
          rcases hopen with hopen | hopen <;> rw [hcls, hopen, helement]

/-! ## The bindings of the open frames -/

/-- Unwinding the binders of the frames from depth `n` outwards gives, frame
by frame, the bindings where each of them opened. -/
def Unwinds : Nat → Bindings → List BinderSave → List Bindings → Prop
  | _, _, _, [] => True
  | n, b, saves, base :: rest =>
    b.unwind (saves.takeWhile fun save => save.depth = n) = base ∧
      Unwinds (n - 1) base (saves.dropWhile fun save => save.depth = n) rest

theorem unwinds_open {n : Nat} {b : Bindings} {saves : List BinderSave} {bases : List Bindings}
    (h : Unwinds n b saves bases) (hle : ∀ save ∈ saves, save.depth ≤ n) :
    Unwinds (n + 1) b saves (b :: bases) := by
  cases saves with
  | nil => exact ⟨rfl, h⟩
  | cons save rest =>
    have hne : save.depth ≠ n + 1 := by
      have hsave := hle save List.mem_cons_self
      omega
    refine ⟨?_, ?_⟩
    · rw [List.takeWhile_cons_of_neg (by simpa using hne)]
      rfl
    · rw [List.dropWhile_cons_of_neg (by simpa using hne)]
      exact h

/-- A save on top that restores what the pipe bound. -/
theorem unwinds_push {n : Nat} {b bound : Bindings} {save : BinderSave} {saves : List BinderSave}
    {bases : List Bindings} (h : Unwinds n b saves bases) (hdepth : save.depth = n)
    (hbound : (bound.restore save).unwind (saves.takeWhile fun s => s.depth = n) =
      b.unwind (saves.takeWhile fun s => s.depth = n)) :
    Unwinds n bound (save :: saves) bases := by
  cases bases with
  | nil => trivial
  | cons base rest =>
    obtain ⟨hbase, hrest⟩ := h
    refine ⟨?_, ?_⟩
    · rw [List.takeWhile_cons_of_pos (by simpa using hdepth), ← hbase, ← hbound]
      rfl
    · rw [List.dropWhile_cons_of_pos (by simpa using hdepth)]
      exact hrest

/-- The saves of the deepest frame are in front. -/
theorem mem_takeWhile_deepest {saves : List BinderSave} {n : Nat} {save : BinderSave}
    (hpair : (saves.map BinderSave.depth).Pairwise (· ≥ ·)) (hle : ∀ s ∈ saves, s.depth ≤ n)
    (hmem : save ∈ saves) (hdepth : save.depth = n) :
    save ∈ saves.takeWhile fun s => s.depth = n := by
  induction saves with
  | nil => cases hmem
  | cons first rest ih =>
    obtain ⟨hfirst, hrest⟩ := List.pairwise_cons.mp hpair
    have hdeep : first.depth = n := by
      rcases List.mem_cons.mp hmem with rfl | hmem
      · exact hdepth
      · have hge := hfirst save.depth (List.mem_map_of_mem hmem)
        have hfle := hle first List.mem_cons_self
        omega
    rw [List.takeWhile_cons_of_pos (by simpa using hdeep)]
    rcases List.mem_cons.mp hmem with rfl | hmem
    · exact List.mem_cons_self
    · exact List.mem_cons_of_mem _
        (ih hrest (fun s hs => hle s (List.mem_cons_of_mem _ hs)) hmem)

/-- A pipe that keeps what it shadows can be unwound. -/
theorem shadows_unwind {t u : ScopeTracker} {save : BinderSave} {n : Nat}
    (hlevel : t.core.Level n) (h : Shadows t u save)
    (hkeeps : t.wiped.all (fun name =>
      ((t.var_class.lookup name).isNone && !t.relation_row_vars.contains name) ||
        t.binder_saves.any fun s => s.depth = t.depth && s.name = name) = true) :
    (u.bindings.restore save).unwind (t.binder_saves.takeWhile fun s => s.depth = n) =
      t.bindings.unwind (t.binder_saves.takeWhile fun s => s.depth = n) := by
  obtain ⟨cls, row, reducer, hbound⟩ := h.bound
  have hdepth : t.depth = n := hlevel.depth
  rw [hbound, Bindings.restore_bind]
  rcases h.kept with hsave | ⟨hwiped, hsave⟩
  · rw [hsave]
    exact congrArg (Bindings.unwind · _) (t.bindings.bind_self _)
  · rw [hwiped, Option.all_some, Bool.or_eq_true, Bool.and_eq_true, List.any_eq_true] at hkeeps
    rcases hkeeps with ⟨hclass, hrow⟩ | ⟨other, hother, hsame⟩
    · -- there was nothing to keep
      have hfull : save = t.saveBinder save.name := by
        rw [Option.isNone_iff_eq_none] at hclass
        rw [Bool.not_eq_true'] at hrow
        rw [hsave]
        simp only [saveBinder, hclass, hrow]
      rw [hfull]
      exact congrArg (Bindings.unwind · _) (t.bindings.bind_self _)
    · -- the other save of the frame is restored later
      rw [Bool.and_eq_true, decide_eq_true_eq, decide_eq_true_eq, hdepth] at hsame
      have hfront := mem_takeWhile_deepest hlevel.binders hlevel.binders_le hother hsame.1
      exact Bindings.unwind_bind _ ⟨other, hfront, hsame.2⟩ _ _ _

theorem bindLambda_unwinds {t : ScopeTracker} {n : Nat} {bases : List Bindings}
    (hlevel : t.core.Level n) (h : Unwinds n t.bindings t.binder_saves bases)
    (hkeeps : t.wiped.all (fun name =>
      ((t.var_class.lookup name).isNone && !t.relation_row_vars.contains name) ||
        t.binder_saves.any fun s => s.depth = t.depth && s.name = name) = true) :
    Unwinds n t.bindLambda.bindings t.bindLambda.binder_saves bases := by
  rcases bindLambda_shadows t with hcore | ⟨save, hshadows⟩
  · rw [bindings_of_core hcore, show t.bindLambda.binder_saves = t.binder_saves from
      congrArg Core.binder_saves hcore]
    exact h
  · rw [hshadows.saves]
    exact unwinds_push h (hshadows.depth.trans hlevel.depth)
      (shadows_unwind hlevel hshadows hkeeps)

/-! ## Pieces -/

/-- The bindings where each open frame opened, innermost first. -/
def Visit.bases (v : Visit) (open_ : List Bindings) : List Bindings :=
  v.kept v.tracker.bindings open_

def bases (open_ : List Bindings) (vs : List Visit) : List Bindings :=
  vs.foldl (fun open_ v => v.bases open_) open_

variable {schema : Schema}

variable (schema) in
/-- One piece keeps the frames unwinding to where they opened. -/
theorem visit_unwinds {v : Visit} {n m : Nat} {open_ : List Bindings}
    (hlevel : v.tracker.core.Level n) (hv : v.level n = some m)
    (h : Unwinds n v.tracker.bindings v.tracker.binder_saves open_)
    (hkeeps : v.keepsShadowed = true) :
    Unwinds m (v.after schema).bindings (v.after schema).binder_saves (v.bases open_) := by
  unfold Visit.after
  simp only [Visit.level, level, decide_eq_true_eq] at hv
  unfold Visit.bases Visit.kept
  have hcarry : ∀ {u w : ScopeTracker} {k : Nat} {bs : List Bindings}, u.core = w.core →
      Unwinds k w.bindings w.binder_saves bs → Unwinds k u.bindings u.binder_saves bs := by
    intro u w k bs hcore hw
    rw [bindings_of_core hcore, show u.binder_saves = w.binder_saves from
      congrArg Core.binder_saves hcore]
    exact hw
  by_cases hopen : v.bytes ∈ OPENERS
  · rw [if_pos hopen] at hv ⊢
    obtain rfl := Option.some.inj hv
    refine hcarry (dispatchToken_open _ _ (classifyAt_open.mpr hopen)) ?_
    exact unwinds_open h hlevel.binders_le
  · rw [if_neg hopen] at hv ⊢
    by_cases hclose : v.bytes ∈ CLOSERS
    · rw [if_pos hclose] at hv ⊢
      cases n with
      | zero => cases hv
      | succ k =>
        obtain rfl := Option.some.inj hv
        refine hcarry (dispatchToken_close _ _ (classifyAt_close.mpr hclose)) ?_
        cases open_ with
        | nil => trivial
        | cons base rest =>
          have hsaves : v.tracker.onClose.binder_saves =
              v.tracker.binder_saves.dropWhile fun s => s.depth = v.tracker.depth :=
            congrArg Core.binder_saves (onClose_core v.tracker)
          rw [onClose_bindings, hsaves, show v.tracker.depth = k + 1 from hlevel.depth, h.1]
          exact h.2
    · rw [if_neg hclose] at hv ⊢
      obtain rfl := Option.some.inj hv
      by_cases hpipe : classifyAt v.bytes v.anchor = .Pipe
      · refine hcarry (dispatchToken_pipe _ _ hpipe) ?_
        have hlex : (v.lexeme != .Pipe) = false := by
          rw [show v.lexeme = .Pipe from hpipe]
          rfl
        rw [Visit.keepsShadowed, hlex, Bool.false_or, Bool.or_eq_true] at hkeeps
        rw [onPipe_eq]
        rcases hkeeps with hstart | hkeeps
        · rw [if_pos hstart]
          exact h
        · split
          · exact h
          · exact bindLambda_unwinds (pipeSaved_level hlevel) h hkeeps
      · refine hcarry (dispatchToken_core _ _ (mt classifyAt_open.mp hopen)
          (mt classifyAt_close.mp hclose) hpipe) h

/-! ## A run -/

theorem bases_cons (open_ : List Bindings) (v : Visit) (vs : List Visit) :
    bases open_ (v :: vs) = bases (v.bases open_) vs := rfl

/-- Pieces that close what they opened leave the frames around them. -/
theorem bases_around {vs : List Visit} {k j : Nat} {front back : List Bindings}
    (h : levels k vs = some j) (hk : front.length = k) :
    ∃ front', front'.length = j ∧ bases (front ++ back) vs = front' ++ back := by
  induction vs generalizing k front with
  | nil =>
    rw [levels_nil, Option.some.injEq] at h
    exact ⟨front, hk.trans h, rfl⟩
  | cons v vs ih =>
    rw [levels_cons, Option.bind_eq_some_iff] at h
    obtain ⟨m, hm, hvs⟩ := h
    simp only [Visit.level, level, decide_eq_true_eq] at hm
    rw [bases_cons]
    unfold Visit.bases Visit.kept
    by_cases hopen : v.bytes ∈ OPENERS
    · rw [if_pos hopen] at hm ⊢
      obtain rfl := Option.some.inj hm
      have hlen : (v.tracker.bindings :: front).length = k + 1 := congrArg (· + 1) hk
      exact ih hvs hlen
    · rw [if_neg hopen] at hm ⊢
      by_cases hclose : v.bytes ∈ CLOSERS
      · rw [if_pos hclose] at hm ⊢
        cases front with
        | nil =>
          obtain rfl : 0 = k := hk
          cases hm
        | cons base front =>
          obtain rfl : front.length + 1 = k := hk
          obtain rfl := Option.some.inj hm
          exact ih hvs rfl
      · rw [if_neg hclose] at hm ⊢
        obtain rfl := Option.some.inj hm
        exact ih hvs hk

theorem Trail.split {t u : ScopeTracker} {vs ws : List Visit}
    (h : Trail schema t (vs ++ ws) u) : ∃ w, Trail schema t vs w ∧ Trail schema w ws u := by
  induction vs generalizing t with
  | nil => exact ⟨t, ⟨t.pending, rfl⟩, h⟩
  | cons v vs ih =>
    obtain ⟨w, hvs, hws⟩ := ih h.2
    exact ⟨w, ⟨h.1, hvs⟩, hws⟩

theorem trail_unwinds {t u : ScopeTracker} {vs : List Visit} {n m : Nat} {open_ : List Bindings}
    (htrail : Trail schema t vs u) (hlevel : t.core.Level n) (hlevels : levels n vs = some m)
    (h : Unwinds n t.bindings t.binder_saves open_)
    (hkeeps : ∀ v ∈ vs, v.keepsShadowed = true) :
    Unwinds m u.bindings u.binder_saves (bases open_ vs) := by
  induction vs generalizing t n open_ with
  | nil =>
    obtain ⟨waiting, hu⟩ := htrail
    rw [levels_nil, Option.some.injEq] at hlevels
    subst hlevels
    rw [hu]
    exact h
  | cons v vs ih =>
    obtain ⟨⟨waiting, hv⟩, hrest⟩ := htrail
    rw [levels_cons, Option.bind_eq_some_iff] at hlevels
    obtain ⟨k, hk, hlevels⟩ := hlevels
    have hcore : v.tracker.core = t.core := by rw [hv]; rfl
    have hunwinds : Unwinds n v.tracker.bindings v.tracker.binder_saves open_ := by
      rw [hv]
      exact h
    rw [← hcore] at hlevel
    have hafter := visit_unwinds schema hlevel hk hunwinds
      (hkeeps v List.mem_cons_self)
    rw [bases_cons]
    exact ih hrest (dispatch_level schema hlevel hk).1 hlevels hafter
      fun w hw => hkeeps w (List.mem_cons_of_mem _ hw)

/-! ## Openers and closers -/

theorem level_shift {v : Visit} {n m : Nat} (h : v.level n = some m) (k : Nat) :
    v.level (n + k) = some (m + k) := by
  simp only [Visit.level, level] at h ⊢
  split at h
  · rename_i hopen
    obtain rfl := Option.some.inj h
    rw [if_pos hopen, Nat.add_right_comm]
  · rename_i hopen
    rw [if_neg hopen]
    split at h
    · rename_i hclose
      rw [if_pos hclose]
      cases n with
      | zero => cases h
      | succ n =>
        obtain rfl := Option.some.inj h
        rw [Nat.add_right_comm]
    · rename_i hclose
      obtain rfl := Option.some.inj h
      rw [if_neg hclose]

theorem levels_shift {vs : List Visit} {n m : Nat} (h : levels n vs = some m) (k : Nat) :
    levels (n + k) vs = some (m + k) := by
  induction vs generalizing n with
  | nil =>
    rw [levels_nil, Option.some.injEq] at h
    rw [levels_nil, h]
  | cons v vs ih =>
    rw [levels_cons, Option.bind_eq_some_iff] at h
    obtain ⟨j, hj, hvs⟩ := h
    rw [levels_cons, level_shift hj]
    exact ih hvs

/-- A level above 0 was opened, and all that opened after it has closed. -/
theorem levels_opener {k : Nat} {vs : List Visit} {m : Nat} (hk : vs.length ≤ k)
    (h : levels 0 vs = some (m + 1)) :
    ∃ pre opener mid, vs = pre ++ opener :: mid ∧ opener.bytes ∈ OPENERS ∧
      levels 0 pre = some m ∧ levels 0 mid = some 0 := by
  induction k generalizing vs m with
  | zero =>
    obtain rfl := List.length_eq_zero_iff.mp (Nat.le_zero.mp hk)
    cases h
  | succ k ih =>
    rcases vs.eq_nil_or_concat with rfl | ⟨ws, v, rfl⟩
    · cases h
    rw [List.concat_eq_append] at h hk ⊢
    rw [List.length_append, List.length_singleton, Nat.add_le_add_iff_right] at hk
    rw [levels_append, Option.bind_eq_some_iff] at h
    obtain ⟨j, hws, hv⟩ := h
    rw [levels_cons, Option.bind_eq_some_iff] at hv
    obtain ⟨j', hv, hj'⟩ := hv
    rw [levels_nil, Option.some.injEq] at hj'
    subst hj'
    have hshift := hv
    simp only [Visit.level, level, decide_eq_true_eq] at hv
    by_cases hopen : v.bytes ∈ OPENERS
    · rw [if_pos hopen, Option.some.injEq, Nat.add_right_cancel_iff] at hv
      subst hv
      exact ⟨ws, v, [], rfl, hopen, hws, rfl⟩
    · rw [if_neg hopen] at hv
      by_cases hclose : v.bytes ∈ CLOSERS
      · -- the frame that `v` closes stands after the opener
        rw [if_pos hclose] at hv
        cases j with
        | zero => cases hv
        | succ j =>
          obtain rfl := Option.some.inj hv
          obtain ⟨pre, inner, body, rfl, hinner, hpre, hbody⟩ := ih hk hws
          have hlen : pre.length ≤ k := by
            rw [List.length_append] at hk
            omega
          obtain ⟨pre, opener, mid, rfl, hopener, hpre, hmid⟩ := ih hlen hpre
          refine ⟨pre, opener, mid ++ inner :: body ++ [v], by simp, hopener, hpre, ?_⟩
          have hone : inner.level 0 = some 1 := by
            simp only [Visit.level, level, decide_eq_true_eq]
            rw [if_pos hinner]
          have hv : v.level 1 = some 0 := by
            simp only [Visit.level, level, decide_eq_true_eq]
            rw [if_neg hopen, if_pos hclose]
          rw [levels_append, levels_append, hmid, Option.bind_some, levels_cons, hone,
            Option.bind_some, levels_shift hbody 1, Option.bind_some, levels_cons, hv]
          rfl
      · rw [if_neg hclose] at hv
        obtain rfl := Option.some.inj hv
        obtain ⟨pre, opener, mid, rfl, hopener, hpre, hmid⟩ := ih hk hws
        refine ⟨pre, opener, mid ++ [v], by simp, hopener, hpre, ?_⟩
        have hv : v.level 0 = some 0 := by
          simp only [Visit.level, level, decide_eq_true_eq]
          rw [if_neg hopen, if_neg hclose]
        rw [levels_append, hmid, Option.bind_some, levels_cons, hv]
        rfl

/-! ## The laws -/

/-- The opener that closes next, after the pieces `before` it: all that opened
behind it has closed. -/
structure OpensFor (before pre : List Visit) (opener : Visit) (mid : List Visit) : Prop where
  split : before = pre ++ opener :: mid
  opens : opener.lexeme = .Open
  balanced : levels 0 mid = some 0

/-- Every closing piece of the stream gives the bindings where its opener was
read. -/
def RestoresScopes (schema : Schema) (tokens : List (List UInt8)) : Prop :=
  ∀ before closer post, visits schema new Pda.new tokens = before ++ closer :: post →
    closer.lexeme = .Close → ∀ pre opener mid, OpensFor before pre opener mid →
      (closer.after schema).bindings = opener.tracker.bindings

variable (schema) in
theorem new_levels {tokens : List (List UInt8)} {p : Pda}
    (h : Config.run step Pda.new tokens.flatten = some p) :
    levels 0 (visits schema new Pda.new tokens) = some p.stack.length :=
  visits_levels schema new_inStep (fun waiting hwaiting => by cases hwaiting) h

/-- Every closing piece has an opener. -/
theorem close_has_opener {tokens : List (List UInt8)} {p : Pda}
    (h : Config.run step Pda.new tokens.flatten = some p) {before post : List Visit}
    {closer : Visit} (hvs : visits schema new Pda.new tokens = before ++ closer :: post)
    (hclose : closer.lexeme = .Close) :
    ∃ pre opener mid, OpensFor before pre opener mid := by
  have hlevels := new_levels schema h
  rw [hvs, levels_append, Option.bind_eq_some_iff] at hlevels
  obtain ⟨k, hbefore, hafter⟩ := hlevels
  rw [levels_cons, Option.bind_eq_some_iff] at hafter
  obtain ⟨j, hj, -⟩ := hafter
  have hcloser : closer.bytes ∈ CLOSERS := classifyAt_close.mp hclose
  have hopener : closer.bytes ∉ OPENERS := by
    intro hopen
    have hlex : closer.lexeme = .Open := classifyAt_open.mpr hopen
    rw [hclose] at hlex
    cases hlex
  simp only [Visit.level, level, decide_eq_true_eq] at hj
  rw [if_neg hopener, if_pos hcloser] at hj
  cases k with
  | zero => cases hj
  | succ k =>
    obtain ⟨pre, opener, mid, hsplit, hopen, -, hmid⟩ := levels_opener (Nat.le_refl _) hbefore
    exact ⟨pre, opener, mid, hsplit, classifyAt_open.mpr hopen, hmid⟩

/-- However the bytes are cut, a bracket that closes has an opener, and gives
the bindings where that was read, when each pipe between them keeps what it
shadows. -/
theorem a_close_restores_the_bindings (schema : Schema) (tokens : List (List UInt8)) (p : Pda)
    (h : Config.run step Pda.new tokens.flatten = some p) (before post : List Visit)
    (closer : Visit) (hvs : visits schema new Pda.new tokens = before ++ closer :: post)
    (hclose : closer.lexeme = .Close) :
    (∃ pre opener mid, OpensFor before pre opener mid) ∧
      ∀ pre opener mid, OpensFor before pre opener mid →
        (∀ v ∈ mid, v.keepsShadowed = true) →
        (closer.after schema).bindings = opener.tracker.bindings := by
  refine ⟨close_has_opener h hvs hclose, ?_⟩
  rintro pre opener mid ⟨rfl, hopen, hmid⟩ hkeeps
  have htrail := visits_trail schema new Pda.new tokens
  have hlevels := new_levels schema h
  rw [hvs, List.append_assoc, List.cons_append] at htrail hlevels
  -- up to the opener
  obtain ⟨t, hpre, htrail⟩ := htrail.split
  rw [levels_append, Option.bind_eq_some_iff] at hlevels
  obtain ⟨n, hn, hlevels⟩ := hlevels
  have hlevel := (trail_level hpre new_level hn).1
  obtain ⟨⟨waiting, hopener⟩, htrail⟩ := htrail
  rw [levels_cons, Option.bind_eq_some_iff] at hlevels
  obtain ⟨n', hn', hlevels⟩ := hlevels
  have hcore : opener.tracker.core = t.core := by rw [hopener]; rfl
  rw [← hcore] at hlevel
  have hbytes : opener.bytes ∈ OPENERS := classifyAt_open.mp hopen
  have hsucc : n' = n + 1 := by
    simp only [Visit.level, level, decide_eq_true_eq] at hn'
    rw [if_pos hbytes] at hn'
    exact (Option.some.inj hn').symm
  subst hsucc
  have hafter : (opener.after schema).core.Level (n + 1) := (dispatch_level schema hlevel hn').1
  have hunwinds : Unwinds (n + 1) (opener.after schema).bindings
      (opener.after schema).binder_saves [opener.tracker.bindings] := by
    have hcore' : (opener.after schema).core = _ :=
      dispatchToken_open opener.tracker schema hopen
    rw [bindings_of_core hcore', show (opener.after schema).binder_saves =
      opener.tracker.binder_saves from congrArg Core.binder_saves hcore']
    exact unwinds_open trivial hlevel.binders_le
  -- from the opener to the closer
  obtain ⟨u, hbody, htrail⟩ := htrail.split
  have hlevelsMid := levels_shift hmid (n + 1)
  rw [Nat.zero_add] at hlevelsMid
  have hend := trail_unwinds hbody hafter hlevelsMid hunwinds hkeeps
  have hbases : bases [opener.tracker.bindings] mid = [opener.tracker.bindings] := by
    obtain ⟨front, hfront, hbases⟩ := bases_around hmid (List.length_nil : [].length = 0)
    rw [List.length_eq_zero_iff.mp hfront] at hbases
    exact hbases
  rw [hbases] at hend
  have hlevelEnd := (trail_level hbody hafter hlevelsMid).1
  -- the closer
  obtain ⟨⟨waiting', hcloser⟩, -⟩ := htrail
  have hdepth : closer.tracker.depth = n + 1 := by
    rw [hcloser]
    exact hlevelEnd.depth
  unfold Visit.after
  rw [bindings_of_core (dispatchToken_close closer.tracker schema hclose), onClose_bindings, hdepth,
    hcloser]
  exact hend.1

/-- The pieces of a stream that comes as one token. -/
def pieces (stream : String) : List Visit := visits oneClass new Pda.new [lit stream]

theorem piece_split {vs : List Visit} {i : Nat} {check : Visit → Bool}
    (h : vs[i]?.any check = true) :
    ∃ v, vs = vs.take i ++ v :: vs.drop (i + 1) ∧ check v = true := by
  obtain ⟨v, hv, hcheck⟩ := (Option.any_eq_true _ _).mp h
  obtain ⟨hi, hv⟩ := List.getElem?_eq_some_iff.mp hv
  refine ⟨v, ?_, hcheck⟩
  rw [← hv, ← List.drop_eq_getElem_cons hi, List.take_append_drop]

/-- The class of `x` where a bracket of this kind is read. -/
def readsX (lex : Lexeme) (cls : Option (Option Text)) (v : Visit) : Bool :=
  v.lexeme = lex && v.tracker.var_class.lookup (lit "x") = cls

def typedQuery : String := "|A.all()->map(x: A[1]|$x->map(\x7by: Integer[*]|$y\x7d))"

/-- A binder whose type has brackets wipes its own name, which nothing had bound.
Behind its brace the outer variable still has its class. -/
theorem a_typed_binder_keeps_the_outer_one :
    ∃ opener pipe closer : Visit, pipe ∈ pieces typedQuery ∧
      pipe.tracker.wiped = some (lit "y") ∧ closer ∈ pieces typedQuery ∧ closer.lexeme = .Close ∧
      opener.tracker.bindings.classes (lit "x") = some (some (lit "A")) ∧
      (closer.after oneClass).bindings = opener.tracker.bindings := by
  have hrun : Config.run step Pda.new [lit typedQuery].flatten = some ⟨.AfterValue, []⟩ := by
    decide
  have hpipe : (pieces typedQuery).any (fun v => v.lexeme = .Pipe &&
      v.tracker.wiped = some (lit "y")) = true := by decide +kernel
  have hcloser : (pieces typedQuery)[31]?.any (fun v => v.lexeme = .Close) = true := by
    decide +kernel
  have hopener : ((pieces typedQuery).take 31)[21]?.any
      (readsX .Open (some (some (lit "A")))) = true := by decide +kernel
  have hmid : levels 0 (((pieces typedQuery).take 31).drop 22) = some 0 := by decide +kernel
  have hkeeps : (((pieces typedQuery).take 31).drop 22).all Visit.keepsShadowed = true := by
    decide +kernel
  obtain ⟨pipe, hin, hwiped⟩ := List.any_eq_true.mp hpipe
  obtain ⟨closer, hsplit, hclose⟩ := piece_split hcloser
  obtain ⟨opener, hbefore, hopen⟩ := piece_split hopener
  simp only [readsX, Bool.and_eq_true, decide_eq_true_eq] at hwiped hclose hopen
  have hmem : closer ∈ pieces typedQuery := by
    rw [hsplit]
    simp
  refine ⟨opener, pipe, closer, hin, hwiped.2, hmem, hclose, hopen.2, ?_⟩
  exact (a_close_restores_the_bindings oneClass [lit typedQuery] _ hrun _ _ closer hsplit
    hclose).2 _ opener _ ⟨hbefore, hopen.1, hmid⟩ (List.all_eq_true.mp hkeeps)

/-! ## A row type with brackets of its own -/

def shadowQuery : String := "|A.all()->map(x: A[1]|$x->map(\x7bx: Integer[*]|$x\x7d))"

/-- The inner `x` has a type with brackets. Behind its brace the outer `x` has
lost its class. -/
theorem a_typed_binder_drops_the_outer_one :
    Config.run step Pda.new [lit shadowQuery].flatten = some ⟨.AfterValue, []⟩ ∧
      ¬ RestoresScopes oneClass [lit shadowQuery] := by
  have hrun : Config.run step Pda.new [lit shadowQuery].flatten = some ⟨.AfterValue, []⟩ := by
    decide
  have hcloser : (pieces shadowQuery)[31]?.any (fun v => v.lexeme = .Close &&
      (v.after oneClass).var_class.lookup (lit "x") = none) = true := by decide +kernel
  have hopener : ((pieces shadowQuery).take 31)[21]?.any
      (readsX .Open (some (some (lit "A")))) = true := by decide +kernel
  have hmid : levels 0 (((pieces shadowQuery).take 31).drop 22) = some 0 := by decide +kernel
  refine ⟨hrun, fun h => ?_⟩
  obtain ⟨closer, hsplit, hclose⟩ := piece_split hcloser
  obtain ⟨opener, hbefore, hopen⟩ := piece_split hopener
  simp only [readsX, Bool.and_eq_true, decide_eq_true_eq] at hclose hopen
  have hsame := h _ closer _ hsplit hclose.1 _ opener _ ⟨hbefore, hopen.1, hmid⟩
  have hclasses := congrFun (congrArg Bindings.classes hsame) (lit "x")
  simp only [bindings, hclose.2, hopen.2] at hclasses
  cases hclasses

end purecard.scope.ScopeTracker
