-- The laws of wrapping. The nodes that are made at once are the nodes of an
-- event list where each one is opened in front of all that were opened at its
-- place before; the event stream writes that list, and the builder writes it
-- when the kinds at each place read the same both ways.
import Mathlib.Data.List.Chain
import PureAnalyzer.Wrapping

namespace analyzer.cst

open fragments model linkedarena analyzer.m3

/-! ## The list of the nodes made at once -/

/-- An event, or the place of some checkpoints. -/
inductive Trace where
  | Event (event : Event)
  | Mark (checkpoints : List Nat)

def Trace.event : Trace → Option cst.Event
  | Event event => some event
  | Mark _ => none

def Trace.checkpoints : Trace → List Nat
  | Event _ => []
  | Mark checkpoints => checkpoints

def Entry.traces : Entry → List Trace
  | Event event => [.Event event]
  | Place checkpoints wraps =>
    .Mark checkpoints :: (wraps.reverse.map fun wrap => .Event (.Open wrap.2))

def Script.traces (s : Script) : List Trace := s.entries.flatMap Entry.traces

namespace Immediate

variable {source : Text} {tokens : List Token}

def trace (source : Text) (tokens : List Token) (s : Immediate) : Trace → Option Immediate
  | .Event event => s.event source tokens event
  | .Mark checkpoints => some (s.mark checkpoints)

def run (source : Text) (tokens : List Token) (s : Immediate) (w : List Trace) :
    Option Immediate :=
  w.foldlM (trace source tokens) s

@[simp] theorem run_nil (s : Immediate) : run source tokens s [] = some s := rfl

theorem run_cons (s : Immediate) (x : Trace) (w : List Trace) :
    run source tokens s (x :: w) = (s.trace source tokens x).bind fun t => run source tokens t w :=
  rfl

theorem run_append (s : Immediate) (u w : List Trace) :
    run source tokens s (u ++ w) = (run source tokens s u).bind fun t => run source tokens t w := by
  unfold run
  rw [List.foldlM_append]
  rfl

/-! ### Over a base -/

/-- The open nodes and the innermost items, laid over those of a node around them. -/
def lay (base : List Item) (outer : List Enclosing) : List Enclosing → List Item →
    List Enclosing × List Item
  | [], items => (outer, base ++ items)
  | e :: rest, items =>
    (⟨e.kind, e.start, (lay base outer rest e.before).2⟩ :: (lay base outer rest e.before).1, items)

def onTop (base : List Item) (outer : List Enclosing) (s : Immediate) : Immediate :=
  { s with
    items := (lay base outer s.enclosing s.items).2
    enclosing := (lay base outer s.enclosing s.items).1 }

theorem lay_append (base : List Item) (outer es : List Enclosing) (items more : List Item) :
    lay base outer es (items ++ more) =
      ((lay base outer es items).1, (lay base outer es items).2 ++ more) := by
  cases es with
  | nil => simp [lay]
  | cons e rest => rfl

/-- What is done in a node is done the same over any base. -/
theorem trace_onTop {s t : Immediate} {x : Trace} (base : List Item) (outer : List Enclosing)
    (h : s.trace source tokens x = some t) :
    (s.onTop base outer).trace source tokens x = some (t.onTop base outer) := by
  cases x with
  | Mark checkpoints =>
    obtain rfl : s.mark checkpoints = t := Option.some.inj h
    simp [trace, mark, onTop, lay_append]
  | Event e =>
    simp only [trace] at h ⊢
    cases e with
    | Open kind =>
      obtain rfl := Option.some.inj h
      rfl
    | Advance =>
      obtain ⟨token, hget, rfl⟩ := Option.map_eq_some_iff.mp h
      simp only [event, onTop, hget, Option.map_some, lay_append]
    | Close =>
      obtain ⟨items, enclosing, token_index, offset⟩ := s
      cases enclosing with
      | nil => cases h
      | cons e rest =>
        obtain rfl := Option.some.inj h
        simp only [event, onTop, lay, lay_append]

theorem run_onTop {s t : Immediate} {w : List Trace} (base : List Item) (outer : List Enclosing)
    (h : run source tokens s w = some t) :
    run source tokens (s.onTop base outer) w = some (t.onTop base outer) := by
  induction w generalizing s with
  | nil =>
    obtain rfl := Option.some.inj h
    rfl
  | cons x w ih =>
    rw [run_cons] at h ⊢
    obtain ⟨u, hu, hrest⟩ := Option.bind_eq_some_iff.mp h
    rw [trace_onTop base outer hu]
    exact ih hrest

/-- The checkpoint stands nowhere. -/
def Free (c : Nat) (s : Immediate) : Prop :=
  (∀ i ∈ s.items, i.marks c = false) ∧ ∀ e ∈ s.enclosing, ∀ i ∈ e.before, i.marks c = false

theorem trace_free {s t : Immediate} {x : Trace} {c : Nat}
    (h : s.trace source tokens x = some t) (hx : c ∉ x.checkpoints) (hs : s.Free c) :
    t.Free c := by
  obtain ⟨hitems, henclosing⟩ := hs
  cases x with
  | Mark checkpoints =>
    obtain rfl : s.mark checkpoints = t := Option.some.inj h
    refine ⟨fun i hi => ?_, henclosing⟩
    rcases List.mem_append.mp hi with hi | hi
    · exact hitems i hi
    · obtain rfl := List.mem_singleton.mp hi
      simpa [Item.marks, Trace.checkpoints] using hx
  | Event e =>
    cases e with
    | Open kind =>
      obtain rfl := Option.some.inj h
      refine ⟨fun i hi => (List.not_mem_nil hi).elim, fun e he => ?_⟩
      rcases List.mem_cons.mp he with rfl | he
      · exact hitems
      · exact henclosing e he
    | Advance =>
      obtain ⟨token, -, rfl⟩ := Option.map_eq_some_iff.mp h
      refine ⟨fun i hi => ?_, henclosing⟩
      rcases List.mem_append.mp hi with hi | hi
      · exact hitems i hi
      · obtain rfl := List.mem_singleton.mp hi
        rfl
    | Close =>
      obtain ⟨items, enclosing, token_index, offset⟩ := s
      cases enclosing with
      | nil => cases h
      | cons e rest =>
        obtain rfl := Option.some.inj h
        refine ⟨fun i hi => ?_, fun e he => henclosing e (List.mem_cons_of_mem _ he)⟩
        rcases List.mem_append.mp hi with hi | hi
        · exact henclosing e List.mem_cons_self i hi
        · obtain rfl := List.mem_singleton.mp hi
          rfl

theorem run_free {s t : Immediate} {w : List Trace} {c : Nat} (h : run source tokens s w = some t)
    (hw : c ∉ w.flatMap Trace.checkpoints) (hs : s.Free c) : t.Free c := by
  induction w generalizing s with
  | nil =>
    obtain rfl := Option.some.inj h
    exact hs
  | cons x w ih =>
    rw [run_cons] at h
    obtain ⟨u, hu, hrest⟩ := Option.bind_eq_some_iff.mp h
    rw [List.flatMap_cons, List.mem_append, not_or] at hw
    exact ih hrest hw.2 (trace_free hu hw.1 hs)

/-- As long as a checkpoint of the base still stands at the end, nothing has
closed the node that the base is in. -/
theorem run_stays {base : List Item} {outer : List Enclosing} {s t : Immediate} {w : List Trace}
    {c : Nat} (h : run source tokens (s.onTop base outer) w = some t)
    (hw : c ∉ w.flatMap Trace.checkpoints) (houter : ∀ e ∈ outer, ∀ i ∈ e.before, i.marks c = false)
    (ht : ∃ i ∈ t.items, i.marks c = true) :
    ∃ r, run source tokens s w = some r ∧ t = r.onTop base outer := by
  induction w generalizing s with
  | nil => exact ⟨s, rfl, (Option.some.inj h).symm⟩
  | cons x w ih =>
    rw [List.flatMap_cons, List.mem_append, not_or] at hw
    rw [run_cons] at h ⊢
    cases hx : s.trace source tokens x with
    | some u =>
      rw [trace_onTop base outer hx] at h
      exact ih h hw.2
    | none =>
      exfalso
      cases x with
      | Mark checkpoints => cases hx
      | Event e =>
        cases e with
        | Open kind => cases hx
        | Advance =>
          have hget : tokens[s.token_index]? = none := by
            simpa [trace, event] using hx
          simp [trace, event, onTop, hget] at h
        | Close =>
          obtain ⟨items, enclosing, token_index, offset⟩ := s
          cases enclosing with
          | cons e rest => cases hx
          | nil =>
            cases outer with
            | nil => cases h
            | cons e outer =>
              obtain ⟨i, hi, hmarks⟩ := ht
              have hfree : Free c ⟨e.before ++ [.Element (.Node (.new e.kind
                  ((base ++ items).filterMap Item.element) (pendingRange e.start offset)))],
                  outer, token_index, offset⟩ := by
                refine ⟨fun i hi => ?_, fun e he => houter e (List.mem_cons_of_mem _ he)⟩
                rcases List.mem_append.mp hi with hi | hi
                · exact houter e List.mem_cons_self i hi
                · obtain rfl := List.mem_singleton.mp hi
                  rfl
              have hend := (run_free h hw.2 hfree).1 i hi
              rw [hend] at hmarks
              cases hmarks

/-! ### A node around all since a checkpoint -/

theorem splitAt_append {c : Nat} {before after : List Item} {checkpoints : List Nat} {offset : Nat}
    (hfree : ∀ i ∈ before, i.marks c = false) (hc : c ∈ checkpoints) :
    splitAt c (before ++ .Mark checkpoints offset :: after) =
      some (before ++ [.Mark checkpoints offset], offset, after) := by
  induction before with
  | nil => simp [splitAt, hc]
  | cons i before ih =>
    have hrest := ih fun j hj => hfree j (List.mem_cons_of_mem _ hj)
    cases i with
    | Mark others at_offset =>
      have hother : c ∉ others := by simpa [Item.marks] using hfree _ List.mem_cons_self
      simp [splitAt, hother, hrest]
    | Element element => simp [splitAt, hrest]

theorem splitAt_marks {c : Nat} {items : List Item} {r : List Item × Nat × List Item}
    (h : splitAt c items = some r) : ∃ i ∈ items, i.marks c = true := by
  induction items generalizing r with
  | nil => cases h
  | cons i items ih =>
    cases i with
    | Mark checkpoints offset =>
      by_cases hc : checkpoints.contains c = true
      · exact ⟨_, List.mem_cons_self, hc⟩
      · simp only [splitAt, hc] at h
        obtain ⟨r', hr', -⟩ := Option.map_eq_some_iff.mp h
        obtain ⟨j, hj, hmarks⟩ := ih hr'
        exact ⟨j, List.mem_cons_of_mem _ hj, hmarks⟩
    | Element element =>
      simp only [splitAt] at h
      obtain ⟨r', hr', -⟩ := Option.map_eq_some_iff.mp h
      obtain ⟨j, hj, hmarks⟩ := ih hr'
      exact ⟨j, List.mem_cons_of_mem _ hj, hmarks⟩

theorem new_free (c : Nat) : new.Free c :=
  ⟨fun _ hi => (List.not_mem_nil hi).elim, fun _ he => (List.not_mem_nil he).elim⟩

/-- To take over all since a checkpoint is to have opened the node there. -/
theorem run_openAt {st t : Immediate} {before after : List Trace} {checkpoints : List Nat} {c : Nat}
    {kind : SyntaxKind} (hrun : run source tokens new (before ++ .Mark checkpoints :: after) = some st)
    (hc : c ∈ checkpoints) (hbefore : c ∉ before.flatMap Trace.checkpoints)
    (hafter : c ∉ after.flatMap Trace.checkpoints) (ht : st.openAt c kind = some t) :
    run source tokens new (before ++ .Mark checkpoints :: .Event (.Open kind) :: after) =
      some t := by
  obtain ⟨r, hr, rfl⟩ := Option.map_eq_some_iff.mp ht
  rw [run_append] at hrun ⊢
  obtain ⟨s, hs, hrun⟩ := Option.bind_eq_some_iff.mp hrun
  have hfree := run_free hs hbefore (new_free c)
  rw [hs, Option.bind_some, run_cons]
  let fresh : Immediate := ⟨[], [], s.token_index, s.offset⟩
  let base := s.items ++ [.Mark checkpoints s.offset]
  have hmark : s.mark checkpoints = fresh.onTop base s.enclosing := by
    simp [mark, onTop, lay, fresh, base]
  have hrun : run source tokens (fresh.onTop base s.enclosing) after = some st := by
    rw [← hmark]
    exact hrun
  obtain ⟨u, hu, rfl⟩ := run_stays hrun hafter hfree.2 (splitAt_marks hr)
  have hufree : u.Free c := run_free hu hafter
    ⟨fun _ hi => (List.not_mem_nil hi).elim, fun _ he => (List.not_mem_nil he).elim⟩
  obtain ⟨items, enclosing, token_index, offset⟩ := u
  cases enclosing with
  | cons e rest =>
    obtain ⟨i, hi, hmarks⟩ := splitAt_marks hr
    rw [hufree.1 i hi] at hmarks
    cases hmarks
  | nil =>
    have hsplit : splitAt c (base ++ items) = some (base, s.offset, items) := by
      have happend : splitAt c (s.items ++ .Mark checkpoints s.offset :: items) =
          some (s.items ++ [.Mark checkpoints s.offset], s.offset, items) :=
        splitAt_append hfree.1 hc
      simpa [base] using happend
    obtain rfl : (base, s.offset, items) = r := Option.some.inj (hsplit.symm.trans hr)
    show run source tokens (s.mark checkpoints) (.Event (.Open kind) :: after) = _
    rw [run_cons]
    exact run_onTop [] (⟨kind, s.offset, base⟩ :: s.enclosing) hu

end Immediate

/-! ## The places of a script -/

def Entry.isPlace : Entry → Bool
  | Event _ => false
  | Place _ _ => true

/-- A place where no node was opened yet. -/
def Entry.bare : Entry → Bool
  | Place _ [] => true
  | _ => false

/-- Every checkpoint has its place, in the order they were taken in, and a place
directly behind another one came when a node was opened there. -/
structure Script.Ordered (s : Script) : Prop where
  checkpoints : s.entries.flatMap Entry.checkpoints = List.range s.taken
  apart : s.entries.IsChain fun a b => a.bare = true → b.isPlace = false

theorem Entry.wrap_other {c : Nat} {kind : SyntaxKind} {entry : Entry}
    (h : c ∉ entry.checkpoints) : entry.wrap c kind = entry := by
  cases entry with
  | Event e => rfl
  | Place checkpoints wraps =>
    have hc : c ∉ checkpoints := h
    simp [Entry.wrap, hc]

theorem Entry.wrap_checkpoints (c : Nat) (kind : SyntaxKind) (entry : Entry) :
    (entry.wrap c kind).checkpoints = entry.checkpoints := by
  cases entry with
  | Event e => rfl
  | Place checkpoints wraps => rfl

theorem map_wrap_other {c : Nat} {kind : SyntaxKind} {entries : List Entry}
    (h : c ∉ entries.flatMap Entry.checkpoints) : entries.map (Entry.wrap c kind) = entries := by
  induction entries with
  | nil => rfl
  | cons entry entries ih =>
    rw [List.flatMap_cons, List.mem_append, not_or] at h
    rw [List.map_cons, Entry.wrap_other h.1, ih h.2]

/-- The one place of a checkpoint. -/
theorem Script.Ordered.place {s : Script} (h : s.Ordered) {c : Nat} (hc : c < s.taken) :
    ∃ before cs cs' wraps after, s.entries = before ++ .Place (cs ++ c :: cs') wraps :: after ∧
      c ∉ before.flatMap Entry.checkpoints ∧ c ∉ after.flatMap Entry.checkpoints ∧
      c ∉ cs ∧ c ∉ cs' := by
  have hmem : c ∈ s.entries.flatMap Entry.checkpoints := by
    rw [h.checkpoints]
    exact List.mem_range.mpr hc
  obtain ⟨entry, hentry, hin⟩ := List.mem_flatMap.mp hmem
  obtain ⟨before, after, hsplit⟩ := List.append_of_mem hentry
  cases entry with
  | Event e => cases hin
  | Place checkpoints wraps =>
    obtain ⟨cs, cs', rfl⟩ := List.append_of_mem hin
    have hnodup : (s.entries.flatMap Entry.checkpoints).Nodup := by
      rw [h.checkpoints]
      exact List.nodup_range
    rw [hsplit, List.flatMap_append, List.flatMap_cons] at hnodup
    simp only [Entry.checkpoints, List.nodup_append, List.nodup_cons, List.mem_append,
      List.mem_cons] at hnodup
    obtain ⟨-, ⟨⟨-, ⟨hcs', -⟩, hcs⟩, -, hafter⟩, hbefore⟩ := hnodup
    refine ⟨before, cs, cs', wraps, after, hsplit, ?_, ?_, ?_, hcs'⟩
    · intro hin
      exact hbefore c hin c (.inl (.inr (.inl rfl))) rfl
    · intro hin
      exact hafter c (.inr (.inl rfl)) c hin rfl
    · intro hin
      exact hcs c hin c (.inl rfl) rfl

theorem Script.checkpoint_cases (s : Script) :
    (∃ entries cs, s.entries = entries ++ [.Place cs []] ∧
      s.checkpoint = ⟨entries ++ [.Place (cs ++ [s.taken]) []], s.taken + 1⟩) ∨
    (∀ entry ∈ s.entries.getLast?, entry.bare = false) ∧
      s.checkpoint = ⟨s.entries ++ [.Place [s.taken] []], s.taken + 1⟩ := by
  unfold Script.checkpoint
  split
  · next cs hlast =>
    obtain ⟨entries, hsplit⟩ := List.getLast?_eq_some_iff.mp hlast
    exact .inl ⟨entries, cs, hsplit, by rw [hsplit]; simp⟩
  · next hlast =>
    refine .inr ⟨fun entry hentry => ?_, rfl⟩
    cases entry with
    | Event e => rfl
    | Place cs wraps =>
      cases wraps with
      | nil => exact absurd hentry (hlast cs)
      | cons w ws => rfl

theorem Script.Ordered.new : Script.Ordered ⟨[], 0⟩ := ⟨rfl, .nil⟩

theorem Script.Ordered.event {s : Script} (h : s.Ordered) (e : Event) :
    Script.Ordered { s with entries := s.entries ++ [.Event e] } := by
  refine ⟨?_, ?_⟩
  · simpa [List.flatMap_append, Entry.checkpoints] using h.checkpoints
  · rw [List.isChain_append]
    refine ⟨h.apart, .singleton _, fun a _ b hb _ => ?_⟩
    obtain rfl : Entry.Event e = b := by simpa using hb
    rfl

theorem Script.Ordered.checkpoint {s : Script} (h : s.Ordered) : s.checkpoint.Ordered := by
  have hcheckpoints := h.checkpoints
  have hapart := h.apart
  rcases s.checkpoint_cases with ⟨entries, cs, hsplit, hnew⟩ | ⟨hlast, hnew⟩
  · rw [hsplit] at hcheckpoints hapart
    rw [List.isChain_append] at hapart
    refine ⟨?_, ?_⟩
    · rw [hnew, List.range_succ, ← hcheckpoints]
      simp [Entry.checkpoints]
    · rw [hnew, List.isChain_append]
      refine ⟨hapart.1, .singleton _, fun a ha b hb hbare => ?_⟩
      have hplace := hapart.2.2 a ha (.Place cs []) (by simp) hbare
      cases hplace
  · refine ⟨?_, ?_⟩
    · rw [hnew, List.range_succ, ← hcheckpoints]
      simp [Entry.checkpoints]
    · rw [hnew, List.isChain_append]
      refine ⟨hapart, .singleton _, fun a ha b _ hbare => ?_⟩
      rw [hlast a ha] at hbare
      cases hbare

theorem Script.Ordered.openAt {s : Script} (h : s.Ordered) (c : Nat) (kind : SyntaxKind) :
    Script.Ordered { s with entries := s.entries.map (Entry.wrap c kind) } := by
  refine ⟨?_, ?_⟩
  · rw [List.flatMap_map]
    simp only [Entry.wrap_checkpoints]
    exact h.checkpoints
  · rw [List.isChain_map]
    refine h.apart.imp fun a b hab hbare => ?_
    have hplace : (b.wrap c kind).isPlace = b.isPlace := by cases b <;> rfl
    rw [hplace]
    apply hab
    cases a with
    | Event e => cases hbare
    | Place cs wraps =>
      cases wraps with
      | nil => rfl
      | cons w ws =>
        by_cases hc : c ∈ cs <;> simp [Entry.wrap, Entry.bare, hc] at hbare

theorem Script.Ordered.call {s : Script} (h : s.Ordered) (x : Call) : (s.call x).Ordered := by
  cases x with
  | Open kind => exact h.event _
  | Advance => exact h.event _
  | Close => exact h.event _
  | Checkpoint => exact h.checkpoint
  | OpenAt c kind => exact h.openAt c kind

/-- What opening a node at a checkpoint does to the script. -/
theorem Script.Ordered.wrapped {s : Script} (h : s.Ordered) {c : Nat} (hc : c < s.taken)
    (kind : SyntaxKind) :
    ∃ before cs cs' wraps after, s.entries = before ++ .Place (cs ++ c :: cs') wraps :: after ∧
      (s.call (.OpenAt c kind)).entries =
        before ++ .Place (cs ++ c :: cs') (wraps ++ [(c, kind)]) :: after ∧
      c ∉ before.flatMap Entry.checkpoints ∧ c ∉ after.flatMap Entry.checkpoints ∧
      c ∉ cs ∧ c ∉ cs' := by
  obtain ⟨before, cs, cs', wraps, after, hsplit, hbefore, hafter, hcs, hcs'⟩ := h.place hc
  refine ⟨before, cs, cs', wraps, after, hsplit, ?_, hbefore, hafter, hcs, hcs'⟩
  simp only [Script.call, hsplit, List.map_append, List.map_cons]
  rw [map_wrap_other hbefore, map_wrap_other hafter]
  simp [Entry.wrap]

/-! ## The nodes made at once follow the script -/

namespace Immediate

variable {source : Text} {tokens : List Token}

theorem traces_checkpoints (entries : List Entry) :
    (entries.flatMap Entry.traces).flatMap Trace.checkpoints =
      entries.flatMap Entry.checkpoints := by
  induction entries with
  | nil => rfl
  | cons entry entries ih =>
    rw [List.flatMap_cons, List.flatMap_append, List.flatMap_cons, ih]
    congr 1
    cases entry with
    | Event e => rfl
    | Place cs wraps =>
      have hwraps : (wraps.reverse.map fun wrap => Trace.Event (.Open wrap.2)).flatMap
          Trace.checkpoints = [] := by
        rw [List.flatMap_map, List.flatMap_eq_nil_iff]
        exact fun _ _ => rfl
      rw [Entry.traces, List.flatMap_cons, hwraps, List.append_nil]
      rfl

/-- Where a place was just taken, its mark is the last item. -/
theorem bare_of_mark {entries : List Entry} {st : Immediate} {cs : List Nat} {offset : Nat}
    (hrun : run source tokens new (entries.flatMap Entry.traces) = some st)
    (hlast : st.items.getLast? = some (.Mark cs offset)) :
    ∃ entry ∈ entries.getLast?, entry.bare = true := by
  rcases List.eq_nil_or_concat entries with rfl | ⟨entries, entry, rfl⟩
  · obtain rfl := Option.some.inj hrun
    simp [new] at hlast
  · rw [List.concat_eq_append] at hrun ⊢
    refine ⟨entry, by simp, ?_⟩
    rw [List.flatMap_append, run_append, List.flatMap_singleton] at hrun
    obtain ⟨u, -, hrun⟩ := Option.bind_eq_some_iff.mp hrun
    have hevent : ∀ {v : Immediate} {e : Event}, v.event source tokens e = some st → False := by
      intro v e he
      cases e with
      | Open kind =>
        obtain rfl := Option.some.inj he
        simp at hlast
      | Advance =>
        obtain ⟨token, -, rfl⟩ := Option.map_eq_some_iff.mp he
        simp at hlast
      | Close =>
        unfold event at he
        dsimp only at he
        split at he
        · cases he
        · obtain rfl := Option.some.inj he
          simp at hlast
    cases entry with
    | Place cs' wraps =>
      cases wraps with
      | nil => rfl
      | cons w ws =>
        simp only [Entry.traces, List.reverse_cons, List.map_append, ← List.cons_append,
          run_append] at hrun
        obtain ⟨v, -, hrun⟩ := Option.bind_eq_some_iff.mp hrun
        rw [List.map_singleton, run_cons] at hrun
        obtain ⟨x, hx, hrun⟩ := Option.bind_eq_some_iff.mp hrun
        obtain rfl := Option.some.inj hrun
        exact (hevent (e := .Open w.2) hx).elim
    | Event e =>
      rw [Entry.traces, run_cons] at hrun
      obtain ⟨x, hx, hrun⟩ := Option.bind_eq_some_iff.mp hrun
      obtain rfl := Option.some.inj hrun
      exact (hevent (e := e) hx).elim

/-- A call on the nodes made at once is the same call on the script. -/
theorem call_run {st st' : Immediate} {n n' : Nat} {s : Script} {x : Call} (hs : s.Ordered)
    (hrun : run source tokens new s.traces = some st) (hn : n = s.taken)
    (h : call source tokens (st, n) x = some (st', n')) :
    run source tokens new (s.call x).traces = some st' ∧ n' = (s.call x).taken := by
  subst hn
  have hevent : ∀ e : Event, (st.event source tokens e).map (·, s.taken) = some (st', n') →
      run source tokens new ((s.entries ++ [Entry.Event e]).flatMap Entry.traces) = some st' ∧
        n' = s.taken := by
    intro e he
    obtain ⟨t, ht, hpair⟩ := Option.map_eq_some_iff.mp he
    obtain ⟨rfl, rfl⟩ := Prod.mk.inj hpair
    refine ⟨?_, rfl⟩
    rw [List.flatMap_append, List.flatMap_singleton, run_append]
    unfold Script.traces at hrun
    rw [hrun, Option.bind_some, Entry.traces, run_cons]
    show (st.event source tokens e).bind _ = _
    rw [ht]
    rfl
  cases x with
  | Open kind => exact hevent (.Open kind) h
  | Advance => exact hevent .Advance h
  | Close => exact hevent .Close h
  | Checkpoint =>
    obtain ⟨rfl, rfl⟩ := Prod.mk.inj (Option.some.inj h)
    unfold Script.traces at hrun ⊢
    rcases s.checkpoint_cases with ⟨entries, cs, hsplit, hnew⟩ | ⟨hlast, hnew⟩
    · rw [hsplit, List.flatMap_append, run_append] at hrun
      obtain ⟨u, hu, hmark⟩ := Option.bind_eq_some_iff.mp hrun
      obtain rfl : u.mark cs = st := Option.some.inj hmark
      rw [Script.call, hnew, List.flatMap_append, run_append, hu]
      refine ⟨?_, rfl⟩
      show some (u.mark (cs ++ [s.taken])) = some ((u.mark cs).checkpoint s.taken)
      simp [mark, checkpoint]
    · rw [Script.call, hnew, List.flatMap_append, run_append, hrun]
      refine ⟨?_, rfl⟩
      show some (st.mark [s.taken]) = some (st.checkpoint s.taken)
      unfold checkpoint
      split
      · next cs offset hitem =>
        obtain ⟨entry, hentry, hbare⟩ := bare_of_mark hrun hitem
        rw [hlast entry hentry] at hbare
        cases hbare
      · rfl
  | OpenAt c kind =>
    obtain ⟨t, ht, hpair⟩ := Option.map_eq_some_iff.mp h
    obtain ⟨rfl, rfl⟩ := Prod.mk.inj hpair
    have hc : c < s.taken := by
      obtain ⟨r, hr, -⟩ := Option.map_eq_some_iff.mp ht
      obtain ⟨i, hi, hmarks⟩ := splitAt_marks hr
      by_contra hge
      have hfree : st.Free c := by
        refine run_free hrun ?_ (new_free c)
        unfold Script.traces
        rw [traces_checkpoints, hs.checkpoints, List.mem_range]
        exact hge
      rw [hfree.1 i hi] at hmarks
      cases hmarks
    obtain ⟨before, cs, cs', wraps, after, hsplit, hnew, hbefore, hafter, hcs, hcs'⟩ :=
      hs.wrapped hc kind
    refine ⟨?_, rfl⟩
    unfold Script.traces at hrun ⊢
    rw [hsplit, List.flatMap_append, List.flatMap_cons] at hrun
    rw [hnew, List.flatMap_append, List.flatMap_cons]
    simp only [Entry.traces, List.cons_append] at hrun
    have hopened := run_openAt hrun (by simp) (by rwa [traces_checkpoints]) (by
      rw [List.flatMap_append, traces_checkpoints, List.mem_append, not_or]
      refine ⟨?_, hafter⟩
      rw [List.flatMap_map]
      simp [Trace.checkpoints]) ht
    simpa [Entry.traces] using hopened

/-- The nodes that the calls make at once are those of the script. -/
theorem calls_run {calls : List Call} {st : Immediate}
    (h : Immediate.calls source tokens calls = some st) :
    run source tokens new (script calls).traces = some st := by
  have hall : ∀ (calls : List Call) (s : Script) (st st' : Immediate) (n n' : Nat), s.Ordered →
      run source tokens new s.traces = some st → n = s.taken →
      calls.foldlM (call source tokens) (st, n) = some (st', n') →
      run source tokens new (calls.foldl Script.call s).traces = some st' := by
    intro calls
    induction calls with
    | nil =>
      intro s st st' n n' _ hrun _ hcalls
      obtain ⟨rfl, rfl⟩ := Prod.mk.inj (Option.some.inj hcalls)
      exact hrun
    | cons x calls ih =>
      intro s st st' n n' hs hrun hn hcalls
      obtain ⟨⟨u, m⟩, hu, hrest⟩ := Option.bind_eq_some_iff.mp hcalls
      obtain ⟨hrun', hm⟩ := call_run hs hrun hn hu
      exact ih _ u st' m n' (hs.call x) hrun' hm hrest
  obtain ⟨⟨st', n'⟩, hcalls, rfl⟩ := Option.map_eq_some_iff.mp h
  exact hall calls ⟨[], 0⟩ new st' 0 n' .new rfl rfl hcalls

/-! ### The fold makes the same nodes -/

/-- The open nodes of a fold, from the innermost, are those of the nodes made at once. -/
def Same (roots : List GreenNode) : List PendingNode → List Enclosing → List Item → Prop
  | [], enclosing, items =>
    enclosing = [] ∧ items.filterMap Item.element = roots.map GreenElement.Node
  | pending :: stack, enclosing, items => ∃ before rest,
    enclosing = ⟨pending.kind, pending.start, before⟩ :: rest ∧
      items.filterMap Item.element = pending.children ∧ Same roots stack rest before

structure Follows (s : FoldState) (st : Immediate) : Prop where
  same : Same s.roots s.stack st.enclosing st.items
  token_index : st.token_index = s.token_index
  offset : st.offset = s.offset

theorem Same.congr {roots : List GreenNode} {stack : List PendingNode}
    {enclosing : List Enclosing} {items items' : List Item}
    (h : Same roots stack enclosing items)
    (hitems : items'.filterMap Item.element = items.filterMap Item.element) :
    Same roots stack enclosing items' := by
  cases stack with
  | nil => exact ⟨h.1, hitems.trans h.2⟩
  | cons pending stack =>
    obtain ⟨before, rest, henclosing, hchildren, hrest⟩ := h
    exact ⟨before, rest, henclosing, hitems.trans hchildren, hrest⟩

theorem event_follows {event_index : Nat} {e : Event} {s t : FoldState} {st : Immediate}
    (h : foldEvent source tokens event_index e s = .ok t) (hs : Follows s st) :
    ∃ st', st.event source tokens e = some st' ∧ Follows t st' := by
  obtain ⟨hsame, hindex, hoffset⟩ := hs
  cases e with
  | Open kind =>
    obtain ⟨-, -, rfl⟩ := openNode_ok h
    refine ⟨_, rfl, ⟨st.items, st.enclosing, ?_, rfl, hsame⟩, hindex, hoffset⟩
    simp [hoffset]
  | Advance =>
    obtain ⟨parent, stack, kind, range, hstack, hget, rfl⟩ := advanceToken_ok h
    rw [hstack] at hsame
    obtain ⟨before, rest, henclosing, hchildren, hrest⟩ := hsame
    have hnext : (st.event source tokens .Advance) = some { st with
        items := st.items ++ [.Element (.Token (greenToken source (kind, range)))]
        token_index := s.token_index + 1
        offset := range.stop } := by
      rw [event, hindex, hget]
      rfl
    refine ⟨_, hnext, ⟨before, rest, henclosing, ?_, hrest⟩, rfl, rfl⟩
    simp [hchildren, Item.element]
  | Close =>
    obtain ⟨items, enclosing, token_index, offset⟩ := st
    obtain rfl : offset = s.offset := hoffset
    rcases closeNode_ok h with ⟨pending, hstack, rfl⟩ | ⟨pending, parent, stack, hstack, rfl⟩
    · rw [hstack] at hsame
      obtain ⟨before, rest, rfl, hchildren, rfl, hroots⟩ := hsame
      refine ⟨_, rfl, ⟨rfl, ?_⟩, hindex, rfl⟩
      simp only at hchildren
      simp [hroots, hchildren, Item.element, PendingNode.closed]
    · rw [hstack] at hsame
      obtain ⟨before, rest, rfl, hchildren, before', rest', rfl, hchildren', hrest⟩ := hsame
      refine ⟨_, rfl, ⟨before', rest', rfl, ?_, hrest⟩, hindex, rfl⟩
      simp only at hchildren
      simp [hchildren', hchildren, Item.element, PendingNode.closed]

/-- What the fold makes of events, the nodes made at once are, wherever places stand. -/
theorem fold_run {event_index : Nat} {w : List Trace} {s t : FoldState} {st : Immediate}
    (h : foldFrom source tokens event_index (w.filterMap Trace.event) s = .ok t)
    (hs : Follows s st) : ∃ st', run source tokens st w = some st' ∧ Follows t st' := by
  induction w generalizing event_index s st with
  | nil =>
    obtain rfl : s = t := Except.ok.inj h
    exact ⟨st, rfl, hs⟩
  | cons x w ih =>
    cases x with
    | Mark checkpoints =>
      have hmark : Follows s (st.mark checkpoints) :=
        ⟨hs.same.congr (by simp [mark, Item.element]), hs.token_index, hs.offset⟩
      exact ih h hmark
    | Event e =>
      obtain ⟨u, hu, hrest⟩ := foldFrom_cons h
      obtain ⟨v, hv, hfollows⟩ := event_follows hu hs
      obtain ⟨st', hrun, hend⟩ := ih hrest hfollows
      refine ⟨st', ?_, hend⟩
      rw [run_cons]
      show (st.event source tokens e).bind _ = _
      rw [hv]
      exact hrun

theorem foldEvents_run {w : List Trace} {source_end : Nat} {root : GreenNode}
    (h : foldEvents source tokens (w.filterMap Trace.event) source_end = .ok root) :
    ∃ st, run source tokens new w = some st ∧ st.root = some root := by
  unfold foldEvents at h
  cases hfold : foldFrom source tokens 0 (w.filterMap Trace.event) ⟨[], [], 0, 0⟩ with
  | error e => rw [hfold] at h; cases h
  | ok t =>
    rw [hfold] at h
    obtain ⟨hstack, -, hroots, -⟩ := finishRoot_ok h
    have hnew : Follows ⟨[], [], 0, 0⟩ new := ⟨⟨rfl, rfl⟩, rfl, rfl⟩
    obtain ⟨st, hrun, hfollows⟩ := fold_run hfold hnew
    have hsame := hfollows.same
    rw [hstack, hroots] at hsame
    obtain ⟨henclosing, hitems⟩ := hsame
    refine ⟨st, hrun, ?_⟩
    unfold Immediate.root
    rw [henclosing, hitems]
    rfl

end Immediate

/-! ## The events of a tree -/

mutual

def GreenNode.events : GreenNode → List Event
  | .new kind children _ => .Open kind :: eventsOf children ++ [.Close]

def eventsOf : List GreenElement → List Event
  | [] => []
  | .Node node :: rest => node.events ++ eventsOf rest
  | .Token _ :: rest => .Advance :: eventsOf rest

end

theorem eventsOf_append (xs ys : List GreenElement) :
    eventsOf (xs ++ ys) = eventsOf xs ++ eventsOf ys := by
  induction xs with
  | nil => rfl
  | cons x xs ih =>
    cases x with
    | Node node => simp [eventsOf, ih]
    | Token token => simp [eventsOf, ih]

namespace Immediate

variable {source : Text} {tokens : List Token}

def itemEvents (items : List Item) : List Event := eventsOf (items.filterMap Item.element)

/-- The events that the nodes made at once were made of. -/
def events (s : Immediate) : List Event :=
  (s.enclosing.reverse.flatMap fun e => itemEvents e.before ++ [.Open e.kind]) ++ itemEvents s.items

theorem trace_events {s t : Immediate} {x : Trace} (h : s.trace source tokens x = some t) :
    t.events = s.events ++ x.event.toList := by
  cases x with
  | Mark checkpoints =>
    obtain rfl : s.mark checkpoints = t := Option.some.inj h
    simp [events, itemEvents, mark, Item.element, Trace.event, List.filterMap_cons]
  | Event e =>
    cases e with
    | Open kind =>
      obtain rfl := Option.some.inj h
      simp [events, itemEvents, eventsOf, Trace.event]
    | Advance =>
      obtain ⟨token, -, rfl⟩ := Option.map_eq_some_iff.mp h
      simp [events, itemEvents, eventsOf_append, eventsOf, Item.element, Trace.event]
    | Close =>
      obtain ⟨items, enclosing, token_index, offset⟩ := s
      cases enclosing with
      | nil => cases h
      | cons e rest =>
        obtain rfl := Option.some.inj h
        simp [events, itemEvents, eventsOf_append, eventsOf, Item.element, Trace.event,
          GreenNode.events]

theorem run_events {s t : Immediate} {w : List Trace} (h : run source tokens s w = some t) :
    t.events = s.events ++ w.filterMap Trace.event := by
  induction w generalizing s with
  | nil =>
    obtain rfl := Option.some.inj h
    simp
  | cons x w ih =>
    rw [run_cons] at h
    obtain ⟨u, hu, hrest⟩ := Option.bind_eq_some_iff.mp h
    rw [ih hrest, trace_events hu]
    cases hx : x.event with
    | none => simp [hx]
    | some e => simp [hx]

theorem root_events {s : Immediate} {root : GreenNode} (h : s.root = some root) :
    s.events = root.events := by
  unfold Immediate.root at h
  split at h
  · next node henclosing hitems =>
    obtain rfl := Option.some.inj h
    simp [events, henclosing, itemEvents, hitems, eventsOf]
  · cases h

/-- Two runs that end in one root were runs over the same events. -/
theorem events_unique {u w : List Trace} {s t : Immediate} {root : GreenNode}
    (hs : run source tokens new u = some s) (ht : run source tokens new w = some t)
    (hsroot : s.root = some root) (htroot : t.root = some root) :
    u.filterMap Trace.event = w.filterMap Trace.event := by
  have hu := run_events hs
  have hw := run_events ht
  rw [root_events hsroot] at hu
  rw [root_events htroot] at hw
  exact hu.symm.trans hw

end Immediate

/-! ## What the builder writes -/

/-- An entry as events, with the kinds of a place in some order. -/
def Entry.events (kinds : Entry → List SyntaxKind) : Entry → List cst.Event
  | Event event => [event]
  | Place checkpoints wraps => (kinds (.Place checkpoints wraps)).map .Open

theorem traces_events (entries : List Entry) :
    (entries.flatMap Entry.traces).filterMap Trace.event =
      entries.flatMap (Entry.events Entry.lastOutermost) := by
  induction entries with
  | nil => rfl
  | cons entry entries ih =>
    rw [List.flatMap_cons, List.filterMap_append, List.flatMap_cons, ih]
    congr 1
    cases entry with
    | Event e => rfl
    | Place cs wraps =>
      have hwraps : (wraps.reverse.map fun wrap => Trace.Event (.Open wrap.2)).filterMap
          Trace.event = wraps.reverse.map fun wrap => Event.Open wrap.2 := by
        rw [List.filterMap_map]
        show wraps.reverse.filterMap (fun wrap => some (Event.Open wrap.2)) = _
        exact congrFun List.filterMap_eq_map _
      rw [Entry.traces, List.filterMap_cons_none rfl, hwraps]
      simp [Entry.events, Entry.lastOutermost]

/-- An entry as the builder keeps it, with the markers of its checkpoints. -/
def Entry.marked (m : Nat → Nat) : Entry → List BuilderEvent
  | Event event => [.Event event]
  | Place checkpoints wraps => checkpoints.flatMap fun c =>
    ((wraps.filter (·.1 = c)).map fun wrap => .Event (.Open wrap.2)) ++ [.Checkpoint (m c)]

theorem marked_events (m : Nat → Nat) (entries : List Entry) :
    (entries.flatMap (Entry.marked m)).filterMap BuilderEvent.event =
      entries.flatMap (Entry.events Entry.byCheckpoint) := by
  induction entries with
  | nil => rfl
  | cons entry entries ih =>
    rw [List.flatMap_cons, List.filterMap_append, List.flatMap_cons, ih]
    congr 1
    cases entry with
    | Event e => rfl
    | Place cs wraps =>
      simp only [Entry.marked, Entry.events, Entry.byCheckpoint]
      induction cs with
      | nil => rfl
      | cons c cs ihcs =>
        rw [List.flatMap_cons, List.filterMap_append, ihcs, List.flatMap_cons, List.map_append]
        congr 1
        rw [List.filterMap_append, List.filterMap_map, List.map_map]
        simp [BuilderEvent.event, Function.comp_def]

theorem marked_congr {m m' : Nat → Nat} {entries : List Entry}
    (h : ∀ c ∈ entries.flatMap Entry.checkpoints, m c = m' c) :
    entries.flatMap (Entry.marked m) = entries.flatMap (Entry.marked m') := by
  apply List.flatMap_congr
  intro entry hentry
  cases entry with
  | Event e => rfl
  | Place cs wraps =>
    apply List.flatMap_congr
    intro c hc
    rw [h c (List.mem_flatMap.mpr ⟨_, hentry, hc⟩)]

theorem mem_marked {m : Nat → Nat} {entries : List Entry} {marker : Nat}
    (h : BuilderEvent.Checkpoint marker ∈ entries.flatMap (Entry.marked m)) :
    ∃ c ∈ entries.flatMap Entry.checkpoints, m c = marker := by
  obtain ⟨entry, hentry, hmem⟩ := List.mem_flatMap.mp h
  cases entry with
  | Event e => simp [Entry.marked] at hmem
  | Place cs wraps =>
    obtain ⟨c, hc, hmem⟩ := List.mem_flatMap.mp hmem
    refine ⟨c, List.mem_flatMap.mpr ⟨_, hentry, hc⟩, ?_⟩
    rcases List.mem_append.mp hmem with hmem | hmem
    · simp at hmem
    · simpa using (List.mem_singleton.mp hmem).symm

/-- The builder has written the script, with markers of their own. -/
structure Written (source : Text) (tokens : List Token) (m : Nat → Nat) (s : Building)
    (t : Script) : Prop where
  builder : s.builder = ⟨source, tokens, t.entries.flatMap (Entry.marked m), 0⟩
  checkpoints : s.checkpoints = (List.range t.taken).map fun c => ⟨0, m c⟩
  bound : ∀ c < t.taken, m c < s.builder.events.length
  distinct : ∀ c < t.taken, ∀ c' < t.taken, m c = m c' → c = c'

theorem findIdx_marker {before after : List BuilderEvent} {e : BuilderEvent} (h : e ∉ before) :
    (before ++ e :: after).findIdx? (· = e) = some before.length := by
  induction before with
  | nil => simp [List.findIdx?_cons]
  | cons b before ih =>
    rw [List.mem_cons, not_or] at h
    rw [List.cons_append, List.findIdx?_cons, ih h.2]
    simp [Ne.symm h.1]

section Written

variable {source : Text} {tokens : List Token} {m : Nat → Nat} {s : Building} {t : Script}

theorem Written.push (h : Written source tokens m s t) (e : Event) :
    Written source tokens m { s with builder := s.builder.push e }
      { t with entries := t.entries ++ [.Event e] } := by
  refine ⟨?_, h.checkpoints, fun c hc => ?_, h.distinct⟩
  · rw [h.builder]
    simp [GreenNodeBuilder.push, Entry.marked]
  · have hbound := h.bound c hc
    simp only [GreenNodeBuilder.push, List.length_append, List.length_singleton]
    omega

theorem Written.checkpoint (ht : t.Ordered) (h : Written source tokens m s t) :
    ∃ m', Written source tokens m' ⟨s.builder.checkpoint.2,
      s.checkpoints ++ [s.builder.checkpoint.1]⟩ t.checkpoint := by
  let marker := s.builder.events.length
  let m' : Nat → Nat := fun c => if c = t.taken then marker else m c
  have hold : ∀ c < t.taken, m' c = m c := fun c hc => if_neg (Nat.ne_of_lt hc)
  have hnew : m' t.taken = marker := if_pos rfl
  have hentries : t.entries.flatMap (Entry.marked m) = t.entries.flatMap (Entry.marked m') := by
    apply marked_congr
    rw [ht.checkpoints]
    exact fun c hc => (hold c (List.mem_range.mp hc)).symm
  have hbuilder : s.builder.checkpoint =
      (⟨0, marker⟩, ⟨source, tokens,
        t.entries.flatMap (Entry.marked m') ++ [.Checkpoint marker], 0⟩) := by
    have hmarker : marker = (t.entries.flatMap (Entry.marked m)).length := by
      simp only [marker, h.builder]
    rw [hmarker, h.builder, ← hentries]
    rfl
  have hwritten : t.checkpoint.entries.flatMap (Entry.marked m') =
      t.entries.flatMap (Entry.marked m') ++ [.Checkpoint marker] := by
    rcases t.checkpoint_cases with ⟨entries, cs, hsplit, hcase⟩ | ⟨-, hcase⟩
    · rw [hcase, hsplit]
      simp [Entry.marked, hnew]
    · rw [hcase]
      simp [Entry.marked, hnew]
  have htaken : t.checkpoint.taken = t.taken + 1 := by
    rcases t.checkpoint_cases with ⟨_, _, -, hcase⟩ | ⟨-, hcase⟩ <;> rw [hcase]
  refine ⟨m', ?_, ?_, ?_, ?_⟩
  · rw [hbuilder, hwritten]
  · rw [hbuilder, htaken, List.range_succ, List.map_append, h.checkpoints]
    have hsame : (List.range t.taken).map (fun c => (⟨0, m c⟩ : Checkpoint)) =
        (List.range t.taken).map fun c => ⟨0, m' c⟩ := by
      apply List.map_congr_left
      intro c hc
      rw [hold c (List.mem_range.mp hc)]
    rw [hsame]
    simp [hnew]
  · intro c hc
    rw [htaken] at hc
    have hlen : marker = (t.entries.flatMap (Entry.marked m')).length := by
      rw [← hentries]
      simp only [marker, h.builder]
    simp only [hbuilder, List.length_append, List.length_singleton, ← hlen]
    rcases Nat.lt_succ_iff_lt_or_eq.mp hc with hlt | rfl
    · rw [hold c hlt]
      exact Nat.lt_succ_of_lt (h.bound c hlt)
    · rw [hnew]
      exact Nat.lt_succ_self _
  · intro c hc c' hc' hsame
    rw [htaken] at hc hc'
    rcases Nat.lt_succ_iff_lt_or_eq.mp hc with hlt | rfl <;>
      rcases Nat.lt_succ_iff_lt_or_eq.mp hc' with hlt' | rfl
    · rw [hold c hlt, hold c' hlt'] at hsame
      exact h.distinct c hlt c' hlt' hsame
    · rw [hold c hlt, hnew] at hsame
      exact absurd hsame (Nat.ne_of_lt (h.bound c hlt))
    · rw [hold c' hlt', hnew] at hsame
      exact absurd hsame.symm (Nat.ne_of_lt (h.bound c' hlt'))
    · rfl

theorem Written.openAt (ht : t.Ordered) (h : Written source tokens m s t) {c : Nat}
    {kind : SyntaxKind} {s' : Building} (hcall : s.call (.OpenAt c kind) = .ok s') :
    Written source tokens m s' (t.call (.OpenAt c kind)) := by
  unfold Building.call at hcall
  dsimp only at hcall
  cases hget : s.checkpoints[c]? with
  | none => rw [hget] at hcall; cases hcall
  | some checkpoint =>
    rw [hget] at hcall
    have hc : c < t.taken := by
      have hlt := (List.getElem?_eq_some_iff.mp hget).1
      rw [h.checkpoints] at hlt
      simpa using hlt
    obtain rfl : ⟨0, m c⟩ = checkpoint := by
      rw [h.checkpoints] at hget
      simpa [hc] using hget
    obtain ⟨before, cs, cs', wraps, after, hsplit, hnew, hbefore, hafter, hcs, hcs'⟩ :=
      ht.wrapped hc kind
    have hbelow : ∀ c' ∈ t.entries.flatMap Entry.checkpoints, c' < t.taken := by
      intro c' hc'
      rw [ht.checkpoints] at hc'
      exact List.mem_range.mp hc'
    let opened (ws : List (Nat × SyntaxKind)) (c : Nat) : List BuilderEvent :=
      (ws.filter (·.1 = c)).map fun wrap => .Event (.Open wrap.2)
    let upTo := before.flatMap (Entry.marked m) ++
      (cs.flatMap fun c => opened wraps c ++ [.Checkpoint (m c)]) ++ opened wraps c
    let from_here := (cs'.flatMap fun c => opened wraps c ++ [.Checkpoint (m c)]) ++
      after.flatMap (Entry.marked m)
    have hevents : t.entries.flatMap (Entry.marked m) =
        upTo ++ .Checkpoint (m c) :: from_here := by
      rw [hsplit]
      simp [Entry.marked, upTo, from_here, opened]
    have hfresh : BuilderEvent.Checkpoint (m c) ∉ upTo := by
      intro hmem
      have hother : ∃ c' ∈ (before ++ [Entry.Place cs []]).flatMap Entry.checkpoints, m c' = m c := by
        rcases List.mem_append.mp hmem with hmem | hmem
        · rcases List.mem_append.mp hmem with hmem | hmem
          · obtain ⟨c', hc', hsame⟩ := mem_marked hmem
            exact ⟨c', by simp [List.flatMap_append, hc'], hsame⟩
          · obtain ⟨c', hc', hmem⟩ := List.mem_flatMap.mp hmem
            refine ⟨c', List.mem_flatMap.mpr ⟨.Place cs [], by simp, hc'⟩, ?_⟩
            simpa [opened, eq_comm] using hmem
        · simp [opened] at hmem
      obtain ⟨c', hc', hsame⟩ := hother
      simp only [List.flatMap_append, List.flatMap_singleton, List.mem_append] at hc'
      have hin : c' ∈ t.entries.flatMap Entry.checkpoints := by
        rw [hsplit]
        simp only [List.flatMap_append, List.flatMap_cons, Entry.checkpoints, List.mem_append]
        rcases hc' with hc' | hc'
        · exact .inl hc'
        · exact .inr (.inl (.inl hc'))
      obtain rfl := h.distinct c' (hbelow c' hin) c hc hsame
      rcases hc' with hc' | hc'
      · exact hbefore hc'
      · exact hcs hc'
    obtain ⟨builder, hopen, rfl⟩ : ∃ builder, s.builder.openAt ⟨0, m c⟩ kind = .ok builder ∧
        { s with builder } = s' := by
      dsimp only at hcall
      cases hopen : s.builder.openAt ⟨0, m c⟩ kind with
      | error e => rw [hopen] at hcall; cases hcall
      | ok builder =>
        rw [hopen] at hcall
        exact ⟨builder, rfl, Except.ok.inj hcall⟩
    rw [h.builder, hevents] at hopen
    unfold GreenNodeBuilder.openAt at hopen
    simp only [ne_eq, not_true_eq_false, if_false, findIdx_marker hfresh] at hopen
    split_ifs at hopen
    rw [List.take_left, List.drop_left] at hopen
    obtain rfl := Except.ok.inj hopen
    have hother : ∀ c', c' ≠ c → opened (wraps ++ [(c, kind)]) c' = opened wraps c' := by
      intro c' hne
      simp [opened, List.filter_append, Ne.symm hne]
    have hrest : ∀ ds : List Nat, c ∉ ds →
        (ds.flatMap fun c' => opened (wraps ++ [(c, kind)]) c' ++ [.Checkpoint (m c')]) =
          ds.flatMap fun c' => opened wraps c' ++ [.Checkpoint (m c')] := by
      intro ds hds
      apply List.flatMap_congr
      intro c' hc'
      rw [hother c' fun heq => hds (heq ▸ hc')]
    refine ⟨?_, h.checkpoints, ?_, h.distinct⟩
    · have hhere : opened (wraps ++ [(c, kind)]) c = opened wraps c ++ [.Event (.Open kind)] := by
        simp [opened, List.filter_append]
      have hplace : (Entry.Place (cs ++ c :: cs') (wraps ++ [(c, kind)])).marked m =
          (cs.flatMap fun c' => opened wraps c' ++ [.Checkpoint (m c')]) ++
            ((opened wraps c ++ [.Event (.Open kind)]) ++ [.Checkpoint (m c)]) ++
              (cs'.flatMap fun c' => opened wraps c' ++ [.Checkpoint (m c')]) := by
        rw [Entry.marked, List.flatMap_append, List.flatMap_cons]
        show (cs.flatMap fun c' => opened (wraps ++ [(c, kind)]) c' ++ [.Checkpoint (m c')]) ++
          (opened (wraps ++ [(c, kind)]) c ++ [.Checkpoint (m c)] ++
            (cs'.flatMap fun c' => opened (wraps ++ [(c, kind)]) c' ++ [.Checkpoint (m c')])) = _
        rw [hrest cs hcs, hrest cs' hcs', hhere]
        simp
      rw [hnew, List.flatMap_append, List.flatMap_cons, hplace]
      simp [upTo, from_here]
    · intro c' hc'
      have hbound := h.bound c' hc'
      rw [h.builder, hevents] at hbound
      simp only [List.length_append, List.length_cons] at hbound ⊢
      omega

theorem call_written (ht : t.Ordered) (h : Written source tokens m s t) {x : Call} {s' : Building}
    (hcall : s.call x = .ok s') : ∃ m', Written source tokens m' s' (t.call x) := by
  cases x with
  | Open kind =>
    obtain rfl := Except.ok.inj hcall
    exact ⟨m, h.push _⟩
  | Advance =>
    obtain rfl := Except.ok.inj hcall
    exact ⟨m, h.push _⟩
  | Close =>
    obtain rfl := Except.ok.inj hcall
    exact ⟨m, h.push _⟩
  | Checkpoint =>
    obtain rfl := Except.ok.inj hcall
    exact h.checkpoint ht
  | OpenAt c kind => exact ⟨m, h.openAt ht hcall⟩

theorem calls_written {calls : List Call} {s : Building}
    (h : calls.foldlM Building.call ⟨.new 0 source tokens, []⟩ = .ok s) :
    ∃ m, Written source tokens m s (script calls) := by
  have hall : ∀ (calls : List Call) (m : Nat → Nat) (s s' : Building) (t : Script), t.Ordered →
      Written source tokens m s t → calls.foldlM Building.call s = .ok s' →
      ∃ m', Written source tokens m' s' (calls.foldl Script.call t) := by
    intro calls
    induction calls with
    | nil =>
      intro m s s' t _ hwritten hcalls
      obtain rfl := Except.ok.inj hcalls
      exact ⟨m, hwritten⟩
    | cons x calls ih =>
      intro m s s' t ht hwritten hcalls
      rw [List.foldlM_cons] at hcalls
      cases hx : s.call x with
      | error e => rw [hx] at hcalls; cases hcalls
      | ok u =>
        rw [hx] at hcalls
        obtain ⟨m', hnext⟩ := call_written ht hwritten hx
        exact ih m' u s' _ (ht.call x) hnext hcalls
  refine hall calls (fun _ => 0) _ s ⟨[], 0⟩ .new ⟨rfl, rfl, ?_, ?_⟩ h
  · intro c hc
    exact absurd hc (Nat.not_lt_zero c)
  · intro c hc
    exact absurd hc (Nat.not_lt_zero c)

/-- What the builder finishes is made of the events of the script. -/
theorem finishCalls_events {calls : List Call} {root : GreenNode}
    (h : finishCalls source tokens calls = .ok root) :
    (validateTokens source tokens >>= foldEvents source tokens
      ((script calls).entries.flatMap (Entry.events Entry.byCheckpoint))) = .ok root := by
  unfold finishCalls at h
  cases hcalls : calls.foldlM Building.call ⟨.new 0 source tokens, []⟩ with
  | error e => rw [hcalls] at h; cases h
  | ok s =>
    rw [hcalls] at h
    obtain ⟨m, hwritten⟩ := calls_written hcalls
    replace h : s.builder.finish = .ok root := h
    rw [hwritten.builder] at h
    rw [← marked_events m]
    exact h

end Written

/-! ## What the stream writes -/

def lastOf (prev : Option Nat) (l : List (Nat × Event)) : Option Nat :=
  (l.getLast?.map Prod.fst).or prev

/-- The links of a script, each place behind the link that its checkpoints are anchored to. -/
def Aligned (a : Nat → Nat) : Option Nat → List Entry → List (Nat × Event) → Prop
  | _, [], l => l = []
  | _, .Event e :: entries, l => ∃ i rest, l = (i, e) :: rest ∧ Aligned a (some i) entries rest
  | prev, .Place cs wraps :: entries, l => ∃ opened rest, l = opened ++ rest ∧
      opened.map Prod.snd = wraps.reverse.map (fun wrap => Event.Open wrap.2) ∧
      (∀ c ∈ cs, prev = some (a c)) ∧ Aligned a (lastOf prev opened) entries rest

theorem lastOf_append (prev : Option Nat) (l l' : List (Nat × Event)) :
    lastOf prev (l ++ l') = lastOf (lastOf prev l) l' := by
  rcases List.eq_nil_or_concat l' with rfl | ⟨l', x, rfl⟩
  · simp [lastOf]
  · simp [lastOf, ← List.append_assoc]

theorem lastOf_some {l : List (Nat × Event)} {i : Nat} (h : lastOf none l = some i) :
    ∃ before e, l = before ++ [(i, e)] := by
  rcases List.eq_nil_or_concat l with rfl | ⟨before, ⟨j, e⟩, rfl⟩
  · cases h
  · obtain rfl : j = i := by simpa [lastOf] using h
    exact ⟨before, e, by simp⟩

theorem Aligned.append {a : Nat → Nat} {prev : Option Nat} {xs ys : List Entry}
    {l l' : List (Nat × Event)} (h : Aligned a prev xs l) (h' : Aligned a (lastOf prev l) ys l') :
    Aligned a prev (xs ++ ys) (l ++ l') := by
  induction xs generalizing prev l with
  | nil =>
    obtain rfl : l = [] := h
    exact h'
  | cons x xs ih =>
    cases x with
    | Event e =>
      obtain ⟨i, rest, rfl, hrest⟩ := h
      refine ⟨i, rest ++ l', rfl, ih hrest ?_⟩
      exact (lastOf_append prev [(i, e)] rest) ▸ h'
    | Place cs wraps =>
      obtain ⟨opened, rest, rfl, hopened, hcs, hrest⟩ := h
      refine ⟨opened, rest ++ l', List.append_assoc .., hopened, hcs, ih hrest ?_⟩
      rw [← lastOf_append]
      exact h'

theorem Aligned.split {a : Nat → Nat} {prev : Option Nat} {xs ys : List Entry}
    {l : List (Nat × Event)} (h : Aligned a prev (xs ++ ys) l) :
    ∃ l₁ l₂, l = l₁ ++ l₂ ∧ Aligned a prev xs l₁ ∧ Aligned a (lastOf prev l₁) ys l₂ := by
  induction xs generalizing prev l with
  | nil => exact ⟨[], l, rfl, rfl, h⟩
  | cons x xs ih =>
    cases x with
    | Event e =>
      obtain ⟨i, rest, rfl, hrest⟩ := h
      obtain ⟨l₁, l₂, rfl, h₁, h₂⟩ := ih hrest
      refine ⟨(i, e) :: l₁, l₂, rfl, ⟨i, l₁, rfl, h₁⟩, ?_⟩
      rw [show (i, e) :: l₁ = [(i, e)] ++ l₁ from rfl, lastOf_append]
      exact h₂
    | Place cs wraps =>
      obtain ⟨opened, rest, rfl, hopened, hcs, hrest⟩ := h
      obtain ⟨l₁, l₂, rfl, h₁, h₂⟩ := ih hrest
      refine ⟨opened ++ l₁, l₂, (List.append_assoc ..).symm, ⟨opened, l₁, rfl, hopened, hcs, h₁⟩, ?_⟩
      rw [lastOf_append]
      exact h₂

theorem Aligned.congr {a a' : Nat → Nat} {prev : Option Nat} {entries : List Entry}
    {l : List (Nat × Event)} (h : Aligned a prev entries l)
    (hsame : ∀ c ∈ entries.flatMap Entry.checkpoints, a c = a' c) : Aligned a' prev entries l := by
  induction entries generalizing prev l with
  | nil => exact h
  | cons x entries ih =>
    simp only [List.flatMap_cons, List.mem_append] at hsame
    have hrest := fun c hc => hsame c (.inr hc)
    cases x with
    | Event e =>
      obtain ⟨i, rest, rfl, h⟩ := h
      exact ⟨i, rest, rfl, ih h hrest⟩
    | Place cs wraps =>
      obtain ⟨opened, rest, rfl, hopened, hcs, h⟩ := h
      refine ⟨opened, rest, rfl, hopened, fun c hc => ?_, ih h hrest⟩
      rw [hcs c hc, hsame c (.inl hc)]

theorem Aligned.events {a : Nat → Nat} {prev : Option Nat} {entries : List Entry}
    {l : List (Nat × Event)} (h : Aligned a prev entries l) :
    l.map Prod.snd = entries.flatMap (Entry.events Entry.lastOutermost) := by
  induction entries generalizing prev l with
  | nil =>
    obtain rfl : l = [] := h
    rfl
  | cons x entries ih =>
    cases x with
    | Event e =>
      obtain ⟨i, rest, rfl, h⟩ := h
      rw [List.map_cons, ih h]
      rfl
    | Place cs wraps =>
      obtain ⟨opened, rest, rfl, hopened, -, h⟩ := h
      rw [List.map_append, ih h, hopened, List.flatMap_cons]
      congr 1
      simp [Entry.events, Entry.lastOutermost]

/-- The stream has written the script, with an anchor for each checkpoint. -/
structure Streamed (a : Nat → Nat) (s : Streaming) (t : Script) (l : List (Nat × Event)) :
    Prop where
  view : Arena.View s.events l
  anchors : s.anchors = (List.range t.taken).map a
  aligned : Aligned a none t.entries l

section Streamed

variable {a : Nat → Nat} {s : Streaming} {t : Script} {l : List (Nat × Event)}

theorem Streamed.event (h : Streamed a s t l) (e : Event) :
    Streamed a { s with events := s.events.append e }
      { t with entries := t.entries ++ [.Event e] } (l ++ [(s.events.nodes.length, e)]) :=
  ⟨h.view.append e, h.anchors, h.aligned.append ⟨_, [], rfl, rfl⟩⟩

theorem Streamed.checkpoint (ht : t.Ordered) (h : Streamed a s t l) {anchor : Nat}
    (htail : s.events.tail = some anchor) :
    ∃ a', Streamed a' { s with anchors := s.anchors ++ [anchor] } t.checkpoint l := by
  let a' : Nat → Nat := fun c => if c = t.taken then anchor else a c
  have hold : ∀ c < t.taken, a' c = a c := fun c hc => if_neg (Nat.ne_of_lt hc)
  have hnew : a' t.taken = anchor := if_pos rfl
  have hlast : lastOf none l = some anchor := by
    rw [← htail, h.view.tail]
    simp [lastOf]
  have haligned : Aligned a' none t.entries l := by
    apply h.aligned.congr
    rw [ht.checkpoints]
    exact fun c hc => (hold c (List.mem_range.mp hc)).symm
  have hanchors : s.anchors ++ [anchor] = (List.range (t.taken + 1)).map a' := by
    rw [List.range_succ, List.map_append, h.anchors]
    have hsame : (List.range t.taken).map a = (List.range t.taken).map a' := by
      apply List.map_congr_left
      intro c hc
      rw [hold c (List.mem_range.mp hc)]
    rw [hsame]
    simp [hnew]
  refine ⟨a', h.view, ?_, ?_⟩
  · rcases t.checkpoint_cases with ⟨_, _, -, hcase⟩ | ⟨-, hcase⟩ <;> rw [hcase] <;> exact hanchors
  · rcases t.checkpoint_cases with ⟨entries, cs, hsplit, hcase⟩ | ⟨-, hcase⟩
    · rw [hsplit] at haligned
      obtain ⟨l₁, l₂, rfl, h₁, opened, rest, rfl, hopened, hcs, rfl⟩ := haligned.split
      obtain rfl : opened = [] := by simpa using hopened
      rw [hcase]
      refine h₁.append ⟨[], [], rfl, rfl, fun c hc => ?_, rfl⟩
      rcases List.mem_append.mp hc with hc | hc
      · exact hcs c hc
      · obtain rfl := List.mem_singleton.mp hc
        rw [hnew, ← hlast]
        simp
    · rw [hcase]
      rw [← List.append_nil l]
      refine haligned.append ⟨[], [], rfl, rfl, fun c hc => ?_, rfl⟩
      obtain rfl := List.mem_singleton.mp hc
      rw [hnew, hlast]

theorem Streamed.openAt (ht : t.Ordered) (h : Streamed a s t l) {c anchor : Nat}
    (kind : SyntaxKind) (hget : s.anchors[c]? = some anchor) :
    ∃ l', Streamed a { s with events := s.events.insertAfter anchor (.Open kind) }
      (t.call (.OpenAt c kind)) l' := by
  have hc : c < t.taken := by
    have hlt := (List.getElem?_eq_some_iff.mp hget).1
    rw [h.anchors] at hlt
    simpa using hlt
  obtain rfl : a c = anchor := by
    rw [h.anchors] at hget
    simpa [hc] using hget
  obtain ⟨before, cs, cs', wraps, after, hsplit, hnew, -⟩ := ht.wrapped hc kind
  have haligned := h.aligned
  rw [hsplit] at haligned
  obtain ⟨l₁, l₂, hl, h₁, opened, rest, rfl, hopened, hcs, hrest⟩ := haligned.split
  have hanchor : lastOf none l₁ = some (a c) := hcs c (by simp)
  obtain ⟨front, e, rfl⟩ := lastOf_some hanchor
  have hview := h.view
  rw [hl, List.append_assoc, List.singleton_append] at hview
  refine ⟨_, hview.insertAfter (.Open kind), h.anchors, ?_⟩
  rw [hnew, show front ++ (a c, e) :: (s.events.nodes.length, Event.Open kind) :: (opened ++ rest) =
    (front ++ [(a c, e)]) ++ ((s.events.nodes.length, Event.Open kind) :: opened ++ rest) by simp]
  refine h₁.append ⟨(s.events.nodes.length, Event.Open kind) :: opened, rest, rfl, ?_, hcs, ?_⟩
  · rw [List.map_cons, hopened]
    simp
  -- what follows a place stands behind its last node, and behind a bare one is an event
  · rcases List.eq_nil_or_concat opened with rfl | ⟨opened, last, rfl⟩
    · obtain rfl : wraps = [] := List.reverse_eq_nil_iff.mp (List.map_eq_nil_iff.mp hopened.symm)
      cases after with
      | nil => exact hrest
      | cons entry after =>
        cases entry with
        | Event e => exact hrest
        | Place ds ws =>
          have hapart := ht.apart
          rw [hsplit, List.isChain_append] at hapart
          have hplace := (List.isChain_cons_cons.mp hapart.2.1).1 rfl
          cases hplace
    · rw [List.concat_eq_append] at hrest ⊢
      rw [lastOf_append] at hrest
      rw [show (s.events.nodes.length, Event.Open kind) :: (opened ++ [last]) =
        ((s.events.nodes.length, Event.Open kind) :: opened) ++ [last] from rfl, lastOf_append]
      exact hrest

theorem call_streamed (ht : t.Ordered) (h : Streamed a s t l) {x : Call} {s' : Streaming}
    (hcall : s.call x = some s') : ∃ a' l', Streamed a' s' (t.call x) l' := by
  cases x with
  | Open kind =>
    obtain rfl := Option.some.inj hcall
    exact ⟨a, _, h.event _⟩
  | Advance =>
    obtain rfl := Option.some.inj hcall
    exact ⟨a, _, h.event _⟩
  | Close =>
    obtain rfl := Option.some.inj hcall
    exact ⟨a, _, h.event _⟩
  | Checkpoint =>
    obtain ⟨anchor, htail, rfl⟩ := Option.map_eq_some_iff.mp hcall
    obtain ⟨a', hnext⟩ := h.checkpoint ht htail
    exact ⟨a', l, hnext⟩
  | OpenAt c kind =>
    obtain ⟨anchor, hget, rfl⟩ := Option.map_eq_some_iff.mp hcall
    obtain ⟨l', hnext⟩ := h.openAt ht kind hget
    exact ⟨a, l', hnext⟩

/-- The stream writes each node that was opened at a place in front of all that
were opened there before. -/
theorem streamCalls_events {calls : List Call} {es : List Event} (h : streamCalls calls = some es) :
    es = (script calls).entries.flatMap (Entry.events Entry.lastOutermost) := by
  have hall : ∀ (calls : List Call) (a : Nat → Nat) (s s' : Streaming) (t : Script)
      (l : List (Nat × Event)), t.Ordered → Streamed a s t l →
      calls.foldlM Streaming.call s = some s' →
      ∃ a' l', Streamed a' s' (calls.foldl Script.call t) l' := by
    intro calls
    induction calls with
    | nil =>
      intro a s s' t l _ hstreamed hcalls
      obtain rfl := Option.some.inj hcalls
      exact ⟨a, l, hstreamed⟩
    | cons x calls ih =>
      intro a s s' t l ht hstreamed hcalls
      obtain ⟨u, hu, hrest⟩ := Option.bind_eq_some_iff.mp hcalls
      obtain ⟨a', l', hnext⟩ := call_streamed ht hstreamed hu
      exact ih a' u s' _ l' (ht.call x) hnext hrest
  obtain ⟨s, hcalls, rfl⟩ := Option.map_eq_some_iff.mp h
  obtain ⟨a, l, hstreamed⟩ := hall calls (fun _ => 0) _ s ⟨[], 0⟩ [] .new
    ⟨Arena.view_empty, rfl, rfl⟩ hcalls
  rw [hstreamed.view.toList]
  exact hstreamed.aligned.events

end Streamed

/-! ## The two orders -/

/-- Only checkpoints of a place have nodes there, and each checkpoint stands there once. -/
def Entry.Sound (entry : Entry) : Prop :=
  match entry with
  | Event _ => True
  | Place checkpoints wraps => checkpoints.Nodup ∧ ∀ wrap ∈ wraps, wrap.1 ∈ checkpoints

theorem Entry.wrap_sound {entry : Entry} (h : entry.Sound) (c : Nat) (kind : SyntaxKind) :
    (entry.wrap c kind).Sound := by
  cases entry with
  | Event e => trivial
  | Place cs wraps =>
    refine ⟨h.1, fun wrap hwrap => ?_⟩
    by_cases hc : c ∈ cs
    · rw [if_pos (by simpa using hc)] at hwrap
      rcases List.mem_append.mp hwrap with hwrap | hwrap
      · exact h.2 wrap hwrap
      · obtain rfl := List.mem_singleton.mp hwrap
        exact hc
    · rw [if_neg (by simpa using hc)] at hwrap
      exact h.2 wrap hwrap

theorem call_sound {t : Script} (ht : t.Ordered) (h : ∀ entry ∈ t.entries, entry.Sound) (x : Call) :
    ∀ entry ∈ (t.call x).entries, entry.Sound := by
  have hevent : ∀ e : Event, ∀ entry ∈ t.entries ++ [Entry.Event e], entry.Sound := by
    intro e entry hentry
    rcases List.mem_append.mp hentry with hentry | hentry
    · exact h entry hentry
    · obtain rfl := List.mem_singleton.mp hentry
      trivial
  cases x with
  | Open kind => exact hevent _
  | Advance => exact hevent _
  | Close => exact hevent _
  | Checkpoint =>
    intro entry hentry
    rcases t.checkpoint_cases with ⟨entries, cs, hsplit, hcase⟩ | ⟨-, hcase⟩
    · rw [Script.call, hcase] at hentry
      rcases List.mem_append.mp hentry with hentry | hentry
      · exact h entry (by rw [hsplit]; exact List.mem_append_left _ hentry)
      · obtain rfl := List.mem_singleton.mp hentry
        have hplace := h (.Place cs []) (by rw [hsplit]; simp)
        refine ⟨?_, fun wrap hwrap => absurd hwrap List.not_mem_nil⟩
        rw [List.nodup_append]
        refine ⟨hplace.1, List.nodup_singleton _, fun c hc c' hc' => ?_⟩
        obtain rfl := List.mem_singleton.mp hc'
        have hin : c ∈ t.entries.flatMap Entry.checkpoints := by
          rw [hsplit, List.flatMap_append, List.mem_append]
          exact .inr (by simpa [Entry.checkpoints] using hc)
        rw [ht.checkpoints, List.mem_range] at hin
        exact Nat.ne_of_lt hin
    · rw [Script.call, hcase] at hentry
      rcases List.mem_append.mp hentry with hentry | hentry
      · exact h entry hentry
      · obtain rfl := List.mem_singleton.mp hentry
        exact ⟨List.nodup_singleton _, fun wrap hwrap => absurd hwrap List.not_mem_nil⟩
  | OpenAt c kind =>
    intro entry hentry
    obtain ⟨old, hold, rfl⟩ := List.mem_map.mp hentry
    exact Entry.wrap_sound (h old hold) c kind

theorem script_sound (calls : List Call) : ∀ entry ∈ (script calls).entries, entry.Sound := by
  have hall : ∀ (calls : List Call) (t : Script), t.Ordered → (∀ entry ∈ t.entries, entry.Sound) →
      ∀ entry ∈ (calls.foldl Script.call t).entries, entry.Sound := by
    intro calls
    induction calls with
    | nil => exact fun t _ h => h
    | cons x calls ih => exact fun t ht h => ih _ (ht.call x) (call_sound ht h x)
  exact hall calls ⟨[], 0⟩ .new fun entry hentry => absurd hentry List.not_mem_nil

theorem sum_count (cs : List Nat) (f : Nat → Nat) (c : Nat) :
    (cs.map fun d => f d + if d = c then 1 else 0).sum = (cs.map f).sum + cs.count c := by
  induction cs with
  | nil => rfl
  | cons d cs ih =>
    simp only [List.map_cons, List.sum_cons, ih, List.count_cons, beq_iff_eq]
    omega

theorem byCheckpoint_length {entry : Entry} (h : entry.Sound) :
    entry.byCheckpoint.length = entry.lastOutermost.length := by
  cases entry with
  | Event e => rfl
  | Place cs wraps =>
    obtain ⟨hnodup, hwraps⟩ := h
    have hcount : ∀ ws : List (Nat × SyntaxKind), (∀ wrap ∈ ws, wrap.1 ∈ cs) →
        (cs.map fun c => (ws.filter (·.1 = c)).length).sum = ws.length := by
      intro ws
      induction ws with
      | nil => simp
      | cons w ws ih =>
        intro hws
        have hrest := ih fun wrap hwrap => hws wrap (List.mem_cons_of_mem _ hwrap)
        have hcons : ∀ c, ((w :: ws).filter (·.1 = c)).length =
            (ws.filter (·.1 = c)).length + if c = w.1 then 1 else 0 := by
          intro c
          by_cases hc : w.1 = c
          · simp [hc]
          · simp [hc, Ne.symm hc]
        have hone := List.count_eq_one_of_mem hnodup (hws w List.mem_cons_self)
        simp only [hcons, sum_count, hrest, hone, List.length_cons]
    simp only [Entry.byCheckpoint, Entry.lastOutermost, List.length_flatMap, List.length_map,
      List.length_reverse]
    exact hcount wraps hwraps

theorem events_length {entry : Entry} (h : entry.Sound) :
    (entry.events Entry.byCheckpoint).length = (entry.events Entry.lastOutermost).length := by
  cases entry with
  | Event e => rfl
  | Place cs wraps =>
    simp only [Entry.events, List.length_map]
    exact byCheckpoint_length h

theorem events_inj {entry : Entry}
    (h : entry.events Entry.byCheckpoint = entry.events Entry.lastOutermost) :
    entry.byCheckpoint = entry.lastOutermost := by
  cases entry with
  | Event e => rfl
  | Place cs wraps =>
    simp only [Entry.events] at h
    exact List.map_injective_iff.mpr (fun _ _ heq => Event.Open.inj heq) h

/-- The two lists of events are one where the kinds of every place are the same. -/
theorem events_mirrored (calls : List Call) :
    (script calls).entries.flatMap (Entry.events Entry.byCheckpoint) =
      (script calls).entries.flatMap (Entry.events Entry.lastOutermost) ↔ Mirrored calls := by
  have hsound := script_sound calls
  unfold Mirrored
  generalize (script calls).entries = entries at hsound ⊢
  induction entries with
  | nil => simp
  | cons entry entries ih =>
    have hrest := ih fun e he => hsound e (List.mem_cons_of_mem _ he)
    rw [List.flatMap_cons, List.flatMap_cons, List.forall_mem_cons]
    constructor
    · intro h
      obtain ⟨hfirst, hothers⟩ :=
        List.append_inj h (events_length (hsound entry List.mem_cons_self))
      exact ⟨events_inj hfirst, hrest.mp hothers⟩
    · rintro ⟨hfirst, hothers⟩
      have hevents : entry.events Entry.byCheckpoint = entry.events Entry.lastOutermost := by
        cases entry with
        | Event e => rfl
        | Place cs wraps => simp only [Entry.events, hfirst]
      rw [hevents, hrest.mpr hothers]

/-! ## Wrapping is wrapping -/

/-- What the builder finishes is what is made at once, and what the stream of
the parser finishes, as long as the calls can be carried out at once and the
kinds at every place are the same in both orders. -/
theorem wrapping_needs_mirrored_places {source : Text} {tokens : List Token} {calls : List Call}
    {root : GreenNode} (h : finishCalls source tokens calls = .ok root) :
    (((Immediate.calls source tokens calls).bind Immediate.root = some root ∧
      ∀ es, streamCalls calls = some es →
        (es.foldl GreenNodeBuilder.push (.new 0 source tokens)).finish = .ok root) ↔
      (Immediate.calls source tokens calls).isSome = true ∧ Mirrored calls) := by
  have hbuilt := finishCalls_events h
  have hfold : ∃ source_end, validateTokens source tokens = .ok source_end ∧
      foldEvents source tokens ((script calls).entries.flatMap
        (Entry.events Entry.byCheckpoint)) source_end = .ok root := by
    cases hvalid : validateTokens source tokens with
    | error e => rw [hvalid] at hbuilt; cases hbuilt
    | ok source_end => exact ⟨source_end, rfl, by rw [hvalid] at hbuilt; exact hbuilt⟩
  obtain ⟨source_end, -, hfold⟩ := hfold
  constructor
  · rintro ⟨himmediate, -⟩
    obtain ⟨st, hst, hroot⟩ := Option.bind_eq_some_iff.mp himmediate
    refine ⟨by rw [hst]; rfl, (events_mirrored calls).mp ?_⟩
    let written : List Trace :=
      ((script calls).entries.flatMap (Entry.events Entry.byCheckpoint)).map Trace.Event
    have hwritten : written.filterMap Trace.event =
        (script calls).entries.flatMap (Entry.events Entry.byCheckpoint) := by
      simp [written, List.filterMap_map, Function.comp_def, Trace.event]
    rw [← hwritten] at hfold
    obtain ⟨st', hrun, hroot'⟩ := Immediate.foldEvents_run hfold
    have hsame := Immediate.events_unique hrun (Immediate.calls_run hst) hroot' hroot
    rw [hwritten] at hsame
    exact hsame.trans (traces_events _)
  · rintro ⟨hsome, hmirrored⟩
    have hevents := (events_mirrored calls).mpr hmirrored
    obtain ⟨st, hst⟩ := Option.isSome_iff_exists.mp hsome
    refine ⟨?_, fun es hes => ?_⟩
    · rw [hevents, ← traces_events] at hfold
      obtain ⟨st', hrun, hroot⟩ := Immediate.foldEvents_run hfold
      obtain rfl : st' = st := Option.some.inj (hrun.symm.trans (Immediate.calls_run hst))
      rw [hst]
      exact hroot
    · rw [finish_push, streamCalls_events hes, ← hevents]
      exact hbuilt

/-- A chain of two postfix nodes of one kind around a token. -/
def postfixChain (first second : NodeKind) : List Call :=
  [.Open (.Node .Root), .Checkpoint, .Advance, .OpenAt 0 (.Node first), .Close,
    .OpenAt 0 (.Node second), .Close, .Close]

/-- With one kind the builder, the builder that works at once and the stream of the
parser make the same tree. -/
theorem a_chain_of_one_kind :
    ∃ root, finishCalls (ascii "a") [(.Ident, ⟨0, 1, Nat.zero_le _⟩)]
        (postfixChain .ArrowCall .ArrowCall) = .ok root ∧
      root.nodes.map GreenNode.kind = [.Node .Root, .Node .ArrowCall, .Node .ArrowCall] ∧
      (Immediate.calls (ascii "a") [(.Ident, ⟨0, 1, Nat.zero_le _⟩)]
        (postfixChain .ArrowCall .ArrowCall)).bind Immediate.root = some root ∧
      ∃ es, streamCalls (postfixChain .ArrowCall .ArrowCall) = some es ∧
        (es.foldl GreenNodeBuilder.push (.new 0 (ascii "a")
          [(.Ident, ⟨0, 1, Nat.zero_le _⟩)])).finish = .ok root := by
  obtain ⟨root, hroot⟩ : ∃ root, finishCalls (ascii "a") [(.Ident, ⟨0, 1, Nat.zero_le _⟩)]
      (postfixChain .ArrowCall .ArrowCall) = .ok root := ⟨_, rfl⟩
  obtain ⟨hsame, hstream⟩ := (wrapping_needs_mirrored_places hroot).mpr ⟨rfl, by decide⟩
  have hevents : ∃ es, streamCalls (postfixChain .ArrowCall .ArrowCall) = some es := ⟨_, rfl⟩
  obtain ⟨es, hes⟩ := hevents
  refine ⟨root, hroot, ?_, hsame, es, hes, hstream es hes⟩
  rw [← Except.ok.inj (show Except.ok _ = Except.ok root from hroot)]
  rfl

/-- With two kinds, the one that was opened first comes out around the other. -/
theorem a_chain_of_two_kinds :
    opensWhereTaken (postfixChain .ArrowCall .PropertyNav) = true ∧
      ∃ root, finishCalls (ascii "a") [(.Ident, ⟨0, 1, Nat.zero_le _⟩)]
          (postfixChain .ArrowCall .PropertyNav) = .ok root ∧
        root.nodes.map GreenNode.kind = [.Node .Root, .Node .ArrowCall, .Node .PropertyNav] ∧
        ∃ st at_once, Immediate.calls (ascii "a") [(.Ident, ⟨0, 1, Nat.zero_le _⟩)]
            (postfixChain .ArrowCall .PropertyNav) = some st ∧ st.root = some at_once ∧
          at_once.nodes.map GreenNode.kind = [.Node .Root, .Node .PropertyNav, .Node .ArrowCall] ∧
          at_once ≠ root := by
  refine ⟨rfl, _, rfl, rfl, _, _, rfl, rfl, rfl, fun h => ?_⟩
  have hkinds := congrArg (fun root => root.nodes.map GreenNode.kind) h
  exact absurd hkinds (by decide)

end analyzer.cst
