-- The frames on the stack are the brackets that are still open. A scanner
-- that knows only quotes and brackets reads the same bytes, and the stack
-- of the automaton is the stack of the scanner at every byte.
import Mathlib.Data.List.Induction
import PureAnalyzer.PdaLaws

namespace purecard.pda

open pushdown

/-! ## Quotes and brackets, with no grammar -/

inductive BracketKind where
  | Round
  | Square
  | Curly
deriving DecidableEq, Repr

def openerOf (b : UInt8) : Option BracketKind :=
  if b = '(' then some .Round else if b = '[' then some .Square
  else if b = '{' then some .Curly else none

def closerOf (b : UInt8) : Option BracketKind :=
  if b = ')' then some .Round else if b = ']' then some .Square
  else if b = '}' then some .Curly else none

/-- Where a byte stands to the string literals. `Pending` is after a quote
that may close a literal or be the first half of a doubled one. -/
inductive Quote where
  | Outside
  | Inside
  | Pending
deriving DecidableEq, Repr

/-- One byte of the scanner. It keeps the open brackets, innermost first,
and fails at a closer that is not the one of the innermost bracket. -/
def scanByte : Quote × List BracketKind → UInt8 → Option (Quote × List BracketKind)
  | (.Inside, open_), b => some (if b = QUOTE then .Pending else .Inside, open_)
  | (_, open_), b =>
    if b = QUOTE then some (.Inside, open_)
    else match openerOf b, closerOf b with
      | some k, _ => some (.Outside, k :: open_)
      | none, some k => if open_.head? = some k then some (.Outside, open_.tail) else none
      | none, none => some (.Outside, open_)

/-- The scanner over a stream: the quotes and the brackets still open. -/
def scan (w : List UInt8) : Option (Quote × List BracketKind) :=
  w.foldlM scanByte (.Outside, [])

theorem scan_snoc (w : List UInt8) (b : UInt8) :
    scan (w ++ [b]) = (scan w).bind fun r => scanByte r b := by
  simp [scan, List.foldlM_append]

/-! ## Nested streams -/

/-- The inside of a string literal, where a quote is doubled. -/
inductive LitBody : List UInt8 → Prop
  | nil : LitBody []
  | byte {u b} : LitBody u → b ≠ QUOTE → LitBody (u ++ [b])
  | doubled {u} : LitBody u → LitBody (u ++ [QUOTE] ++ [QUOTE])

/-- Every bracket outside the string literals has its partner, and every
literal is closed. -/
inductive Nested : List UInt8 → Prop
  | nil : Nested []
  | plain {u b} : Nested u → b ≠ QUOTE → openerOf b = none → closerOf b = none →
      Nested (u ++ [b])
  | literal {u v} : Nested u → LitBody v → Nested (u ++ QUOTE :: v ++ [QUOTE])
  | pair {u v o c k} : Nested u → Nested v → openerOf o = some k → closerOf c = some k →
      Nested (u ++ o :: v ++ [c])

/-- The stream is nested except for these openers, innermost first. -/
inductive Unclosed : List BracketKind → List UInt8 → Prop
  | none {u} : Nested u → Unclosed [] u
  | opened {ks u o v k} : Unclosed ks u → openerOf o = some k → Nested v →
      Unclosed (k :: ks) (u ++ o :: v)

/-- The stream with these openers unclosed, and perhaps a literal after them. -/
def Shape (w : List UInt8) : Quote × List BracketKind → Prop
  | (.Outside, ks) => Unclosed ks w
  | (.Inside, ks) => ∃ u v, w = u ++ QUOTE :: v ∧ Unclosed ks u ∧ LitBody v
  | (.Pending, ks) => ∃ u v, w = u ++ QUOTE :: v ++ [QUOTE] ∧ Unclosed ks u ∧ LitBody v

theorem unclosed_grow {ks : List BracketKind} {w x : List UInt8}
    (hx : ∀ u, Nested u → Nested (u ++ x)) (h : Unclosed ks w) : Unclosed ks (w ++ x) := by
  cases h with
  | none hn => exact .none (hx _ hn)
  | opened hu ho hv =>
    rw [List.append_assoc, List.cons_append]
    exact .opened hu ho (hx _ hv)

theorem unclosed_plain {ks : List BracketKind} {w : List UInt8} {b : UInt8} (hq : b ≠ QUOTE)
    (ho : openerOf b = none) (hc : closerOf b = none) (h : Unclosed ks w) :
    Unclosed ks (w ++ [b]) :=
  unclosed_grow (fun _ hu => .plain hu hq ho hc) h

theorem unclosed_literal {ks : List BracketKind} {w v : List UInt8} (hv : LitBody v)
    (h : Unclosed ks w) : Unclosed ks (w ++ QUOTE :: v ++ [QUOTE]) := by
  rw [List.append_assoc]
  refine unclosed_grow (fun u hu => ?_) h
  rw [← List.append_assoc]
  exact .literal hu hv

theorem unclosed_open {ks : List BracketKind} {w : List UInt8} {o : UInt8} {k : BracketKind}
    (ho : openerOf o = some k) (h : Unclosed ks w) : Unclosed (k :: ks) (w ++ [o]) :=
  .opened h ho .nil

theorem unclosed_close {ks : List BracketKind} {w : List UInt8} {c : UInt8} {k : BracketKind}
    (hc : closerOf c = some k) (h : Unclosed (k :: ks) w) : Unclosed ks (w ++ [c]) := by
  cases h with
  | opened hu ho hv =>
    rw [List.append_assoc, List.cons_append]
    refine unclosed_grow (fun u hu => ?_) hu
    have hpair := Nested.pair hu hv ho hc
    rwa [List.append_assoc, List.cons_append] at hpair

/-- A byte outside of a literal keeps the shape. -/
theorem shape_outside {w : List UInt8} {ks : List BracketKind} {b : UInt8}
    {r : Quote × List BracketKind} (hw : Unclosed ks w)
    (h : scanByte (.Outside, ks) b = some r) : Shape (w ++ [b]) r := by
  simp only [scanByte] at h
  by_cases hq : b = QUOTE
  · simp only [hq, if_true, Option.some.injEq] at h
    subst h
    exact ⟨w, [], by simp [hq], hw, .nil⟩
  · simp only [hq, if_false] at h
    split at h
    · rename_i k ho
      simp only [Option.some.injEq] at h
      subst h
      exact unclosed_open ho hw
    · rename_i k ho hc
      split at h
      · rename_i hk
        simp only [Option.some.injEq] at h
        subst h
        cases ks with
        | nil => cases hk
        | cons k' ks =>
          simp only [List.head?_cons, Option.some.injEq] at hk
          subst hk
          exact unclosed_close hc hw
      · cases h
    · rename_i ho hc
      simp only [Option.some.injEq] at h
      subst h
      exact unclosed_plain hq ho hc hw

theorem shape_step {w : List UInt8} {q : Quote} {ks : List BracketKind} {b : UInt8}
    {r : Quote × List BracketKind} (hw : Shape w (q, ks)) (h : scanByte (q, ks) b = some r) :
    Shape (w ++ [b]) r := by
  cases q with
  | Outside => exact shape_outside hw h
  | Inside =>
    obtain ⟨u, v, rfl, hu, hv⟩ := hw
    simp only [scanByte, Option.some.injEq] at h
    subst h
    by_cases hq : b = QUOTE
    · simp only [hq, if_true]
      exact ⟨u, v, rfl, hu, hv⟩
    · simp only [hq, if_false]
      exact ⟨u, v ++ [b], by simp, hu, .byte hv hq⟩
  | Pending =>
    obtain ⟨u, v, rfl, hu, hv⟩ := hw
    by_cases hq : b = QUOTE
    · -- the quote was the first half of a doubled one
      simp only [scanByte, hq, if_true, Option.some.injEq] at h
      subst h
      exact ⟨u, v ++ [QUOTE] ++ [QUOTE], by simp [hq], hu, .doubled hv⟩
    · have hout : scanByte (.Outside, ks) b = some r := by
        simpa only [scanByte] using h
      exact shape_outside (unclosed_literal hv hu) hout

theorem scan_shape {w : List UInt8} {r : Quote × List BracketKind} (h : scan w = some r) :
    Shape w r := by
  induction w using List.reverseRecOn generalizing r with
  | nil =>
    simp only [scan, List.foldlM_nil, Option.pure_def, Option.some.injEq] at h
    subst h
    exact .none .nil
  | append_singleton w b ih =>
    rw [scan_snoc, Option.bind_eq_some_iff] at h
    obtain ⟨⟨q, ks⟩, hr, h⟩ := h
    exact shape_step (ih hr) h

/-! ## The automaton keeps the stack of the scanner -/

def Frame.kind : Frame → BracketKind
  | .Paren | .Group => .Round
  | .Bracket | .RelColBracket => .Square
  | .Brace | .BraceLambda => .Curly

def State.quote : State → Quote
  | .InStrLit false | .InRelColStrLit false => .Inside
  | .InStrLit true | .InRelColStrLit true => .Pending
  | _ => .Outside

/-- What the scanner makes of a byte that the automaton answers with a move,
with the frame `top` open. -/
def scanOf (top : Option Frame) : Step → Option (Quote × List BracketKind)
  | .Next t => some (t.quote, (top.map Frame.kind).toList)
  | .Push f t => some (t.quote, f.kind :: (top.map Frame.kind).toList)
  | .Pop t => some (t.quote, [])
  | .Dead => none

theorem scan_rows (s : State) :
    everyKey (fun top b => step s top b = .Dead ||
      scanByte (s.quote, (top.map Frame.kind).toList) b = scanOf top (step s top b)) = true := by
  cases s <;> decide +kernel +revert

theorem scanByte_keyByte (r : Quote × List BracketKind) (b : UInt8) :
    scanByte r (keyByte b) = scanByte r b := by
  have h := keyByte_spelled b
  simp only [SPELLED, List.map_cons, List.map_nil, List.Forall] at h
  obtain ⟨q, ks⟩ := r
  cases q <;> simp only [scanByte, openerOf, closerOf, h]

/-- The scanner looks at the innermost bracket and at none below it. -/
theorem scanByte_below {q : Quote} {ks : List BracketKind} {b : UInt8} {r : Quote × List BracketKind}
    (h : scanByte (q, ks) b = some r) (below : List BracketKind) :
    scanByte (q, ks ++ below) b = some (r.1, r.2 ++ below) := by
  have hpop : ∀ k, ks.head? = some k →
      (ks ++ below).head? = some k ∧ (ks ++ below).tail = ks.tail ++ below := by
    intro k hk
    cases ks with
    | nil => cases hk
    | cons k' ks => exact ⟨hk, rfl⟩
  cases q with
  | Inside =>
    simp only [scanByte, Option.some.injEq] at h ⊢
    rw [← h]
  | _ =>
    simp only [scanByte] at h ⊢
    split at h
    · rename_i hq
      simp only [hq, if_true]
      cases h
      rfl
    · rename_i hq
      simp only [hq, if_false]
      split at h
      · cases h
        rfl
      · rename_i k _ _
        split at h
        · rename_i hk
          cases h
          simp [hpop k hk]
        · cases h
      · cases h
        rfl

/-- One byte moves the automaton and the scanner alike. -/
theorem scan_advance {p q : Pda} {b : UInt8} (h : Config.advance step p b = some q) :
    scanByte (p.state.quote, p.stack.map Frame.kind) b =
      some (q.state.quote, q.stack.map Frame.kind) := by
  have hlive : step p.state p.stack.head? b ≠ .Dead := by
    intro hdead
    rw [← advance_eq_none, h] at hdead
    cases hdead
  have htable := of_everyKey (scan_rows p.state) p.stack.head? (keyByte_mem b)
  rw [step_keyByte, scanByte_keyByte] at htable
  simp only [hlive, decide_false, Bool.false_or, decide_eq_true_eq] at htable
  have hsplit : p.stack.map Frame.kind =
      (p.stack.head?.map Frame.kind).toList ++ p.stack.tail.map Frame.kind := by
    cases p.stack <;> rfl
  unfold Config.advance at h
  cases hm : step p.state p.stack.head? b with
  | Next t =>
    rw [hm] at h htable
    cases h
    rw [hsplit, scanByte_below htable]
  | Push f t =>
    rw [hm] at h htable
    cases h
    rw [hsplit, scanByte_below htable, List.map_cons, hsplit]
    rfl
  | Pop t =>
    rw [hm] at h htable
    cases h
    rw [hsplit, scanByte_below htable]
    simp
  | Dead => exact absurd hm hlive

theorem scan_of_reads {w : List UInt8} {p : Pda} (h : Reads w p) :
    scan w = some (p.state.quote, p.stack.map Frame.kind) := by
  have hstep : ∀ u c b d, scan u = some (c.state.quote, c.stack.map Frame.kind) →
      Config.advance step c b = some d →
      scan (u ++ [b]) = some (d.state.quote, d.stack.map Frame.kind) := by
    intro u c b d hu hd
    rw [scan_snoc, hu]
    exact scan_advance hd
  exact run_keeps_word (u := [])
    (P := fun u c => scan u = some (c.state.quote, c.stack.map Frame.kind)) hstep rfl h

theorem quote_table : ∀ s : State, Pda.isAccepting ⟨s, []⟩ = true → s.quote ≠ .Inside := by
  decide +kernel

/-- A stream that ends in an accepting configuration is nested. -/
theorem nested_of_accepting {w : List UInt8} {p : Pda} (h : Reads w p)
    (hacc : Pda.isAccepting p = true) : Nested w := by
  have hempty : p.stack = [] := by
    simp only [Pda.isAccepting, Bool.and_eq_true, List.isEmpty_iff] at hacc
    exact hacc.1
  obtain ⟨s, stack⟩ := p
  simp only at hempty
  subst hempty
  have hshape := scan_shape (scan_of_reads h)
  have hquote := quote_table s hacc
  simp only [List.map_nil] at hshape
  cases hq : s.quote with
  | Inside => exact absurd hq hquote
  | Outside =>
    rw [hq] at hshape
    cases hshape with
    | none hn => exact hn
  | Pending =>
    rw [hq] at hshape
    obtain ⟨u, v, rfl, hu, hv⟩ := hshape
    cases hu with
    | none hn => exact .literal hn hv

/-- The stack of the automaton is the brackets that are still open outside
the string literals, each of its own kind. So a stream that is accepted is
nested with every literal closed, and no closer pops an empty stack. -/
theorem the_stack_is_the_open_brackets (w : List UInt8) (p : Pda) (h : Reads w p) :
    scan w = some (p.state.quote, p.stack.map Frame.kind) ∧
      Shape w (p.state.quote, p.stack.map Frame.kind) ∧
      (Pda.isAccepting p = true → Nested w) ∧
      ∀ b t, step p.state (Pda.stackTop p) b = .Pop t → p.stack ≠ [] := by
  refine ⟨scan_of_reads h, scan_shape (scan_of_reads h), nested_of_accepting h, ?_⟩
  intro b t hpop hempty
  rw [Pda.stackTop, hempty] at hpop
  exact step_popsGuarded p.state b t hpop

/-- A bracket inside a literal is not on the stack, and the two outside are. -/
theorem the_open_brackets_of_a_call :
    Reads (lit "|X->f('(', [") ⟨.ExpectValue, [.Bracket, .Paren]⟩ ∧
      scan (lit "|X->f('(', [") = some (.Outside, [.Square, .Round]) :=
  ⟨by decide, (the_stack_is_the_open_brackets (lit "|X->f('(', [")
    ⟨.ExpectValue, [.Bracket, .Paren]⟩ (by decide)).1⟩

end purecard.pda
