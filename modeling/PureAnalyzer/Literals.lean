-- The string literals: how the narrow layer quotes a name, how the tracker
-- takes the quotes off again, and what the automaton reads as one literal.
-- The three agree on every name and on every literal.
import PureAnalyzer.Brackets
import PureAnalyzer.Narrow

namespace purecard.narrow

open pushdown pda scope

/-! ## Quotes doubled and halved -/

/-- The content of a literal, each of its quotes twice. -/
def doubled (content : List UInt8) : List UInt8 :=
  content.flatMap fun b => if b = QUOTE then [QUOTE, b] else [b]

theorem quote_eq (content : List UInt8) : quote content = QUOTE :: doubled content ++ [QUOTE] := rfl

theorem doubled_quote (rest : List UInt8) :
    doubled (QUOTE :: rest) = QUOTE :: QUOTE :: doubled rest := rfl

theorem doubled_plain {b : UInt8} (hb : b ≠ QUOTE) (rest : List UInt8) :
    doubled (b :: rest) = b :: doubled rest := by
  unfold doubled
  rw [List.flatMap_cons, if_neg hb]
  rfl

theorem undouble_quote (rest : List UInt8) :
    undouble (QUOTE :: QUOTE :: rest) = QUOTE :: undouble rest := rfl

theorem undouble_plain {b : UInt8} (hb : b ≠ QUOTE) (rest : List UInt8) :
    undouble (b :: rest) = b :: undouble rest := by
  cases rest with
  | nil => rfl
  | cons c rest =>
    rw [undouble, if_neg]
    simp [hb]

theorem undouble_doubled (content : List UInt8) : undouble (doubled content) = content := by
  induction content with
  | nil => rfl
  | cons b rest ih =>
    by_cases hb : b = QUOTE
    · subst hb
      rw [doubled_quote, undouble_quote, ih]
    · rw [doubled_plain hb, undouble_plain hb, ih]

theorem unquote_between (body : List UInt8) :
    unquote (QUOTE :: body ++ [QUOTE]) = undouble body := by
  unfold unquote
  simp

theorem unquote_quote (name : List UInt8) : unquote (quote name) = name := by
  rw [quote_eq, unquote_between, undouble_doubled]

theorem doubled_append (u v : List UInt8) : doubled (u ++ v) = doubled u ++ doubled v :=
  List.flatMap_append

/-- The inside of a literal is a content with its quotes doubled. -/
theorem litBody_doubled {body : List UInt8} (h : LitBody body) : ∃ content, body = doubled content := by
  induction h with
  | nil => exact ⟨[], rfl⟩
  | @byte u b _ hb ih =>
    obtain ⟨content, rfl⟩ := ih
    refine ⟨content ++ [b], ?_⟩
    rw [doubled_append, doubled_plain hb]
    rfl
  | @doubled u _ ih =>
    obtain ⟨content, rfl⟩ := ih
    refine ⟨content ++ [QUOTE], ?_⟩
    rw [doubled_append, doubled_quote, List.append_assoc]
    rfl

/-! ## Literals of the automaton -/

/-- The bytes `w` are one literal of the automaton: it opens at their first
byte, the automaton stays inside, and the last byte is a quote that may
close it. -/
structure ReadsLiteral (p q : Pda) (w : List UInt8) : Prop where
  outside : p.state.quote = .Outside
  run : Config.run step p w = some q
  inside : ∀ u v c, w = u ++ v → u ≠ [] → Config.run step p u = some c →
    c.state.quote ≠ .Outside
  closes : q.state.quote = .Pending

/-- What has been read of a literal. -/
def Within (w : List UInt8) : Quote → Prop
  | .Outside => False
  | .Inside => ∃ body, w = QUOTE :: body ∧ LitBody body
  | .Pending => ∃ body, w = QUOTE :: body ++ [QUOTE] ∧ LitBody body

/-- One more byte of a literal. -/
theorem within_step {p q : Pda} {b : UInt8} {w : List UInt8} (hw : Within w p.state.quote)
    (h : Config.advance step p b = some q) (hq : q.state.quote ≠ .Outside) :
    Within (w ++ [b]) q.state.quote := by
  have hscan := scan_advance h
  cases hp : p.state.quote with
  | Outside =>
    rw [hp] at hw
    exact hw.elim
  | Inside =>
    rw [hp] at hw hscan
    obtain ⟨body, rfl, hbody⟩ := hw
    simp only [scanByte, Option.some.injEq, Prod.mk.injEq] at hscan
    rw [← hscan.1]
    by_cases hb : b = QUOTE
    · rw [if_pos hb, hb]
      exact ⟨body, rfl, hbody⟩
    · rw [if_neg hb]
      exact ⟨body ++ [b], rfl, .byte hbody hb⟩
  | Pending =>
    rw [hp] at hw hscan
    obtain ⟨body, rfl, hbody⟩ := hw
    by_cases hb : b = QUOTE
    · -- the quote before was the first half of a doubled one
      subst hb
      simp only [scanByte, if_true, Option.some.injEq, Prod.mk.injEq] at hscan
      rw [← hscan.1]
      refine ⟨body ++ [QUOTE] ++ [QUOTE], ?_, .doubled hbody⟩
      simp
    · have hout : ∀ r, scanByte (.Pending, p.stack.map Frame.kind) b = some r →
          r.1 = .Outside := by
        intro r hr
        simp only [scanByte, if_neg hb] at hr
        split at hr
        · obtain rfl := Option.some.inj hr
          rfl
        · split at hr
          · obtain rfl := Option.some.inj hr
            rfl
          · cases hr
        · obtain rfl := Option.some.inj hr
          rfl
      exact absurd (hout _ hscan) hq

theorem readsLiteral_within {w : List UInt8} {p q : Pda} (hp : p.state.quote = .Outside)
    (hne : w ≠ []) (hrun : Config.run step p w = some q)
    (hinside : ∀ u v c, w = u ++ v → u ≠ [] → Config.run step p u = some c →
      c.state.quote ≠ .Outside) : Within w q.state.quote := by
  induction w using List.reverseRecOn generalizing q with
  | nil => exact absurd rfl hne
  | append_singleton u b ih =>
    have hq := hinside (u ++ [b]) [] q (by simp) (by simp) hrun
    rw [run_append, Option.bind_eq_some_iff] at hrun
    obtain ⟨c, hc, hb⟩ := hrun
    have hadvance : Config.advance step c b = some q := by simpa using hb
    by_cases hu : u = []
    · subst hu
      obtain rfl : p = c := by simpa using hc
      have hscan := scan_advance hadvance
      rw [hp] at hscan
      by_cases hbq : b = QUOTE
      · simp only [scanByte, hbq, if_true, Option.some.injEq, Prod.mk.injEq] at hscan
        rw [← hscan.1, hbq]
        exact ⟨[], rfl, .nil⟩
      · have hout : q.state.quote = .Outside := by
          simp only [scanByte, if_neg hbq] at hscan
          split at hscan
          · exact (Prod.mk.inj (Option.some.inj hscan)).1.symm
          · split at hscan
            · exact (Prod.mk.inj (Option.some.inj hscan)).1.symm
            · cases hscan
          · exact (Prod.mk.inj (Option.some.inj hscan)).1.symm
        exact absurd hout hq
    · have hbefore : ∀ x y d, u = x ++ y → x ≠ [] → Config.run step p x = some d →
          d.state.quote ≠ .Outside := by
        rintro x y d rfl hx hd
        exact hinside x (y ++ [b]) d (by simp) hx hd
      exact within_step (ih hu hc hbefore) hadvance hq

/-- Quoting what a literal holds gives its bytes back. -/
theorem quote_unquote {p q : Pda} {w : List UInt8} (h : ReadsLiteral p q w) :
    quote (unquote w) = w := by
  have hne : w ≠ [] := by
    rintro rfl
    obtain rfl : p = q := by simpa using h.run
    have hclash := h.outside.symm.trans h.closes
    cases hclash
  have hwithin := readsLiteral_within h.outside hne h.run h.inside
  rw [h.closes] at hwithin
  obtain ⟨body, rfl, hbody⟩ := hwithin
  obtain ⟨content, rfl⟩ := litBody_doubled hbody
  rw [unquote_between, undouble_doubled]
  rfl

/-! ## A quoted name is one literal -/

/-- The two kinds of literals: a value, and the name of a column. -/
inductive LiteralKind where
  | Value
  | Column
deriving DecidableEq, Repr

/-- The states inside a literal, behind a quote or not. -/
def LiteralKind.inside : LiteralKind → Bool → State
  | .Value => .InStrLit
  | .Column => .InRelColStrLit

/-- The state behind a literal. -/
def LiteralKind.after : LiteralKind → State
  | .Value => .AfterStrLit
  | .Column => .AfterRelColName

theorem step_escaped_quote (k : LiteralKind) (top : Option Frame) :
    step (k.inside true) top QUOTE = .Next (k.inside false) := by
  cases k <;> rfl

theorem step_escaped (k : LiteralKind) (top : Option Frame) {b : UInt8} (hb : b ≠ QUOTE) :
    step (k.inside true) top b = step k.after top b := by
  cases k with
  | Value =>
    show stepInStrLit true top b = stepAfterStrLit top b
    simp [stepInStrLit, hb]
  | Column =>
    show stepInRelColStrLit true top b = stepAfterRelColName top b
    simp [stepInRelColStrLit, hb]

theorem step_inside (k : LiteralKind) (top : Option Frame) (b : UInt8) :
    step (k.inside false) top b = .Next (k.inside (decide (b = QUOTE))) := by
  by_cases hb : b = QUOTE
  · subst hb
    cases k <;> rfl
  · cases k with
    | Value =>
      show stepInStrLit false top b = _
      simp [stepInStrLit, hb, LiteralKind.inside]
    | Column =>
      show stepInRelColStrLit false top b = _
      simp [stepInRelColStrLit, hb, LiteralKind.inside]

theorem advance_inside (k : LiteralKind) (stack : List Frame) (b : UInt8) :
    Config.advance step ⟨k.inside false, stack⟩ b =
      some ⟨k.inside (decide (b = QUOTE)), stack⟩ := by
  unfold Config.advance
  rw [step_inside]
  rfl

theorem advance_escaped_quote (k : LiteralKind) (stack : List Frame) :
    Config.advance step ⟨k.inside true, stack⟩ QUOTE = some ⟨k.inside false, stack⟩ := by
  unfold Config.advance
  rw [step_escaped_quote]
  rfl

theorem quote_inside (k : LiteralKind) (e : Bool) : (k.inside e).quote ≠ .Outside := by
  cases k <;> cases e <;> decide

/-- The automaton reads the inside of a quoted name and its last quote, and
is in the literal all the way. -/
theorem run_doubled (k : LiteralKind) (stack : List Frame) (name : List UInt8) :
    Config.run step ⟨k.inside false, stack⟩ (doubled name ++ [QUOTE]) =
        some ⟨k.inside true, stack⟩ ∧
      ∀ u v c, doubled name ++ [QUOTE] = u ++ v →
        Config.run step ⟨k.inside false, stack⟩ u = some c → c.state.quote ≠ .Outside := by
  have hstart : ∀ c : Pda, Config.run step ⟨k.inside false, stack⟩ [] = some c →
      c.state.quote ≠ .Outside := by
    rintro c hc
    obtain rfl := Option.some.inj hc
    exact quote_inside k false
  induction name with
  | nil =>
    have hlast : Config.run step ⟨k.inside false, stack⟩ [QUOTE] =
        some ⟨k.inside true, stack⟩ := by
      rw [run_cons, advance_inside]
      rfl
    refine ⟨hlast, ?_⟩
    intro u v c huv hc
    cases u with
    | nil => exact hstart c hc
    | cons x u =>
      obtain ⟨rfl, rest⟩ := List.cons.inj huv
      obtain ⟨rfl, -⟩ := List.append_eq_nil_iff.mp rest.symm
      obtain rfl := Option.some.inj (hlast.symm.trans hc)
      exact quote_inside k true
  | cons b name ih =>
    obtain ⟨hrun, hinside⟩ := ih
    by_cases hb : b = QUOTE
    · -- a quote of the name is two bytes, and the first leaves one pending
      subst hb
      have hfirst : ∀ w, Config.run step ⟨k.inside false, stack⟩ (QUOTE :: w) =
          Config.run step ⟨k.inside true, stack⟩ w := by
        intro w
        rw [run_cons, advance_inside]
        rfl
      have hsecond : ∀ w, Config.run step ⟨k.inside true, stack⟩ (QUOTE :: w) =
          Config.run step ⟨k.inside false, stack⟩ w := by
        intro w
        rw [run_cons, advance_escaped_quote]
        rfl
      rw [doubled_quote, List.cons_append, List.cons_append]
      refine ⟨by rw [hfirst, hsecond, hrun], ?_⟩
      intro u v c huv hc
      rcases u with _ | ⟨x, _ | ⟨y, u⟩⟩
      · exact hstart c hc
      · obtain ⟨rfl, -⟩ := List.cons.inj huv
        rw [hfirst] at hc
        obtain rfl := Option.some.inj hc
        exact quote_inside k true
      · obtain ⟨rfl, htail⟩ := List.cons.inj huv
        obtain ⟨rfl, hrest⟩ := List.cons.inj htail
        rw [hfirst, hsecond] at hc
        exact hinside u v c hrest hc
    · have hfirst : ∀ w, Config.run step ⟨k.inside false, stack⟩ (b :: w) =
          Config.run step ⟨k.inside false, stack⟩ w := by
        intro w
        rw [run_cons, advance_inside, decide_eq_false hb]
        rfl
      rw [doubled_plain hb, List.cons_append]
      refine ⟨by rw [hfirst, hrun], ?_⟩
      intro u v c huv hc
      cases u with
      | nil => exact hstart c hc
      | cons x u =>
        obtain ⟨rfl, hrest⟩ := List.cons.inj huv
        rw [hfirst] at hc
        exact hinside u v c hrest hc

/-- From where a literal may open, a quoted name is one literal. -/
theorem reads_quoted {k : LiteralKind} {p : Pda} (hp : p.state.quote = .Outside)
    (hopen : step p.state p.stack.head? QUOTE = .Next (k.inside false)) (name : List UInt8) :
    ReadsLiteral p ⟨k.inside true, p.stack⟩ (quote name) := by
  obtain ⟨hrun, hinside⟩ := run_doubled k p.stack name
  have hfirst : ∀ w, Config.run step p (QUOTE :: w) =
      Config.run step ⟨k.inside false, p.stack⟩ w := by
    intro w
    rw [run_cons]
    unfold Config.advance
    rw [hopen]
    rfl
  constructor
  · exact hp
  · rw [quote_eq, List.cons_append, hfirst, hrun]
  · intro u v c huv hu hc
    cases u with
    | nil => exact absurd rfl hu
    | cons x u =>
      rw [quote_eq, List.cons_append, List.cons_append] at huv
      obtain ⟨rfl, hrest⟩ := List.cons.inj huv
      rw [hfirst] at hc
      exact hinside u v c hrest hc
  · cases k <;> rfl

/-- Any byte but a quote is read behind the literal. -/
theorem advance_behind (k : LiteralKind) (stack : List Frame) {b : UInt8} (hb : b ≠ QUOTE) :
    Config.advance step ⟨k.inside true, stack⟩ b = Config.advance step ⟨k.after, stack⟩ b := by
  unfold Config.advance
  rw [step_escaped k _ hb]
  rfl

/-- The tracker reads a quoted name as the name. -/
theorem classify_quote (name : List UInt8) : classify (quote name) = .Str name := by
  have hne : ∀ w : List UInt8, w.head? ≠ some QUOTE → quote name ≠ w := by
    rintro w hw rfl
    exact hw rfl
  have hmem : ∀ ws : List (List UInt8), (∀ w ∈ ws, w.head? ≠ some QUOTE) →
      ws.contains (quote name) = false := by
    intro ws hws
    rw [List.contains_eq_mem, decide_eq_false_iff_not]
    exact fun h => hws _ h rfl
  have hspace : (quote name).all isAsciiWhitespace = false := by
    rw [quote_eq, List.cons_append, List.all_cons]
    rfl
  unfold classify
  rw [hspace, if_neg (by simp), if_neg (hne _ (by decide)), hmem _ (by decide),
    if_neg (by simp), if_neg (hne _ (by decide)), if_neg (hne _ (by decide)),
    if_neg (hne _ (by decide)), if_neg (hne _ (by decide)), hmem _ (by decide),
    if_neg (by simp), hmem _ (by decide), if_neg (by simp)]
  show (if QUOTE = QUOTE then Lexeme.Str (unquote (quote name)) else _) = _
  rw [if_pos rfl, unquote_quote]

/-- A value position opens a literal at a quote, whatever is open around it. -/
theorem value_opens_literal (allowClose : Bool) (top : Option Frame) :
    valuePosition top QUOTE allowClose = .Next (.InStrLit false) := rfl

/-- A quoted name is one whole literal wherever a literal may open, the tracker
takes the name out of it again, and every literal is the quoted form of what
it holds. -/
theorem quoting_and_unquoting_are_inverse :
    (∀ (name : List UInt8) (k : LiteralKind) (p : Pda), p.state.quote = .Outside →
      step p.state p.stack.head? QUOTE = .Next (k.inside false) →
      ReadsLiteral p ⟨k.inside true, p.stack⟩ (quote name) ∧
      ∀ b, b ≠ QUOTE → Config.advance step ⟨k.inside true, p.stack⟩ b =
        Config.advance step ⟨k.after, p.stack⟩ b) ∧
    (∀ state ∈ [State.ExpectValue, State.ExpectValueReq], state.quote = .Outside ∧
      ∀ top, step state top QUOTE = .Next (LiteralKind.Value.inside false)) ∧
    (∀ name : List UInt8, unquote (quote name) = name ∧ classify (quote name) = .Str name) ∧
    ∀ (p q : Pda) (w : List UInt8), ReadsLiteral p q w → quote (unquote w) = w := by
  refine ⟨?_, ?_, fun name => ⟨unquote_quote name, classify_quote name⟩,
    fun p q w h => quote_unquote h⟩
  · intro name k p hp hopen
    exact ⟨reads_quoted hp hopen name, fun b hb => advance_behind k p.stack hb⟩
  · intro state hstate
    simp only [List.mem_cons, List.not_mem_nil, or_false] at hstate
    rcases hstate with rfl | rfl
    · exact ⟨rfl, value_opens_literal true⟩
    · exact ⟨rfl, value_opens_literal false⟩

/-- A name with a quote in it, from a value position and back. -/
theorem the_quoted_form_of_a_name_with_a_quote :
    ReadsLiteral ⟨.ExpectValue, [.Paren]⟩ ⟨.InStrLit true, [.Paren]⟩ (lit "'it''s'") ∧
      unquote (lit "'it''s'") = lit "it's" ∧ quote (unquote (lit "'it''s'")) = lit "'it''s'" := by
  have hreads : ReadsLiteral ⟨.ExpectValue, [.Paren]⟩ ⟨.InStrLit true, [.Paren]⟩
      (quote (lit "it's")) :=
    (quoting_and_unquoting_are_inverse.1 (lit "it's") .Value ⟨.ExpectValue, [.Paren]⟩ rfl rfl).1
  have hquote : quote (lit "it's") = lit "'it''s'" := by decide
  rw [hquote] at hreads
  exact ⟨hreads, by decide, quoting_and_unquoting_are_inverse.2.2.2 _ _ _ hreads⟩

end purecard.narrow
