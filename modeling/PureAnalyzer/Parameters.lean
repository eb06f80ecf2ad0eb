-- The names that lambdas and `let`s bind, and the variables of the scope
-- machine. A name is bound where the machine reads it as a whole, but for a
-- parameter right behind the pipe of a lambda, or behind a `-`, `<` or `>`.
import PureAnalyzer.Liveness

namespace purecard.scope.ScopeTracker

open pushdown pda model narrow trie

/-! ## Names that stand in a stream -/

/-- A name stands whole in a stream: the automaton opens it at the state
`anchor`, it is in `state` at its end, and the next byte is no part of it. -/
structure NameAt (stream before : List UInt8) (name : Text) (anchor state : State) : Prop where
  whole : ∃ c rest, stream = before ++ (name ++ c :: rest) ∧ isIdentTail c = false
  named : opensName name = true ∧ name.all isIdentTail = true
  reads : ∃ p q, Config.run step Pda.new before = some p ∧ p.state = anchor ∧
    p.state.lexemeKind = none ∧ Config.run step p name = some q ∧ q.state = state

/-- The name of a `let`. -/
def LetName (stream : List UInt8) (name : Text) : Prop :=
  ∃ before anchor, NameAt stream before name anchor .InBinder

/-- The states in which the automaton reads a name that a pipe may follow. -/
def PARAMETER_STATES : List State := [.InIdent, .InRelColLambdaBinder, .InRelAggReduceBinder]

/-- The bytes of a type with its multiplicity. -/
def isAnnotationByte (b : UInt8) : Bool := isIdentTail b || isWs b || (lit ":[]*").contains b

/-- Spaces, and then the type of a parameter if it has one. -/
def isAnnotation (bytes : List UInt8) : Bool :=
  match bytes.dropWhile isWs with
  | [] => true
  | b :: rest => b = ':' && rest.head? ≠ some ':' && rest.all isAnnotationByte

/-- One parameter of a lambda: spaces, its name, and its type if it has one. -/
structure Binder where
  spaces : List UInt8
  name : Text
  annotation : List UInt8
  spaced : spaces.all isWs = true
  annotated : isAnnotation annotation = true

def Binder.text (b : Binder) : List UInt8 := b.spaces ++ b.name ++ b.annotation

/-- The pipe of a lambda, which is no half of an `||`. -/
def OpensBody (bytes : List UInt8) : Prop := ∃ c rest, bytes = '|' :: c :: rest ∧ c ≠ '|'

/-- A parameter of a lambda, with the state its name opens at: the single one
before a pipe, or one of a list in braces. It is no part of a path. -/
inductive Parameter (stream : List UInt8) : State → Text → Prop
  | single {before rest : List UInt8} {b : Binder} {anchor state : State} :
    stream = before ++ (b.text ++ rest) → OpensBody rest →
    NameAt stream (before ++ b.spaces) b.name anchor state → state ∈ PARAMETER_STATES →
    anchor ≠ .AfterColon2 → Parameter stream anchor b.name
  | listed {before rest : List UInt8} {front back : List Binder} {b : Binder} {p : Pda}
    {anchor : State} :
    Config.run step Pda.new (before ++ lit "\x7b") = some p → p.state = .ExpectBraceBinder →
    stream = before ++ lit "\x7b" ++ front.flatMap (fun x => x.text ++ lit ",") ++ b.text ++
      back.flatMap (fun x => lit "," ++ x.text) ++ rest → OpensBody rest →
    NameAt stream (before ++ lit "\x7b" ++ front.flatMap (fun x => x.text ++ lit ",") ++ b.spaces)
      b.name anchor .InIdent →
    anchor ≠ .AfterColon2 → Parameter stream anchor b.name

/-- The states behind an operator or a pipe that may still go on. A name that
opens there is not recorded. -/
def BARE_ANCHORS : List State := [.ExpectLambdaBody, .SawDash, .SawPipe, .SawGt, .SawLt]

/-! ## The bytes of a name -/

def NAME_STATES : List State := .InBinder :: PARAMETER_STATES

/-- Three facts about a byte that leads from one state to another: a letter
opens a name in a gap, a name goes on by the bytes of names, and a name of a
binder ends at every other byte. -/
def spells (s : State) (b : UInt8) (n : State) : Bool :=
  (s.lexemeKind.isSome || !isIdentStart b || n.lexemeKind = some .Ident) &&
    (s.lexemeKind ≠ some .Ident || !isIdentTail b || n.lexemeKind = some .Ident) &&
    (!NAME_STATES.contains s || isIdentTail b || n.lexemeKind.isNone)

theorem spells_rows (s : State) :
    everyKey (fun top b => (step s top b).target.all (spells s b)) = true := by
  cases s <;> decide +kernel +revert

theorem spells_advance {p q : Pda} {b : UInt8} (h : Config.advance step p b = some q) :
    spells p.state b q.state = true := by
  have htable := of_everyKey (spells_rows p.state) p.stack.head? (keyByte_mem b)
  rw [step_keyByte, advance_target h, Option.all_some] at htable
  unfold spells at htable ⊢
  rwa [isIdentStart_keyByte, isIdentTail_keyByte] at htable

theorem name_opens {p q : Pda} {b : UInt8} (h : Config.advance step p b = some q)
    (hp : p.state.lexemeKind = none) (hb : isIdentStart b = true) :
    q.state.lexemeKind = some .Ident := by
  have htable := spells_advance h
  simp only [spells, Bool.and_eq_true, Bool.or_eq_true, decide_eq_true_eq] at htable
  simpa [hp, hb] using htable.1.1

theorem name_goes_on {p q : Pda} {b : UInt8} (h : Config.advance step p b = some q)
    (hp : p.state.lexemeKind = some .Ident) (hb : isIdentTail b = true) :
    q.state.lexemeKind = some .Ident := by
  have htable := spells_advance h
  simp only [spells, Bool.and_eq_true, Bool.or_eq_true, decide_eq_true_eq] at htable
  simpa [hp, hb] using htable.1.2

theorem name_ends {p q : Pda} {b : UInt8} (h : Config.advance step p b = some q)
    (hp : p.state ∈ NAME_STATES) (hb : isIdentTail b = false) : q.state.lexemeKind = none := by
  have htable := spells_advance h
  simp only [spells, Bool.and_eq_true, Bool.or_eq_true] at htable
  have hcontains : NAME_STATES.contains p.state = true := List.contains_iff_mem.mpr hp
  rw [hcontains, hb] at htable
  simpa using htable.2

/-! ## A name that is dispatched -/

/-- The states at which a name is recorded as a variable. -/
def BINDING_ANCHORS : List State :=
  [.ExpectValue, .ExpectValueReq, .ExpectBinder, .ExpectBraceBinder, .AfterRelColColon,
    .AfterValueColon]

theorem ascii_of_identTail {b : UInt8} (h : isIdentTail b = true) : b < 0x80 := by
  simp only [isIdentTail, isAsciiAlphabetic, isAsciiDigit, Bool.or_eq_true, Bool.and_eq_true,
    decide_eq_true_eq, UInt8.le_iff_toNat_le, ← UInt8.toNat_inj, UInt8.lt_iff_toNat_lt] at h ⊢
  simp only [Char.toUInt8] at h ⊢
  simp at h ⊢
  omega

theorem isUtf8_name {name : Text} (h : name.all isIdentTail = true) : isUtf8 name = true := by
  fun_induction isUtf8 name with
  | case1 => rfl
  | _ =>
    simp only [List.all_cons, Bool.and_eq_true] at h
    have hascii := ascii_of_identTail h.1
    grind [ascii_of_identTail]

theorem classify_name {name : Text} (hopens : opensName name = true)
    (hall : name.all isIdentTail = true) : classify name = .Ident name := by
  obtain ⟨b, hb, hstart⟩ := (Option.any_eq_true _ _).mp hopens
  obtain ⟨rest, rfl⟩ := List.head?_eq_some_iff.mp hb
  have hother : ∀ c : UInt8, isIdentStart c = false → b ≠ c := by
    rintro c hc rfl
    rw [hc] at hstart
    cases hstart
  have hne : ∀ op : List UInt8, op.head?.any isIdentStart = false → b :: rest ≠ op := by
    rintro op hop rfl
    simp [hstart] at hop
  have hnone : ∀ ops : List (List UInt8), ops.any (·.head?.any isIdentStart) = false →
      ops.contains (b :: rest) = false := by
    intro ops hops
    rw [List.any_eq_false] at hops
    cases hc : ops.contains (b :: rest) with
    | false => rfl
    | true => exact absurd (by simpa using hstart) (hops _ (List.contains_iff_mem.mp hc))
  have hspace : isAsciiWhitespace b = false := by
    cases hw : isAsciiWhitespace b with
    | false => rfl
    | true =>
      have hspaces : (lit " \t\n\r" ++ [12]).any isIdentStart = false := by decide
      have hmem : b ∈ lit " \t\n\r" ++ [12] := by
        simpa [isAsciiWhitespace, isWs, lit, or_assoc] using hw
      exact absurd hstart (List.any_eq_false.mp hspaces b hmem)
  unfold classify
  rw [if_neg (by simp [hspace]), if_neg (hne _ (by decide)),
    if_neg (by rw [hnone _ (by decide)]; exact Bool.false_ne_true), if_neg (hne _ (by decide)),
    if_neg (hne _ (by decide)), if_neg (hne _ (by decide)), if_neg (hne _ (by decide)),
    if_neg (by rw [hnone _ (by decide)]; exact Bool.false_ne_true), if_neg (by rw [hnone _ (by decide)]; exact Bool.false_ne_true)]
  dsimp only
  rw [if_neg (hother _ (by decide)), if_neg (hother _ (by decide)),
    if_neg (by simp [not_digit_of_identStart hstart, hother '-' (by decide)]),
    if_pos (by rw [hstart, isUtf8_name hall]; rfl)]

theorem bindVar_mem (t : ScopeTracker) {name : Text} (hall : name.all isIdentTail = true) :
    name ∈ (t.bindVar name).bound_vars := by
  unfold bindVar
  rw [if_neg (by simp [hall])]
  split
  · next hbound => exact List.contains_iff_mem.mp hbound
  · exact List.mem_append_right _ List.mem_cons_self

theorem openBinder_mem (t : ScopeTracker) {name : Text} (hall : name.all isIdentTail = true) :
    name ∈ (t.openBinder name).bound_vars := bindVar_mem _ hall

theorem onIdentAt_mem (t : ScopeTracker) {name : Text} (hall : name.all isIdentTail = true)
    {anchor : State} (hanchor : anchor ∈ BINDING_ANCHORS) (schema : Schema) :
    name ∈ (t.onIdentAt name anchor schema).1.bound_vars := by
  unfold BINDING_ANCHORS at hanchor
  simp only [List.mem_cons, List.not_mem_nil, or_false] at hanchor
  rcases hanchor with rfl | rfl | rfl | rfl | rfl | rfl
  · exact openBinder_mem t hall
  · exact openBinder_mem t hall
  · exact bindVar_mem t hall
  · exact openBinder_mem t hall
  · exact openBinder_mem t hall
  · exact openBinder_mem t hall

/-- A name that is read at one of these states is a variable from then on. -/
theorem dispatch_binds (t : ScopeTracker) {name : Text} (hopens : opensName name = true)
    (hall : name.all isIdentTail = true) {anchor : State} (hanchor : anchor ∈ BINDING_ANCHORS)
    (schema : Schema) : name ∈ (t.dispatchToken name anchor schema).bound_vars := by
  have hplain : ∀ a ∈ BINDING_ANCHORS, pendingOperatorByte a = none := by decide
  have hlex : classifyAt name anchor = .Ident name := by
    unfold classifyAt
    rw [hplain anchor hanchor]
    exact classify_name hopens hall
  have hident := onIdentAt_mem (t.nameSource name anchor schema) hall hanchor schema
  have hcolumn := (nameColumn_handles ((t.nameSource name anchor schema).onIdentAt name anchor
    schema).1 name anchor).grows.vars.subset hident
  unfold dispatchToken
  rw [hlex, if_neg (by nofun)]
  exact hcolumn

/-! ## A name on its way through the tokens -/

/-- The lexeme that is open while a token is read: the state it opened at, and
its bytes so far, those of earlier tokens first. -/
def Reading.opened (r : Reading) : Option (State × List UInt8) :=
  if r.continuing then r.tracker.pending.map fun waiting => (waiting.anchor, waiting.buf ++ r.seg)
  else some (r.anchor, r.seg)

/-- The bytes that are left go on with the end of a name, which the automaton
reads in a state of names, and a byte that is no part of it. -/
structure Ends (ahead : List UInt8) (p : Pda) (left : List UInt8) : Prop where
  whole : ∃ c rest, left = ahead ++ c :: rest ∧ isIdentTail c = false
  reads : ∃ q, Config.run step p ahead = some q ∧ q.state ∈ NAME_STATES

/-- Where the reading stands to a name, with the bytes of the stream that are
left: before it, inside of it, or behind it with the name bound. -/
inductive Follows (name : Text) (anchor : State) (r : Reading) (left : List UInt8) : Prop
  | ahead {before behind : List UInt8} {p : Pda} : left = before ++ behind →
    Config.run step r.pda before = some p → p.state = anchor → p.state.lexemeKind = none →
    Ends name p behind → Follows name anchor r left
  | inside {read ahead : List UInt8} : name = read ++ ahead → read ≠ [] →
    r.opened = some (anchor, read) → r.pda.state.lexemeKind = some .Ident →
    Ends ahead r.pda left → Follows name anchor r left
  | behind : name ∈ r.tracker.bound_vars → Follows name anchor r left

section follows

variable {schema : Schema} {name : Text} {anchor : State}

theorem Ends.cons {b : UInt8} {ahead left : List UInt8} {p q : Pda}
    (h : Ends (b :: ahead) p left) (hq : ∀ x rest, left = x :: rest →
      Config.advance step p x = some q) : ∃ rest, left = b :: rest ∧ Ends ahead q rest := by
  obtain ⟨⟨c, rest, rfl, hc⟩, d, hd, hstate⟩ := h
  refine ⟨ahead ++ c :: rest, rfl, ⟨c, rest, rfl, hc⟩, d, ?_, hstate⟩
  rw [run_cons, hq b _ rfl] at hd
  exact hd

/-- The lexeme that ends is read as the bytes it has. -/
theorem emitLexeme_binds {r : Reading} (hopened : r.opened = some (anchor, name))
    (hopens : opensName name = true) (hall : name.all isIdentTail = true)
    (hanchor : anchor ∈ BINDING_ANCHORS) :
    name ∈ (r.tracker.emitLexeme r.seg r.anchor r.continuing schema).bound_vars := by
  unfold Reading.opened at hopened
  unfold emitLexeme
  cases hc : r.continuing with
  | false =>
    rw [hc] at hopened
    obtain ⟨rfl, rfl⟩ := Prod.mk.inj (Option.some.inj hopened)
    exact dispatch_binds _ hopens hall hanchor schema
  | true =>
    rw [hc, if_pos rfl, Option.map_eq_some_iff] at hopened
    obtain ⟨waiting, hwaiting, heq⟩ := hopened
    obtain ⟨rfl, rfl⟩ := Prod.mk.inj heq
    rw [hwaiting]
    exact dispatch_binds _ hopens hall hanchor schema

/-- One byte takes the reading along. -/
theorem take_follows {r : Reading} {b : UInt8} {q : Pda} {left : List UInt8}
    (hopens : opensName name = true) (hall : name.all isIdentTail = true)
    (hanchor : anchor ∈ BINDING_ANCHORS) (hq : Config.advance step r.pda b = some q)
    (h : Follows name anchor r (b :: left)) : Follows name anchor (r.take b q schema) left := by
  cases h with
  | behind hbound => exact .behind ((take_grows schema r b q).vars.subset hbound)
  | @ahead before behind p heq hbefore hstate hgap hends =>
    cases before with
    | cons x before =>
      obtain ⟨rfl, rfl⟩ := List.cons.inj heq
      rw [run_cons, hq] at hbefore
      exact .ahead rfl (by rw [take_pda]; exact hbefore) hstate hgap hends
    | nil =>
      -- the byte is the first one of the name
      obtain rfl : r.pda = p := by simpa using hbefore
      rw [List.nil_append] at heq
      subst heq
      obtain ⟨x, hx, hstart⟩ := (Option.any_eq_true _ _).mp hopens
      obtain ⟨ahead, rfl⟩ := List.head?_eq_some_iff.mp hx
      obtain ⟨rest, hrest, hahead⟩ := hends.cons fun y rest hy => by
        obtain ⟨rfl, -⟩ := List.cons.inj hy
        exact hq
      obtain ⟨rfl, rfl⟩ := List.cons.inj hrest
      have hkind := name_opens hq hgap hstart
      have htake : r.take b q schema =
          ⟨r.tracker.flushGap r.seg r.anchor schema, q, false, r.pda.state, [b]⟩ := by
        unfold Reading.take
        rw [hgap]
        dsimp only
        rw [if_pos (by rw [hkind]; rfl)]
      refine .inside (show b :: ahead = [b] ++ ahead from rfl) (List.cons_ne_nil _ _) ?_ ?_ ?_
      · rw [htake, ← hstate]
        rfl
      · rw [htake]
        exact hkind
      · rw [htake]
        exact hahead
  | @inside read ahead hname hne hopened hkind hends =>
    cases ahead with
    | nil =>
      -- the byte is the one behind the name
      obtain ⟨⟨c, rest, heq, hc⟩, d, hd, hstate⟩ := hends
      obtain ⟨rfl, rfl⟩ := List.cons.inj heq
      obtain rfl : r.pda = d := by simpa using hd
      obtain rfl : name = read := by simpa using hname
      have hend := name_ends hq hstate hc
      apply Follows.behind
      have htake : (r.take b q schema).tracker =
          r.tracker.emitLexeme r.seg r.anchor r.continuing schema := by
        unfold Reading.take
        rw [hkind]
        dsimp only
        rw [if_neg (by rw [hend]; nofun)]
      rw [htake]
      exact emitLexeme_binds hopened hopens hall hanchor
    | cons x ahead =>
      obtain ⟨rest, hrest, hahead⟩ := hends.cons fun y rest hy => by
        obtain ⟨rfl, -⟩ := List.cons.inj hy
        exact hq
      obtain ⟨rfl, rfl⟩ := List.cons.inj hrest
      have htail : isIdentTail b = true := by
        rw [hname, List.all_append, Bool.and_eq_true, List.all_cons, Bool.and_eq_true] at hall
        exact hall.2.1
      have hgoes := name_goes_on hq hkind htail
      have htake : r.take b q schema = { r with pda := q, seg := r.seg ++ [b] } := by
        unfold Reading.take
        rw [hkind]
        dsimp only
        rw [if_pos hgoes]
      refine .inside (show name = (read ++ [b]) ++ ahead by simp [hname]) (by simp) ?_ ?_ ?_
      · rw [htake]
        unfold Reading.opened at hopened ⊢
        dsimp only
        cases hc : r.continuing with
        | false =>
          rw [hc] at hopened
          obtain ⟨rfl, rfl⟩ := Prod.mk.inj (Option.some.inj hopened)
          rfl
        | true =>
          rw [hc, if_pos rfl, Option.map_eq_some_iff] at hopened
          obtain ⟨waiting, hwaiting, heq⟩ := hopened
          obtain ⟨rfl, rfl⟩ := Prod.mk.inj heq
          simp [hwaiting]
      · rw [htake]
        exact hgoes
      · rw [htake]
        exact hahead

/-- Between two tokens the reading stands where it stood. -/
theorem finish_follows {r : Reading} {left : List UInt8} (hr : Live r)
    (h : Follows name anchor r left) :
    Follows name anchor (Reading.start (r.finish schema) r.pda schema) left := by
  have hstep : InStep (r.finish schema) r.pda := finish_inStep hr
  have hstart : Reading.start (r.finish schema) r.pda schema = _ := start_eq hstep
  cases h with
  | behind hbound =>
    apply Follows.behind
    have hfinish := (finish_grows schema r).vars.subset hbound
    exact (start_grows (r.finish schema) schema r.pda).vars.subset hfinish
  | ahead heq hbefore hstate hgap hends =>
    refine .ahead heq ?_ hstate hgap hends
    rw [start_pda]
    exact hbefore
  | @inside read ahead hname hne hopened hkind hends =>
    refine .inside hname hne ?_ (by rw [start_pda]; exact hkind) (by rw [start_pda]; exact hends)
    have hfinish : r.finish schema =
        r.tracker.bufferTrailing .Ident r.seg r.anchor r.continuing := by
      unfold Reading.finish
      rw [hkind]
    unfold Reading.opened at hopened
    cases hc : r.continuing with
    | false =>
      rw [hc] at hopened
      obtain ⟨rfl, rfl⟩ := Prod.mk.inj (Option.some.inj hopened)
      have hpending : (r.finish schema).pending = some ⟨.Ident, r.seg, r.anchor,
          openedPosition .Ident (r.tracker.openingPosition r.anchor)⟩ := by
        rw [hfinish, hc]
        rfl
      rw [hpending] at hstart
      rw [hstart]
      simp [Reading.opened, hpending]
    | true =>
      rw [hc, if_pos rfl, Option.map_eq_some_iff] at hopened
      obtain ⟨waiting, hwaiting, heq⟩ := hopened
      obtain ⟨rfl, rfl⟩ := Prod.mk.inj heq
      have hpending : (r.finish schema).pending =
          some { waiting with buf := waiting.buf ++ r.seg } := by
        rw [hfinish, hc]
        simp [bufferTrailing, hwaiting]
      rw [hpending] at hstart
      rw [hstart]
      simp [Reading.opened, hpending]

theorem read_follows {token left : List UInt8} {r : Reading} {q : Pda} (hr : Live r)
    (hopens : opensName name = true) (hall : name.all isIdentTail = true)
    (hanchor : anchor ∈ BINDING_ANCHORS) (hq : Config.run step r.pda token = some q)
    (h : Follows name anchor r (token ++ left)) :
    Follows name anchor (Reading.start (Reading.read schema r token) q schema) left := by
  induction token generalizing r with
  | nil =>
    obtain rfl : r.pda = q := by simpa using hq
    exact finish_follows hr h
  | cons b token ih =>
    rw [run_cons, Option.bind_eq_some_iff] at hq
    obtain ⟨d, hd, hrest⟩ := hq
    unfold Reading.read
    rw [hd]
    refine ih (take_live hr) ?_ (take_follows hopens hall hanchor hd h)
    rw [take_pda]
    exact hrest

theorem tokens_follow {tokens : List (List UInt8)} {left : List UInt8} {t : ScopeTracker}
    {p q : Pda} (ht : InStep t p) (hopens : opensName name = true)
    (hall : name.all isIdentTail = true) (hanchor : anchor ∈ BINDING_ANCHORS)
    (hq : Config.run step p tokens.flatten = some q)
    (h : Follows name anchor (Reading.start t p schema) (tokens.flatten ++ left)) :
    Follows name anchor (Reading.start (observeAll schema t p tokens) q schema) left := by
  induction tokens generalizing t p with
  | nil =>
    obtain rfl : p = q := by simpa using hq
    exact h
  | cons token rest ih =>
    rw [List.flatten_cons, run_append, Option.bind_eq_some_iff] at hq
    obtain ⟨d, hd, hrest⟩ := hq
    rw [List.flatten_cons, List.append_assoc] at h
    simp only [observeAll, hd]
    refine ih (observe_inStep ht hd) hrest ?_
    refine read_follows (start_live ht) hopens hall hanchor ?_ h
    rw [start_pda]
    exact hd

/-- A name that stands whole in the stream is bound, where it opened at one
of these states. -/
theorem name_bound {tokens : List (List UInt8)} {p : Pda} {before : List UInt8} {state : State}
    (h : Config.run step Pda.new tokens.flatten = some p)
    (hname : NameAt tokens.flatten before name anchor state) (hstate : state ∈ NAME_STATES)
    (hanchor : anchor ∈ BINDING_ANCHORS) (schema : Schema) :
    name ∈ (observeAll schema new Pda.new tokens).bound_vars := by
  obtain ⟨⟨c, rest, hwhole, hc⟩, ⟨hopens, hall⟩, d, e, hd, hdstate, hgap, he, hestate⟩ := hname
  have hstart : Follows name anchor (Reading.start new Pda.new schema)
      (tokens.flatten ++ []) := by
    rw [List.append_nil, hwhole]
    refine .ahead rfl (by rw [start_pda]; exact hd) hdstate hgap ⟨⟨c, rest, rfl, hc⟩, e, he, ?_⟩
    rw [hestate]
    exact hstate
  have hend := tokens_follow new_inStep hopens hall hanchor h hstart
  have hsynced : Synced (observeAll schema new Pda.new tokens) p := observeAll_synced new_synced h
  cases hend with
  | @ahead front behind d' heq _ _ _ hends =>
    obtain ⟨⟨x, tail, rfl, -⟩, -⟩ := hends
    simp at heq
  | inside _ _ _ _ hends =>
    obtain ⟨⟨x, tail, heq, -⟩, -⟩ := hends
    simp at heq
  | behind hbound =>
    rw [start_eq hsynced.inStep] at hbound
    split at hbound <;> exact hbound

end follows

/-! ## What a `$` may be followed by -/

/-- Behind a `$` the rule of the position keeps every prefix of a name that is
bound. -/
theorem sigil_keeps {schema : Schema} {t : ScopeTracker} {p : Pda} (ht : Synced t p)
    (hstate : p.state = .AfterDollar) {name pre : Text} (hname : name ∈ t.bound_vars)
    (hall : name.all isIdentTail = true) (hpre : pre <+: name) :
    (t.rule schema p.state).all (·.keep pre) = true := by
  have hpending : t.pending = none := by
    have hstep := ht.inStep
    unfold InStep at hstep
    rw [hstate] at hstep
    exact Option.map_eq_none_iff.mp hstep
  have hgap : t.narrowPrefix = [] := by
    unfold narrowPrefix
    rw [hpending]
  have hposition : t.position p.state = .None ∨ t.position p.state = .RefVar := by
    have hsep : t.storeMethodArgSep .AfterDollar = none ∧ t.sourceMethodArgSep .AfterDollar = none ∧
        t.propertyMethodArgSep .AfterDollar = none := by
      refine ⟨?_, ?_, ?_⟩
      · unfold storeMethodArgSep
        exact Option.bind_eq_none_iff.mpr fun _ _ => rfl
      · unfold sourceMethodArgSep
        split
        · rfl
        · exact Option.bind_eq_none_iff.mpr fun _ _ => rfl
      · unfold propertyMethodArgSep
        split
        · rfl
        · exact Option.bind_eq_none_iff.mpr fun _ _ => rfl
    obtain ⟨hstore, hsource, hproperty⟩ := hsep
    have hbase : t.basePosition .AfterDollar = .None ∨ t.basePosition .AfterDollar = .RefVar := by
      have hopening : t.openingPosition .AfterDollar = .None ∨
          t.openingPosition .AfterDollar = .RefVar := by
        show (if _ then _ else _) = _ ∨ (if _ then _ else _) = _
        split
        · exact .inl rfl
        · exact .inr rfl
      have hgapState : (State.lexemeKind .AfterDollar).isSome = false := by decide
      unfold basePosition
      rw [hgapState, if_neg Bool.false_ne_true]
      dsimp only
      split
      · exact .inl rfl
      · exact hopening
    rw [hstate]
    unfold position
    rw [hstore, hsource, hproperty]
    dsimp only
    rw [if_neg (by simp)]
    exact hbase
  rcases hposition with hnone | hvar
  · unfold rule
    rw [hnone]
    rfl
  · unfold rule ruleAt boundVariables
    rw [hvar, hgap]
    cases hbound : t.bound_vars with
    | nil => rfl
    | cons first rest =>
      show keepsTrieToken (Names.RefVar (first :: rest)).build 0 .Ident pre = true
      cases pre with
      | nil => rfl
      | cons b pre =>
        have htail : isIdentTail b = true := by
          obtain ⟨more, rfl⟩ := hpre
          exact List.all_eq_true.mp hall b List.mem_cons_self
        have hmem : (name, NameClose.Free) ∈ (Names.RefVar (first :: rest)).closing := by
          rw [← hbound]
          exact List.mem_map.mpr ⟨name, hname, rfl⟩
        have hrep := Trie.fromClosingNames_represents (Names.RefVar (first :: rest)).closing
        have hpath := (hrep.paths (b :: pre)).mpr (.inr ⟨_, hmem, hpre⟩)
        obtain ⟨cursor, hcursor⟩ := Option.isSome_iff_exists.mp hpath
        have hwalk := (walk_stay_iff (Names.RefVar (first :: rest)).build 0 cursor .Plain
          (b :: pre)).mpr hcursor
        unfold keepsTrieToken
        simp only [isCandidate, htail, if_true, keepsCandidate, TrieKind.shape, hwalk]

/-! ## Every name of a binder -/

theorem names_keep_anchor {name : Text} {p q : Pda} {a : State}
    (hall : name.all isIdentTail = true) (hkind : p.state.lexemeKind = some .Ident)
    (ha : a ∈ anchors p.state) (h : Config.run step p name = some q) : a ∈ anchors q.state := by
  induction name generalizing p with
  | nil =>
    obtain rfl : p = q := by simpa using h
    exact ha
  | cons b name ih =>
    rw [List.all_cons, Bool.and_eq_true] at hall
    rw [run_cons, Option.bind_eq_some_iff] at h
    obtain ⟨d, hd, hrest⟩ := h
    have hgoes := name_goes_on hd hkind hall.1
    have hboth := anchors_go_on hd (by rw [hkind]; rfl) (by rw [hgoes]; rfl) ha
    exact ih hall.2 hgoes hboth hrest

/-- A name opens at an anchor of the state it ends in. -/
theorem NameAt.anchored {stream before : List UInt8} {name : Text} {anchor state : State}
    (h : NameAt stream before name anchor state) : anchor ∈ anchors state := by
  obtain ⟨-, ⟨hopens, hall⟩, p, q, -, rfl, hgap, hq, rfl⟩ := h
  obtain ⟨b, hb, hstart⟩ := (Option.any_eq_true _ _).mp hopens
  obtain ⟨rest, rfl⟩ := List.head?_eq_some_iff.mp hb
  rw [List.all_cons, Bool.and_eq_true] at hall
  rw [run_cons, Option.bind_eq_some_iff] at hq
  obtain ⟨d, hd, hrest⟩ := hq
  have hkind := name_opens hd hgap hstart
  exact names_keep_anchor hall.2 hkind (anchor_opens hd hgap (by rw [hkind]; rfl)) hrest

theorem binding_anchors : ∀ state ∈ NAME_STATES, ∀ a ∈ anchors state,
    a ∈ BARE_ANCHORS ∨ a = .AfterColon2 ∨ a ∈ BINDING_ANCHORS := by
  decide +kernel

/-- A parameter is a name that stands whole in the stream. -/
theorem Parameter.stands {stream : List UInt8} {anchor : State} {name : Text}
    (h : Parameter stream anchor name) : ∃ before state, NameAt stream before name anchor state ∧
      state ∈ NAME_STATES ∧ anchor ≠ .AfterColon2 := by
  cases h with
  | single _ _ hname hstate hpath =>
    exact ⟨_, _, hname, List.mem_cons_of_mem _ hstate, hpath⟩
  | listed _ _ _ _ hname hpath => exact ⟨_, _, hname, by decide, hpath⟩

/-- In a stream whose parameters all stand behind a space, a bracket, a comma,
a colon or a whole operator, the parameters and the names of the `let`s so far
are variables of the scope machine, and behind a `$` each prefix of such a
name is kept. -/
theorem a_spaced_name_is_bound (schema : Schema) {tokens : List (List UInt8)} {p : Pda}
    (h : Config.run step Pda.new tokens.flatten = some p)
    (hspaced : ∀ anchor name, Parameter tokens.flatten anchor name → anchor ∉ BARE_ANCHORS)
    {name : Text}
    (hname : LetName tokens.flatten name ∨ ∃ anchor, Parameter tokens.flatten anchor name) :
    name ∈ (observeAll schema new Pda.new tokens).boundVariables ∧
      (p.state = .AfterDollar → ∀ pre, pre <+: name →
        ((observeAll schema new Pda.new tokens).rule schema p.state).all (·.keep pre) = true) := by
  obtain ⟨before, anchor, state, hat, hstate, hanchor⟩ : ∃ before anchor state,
      NameAt tokens.flatten before name anchor state ∧ state ∈ NAME_STATES ∧
        anchor ∈ BINDING_ANCHORS := by
    rcases hname with ⟨before, anchor, hat⟩ | ⟨anchor, hparameter⟩
    · have hbinder : ∀ a ∈ anchors .InBinder, a ∈ BINDING_ANCHORS := by decide
      exact ⟨before, anchor, _, hat, by decide, hbinder anchor hat.anchored⟩
    · obtain ⟨before, state, hat, hstate, hpath⟩ := hparameter.stands
      rcases binding_anchors state hstate anchor hat.anchored with hbare | hcolon | hbinding
      · exact absurd hbare (hspaced anchor name hparameter)
      · exact absurd hcolon hpath
      · exact ⟨before, anchor, state, hat, hstate, hbinding⟩
  have hbound := name_bound h hat hstate hanchor schema
  exact ⟨hbound, fun hdollar pre hpre =>
    sigil_keeps (observeAll_synced new_synced h) hdollar hbound hat.named.2 hpre⟩

/-- No name opens at a bare anchor of the stream. -/
def spaced (stream : List UInt8) : Bool :=
  (List.range (stream.length + 1)).all fun i =>
    (Config.run step Pda.new (stream.take i)).all fun p =>
      !BARE_ANCHORS.contains p.state || !(stream.drop i).head?.any isIdentStart

theorem spaced_parameters {stream : List UInt8} (h : spaced stream = true) {anchor : State}
    {name : Text} (hparameter : Parameter stream anchor name) : anchor ∉ BARE_ANCHORS := by
  obtain ⟨before, state, ⟨⟨c, rest, rfl, -⟩, ⟨hopens, -⟩, p, q, hp, rfl, -⟩, -⟩ := hparameter.stands
  obtain ⟨b, hb, hstart⟩ := (Option.any_eq_true _ _).mp hopens
  obtain ⟨more, rfl⟩ := List.head?_eq_some_iff.mp hb
  intro hbare
  have hle : before.length ≤ (before ++ (b :: more ++ c :: rest)).length := by
    rw [List.length_append]
    exact Nat.le_add_right _ _
  have hcut := List.all_eq_true.mp h before.length (List.mem_range.mpr (Nat.lt_succ_of_le hle))
  rw [List.take_left, hp, Option.all_some, List.drop_left] at hcut
  simp [hbare, hstart] at hcut

/-- A lambda as the body of a lambda, with a space before it and without. -/
def spacedLambdas : List UInt8 := lit "|A.all()->map(x| y|$"

def bareLambdas : List UInt8 := lit "|A.all()->map(x|y|$"

def binderY : Binder := ⟨[], lit "y", [], rfl, rfl⟩

/-- In both streams the name behind the first pipe is a parameter. -/
theorem parameter_y {before : List UInt8} {anchor : State}
    (h : Config.run step Pda.new before = some ⟨anchor, [.Paren]⟩)
    (hgap : anchor.lexemeKind = none) (hpath : anchor ≠ .AfterColon2)
    (hy : Config.run step ⟨anchor, [.Paren]⟩ (lit "y") = some ⟨.InIdent, [.Paren]⟩) :
    Parameter (before ++ lit "y|$") anchor (lit "y") := by
  have hbody : OpensBody (lit "|$") := ⟨'$', [], rfl, by decide⟩
  have hname : NameAt (before ++ lit "y|$") (before ++ binderY.spaces) (lit "y") anchor
      .InIdent := by
    refine ⟨⟨'|', lit "$", ?_, by decide⟩, by decide, ⟨anchor, [.Paren]⟩, ⟨.InIdent, [.Paren]⟩, ?_,
      rfl, hgap, hy, rfl⟩
    · rw [show binderY.spaces = [] from rfl, List.append_nil]
      rfl
    · rw [show binderY.spaces = [] from rfl, List.append_nil]
      exact h
  have hstream : before ++ lit "y|$" = before ++ (binderY.text ++ lit "|$") := rfl
  exact .single hstream hbody hname List.mem_cons_self hpath

theorem a_parameter_behind_a_space_is_bound : lit "y" ∈
    (observeAll session.DecoderSession.oneClass new Pda.new [spacedLambdas]).boundVariables := by
  have hrun : Config.run step Pda.new [spacedLambdas].flatten = some ⟨.AfterDollar, [.Paren]⟩ := by
    decide +kernel
  have hspaced : spaced [spacedLambdas].flatten = true := by decide +kernel
  have hbefore : Config.run step Pda.new (lit "|A.all()->map(x| ") =
      some ⟨.ExpectValueReq, [.Paren]⟩ := by
    decide +kernel
  have hparameter : Parameter [spacedLambdas].flatten .ExpectValueReq (lit "y") :=
    parameter_y hbefore rfl nofun rfl
  exact (a_spaced_name_is_bound session.DecoderSession.oneClass hrun
    (fun _ _ => spaced_parameters hspaced) (.inr ⟨_, hparameter⟩)).1

/-- A parameter right behind the pipe of another lambda is no variable, and
behind a `$` its name is masked. -/
theorem a_parameter_behind_a_pipe_is_hidden :
    (Config.run step Pda.new [bareLambdas].flatten).map Config.state = some .AfterDollar ∧
      Parameter [bareLambdas].flatten .SawPipe (lit "y") ∧
      lit "y" ∉
        (observeAll session.DecoderSession.oneClass new Pda.new [bareLambdas]).boundVariables ∧
      ((observeAll session.DecoderSession.oneClass new Pda.new [bareLambdas]).rule
        session.DecoderSession.oneClass .AfterDollar).all (·.keep (lit "y")) = false := by
  have hbefore : Config.run step Pda.new (lit "|A.all()->map(x|") = some ⟨.SawPipe, [.Paren]⟩ := by
    decide +kernel
  have hparameter : Parameter [bareLambdas].flatten .SawPipe (lit "y") :=
    parameter_y hbefore rfl nofun rfl
  exact ⟨by decide +kernel, hparameter, by decide +kernel, by decide +kernel⟩

end purecard.scope.ScopeTracker
