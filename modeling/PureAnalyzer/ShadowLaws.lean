-- The law of the shadowing check. It compares the guards of two rules for
-- equality, so it finds a rule that an earlier one covers exactly where no
-- earlier rule covers it by a guard that is another and wider one. Compiling
-- a spec reports the first rule that the check finds, and lets the others through.
import PureAnalyzer.Lowering

namespace purecard.spec

/-! ## Byte tests -/

/-- A byte test is subsumed when every byte that it admits is admitted. -/
theorem ByteTest.isSubsumedBy_iff (t other : ByteTest) :
    t.isSubsumedBy other = true ↔ ∀ byte, t.matches byte = true → other.matches byte = true := by
  unfold isSubsumedBy
  rw [List.all_eq_true]
  constructor
  · intro h byte hbyte
    have hrow := h byte.toNat (List.mem_range.mpr byte.toNat_lt)
    rw [UInt8.ofNat_toNat, hbyte] at hrow
    simpa using hrow
  · intro h n _
    cases ht : t.matches (UInt8.ofNat n) with
    | false => rfl
    | true => rw [h _ ht]; rfl

/-- The test admits no byte at all. -/
def ByteTest.isEmpty (t : ByteTest) : Bool := t.isSubsumedBy (.OneOf [])

theorem ByteTest.isEmpty_iff (t : ByteTest) : t.isEmpty = true ↔ ∀ byte, t.matches byte = false := by
  unfold isEmpty
  rw [isSubsumedBy_iff]
  constructor
  · intro h byte
    cases ht : t.matches byte with
    | false => rfl
    | true => cases h byte ht
  · intro h byte hbyte
    rw [h byte] at hbyte
    cases hbyte

end purecard.spec

namespace purecard.lower

open pushdown pda spec attempts

/-! ## Guards -/

/-- A stack top over that many frames. -/
def TopKnown (count : Nat) (top : Option Nat) : Prop := ∀ frame ∈ top, frame < count

def GuardKnown (count : Nat) : CompiledGuard → Prop
  | .StackTopIs frame | .StackTopIsNot frame => frame < count
  | _ => True

/-- The guard `h` matches no stack top. -/
def unmet (count : Nat) : CompiledGuard → Bool
  | .StackNonEmpty => count = 0
  | .StackTopIsNot _ => count = 1
  | _ => false

/-- The guard `g` is another one than `h`, and it matches where `h` does. With
few frames a guard can be as wide as one of another form. -/
def wider (count : Nat) : CompiledGuard → CompiledGuard → Bool
  | .Always, h => h ≠ .Always
  | .StackNonEmpty, .StackTopIs _ => true
  | .StackNonEmpty, .StackTopIsNot _ => true
  | .StackTopIsNot f, .StackTopIs frame => f ≠ frame
  | .StackEmpty, .Always => count = 0
  | .StackTopIs _, .StackNonEmpty => count = 1
  | .StackTopIs f, .StackTopIsNot frame => count = 2 && f ≠ frame
  | _, _ => false

/-- The guard `g` matches every stack top that `h` matches. -/
def Includes (count : Nat) (g h : CompiledGuard) : Prop :=
  ∀ top, TopKnown count top → h.matches top = true → g.matches top = true

theorem includes_iff_frames {count : Nat} {g h : CompiledGuard} :
    Includes count g h ↔ (h.matches none = true → g.matches none = true) ∧
      ∀ frame < count, h.matches (some frame) = true → g.matches (some frame) = true := by
  constructor
  · intro hall
    exact ⟨hall none nofun, fun frame hlt => hall (some frame) fun f hf => by
      rwa [← Option.some.inj hf]⟩
  · rintro ⟨hnone, hsome⟩ top htop
    cases top with
    | none => exact hnone
    | some frame => exact hsome frame (htop frame rfl)

/-- The other guards that take a guard in are the wider ones, unless it
matches nothing. -/
theorem includes_iff {count : Nat} {g h : CompiledGuard} (hg : GuardKnown count g)
    (hh : GuardKnown count h) :
    Includes count g h ↔ g = h ∨ wider count g h = true ∨ unmet count h = true := by
  rw [includes_iff_frames]
  cases h with
  | Always =>
    cases g with
    | StackEmpty =>
      simp only [CompiledGuard.matches, wider, unmet]
      constructor
      · rintro ⟨-, hsome⟩
        have hzero := hsome 0
        simp at hzero
        simp [hzero]
      · intro hcount
        simp at hcount
        simp [hcount]
    | _ => simp [CompiledGuard.matches, wider, unmet]
  | StackEmpty => cases g <;> simp [CompiledGuard.matches, wider, unmet]
  | StackNonEmpty =>
    cases g with
    | StackTopIs f =>
      simp [CompiledGuard.matches, wider, unmet]
      constructor
      · intro h
        have hzero := h 0
        have hone := h 1
        omega
      · intro hcount frame hlt
        have hf : f < count := hg
        omega
    | StackTopIsNot f =>
      simp [CompiledGuard.matches, wider, unmet]
      constructor
      · exact fun h => absurd rfl (h f hg)
      · intro hcount frame hlt
        omega
    | StackEmpty =>
      simp [CompiledGuard.matches, wider, unmet]
      constructor
      · intro h
        have hzero := h 0
        omega
      · intro hcount frame
        omega
    | _ => simp [CompiledGuard.matches, wider, unmet]
  | StackTopIs frame =>
    have hframe : frame < count := hh
    cases g with
    | StackTopIs f =>
      simp [CompiledGuard.matches, wider, unmet]
      constructor
      · exact fun h => (h frame hframe rfl).symm
      · intro heq top _ htop
        rw [htop, heq]
    | StackTopIsNot f =>
      simp [CompiledGuard.matches, wider, unmet]
      constructor
      · exact fun h heq => h frame hframe rfl heq.symm
      · intro hne top _ htop heq
        exact hne (heq.symm.trans htop)
    | StackEmpty => simpa [CompiledGuard.matches, wider, unmet] using hframe
    | _ => simp [CompiledGuard.matches, wider, unmet]
  | StackTopIsNot frame =>
    have hframe : frame < count := hh
    cases g with
    | StackTopIs f =>
      have hf : f < count := hg
      simp [CompiledGuard.matches, wider, unmet]
      constructor
      · intro h
        have hzero := h 0
        have hone := h 1
        have htwo := h 2
        have hself := h f hf
        omega
      · intro hcount top hlt hne
        omega
    | StackTopIsNot f =>
      have hf : f < count := hg
      simp [CompiledGuard.matches, wider, unmet]
      constructor
      · intro h
        have hself := h f hf
        omega
      · intro hcount top hlt hne
        omega
    | StackEmpty =>
      simp [CompiledGuard.matches, wider, unmet]
      constructor
      · intro h
        have hzero := h 0
        have hone := h 1
        omega
      · intro hcount top hlt
        omega
    | _ => simp [CompiledGuard.matches, wider, unmet]

/-! ## Rules that can never fire -/

/-- The earlier rule matches every byte and stack top that the later one does. -/
def Covers (count : Nat) (earlier later : CompiledRule) : Prop :=
  ∀ byte top, TopKnown count top → later.byte_test.matches byte = true →
    later.guard.matches top = true →
    earlier.byte_test.matches byte = true ∧ earlier.guard.matches top = true

/-- A rule with the same guard takes in the byte test. -/
def FlaggedBy (earlier later : CompiledRule) : Prop :=
  earlier.guard = later.guard ∧ later.byte_test.isSubsumedBy earlier.byte_test = true

/-- A rule with another guard covers the later rule: by a wider guard and a
byte test that takes the later one in, or because the later one matches no
byte or no stack top. -/
def covered (count : Nat) (earlier later : CompiledRule) : Bool :=
  later.byte_test.isEmpty || unmet count later.guard ||
    (wider count earlier.guard later.guard && later.byte_test.isSubsumedBy earlier.byte_test)

theorem unmet_iff {count : Nat} {g : CompiledGuard} (hg : GuardKnown count g) :
    unmet count g = true ↔ ∀ top, TopKnown count top → g.matches top = false := by
  have hknown : GuardKnown count .StackEmpty := trivial
  have hincludes : unmet count g = true → Includes count .StackEmpty g :=
    fun h => (includes_iff hknown hg).mpr (.inr (.inr h))
  constructor
  · intro h top htop
    cases hmatch : g.matches top with
    | false => rfl
    | true =>
      have hempty := hincludes h top htop hmatch
      cases g with
      | StackNonEmpty => cases top <;> simp_all [CompiledGuard.matches]
      | StackTopIsNot f => cases top <;> simp_all [CompiledGuard.matches]
      | _ => simp [unmet] at h
  · intro h
    cases g with
    | Always => cases h none nofun
    | StackEmpty => cases h none nofun
    | StackTopIs f =>
      have hself := h (some f) fun frame hframe => by rwa [← Option.some.inj hframe]
      simp [CompiledGuard.matches] at hself
    | StackNonEmpty =>
      have hzero : ¬ 0 < count := by
        intro hpos
        have htop := h (some 0) fun frame hframe => by rwa [← Option.some.inj hframe]
        simp [CompiledGuard.matches] at htop
      simp [unmet]
      omega
    | StackTopIsNot f =>
      have hf : f < count := hg
      have hother : ∀ frame < count, frame = f := by
        intro frame hframe
        have htop := h (some frame) fun x hx => by rwa [← Option.some.inj hx]
        simpa [CompiledGuard.matches] using htop
      have hzero := hother 0
      have hone := hother 1
      simp [unmet]
      omega

/-- An earlier rule covers a later one by the same guard or by another. -/
theorem covers_iff {count : Nat} {earlier later : CompiledRule}
    (hearlier : GuardKnown count earlier.guard) (hlater : GuardKnown count later.guard) :
    Covers count earlier later ↔ FlaggedBy earlier later ∨ covered count earlier later = true := by
  unfold covered
  rw [Bool.or_eq_true, Bool.or_eq_true, Bool.and_eq_true, ByteTest.isEmpty_iff, unmet_iff hlater]
  constructor
  · intro h
    by_cases hempty : ∀ byte, later.byte_test.matches byte = false
    · exact .inr (.inl (.inl hempty))
    by_cases hunmet : ∀ top, TopKnown count top → later.guard.matches top = false
    · exact .inr (.inl (.inr hunmet))
    simp only [not_forall, Bool.not_eq_false] at hempty hunmet
    obtain ⟨byte, hbyte⟩ := hempty
    obtain ⟨top, htop, hmatch⟩ := hunmet
    -- one pair that the later rule matches splits the pairs into bytes and tops
    have hbytes : later.byte_test.isSubsumedBy earlier.byte_test = true :=
      (ByteTest.isSubsumedBy_iff _ _).mpr fun b hb => (h b top htop hb hmatch).1
    have hguards : Includes count earlier.guard later.guard :=
      fun t ht hm => (h byte t ht hbyte hm).2
    rcases (includes_iff hearlier hlater).mp hguards with hsame | hwider | hunmet
    · exact .inl ⟨hsame, hbytes⟩
    · exact .inr (.inr ⟨hwider, hbytes⟩)
    · exact .inr (.inl (.inr ((unmet_iff hlater).mp hunmet)))
  · rintro (⟨hsame, hbytes⟩ | (hempty | hunmet) | ⟨hwider, hbytes⟩) byte top htop hbyte hmatch
    · rw [hsame]
      exact ⟨(ByteTest.isSubsumedBy_iff _ _).mp hbytes byte hbyte, hmatch⟩
    · rw [hempty byte] at hbyte
      cases hbyte
    · rw [hunmet top htop] at hmatch
      cases hmatch
    · have hguards := (includes_iff hearlier hlater).mpr (.inr (.inl hwider))
      exact ⟨(ByteTest.isSubsumedBy_iff _ _).mp hbytes byte hbyte, hguards top htop hmatch⟩

/-! ## What the check finds -/

theorem sameGuard_iff (g h : CompiledGuard) : sameGuard g h = true ↔ g = h := by
  cases g <;> cases h <;> simp [sameGuard]

/-- The check refuses a rule exactly when an earlier rule with the same guard
takes its byte test in. -/
theorem checkShadowing_error_iff (state : String) (i : Nat) (rule : CompiledRule) (index : Nat)
    (earlier : List CompiledRule) :
    (∃ err, checkShadowing state i rule.byte_test rule.guard index earlier = .error err) ↔
      ∃ e ∈ earlier, FlaggedBy e rule := by
  induction earlier generalizing index with
  | nil => simp [checkShadowing]
  | cons first rest ih =>
    have hrest : (∃ e ∈ first :: rest, FlaggedBy e rule) ↔
        FlaggedBy first rule ∨ ∃ e ∈ rest, FlaggedBy e rule := by simp
    rw [hrest, checkShadowing]
    by_cases hguard : first.guard = rule.guard
    · rw [(sameGuard_iff _ _).mpr hguard]
      simp only [Bool.not_true, Bool.false_eq_true, if_false]
      by_cases hequal : rule.byte_test = first.byte_test
      · rw [if_pos hequal]
        have hself : rule.byte_test.isSubsumedBy first.byte_test = true := by
          rw [ByteTest.isSubsumedBy_iff, hequal]
          exact fun byte h => h
        exact ⟨fun _ => .inl ⟨hguard, hself⟩, fun _ => ⟨_, rfl⟩⟩
      · rw [if_neg hequal]
        by_cases hsub : rule.byte_test.isSubsumedBy first.byte_test = true
        · rw [if_pos hsub]
          exact ⟨fun _ => .inl ⟨hguard, hsub⟩, fun _ => ⟨_, rfl⟩⟩
        · rw [if_neg hsub, ih]
          exact (or_iff_right fun h => hsub h.2).symm
    · have hdiffer : sameGuard first.guard rule.guard = false := by
        rw [Bool.eq_false_iff]
        exact fun h => hguard ((sameGuard_iff _ _).mp h)
      rw [hdiffer]
      simp only [Bool.not_false, if_true]
      rw [ih]
      exact (or_iff_right fun h => hguard h.1).symm

/-! ## Specs whose names resolve -/

/-- A rule whose byte test and guard are those of a rule of the spec. -/
structure Resolves (state : String) (frame_ids : Ids) (rule : TransitionRule)
    (compiled : CompiledRule) : Prop where
  byte_test : compiled.byte_test = rule.byte_test
  guard : ∃ i, compileGuard state i rule.guard frame_ids = .ok compiled.guard

theorem compileGuard_known {state : String} {i : Nat} {guard : Guard} {frame_ids : Ids}
    {compiled : CompiledGuard} (hids : ∀ e ∈ frame_ids, e.2 < frame_ids.length)
    (h : compileGuard state i guard frame_ids = .ok compiled) :
    GuardKnown frame_ids.length compiled := by
  cases guard with
  | StackTopIs frame =>
    obtain ⟨id, hid, rfl⟩ := map_ok h
    exact hids _ (resolve_mem hid)
  | StackTopIsNot frame =>
    obtain ⟨id, hid, rfl⟩ := map_ok h
    exact hids _ (resolve_mem hid)
  | Always => obtain rfl := Except.ok.inj h; trivial
  | StackNonEmpty => obtain rfl := Except.ok.inj h; trivial
  | StackEmpty => obtain rfl := Except.ok.inj h; trivial

theorem frameIdsFrom_declared {names : List String} {index : Nat} {seen : Ids}
    (hnodup : names.Nodup) (hnew : ∀ name ∈ names, seen.lookup name = none) :
    ∃ ids, frameIdsFrom index seen names = .ok ids ∧
      ∀ name, name ∈ names ∨ (seen.lookup name).isSome → (ids.lookup name).isSome := by
  induction names generalizing index seen with
  | nil => exact ⟨seen, rfl, fun name h => h.resolve_left List.not_mem_nil⟩
  | cons first rest ih =>
    obtain ⟨hfirst, hrest⟩ := List.nodup_cons.mp hnodup
    have hone : (seen.lookup first).isSome = false := by
      rw [hnew first List.mem_cons_self]
      rfl
    have hlater : ∀ name ∈ rest, (seen ++ [(first, index)]).lookup name = none := by
      intro name hname
      have hne : name ≠ first := fun h => hfirst (h ▸ hname)
      rw [List.lookup_append, hnew name (List.mem_cons_of_mem _ hname)]
      simp [List.lookup_cons, beq_false_of_ne hne]
    obtain ⟨ids, hids, hall⟩ := ih hrest hlater
    refine ⟨ids, ?_, fun name hname => hall name ?_⟩
    · rw [frameIdsFrom, hone]
      exact hids
    · rw [List.lookup_append]
      rcases hname with hname | hname
      · rcases List.mem_cons.mp hname with rfl | hname
        · right
          cases seen.lookup name <;> simp
        · exact .inl hname
      · right
        obtain ⟨id, hid⟩ := Option.isSome_iff_exists.mp hname
        rw [hid]
        rfl

theorem compileGuard_declared {state : String} {i : Nat} {guard : Guard} {frame_ids : Ids}
    (h : ∀ frame ∈ guardFrame guard, (frame_ids.lookup frame).isSome) :
    ∃ compiled, compileGuard state i guard frame_ids = .ok compiled := by
  have hresolve : ∀ (frame : String) (err : SpecError), frame ∈ guardFrame guard →
      ∃ id, resolve frame_ids frame err = .ok id := by
    intro frame err hframe
    obtain ⟨id, hid⟩ := Option.isSome_iff_exists.mp (h frame hframe)
    exact ⟨id, resolve_ok.mpr hid⟩
  cases guard with
  | StackTopIs frame =>
    obtain ⟨id, hid⟩ := hresolve frame (.UnknownFrame state i frame) rfl
    exact ⟨.StackTopIs id, by rw [compileGuard, hid]; rfl⟩
  | StackTopIsNot frame =>
    obtain ⟨id, hid⟩ := hresolve frame (.UnknownFrame state i frame) rfl
    exact ⟨.StackTopIsNot id, by rw [compileGuard, hid]; rfl⟩
  | Always => exact ⟨.Always, rfl⟩
  | StackNonEmpty => exact ⟨.StackNonEmpty, rfl⟩
  | StackEmpty => exact ⟨.StackEmpty, rfl⟩

theorem rules_resolve {state : String} {frame_ids : Ids} {rules : List TransitionRule}
    (h : ∀ rule ∈ rules, ∀ frame ∈ guardFrame rule.guard, (frame_ids.lookup frame).isSome) :
    ∃ compiled, List.Forall₂ (Resolves state frame_ids) rules compiled := by
  induction rules with
  | nil => exact ⟨[], .nil⟩
  | cons rule rules ih =>
    obtain ⟨rest, hrest⟩ := ih fun r hr => h r (List.mem_cons_of_mem _ hr)
    obtain ⟨guard, hguard⟩ : ∃ compiled, compileGuard state 0 rule.guard frame_ids = .ok compiled :=
      compileGuard_declared (h rule List.mem_cons_self)
    exact ⟨⟨rule.byte_test, guard, .Dead⟩ :: rest, .cons ⟨rfl, 0, hguard⟩ hrest⟩

theorem table_resolves {frame_ids : Ids} {states : List (String × StateSpec)}
    (h : ∀ entry ∈ states, ∃ rules, List.Forall₂ (Resolves entry.1 frame_ids) entry.2.rules rules) :
    ∃ table, List.Forall₂
      (fun entry rules => List.Forall₂ (Resolves entry.1 frame_ids) entry.2.rules rules)
      states table := by
  induction states with
  | nil => exact ⟨[], .nil⟩
  | cons entry states ih =>
    obtain ⟨rules, hrules⟩ := h entry List.mem_cons_self
    obtain ⟨table, htable⟩ := ih fun other hother => h other (List.mem_cons_of_mem _ hother)
    exact ⟨rules :: table, .cons hrules htable⟩

/-! ## What lowering a rule comes to -/

/-- The state and the rule that the check finds at fault. -/
def reportedRule : SpecError → Option (String × Nat)
  | .AmbiguousTransition state _ i | .UnreachableRule state i _ => some (state, i)
  | _ => none

/-- The rule at the place is flagged by one before it. -/
def FlaggedIn (rules : List CompiledRule) (i : Nat) : Prop :=
  ∃ rule, rules[i]? = some rule ∧ ∃ earlier ∈ rules.take i, FlaggedBy earlier rule

/-- A rule that takes a frame from the stack under a guard that proves none. -/
def Unguarded (source : TransitionRule) (rule : CompiledRule) : Prop :=
  (∃ target, source.action = .Pop target) ∧ rule.guard.provesFrame = false

def UnguardedIn (sources : List TransitionRule) (rules : List CompiledRule) (i : Nat) : Prop :=
  ∃ source rule, sources[i]? = some source ∧ rules[i]? = some rule ∧ Unguarded source rule

/-- The names in the action of a rule are known. -/
structure ActionKnown (state_ids frame_ids : Ids) (source : TransitionRule) : Prop where
  frame : ∀ frame ∈ actionFrame source.action, (frame_ids.lookup frame).isSome
  target : ∀ target ∈ actionTarget source.action, (state_ids.lookup target).isSome

/-- What the check reads of a rule. -/
def tested (rule : CompiledRule) : ByteTest × CompiledGuard := (rule.byte_test, rule.guard)

theorem flagged_tested {done before : List CompiledRule} (h : done.map tested = before.map tested)
    (rule : CompiledRule) :
    (∃ e ∈ done, FlaggedBy e rule) ↔ ∃ e ∈ before, FlaggedBy e rule := by
  have hread : ∀ rules : List CompiledRule, (∃ e ∈ rules, FlaggedBy e rule) ↔
      ∃ t ∈ rules.map tested, t.2 = rule.guard ∧ rule.byte_test.isSubsumedBy t.1 = true := by
    intro rules
    constructor
    · rintro ⟨e, he, hflagged⟩
      exact ⟨tested e, List.mem_map_of_mem he, hflagged⟩
    · rintro ⟨t, ht, hflagged⟩
      obtain ⟨e, he, rfl⟩ := List.mem_map.mp ht
      exact ⟨e, he, hflagged⟩
  rw [hread, hread, h]

/-- An error of the check is about the rule that is checked. -/
theorem checkShadowing_reports {state : String} {i index : Nat} {byte_test : ByteTest}
    {guard : CompiledGuard} {earlier : List CompiledRule} {err : SpecError}
    (h : checkShadowing state i byte_test guard index earlier = .error err) :
    reportedRule err = some (state, i) := by
  induction earlier generalizing index with
  | nil => cases h
  | cons first rest ih =>
    unfold checkShadowing at h
    split at h
    · exact ih h
    · split at h
      · obtain rfl := Except.error.inj h
        rfl
      · split at h
        · obtain rfl := Except.error.inj h
          rfl
        · exact ih h

theorem resolve_known {ids : Ids} {name : String} (h : (ids.lookup name).isSome) (err : SpecError) :
    ∃ id, resolve ids name err = .ok id := by
  obtain ⟨id, hid⟩ := Option.isSome_iff_exists.mp h
  exact ⟨id, resolve_ok.mpr hid⟩

/-- An action whose names are known is refused only for its guard. -/
theorem compileAction_known {state : String} {i : Nat} {state_ids frame_ids : Ids}
    {source : TransitionRule} {rule : CompiledRule} (h : ActionKnown state_ids frame_ids source) :
    (Unguarded source rule ∧ compileAction state i source.action state_ids frame_ids rule.guard =
      .error (.UnguardedPop state i)) ∨
    (¬Unguarded source rule ∧ ∃ action,
      compileAction state i source.action state_ids frame_ids rule.guard = .ok action) := by
  obtain ⟨hframe, htarget⟩ := h
  cases haction : source.action with
  | Next target =>
    rw [haction] at htarget
    obtain ⟨id, hid⟩ := resolve_known (htarget target rfl) (.UnknownTargetState state i target)
    refine .inr ⟨fun hpop => ?_, .Next id, by rw [compileAction, hid]; rfl⟩
    obtain ⟨⟨other, hother⟩, -⟩ := hpop
    rw [haction] at hother
    cases hother
  | Goto target =>
    rw [haction] at htarget
    obtain ⟨id, hid⟩ := resolve_known (htarget target rfl) (.UnknownTargetState state i target)
    refine .inr ⟨fun hpop => ?_, .Goto id, by rw [compileAction, hid]; rfl⟩
    obtain ⟨⟨other, hother⟩, -⟩ := hpop
    rw [haction] at hother
    cases hother
  | Dead =>
    refine .inr ⟨fun hpop => ?_, .Dead, rfl⟩
    obtain ⟨⟨other, hother⟩, -⟩ := hpop
    rw [haction] at hother
    cases hother
  | Push frame target =>
    rw [haction] at hframe htarget
    obtain ⟨f, hf⟩ := resolve_known (hframe frame rfl) (.UnknownFrame state i frame)
    obtain ⟨id, hid⟩ := resolve_known (htarget target rfl) (.UnknownTargetState state i target)
    refine .inr ⟨fun hpop => ?_, .Push f id, by rw [compileAction, hf, ok_bind, hid]; rfl⟩
    obtain ⟨⟨other, hother⟩, -⟩ := hpop
    rw [haction] at hother
    cases hother
  | Pop target =>
    rw [haction] at htarget
    obtain ⟨id, hid⟩ := resolve_known (htarget target rfl) (.UnknownTargetState state i target)
    cases hproves : rule.guard.provesFrame with
    | false =>
      refine .inl ⟨⟨⟨target, haction⟩, hproves⟩, ?_⟩
      simp [compileAction, hproves]
    | true =>
      refine .inr ⟨fun hpop => ?_, .Pop id, by simp [compileAction, hproves, hid]; rfl⟩
      rw [hpop.2] at hproves
      cases hproves

theorem compileGuard_index {state : String} {i j : Nat} {guard : Guard} {frame_ids : Ids}
    {compiled : CompiledGuard} (h : compileGuard state i guard frame_ids = .ok compiled) :
    compileGuard state j guard frame_ids = .ok compiled := by
  cases guard with
  | StackTopIs frame =>
    obtain ⟨id, hid, rfl⟩ := map_ok h
    rw [compileGuard, resolve_ok.mpr (resolve_ok.mp hid)]
    rfl
  | StackTopIsNot frame =>
    obtain ⟨id, hid, rfl⟩ := map_ok h
    rw [compileGuard, resolve_ok.mpr (resolve_ok.mp hid)]
    rfl
  | Always => exact h
  | StackNonEmpty => exact h
  | StackEmpty => exact h

/-- A rule is refused for its guard or by the check, or lowering goes on behind it. -/
theorem compileRules_step {state : String} {state_ids frame_ids : Ids} {source : TransitionRule}
    {rule : CompiledRule} (hresolves : Resolves state frame_ids source rule)
    (hknown : ActionKnown state_ids frame_ids source) (n : Nat) (done : List CompiledRule)
    (rest : List TransitionRule) :
    (Unguarded source rule ∧ compileRules state state_ids frame_ids n done (source :: rest) =
      .error (.UnguardedPop state n)) ∨
    (¬Unguarded source rule ∧ (∃ e ∈ done, FlaggedBy e rule) ∧ ∃ err,
      reportedRule err = some (state, n) ∧
        compileRules state state_ids frame_ids n done (source :: rest) = .error err) ∨
    (¬Unguarded source rule ∧ (¬∃ e ∈ done, FlaggedBy e rule) ∧ ∃ compiled,
      tested compiled = tested rule ∧
        compileRules state state_ids frame_ids n done (source :: rest) =
          compileRules state state_ids frame_ids (n + 1) (done ++ [compiled]) rest) := by
  obtain ⟨i, hguard⟩ := hresolves.guard
  rw [compileRules, compileGuard_index hguard, ok_bind]
  rcases @compileAction_known state n state_ids frame_ids source rule hknown with
    ⟨hpop, haction⟩ | ⟨hpop, action, haction⟩
  · rw [haction]
    exact .inl ⟨hpop, rfl⟩
  · rw [haction, ok_bind, ← hresolves.byte_test]
    cases hcheck : checkShadowing state n rule.byte_test rule.guard 0 done with
    | error err =>
      have hflagged := (checkShadowing_error_iff state n rule 0 done).mp ⟨err, hcheck⟩
      exact .inr (.inl ⟨hpop, hflagged, err, checkShadowing_reports hcheck, rfl⟩)
    | ok _ =>
      refine .inr (.inr ⟨hpop, fun hflagged => ?_, _, ?_, rfl⟩)
      · obtain ⟨err, herr⟩ := (checkShadowing_error_iff state n rule 0 done).mpr hflagged
        rw [hcheck] at herr
        cases herr
      · rfl

/-! ## The rules of one state -/

section Rules

variable {state : String} {state_ids frame_ids : Ids}

theorem flaggedIn_here {before rest : List CompiledRule} {rule : CompiledRule} :
    FlaggedIn (before ++ rule :: rest) before.length ↔ ∃ e ∈ before, FlaggedBy e rule := by
  unfold FlaggedIn
  rw [List.getElem?_append_right (Nat.le_refl _), Nat.sub_self, List.take_left]
  constructor
  · rintro ⟨found, hfound, hflagged⟩
    rwa [Option.some.inj hfound]
  · exact fun hflagged => ⟨rule, rfl, hflagged⟩

theorem unguardedIn_here {sources before : List TransitionRule} {rules done : List CompiledRule}
    {source : TransitionRule} {rule : CompiledRule} (hlen : before.length = done.length) :
    UnguardedIn (before ++ source :: sources) (done ++ rule :: rules) done.length ↔
      Unguarded source rule := by
  unfold UnguardedIn
  rw [List.getElem?_append_right (Nat.le_of_eq hlen), List.getElem?_append_right (Nat.le_refl _),
    hlen, Nat.sub_self]
  constructor
  · rintro ⟨found, found', hfound, hfound', h⟩
    rwa [Option.some.inj hfound, Option.some.inj hfound']
  · exact fun h => ⟨source, rule, rfl, rfl, h⟩

/-- Lowering the rules of a state goes through when no rule is flagged and no
frame is taken unproved, and it reports the first rule that is flagged when
nothing else is wrong up to it. -/
theorem compileRules_reports {sources : List TransitionRule} {rules : List CompiledRule}
    (hrules : List.Forall₂ (Resolves state frame_ids) sources rules)
    (hknown : ∀ source ∈ sources, ActionKnown state_ids frame_ids source)
    (gone : List TransitionRule) (before done : List CompiledRule)
    (hdone : done.map tested = before.map tested) (hlen : gone.length = before.length) :
    ((∃ out, compileRules state state_ids frame_ids before.length done sources = .ok out) ↔
      ∀ i, before.length ≤ i → ¬FlaggedIn (before ++ rules) i ∧
        ¬UnguardedIn (gone ++ sources) (before ++ rules) i) ∧
    ∀ i, (∃ err, compileRules state state_ids frame_ids before.length done sources = .error err ∧
        reportedRule err = some (state, i)) ↔
      before.length ≤ i ∧ FlaggedIn (before ++ rules) i ∧
        ¬UnguardedIn (gone ++ sources) (before ++ rules) i ∧
        ∀ j, before.length ≤ j → j < i → ¬FlaggedIn (before ++ rules) j ∧
          ¬UnguardedIn (gone ++ sources) (before ++ rules) j := by
  induction hrules generalizing gone before done with
  | nil =>
    have hend : ∀ i, before.length ≤ i → ¬FlaggedIn (before ++ []) i ∧
        ¬UnguardedIn (gone ++ []) (before ++ []) i := by
      intro i hi
      have hnone : (before ++ [])[i]? = none := by
        rw [List.append_nil]
        exact List.getElem?_eq_none hi
      constructor
      · rintro ⟨rule, hrule, -⟩
        rw [hnone] at hrule
        cases hrule
      · rintro ⟨source, rule, -, hrule, -⟩
        rw [hnone] at hrule
        cases hrule
    refine ⟨⟨fun _ => hend, fun _ => ⟨done, rfl⟩⟩, fun i => ⟨?_, ?_⟩⟩
    · rintro ⟨err, herr, -⟩
      cases herr
    · rintro ⟨hi, hflagged, -⟩
      exact absurd hflagged (hend i hi).1
  | @cons source rule sources rules hresolves hrules ih =>
    have hflag := @flaggedIn_here before rules rule
    have hguard := @unguardedIn_here sources gone rules before source rule hlen
    rw [← flagged_tested hdone] at hflag
    rcases compileRules_step hresolves (hknown source List.mem_cons_self) before.length done
        sources with
      ⟨hpop, hrun⟩ | ⟨hpop, hflagged, err, herr, hrun⟩ | ⟨hpop, hclean, compiled, htested, hrun⟩
    · -- the rule takes a frame unproved, so nothing is checked from here on
      rw [hrun]
      refine ⟨⟨?_, fun h => ?_⟩, fun i => ⟨?_, ?_⟩⟩
      · rintro ⟨out, hout⟩
        cases hout
      · exact absurd (hguard.mpr hpop) (h before.length (Nat.le_refl _)).2
      · rintro ⟨err, herr, hreported⟩
        obtain rfl := Except.error.inj herr
        cases hreported
      · rintro ⟨hi, -, hunguarded, hbefore⟩
        rcases Nat.eq_or_lt_of_le hi with rfl | hlt
        · exact absurd (hguard.mpr hpop) hunguarded
        · exact absurd (hguard.mpr hpop) (hbefore before.length (Nat.le_refl _) hlt).2
    · rw [hrun]
      refine ⟨⟨?_, fun h => ?_⟩, fun i => ⟨?_, ?_⟩⟩
      · rintro ⟨out, hout⟩
        cases hout
      · exact absurd (hflag.mpr hflagged) (h before.length (Nat.le_refl _)).1
      · rintro ⟨err', herr', hreported⟩
        obtain rfl := Except.error.inj herr'
        rw [herr] at hreported
        obtain ⟨-, rfl⟩ := Prod.mk.inj (Option.some.inj hreported)
        refine ⟨Nat.le_refl _, hflag.mpr hflagged, fun h => hpop (hguard.mp h), fun j hj hlt => ?_⟩
        exact absurd hlt (Nat.not_lt.mpr hj)
      · rintro ⟨hi, -, -, hbefore⟩
        rcases Nat.eq_or_lt_of_le hi with rfl | hlt
        · exact ⟨err, rfl, herr⟩
        · exact absurd (hflag.mpr hflagged) (hbefore before.length (Nat.le_refl _) hlt).1
    · have hhere : ¬FlaggedIn (before ++ rule :: rules) before.length ∧
          ¬UnguardedIn (gone ++ source :: sources) (before ++ rule :: rules) before.length :=
        ⟨fun h => hclean (hflag.mp h), fun h => hpop (hguard.mp h)⟩
      obtain ⟨hok, hreports⟩ := ih (fun s hs => hknown s (List.mem_cons_of_mem _ hs))
        (gone ++ [source]) (before ++ [rule]) (done ++ [compiled])
        (by rw [List.map_append, List.map_append, hdone, List.map_singleton, htested,
          List.map_singleton])
        (by rw [List.length_append, List.length_append, hlen]; rfl)
      rw [List.append_assoc, List.append_assoc, List.singleton_append, List.singleton_append,
        List.length_append, List.length_singleton] at hok hreports
      rw [hrun]
      constructor
      · rw [hok]
        constructor
        · intro h i hi
          rcases Nat.eq_or_lt_of_le hi with rfl | hlt
          · exact hhere
          · exact h i hlt
        · exact fun h i hi => h i (by omega)
      · intro i
        rw [hreports]
        constructor
        · rintro ⟨hi, hflagged, hunguarded, hbefore⟩
          refine ⟨by omega, hflagged, hunguarded, fun j hj hlt => ?_⟩
          rcases Nat.eq_or_lt_of_le hj with rfl | hj
          · exact hhere
          · exact hbefore j hj hlt
        · rintro ⟨hi, hflagged, hunguarded, hbefore⟩
          rcases Nat.eq_or_lt_of_le hi with rfl | hlt
          · exact absurd hflagged hhere.1
          · exact ⟨hlt, hflagged, hunguarded, fun j hj => hbefore j (by omega)⟩

end Rules

/-! ## What compiling reports -/

section Compile

variable {v1 : GrammarSpecV1} {frame_ids : Ids} {table : List (List CompiledRule)}

/-- The rules of a spec with their guards lowered, state by state. -/
def Tabled (v1 : GrammarSpecV1) (frame_ids : Ids) (table : List (List CompiledRule)) : Prop :=
  List.Forall₂ (fun entry rules => List.Forall₂ (Resolves entry.1 frame_ids) entry.2.rules rules)
    v1.states table

def FlaggedAt (table : List (List CompiledRule)) (k i : Nat) : Prop :=
  ∃ rules, table[k]? = some rules ∧ FlaggedIn rules i

def UnguardedAt (v1 : GrammarSpecV1) (table : List (List CompiledRule)) (k i : Nat) : Prop :=
  ∃ entry rules, v1.states[k]? = some entry ∧ table[k]? = some rules ∧
    UnguardedIn entry.2.rules rules i

/-- Compiling refuses the spec for the rule at place `i` of the state at place `k`, as
one that repeats an earlier rule or that can never fire. -/
def Reported (v1 : GrammarSpecV1) (k i : Nat) : Prop :=
  ∃ entry err, v1.states[k]? = some entry ∧ CompiledAutomaton.compile (.V1 v1) = .error err ∧
    reportedRule err = some (entry.1, i)

/-- Compiling comes to the check of a rule: the spec is not too large, no rule up to
this one takes a frame unproved, and no rule before it was refused by the check. -/
structure Reached (v1 : GrammarSpecV1) (table : List (List CompiledRule)) (k i : Nat) : Prop where
  frames : v1.frames.length ≤ MAX_FRAMES
  states : v1.states.length ≤ MAX_STATES
  total : (v1.states.map fun entry => entry.2.rules.length).sum ≤ MAX_TOTAL_RULES
  rules : ∀ j ≤ k, ∀ entry, v1.states[j]? = some entry →
    entry.2.rules.length ≤ MAX_RULES_PER_STATE
  guarded : ∀ j m, j < k ∨ j = k ∧ m ≤ i → ¬UnguardedAt v1 table j m
  unflagged : ∀ j m, j < k ∨ j = k ∧ m < i → ¬FlaggedAt table j m

theorem compileRules_names {state : String} {state_ids : Ids} {sources : List TransitionRule}
    {rules : List CompiledRule} (hrules : List.Forall₂ (Resolves state frame_ids) sources rules)
    (hknown : ∀ source ∈ sources, ActionKnown state_ids frame_ids source) {n : Nat}
    {done : List CompiledRule} {err : SpecError} {place : String × Nat}
    (h : compileRules state state_ids frame_ids n done sources = .error err)
    (hplace : reportedRule err = some place) : place.1 = state := by
  induction hrules generalizing n done with
  | nil => cases h
  | @cons source rule sources rules hresolves hrules ih =>
    rcases compileRules_step hresolves (hknown source List.mem_cons_self) n done sources with
      ⟨-, hrun⟩ | ⟨-, -, err', herr', hrun⟩ | ⟨-, -, compiled, -, hrun⟩
    · rw [hrun] at h
      obtain rfl := Except.error.inj h
      cases hplace
    · rw [hrun] at h
      obtain rfl := Except.error.inj h
      rw [herr'] at hplace
      rw [← Option.some.inj hplace]
    · rw [hrun] at h
      exact ih (fun s hs => hknown s (List.mem_cons_of_mem _ hs)) h

theorem compileState_names {state_ids : Ids} {entry : String × StateSpec}
    {rules : List CompiledRule}
    (hrules : List.Forall₂ (Resolves entry.1 frame_ids) entry.2.rules rules)
    (hknown : ∀ source ∈ entry.2.rules, ActionKnown state_ids frame_ids source) {err : SpecError}
    {place : String × Nat} (h : compileState state_ids frame_ids entry = .error err)
    (hplace : reportedRule err = some place) : place.1 = entry.1 := by
  unfold compileState at h
  split at h
  · obtain rfl := Except.error.inj h
    cases hplace
  · exact compileRules_names hrules hknown (map_error h) hplace

/-- A state is lowered, or the first of its rules that is flagged is reported. -/
theorem compileState_reports {state_ids : Ids} {entry : String × StateSpec}
    {rules : List CompiledRule}
    (hrules : List.Forall₂ (Resolves entry.1 frame_ids) entry.2.rules rules)
    (hknown : ∀ source ∈ entry.2.rules, ActionKnown state_ids frame_ids source) :
    ((∃ out, compileState state_ids frame_ids entry = .ok out) ↔
      entry.2.rules.length ≤ MAX_RULES_PER_STATE ∧
        ∀ i, ¬FlaggedIn rules i ∧ ¬UnguardedIn entry.2.rules rules i) ∧
    ∀ i, (∃ err, compileState state_ids frame_ids entry = .error err ∧
        reportedRule err = some (entry.1, i)) ↔
      entry.2.rules.length ≤ MAX_RULES_PER_STATE ∧ FlaggedIn rules i ∧
        ¬UnguardedIn entry.2.rules rules i ∧
        ∀ j < i, ¬FlaggedIn rules j ∧ ¬UnguardedIn entry.2.rules rules j := by
  obtain ⟨hok, hreports⟩ := compileRules_reports hrules hknown [] [] [] rfl rfl
  simp only [List.nil_append, List.length_nil, Nat.zero_le, true_and, forall_const] at hok hreports
  unfold compileState
  by_cases hlen : entry.2.rules.length > MAX_RULES_PER_STATE
  · rw [if_pos hlen]
    refine ⟨⟨?_, fun h => absurd hlen (Nat.not_lt.mpr h.1)⟩, fun i => ⟨?_, fun h =>
      absurd hlen (Nat.not_lt.mpr h.1)⟩⟩
    · rintro ⟨out, hout⟩
      cases hout
    · rintro ⟨err, herr, hplace⟩
      obtain rfl := Except.error.inj herr
      cases hplace
  · rw [if_neg hlen, ← hok]
    have hfew := Nat.le_of_not_gt hlen
    refine ⟨⟨?_, ?_⟩, fun i => ?_⟩
    · rintro ⟨out, hout⟩
      obtain ⟨done, hdone, -⟩ := map_ok hout
      exact ⟨hfew, done, hdone⟩
    · rintro ⟨-, done, hdone⟩
      exact ⟨_, by rw [hdone]; rfl⟩
    · rw [← hreports]
      constructor
      · rintro ⟨err, herr, hplace⟩
        exact ⟨hfew, err, map_error herr, hplace⟩
      · rintro ⟨-, err, herr, hplace⟩
        exact ⟨err, by rw [herr]; rfl, hplace⟩

/-- The walks over the table report no rule as shadowed. -/
def Unreported {α : Type} (x : Except SpecError α) : Prop :=
  ∀ err, x = .error err → reportedRule err = none

theorem gotoWalk_unreported (edges : List (List Nat)) (owner : Nat → Nat → String × Nat)
    (turns : Nat) (marks : List Mark) (stack : List (Nat × Nat)) :
    Unreported (gotoWalk edges owner turns marks stack) := by
  induction turns generalizing marks stack with
  | zero => exact fun err h => by cases h
  | succ turns ih =>
    intro err h
    cases stack with
    | nil => cases h
    | cons top stack =>
      rw [gotoWalk] at h
      split at h
      · exact ih _ _ err h
      · split at h
        · obtain rfl := Except.error.inj h
          rfl
        · exact ih _ _ err h
        · exact ih _ _ err h

theorem gotoWalks_unreported (edges : List (List Nat)) (owner : Nat → Nat → String × Nat)
    (starts : List Nat) (marks : List Mark) : Unreported (gotoWalks v1 edges owner starts marks) := by
  induction starts generalizing marks with
  | nil => exact fun err h => by cases h
  | cons start rest ih =>
    intro err h
    rw [gotoWalks] at h
    split at h
    · exact ih _ err h
    · rcases bind_error_iff.mp h with h | ⟨walked, -, h⟩
      · exact gotoWalk_unreported _ _ _ _ _ err h
      · cases walked with
        | none =>
          obtain rfl := Except.error.inj h
          rfl
        | some marks => exact ih _ err h

/-- A report is one of lowering. -/
theorem lowered_of_reported {err : SpecError}
    (h : CompiledAutomaton.compile (.V1 v1) = .error err) (hplace : (reportedRule err).isSome) :
    lowered v1 = .error err := by
  rw [CompiledAutomaton.compile, compileV1_eq] at h
  have hnot : reportedRule err ≠ none := by
    intro hnone
    rw [hnone] at hplace
    cases hplace
  rcases bind_error_iff.mp h with h | ⟨automaton, -, h⟩
  · exact h
  · exfalso
    rcases bind_error_iff.mp h with h | ⟨_, -, h⟩
    · exact hnot (gotoWalks_unreported _ _ _ _ err h)
    · rcases bind_error_iff.mp h with h | ⟨_, -, h⟩
      · unfold checkReachableAccept at h
        split at h
        · cases h
        · obtain rfl := Except.error.inj h
          exact hnot rfl
      · cases h

/-- A spec of at most so many frames, states and rules. -/
structure Small (v1 : GrammarSpecV1) : Prop where
  frames : v1.frames.length ≤ MAX_FRAMES
  states : v1.states.length ≤ MAX_STATES
  total : (v1.states.map fun entry => entry.2.rules.length).sum ≤ MAX_TOTAL_RULES

theorem stateIds_known {name : String} (h : name ∈ v1.states.map Prod.fst) :
    ((stateIds v1.states).lookup name).isSome := by
  obtain ⟨id, hid⟩ := List.getElem?_of_mem h
  rw [(lookup_stateIds v1 name id).mpr hid]
  rfl

/-- A spec whose names resolve is lowered state by state, unless it is too large. -/
theorem lowered_states (hnames : NamesResolve v1)
    (hframes : frameIdsFrom 0 [] v1.frames = .ok frame_ids) :
    (Small v1 ∧ ∃ f, lowered v1 =
      (v1.states.mapM (compileState (stateIds v1.states) frame_ids)).map f) ∨
    (¬Small v1 ∧ ∃ err, lowered v1 = .error err ∧ reportedRule err = none) := by
  obtain ⟨start, hstart⟩ := resolve_known (stateIds_known hnames.start) (.UnknownStartState v1.start)
  unfold lowered
  by_cases hfew : v1.frames.length > MAX_FRAMES
  · refine .inr ⟨fun h => absurd hfew (Nat.not_lt.mpr h.frames),
      .TooManyFrames v1.frames.length MAX_FRAMES, ?_, rfl⟩
    simp only [hfew, if_true]
    rfl
  by_cases hstates : v1.states.length > MAX_STATES
  · refine .inr ⟨fun h => absurd hstates (Nat.not_lt.mpr h.states),
      .TooManyStates v1.states.length MAX_STATES, ?_, rfl⟩
    simp only [hfew, if_false, hframes, ok_bind, hstates, if_true]
    rfl
  by_cases htotal : (v1.states.map fun entry => entry.2.rules.length).sum > MAX_TOTAL_RULES
  · refine .inr ⟨fun h => absurd htotal (Nat.not_lt.mpr h.total),
      .TooManyTotalRules (v1.states.map fun entry => entry.2.rules.length).sum MAX_TOTAL_RULES,
      ?_, rfl⟩
    simp only [hfew, if_false, hframes, ok_bind, hstates, hstart, htotal, if_true]
    rfl
  refine .inl ⟨⟨Nat.le_of_not_gt hfew, Nat.le_of_not_gt hstates, Nat.le_of_not_gt htotal⟩,
    fun states => ⟨states, start, frame_ids.length, v1.boundary_byte, v1.states.map Prod.fst,
      v1.frames⟩, ?_⟩
  simp only [hfew, if_false, hframes, ok_bind, hstates, hstart, htotal]
  cases v1.states.mapM (compileState (stateIds v1.states) frame_ids) with
  | error err => rfl
  | ok states => rfl

theorem actions_known (hnames : NamesResolve v1)
    (hdeclared : ∀ frame ∈ v1.frames, (frame_ids.lookup frame).isSome)
    {entry : String × StateSpec} (hentry : entry ∈ v1.states) :
    ∀ source ∈ entry.2.rules, ActionKnown (stateIds v1.states) frame_ids source :=
  fun source hsource =>
    ⟨fun frame hframe => hdeclared frame (hnames.pushes entry hentry source hsource frame hframe),
      fun target htarget => stateIds_known (hnames.targets entry hentry source hsource target htarget)⟩

theorem Tabled.rules_at (h : Tabled v1 frame_ids table) {k : Nat} {entry : String × StateSpec}
    (hentry : v1.states[k]? = some entry) : ∃ rules, table[k]? = some rules ∧
      List.Forall₂ (Resolves entry.1 frame_ids) entry.2.rules rules := by
  obtain ⟨hlt, rfl⟩ := List.getElem?_eq_some_iff.mp hentry
  have hlt' : k < table.length := by
    rw [← h.length_eq]
    exact hlt
  exact ⟨table[k], List.getElem?_eq_getElem hlt', h.get hlt hlt'⟩

theorem Tabled.entry_at (h : Tabled v1 frame_ids table) {k : Nat} {rules : List CompiledRule}
    (hrules : table[k]? = some rules) : ∃ entry, v1.states[k]? = some entry := by
  obtain ⟨hlt, -⟩ := List.getElem?_eq_some_iff.mp hrules
  have hlt' : k < v1.states.length := by
    rw [h.length_eq]
    exact hlt
  exact ⟨_, List.getElem?_eq_getElem hlt'⟩

/-- What compiling reports is the first rule that the check finds, if nothing else
is found before it. -/
theorem reported_iff (hnames : NamesResolve v1)
    (hframes : frameIdsFrom 0 [] v1.frames = .ok frame_ids)
    (hdeclared : ∀ frame ∈ v1.frames, (frame_ids.lookup frame).isSome)
    (htable : Tabled v1 frame_ids table) (k i : Nat) :
    Reported v1 k i ↔ Reached v1 table k i ∧ FlaggedAt table k i := by
  have hstate : ∀ (j : Nat) entry, v1.states[j]? = some entry → ∃ rules, table[j]? = some rules ∧
      List.Forall₂ (Resolves entry.1 frame_ids) entry.2.rules rules ∧
      ∀ source ∈ entry.2.rules, ActionKnown (stateIds v1.states) frame_ids source := by
    intro j entry hentry
    obtain ⟨rules, hrules, hresolves⟩ := htable.rules_at hentry
    exact ⟨rules, hrules, hresolves, actions_known hnames hdeclared (List.mem_of_getElem? hentry)⟩
  constructor
  · rintro ⟨entry, err, hentry, hcompile, hplace⟩
    have hlowered := lowered_of_reported hcompile (by rw [hplace]; rfl)
    rcases lowered_states hnames hframes with ⟨hsmall, f, hrun⟩ | ⟨-, err', herr', hnone⟩
    · rw [hrun] at hlowered
      obtain ⟨at', found, hfound, herr, hbefore⟩ := mapM_error_iff.mp (map_error hlowered)
      obtain ⟨rules, hrules, hresolves, hknown⟩ := hstate at' found hfound
      obtain rfl : at' = k := by
        have hname : entry.1 = found.1 := compileState_names hresolves hknown herr hplace
        have hat : (v1.states.map Prod.fst)[at']? = (v1.states.map Prod.fst)[k]? := by
          rw [List.getElem?_map, List.getElem?_map, hfound, hentry, Option.map_some,
            Option.map_some, hname]
        have hlt : at' < (v1.states.map Prod.fst).length := by
          rw [List.length_map]
          exact (List.getElem?_eq_some_iff.mp hfound).1
        exact (List.getElem?_inj hlt (names_nodup v1)).mp hat
      rw [hentry] at hfound
      obtain rfl := Option.some.inj hfound
      obtain ⟨hlen, hflagged, hunguarded, hclean⟩ :=
        ((compileState_reports hresolves hknown).2 i).mp ⟨err, herr, hplace⟩
      have hclear : ∀ j < at', ∀ other, v1.states[j]? = some other →
          other.2.rules.length ≤ MAX_RULES_PER_STATE ∧ ∀ rules', table[j]? = some rules' →
            ∀ m, ¬FlaggedIn rules' m ∧ ¬UnguardedIn other.2.rules rules' m := by
        intro j hj other hother
        obtain ⟨rules', hrules', hresolves', hknown'⟩ := hstate j other hother
        obtain ⟨hlen', hclean'⟩ :=
          (compileState_reports hresolves' hknown').1.mp (hbefore j hj other hother)
        refine ⟨hlen', fun rules'' hrules'' => ?_⟩
        rw [hrules'] at hrules''
        obtain rfl := Option.some.inj hrules''
        exact hclean'
      refine ⟨⟨hsmall.frames, hsmall.states, hsmall.total, fun j hj other hother => ?_, ?_, ?_⟩,
        rules, hrules, hflagged⟩
      · rcases Nat.eq_or_lt_of_le hj with rfl | hlt
        · rw [hentry] at hother
          obtain rfl := Option.some.inj hother
          exact hlen
        · exact (hclear j hlt other hother).1
      · rintro j m hplace' ⟨other, rules', hother, hrules', hpop⟩
        rcases hplace' with hlt | ⟨rfl, hle⟩
        · exact ((hclear j hlt other hother).2 rules' hrules' m).2 hpop
        · rw [hentry] at hother
          rw [hrules] at hrules'
          obtain rfl := Option.some.inj hother
          obtain rfl := Option.some.inj hrules'
          rcases Nat.eq_or_lt_of_le hle with rfl | hlt
          · exact hunguarded hpop
          · exact (hclean m hlt).2 hpop
      · rintro j m hplace' ⟨rules', hrules', hflagged'⟩
        rcases hplace' with hlt | ⟨rfl, hlt⟩
        · obtain ⟨other, hother⟩ := htable.entry_at hrules'
          exact ((hclear j hlt other hother).2 rules' hrules' m).1 hflagged'
        · rw [hrules] at hrules'
          obtain rfl := Option.some.inj hrules'
          exact (hclean m hlt).1 hflagged'
    · rw [herr'] at hlowered
      obtain rfl := Except.error.inj hlowered
      rw [hplace] at hnone
      cases hnone
  · rintro ⟨hreached, rules, hrules, hflagged⟩
    obtain ⟨entry, hentry⟩ := htable.entry_at hrules
    obtain ⟨rules', hrules', hresolves, hknown⟩ := hstate k entry hentry
    rw [hrules] at hrules'
    obtain rfl := Option.some.inj hrules'
    obtain ⟨err, herr, hplace⟩ := ((compileState_reports hresolves hknown).2 i).mpr
      ⟨hreached.rules k (Nat.le_refl k) entry hentry, hflagged,
        fun hpop => hreached.guarded k i (.inr ⟨rfl, Nat.le_refl i⟩)
          ⟨entry, rules, hentry, hrules, hpop⟩,
        fun j hj => ⟨fun h => hreached.unflagged k j (.inr ⟨rfl, hj⟩) ⟨rules, hrules, h⟩,
          fun hpop => hreached.guarded k j (.inr ⟨rfl, Nat.le_of_lt hj⟩)
            ⟨entry, rules, hentry, hrules, hpop⟩⟩⟩
    have hstates : v1.states.mapM (compileState (stateIds v1.states) frame_ids) = .error err := by
      refine mapM_error_iff.mpr ⟨k, entry, hentry, herr, fun j hj other hother => ?_⟩
      obtain ⟨rules', hrules', hresolves', hknown'⟩ := hstate j other hother
      refine (compileState_reports hresolves' hknown').1.mpr
        ⟨hreached.rules j (Nat.le_of_lt hj) other hother, fun m => ⟨fun h => ?_, fun hpop => ?_⟩⟩
      · exact hreached.unflagged j m (.inl hj) ⟨rules', hrules', h⟩
      · exact hreached.guarded j m (.inl hj) ⟨other, rules', hother, hrules', hpop⟩
    refine ⟨entry, err, hentry, ?_, hplace⟩
    rcases lowered_states hnames hframes with ⟨-, f, hrun⟩ | ⟨hlarge, -⟩
    · rw [CompiledAutomaton.compile, compileV1_eq, hrun, hstates]
      rfl
    · exact absurd ⟨hreached.frames, hreached.states, hreached.total⟩ hlarge

/-- In a table that is accepted the check finds no rule. -/
theorem unflagged_of_compile (hnames : NamesResolve v1)
    (hframes : frameIdsFrom 0 [] v1.frames = .ok frame_ids)
    (hdeclared : ∀ frame ∈ v1.frames, (frame_ids.lookup frame).isSome)
    (htable : Tabled v1 frame_ids table) {a : CompiledAutomaton}
    (h : CompiledAutomaton.compile (.V1 v1) = .ok a) (k i : Nat) : ¬FlaggedAt table k i := by
  rintro ⟨rules, hrules, hflagged⟩
  rw [CompiledAutomaton.compile, compileV1_eq] at h
  obtain ⟨automaton, hlowered, -⟩ := bind_ok h
  obtain ⟨entry, hentry⟩ := htable.entry_at hrules
  obtain ⟨rules', hrules', hresolves⟩ := htable.rules_at hentry
  rw [hrules] at hrules'
  obtain rfl := Option.some.inj hrules'
  have hknown := actions_known hnames hdeclared (List.mem_of_getElem? hentry)
  rcases lowered_states hnames hframes with ⟨-, f, hrun⟩ | ⟨-, err, herr, -⟩
  · rw [hrun] at hlowered
    obtain ⟨states, hstates, -⟩ := map_ok hlowered
    obtain ⟨out, -, hout⟩ := forall₂_mem_left (mapM_forall₂ hstates) (List.mem_of_getElem? hentry)
    exact (((compileState_reports hresolves hknown).1.mp ⟨out, hout⟩).2 i).1 hflagged
  · rw [herr] at hlowered
    cases hlowered

end Compile

/-! ## The rules that compiling lets through -/

/-- An earlier rule of the state covers the rule at the place. -/
def CoveredAt (count : Nat) (table : List (List CompiledRule)) (k i : Nat) : Prop :=
  ∃ rules rule, table[k]? = some rules ∧ rules[i]? = some rule ∧
    ∃ earlier ∈ rules.take i, Covers count earlier rule

/-- An earlier rule of the state covers the rule at the place by another guard. -/
def CoveredOtherwiseAt (count : Nat) (table : List (List CompiledRule)) (k i : Nat) : Prop :=
  ∃ rules rule, table[k]? = some rules ∧ rules[i]? = some rule ∧
    ∃ earlier ∈ rules.take i, covered count earlier rule = true

theorem covered_before {count : Nat} {rules : List CompiledRule}
    (hknown : ∀ rule ∈ rules, GuardKnown count rule.guard) {i : Nat} {rule : CompiledRule}
    (hrule : rules[i]? = some rule) :
    (∃ earlier ∈ rules.take i, Covers count earlier rule) ↔
      (∃ earlier ∈ rules.take i, FlaggedBy earlier rule) ∨
        ∃ earlier ∈ rules.take i, covered count earlier rule = true := by
  have hlater := hknown rule (List.mem_of_getElem? hrule)
  constructor
  · rintro ⟨earlier, hmem, h⟩
    rcases (covers_iff (hknown earlier (List.mem_of_mem_take hmem)) hlater).mp h with h | h
    · exact .inl ⟨earlier, hmem, h⟩
    · exact .inr ⟨earlier, hmem, h⟩
  · rintro (⟨earlier, hmem, h⟩ | ⟨earlier, hmem, h⟩)
    · exact ⟨earlier, hmem,
        (covers_iff (hknown earlier (List.mem_of_mem_take hmem)) hlater).mpr (.inl h)⟩
    · exact ⟨earlier, hmem,
        (covers_iff (hknown earlier (List.mem_of_mem_take hmem)) hlater).mpr (.inr h)⟩

/-- In every state of a spec whose names resolve, compiling reports the rules
that the check finds when it comes to them. These are the rules that an earlier
one covers, and no other, exactly where no rule is covered by another guard
alone. What is accepted has no rule that is covered by its own guard. -/
theorem the_check_finds_equal_guards (v1 : GrammarSpecV1) (hnames : NamesResolve v1) :
    ∃ frame_ids table, frameIdsFrom 0 [] v1.frames = .ok frame_ids ∧ Tabled v1 frame_ids table ∧
      (∀ k i, Reported v1 k i ↔ Reached v1 table k i ∧ FlaggedAt table k i) ∧
      (∀ k i, Reached v1 table k i →
        ((Reported v1 k i ↔ CoveredAt frame_ids.length table k i) ↔
          (CoveredOtherwiseAt frame_ids.length table k i → FlaggedAt table k i))) ∧
      (∀ a, CompiledAutomaton.compile (.V1 v1) = .ok a → ∀ k i, ¬FlaggedAt table k i ∧
        (CoveredAt frame_ids.length table k i ↔ CoveredOtherwiseAt frame_ids.length table k i)) ∧
      ∀ rules ∈ table, ∀ (state : String) (i : Nat) (rule : CompiledRule), rules[i]? = some rule →
        (((∃ err, checkShadowing state i rule.byte_test rule.guard 0 (rules.take i) =
            .error err) ↔
          ∃ earlier ∈ rules.take i, Covers frame_ids.length earlier rule) ↔
        ((∃ earlier ∈ rules.take i, covered frame_ids.length earlier rule = true) →
          ∃ earlier ∈ rules.take i, FlaggedBy earlier rule)) := by
  have hnone : ∀ name ∈ v1.frames, ([] : Ids).lookup name = none := fun _ _ => rfl
  obtain ⟨frame_ids, hframes, hlookup⟩ := frameIdsFrom_declared hnames.frames hnone
  have hdeclared : ∀ frame ∈ v1.frames, (frame_ids.lookup frame).isSome :=
    fun frame hframe => hlookup frame (.inl hframe)
  obtain ⟨table, htable⟩ : ∃ table, Tabled v1 frame_ids table := table_resolves fun entry hentry =>
    rules_resolve fun rule hrule frame hframe =>
      hdeclared frame (hnames.guards entry hentry rule hrule frame hframe)
  have hids := frameIdsFrom_lt hframes rfl (by simp)
  have hknown : ∀ rules ∈ table, ∀ rule ∈ rules, GuardKnown frame_ids.length rule.guard := by
    intro rules hrules rule hrule
    obtain ⟨entry, -, hresolves⟩ := forall₂_mem_right htable hrules
    obtain ⟨source, -, hsource⟩ := forall₂_mem_right hresolves hrule
    obtain ⟨i, hguard⟩ := hsource.guard
    exact compileGuard_known hids hguard
  have hcovered : ∀ k i, CoveredAt frame_ids.length table k i ↔
      FlaggedAt table k i ∨ CoveredOtherwiseAt frame_ids.length table k i := by
    intro k i
    constructor
    · rintro ⟨rules, rule, hrules, hrule, h⟩
      rcases (covered_before (hknown rules (List.mem_of_getElem? hrules)) hrule).mp h with h | h
      · exact .inl ⟨rules, hrules, rule, hrule, h⟩
      · exact .inr ⟨rules, rule, hrules, hrule, h⟩
    · rintro (⟨rules, hrules, rule, hrule, h⟩ | ⟨rules, rule, hrules, hrule, h⟩)
      · exact ⟨rules, rule, hrules, hrule,
          (covered_before (hknown rules (List.mem_of_getElem? hrules)) hrule).mpr (.inl h)⟩
      · exact ⟨rules, rule, hrules, hrule,
          (covered_before (hknown rules (List.mem_of_getElem? hrules)) hrule).mpr (.inr h)⟩
  have hreported := reported_iff hnames hframes hdeclared htable
  refine ⟨frame_ids, table, hframes, htable, hreported, fun k i hreached => ?_,
    fun a ha k i => ?_, fun rules hrules state i rule hrule => ?_⟩
  · rw [hreported, hcovered]
    exact ⟨fun h hother => (h.mpr (.inr hother)).2,
      fun h => ⟨fun hr => .inl hr.2, fun hor => ⟨hreached, hor.elim id h⟩⟩⟩
  · have hclean := unflagged_of_compile hnames hframes hdeclared htable ha k i
    rw [hcovered]
    exact ⟨hclean, or_iff_right hclean⟩
  · rw [checkShadowing_error_iff, covered_before (hknown rules hrules) hrule]
    exact ⟨fun h hother => h.mpr (.inr hother), fun h => ⟨.inl, fun hor => hor.elim id h⟩⟩

/-- A rule for every byte and any stack, and then a rule for one byte on the
empty stack, which can never fire. -/
def anyThenExact : GrammarSpecV1 where
  start := "s"
  states := [("s", {
    accepting := true
    rules := [{ byte_test := .Any, action := .Next "s" },
      { byte_test := .Exact 'a', guard := .StackEmpty, action := .Dead }] })]
  sorted := by simp

def anyThenExactTable : CompiledAutomaton where
  states := [⟨true, [⟨.Any, .Always, .Next 0⟩, ⟨.Exact 'a', .StackEmpty, .Dead⟩]⟩]
  start := 0
  frame_count := 0
  boundary_byte := ' '
  state_names := ["s"]
  frame_names := []

theorem anyThenExact_names : NamesResolve anyThenExact := by
  constructor <;> decide

/-- The spec is accepted although its first rule leaves the second nothing. -/
theorem a_rule_behind_any_is_accepted :
    NamesResolve anyThenExact ∧
      CompiledAutomaton.compile (.V1 anyThenExact) = .ok anyThenExactTable ∧
      (∀ err, checkShadowing "s" 1 (.Exact 'a') .StackEmpty 0 [⟨.Any, .Always, .Next 0⟩] ≠
        .error err) ∧
      Covers 0 ⟨.Any, .Always, .Next 0⟩ ⟨.Exact 'a', .StackEmpty, .Dead⟩ := by
  refine ⟨anyThenExact_names, by decide +kernel, fun err => ?_, ?_⟩
  · simp [checkShadowing, sameGuard]
  · exact fun byte top _ _ _ => ⟨rfl, rfl⟩

/-- The same two rules, and the second one once more. -/
def anyThenTwice : GrammarSpecV1 where
  start := "s"
  states := [("s", {
    accepting := true
    rules := [{ byte_test := .Any, action := .Next "s" },
      { byte_test := .Exact 'a', guard := .StackEmpty, action := .Dead },
      { byte_test := .Exact 'a', guard := .StackEmpty, action := .Dead }] })]
  sorted := by simp

theorem anyThenTwice_names : NamesResolve anyThenTwice := by
  constructor <;> decide

theorem anyThenTwice_refused : CompiledAutomaton.compile (.V1 anyThenTwice) =
    .error (.AmbiguousTransition "s" 1 2) := by decide +kernel

/-- The third rule is reported, which has the guard of the second. The second is
let through, although the first covers it. -/
theorem the_check_of_a_rule_behind_any :
    Reported anyThenTwice 0 2 ∧ ¬Reported anyThenTwice 0 1 ∧
      ∃ table, Tabled anyThenTwice [] table ∧ Reached anyThenTwice table 0 1 ∧
        CoveredOtherwiseAt 0 table 0 1 := by
  obtain ⟨frame_ids, table, hframes, htable, hreported, hexact, -⟩ :=
    the_check_finds_equal_guards anyThenTwice anyThenTwice_names
  obtain rfl : [] = frame_ids := Except.ok.inj hframes
  have hthird : Reported anyThenTwice 0 2 := ⟨_, _, rfl, anyThenTwice_refused, rfl⟩
  have hsecond : ¬Reported anyThenTwice 0 1 := by
    rintro ⟨entry, err, -, herr, hplace⟩
    rw [anyThenTwice_refused] at herr
    obtain rfl := Except.error.inj herr
    obtain ⟨-, hindex⟩ := Prod.mk.inj (Option.some.inj hplace)
    cases hindex
  obtain ⟨hreached, -⟩ := (hreported 0 2).mp hthird
  have hearlier : Reached anyThenTwice table 0 1 :=
    { hreached with
      guarded := fun j m h => hreached.guarded j m (by omega)
      unflagged := fun j m h => hreached.unflagged j m (by omega) }
  refine ⟨hthird, hsecond, table, htable, hearlier, ?_⟩
  obtain ⟨rules, hrules, hresolves⟩ := htable.rules_at (k := 0) rfl
  rcases hresolves with _ | ⟨hany, _ | ⟨hexact, _⟩⟩
  obtain ⟨i, hguard⟩ := hany.guard
  refine ⟨_, _, hrules, rfl, _, List.mem_cons_self, ?_⟩
  rw [covered, hexact.byte_test, hany.byte_test, ← Except.ok.inj hguard]
  obtain ⟨j, hguard'⟩ := hexact.guard
  have hbytes : (ByteTest.Exact 'a').isSubsumedBy .Any = true :=
    (ByteTest.isSubsumedBy_iff _ _).mpr fun _ _ => rfl
  rw [← Except.ok.inj hguard', hbytes]
  simp [wider]

end purecard.lower
