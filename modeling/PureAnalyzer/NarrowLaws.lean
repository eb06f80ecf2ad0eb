-- The narrowing rules without their cache. A rule keeps some tokens and says
-- whether the stream may end. What the cache gives back for a position is
-- the rule of that position, whatever was asked before.
import PureAnalyzer.Narrow

namespace purecard.narrow

open pushdown pda model scope trie mask vocab

/-! ## Rules and the masks that hold them -/

/-- The tokens that a rule keeps, and whether the stream may end under it. -/
structure Rule where
  keep : List UInt8 → Bool
  eos : Bool

/-- The mask of a rule, refilled in a buffer. -/
def Rule.fill (r : Rule) (vocab : Vocab) (dst : BitMask) : BitMask :=
  if r.eos then (fillTokens dst vocab r.keep).set vocab.len else fillTokens dst vocab r.keep

/-- A mask that holds a rule: a bit for each token and one for the end. -/
structure Holds (vocab : Vocab) (m : BitMask) (r : Rule) : Prop where
  len : m.len = vocab.len + 1
  token : ∀ id < vocab.len, m.test id = r.keep ((vocab.bytes id).getD [])
  eos : m.test vocab.len = r.eos

section holds

variable {vocab : Vocab} {dst m : BitMask} {r : Rule}

@[simp]
theorem len_fillTokens (keep : List UInt8 → Bool) : (fillTokens dst vocab keep).len = dst.len :=
  (BitMask.len_foldl_set _ _ _).trans (BitMask.len_clearAll _)

theorem test_fillTokens (keep : List UInt8 → Bool) (id : Nat) :
    (fillTokens dst vocab keep).test id =
      (decide (id < vocab.len ∧ id < dst.len) && keep ((vocab.bytes id).getD [])) := by
  unfold fillTokens
  rw [BitMask.test_foldl_set (fun id => keep ((vocab.bytes id).getD []))]
  simp

theorem fill_holds (hlen : dst.len = vocab.len + 1) : Holds vocab (r.fill vocab dst) r := by
  unfold Rule.fill
  refine ⟨?_, fun id hid => ?_, ?_⟩
  · split <;> simp [hlen]
  · have hne : id ≠ vocab.len := by omega
    have hlt : id < dst.len := by omega
    split <;> simp [BitMask.test_set, test_fillTokens, hid, hne, hlt]
  · cases r.eos <;> simp [BitMask.test_set, test_fillTokens, hlen]

theorem copyFrom_holds (hlen : dst.len = vocab.len + 1) (h : Holds vocab m r) :
    Holds vocab (dst.copyFrom m) r := by
  have hsame : dst.len = m.len := by rw [hlen, h.len]
  refine ⟨hlen, fun id hid => ?_, ?_⟩
  · rw [BitMask.test_copyFrom hsame, h.token id hid]
  · rw [BitMask.test_copyFrom hsame, h.eos]

end holds

/-! ## The rule of a position -/

def trieRule (t : Trie) (cursor : Nat) (kind : TrieKind) : Rule :=
  ⟨keepsTrieToken t cursor kind, (namePoint t cursor).admitsEos⟩

def fusedRule (t : Trie) : Rule := ⟨keepsFused t, true⟩

def deniedRule (deny : Trie) (receiver : Option TypeClass) (cursor : Nat) : Rule :=
  ⟨keepsDeniedMethod deny cursor receiver, !deny.isTerminal cursor⟩

/-- The rule of a key whose mask needs no trie. -/
def keyRule : CacheKey → Option Rule
  | .SourceMethodArg required seen | .PropertyMethodArg required seen =>
    some ⟨keepsSourceMethodArg required seen, true⟩
  | .SourceMethodArgSep remaining state | .PropertyMethodArgSep remaining state =>
    some ⟨keepsSourceMethodArgSep remaining state, true⟩
  | .StoreMethodArg => some ⟨keepsStoreMethodArg, true⟩
  | .StoreMethodArgSep remaining => some ⟨keepsStoreMethodArgSep remaining, true⟩
  | .SourceExtent after_dash => some ⟨keepsSourceExtent after_dash, true⟩
  | .ExtentMethod cursor => some (deniedRule EXTENT_DENY none cursor)
  | .ExtentMethodArg arg => some ⟨keepsExtentMethodArgToken arg, true⟩
  | .ReceiverOnlyArg => some ⟨keepsReceiverOnlyArg, true⟩
  | .StoreResult after_dash =>
    some ⟨keepsAfterCompletedTerm after_dash STORE_RESULT_DENIED_OPENERS, true⟩
  | .StrOperator after_dash =>
    some ⟨keepsAfterCompletedTerm after_dash STR_OPERATOR_DENIED_OPENERS, true⟩
  | .LogicalOperand => some ⟨keepsLogicalOperand, true⟩
  | .ReValue tc => some ⟨keepsOperandToken tc, true⟩
  | .Comparator tc => some ⟨keepsComparator tc, true⟩
  | .OrderedOperand => some ⟨keepsOrderedOperand, true⟩
  | .Reducer tc => some ⟨keepsReducer tc, true⟩
  | .ScalarMethod tc cursor => some (deniedRule SCALAR_DENY (some tc) cursor)
  | .ValueIdent => some ⟨keepsValueIdent, false⟩
  | .UnboundSigil => some ⟨keepsUnboundSigil, true⟩
  | _ => none

/-- The key of a position that no trie decides, when a rule applies there. -/
def operandKey (pos : L2Position) (pre : List UInt8) : Option CacheKey :=
  match pos with
  | .ReValue .Boolean | .ReValue .Temporal => none
  | .ReValue tc => some (.ReValue tc)
  | .Comparator .Numeric | .Comparator .Temporal => none
  | .Comparator tc => some (.Comparator tc)
  | .OrderedOperand => some .OrderedOperand
  | .Reducer tc => some (.Reducer tc)
  | .ScalarMethod tc => (denyCursor SCALAR_DENY pre).map (.ScalarMethod tc)
  | .SourceMethodArg required seen => some (.SourceMethodArg required seen)
  | .SourceMethodArgSep remaining state => some (.SourceMethodArgSep remaining state)
  | .PropertyMethodArg required seen => some (.PropertyMethodArg required seen)
  | .PropertyMethodArgSep remaining state => some (.PropertyMethodArgSep remaining state)
  | .StoreMethodArg => some .StoreMethodArg
  | .StoreMethodArgSep remaining => some (.StoreMethodArgSep remaining)
  | .SourceExtent after_dash => some (.SourceExtent after_dash)
  | .ExtentMethod => (denyCursor EXTENT_DENY pre).map .ExtentMethod
  | .ExtentMethodArg arg => some (.ExtentMethodArg arg)
  | .ReceiverOnlyArg => some .ReceiverOnlyArg
  | .StoreResult after_dash => some (.StoreResult after_dash)
  | .StrOperator after_dash => some (.StrOperator after_dash)
  | .LogicalOperand => some .LogicalOperand
  | .ValueIdent => some .ValueIdent
  | _ => none

/-- The rule that decides the next token, if one does. -/
def ruleAt (schema : Schema) (pos : L2Position) (pre : List UInt8) (columns : List (List UInt8))
    (vars : List Text) : Option Rule :=
  match TrieRule.ofPosition pos schema columns vars with
  | some rule =>
    (cursorOf ⟨rule.names.build, rule.kind, []⟩ pre).map fun cursor =>
      trieRule rule.names.build cursor rule.kind
  | none => (operandKey pos pre).bind keyRule

/-- The rule for tokens that join a dot and a name. -/
def fusedRuleAt (schema : Schema) (pos : L2Position) (columns : List (List UInt8)) :
    Option Rule :=
  match pos with
  | .Member cls => some (fusedRule (Trie.fromNames (schema.memberNames cls)))
  | .RelationColumn => some (fusedRule (Trie.fromNames columns))
  | _ => none

/-! ## What the cache may hold -/

section cache

variable (vocab : Vocab) (schema : Schema) (columns : List (List UInt8)) (vars : List Text)

/-- The trie of a key. A key that counts names stands for the names that
were there first, for names are only ever added at the end. -/
def keyTrie : CacheKey → Option (Trie × TrieKind)
  | .Source => some ((Names.Source schema).build, .ClassPath)
  | .BinderValueSource => some ((Names.Source schema).build, .ClassPathContinuation)
  | .SourceMethod => some (Names.SourceMethod.build, .IdentOrStr)
  | .StoreMethod => some (Names.StoreMethod.build, .IdentOrStr)
  | .Member cls => some ((Names.Member schema cls).build, .IdentOrStr)
  | .Column count =>
    if count ≤ columns.length then some ((Names.Column (columns.take count)).build, .Str) else none
  | .RelationColumn count =>
    if count ≤ columns.length then
      some ((Names.RelationColumn (columns.take count)).build, .Ident)
    else none
  | .RefVar count =>
    if count ≤ vars.length then some ((Names.RefVar (vars.take count)).build, .Ident) else none
  | .FusedMember cls => some (Trie.fromNames (schema.memberNames cls), .Ident)
  | .FusedRelationColumn count =>
    if count ≤ columns.length then some (Trie.fromNames (columns.take count), .Ident) else none
  | _ => none

/-- The rule of a cursor under a key. -/
def entryRule (key : CacheKey) (t : Trie) (kind : TrieKind) (cursor : Nat) : Rule :=
  match key with
  | .FusedMember _ | .FusedRelationColumn _ => fusedRule t
  | _ => trieRule t cursor kind

structure EntrySound (key : CacheKey) (entry : RuleCache) : Prop where
  trie : keyTrie schema columns vars key = some (entry.trie, entry.kind)
  masks : ∀ c ∈ entry.masks, Holds vocab c.2 (entryRule key entry.trie entry.kind c.1)

/-- Every mask in the cache holds the rule of its key. -/
structure CacheSound (cache : NarrowCache) : Prop where
  operand : ∀ e ∈ cache.operand, ∃ r, keyRule e.1 = some r ∧ Holds vocab e.2 r
  tries : ∀ e ∈ cache.tries, EntrySound vocab schema columns vars e.1 e.2

/-- A narrowing gave the rule `r`, or none, and kept the cache true. -/
structure Narrows (n : Narrowed) (r : Option Rule) : Prop where
  applied : n.applied = r.isSome
  len : n.dst.len = vocab.len + 1
  rule : ∀ q ∈ r, Holds vocab n.dst q
  cache : CacheSound vocab schema columns vars n.cache

variable {vocab schema columns vars}
variable {cache : NarrowCache} {dst : BitMask}

theorem lookup_mem {α β : Type} [BEq α] [LawfulBEq α] {l : List (α × β)} {a : α} {b : β}
    (h : l.lookup a = some b) : (a, b) ∈ l := by
  obtain ⟨pre, post, rfl, -⟩ := List.lookup_eq_some_iff.mp h
  simp

theorem new_cacheSound : CacheSound vocab schema columns vars NarrowCache.new :=
  ⟨by simp [NarrowCache.new], by simp [NarrowCache.new]⟩

theorem not_narrows (hlen : dst.len = vocab.len + 1)
    (hcache : CacheSound vocab schema columns vars cache) :
    Narrows vocab schema columns vars ⟨dst, cache, false⟩ none :=
  ⟨rfl, hlen, by simp, hcache⟩

theorem holds_narrows {r : Rule} (hholds : Holds vocab dst r)
    (hcache : CacheSound vocab schema columns vars cache) :
    Narrows vocab schema columns vars ⟨dst, cache, true⟩ (some r) :=
  ⟨rfl, hholds.len, by simpa using hholds, hcache⟩

/-! ## Rules without a trie -/

/-- The key of a mask has the rule that its fill fills. -/
def Fills (vocab : Vocab) (key : CacheKey) (fill : BitMask → BitMask) : Prop :=
  ∃ r : Rule, keyRule key = some r ∧ fill = r.fill vocab

theorem withCache_narrows {key : CacheKey} {fill : BitMask → BitMask}
    (hlen : dst.len = vocab.len + 1) (hcache : CacheSound vocab schema columns vars cache)
    (hfills : Fills vocab key fill) :
    Narrows vocab schema columns vars (withCache dst cache key fill) (keyRule key) := by
  obtain ⟨r, hkey, hfill⟩ := hfills
  have hholds : Holds vocab (fill dst) r := by rw [hfill]; exact fill_holds hlen
  rw [hkey]
  unfold withCache
  cases hl : cache.operand.lookup key with
  | some cached =>
    obtain ⟨q, hq, hcached⟩ := hcache.operand _ (lookup_mem hl)
    obtain rfl : r = q := by rw [hkey] at hq; exact Option.some.inj hq
    exact holds_narrows (copyFrom_holds hlen hcached) hcache
  | none =>
    refine holds_narrows hholds ⟨?_, hcache.tries⟩
    intro e he
    rcases List.mem_cons.mp he with rfl | he
    · exact ⟨r, hkey, hholds⟩
    · exact hcache.operand e he

theorem narrowDenied_narrows {deny : Trie} {receiver : Option TypeClass} {key : Nat → CacheKey}
    {pre : List UInt8} (hlen : dst.len = vocab.len + 1)
    (hcache : CacheSound vocab schema columns vars cache)
    (hkey : ∀ cursor, keyRule (key cursor) = some (deniedRule deny receiver cursor)) :
    Narrows vocab schema columns vars
      (narrowDenied dst cache pre vocab vocab.len deny receiver key)
      (((denyCursor deny pre).map key).bind keyRule) := by
  unfold narrowDenied
  cases denyCursor deny pre with
  | none => exact not_narrows hlen hcache
  | some cursor =>
    exact withCache_narrows hlen hcache ⟨_, hkey cursor, rfl⟩

theorem narrowOperand_narrows (pos : L2Position) (pre : List UInt8)
    (hlen : dst.len = vocab.len + 1) (hcache : CacheSound vocab schema columns vars cache) :
    Narrows vocab schema columns vars (narrowOperand dst cache pos pre vocab vocab.len)
      ((operandKey pos pre).bind keyRule) := by
  cases pos with
  | ScalarMethod tc => exact narrowDenied_narrows hlen hcache fun _ => rfl
  | ExtentMethod => exact narrowDenied_narrows hlen hcache fun _ => rfl
  | ReValue tc =>
    cases tc with
    | Boolean | Temporal => exact not_narrows hlen hcache
    | Numeric | Str =>
      simp only [narrowOperand, operandKey, Option.bind_some]
      exact withCache_narrows hlen hcache ⟨_, rfl, rfl⟩
  | Comparator tc =>
    cases tc with
    | Numeric | Temporal => exact not_narrows hlen hcache
    | Str | Boolean =>
      simp only [narrowOperand, operandKey, Option.bind_some]
      exact withCache_narrows hlen hcache ⟨_, rfl, rfl⟩
  | None | SourceIdent | BinderValueSourceIdent | SourceMethod | StoreMethod | Member | Column
  | RelationColumn | RefVar => exact not_narrows hlen hcache
  | _ =>
    simp only [narrowOperand, operandKey, Option.bind_some]
    exact withCache_narrows hlen hcache ⟨_, rfl, rfl⟩

theorem narrowSigilInto_narrows (hlen : dst.len = vocab.len + 1)
    (hcache : CacheSound vocab schema columns vars cache) :
    Narrows vocab schema columns vars (narrowSigilInto dst cache vocab vocab.len)
      (some ⟨keepsUnboundSigil, true⟩) :=
  withCache_narrows hlen hcache ⟨_, rfl, rfl⟩

/-! ## Rules with a trie -/

theorem ruleEntry_sound {key : CacheKey} {t : Trie} {kind : TrieKind}
    (hcache : CacheSound vocab schema columns vars cache)
    (hkey : keyTrie schema columns vars key = some (t, kind)) :
    EntrySound vocab schema columns vars key (ruleEntry cache key ⟨t, kind, []⟩).1 ∧
      CacheSound vocab schema columns vars (ruleEntry cache key ⟨t, kind, []⟩).2 := by
  have hnew : EntrySound vocab schema columns vars key ⟨t, kind, []⟩ := ⟨hkey, by simp⟩
  unfold ruleEntry
  cases hl : cache.tries.lookup key with
  | some entry => exact ⟨hcache.tries _ (lookup_mem hl), hcache⟩
  | none =>
    refine ⟨hnew, hcache.operand, ?_⟩
    intro e he
    rcases List.mem_cons.mp he with rfl | he
    · exact hnew
    · exact hcache.tries e he

theorem withEntry_narrows {key : CacheKey} {entry : RuleCache}
    (hlen : dst.len = vocab.len + 1) (hcache : CacheSound vocab schema columns vars cache)
    (hentry : EntrySound vocab schema columns vars key entry) (cursor : Nat) :
    Narrows vocab schema columns vars
      (withEntry dst cache key entry cursor
        ((entryRule key entry.trie entry.kind cursor).fill vocab))
      (some (entryRule key entry.trie entry.kind cursor)) := by
  have hfill : Holds vocab ((entryRule key entry.trie entry.kind cursor).fill vocab dst)
      (entryRule key entry.trie entry.kind cursor) := fill_holds hlen
  unfold withEntry
  cases hl : entry.masks.lookup cursor with
  | some cached =>
    exact holds_narrows (copyFrom_holds hlen (hentry.masks _ (lookup_mem hl))) hcache
  | none =>
    refine holds_narrows hfill ⟨hcache.operand, ?_⟩
    intro e he
    obtain ⟨old, hold, rfl⟩ := List.mem_map.mp he
    split
    · refine ⟨hentry.trie, ?_⟩
      intro c hc
      rcases List.mem_cons.mp hc with rfl | hmask
      · exact hfill
      · exact hentry.masks c hmask
    · exact hcache.tries old hold

/-- The entry of a key has the trie of the key. -/
theorem entry_trie {key : CacheKey} {entry : RuleCache} {t : Trie} {kind : TrieKind}
    (hentry : EntrySound vocab schema columns vars key entry)
    (hkey : keyTrie schema columns vars key = some (t, kind)) :
    entry.trie = t ∧ entry.kind = kind := by
  have h := hentry.trie
  rw [hkey] at h
  cases h
  exact ⟨rfl, rfl⟩

theorem ofPosition_keyTrie {pos : L2Position} {rule : TrieRule}
    (h : TrieRule.ofPosition pos schema columns vars = some rule) :
    keyTrie schema columns vars rule.key = some (rule.names.build, rule.kind) := by
  cases pos with
  | RefVar =>
    simp only [TrieRule.ofPosition] at h
    split at h
    · cases h
    · cases h
      simp [keyTrie]
  | Column | RelationColumn =>
    cases h
    simp [keyTrie]
  | SourceIdent | BinderValueSourceIdent | SourceMethod | StoreMethod | Member =>
    cases h
    rfl
  | _ => cases h

theorem ofPosition_entryRule {pos : L2Position} {rule : TrieRule}
    (h : TrieRule.ofPosition pos schema columns vars = some rule) (t : Trie) (kind : TrieKind)
    (cursor : Nat) : entryRule rule.key t kind cursor = trieRule t cursor kind := by
  cases pos with
  | RefVar =>
    simp only [TrieRule.ofPosition] at h
    split at h
    · cases h
    · cases h
      rfl
  | SourceIdent | BinderValueSourceIdent | SourceMethod | StoreMethod | Member | Column
  | RelationColumn =>
    cases h
    rfl
  | _ => cases h

theorem cursorOf_eq (entry : RuleCache) (masks : List (Nat × BitMask)) (pre : List UInt8) :
    cursorOf entry pre = cursorOf ⟨entry.trie, entry.kind, masks⟩ pre := rfl

theorem narrowInto_narrows (pos : L2Position) (pre : List UInt8)
    (hlen : dst.len = vocab.len + 1) (hcache : CacheSound vocab schema columns vars cache) :
    Narrows vocab schema columns vars
      (narrowInto dst cache schema pos pre columns vars vocab vocab.len)
      (ruleAt schema pos pre columns vars) := by
  unfold narrowInto ruleAt
  cases hrule : TrieRule.ofPosition pos schema columns vars with
  | none => exact narrowOperand_narrows pos pre hlen hcache
  | some rule =>
    have hkey := ofPosition_keyTrie hrule
    obtain ⟨hentry, hcache'⟩ := ruleEntry_sound hcache hkey
    obtain ⟨htrie, hkind⟩ := entry_trie hentry hkey
    simp only [narrowTrie, TrieRule.entry]
    generalize ruleEntry cache rule.key ⟨rule.names.build, rule.kind, []⟩ = found at *
    rw [cursorOf_eq found.1 [], htrie, hkind]
    cases cursorOf ⟨rule.names.build, rule.kind, []⟩ pre with
    | none => exact not_narrows hlen hcache'
    | some cursor =>
      have h := withEntry_narrows hlen hcache' hentry cursor
      rw [ofPosition_entryRule hrule, htrie, hkind] at h
      exact h

theorem narrowFusedTrie_narrows {key : CacheKey} {names : List (List UInt8)}
    (hlen : dst.len = vocab.len + 1) (hcache : CacheSound vocab schema columns vars cache)
    (hkey : keyTrie schema columns vars key = some (Trie.fromNames names, .Ident))
    (hrule : ∀ t kind cursor, entryRule key t kind cursor = fusedRule t) :
    Narrows vocab schema columns vars (narrowFusedTrie dst cache key vocab vocab.len names)
      (some (fusedRule (Trie.fromNames names))) := by
  obtain ⟨hentry, hcache'⟩ := ruleEntry_sound hcache hkey
  obtain ⟨htrie, -⟩ := entry_trie hentry hkey
  unfold narrowFusedTrie
  generalize ruleEntry cache key ⟨Trie.fromNames names, .Ident, []⟩ = found at *
  have h := withEntry_narrows hlen hcache' hentry found.1.trie.root
  rw [hrule] at h
  rw [← htrie]
  exact h

theorem narrowFusedInto_narrows (pos : L2Position) (hlen : dst.len = vocab.len + 1)
    (hcache : CacheSound vocab schema columns vars cache) :
    Narrows vocab schema columns vars
      (narrowFusedInto dst cache schema pos columns vocab vocab.len)
      (fusedRuleAt schema pos columns) := by
  cases pos with
  | Member cls => exact narrowFusedTrie_narrows hlen hcache rfl fun _ _ _ => rfl
  | RelationColumn =>
    exact narrowFusedTrie_narrows hlen hcache (by simp [keyTrie]) fun _ _ _ => rfl
  | _ => exact not_narrows hlen hcache

/-! ## The end of the stream -/

theorem deniedRule_eos {deny : Trie} {receiver : Option TypeClass} {key : Nat → CacheKey}
    {pre : List UInt8}
    (hkey : ∀ cursor, keyRule (key cursor) = some (deniedRule deny receiver cursor)) :
    ((denyCursor deny pre).all fun cursor => !deny.isTerminal cursor) =
      (((denyCursor deny pre).map key).bind keyRule).all Rule.eos := by
  cases denyCursor deny pre with
  | none => rfl
  | some cursor => simp [hkey, deniedRule]

/-- Of the rules that no trie decides, only the open value name keeps the
stream from ending. -/
theorem operandRule_eos {pos : L2Position} (pre : List UInt8) (hext : pos ≠ .ExtentMethod)
    (hscalar : ∀ tc, pos ≠ .ScalarMethod tc) :
    decide (pos ≠ .ValueIdent) = ((operandKey pos pre).bind keyRule).all Rule.eos := by
  cases pos with
  | ExtentMethod => exact absurd rfl hext
  | ScalarMethod tc => exact absurd rfl (hscalar tc)
  | ReValue tc => cases tc <;> rfl
  | Comparator tc => cases tc <;> rfl
  | _ => rfl

theorem admitsEos_of_trie {pos : L2Position} (hext : pos ≠ .ExtentMethod)
    (hscalar : ∀ tc, pos ≠ .ScalarMethod tc) (pre : List UInt8) :
    admitsEos cache schema pos pre columns vars =
      match TrieRule.ofPosition pos schema columns vars with
      | none => (decide (pos ≠ .ValueIdent), cache)
      | some rule =>
        ((cursorOf (rule.entry cache).1 pre).all fun cursor =>
          (namePoint (rule.entry cache).1.trie cursor).admitsEos, (rule.entry cache).2) := by
  cases pos with
  | ExtentMethod => exact absurd rfl hext
  | ScalarMethod tc => exact absurd rfl (hscalar tc)
  | _ => rfl

theorem admitsEos_eq (pos : L2Position) (pre : List UInt8)
    (hcache : CacheSound vocab schema columns vars cache) :
    (admitsEos cache schema pos pre columns vars).1 =
        (ruleAt schema pos pre columns vars).all Rule.eos ∧
      CacheSound vocab schema columns vars (admitsEos cache schema pos pre columns vars).2 := by
  by_cases hext : pos = .ExtentMethod
  · subst hext
    exact ⟨deniedRule_eos fun _ => rfl, hcache⟩
  by_cases hscalar : ∃ tc, pos = .ScalarMethod tc
  · obtain ⟨tc, rfl⟩ := hscalar
    exact ⟨deniedRule_eos fun _ => rfl, hcache⟩
  have hscalar : ∀ tc, pos ≠ .ScalarMethod tc := fun tc h => hscalar ⟨tc, h⟩
  rw [admitsEos_of_trie hext hscalar, ruleAt]
  cases hrule : TrieRule.ofPosition pos schema columns vars with
  | none => exact ⟨operandRule_eos pre hext hscalar, hcache⟩
  | some rule =>
    have hkey := ofPosition_keyTrie hrule
    obtain ⟨hentry, hcache'⟩ := ruleEntry_sound hcache hkey
    obtain ⟨htrie, hkind⟩ := entry_trie hentry hkey
    refine ⟨?_, hcache'⟩
    dsimp only [TrieRule.entry]
    rw [cursorOf_eq _ [], htrie, hkind]
    cases cursorOf ⟨rule.names.build, rule.kind, []⟩ pre <;> rfl

/-! ## Names that are added later -/

theorem keyTrie_grow {columns' : List (List UInt8)} {vars' : List Text} {key : CacheKey}
    {e : Trie × TrieKind} (hcolumns : columns <+: columns') (hvars : vars <+: vars')
    (h : keyTrie schema columns vars key = some e) :
    keyTrie schema columns' vars' key = some e := by
  obtain ⟨more, rfl⟩ := hcolumns
  obtain ⟨more', rfl⟩ := hvars
  have htake : ∀ {α : Type} (xs ys : List α) (n : Nat), n ≤ xs.length →
      n ≤ (xs ++ ys).length ∧ (xs ++ ys).take n = xs.take n := by
    intro α xs ys n hn
    exact ⟨by simp; omega, List.take_append_of_le_length hn⟩
  cases key with
  | Column count | RelationColumn count | FusedRelationColumn count =>
    simp only [keyTrie] at h ⊢
    split at h
    · next hn => rw [if_pos (htake _ more _ hn).1, (htake _ more _ hn).2]; exact h
    · cases h
  | RefVar count =>
    simp only [keyTrie] at h ⊢
    split at h
    · next hn => rw [if_pos (htake _ more' _ hn).1, (htake _ more' _ hn).2]; exact h
    · cases h
  | _ => exact h

theorem cacheSound_grow {columns' : List (List UInt8)} {vars' : List Text}
    (hcolumns : columns <+: columns') (hvars : vars <+: vars')
    (h : CacheSound vocab schema columns vars cache) :
    CacheSound vocab schema columns' vars' cache where
  operand := h.operand
  tries e he := ⟨keyTrie_grow hcolumns hvars (h.tries e he).trie, (h.tries e he).masks⟩

end cache

end purecard.narrow
