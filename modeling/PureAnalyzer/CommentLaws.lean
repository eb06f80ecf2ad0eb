-- Where a block comment ends. Its pattern reads a star together with the
-- character behind it, so the first `*/` ends the comment only when the stars
-- in front of the slash are odd in number.
import Mathlib.Algebra.Group.Nat.Even
import PureAnalyzer.Lexer
import PureAnalyzer.TextPositions

namespace analyzer.lexer

open document

/-! ## The tail of a comment -/

/-- How much the pattern reads behind `/*`. -/
def commentEnd : Str → Option Nat
  | c :: d :: rest =>
    if c = '*' then
      if d = '/' then some 2 else (commentEnd rest).map (· + 2)
    else (commentEnd (d :: rest)).map (· + 1)
  | _ => none

/-- The tail is the closing `*/`, or goes on behind another character, or
behind a star and a character that is no slash. -/
theorem mem_commentTail {w : Str} :
    w ∈ commentTail.lang ↔ w = ['*', '/'] ∨ (∃ c v, c ≠ '*' ∧ v ∈ commentTail.lang ∧ w = c :: v) ∨
      ∃ c v, c ≠ '/' ∧ v ∈ commentTail.lang ∧ w = '*' :: c :: v := by
  constructor
  · rintro ⟨u, hu, v, hv, rfl⟩
    rcases Regex.mem_star.mp hu with rfl | ⟨first, hfirst, more, hmore, rfl⟩
    · exact .inl (Regex.mem_word.mp hv)
    · have hrest : more ++ v ∈ commentTail.lang := ⟨more, hmore, v, hv, rfl⟩
      rcases hfirst with ⟨c, hc, rfl⟩ | ⟨_, ⟨star, hstar, rfl⟩, _, ⟨c, hc, rfl⟩, rfl⟩
      · exact .inr (.inl ⟨c, more ++ v, of_decide_eq_true hc, hrest, rfl⟩)
      · refine .inr (.inr ⟨c, more ++ v, of_decide_eq_true hc, hrest, ?_⟩)
        rw [of_decide_eq_true hstar]
        rfl
  · rintro (rfl | ⟨c, _, hc, ⟨u, hu, v, hv, rfl⟩, rfl⟩ | ⟨c, _, hc, ⟨u, hu, v, hv, rfl⟩, rfl⟩)
    · exact ⟨[], Regex.mem_star.mpr (.inl rfl), ['*', '/'], Regex.mem_word.mpr rfl, rfl⟩
    · refine ⟨c :: u, Regex.mem_star.mpr (.inr ⟨[c], ?_, u, hu, rfl⟩), v, hv, rfl⟩
      exact .inl ⟨c, decide_eq_true hc, rfl⟩
    · refine ⟨'*' :: c :: u, Regex.mem_star.mpr (.inr ⟨['*', c], ?_, u, hu, rfl⟩), v, hv, rfl⟩
      exact .inr ⟨['*'], ⟨'*', rfl, rfl⟩, [c], ⟨c, decide_eq_true hc, rfl⟩, rfl⟩

theorem tail_empty (s : Str) : ¬ commentTail.Takes s 0 := by
  rw [Regex.takes_zero]
  decide

theorem tail_other {c : Char} (hc : c ≠ '*') (s : Str) (n : Nat) :
    commentTail.Takes (c :: s) (n + 1) ↔ commentTail.Takes s n := by
  constructor
  · rintro ⟨u, v, heq, hlen, hu⟩
    rcases mem_commentTail.mp hu with rfl | ⟨d, w, -, hw, rfl⟩ | ⟨d, w, -, -, rfl⟩
    · exact absurd (List.cons.inj heq).1 hc
    · obtain ⟨rfl, rfl⟩ := List.cons.inj heq
      exact ⟨w, v, rfl, Nat.succ.inj hlen, hw⟩
    · exact absurd (List.cons.inj heq).1 hc
  · rintro ⟨u, v, rfl, rfl, hu⟩
    exact ⟨c :: u, v, rfl, rfl, mem_commentTail.mpr (.inr (.inl ⟨c, u, hc, hu, rfl⟩))⟩

theorem tail_close (s : Str) (n : Nat) : commentTail.Takes ('*' :: '/' :: s) n ↔ n = 2 := by
  constructor
  · rintro ⟨u, v, heq, rfl, hu⟩
    rcases mem_commentTail.mp hu with rfl | ⟨d, w, hd, -, rfl⟩ | ⟨d, w, hd, -, rfl⟩
    · rfl
    · exact absurd (List.cons.inj heq).1.symm hd
    · exact absurd (List.cons.inj (List.cons.inj heq).2).1.symm hd
  · rintro rfl
    exact ⟨['*', '/'], s, rfl, rfl, mem_commentTail.mpr (.inl rfl)⟩

theorem tail_pair {c : Char} (hc : c ≠ '/') (s : Str) (n : Nat) :
    commentTail.Takes ('*' :: c :: s) n ↔ ∃ m, n = m + 2 ∧ commentTail.Takes s m := by
  constructor
  · rintro ⟨u, v, heq, rfl, hu⟩
    rcases mem_commentTail.mp hu with rfl | ⟨d, w, hd, -, rfl⟩ | ⟨d, w, -, hw, rfl⟩
    · exact absurd (List.cons.inj (List.cons.inj heq).2).1 hc
    · exact absurd (List.cons.inj heq).1.symm hd
    · obtain ⟨-, heq⟩ := List.cons.inj heq
      obtain ⟨-, rfl⟩ := List.cons.inj heq
      exact ⟨w.length, rfl, w, v, rfl, rfl, hw⟩
  · rintro ⟨_, rfl, u, v, rfl, rfl, hu⟩
    exact ⟨'*' :: c :: u, v, rfl, rfl, mem_commentTail.mpr (.inr (.inr ⟨c, u, hc, hu, rfl⟩))⟩

theorem tail_short (c : Char) (n : Nat) : ¬ commentTail.Takes [c] n := by
  rintro ⟨u, v, heq, -, hu⟩
  rcases mem_commentTail.mp hu with rfl | ⟨d, w, -, hw, rfl⟩ | ⟨d, w, -, -, rfl⟩
  · cases heq
  · obtain ⟨-, heq⟩ := List.cons.inj heq
    obtain ⟨rfl, -⟩ := List.append_eq_nil_iff.mp heq.symm
    exact tail_empty [] ⟨[], [], rfl, rfl, hw⟩
  · cases heq

theorem takes_commentTail (s : Str) (n : Nat) :
    commentTail.Takes s n ↔ commentEnd s = some n := by
  fun_induction commentEnd s generalizing n with
  | case1 rest => rw [tail_close, Option.some.injEq, eq_comm]
  | case2 d rest hd ih =>
    rw [tail_pair hd, Option.map_eq_some_iff]
    constructor
    · rintro ⟨m, rfl, hm⟩
      exact ⟨m, (ih m).mp hm, rfl⟩
    · rintro ⟨m, hm, rfl⟩
      exact ⟨m, rfl, (ih m).mpr hm⟩
  | case3 c d rest hc ih =>
    rw [Option.map_eq_some_iff]
    cases n with
    | zero =>
      refine iff_of_false (tail_empty _) ?_
      rintro ⟨m, -, hm⟩
      cases hm
    | succ n =>
      rw [tail_other hc, ih]
      constructor
      · intro h
        exact ⟨n, h, rfl⟩
      · rintro ⟨m, h, hm⟩
        rwa [← Nat.succ.inj hm]
  | case4 s hs =>
    refine iff_of_false ?_ nofun
    match s with
    | [] =>
      cases n with
      | zero => exact tail_empty []
      | succ n => exact Regex.takes_nil
    | [c] => exact tail_short c n
    | c :: d :: rest => exact absurd rfl (hs c d rest)

/-! ## Stars in front of the closing slash -/

/-- The stars that a text ends with. -/
def closingStars (x : Str) : Nat := (x.reverse.takeWhile (· = '*')).length

/-- With a star behind it, the text has no `*/`. -/
def NoClose (x : Str) : Prop := ¬ ['*', '/'] <:+: x ++ ['*']

instance (x : Str) : Decidable (NoClose x) :=
  inferInstanceAs (Decidable (¬ ['*', '/'] <:+: x ++ ['*']))

theorem closingStars_all {x : Str} (h : ∀ d ∈ x, d = '*') : closingStars x = x.length := by
  have hall : x.reverse.takeWhile (· = '*') = x.reverse := by
    rw [List.takeWhile_eq_self_iff]
    intro d hd
    exact decide_eq_true (h d (List.mem_reverse.mp hd))
  rw [closingStars, hall, List.length_reverse]

theorem closingStars_cons (c : Char) {x : Str} (h : c = '*' → ∃ d ∈ x, d ≠ '*') :
    closingStars (c :: x) = closingStars x := by
  unfold closingStars
  rw [List.reverse_cons]
  by_cases hx : ∀ d ∈ x.reverse, decide (d = '*') = true
  · have hc : c ≠ '*' := by
      intro hc
      obtain ⟨d, hd, hne⟩ := h hc
      exact hne (of_decide_eq_true (hx d (List.mem_reverse.mpr hd)))
    rw [List.takeWhile_append_of_pos hx, List.takeWhile_cons_of_neg (by simpa using hc),
      List.append_nil, List.takeWhile_eq_self_iff.mpr hx]
  · rw [List.takeWhile_append, if_neg]
    intro hlen
    exact hx (List.takeWhile_eq_self_iff.mp ((List.takeWhile_prefix _).eq_of_length hlen))

/-- A star and the character behind it leave the parity as it is. -/
theorem closingStars_pair (c : Char) (x : Str) :
    Even (closingStars ('*' :: c :: x)) ↔ Even (closingStars x) := by
  by_cases hx : ∀ d ∈ c :: x, d = '*'
  · have hrest : ∀ d ∈ x, d = '*' := fun d hd => hx d (List.mem_cons_of_mem _ hd)
    have hwhole : ∀ d ∈ '*' :: c :: x, d = '*' := List.forall_mem_cons.mpr ⟨rfl, hx⟩
    rw [closingStars_all hwhole, closingStars_all hrest, List.length_cons, List.length_cons]
    rw [Nat.even_iff, Nat.even_iff]
    omega
  · have hother : ∃ d ∈ c :: x, d ≠ '*' := by
      simpa only [not_forall, exists_prop] using hx
    rw [closingStars_cons '*' fun _ => hother, closingStars_cons c]
    intro hc
    obtain ⟨d, hd, hne⟩ := hother
    rcases List.mem_cons.mp hd with rfl | hd
    · exact absurd hc hne
    · exact ⟨d, hd, hne⟩

theorem commentEnd_ge {s : Str} {n : Nat} (h : commentEnd s = some n) : 2 ≤ n := by
  fun_induction commentEnd s generalizing n with
  | case1 rest => exact (Option.some.inj h).le
  | case2 d rest hd ih =>
    obtain ⟨m, -, rfl⟩ := Option.map_eq_some_iff.mp h
    exact Nat.le_add_left 2 m
  | case3 c d rest hc ih =>
    obtain ⟨m, hm, rfl⟩ := Option.map_eq_some_iff.mp h
    exact (ih hm).trans (Nat.le_succ m)
  | case4 s hs => cases h

theorem NoClose.tail {c : Char} {x : Str} (h : NoClose (c :: x)) : NoClose x :=
  fun hclose => h (List.infix_cons hclose)

theorem map_add_iff {o : Option Nat} {m k : Nat} : o.map (· + k) = some (m + k) ↔ o = some m := by
  rw [Option.map_eq_some_iff]
  constructor
  · rintro ⟨n, rfl, hn⟩
    rw [Nat.add_right_cancel hn]
  · rintro rfl
    exact ⟨m, rfl, rfl⟩

/-- The pattern ends at the first `*/` exactly when the stars in front of the
last one are even in number. -/
theorem commentEnd_first {x : Str} (hfirst : NoClose x) (y : Str) :
    commentEnd (x ++ '*' :: '/' :: y) = some (x.length + 2) ↔ Even (closingStars x) := by
  fun_induction commentEnd x with
  | case1 rest => exact absurd ⟨[], rest ++ ['*'], rfl⟩ hfirst
  | case2 d rest hd ih =>
    rw [closingStars_pair, ← ih hfirst.tail.tail]
    show commentEnd ('*' :: d :: (rest ++ '*' :: '/' :: y)) = some (rest.length + 2 + 2) ↔ _
    rw [commentEnd, if_pos rfl, if_neg hd, map_add_iff]
  | case3 c d rest hc ih =>
    rw [closingStars_cons c fun h => absurd h hc, ← ih hfirst.tail]
    show commentEnd (c :: d :: (rest ++ '*' :: '/' :: y)) = some ((d :: rest).length + 2 + 1) ↔ _
    rw [commentEnd, if_neg hc, map_add_iff]
    rfl
  | case4 x hx =>
    match x with
    | [] => exact iff_of_true rfl Even.zero
    | [c] =>
      by_cases hc : c = '*'
      · subst hc
        refine iff_of_false ?_ (by decide)
        show commentEnd ('*' :: '*' :: '/' :: y) ≠ some (1 + 2)
        rw [commentEnd, if_pos rfl, if_neg (by decide), ne_eq, map_add_iff]
        intro hone
        exact absurd (commentEnd_ge hone) (by decide)
      · refine iff_of_true ?_ ?_
        · show commentEnd (c :: '*' :: '/' :: y) = some 3
          rw [commentEnd, if_neg hc]
          rfl
        · rw [closingStars_cons c fun h => absurd h hc]
          exact Even.zero
    | c :: d :: rest => exact absurd rfl (hx c d rest)

/-! ## The token -/

theorem takes_blockComment (s : Str) (n : Nat) :
    blockComment.Takes ('/' :: '*' :: s) n ↔ ∃ m, n = m + 2 ∧ commentEnd s = some m := by
  constructor
  · rintro ⟨u, v, heq, rfl, _, ⟨slash, -, rfl⟩, _, ⟨_, ⟨star, -, rfl⟩, w, hw, rfl⟩, rfl⟩
    obtain ⟨-, heq⟩ := List.cons.inj heq
    obtain ⟨-, rfl⟩ := List.cons.inj heq
    exact ⟨w.length, rfl, (takes_commentTail _ _).mp ⟨w, v, rfl, rfl, hw⟩⟩
  · rintro ⟨m, rfl, hm⟩
    obtain ⟨u, v, rfl, rfl, hu⟩ := (takes_commentTail _ _).mpr hm
    exact ⟨'/' :: '*' :: u, v, rfl, rfl, ['/'], ⟨'/', rfl, rfl⟩, '*' :: u,
      ⟨['*'], ⟨'*', rfl, rfl⟩, u, hu, rfl⟩, rfl⟩

theorem comment_rule {r : Pattern} (h : (SyntaxKind.BLOCK_COMMENT, r) ∈ rules) :
    r = blockComment := by
  have hliterals : ∀ literal ∈ literals, literal.1 ≠ .BLOCK_COMMENT := by decide
  rcases List.mem_append.mp h with h | h
  · obtain ⟨literal, hmem, heq⟩ := List.mem_map.mp h
    exact absurd (Prod.mk.inj heq).1 (hliterals literal hmem)
  · simpa using h

/-- Behind `/*` only a comment goes on. -/
theorem other_rules {rule : SyntaxKind × Pattern} (hmem : rule ∈ rules)
    (hother : rule.1 ≠ .BLOCK_COMMENT) {s : Str} {n : Nat} :
    ¬ rule.2.Takes ('/' :: '*' :: s) (n + 2) := by
  have hvoid : rules.all (fun rule => decide (rule.1 = .BLOCK_COMMENT) ||
      ((rule.2.deriv '/').deriv '*').isVoid) = true := by decide +kernel
  have hrule := List.all_eq_true.mp hvoid rule hmem
  rw [Bool.or_eq_true, decide_eq_true_eq, or_iff_right hother] at hrule
  rw [Regex.takes_cons, Regex.takes_cons]
  rintro ⟨u, v, -, -, hu⟩
  exact Regex.notMem_of_isVoid hrule u hu

theorem nextToken_comment (unmatched : Str → Nat) (s : Str) :
    (∀ n, nextToken unmatched ('/' :: '*' :: s) = (.BLOCK_COMMENT, n) →
      ∃ m, n = m + 2 ∧ commentEnd s = some m) ∧
    ∀ m, commentEnd s = some m →
      nextToken unmatched ('/' :: '*' :: s) = (.BLOCK_COMMENT, m + 2) := by
  have hmem : (SyntaxKind.BLOCK_COMMENT, blockComment) ∈ rules := by simp [rules]
  have hcomment : ∀ {kind n}, Regex.longestOf rules ('/' :: '*' :: s) = some (kind, n) →
      kind = .BLOCK_COMMENT → ∃ m, n = m + 2 ∧ commentEnd s = some m := by
    rintro _ n hlongest rfl
    obtain ⟨⟨r, hr, hr'⟩, -⟩ := Regex.longestOf_some hlongest
    rw [comment_rule hr] at hr'
    exact (takes_blockComment s n).mp (Regex.longest_takes hr').1
  constructor
  · intro n h
    unfold nextToken at h
    split at h
    · next kind k hlongest =>
      obtain ⟨hkind, rfl⟩ := Prod.mk.inj h
      exact hcomment hlongest hkind
    · cases h
  · intro m hm
    have htakes := (takes_blockComment s (m + 2)).mpr ⟨m, rfl, hm⟩
    cases hlongest : Regex.longestOf rules ('/' :: '*' :: s) with
    | none => exact absurd htakes (Regex.longestOf_none.mp hlongest _ hmem _)
    | some best =>
      obtain ⟨kind, n⟩ := best
      obtain ⟨⟨r, hr, hr'⟩, hmost⟩ := Regex.longestOf_some hlongest
      have hle := hmost _ hmem _ htakes
      obtain ⟨k, rfl⟩ := Nat.exists_eq_add_of_le' (Nat.le_trans (Nat.le_add_left 2 m) hle)
      have hkind : kind = .BLOCK_COMMENT := by
        by_contra hother
        exact other_rules hr hother (Regex.longest_takes hr').1
      obtain ⟨m', hm', hend⟩ := hcomment hlongest hkind
      obtain rfl := Option.some.inj (hend.symm.trans hm)
      unfold nextToken
      rw [hlongest, hkind, hm']

/-- A token begins where the text before it ends. -/
theorem spannedFrom_get {unmatched : Str → Nat} {start : Nat} {rest : Str} {k : Nat}
    {token : SyntaxKind × Nat × Nat} (h : (spannedFrom unmatched start rest)[k]? = some token) :
    ∃ before after, rest = before ++ after ∧ token = ((nextToken unmatched after).1,
      start + len before,
      start + len before + len (after.take (nextToken unmatched after).2)) := by
  induction k generalizing start rest with
  | zero =>
    rw [spannedFrom] at h
    split at h
    · cases h
    · exact ⟨[], rest, rfl, (Option.some.inj h).symm⟩
  | succ k ih =>
    rw [spannedFrom] at h
    split at h
    · cases h
    · obtain ⟨before, after, hrest, htoken⟩ := ih h
      refine ⟨rest.take (nextToken unmatched rest).2 ++ before, after, ?_, ?_⟩
      · rw [List.append_assoc, ← hrest, List.take_append_drop]
      · rw [htoken, len_append, Nat.add_assoc start]

/-- The token of that number is a block comment between the two offsets, and
the range that is emitted for it says so. -/
def IsComment (unmatched : Str → Nat) (text : Str) (k start stop : Nat) : Prop :=
  (spanned unmatched text)[k]? = some (.BLOCK_COMMENT, start, stop) ∧
    (lex unmatched text)[k]? = some (.BLOCK_COMMENT, start, stop)

theorem spanned_comment {unmatched : Str → Nat} {text before x y : Str} {k : Nat}
    (htext : text = before ++ '/' :: '*' :: (x ++ '*' :: '/' :: y)) (hfirst : NoClose x)
    (hstart : ((spanned unmatched text)[k]?.map fun token => token.2.1) = some (len before)) :
    (spanned unmatched text)[k]? = some (.BLOCK_COMMENT, len before,
      len before + len ('/' :: '*' :: (x ++ ['*', '/']))) ↔ Even (closingStars x) := by
  obtain ⟨token, htoken, hbefore⟩ := Option.map_eq_some_iff.mp hstart
  obtain ⟨before', after, hsplit, rfl⟩ := spannedFrom_get htoken
  have hcut : (before, '/' :: '*' :: (x ++ '*' :: '/' :: y)) = (before', after) := by
    apply Option.some.inj
    rw [← splitAtByte_len, ← splitAtByte_len, ← htext, ← hsplit, ← hbefore, Nat.zero_add]
  obtain ⟨rfl, hafter⟩ := Prod.mk.inj hcut
  have hcomment := nextToken_comment unmatched (x ++ '*' :: '/' :: y)
  rw [htoken, ← commentEnd_first hfirst y]
  have hwhole : after = '/' :: '*' :: (x ++ ['*', '/']) ++ y := by
    rw [← hafter]
    simp
  have hlength : ('/' :: '*' :: (x ++ ['*', '/'])).length = x.length + 2 + 2 := by
    simp
  rw [hafter] at hcomment
  generalize nextToken unmatched after = token at hcomment
  obtain ⟨kind, n⟩ := token
  simp only [Option.some.injEq, Prod.mk.injEq, Nat.zero_add, true_and, Nat.add_left_cancel_iff]
  constructor
  · rintro ⟨rfl, hlen⟩
    obtain ⟨m, rfl, hend⟩ := hcomment.1 n rfl
    obtain ⟨u, v, hbehind, rfl, -⟩ := (takes_commentTail _ _).mpr hend
    have htake : after.take (u.length + 2) = '/' :: '*' :: u := by
      rw [← hafter, hbehind, List.take_succ_cons, List.take_succ_cons, List.take_left]
    have hsame : ('/' :: '*' :: u, v) = ('/' :: '*' :: (x ++ ['*', '/']), y) := by
      apply Option.some.inj
      rw [← splitAtByte_len, ← splitAtByte_len, ← htake, hlen, ← hwhole, htake, ← hafter, hbehind]
      rfl
    have hu := congrArg (fun halves : Str × Str => halves.1.length) hsame
    simp only [hlength, List.length_cons] at hu
    rw [hend]
    exact congrArg some (by omega)
  · intro hend
    obtain ⟨rfl, rfl⟩ := Prod.mk.inj (hcomment.2 _ hend)
    rw [hwhole, List.take_left' hlength]
    exact ⟨rfl, rfl⟩

/-- The token that starts at `/*` is a comment that ends at the first `*/`
exactly when the stars in front of the slash, without that of `/*`, are odd in
number, so even without the last, and the offset fits in 32 bits. -/
theorem comments_end_at_the_first_close (unmatched : Str → Nat) (text before x y : Str) (k : Nat)
    (htext : text = before ++ '/' :: '*' :: (x ++ '*' :: '/' :: y)) (hfirst : NoClose x)
    (hstart : ((spanned unmatched text)[k]?.map fun token => token.2.1) = some (len before)) :
    IsComment unmatched text k (len before)
        (len before + len ('/' :: '*' :: (x ++ ['*', '/']))) ↔
      Even (closingStars x) ∧ len before + len ('/' :: '*' :: (x ++ ['*', '/'])) < 2 ^ 32 := by
  rw [IsComment, spanned_comment htext hfirst hstart, lex, List.getElem?_map]
  generalize hstop : len before + len ('/' :: '*' :: (x ++ ['*', '/'])) = stop
  have hspanned := spanned_comment htext hfirst hstart
  rw [hstop] at hspanned
  refine and_congr_right fun heven => ?_
  rw [hspanned.mpr heven, Option.map_some, Option.some.injEq, Prod.mk.injEq, Prod.mk.injEq]
  constructor
  · rintro ⟨-, -, hfits⟩
    unfold toU32 at hfits
    split at hfits <;> omega
  · intro hlt
    have hle : len before < 2 ^ 32 := by omega
    exact ⟨rfl, if_pos hle, if_pos hlt⟩

/-- Behind a name, a comment with three stars in front of its slash ends there, and the
text behind it is no part of it. -/
theorem three_stars_end_a_comment :
    IsComment (fun _ => 0) ['a', '/', '*', 'x', '*', '*', '*', '/', 'b'] 1 1 8 := by
  have hname : nextToken (fun _ => 0) ['a', '/', '*', 'x', '*', '*', '*', '/', 'b'] =
      (.IDENT, 1) := by
    decide +kernel
  have hcomment : nextToken (fun _ => 0) ['/', '*', 'x', '*', '*', '*', '/', 'b'] =
      (.BLOCK_COMMENT, 7) := by
    decide +kernel
  refine (comments_end_at_the_first_close (fun _ => 0)
    ['a', '/', '*', 'x', '*', '*', '*', '/', 'b'] ['a'] ['x', '*', '*'] ['b'] 1 rfl
    (by decide) ?_).mpr ⟨by decide, by decide⟩
  rw [spanned, spannedFrom, if_neg (by decide), hname]
  show ((spannedFrom _ _ ['/', '*', 'x', '*', '*', '*', '/', 'b'])[0]?.map _) = _
  rw [spannedFrom, if_neg (by decide), hcomment]
  rfl

/-- The comment with two stars in it goes on to the next `*/`. -/
theorem two_stars_swallow_text :
    ((spanned (fun _ => 0) ['/', '*', '*', '*', '/', ' ', 'x', ' ', '*', '/'])[0]?.map
        fun token => token.2.1) = some 0 ∧ NoClose ['*'] ∧
      ¬ IsComment (fun _ => 0) ['/', '*', '*', '*', '/', ' ', 'x', ' ', '*', '/'] 0 0 5 ∧
      IsComment (fun _ => 0) ['/', '*', '*', '*', '/', ' ', 'x', ' ', '*', '/'] 0 0 10 := by
  have hnext : nextToken (fun _ => 0) ['/', '*', '*', '*', '/', ' ', 'x', ' ', '*', '/'] =
      (.BLOCK_COMMENT, 10) := by
    decide +kernel
  have hspanned : spanned (fun _ => 0) ['/', '*', '*', '*', '/', ' ', 'x', ' ', '*', '/'] =
      [(.BLOCK_COMMENT, 0, 10)] := by
    rw [spanned, spannedFrom, if_neg (by decide), hnext]
    show _ :: spannedFrom _ _ [] = _
    rw [spannedFrom, if_pos rfl]
    rfl
  rw [IsComment, IsComment, lex, hspanned]
  exact ⟨rfl, by decide, by decide, rfl, rfl⟩

end analyzer.lexer
