-- The positions of a text in UTF-16 units against its byte offsets. Each way
-- undoes the other, and the only positions without an offset are those past
-- the last line, past the end of a line, or between two surrogates.
import Mathlib.Data.List.TakeWhile
import PureAnalyzer.Document

namespace analyzer.document

/-! ## Texts cut at an offset -/

theorem len_append (a b : Str) : len (a ++ b) = len a + len b := by
  unfold len
  rw [List.map_append, List.sum_append]

theorem len_cons (c : Char) (text : Str) : len (c :: text) = c.utf8Size + len text := rfl

theorem splitAtByte_cons {offset : Nat} {c : Char} (text : Str) (h : c.utf8Size ≤ offset) :
    splitAtByte offset (c :: text) =
      (splitAtByte (offset - c.utf8Size) text).map fun halves => (c :: halves.1, halves.2) := by
  have hpos := c.utf8Size_pos
  obtain ⟨n, rfl⟩ : ∃ n, offset = n + 1 := ⟨offset - 1, by omega⟩
  rw [splitAtByte, if_pos h]
  nofun

theorem splitAtByte_len (a b : Str) : splitAtByte (len a) (a ++ b) = some (a, b) := by
  induction a with
  | nil => cases b <;> rfl
  | cons c a ih =>
    rw [len_cons, List.cons_append, splitAtByte_cons _ (Nat.le_add_right _ _),
      Nat.add_sub_cancel_left, ih]
    rfl

theorem splitAtByte_some {offset : Nat} {text a b : Str}
    (h : splitAtByte offset text = some (a, b)) : text = a ++ b ∧ len a = offset := by
  induction text generalizing offset a b with
  | nil =>
    cases offset with
    | zero =>
      obtain ⟨rfl, rfl⟩ := Prod.mk.inj (Option.some.inj h)
      exact ⟨rfl, rfl⟩
    | succ n => cases h
  | cons c text ih =>
    cases offset with
    | zero =>
      obtain ⟨rfl, rfl⟩ := Prod.mk.inj (Option.some.inj h)
      exact ⟨rfl, rfl⟩
    | succ n =>
      by_cases hle : c.utf8Size ≤ n + 1
      · rw [splitAtByte_cons text hle, Option.map_eq_some_iff] at h
        obtain ⟨⟨x, y⟩, hxy, heq⟩ := h
        obtain ⟨rfl, rfl⟩ := Prod.mk.inj heq
        obtain ⟨rfl, hlen⟩ := ih hxy
        exact ⟨rfl, by rw [len_cons, hlen]; omega⟩
      · rw [splitAtByte, if_neg hle] at h
        · cases h
        · nofun

theorem eq_nil_of_len {text : Str} (h : len text = 0) : text = [] := by
  cases text with
  | nil => rfl
  | cons c text =>
    have hpos := c.utf8Size_pos
    rw [len_cons] at h
    omega

/-- Of two cuts of one text the later is behind the earlier. -/
theorem later_cut {a b c d : Str} (h : a ++ b = c ++ d) (hle : len a ≤ len c) :
    ∃ mid, c = a ++ mid ∧ b = mid ++ d := by
  rcases List.append_eq_append_iff.mp h with ⟨mid, hc, hb⟩ | ⟨mid, ha, hd⟩
  · exact ⟨mid, hc, hb⟩
  · have hmid : mid = [] := by
      apply eq_nil_of_len
      rw [ha, len_append] at hle
      omega
    subst hmid
    exact ⟨[], by simpa using ha.symm, by simpa using hd.symm⟩

/-! ## Lines -/

/-- Nothing, or whole lines with their ends. -/
def WholeLines (text : Str) : Prop := text = [] ∨ ∃ before, text = before ++ ['\n']

theorem newline_size : '\n'.utf8Size = 1 := by decide

theorem cut_at_newline {line : Str} (hline : '\n' ∉ line) (rest : Str) :
    (line ++ '\n' :: rest).takeWhile (· ≠ '\n') = line ∧
      (line ++ '\n' :: rest).dropWhile (· ≠ '\n') = '\n' :: rest := by
  have hall : ∀ c ∈ line, decide (c ≠ '\n') = true := by
    intro c hc
    simp only [decide_eq_true_eq]
    rintro rfl
    exact hline hc
  rw [List.takeWhile_append_of_pos hall, List.dropWhile_append_of_pos hall]
  simp

theorem dropWhile_line {text : Str} (h : '\n' ∉ text) : text.dropWhile (· ≠ '\n') = [] := by
  rw [List.dropWhile_eq_nil_iff]
  intro c hc
  simp only [decide_eq_true_eq]
  rintro rfl
  exact h hc

theorem lineStart_next {line : Str} (hline : '\n' ∉ line) (n : Nat) (rest : Str) :
    lineStart (n + 1) (line ++ '\n' :: rest) =
      (lineStart n rest).map fun start => (len line + 1 + start.1, start.2) := by
  obtain ⟨htake, hdrop⟩ := cut_at_newline hline rest
  rw [lineStart, htake, hdrop]

theorem lineStart_last {text : Str} (h : '\n' ∉ text) (n : Nat) :
    lineStart (n + 1) text = none := by
  rw [lineStart, dropWhile_line h]

/-- A line starts behind as many whole lines as its number says. -/
theorem lineStart_iff {n start : Nat} {text rest : Str} :
    lineStart n text = some (start, rest) ↔
      ∃ head, text = head ++ rest ∧ WholeLines head ∧ head.count '\n' = n ∧ len head = start := by
  induction n generalizing text start with
  | zero =>
    constructor
    · intro h
      obtain ⟨rfl, rfl⟩ := Prod.mk.inj (Option.some.inj h)
      exact ⟨[], rfl, .inl rfl, rfl, rfl⟩
    · rintro ⟨head, rfl, rfl | ⟨before, rfl⟩, hcount, rfl⟩
      · rfl
      · simp at hcount
  | succ n ih =>
    constructor
    · intro h
      by_cases hmem : '\n' ∈ text
      · obtain ⟨line, tail, rfl, hline⟩ := List.eq_append_cons_of_mem hmem
        rw [lineStart_next hline, Option.map_eq_some_iff] at h
        obtain ⟨⟨start', rest'⟩, hrec, heq⟩ := h
        obtain ⟨rfl, rfl⟩ := Prod.mk.inj heq
        obtain ⟨head, rfl, hwhole, hcount, hlen⟩ := ih.mp hrec
        refine ⟨line ++ '\n' :: head, by simp, ?_, ?_, ?_⟩
        · rcases hwhole with rfl | ⟨before, rfl⟩
          · exact .inr ⟨line, rfl⟩
          · exact .inr ⟨line ++ '\n' :: before, by simp⟩
        · rw [List.count_append, List.count_cons_self, hcount, List.count_eq_zero.mpr hline,
            Nat.zero_add]
        · rw [len_append, len_cons, newline_size, hlen]
          omega
      · rw [lineStart_last hmem] at h
        cases h
    · rintro ⟨head, rfl, hwhole, hcount, rfl⟩
      have hmem : '\n' ∈ head := List.count_pos_iff.mp (by omega)
      obtain ⟨line, tail, rfl, hline⟩ := List.eq_append_cons_of_mem hmem
      rw [List.append_assoc, List.cons_append, lineStart_next hline, Option.map_eq_some_iff]
      rw [List.count_append, List.count_cons_self, List.count_eq_zero.mpr hline] at hcount
      refine ⟨(len tail, rest), ih.mpr ⟨tail, rfl, ?_, by omega, rfl⟩, ?_⟩
      · rcases hwhole with hnil | ⟨before, hbefore⟩
        · simp at hnil
        · rcases List.eq_nil_or_concat tail with rfl | ⟨tail, c, rfl⟩
          · exact .inl rfl
          · rw [List.concat_eq_append, ← List.cons_append, ← List.append_assoc] at hbefore
            obtain ⟨-, hc⟩ := List.append_inj' hbefore rfl
            exact .inr ⟨tail, by rw [List.concat_eq_append, hc]⟩
      · rw [len_append, len_cons, newline_size]
        simp only [Prod.mk.injEq, and_true]
        omega

theorem lineStart_isSome_iff (n : Nat) (text : Str) :
    (lineStart n text).isSome = true ↔ n ≤ text.count '\n' := by
  induction n generalizing text with
  | zero => simp [lineStart]
  | succ n ih =>
    by_cases hmem : '\n' ∈ text
    · obtain ⟨line, tail, rfl, hline⟩ := List.eq_append_cons_of_mem hmem
      rw [lineStart_next hline, Option.isSome_map, ih, List.count_append, List.count_cons_self,
        List.count_eq_zero.mpr hline]
      omega
    · rw [lineStart_last hmem, List.count_eq_zero.mpr hmem]
      simp

theorem length_lines (text : Str) : (text.splitOn '\n').length = text.count '\n' + 1 := by
  induction text with
  | nil => rfl
  | cons c text ih =>
    rw [List.splitOn_cons_eq_if_modifyHead, List.count_cons]
    split
    · rw [List.length_cons, ih]
    · rw [List.length_modifyHead, ih, Nat.add_zero]

theorem first_line (text : Str) : (text.splitOn '\n')[0]? = some (text.takeWhile (· ≠ '\n')) := by
  by_cases hmem : '\n' ∈ text
  · obtain ⟨line, rest, rfl, hline⟩ := List.eq_append_cons_of_mem hmem
    rw [List.splitOn_append_cons_self_of_not_mem hline, (cut_at_newline hline rest).1]
    rfl
  · have hall : text.takeWhile (· ≠ '\n') = text := by
      rw [List.takeWhile_eq_self_iff]
      intro c hc
      simp only [decide_eq_true_eq]
      rintro rfl
      exact hmem hc
    rw [List.splitOn_eq_singleton hmem, hall]
    rfl

/-- The line behind some whole lines. -/
theorem line_behind {head : Str} (h : WholeLines head) (rest : Str) :
    ((head ++ rest).splitOn '\n')[head.count '\n']? = some (rest.takeWhile (· ≠ '\n')) := by
  rcases h with rfl | ⟨before, rfl⟩
  · exact first_line rest
  · rw [List.append_assoc, List.singleton_append, List.splitOn_append_cons_self,
      List.count_append, List.getElem?_append_right (by rw [length_lines]; rfl), length_lines]
    have hzero : before.count '\n' + ['\n'].count '\n' - (before.count '\n' + 1) = 0 := by
      rw [List.count_singleton_self, Nat.sub_self]
    rw [hzero, first_line]

/-! ## Units -/

/-- The length in UTF-16 units. -/
def units (text : Str) : Nat := (text.map lenUtf16).sum

theorem units_cons (c : Char) (text : Str) : units (c :: text) = lenUtf16 c + units text := rfl

theorem units_append (a b : Str) : units (a ++ b) = units a + units b := by
  unfold units
  rw [List.map_append, List.sum_append]

theorem lenUtf16_cases (c : Char) : lenUtf16 c = 1 ∨ lenUtf16 c = 2 := by
  unfold lenUtf16
  split
  · exact .inl rfl
  · exact .inr rfl

/-- The length is known where it fits in 32 bits. -/
theorem utf16Length_eq (text : Str) :
    utf16Length text = if units text < 2 ^ 32 then some (units text) else none := by
  have hfold : ∀ (text : Str) (n : Nat), n < 2 ^ 32 →
      text.foldlM (fun length c => addU32 length (lenUtf16 c)) n =
        if n + units text < 2 ^ 32 then some (n + units text) else none := by
    intro text
    induction text with
    | nil =>
      intro n hn
      show some n = if n < 2 ^ 32 then some n else none
      rw [if_pos hn]
    | cons c text ih =>
      intro n hn
      rw [List.foldlM_cons, addU32, checkedAdd, units_cons, ← Nat.add_assoc]
      by_cases hfits : n + lenUtf16 c < 2 ^ 32
      · rw [if_pos hfits]
        exact ih _ hfits
      · rw [if_neg hfits, if_neg (by omega)]
        rfl
  have h := hfold text 0 (by decide)
  rw [Nat.zero_add] at h
  exact h

theorem utf16Length_eq_some_iff {text : Str} {n : Nat} :
    utf16Length text = some n ↔ units text = n ∧ n < 2 ^ 32 := by
  rw [utf16Length_eq]
  split
  · next h =>
    exact ⟨fun heq => ⟨Option.some.inj heq, Option.some.inj heq ▸ h⟩, fun heq => heq.1 ▸ rfl⟩
  · next h => exact ⟨nofun, fun heq => absurd (heq.1 ▸ heq.2) h⟩

/-! ## A position in a line -/

/-- An offset in a line lies behind as many units as the position has. -/
theorem byteOffsetFrom_iff {character : Nat} (hcharacter : character < 2 ^ 32)
    {n start offset : Nat}
    {line : Str} :
    byteOffsetFrom character n start line = some offset ↔
      ∃ before after, line = before ++ after ∧ character = n + units before ∧
        start + len before = offset := by
  induction line generalizing n start with
  | nil =>
    rw [byteOffsetFrom]
    constructor
    · intro h
      split at h
      · next heq => exact ⟨[], [], rfl, heq, Option.some.inj h⟩
      · cases h
    · rintro ⟨before, after, hnil, rfl, rfl⟩
      obtain ⟨rfl, rfl⟩ := List.append_eq_nil_iff.mp hnil.symm
      exact if_pos rfl
  | cons c rest ih =>
    have hunits := lenUtf16_cases c
    rw [byteOffsetFrom]
    by_cases heq : character = n
    · rw [if_pos heq]
      constructor
      · intro h
        exact ⟨[], c :: rest, rfl, heq, Option.some.inj h⟩
      · rintro ⟨before, after, hline, hcount, rfl⟩
        cases before with
        | nil => rfl
        | cons d before =>
          have := lenUtf16_cases d
          rw [units_cons] at hcount
          omega
    rw [if_neg heq]
    have hskip : (∃ before after, c :: rest = before ++ after ∧ character = n + units before ∧
          start + len before = offset) ↔
        ∃ before after, rest = before ++ after ∧ character = n + lenUtf16 c + units before ∧
          start + c.utf8Size + len before = offset := by
      constructor
      · rintro ⟨before, after, hline, hcount, hoffset⟩
        cases before with
        | nil => exact absurd hcount heq
        | cons d before =>
          obtain ⟨rfl, rfl⟩ := List.cons.inj hline
          rw [units_cons] at hcount
          rw [len_cons] at hoffset
          exact ⟨before, after, rfl, by omega, by omega⟩
      · rintro ⟨before, after, rfl, hcount, hoffset⟩
        refine ⟨c :: before, after, rfl, ?_, ?_⟩
        · rw [units_cons]
          omega
        · rw [len_cons]
          omega
    rw [hskip, addU32, checkedAdd]
    by_cases hfits : n + lenUtf16 c < 2 ^ 32
    · rw [if_pos hfits, Option.bind_eq_bind, Option.bind_some]
      by_cases hless : character < n + lenUtf16 c
      · rw [if_pos hless]
        refine iff_of_false nofun ?_
        rintro ⟨before, after, -, hcount, -⟩
        omega
      · rw [if_neg hless]
        exact ih
    · rw [if_neg hfits]
      refine iff_of_false nofun ?_
      rintro ⟨before, after, -, hcount, -⟩
      omega

/-- Between the two units of one character. -/
def InSurrogates (line : Str) (character : Nat) : Prop :=
  ∃ before c after, line = before ++ c :: after ∧ lenUtf16 c = 2 ∧ character = units before + 1

theorem inSurrogates_cons {c : Char} {line : Str} {character : Nat} :
    InSurrogates (c :: line) character ↔
      (lenUtf16 c = 2 ∧ character = 1) ∨
        lenUtf16 c ≤ character ∧ InSurrogates line (character - lenUtf16 c) := by
  constructor
  · rintro ⟨before, d, after, hline, htwo, rfl⟩
    cases before with
    | nil =>
      obtain ⟨rfl, rfl⟩ := List.cons.inj hline
      exact .inl ⟨htwo, rfl⟩
    | cons e before =>
      obtain ⟨rfl, rfl⟩ := List.cons.inj hline
      rw [units_cons]
      exact .inr ⟨by omega, before, d, after, rfl, htwo, by omega⟩
  · rintro (⟨htwo, rfl⟩ | ⟨hle, before, d, after, rfl, htwo, heq⟩)
    · exact ⟨[], c, line, rfl, htwo, rfl⟩
    · refine ⟨c :: before, d, after, rfl, htwo, ?_⟩
      rw [units_cons]
      omega

/-- A position of a line has an offset, or is past its end, or cuts a character. -/
theorem at_character (line : Str) (character : Nat) :
    (∃ before after, line = before ++ after ∧ character = units before) ↔
      ¬ (units line < character ∨ InSurrogates line character) := by
  induction line generalizing character with
  | nil =>
    constructor
    · rintro ⟨before, after, hnil, rfl⟩
      obtain ⟨rfl, rfl⟩ := List.append_eq_nil_iff.mp hnil.symm
      rintro (h | ⟨before, c, after, h, -⟩)
      · exact Nat.lt_irrefl _ h
      · simp at h
    · intro h
      refine ⟨[], [], rfl, ?_⟩
      have hle := Nat.le_of_not_lt (not_or.mp h).1
      exact Nat.le_antisymm hle (Nat.zero_le _)
  | cons c line ih =>
    have hunits := lenUtf16_cases c
    rw [inSurrogates_cons, units_cons]
    by_cases hzero : character = 0
    · subst hzero
      refine iff_of_true ⟨[], c :: line, rfl, rfl⟩ ?_
      rintro (h | ⟨-, h⟩ | ⟨h, -⟩) <;> omega
    by_cases hle : lenUtf16 c ≤ character
    · have hrest := ih (character - lenUtf16 c)
      constructor
      · rintro ⟨before, after, hline, rfl⟩
        cases before with
        | nil => exact absurd rfl hzero
        | cons d before =>
          obtain ⟨rfl, rfl⟩ := List.cons.inj hline
          rw [units_cons] at hrest ⊢
          have hnone := hrest.mp ⟨before, after, rfl, by omega⟩
          rintro (h | ⟨htwo, h⟩ | ⟨-, h⟩)
          · exact hnone (.inl (by omega))
          · omega
          · exact hnone (.inr h)
      · intro h
        have hno : ¬ (units line < character - lenUtf16 c ∨
            InSurrogates line (character - lenUtf16 c)) := by
          rintro (hlt | hin)
          · exact h (.inl (by omega))
          · exact h (.inr (.inr ⟨hle, hin⟩))
        obtain ⟨before, after, rfl, heq⟩ := hrest.mpr hno
        refine ⟨c :: before, after, rfl, ?_⟩
        rw [units_cons, ← heq]
        exact (Nat.add_sub_cancel' hle).symm
    · refine iff_of_false ?_ fun h => h (.inr (.inl (by omega)))
      rintro ⟨before, after, hline, rfl⟩
      cases before with
      | nil => exact hzero rfl
      | cons d before =>
        obtain ⟨rfl, rfl⟩ := List.cons.inj hline
        rw [units_cons] at hle
        omega

/-! ## Both ways -/

/-- An offset of a position: some whole lines, and the units in the next one. -/
theorem byteOffset_iff {text : Str} {position : ProtocolPosition}
    (hcharacter : position.character < 2 ^ 32) {offset : Nat} :
    byteOffset text position = some offset ↔
      ∃ head before after, text = head ++ (before ++ after) ∧ WholeLines head ∧ '\n' ∉ before ∧
        head.count '\n' = position.line ∧ units before = position.character ∧
        len head + len before = offset := by
  unfold byteOffset lineBounds
  constructor
  · intro h
    obtain ⟨⟨start, line⟩, hbounds, hfrom⟩ := Option.bind_eq_some_iff.mp h
    obtain ⟨⟨start', rest⟩, hstart, heq⟩ := Option.map_eq_some_iff.mp hbounds
    obtain ⟨rfl, rfl⟩ := Prod.mk.inj heq
    obtain ⟨head, rfl, hwhole, hcount, rfl⟩ := lineStart_iff.mp hstart
    obtain ⟨before, after, hline, hunits, rfl⟩ := (byteOffsetFrom_iff hcharacter).mp hfrom
    refine ⟨head, before, after ++ rest.dropWhile (· ≠ '\n'), ?_, hwhole, fun hmem => ?_, hcount,
      by omega, rfl⟩
    · rw [← List.append_assoc before, ← hline, List.takeWhile_append_dropWhile]
    · have hin : '\n' ∈ rest.takeWhile (· ≠ '\n') := by
        rw [hline]
        exact List.mem_append_left _ hmem
      have := List.mem_takeWhile_imp hin
      simp at this
  · rintro ⟨head, before, after, rfl, hwhole, hplain, hcount, hunits, rfl⟩
    have hstart : lineStart position.line (head ++ (before ++ after)) =
        some (len head, before ++ after) := lineStart_iff.mpr ⟨head, rfl, hwhole, hcount, rfl⟩
    have hall : ∀ c ∈ before, decide (c ≠ '\n') = true := by
      intro c hc
      simp only [decide_eq_true_eq]
      rintro rfl
      exact hplain hc
    rw [hstart, Option.map_some, Option.bind_eq_bind, Option.bind_some]
    refine (byteOffsetFrom_iff hcharacter).mpr ⟨before, after.takeWhile (· ≠ '\n'), ?_, by omega,
      rfl⟩
    exact List.takeWhile_append_of_pos hall

/-- A text ends with what its last line has so far. -/
theorem last_line (text : Str) :
    ∃ head tail, text = head ++ tail ∧ WholeLines head ∧ '\n' ∉ tail ∧
      (text.reverse.takeWhile (· ≠ '\n')).reverse = tail := by
  by_cases hmem : '\n' ∈ text.reverse
  · obtain ⟨line, rest, heq, hline⟩ := List.eq_append_cons_of_mem hmem
    have htext : text = (rest.reverse ++ ['\n']) ++ line.reverse := by
      rw [← List.reverse_reverse text, heq]
      simp
    refine ⟨rest.reverse ++ ['\n'], line.reverse, htext, .inr ⟨_, rfl⟩, ?_, ?_⟩
    · rwa [List.mem_reverse]
    · rw [heq, (cut_at_newline hline rest).1]
  · refine ⟨[], text, rfl, .inl rfl, by rwa [List.mem_reverse] at hmem, ?_⟩
    have hall : text.reverse.takeWhile (· ≠ '\n') = text.reverse := by
      rw [List.takeWhile_eq_self_iff]
      intro c hc
      simp only [decide_eq_true_eq]
      rintro rfl
      exact hmem hc
    rw [hall, List.reverse_reverse]

theorem wholeLines_tail {head tail head' tail' : Str} (h : head ++ tail = head' ++ tail')
    (hhead : WholeLines head) (hhead' : WholeLines head') (htail : '\n' ∉ tail)
    (htail' : '\n' ∉ tail') : head = head' ∧ tail = tail' := by
  rcases List.append_eq_append_iff.mp h with ⟨mid, rfl, rfl⟩ | ⟨mid, rfl, rfl⟩
  · rcases List.eq_nil_or_concat mid with rfl | ⟨mid, c, rfl⟩
    · simp
    · rcases hhead' with hnil | ⟨before, hbefore⟩
      · simp at hnil
      · rw [List.concat_eq_append, ← List.append_assoc] at hbefore
        obtain ⟨-, hc⟩ := List.append_inj' hbefore rfl
        exact absurd (by simp [List.singleton_inj.mp hc]) htail
  · rcases List.eq_nil_or_concat mid with rfl | ⟨mid, c, rfl⟩
    · simp
    · rcases hhead with hnil | ⟨before, hbefore⟩
      · simp at hnil
      · rw [List.concat_eq_append, ← List.append_assoc] at hbefore
        obtain ⟨-, hc⟩ := List.append_inj' hbefore rfl
        exact absurd (by simp [List.singleton_inj.mp hc]) htail'

/-- The position of an offset: the whole lines before it and the units since. -/
theorem utf16Position_iff {text : Str} {offset : Nat} {position : ProtocolPosition} :
    utf16Position text offset = some position ↔
      ∃ head before after, text = head ++ (before ++ after) ∧ WholeLines head ∧ '\n' ∉ before ∧
        head.count '\n' = position.line ∧ units before = position.character ∧
        len head + len before = offset ∧ position.line < 2 ^ 32 ∧
        position.character < 2 ^ 32 := by
  unfold utf16Position
  constructor
  · intro h
    obtain ⟨⟨cut, after⟩, hcut, hfound⟩ := Option.bind_eq_some_iff.mp h
    obtain ⟨rfl, rfl⟩ := splitAtByte_some hcut
    obtain ⟨head, tail, rfl, hwhole, hplain, htail⟩ := last_line cut
    simp only [htail] at hfound
    split at hfound
    · next hline =>
      obtain ⟨character, hcharacter, heq⟩ := Option.bind_eq_some_iff.mp hfound
      obtain rfl := Option.some.inj heq
      obtain ⟨hunits, hlt⟩ := utf16Length_eq_some_iff.mp hcharacter
      have hcount : (head ++ tail).count '\n' = head.count '\n' := by
        rw [List.count_append, List.count_eq_zero.mpr hplain, Nat.add_zero]
      exact ⟨head, tail, after, List.append_assoc .., hwhole, hplain, hcount.symm, hunits,
        (len_append ..).symm, hline, hlt⟩
    · cases hfound
  · rintro ⟨head, before, after, rfl, hwhole, hplain, hcount, hunits, rfl, hline, hlt⟩
    have hcut : splitAtByte (len head + len before) (head ++ (before ++ after)) =
        some (head ++ before, after) := by
      rw [← len_append, ← List.append_assoc]
      exact splitAtByte_len _ _
    obtain ⟨head', tail, heq, hwhole', hplain', htail⟩ := last_line (head ++ before)
    obtain ⟨rfl, rfl⟩ := wholeLines_tail heq hwhole hwhole' hplain hplain'
    have hcount' : (head ++ before).count '\n' = position.line := by
      rw [List.count_append, List.count_eq_zero.mpr hplain, Nat.add_zero, hcount]
    rw [hcut, Option.bind_eq_bind, Option.bind_some]
    simp only [htail, hcount', if_pos hline]
    rw [utf16Length_eq_some_iff.mpr ⟨hunits, hlt⟩]
    rfl

theorem byteOffset_utf16Position {text : Str} {offset : Nat} {position : ProtocolPosition}
    (h : utf16Position text offset = some position) : byteOffset text position = some offset := by
  obtain ⟨head, before, after, htext, hwhole, hplain, hcount, hunits, hoffset, -, hlt⟩ :=
    utf16Position_iff.mp h
  exact (byteOffset_iff hlt).mpr
    ⟨head, before, after, htext, hwhole, hplain, hcount, hunits, hoffset⟩

/-- A position without an offset: past the last line, past the end of its
line, or between two surrogates. -/
def Rejected (text : Str) (position : ProtocolPosition) : Prop :=
  match (text.splitOn '\n')[position.line]? with
  | none => True
  | some line => units line < position.character ∨ InSurrogates line position.character

theorem byteOffset_none_iff {text : Str} {position : ProtocolPosition}
    (hcharacter : position.character < 2 ^ 32) :
    byteOffset text position = none ↔ Rejected text position := by
  unfold Rejected byteOffset lineBounds
  cases hstart : lineStart position.line text with
  | none =>
    have hlast : (text.splitOn '\n').length ≤ position.line := by
      have hnot := mt (lineStart_isSome_iff position.line text).mpr
      rw [hstart] at hnot
      rw [length_lines]
      have := hnot nofun
      omega
    rw [List.getElem?_eq_none hlast]
    exact iff_of_true rfl trivial
  | some found =>
    obtain ⟨start, rest⟩ := found
    obtain ⟨head, rfl, hwhole, hcount, rfl⟩ := lineStart_iff.mp hstart
    have hline := line_behind hwhole rest
    rw [hcount] at hline
    simp only [hline, Option.map_some, Option.bind_eq_bind, Option.bind_some]
    rw [← not_iff_not, ← at_character, ← ne_eq, Option.ne_none_iff_exists']
    constructor
    · rintro ⟨offset, hoffset⟩
      obtain ⟨before, after, heq, hunits, -⟩ := (byteOffsetFrom_iff hcharacter).mp hoffset
      exact ⟨before, after, heq, by omega⟩
    · rintro ⟨before, after, heq, hunits⟩
      exact ⟨_, (byteOffsetFrom_iff hcharacter).mpr ⟨before, after, heq, by omega, rfl⟩⟩

/-- Offsets and positions undo each other, for lines and characters of 32
bits. A position has no offset exactly where it is rejected. -/
theorem positions_are_exact (text : Str) :
    (∀ offset position, utf16Position text offset = some position →
      byteOffset text position = some offset) ∧
    ∀ position : ProtocolPosition, position.line < 2 ^ 32 → position.character < 2 ^ 32 →
      (∀ offset, byteOffset text position = some offset →
        utf16Position text offset = some position) ∧
      (byteOffset text position = none ↔ Rejected text position) := by
  refine ⟨fun _ _ => byteOffset_utf16Position, ?_⟩
  intro position hline hcharacter
  refine ⟨fun offset h => ?_, byteOffset_none_iff hcharacter⟩
  obtain ⟨head, before, after, htext, hwhole, hplain, hcount, hunits, hoffset⟩ :=
    (byteOffset_iff hcharacter).mp h
  exact utf16Position_iff.mpr ⟨head, before, after, htext, hwhole, hplain, hcount, hunits,
    hoffset, hline, hcharacter⟩

/-- The position behind a surrogate pair is exact, and the one inside is rejected. -/
theorem a_pair_is_not_cut :
    utf16Position "a😀".toList 5 = some ⟨0, 3⟩ ∧ byteOffset "a😀".toList ⟨0, 3⟩ = some 5 ∧
      byteOffset "a😀".toList ⟨0, 2⟩ = none := by
  have hexact := positions_are_exact "a😀".toList
  have hposition : utf16Position "a😀".toList 5 = some ⟨0, 3⟩ := by decide
  refine ⟨hposition, hexact.1 5 ⟨0, 3⟩ hposition, ?_⟩
  refine ((hexact.2 ⟨0, 2⟩ (by decide) (by decide)).2).mpr ?_
  exact .inr ⟨['a'], '😀', [], rfl, rfl, rfl⟩

end analyzer.document
