-- The edit of a code action (`state.rs`): what is left of two texts when the
-- prefix and the suffix that they share are cut off. The server's own change
-- application takes it to the fixed text.
import Mathlib.Data.List.Induction
import PureAnalyzer.Requests
import PureAnalyzer.TextPositions

namespace analyzer.lsp

open document json

/-! ## The edit of two texts (`state.rs`) -/

def sharedPrefixLen : Str → Str → Nat
  | b :: before, a :: after => if b = a then b.utf8Size + sharedPrefixLen before after else 0
  | _, _ => 0

/-- The last character before an offset. -/
def nextBack (text : Str) (stop : Nat) : Option Char :=
  (splitAtByte stop text).bind fun halves => halves.1.getLast?

/-- Moves both ends back over the characters that they share, and not past
the shared prefix. -/
def trimEnds (before after : Str) (shared before_end after_end : Nat) : Nat × Nat :=
  if shared < before_end ∧ shared < after_end then
    match nextBack before before_end, nextBack after after_end with
    | some b, some a =>
      if b ≠ a then (before_end, after_end)
      else trimEnds before after shared (before_end - b.utf8Size) (after_end - a.utf8Size)
    | _, _ => (before_end, after_end)
  else (before_end, after_end)
termination_by before_end
decreasing_by
  have := b.utf8Size_pos
  omega

def replacementBounds (before after : Str) : Nat × Nat × Nat :=
  let shared := sharedPrefixLen before after
  let ends := trimEnds before after shared (len before) (len after)
  (shared, ends.1, ends.2)

/-- The text between two offsets. -/
def slice (text : Str) (start stop : Nat) : Option Str := do
  if stop < start then none
  else
    let (_, rest) ← splitAtByte start text
    let (inside, _) ← splitAtByte (stop - start) rest
    return inside

def protocolPositionValue (position : ProtocolPosition) : Value :=
  .Object [("character", .Number (.PosInt position.character)),
    ("line", .Number (.PosInt position.line))]

def protocolRangeValue (start stop : ProtocolPosition) : Value :=
  .Object [("end", protocolPositionValue stop), ("start", protocolPositionValue start)]

def workspaceTextEdit (document : DocumentSnapshot) (before after : Str) : Option Value :=
  if before = after ∨ document.text ≠ before then none
  else do
    let (start_byte, before_end, after_end) := replacementBounds before after
    let start ← utf16Position before start_byte
    let stop ← utf16Position before before_end
    let new_text ← slice after start_byte after_end
    return .Object [("newText", .String (.ofList new_text)),
      ("range", protocolRangeValue start stop)]

/-- The change that a client makes of an edit. -/
def editChange (edit : Value) : Option ContentChange := do
  let range ← (get "range" edit).bind protocolRange
  let text ← (get "newText" edit).bind asStr
  return ⟨some range, none, text.toList⟩

/-! ## What the bounds cut -/

theorem sharedPrefix_spec (before after : Str) :
    ∃ p x y, before = p ++ x ∧ after = p ++ y ∧ sharedPrefixLen before after = len p := by
  induction before generalizing after with
  | nil => exact ⟨[], [], after, rfl, rfl, rfl⟩
  | cons b before ih =>
    cases after with
    | nil => exact ⟨[], b :: before, [], rfl, rfl, rfl⟩
    | cons a after =>
      rw [sharedPrefixLen]
      by_cases hba : b = a
      · subst hba
        obtain ⟨p, x, y, rfl, rfl, hlen⟩ := ih after
        exact ⟨b :: p, x, y, rfl, rfl, by rw [if_pos rfl, hlen, len_cons]⟩
      · exact ⟨[], b :: before, a :: after, rfl, rfl, by rw [if_neg hba]; rfl⟩

theorem nextBack_at (p x s : Str) (c : Char) :
    nextBack (p ++ (x ++ [c]) ++ s) (len (p ++ (x ++ [c]))) = some c := by
  unfold nextBack
  rw [splitAtByte_len, Option.bind_some, ← List.append_assoc, List.getLast?_concat]

theorem len_snoc (p x : Str) (c : Char) : len (p ++ (x ++ [c])) = len (p ++ x) + c.utf8Size := by
  rw [← List.append_assoc, len_append]
  rfl

/-- The ends stop where the texts between them and the prefix differ, and what
is behind them is the same. -/
theorem trimEnds_spec (p x y s : Str) :
    ∃ x' y' s', p ++ x ++ s = p ++ x' ++ s' ∧ p ++ y ++ s = p ++ y' ++ s' ∧
      trimEnds (p ++ x ++ s) (p ++ y ++ s) (len p) (len (p ++ x)) (len (p ++ y)) =
        (len (p ++ x'), len (p ++ y')) := by
  induction x using List.reverseRecOn generalizing y s with
  | nil =>
    refine ⟨[], y, s, rfl, rfl, ?_⟩
    rw [trimEnds, if_neg]
    rw [List.append_nil]
    omega
  | append_singleton x b ih =>
    rcases List.eq_nil_or_concat y with rfl | ⟨y, a, rfl⟩
    · refine ⟨x ++ [b], [], s, rfl, rfl, ?_⟩
      rw [trimEnds, if_neg]
      rw [List.append_nil]
      omega
    · rw [List.concat_eq_append]
      have hb := b.utf8Size_pos
      have ha := a.utf8Size_pos
      have hx := len_append p x
      have hy := len_append p y
      rw [trimEnds, nextBack_at, nextBack_at, len_snoc, len_snoc, if_pos (by omega)]
      by_cases hba : b = a
      · subst hba
        obtain ⟨x', y', s', hbefore, hafter, htrim⟩ := ih y (b :: s)
        have hmove (z : Str) : p ++ (z ++ [b]) ++ s = p ++ z ++ b :: s := by simp
        refine ⟨x', y', s', (hmove x).trans hbefore, (hmove y).trans hafter, ?_⟩
        simp only [ne_eq, not_true_eq_false, if_false, Nat.add_sub_cancel, hmove]
        exact htrim
      · refine ⟨x ++ [b], y ++ [a], s, rfl, rfl, ?_⟩
        simp only [ne_eq, hba, not_false_eq_true, if_true, len_snoc]

theorem replacementBounds_spec (before after : Str) :
    ∃ p x y s, before = p ++ x ++ s ∧ after = p ++ y ++ s ∧
      replacementBounds before after = (len p, len (p ++ x), len (p ++ y)) := by
  obtain ⟨p, x, y, rfl, rfl, hlen⟩ := sharedPrefix_spec before after
  obtain ⟨x', y', s, hx, hy, htrim⟩ := trimEnds_spec p x y []
  simp only [List.append_nil] at hx hy htrim
  refine ⟨p, x', y', s, hx, hy, ?_⟩
  unfold replacementBounds
  simp only [hlen, htrim]

/-! ## The edit applied -/

/-- Every position of a text fits in 32 bits. -/
def Fits32 (text : Str) : Prop :=
  text.count '\n' < 2 ^ 32 ∧ ∀ line ∈ text.splitOn '\n', units line < 2 ^ 32

theorem position_fits {a b : Str} (h : Fits32 (a ++ b)) :
    ∃ position, utf16Position (a ++ b) (len a) = some position := by
  obtain ⟨head, tail, rfl, hwhole, hplain, -⟩ := last_line a
  have hline := line_behind hwhole (tail ++ b)
  have hall : ∀ c ∈ tail, decide (c ≠ '\n') = true := by
    intro c hc
    simp only [decide_eq_true_eq]
    rintro rfl
    exact hplain hc
  rw [List.takeWhile_append_of_pos hall, ← List.append_assoc] at hline
  have hcount := h.1
  have hunits := h.2 _ (List.mem_of_getElem? hline)
  rw [List.count_append, List.count_append] at hcount
  rw [units_append] at hunits
  refine ⟨⟨head.count '\n', units tail⟩, utf16Position_iff.mpr ⟨head, tail, b,
    List.append_assoc .., hwhole, hplain, rfl, rfl, (len_append ..).symm, ?_, ?_⟩⟩
  · show head.count '\n' < 2 ^ 32
    omega
  · show units tail < 2 ^ 32
    omega

theorem slice_at (p y s : Str) : slice (p ++ y ++ s) (len p) (len (p ++ y)) = some y := by
  have hlen := len_append p y
  have hsub : len (p ++ y) - len p = len y := by omega
  unfold slice
  rw [if_neg (by omega), hsub, List.append_assoc, splitAtByte_len]
  simp only [Option.bind_eq_bind, Option.bind_some, splitAtByte_len]
  rfl

/-- The server reads back a position that fits. -/
theorem protocolPosition_value {text : Str} {i : Nat} {position : ProtocolPosition}
    (h : utf16Position text i = some position) :
    protocolPosition (protocolPositionValue position) = some position := by
  obtain ⟨-, -, -, -, -, -, -, -, -, hline, hcharacter⟩ := utf16Position_iff.mp h
  have hl : u32 (.Number (.PosInt position.line)) = some position.line := by
    simp [u32, asU64, Number.asU64, Option.filter]
    omega
  have hc : u32 (.Number (.PosInt position.character)) = some position.character := by
    simp [u32, asU64, Number.asU64, Option.filter]
    omega
  have hget : json.get "line" (protocolPositionValue position) =
      some (.Number (.PosInt position.line)) := rfl
  have hget' : json.get "character" (protocolPositionValue position) =
      some (.Number (.PosInt position.character)) := rfl
  unfold protocolPosition
  rw [hget, hget', Option.bind_some, Option.bind_some, hl, hc]
  rfl

theorem protocolRange_value {text : Str} {i j : Nat} {start stop : ProtocolPosition}
    (hstart : utf16Position text i = some start) (hstop : utf16Position text j = some stop) :
    protocolRange (protocolRangeValue start stop) = some ⟨start, stop⟩ := by
  have hget : json.get "start" (protocolRangeValue start stop) =
      some (protocolPositionValue start) := rfl
  have hget' : json.get "end" (protocolRangeValue start stop) =
      some (protocolPositionValue stop) := rfl
  unfold protocolRange
  rw [hget, hget', Option.bind_some, Option.bind_some, protocolPosition_value hstart,
    protocolPosition_value hstop]
  rfl

theorem applyChange_at {p x s : Str} {start stop : ProtocolPosition}
    (hstart : utf16Position (p ++ x ++ s) (len p) = some start)
    (hstop : utf16Position (p ++ x ++ s) (len (p ++ x)) = some stop) (y : Str) :
    applyChange (p ++ x ++ s) ⟨some ⟨start, stop⟩, none, y⟩ = some (p ++ y ++ s) := by
  have hlen := len_append p x
  have hsub : len (p ++ x) - len p = len x := by omega
  have hcut : splitAtByte (len p) (p ++ x ++ s) = some (p, x ++ s) := by
    rw [List.append_assoc]
    exact splitAtByte_len _ _
  unfold applyChange
  simp only [byteOffset_utf16Position hstart, byteOffset_utf16Position hstop, Option.bind_eq_bind,
    Option.bind_some, hcut, hsub, splitAtByte_len]
  rw [if_neg (by omega)]
  rfl

/-- The edit of an open document is made, and the server applies it to the text
before the fix and gets the text after it. -/
theorem edits_reproduce_the_fix (document : DocumentSnapshot) (before after : Str)
    (hopen : document.text = before) (hdiffer : after ≠ before) (hfits : Fits32 before) :
    ∃ edit change, workspaceTextEdit document before after = some edit ∧
      editChange edit = some change ∧ applyChange before change = some after := by
  obtain ⟨p, x, y, s, rfl, rfl, hbounds⟩ := replacementBounds_spec before after
  obtain ⟨start, hstart⟩ := position_fits (by rw [List.append_assoc] at hfits; exact hfits)
  obtain ⟨stop, hstop⟩ := position_fits hfits
  rw [← List.append_assoc] at hstart
  refine ⟨.Object [("newText", .String (.ofList y)), ("range", protocolRangeValue start stop)],
    ⟨some ⟨start, stop⟩, none, y⟩, ?_, ?_, applyChange_at hstart hstop y⟩
  · unfold workspaceTextEdit
    rw [if_neg (by rintro (h | h) <;> [exact hdiffer h.symm; exact h hopen]), hbounds]
    simp only [hstart, hstop, slice_at, Option.bind_eq_bind, Option.bind_some]
    rfl
  · have hget : json.get "range" (.Object [("newText", .String (.ofList y)),
        ("range", protocolRangeValue start stop)]) = some (protocolRangeValue start stop) := rfl
    have hget' : json.get "newText" (.Object [("newText", .String (.ofList y)),
        ("range", protocolRangeValue start stop)]) = some (.String (.ofList y)) := rfl
    unfold editChange
    rw [hget, hget', Option.bind_some, protocolRange_value hstart hstop]
    show some (ContentChange.mk (some ⟨start, stop⟩) none (String.ofList y).toList) = _
    rw [String.toList_ofList]

theorem an_insertion_is_reproduced :
    ∃ edit change, workspaceTextEdit ⟨"file:///a.pure", "ab".toList, some 1⟩ "ab".toList
        "axb".toList = some edit ∧
      editChange edit = some change ∧ applyChange "ab".toList change = some "axb".toList :=
  edits_reproduce_the_fix ⟨"file:///a.pure", "ab".toList, some 1⟩ "ab".toList "axb".toList rfl
    (by decide) ⟨by decide, by decide⟩

end analyzer.lsp
