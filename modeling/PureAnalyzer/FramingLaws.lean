-- The laws of the frames: which bytes are a frame, and that the reader sends the
-- messages that were written, in their order and each once.
import PureAnalyzer.Framing
import PureAnalyzer.Json

namespace analyzer.lsp.frame

open fragments model

/-! ## Lines -/

/-- A line without its line feed. -/
structure Line (content : Text) : Prop where
  plain : 10 ∉ content
  short : content.length < MAX_HEADER_LINE_BYTES

theorem readUntil_line {limit : Nat} {content : Text} (hplain : 10 ∉ content)
    (hshort : content.length < limit) (rest : Text) :
    readUntil limit (content ++ 10 :: rest) = content ++ [10] := by
  induction content generalizing limit with
  | nil =>
    cases limit with
    | zero => cases hshort
    | succ limit => rfl
  | cons byte content ih =>
    cases limit with
    | zero => cases hshort
    | succ limit =>
      have hne : byte ≠ 10 := fun h => hplain (h ▸ List.mem_cons_self)
      rw [List.cons_append, readUntil, if_neg hne,
        ih (fun h => hplain (List.mem_cons_of_mem _ h)) (Nat.lt_of_succ_lt_succ hshort)]
      rfl

/-- A read ends behind a line feed, at the limit, or at the end of the stream. -/
theorem readUntil_cases (limit : Nat) (bytes : Text) :
    (∃ content, 10 ∉ content ∧ content.length < limit ∧
        readUntil limit bytes = content ++ [10]) ∨
      10 ∉ readUntil limit bytes ∧
        ((readUntil limit bytes).length = limit ∨ readUntil limit bytes = bytes) := by
  induction limit generalizing bytes with
  | zero => exact .inr ⟨List.not_mem_nil, .inl rfl⟩
  | succ limit ih =>
    cases bytes with
    | nil => exact .inr ⟨List.not_mem_nil, .inr rfl⟩
    | cons byte bytes =>
      rw [readUntil]
      split
      · exact .inl ⟨[], List.not_mem_nil, Nat.succ_pos limit, rfl⟩
      · next hne =>
        rcases ih bytes with ⟨content, hplain, hshort, heq⟩ | ⟨hplain, hend⟩
        · refine .inl ⟨byte :: content, ?_, Nat.succ_lt_succ hshort, by rw [heq]; rfl⟩
          intro hmem
          exact (List.mem_cons.mp hmem).elim (fun h => hne h.symm) hplain
        · refine .inr ⟨fun hmem => ?_, hend.imp (congrArg Nat.succ) (congrArg (byte :: ·))⟩
          exact (List.mem_cons.mp hmem).elim (fun h => hne h.symm) hplain

theorem getLast?_of_not_mem {content : Text} (h : 10 ∉ content) : content.getLast? ≠ some 10 :=
  fun hlast => h (List.mem_of_getLast? hlast)

theorem readHeaderLine_line {content : Text} (h : Line content) (rest : Text) :
    readHeaderLine (content ++ 10 :: rest) = .ok (content ++ [10]) := by
  unfold readHeaderLine
  dsimp only
  rw [readUntil_line h.plain h.short, if_neg]
  rintro ⟨-, hlast⟩
  apply hlast
  rw [List.getLast?_append]
  rfl

/-- A line ends with its line feed, or it is all that is left of the stream. -/
theorem readHeaderLine_cases {bytes line : Text} (h : readHeaderLine bytes = .ok line) :
    (∃ content, Line content ∧ line = content ++ [10] ∧
        bytes = content ++ 10 :: bytes.drop line.length) ∨ 10 ∉ line ∧ line = bytes := by
  have heq := readHeaderLine_eq h
  have htake := readUntil_take MAX_HEADER_LINE_BYTES bytes
  rw [← heq] at htake
  rcases readUntil_cases MAX_HEADER_LINE_BYTES bytes with ⟨content, hplain, hshort, hline⟩ | hend
  · rw [← heq] at hline
    refine .inl ⟨content, ⟨hplain, hshort⟩, hline, ?_⟩
    calc bytes = line ++ bytes.drop line.length := by
          conv => lhs; rw [← List.take_append_drop line.length bytes, ← htake]
      _ = content ++ 10 :: bytes.drop line.length := by
          rw [hline, List.append_assoc]
          rfl
  · rw [← heq] at hend
    refine .inr ⟨hend.1, hend.2.resolve_left fun hlength => ?_⟩
    unfold readHeaderLine at h
    dsimp only at h
    rw [← heq, if_pos ⟨hlength, getLast?_of_not_mem hend.1⟩] at h
    cases h

theorem trimLine_feed (content : Text) :
    trimLine (content ++ [10]) = (stripSuffix 13 content).getD (content ++ [10]) := by
  unfold trimLine
  have hstrip : stripSuffix 10 (content ++ [10]) = some content := by
    unfold stripSuffix
    rw [List.getLast?_append, List.dropLast_concat]
    rfl
  rw [hstrip]
  rfl

/-- Only a carriage return makes a line blank. -/
theorem trimLine_feed_nil {content : Text} : trimLine (content ++ [10]) = [] ↔ content = [13] := by
  rw [trimLine_feed]
  constructor
  · intro h
    unfold stripSuffix at h
    split at h
    · next hlast =>
      obtain ⟨front, rfl⟩ := List.getLast?_eq_some_iff.mp hlast
      rw [Option.getD_some, List.dropLast_concat] at h
      rw [h]
      rfl
    · rw [Option.getD_none] at h
      exact absurd h (List.append_ne_nil_of_right_ne_nil _ (List.cons_ne_nil _ _))
  · rintro rfl
    rfl

theorem trimLine_plain_nil {line : Text} (hplain : 10 ∉ line) (hne : line ≠ [])
    (h : trimLine line = []) : line = [13] := by
  have hstrip : stripSuffix 10 line = none := if_neg (getLast?_of_not_mem hplain)
  rw [trimLine, hstrip, Option.getD_none] at h
  unfold stripSuffix at h
  split at h
  · next hlast =>
    obtain ⟨front, rfl⟩ := List.getLast?_eq_some_iff.mp hlast
    rw [Option.getD_some, List.dropLast_concat] at h
    rw [h]
    rfl
  · exact absurd h hne

/-! ## Header lines -/

/-- Lines of headers, and the content length before and behind them. The last
content length counts. -/
inductive Headers : Option Nat → Text → Option Nat → Prop
  | none (length : Option Nat) : Headers length [] length
  | other {length last : Option Nat} {content block : Text} {name value : List Char} :
      Line content → headerParts (trimLine (content ++ [10])) = some (name, value) →
      isContentLength name = false → Headers length block last →
      Headers length (content ++ 10 :: block) last
  | length {length last : Option Nat} {content block : Text} {name value : List Char} {n : Nat} :
      Line content → headerParts (trimLine (content ++ [10])) = some (name, value) →
      isContentLength name = true → contentLengthValue value = .ok n →
      Headers (some n) block last → Headers length (content ++ 10 :: block) last

/-- The blank line. At the end of the stream it may lack its line feed. -/
def Blank (blank rest : Text) : Prop := blank = [13, 10] ∨ blank = [13] ∧ rest = []

theorem headerParts_nil : headerParts [] = none := by
  have hdecode : fromUtf8 [] = some [] := by
    unfold fromUtf8
    rw [show ([] : Text).toByteArray = ByteArray.empty from rfl, ByteArray.utf8Decode?_empty]
    rfl
  rw [headerParts, hdecode]
  rfl

variable {length last : Option Nat} {saw_header : Bool} {content block bytes rest : Text}
  {name value : List Char}

theorem readHeaders_blank (h : Blank block rest) :
    readHeaders length saw_header (block ++ rest) = .ok (some (length, rest)) := by
  rw [readHeaders]
  rcases h with rfl | ⟨rfl, rfl⟩
  · have hline : Line [13] := ⟨by decide, by decide⟩
    have hread : readHeaderLine ([13, 10] ++ rest) = .ok [13, 10] := readHeaderLine_line hline rest
    split
    · next heq =>
      rw [hread] at heq
      cases heq
    · next line heq =>
      rw [hread] at heq
      obtain rfl := Except.ok.inj heq
      rfl
  · rfl

theorem drop_line (content rest : Text) :
    (content ++ 10 :: rest).drop (content ++ [10]).length = rest := by
  rw [show content ++ 10 :: rest = (content ++ [10]) ++ rest by simp, List.drop_left]

theorem not_blank (h : headerParts (trimLine (content ++ [10])) = some (name, value)) :
    trimLine (content ++ [10]) ≠ [] := by
  intro hnil
  rw [hnil, headerParts_nil] at h
  cases h

theorem readHeaders_other (hline : Line content)
    (hparts : headerParts (trimLine (content ++ [10])) = some (name, value))
    (hname : isContentLength name = false) :
    readHeaders length saw_header (content ++ 10 :: rest) = readHeaders length true rest := by
  have hread := readHeaderLine_line hline rest
  rw [readHeaders]
  split
  · next heq =>
    rw [hread] at heq
    cases heq
  · next line heq =>
    rw [hread] at heq
    obtain rfl := Except.ok.inj heq
    dsimp only
    rw [dif_neg (List.append_ne_nil_of_right_ne_nil _ (List.cons_ne_nil _ _)),
      if_neg (not_blank hparts), hparts, drop_line]
    dsimp only
    rw [hname, if_neg Bool.false_ne_true]

theorem readHeaders_length {n : Nat} (hline : Line content)
    (hparts : headerParts (trimLine (content ++ [10])) = some (name, value))
    (hname : isContentLength name = true) (hvalue : contentLengthValue value = .ok n) :
    readHeaders length saw_header (content ++ 10 :: rest) = readHeaders (some n) true rest := by
  have hread := readHeaderLine_line hline rest
  rw [readHeaders]
  split
  · next heq =>
    rw [hread] at heq
    cases heq
  · next line heq =>
    rw [hread] at heq
    obtain rfl := Except.ok.inj heq
    dsimp only
    rw [dif_neg (List.append_ne_nil_of_right_ne_nil _ (List.cons_ne_nil _ _)),
      if_neg (not_blank hparts), hparts, drop_line]
    dsimp only
    rw [hname, if_pos rfl, hvalue]

theorem readHeaders_of_headers {blank : Text} (h : Headers length block last)
    (hblank : Blank blank rest) : readHeaders length saw_header (block ++ (blank ++ rest)) =
      .ok (some (last, rest)) := by
  induction h generalizing saw_header with
  | none length => exact readHeaders_blank hblank
  | other hline hparts hname _ ih =>
    rw [List.append_assoc, List.cons_append, readHeaders_other hline hparts hname]
    exact ih
  | length hline hparts hname hvalue _ ih =>
    rw [List.append_assoc, List.cons_append, readHeaders_length hline hparts hname hvalue]
    exact ih

/-- A line that is all that is left has nothing behind it. -/
theorem not_some_of_nil (h : readHeaders length true [] = .ok (some (last, rest))) : False := by
  rw [readHeaders] at h
  split at h
  · cases h
  · next line hread =>
    obtain rfl : line = [] := readHeaderLine_eq hread
    rw [dif_pos rfl] at h
    cases h

/-- Behind a header the stream does not just end. -/
theorem not_none_of_saw (h : readHeaders length true bytes = .ok none) : False := by
  induction hn : bytes.length using Nat.strongRecOn generalizing length bytes with
  | _ n ih =>
    subst hn
    rw [readHeaders] at h
    split at h
    · cases h
    · next line hread =>
      split at h
      · rw [if_pos rfl] at h
        cases h
      · next hne =>
        have hlt := drop_lt hread hne
        dsimp only at h
        split at h
        · cases h
        · split at h
          · cases h
          · split at h
            · split at h
              · cases h
              · exact ih _ hlt h rfl
            · exact ih _ hlt h rfl

theorem nil_of_readHeaders (h : readHeaders length saw_header bytes = .ok none) : bytes = [] := by
  rw [readHeaders] at h
  split at h
  · cases h
  · next line hread =>
    split at h
    · next hnil =>
      rcases readHeaderLine_cases hread with ⟨content, -, hline, -⟩ | ⟨-, hline⟩
      · rw [hnil] at hline
        exact absurd hline.symm (List.append_ne_nil_of_right_ne_nil _ (List.cons_ne_nil _ _))
      · rw [← hline, hnil]
    · dsimp only at h
      split at h
      · cases h
      · split at h
        · cases h
        · split at h
          · split at h
            · cases h
            · exact (not_none_of_saw h).elim
          · exact (not_none_of_saw h).elim

theorem headers_of_readHeaders
    (h : readHeaders length saw_header bytes = .ok (some (last, rest))) :
    ∃ block blank, Headers length block last ∧ Blank blank rest ∧
      bytes = block ++ (blank ++ rest) := by
  induction hn : bytes.length using Nat.strongRecOn generalizing length saw_header bytes with
  | _ n ih =>
    subst hn
    rw [readHeaders] at h
    split at h
    · cases h
    · next line hread =>
      split at h
      · split at h <;> cases h
      · next hne =>
        have hlt := drop_lt hread hne
        dsimp only at h
        rcases readHeaderLine_cases hread with ⟨content, hline, rfl, hbytes⟩ | ⟨hplain, rfl⟩
        · split at h
          · next hblank =>
            cases h
            rw [trimLine_feed_nil.mp hblank] at hbytes ⊢
            exact ⟨[], [13, 10], .none _, .inl rfl, hbytes⟩
          · split at h
            · cases h
            · next name value hparts =>
              split at h
              · next hname =>
                split at h
                · cases h
                · next n hvalue =>
                  obtain ⟨block, blank, hheaders, hblank, hrest⟩ := ih _ hlt h rfl
                  rw [hrest] at hbytes
                  refine ⟨content ++ 10 :: block, blank, .length hline hparts hname hvalue hheaders,
                    hblank, ?_⟩
                  rw [List.append_assoc]
                  exact hbytes
              · next hname =>
                obtain ⟨block, blank, hheaders, hblank, hrest⟩ := ih _ hlt h rfl
                rw [hrest] at hbytes
                refine ⟨content ++ 10 :: block, blank,
                  .other hline hparts (Bool.eq_false_iff.mpr hname) hheaders, hblank, ?_⟩
                rw [List.append_assoc]
                exact hbytes
        · rw [List.drop_length] at h
          split at h
          · next hblank =>
            cases h
            rw [trimLine_plain_nil hplain hne hblank]
            exact ⟨[], [13], .none _, .inr ⟨rfl, rfl⟩, rfl⟩
          · split at h
            · cases h
            · split at h
              · split at h
                · cases h
                · exact (not_some_of_nil h).elim
              · exact (not_some_of_nil h).elim

/-! ## Frames -/

theorem contentLengthValue_le {n : Nat} (h : contentLengthValue value = .ok n) :
    n ≤ MAX_CONTENT_LENGTH_BYTES := by
  unfold contentLengthValue at h
  split at h
  · cases h
  · split at h
    · cases h
    · next hle =>
      rw [← Except.ok.inj h]
      exact Nat.not_lt.mp hle

theorem Headers.length_le (h : Headers length block last)
    (hlength : ∀ n, length = some n → n ≤ MAX_CONTENT_LENGTH_BYTES) {n : Nat}
    (hn : last = some n) : n ≤ MAX_CONTENT_LENGTH_BYTES := by
  induction h with
  | none length => exact hlength n hn
  | other _ _ _ _ ih => exact ih hlength hn
  | length _ _ _ hvalue _ ih =>
    refine ih (fun m hm => ?_) hn
    rw [← Option.some.inj hm]
    exact contentLengthValue_le hvalue

variable {V : Type} {from_slice : Text → Except String V} {to_vec : V → Except String Text}
  {message : V}

/-- The bytes of a frame: header lines with a content length, a blank line, and a
body of that length with a message. -/
def Framed (from_slice : Text → Except String V) (message : V) (frame rest : Text) : Prop :=
  ∃ block blank body, Headers none block (some body.length) ∧ Blank blank (body ++ rest) ∧
    body.length ≤ MAX_CONTENT_LENGTH_BYTES ∧ frame = block ++ (blank ++ body) ∧
    from_slice body = .ok message

theorem readFrame_eq_none : readFrame from_slice bytes = .ok none ↔ bytes = [] := by
  constructor
  · intro h
    unfold readFrame at h
    split at h
    · cases h
    · next hheaders =>
      exact nil_of_readHeaders hheaders
    · cases h
    · split at h
      · cases h
      · split at h <;> cases h
  · rintro rfl
    have hheaders : readHeaders none false [] = .ok none := by
      rw [readHeaders]
      rfl
    rw [readFrame, hheaders]

theorem readFrame_framed {frame : Text} (h : Framed from_slice message frame rest) :
    readFrame from_slice (frame ++ rest) = .ok (some (message, rest)) := by
  obtain ⟨block, blank, body, hblock, hblank, -, rfl, hbody⟩ := h
  have hheaders : readHeaders none false (block ++ (blank ++ body) ++ rest) =
      .ok (some (some body.length, body ++ rest)) := by
    rw [List.append_assoc, List.append_assoc]
    exact readHeaders_of_headers hblock hblank
  unfold readFrame
  rw [hheaders]
  dsimp only
  rw [if_neg (by simp), List.take_left, hbody, List.drop_left]

/-- The reader takes a message off the stream exactly when the stream begins with a
frame of that message, and leaves what is behind the frame. It finds the end exactly
when nothing is left. -/
theorem the_reader_takes_frames (from_slice : Text → Except String V) (bytes : Text) :
    (∀ message rest, readFrame from_slice bytes = .ok (some (message, rest)) ↔
        ∃ frame, Framed from_slice message frame rest ∧ bytes = frame ++ rest) ∧
      (readFrame from_slice bytes = .ok none ↔ bytes = []) := by
  refine ⟨fun message rest => ⟨fun h => ?_, ?_⟩, readFrame_eq_none⟩
  · unfold readFrame at h
    split at h
    · cases h
    · cases h
    · cases h
    · next n behind hheaders =>
      split at h
      · cases h
      · next hlong =>
        split at h
        · cases h
        · next value hbody =>
          cases h
          obtain ⟨block, blank, hblock, hblank, hbytes⟩ := headers_of_readHeaders hheaders
          have hlength : (behind.take n).length = n := by
            rw [List.length_take, Nat.min_eq_left (Nat.not_lt.mp hlong)]
          refine ⟨block ++ (blank ++ behind.take n),
            ⟨block, blank, behind.take n, ?_, ?_, ?_, rfl, hbody⟩, ?_⟩
          · rw [hlength]
            exact hblock
          · rw [List.take_append_drop]
            exact hblank
          · rw [hlength]
            exact hblock.length_le (fun _ h => absurd h (Option.some_ne_none _).symm) rfl
          · rw [hbytes, List.append_assoc, List.append_assoc, List.take_append_drop]
  · rintro ⟨frame, hframe, rfl⟩
    exact readFrame_framed hframe

/-! ## Written frames -/

theorem dropWhile_plain {text : List Char} (h : ∀ c ∈ text, isWhiteSpace c = false) :
    text.dropWhile isWhiteSpace = text := by
  cases text with
  | nil => rfl
  | cons c text => exact List.dropWhile_cons_of_neg (by rw [h c List.mem_cons_self]; simp)

theorem trim_plain {text : List Char} (h : ∀ c ∈ text, isWhiteSpace c = false) :
    trim text = text := by
  have hback : ∀ c ∈ text.reverse, isWhiteSpace c = false := fun c hc =>
    h c (List.mem_reverse.mp hc)
  rw [trim, dropWhile_plain h, dropWhile_plain hback, List.reverse_reverse]

theorem trim_space (text : List Char) : trim (' ' :: text) = trim text := by
  have hspace : isWhiteSpace ' ' = true := by decide
  rw [trim, List.dropWhile_cons_of_pos hspace]
  rfl

theorem plain_of_isDigit {c : Char} (h : c.isDigit = true) : isWhiteSpace c = false := by
  simp only [Char.isDigit, Bool.and_eq_true, decide_eq_true_eq, ge_iff_le] at h
  have h48 : 48 ≤ c.toNat := UInt32.le_iff_toNat_le.mp h.1
  have h57 : c.toNat ≤ 57 := UInt32.le_iff_toNat_le.mp h.2
  unfold isWhiteSpace
  simp
  omega

theorem fromUtf8_ascii {text : List Char} (h : ∀ c ∈ text, c.toNat < 128) :
    fromUtf8 (text.map Char.toUInt8) = some text := by
  have hencode : (text.map Char.toUInt8).toByteArray = text.utf8Encode := by
    unfold List.utf8Encode
    congr 1
    induction text with
    | nil => rfl
    | cons c text ih =>
      have hc : c.val.toNat ≤ 0x7f := Nat.le_of_lt_succ (h c List.mem_cons_self)
      rw [List.map_cons, List.flatMap_cons, ih fun d hd => h d (List.mem_cons_of_mem _ hd),
        String.utf8EncodeChar, if_pos hc]
      rfl
  rw [fromUtf8, hencode, List.utf8Decode?_utf8Encode]
  rfl

theorem digitsFrom_eq {digits : List Char} (h : ∀ c ∈ digits, c.isDigit = true) (n : Nat) :
    digitsFrom n digits = some (Nat.ofDigitChars 10 digits n) := by
  induction digits generalizing n with
  | nil => rw [digitsFrom, Nat.ofDigitChars_nil]
  | cons c digits ih =>
    rw [digitsFrom, if_pos (h c List.mem_cons_self), ih fun d hd => h d (List.mem_cons_of_mem _ hd),
      Nat.ofDigitChars_cons, Nat.mul_comm n 10]
    rfl

theorem parseUsize_toDigits {n : Nat} (h : n < 2 ^ 64) :
    parseUsize (Nat.toDigits 10 n) = some n := by
  have hdigits : ∀ c ∈ Nat.toDigits 10 n, c.isDigit = true := fun c hc => isDigit_of_mem hc
  have hne : Nat.toDigits 10 n ≠ [] := List.length_pos_iff.mp Nat.length_toDigits_pos
  have hplus : (Nat.toDigits 10 n).head? ≠ some '+' := by
    intro hhead
    have := hdigits '+' (List.mem_of_mem_head? hhead)
    revert this
    decide
  unfold parseUsize
  dsimp only
  rw [if_neg hplus, if_neg hne, digitsFrom_eq hdigits, Nat.ofDigitChars_ten_toDigits]
  exact Option.filter_some_pos (by simpa using h)

/-- The content length of a written frame. -/
def written (n : Nat) : Text := ascii "Content-Length: " ++ decimal n ++ [13]

theorem headerParts_written (n : Nat) :
    headerParts (trimLine (written n ++ [10])) =
      some ("Content-Length".toList, Nat.toDigits 10 n) := by
  have htrim : trimLine (written n ++ [10]) =
      ("Content-Length: ".toList ++ Nat.toDigits 10 n).map Char.toUInt8 := by
    have hstrip : stripSuffix 13 (written n) = some (ascii "Content-Length: " ++ decimal n) := by
      unfold stripSuffix written
      rw [List.getLast?_append, List.dropLast_concat]
      rfl
    rw [trimLine_feed, hstrip, List.map_append]
    rfl
  have hascii : ∀ c ∈ "Content-Length: ".toList ++ Nat.toDigits 10 n, c.toNat < 128 := by
    have hfixed : ∀ c ∈ "Content-Length: ".toList, decide (c.toNat < 128) = true :=
      List.all_eq_true.mp (by decide)
    intro c hc
    rcases List.mem_append.mp hc with hc | hc
    · exact of_decide_eq_true (hfixed c hc)
    · have hdigit := isDigit_of_mem hc
      simp only [Char.isDigit, Bool.and_eq_true, decide_eq_true_eq, ge_iff_le] at hdigit
      have h57 : c.toNat ≤ 57 := UInt32.le_iff_toNat_le.mp hdigit.2
      omega
  have hplain : ∀ c ∈ Nat.toDigits 10 n, isWhiteSpace c = false := fun c hc =>
    plain_of_isDigit (isDigit_of_mem hc)
  rw [htrim, headerParts, fromUtf8_ascii hascii]
  show some (trim "Content-Length".toList, trim (' ' :: Nat.toDigits 10 n)) = _
  have hname : ∀ c ∈ "Content-Length".toList, decide (isWhiteSpace c = false) = true :=
    List.all_eq_true.mp (by decide)
  rw [trim_space, trim_plain hplain, trim_plain fun c hc => of_decide_eq_true (hname c hc)]

theorem line_written {n : Nat} (h : n ≤ MAX_CONTENT_LENGTH_BYTES) : Line (written n) := by
  constructor
  · intro hmem
    rcases List.mem_append.mp hmem with hmem | hmem
    · rcases List.mem_append.mp hmem with hmem | hmem
      · revert hmem
        decide
      · exact absurd (digit_of_mem_decimal hmem).1 (by decide)
    · revert hmem
      decide
  · have hlt : n < 10 ^ 8 := Nat.lt_of_le_of_lt h (by decide)
    have hdigits : (Nat.toDigits 10 n).length ≤ 8 :=
      (Nat.length_toDigits_le_iff (by decide) (by decide)).mpr hlt
    have hlength : (written n).length = 16 + (Nat.toDigits 10 n).length + 1 := by
      unfold written decimal
      rw [List.length_append, List.length_append, List.length_map]
      rfl
    rw [hlength]
    unfold MAX_HEADER_LINE_BYTES
    omega

theorem contentLengthValue_written {n : Nat} (h : n ≤ MAX_CONTENT_LENGTH_BYTES) :
    contentLengthValue (Nat.toDigits 10 n) = .ok n := by
  unfold contentLengthValue
  rw [parseUsize_toDigits (Nat.lt_of_le_of_lt h (by decide))]
  exact if_neg (Nat.not_lt.mpr h)

/-- A written frame is a frame of its message, whatever is behind it. -/
theorem framed_written {frame body : Text} (hbody : to_vec message = .ok body)
    (hread : from_slice body = .ok message) (hlength : body.length ≤ MAX_CONTENT_LENGTH_BYTES)
    (hframe : writeFrame to_vec message = .ok frame) (rest : Text) :
    Framed from_slice message frame rest := by
  unfold writeFrame at hframe
  rw [hbody] at hframe
  obtain rfl := Except.ok.inj hframe
  have hcrlf : ascii "\r\n\r\n" = [13, 10, 13, 10] := by decide
  refine ⟨written body.length ++ 10 :: [], [13, 10], body, ?_, .inl rfl, hlength, ?_, hread⟩
  · exact .length (line_written hlength) (headerParts_written body.length) (by decide)
      (contentLengthValue_written hlength) (.none _)
  · simp [written, hcrlf]

/-! ## The reader of the server -/

variable {acknowledge : Nat → ReaderAcknowledgement}

theorem readEvents_framed {frame : Text} {taken : Nat} (h : Framed from_slice message frame rest) :
    readEvents from_slice acknowledge taken (frame ++ rest) = .Input message ::
      if acknowledge taken = .Continue then
        readEvents from_slice acknowledge (taken + 1) rest else [] := by
  have hread := readFrame_framed h
  rw [readEvents]
  split
  · next heq =>
    rw [hread] at heq
    cases heq
  · next heq =>
    rw [hread] at heq
    cases heq
  · next heq =>
    rw [hread] at heq
    obtain ⟨rfl, rfl⟩ := Prod.mk.inj (Option.some.inj (Except.ok.inj heq))
    rfl

theorem readEvents_nil (taken : Nat) :
    readEvents from_slice acknowledge taken [] = [.EndOfInput] := by
  have hread := (@readFrame_eq_none [] V from_slice).mpr rfl
  rw [readEvents]
  split
  · next heq =>
    rw [hread] at heq
    cases heq
  · rfl
  · next heq =>
    rw [hread] at heq
    cases heq

/-- The frames of the messages, one after the other. -/
def writeFrames (to_vec : V → Except String Text) : List V → Except IoError Text
  | [] => .ok []
  | message :: messages =>
    match writeFrame to_vec message, writeFrames to_vec messages with
    | .ok frame, .ok frames => .ok (frame ++ frames)
    | .error error, _ => .error error
    | _, .error error => .error error

/-- The messages that are taken: up to the first one that stops the reader. -/
def takenFrom (acknowledge : Nat → ReaderAcknowledgement) : Nat → List V → List (ServerEvent V)
  | _, [] => [.EndOfInput]
  | taken, message :: messages =>
    .Input message ::
      if acknowledge taken = .Continue then takenFrom acknowledge (taken + 1) messages else []

/-- What a client writes, the server takes: every message in its order and once, up
to the one that stops the reader, and then the end of the input. -/
theorem written_messages_are_taken {messages : List V} {stream : Text} (taken : Nat)
    (hmessages : ∀ message ∈ messages, ∃ body, to_vec message = .ok body ∧
      from_slice body = .ok message ∧ body.length ≤ MAX_CONTENT_LENGTH_BYTES)
    (hstream : writeFrames to_vec messages = .ok stream) :
    readEvents from_slice acknowledge taken stream = takenFrom acknowledge taken messages := by
  induction messages generalizing stream taken with
  | nil =>
    rw [← Except.ok.inj hstream]
    exact readEvents_nil taken
  | cons message messages ih =>
    rw [writeFrames] at hstream
    split at hstream
    · next frame frames hframe hframes =>
      obtain ⟨body, hbody, hread, hlength⟩ := hmessages message List.mem_cons_self
      rw [← Except.ok.inj hstream,
        readEvents_framed (framed_written hbody hread hlength hframe frames),
        ih (taken + 1) (fun other hother => hmessages other (List.mem_cons_of_mem _ hother))
          hframes,
        takenFrom]
    · cases hstream
    · cases hstream

def wordToVec : json.Value → Except String Text
  | .Null => .ok (ascii "null")
  | .Bool true => .ok (ascii "true")
  | _ => .error "other"

def wordFromSlice (bytes : Text) : Except String json.Value :=
  if bytes = ascii "null" then .ok .Null
  else if bytes = ascii "true" then .ok (.Bool true)
  else .error "expected value at line 1 column 1"

/-- Two messages that were written are taken, and then the end. -/
theorem two_words_are_taken :
    readEvents wordFromSlice (fun _ => .Continue) 0
        (ascii "Content-Length: 4\r\n\r\nnullContent-Length: 4\r\n\r\ntrue") =
      [.Input .Null, .Input (.Bool true), .EndOfInput] := by
  have hmessages : ∀ message ∈ [json.Value.Null, .Bool true], ∃ body,
      wordToVec message = .ok body ∧ wordFromSlice body = .ok message ∧
      body.length ≤ MAX_CONTENT_LENGTH_BYTES := by
    intro message hmessage
    rcases List.mem_cons.mp hmessage with rfl | hmessage
    · exact ⟨ascii "null", rfl, rfl, by decide⟩
    · rw [List.mem_singleton.mp hmessage]
      exact ⟨ascii "true", rfl, rfl, by decide⟩
  exact written_messages_are_taken 0 hmessages rfl

end analyzer.lsp.frame
