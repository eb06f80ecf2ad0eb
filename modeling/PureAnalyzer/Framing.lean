-- The frames of the language server protocol (`frame.rs`, and the reader of
-- `server.rs`): header lines, a blank line, and a body of a given length.
import PureAnalyzer.ModelTypes
import Mathlib.Algebra.GroupWithZero.Nat

namespace analyzer.lsp.frame

open fragments model

/-- Largest frame body that the reader allocates for. -/
def MAX_CONTENT_LENGTH_BYTES : Nat := 64 * 1024 * 1024

/-- Largest header line, including its terminator. -/
def MAX_HEADER_LINE_BYTES : Nat := 8 * 1024

inductive IoError where
  | UnexpectedEof
  | InvalidData (message : String)
deriving DecidableEq

def invalid (message : String) : IoError := .InvalidData message

def invalidJson (error : String) : IoError := invalid ("invalid JSON-RPC payload: " ++ error)

/-! ## Header lines -/

/-- The bytes up to a line feed and with it, at most `limit` of them. -/
def readUntil : Nat → Text → Text
  | 0, _ => []
  | _ + 1, [] => []
  | limit + 1, byte :: bytes => if byte = 10 then [10] else byte :: readUntil limit bytes

def readHeaderLine (bytes : Text) : Except IoError Text :=
  let line := readUntil MAX_HEADER_LINE_BYTES bytes
  if line.length = MAX_HEADER_LINE_BYTES ∧ line.getLast? ≠ some 10 then
    .error (invalid "LSP header line exceeds maximum length")
  else .ok line

def stripSuffix (suffix : UInt8) (line : Text) : Option Text :=
  if line.getLast? = some suffix then some line.dropLast else none

/-- A line that has no carriage return keeps its line feed. -/
def trimLine (line : Text) : Text :=
  (stripSuffix 13 ((stripSuffix 10 line).getD line)).getD line

/-- The white space of Unicode. -/
def isWhiteSpace (c : Char) : Bool :=
  let n := c.toNat
  (9 ≤ n && n ≤ 13) || n == 32 || n == 0x85 || n == 0xA0 || n == 0x1680 ||
    (0x2000 ≤ n && n ≤ 0x200A) || n == 0x2028 || n == 0x2029 || n == 0x202F || n == 0x205F ||
    n == 0x3000

def trim (text : List Char) : List Char :=
  (((text.dropWhile isWhiteSpace).reverse).dropWhile isWhiteSpace).reverse

def fromUtf8 (bytes : Text) : Option (List Char) := bytes.toByteArray.utf8Decode?.map Array.toList

/-- The text before the first colon and the text behind it. -/
def splitOnce (separator : Char) : List Char → Option (List Char × List Char)
  | [] => none
  | c :: text =>
    if c = separator then some ([], text)
    else (splitOnce separator text).map fun parts => (c :: parts.1, parts.2)

def headerParts (line : Text) : Option (List Char × List Char) :=
  (fromUtf8 line).bind fun text =>
    (splitOnce ':' text).map fun parts => (trim parts.1, trim parts.2)

def digitsFrom (n : Nat) : List Char → Option Nat
  | [] => some n
  | c :: rest => if c.isDigit then digitsFrom (n * 10 + (c.toNat - 48)) rest else none

/-- A decimal number below `2 ^ 64`, with or without a plus sign. -/
def parseUsize (text : List Char) : Option Nat :=
  let digits := if text.head? = some '+' then text.tail else text
  if digits = [] then none else (digitsFrom 0 digits).filter (· < 2 ^ 64)

def contentLengthValue (value : List Char) : Except IoError Nat :=
  match parseUsize value with
  | none => .error (invalid "invalid Content-Length")
  | some length =>
    if length > MAX_CONTENT_LENGTH_BYTES then
      .error (invalid "Content-Length exceeds maximum frame size")
    else .ok length

def isContentLength (name : List Char) : Bool := name.map Char.toLower = "content-length".toList

theorem readUntil_take (limit : Nat) (bytes : Text) :
    readUntil limit bytes = bytes.take (readUntil limit bytes).length := by
  induction limit generalizing bytes with
  | zero => rfl
  | succ limit ih =>
    cases bytes with
    | nil => rfl
    | cons byte bytes =>
      rw [readUntil]
      split
      · next h => rw [h]; rfl
      · rw [List.length_cons, List.take_succ_cons, ← ih]

theorem readHeaderLine_eq {bytes line : Text} (h : readHeaderLine bytes = .ok line) :
    line = readUntil MAX_HEADER_LINE_BYTES bytes := by
  unfold readHeaderLine at h
  dsimp only at h
  split at h
  · cases h
  · exact (Except.ok.inj h).symm

/-- A line that was read is not empty, so less is left. -/
theorem drop_lt {bytes line : Text} (h : readHeaderLine bytes = .ok line) (hne : line ≠ []) :
    (bytes.drop line.length).length < bytes.length := by
  have heq := readHeaderLine_eq h
  have hpos : 0 < line.length := List.length_pos_iff.mpr hne
  have hbytes : bytes ≠ [] := by
    rintro rfl
    exact hne (heq.trans rfl)
  have := List.length_pos_iff.mpr hbytes
  rw [List.length_drop]
  omega

/-! ## Frames -/

/-- The loop over the header lines. Gives the content length and the bytes behind
the blank line, or nothing at the end of the stream. -/
def readHeaders (content_length : Option Nat) (saw_header : Bool) (bytes : Text) :
    Except IoError (Option (Option Nat × Text)) :=
  match _ : readHeaderLine bytes with
  | .error error => .error error
  | .ok line =>
    if _ : line = [] then
      if saw_header then .error (invalid "unexpected end of LSP headers") else .ok none
    else
      let rest := bytes.drop line.length
      let line := trimLine line
      if line = [] then .ok (some (content_length, rest))
      else
        match headerParts line with
        | none => .error (invalid "malformed LSP header")
        | some (name, value) =>
          if isContentLength name then
            match contentLengthValue value with
            | .error error => .error error
            | .ok length => readHeaders (some length) true rest
          else readHeaders content_length true rest
termination_by bytes.length
decreasing_by all_goals exact drop_lt (by assumption) (by assumption)

/-- What is behind the headers is shorter than what was there before them. -/
theorem readHeaders_lt {content_length length : Option Nat} {saw_header : Bool} {bytes rest : Text}
    (h : readHeaders content_length saw_header bytes = .ok (some (length, rest))) :
    rest.length < bytes.length := by
  induction hn : bytes.length using Nat.strongRecOn
    generalizing content_length saw_header bytes with
  | _ n ih =>
    subst hn
    rw [readHeaders] at h
    split at h
    · cases h
    · next line hread =>
      split at h
      · split at h <;> cases h
      · next hline =>
        have hlt := drop_lt hread hline
        dsimp only at h
        split at h
        · cases h
          exact hlt
        · split at h
          · cases h
          · split at h
            · split at h
              · cases h
              · exact Nat.lt_trans (ih _ hlt h rfl) hlt
            · exact Nat.lt_trans (ih _ hlt h rfl) hlt

variable {V : Type} (from_slice : Text → Except String V) (to_vec : V → Except String Text)

/-- A frame and the bytes behind it. -/
def readFrame (bytes : Text) : Except IoError (Option (V × Text)) :=
  match readHeaders none false bytes with
  | .error error => .error error
  | .ok none => .ok none
  | .ok (some (none, _)) => .error (invalid "missing Content-Length")
  | .ok (some (some length, rest)) =>
    if rest.length < length then .error .UnexpectedEof
    else
      match from_slice (rest.take length) with
      | .error error => .error (invalidJson error)
      | .ok value => .ok (some (value, rest.drop length))

def writeFrame (value : V) : Except IoError Text :=
  match to_vec value with
  | .error error => .error (invalidJson error)
  | .ok body =>
    .ok (ascii "Content-Length: " ++ decimal body.length ++ ascii "\r\n\r\n" ++ body)

variable {from_slice}

theorem readFrame_lt {bytes rest : Text} {value : V}
    (h : readFrame from_slice bytes = .ok (some (value, rest))) : rest.length < bytes.length := by
  unfold readFrame at h
  split at h
  · cases h
  · cases h
  · cases h
  · next hheaders =>
    split at h
    · cases h
    · split at h
      · cases h
      · cases h
        rw [List.length_drop]
        exact Nat.lt_of_le_of_lt (Nat.sub_le _ _) (readHeaders_lt hheaders)

/-! ## The reader of the server -/

inductive ReaderAcknowledgement where
  | Continue
  | Stop
deriving DecidableEq

inductive ServerEvent (V : Type) where
  | Input (message : V)
  | EndOfInput
  | InputError (error : IoError)

variable (from_slice) (acknowledge : Nat → ReaderAcknowledgement)

/-- The events that the reader sends. It waits for the acknowledgement of each
message. -/
def readEvents (taken : Nat) (bytes : Text) : List (ServerEvent V) :=
  match _ : readFrame from_slice bytes with
  | .error error => [.InputError error]
  | .ok none => [.EndOfInput]
  | .ok (some (message, rest)) =>
    .Input message :: if acknowledge taken = .Continue then readEvents (taken + 1) rest else []
termination_by bytes.length
decreasing_by exact readFrame_lt (by assumption)

end analyzer.lsp.frame
