-- The documents that a client has open (`document.rs`), with its edits in
-- UTF-16 positions. A text is its characters, and an offset counts bytes.
import Mathlib.Algebra.GroupWithZero.Nat
import Mathlib.Data.String.Basic
import PureAnalyzer.SortedMap

namespace analyzer.document

abbrev Str := List Char

structure DocumentSnapshot where
  uri : String
  text : Str
  version : Option Int
deriving DecidableEq, Repr

structure ProtocolPosition where
  line : Nat
  character : Nat
deriving DecidableEq, Repr

structure ProtocolRange where
  start : ProtocolPosition
  stop : ProtocolPosition
deriving DecidableEq, Repr

structure ContentChange where
  range : Option ProtocolRange
  range_length : Option Nat
  text : Str
deriving DecidableEq, Repr

/-! ## Positions -/

def len (text : Str) : Nat := (text.map Char.utf8Size).sum

def lenUtf16 (c : Char) : Nat := if c.toNat < 0x10000 then 1 else 2

def checkedAdd (bound a b : Nat) : Option Nat := if a + b < bound then some (a + b) else none

def addU32 : Nat → Nat → Option Nat := checkedAdd (2 ^ 32)

def utf16Length (text : Str) : Option Nat :=
  text.foldlM (fun length c => addU32 length (lenUtf16 c)) 0

/-- The text before a byte offset and the text from there, on a character boundary. -/
def splitAtByte : Nat → Str → Option (Str × Str)
  | 0, text => some ([], text)
  | _ + 1, [] => none
  | offset, c :: text =>
    if c.utf8Size ≤ offset then
      (splitAtByte (offset - c.utf8Size) text).map fun halves => (c :: halves.1, halves.2)
    else none

/-- The offset of a line, and the text from there. -/
def lineStart : Nat → Str → Option (Nat × Str)
  | 0, text => some (0, text)
  | line + 1, text =>
    match text.dropWhile (· ≠ '\n') with
    | [] => none
    | _ :: rest =>
      (lineStart line rest).map fun start =>
        (len (text.takeWhile (· ≠ '\n')) + 1 + start.1, start.2)

/-- The offset of a line, and what stands in it. -/
def lineBounds (text : Str) (line : Nat) : Option (Nat × Str) :=
  (lineStart line text).map fun start => (start.1, start.2.takeWhile (· ≠ '\n'))

/-- The offset of a UTF-16 position in a line, from an offset and the units before it. -/
def byteOffsetFrom (character : Nat) : Nat → Nat → Str → Option Nat
  | units, offset, [] => if character = units then some offset else none
  | units, offset, c :: rest =>
    if character = units then some offset
    else do
      let next ← addU32 units (lenUtf16 c)
      if character < next then none
      else byteOffsetFrom character next (offset + c.utf8Size) rest

def byteOffset (text : Str) (position : ProtocolPosition) : Option Nat := do
  let (start, line) ← lineBounds text position.line
  byteOffsetFrom position.character 0 start line

/-- The position of an offset. The line is counted, and the units since its start. -/
def utf16Position (text : Str) (offset : Nat) : Option ProtocolPosition := do
  let (before, _) ← splitAtByte offset text
  let line := before.count '\n'
  if line < 2 ^ 32 then
    let character ← utf16Length (before.reverse.takeWhile (· ≠ '\n')).reverse
    some ⟨line, character⟩
  else none

/-! ## Edits -/

/-- A length that does not fit in 32 bits is equal to no given length. -/
def lengthDiffers (change : ContentChange) (text : Str) : Bool :=
  match change.range_length with
  | none => false
  | some length => utf16Length text ≠ some length

def applyChange (text : Str) (change : ContentChange) : Option Str :=
  match change.range with
  | none => if lengthDiffers change text then none else some change.text
  | some range => do
    let start ← byteOffset text range.start
    let stop ← byteOffset text range.stop
    if start > stop then none
    else
      let (before, rest) ← splitAtByte start text
      let (removed, after) ← splitAtByte (stop - start) rest
      if lengthDiffers change removed then none
      else some (before ++ change.text ++ after)

/-! ## The store -/

structure DocumentStore where
  documents : SortedMap String DocumentSnapshot
  revision : Nat

def DocumentStore.new : DocumentStore := ⟨.empty, 0⟩

def acceptsVersion : Option Int → Option Int → Bool
  | some current, some incoming => incoming > current
  | some _, none => false
  | none, _ => true

namespace DocumentStore

def get (s : DocumentStore) (uri : String) : Option DocumentSnapshot := s.documents.get uri

def advanceRevision (s : DocumentStore) : Option Nat := checkedAdd (2 ^ 64) s.revision 1

/-- `none` is a replacement that the store refuses. -/
def replace (s : DocumentStore) (document : DocumentSnapshot) : Option DocumentStore :=
  if (s.get document.uri).any fun current => !acceptsVersion current.version document.version then
    none
  else s.advanceRevision.map fun revision => ⟨s.documents.insert document.uri document, revision⟩

def remove (s : DocumentStore) (uri : String) : Option (DocumentSnapshot × DocumentStore) :=
  match s.get uri with
  | none => none
  | some document =>
    s.advanceRevision.map fun revision => (document, ⟨s.documents.remove uri, revision⟩)

def applyChanges (s : DocumentStore) (uri : String) (version : Int)
    (changes : List ContentChange) : Option DocumentStore :=
  if changes.isEmpty then none
  else
    match s.get uri with
    | none => none
    | some document =>
      if acceptsVersion document.version (some version) then do
        let text ← changes.foldlM applyChange document.text
        let revision ← s.advanceRevision
        some ⟨s.documents.insert uri { document with text, version := some version }, revision⟩
      else none

end DocumentStore

end analyzer.document
