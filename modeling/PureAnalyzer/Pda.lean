-- The byte automaton of the emitted Pure grammar (`grammar/pda.rs`): its
-- states, its frames, the transition function one state at a time, and the
-- driver that keeps a state and a stack of frames.
import PureAnalyzer.Pushdown

namespace purecard.pda

open pushdown

/-- A byte is written as its ASCII character, as in the Rust code. -/
instance instCoeCharByte : Coe Char UInt8 := ⟨Char.toUInt8⟩

/-- The bytes of an ASCII literal, `b"…"` in the Rust code. -/
def lit (s : String) : List UInt8 := s.toList.map Char.toUInt8

/-! ## States and frames -/

/-- Where the automaton stands in the byte stream. A string literal keeps
`escaped` while a quote waits for the byte that says if it is doubled. -/
inductive State where
  | Start
  | ExpectSource
  | AfterBraceOpen
  | BlockStmt
  | BlockStmtClose
  | InSourceIdent
  | SourceColon
  | SourceColon2
  | SourceDash
  | LetL
  | LetLe
  | LetLet
  | ExpectBinder
  | InBinder
  | AfterBinder
  | InMultiplicity
  | ExpectBraceBinder
  | AfterColonWs
  | ExpectValue
  | ExpectValueReq
  | AfterValue
  | AfterName
  | AfterMemberName
  | AfterStrLit
  | InIdent
  | InMemberIdent
  | SawNumSign
  | InNumberInt
  | NeedFracDigit
  | InNumberFrac
  | SawExp
  | NeedExpDigit
  | InExp
  | InStrLit (escaped : Bool)
  | SawPercent
  | InDateLit
  | DateSep
  | InDateTime
  | DateTimeSep
  | DateFrac
  | InDateFrac
  | MilestoneL
  | MilestoneLa
  | MilestoneLat
  | MilestoneLate
  | MilestoneLates
  | InMilestoneLit
  | AfterDollar
  | AfterDot
  | AfterArrow
  | AfterColon
  | AfterValueColon
  | AfterColon2
  | InBinderType
  | AfterBinderType
  | BinderTypeColon
  | BinderTypeColon2
  | InBinderTypePath
  | AfterBinderTypePath
  | ExpectBinderMult
  | InBinderMult
  | AfterBinderMultToken
  | AfterBinderMult
  | ExpectLambdaBody
  | SawDash
  | SawPipe
  | SawValuePipe
  | SawEq
  | SawBang
  | SawGt
  | SawLt
  | SawAmp
  | SawTilde
  | ExpectBinderValue
  | InBinderValueIdent
  | ExpectBinderCallClose
  | InRelColIdent
  | InRelColStrLit (escaped : Bool)
  | AfterRelColName
  | ExpectRelColSpec
  | ExpectRelColSpecReq
  | AfterRelColColon
  | InRelColLambdaBinder
  | AfterRelColLambdaBinder
  | InArrowIdent
  | AfterArrowName
  | InRelAggReduceBinder
  | AfterRelAggReduceBinder
deriving DecidableEq, Repr

/-- The name a dead state reports. -/
def State.name : State → String
  | .Start => "Start"
  | .ExpectSource => "ExpectSource"
  | .AfterBraceOpen => "AfterBraceOpen"
  | .BlockStmt => "BlockStmt"
  | .BlockStmtClose => "BlockStmtClose"
  | .InSourceIdent => "InSourceIdent"
  | .SourceColon => "SourceColon"
  | .SourceColon2 => "SourceColon2"
  | .SourceDash => "SourceDash"
  | .LetL => "LetL"
  | .LetLe => "LetLe"
  | .LetLet => "LetLet"
  | .ExpectBinder => "ExpectBinder"
  | .InBinder => "InBinder"
  | .AfterBinder => "AfterBinder"
  | .ExpectBinderValue => "ExpectBinderValue"
  | .InBinderValueIdent => "InBinderValueIdent"
  | .ExpectBinderCallClose => "ExpectBinderCallClose"
  | .InMultiplicity => "InMultiplicity"
  | .ExpectBraceBinder => "ExpectBraceBinder"
  | .AfterColonWs => "AfterColonWs"
  | .ExpectValue => "ExpectValue"
  | .ExpectValueReq => "ExpectValueReq"
  | .AfterValue => "AfterValue"
  | .AfterName => "AfterName"
  | .AfterMemberName => "AfterMemberName"
  | .AfterStrLit => "AfterStrLit"
  | .InIdent => "InIdent"
  | .InMemberIdent => "InMemberIdent"
  | .SawNumSign => "SawNumSign"
  | .InNumberInt => "InNumberInt"
  | .NeedFracDigit => "NeedFracDigit"
  | .InNumberFrac => "InNumberFrac"
  | .SawExp => "SawExp"
  | .NeedExpDigit => "NeedExpDigit"
  | .InExp => "InExp"
  | .InStrLit false => "InStrLit"
  | .InStrLit true => "InStrLit(pendingQuote)"
  | .SawPercent => "SawPercent"
  | .InDateLit => "InDateLit"
  | .DateSep => "DateSep"
  | .InDateTime => "InDateTime"
  | .DateTimeSep => "DateTimeSep"
  | .DateFrac => "DateFrac"
  | .InDateFrac => "InDateFrac"
  | .MilestoneL => "MilestoneL"
  | .MilestoneLa => "MilestoneLa"
  | .MilestoneLat => "MilestoneLat"
  | .MilestoneLate => "MilestoneLate"
  | .MilestoneLates => "MilestoneLates"
  | .InMilestoneLit => "InMilestoneLit"
  | .AfterDollar => "AfterDollar"
  | .AfterDot => "AfterDot"
  | .AfterArrow => "AfterArrow"
  | .AfterColon => "AfterColon"
  | .AfterValueColon => "AfterValueColon"
  | .AfterColon2 => "AfterColon2"
  | .InBinderType => "InBinderType"
  | .AfterBinderType => "AfterBinderType"
  | .BinderTypeColon => "BinderTypeColon"
  | .BinderTypeColon2 => "BinderTypeColon2"
  | .InBinderTypePath => "InBinderTypePath"
  | .AfterBinderTypePath => "AfterBinderTypePath"
  | .ExpectBinderMult => "ExpectBinderMult"
  | .InBinderMult => "InBinderMult"
  | .AfterBinderMultToken => "AfterBinderMultToken"
  | .AfterBinderMult => "AfterBinderMult"
  | .ExpectLambdaBody => "ExpectLambdaBody"
  | .SawDash => "SawDash"
  | .SawPipe => "SawPipe"
  | .SawValuePipe => "SawValuePipe"
  | .SawEq => "SawEq"
  | .SawBang => "SawBang"
  | .SawGt => "SawGt"
  | .SawLt => "SawLt"
  | .SawAmp => "SawAmp"
  | .SawTilde => "SawTilde"
  | .InRelColIdent => "InRelColIdent"
  | .InRelColStrLit false => "InRelColStrLit"
  | .InRelColStrLit true => "InRelColStrLit(pendingQuote)"
  | .AfterRelColName => "AfterRelColName"
  | .ExpectRelColSpec => "ExpectRelColSpec"
  | .ExpectRelColSpecReq => "ExpectRelColSpecReq"
  | .AfterRelColColon => "AfterRelColColon"
  | .InRelColLambdaBinder => "InRelColLambdaBinder"
  | .AfterRelColLambdaBinder => "AfterRelColLambdaBinder"
  | .InArrowIdent => "InArrowIdent"
  | .AfterArrowName => "AfterArrowName"
  | .InRelAggReduceBinder => "InRelAggReduceBinder"
  | .AfterRelAggReduceBinder => "AfterRelAggReduceBinder"

def State.index : State → Nat
  | .Start => 0
  | .ExpectSource => 1
  | .AfterBraceOpen => 2
  | .BlockStmt => 3
  | .BlockStmtClose => 4
  | .InSourceIdent => 5
  | .SourceColon => 6
  | .SourceColon2 => 7
  | .SourceDash => 8
  | .LetL => 9
  | .LetLe => 10
  | .LetLet => 11
  | .ExpectBinder => 12
  | .InBinder => 13
  | .AfterBinder => 14
  | .InMultiplicity => 15
  | .ExpectBraceBinder => 16
  | .AfterColonWs => 17
  | .ExpectValue => 18
  | .ExpectValueReq => 19
  | .AfterValue => 20
  | .InIdent => 21
  | .SawNumSign => 22
  | .InNumberInt => 23
  | .NeedFracDigit => 24
  | .InNumberFrac => 25
  | .InStrLit false => 26
  | .InStrLit true => 27
  | .SawPercent => 28
  | .InDateLit => 29
  | .AfterDollar => 30
  | .AfterDot => 31
  | .AfterArrow => 32
  | .AfterColon => 33
  | .AfterColon2 => 34
  | .SawDash => 35
  | .SawPipe => 36
  | .SawEq => 37
  | .SawBang => 38
  | .SawGt => 39
  | .SawLt => 40
  | .SawAmp => 41
  | .InMilestoneLit => 42
  | .SawTilde => 43
  | .SawExp => 44
  | .NeedExpDigit => 45
  | .InExp => 46
  | .AfterName => 47
  | .MilestoneL => 48
  | .MilestoneLa => 49
  | .MilestoneLat => 50
  | .MilestoneLate => 51
  | .MilestoneLates => 52
  | .InBinderType => 53
  | .AfterBinderType => 54
  | .BinderTypeColon => 55
  | .BinderTypeColon2 => 56
  | .ExpectBinderMult => 57
  | .InBinderMult => 58
  | .AfterBinderMultToken => 59
  | .AfterBinderMult => 60
  | .ExpectLambdaBody => 61
  | .AfterMemberName => 62
  | .InMemberIdent => 63
  | .AfterStrLit => 64
  | .DateSep => 65
  | .InDateTime => 66
  | .DateTimeSep => 67
  | .DateFrac => 68
  | .InDateFrac => 69
  | .SawValuePipe => 70
  | .InBinderTypePath => 71
  | .AfterBinderTypePath => 72
  | .AfterValueColon => 73
  | .ExpectBinderValue => 74
  | .InBinderValueIdent => 75
  | .ExpectBinderCallClose => 76
  | .InRelColIdent => 77
  | .InRelColStrLit false => 78
  | .InRelColStrLit true => 79
  | .AfterRelColName => 80
  | .ExpectRelColSpec => 81
  | .ExpectRelColSpecReq => 82
  | .AfterRelColColon => 83
  | .InRelColLambdaBinder => 84
  | .AfterRelColLambdaBinder => 85
  | .InArrowIdent => 86
  | .AfterArrowName => 87
  | .InRelAggReduceBinder => 88
  | .AfterRelAggReduceBinder => 89

/-- Every state, in the order of its index. -/
def State.all : List State :=
  [.Start, .ExpectSource, .AfterBraceOpen, .BlockStmt, .BlockStmtClose, .InSourceIdent,
    .SourceColon, .SourceColon2, .SourceDash, .LetL, .LetLe, .LetLet, .ExpectBinder, .InBinder,
    .AfterBinder, .InMultiplicity, .ExpectBraceBinder, .AfterColonWs, .ExpectValue,
    .ExpectValueReq, .AfterValue, .InIdent, .SawNumSign, .InNumberInt, .NeedFracDigit,
    .InNumberFrac, .InStrLit false, .InStrLit true, .SawPercent, .InDateLit, .AfterDollar,
    .AfterDot, .AfterArrow, .AfterColon, .AfterColon2, .SawDash, .SawPipe, .SawEq, .SawBang,
    .SawGt, .SawLt, .SawAmp, .InMilestoneLit, .SawTilde, .SawExp, .NeedExpDigit, .InExp,
    .AfterName, .MilestoneL, .MilestoneLa, .MilestoneLat, .MilestoneLate, .MilestoneLates,
    .InBinderType, .AfterBinderType, .BinderTypeColon, .BinderTypeColon2, .ExpectBinderMult,
    .InBinderMult, .AfterBinderMultToken, .AfterBinderMult, .ExpectLambdaBody, .AfterMemberName,
    .InMemberIdent, .AfterStrLit, .DateSep, .InDateTime, .DateTimeSep, .DateFrac, .InDateFrac,
    .SawValuePipe, .InBinderTypePath, .AfterBinderTypePath, .AfterValueColon,
    .ExpectBinderValue, .InBinderValueIdent, .ExpectBinderCallClose, .InRelColIdent,
    .InRelColStrLit false, .InRelColStrLit true, .AfterRelColName, .ExpectRelColSpec,
    .ExpectRelColSpecReq, .AfterRelColColon, .InRelColLambdaBinder, .AfterRelColLambdaBinder,
    .InArrowIdent, .AfterArrowName, .InRelAggReduceBinder, .AfterRelAggReduceBinder]

theorem State.all_index (s : State) : State.all[s.index]? = some s := by
  cases s with
  | InStrLit e => cases e <;> rfl
  | InRelColStrLit e => cases e <;> rfl
  | _ => rfl

theorem State.mem_all (s : State) : s ∈ State.all :=
  List.mem_of_getElem? s.all_index

theorem State.index_inj {s t : State} (h : s.index = t.index) : s = t := by
  have hs := s.all_index
  rw [h, t.all_index] at hs
  exact (Option.some.inj hs).symm

instance {p : State → Prop} [DecidablePred p] : Decidable (∀ s, p s) :=
  decidable_of_iff (∀ s ∈ State.all, p s) ⟨fun h s => h s s.mem_all, fun h s _ => h s⟩

/-- The number of slots of a cache that has one for each state. -/
def State.COUNT : Nat := 90

/-- The states in which a completed term stands, open to a suffix or an operator. -/
def State.completesATerm : State → Bool
  | .AfterValue | .AfterName | .AfterMemberName | .AfterStrLit | .AfterRelColName => true
  | _ => false

/-- The states where a `$` may open a variable reference. -/
def State.opensRefvarSigil : State → Bool
  | .ExpectValue | .ExpectValueReq | .ExpectLambdaBody | .BlockStmt | .BlockStmtClose
  | .SawDash | .SawPipe | .SawLt | .SawGt => true
  | _ => false

/-- The kinds of lexeme that a state is inside of. -/
inductive LexKind where
  | Ident
  | Number
  | Str
  | Date
deriving DecidableEq, Repr

/-- The kind of lexeme that a state is inside of, if it is inside of one. -/
def State.lexemeKind : State → Option LexKind
  | .InIdent | .InMemberIdent | .InSourceIdent | .InBinderValueIdent | .InBinder
  | .InBinderType | .SourceColon | .SourceColon2 | .BinderTypeColon | .BinderTypeColon2
  | .InBinderTypePath | .LetL | .LetLe | .LetLet | .InRelColIdent | .InRelColLambdaBinder
  | .InArrowIdent | .InRelAggReduceBinder => some .Ident
  | .SawNumSign | .InNumberInt | .NeedFracDigit | .InNumberFrac | .SawExp | .NeedExpDigit
  | .InExp => some .Number
  | .SawPercent | .InDateLit | .DateSep | .InDateTime | .DateTimeSep | .DateFrac | .InDateFrac
  | .MilestoneL | .MilestoneLa | .MilestoneLat | .MilestoneLate | .MilestoneLates
  | .InMilestoneLit => some .Date
  | .InStrLit _ | .InRelColStrLit _ => some .Str
  | _ => none

/-- The kind of delimiter that is open. -/
inductive Frame where
  | Paren
  | Group
  | Bracket
  | Brace
  | BraceLambda
  | RelColBracket
deriving DecidableEq, Repr

def Frame.name : Frame → String
  | .Paren => "Paren"
  | .Group => "Group"
  | .Bracket => "Bracket"
  | .Brace => "Brace"
  | .BraceLambda => "BraceLambda"
  | .RelColBracket => "RelColBracket"

def ALL_FRAMES : List Frame := [.Paren, .Group, .Bracket, .Brace, .BraceLambda, .RelColBracket]

theorem Frame.mem_all (f : Frame) : f ∈ ALL_FRAMES := by
  cases f <;> decide

instance {p : Frame → Prop} [DecidablePred p] : Decidable (∀ f, p f) :=
  decidable_of_iff (∀ f ∈ ALL_FRAMES, p f) ⟨fun h f => h f f.mem_all, fun h f _ => h f⟩

instance {p : Option Frame → Prop} [DecidablePred p] : Decidable (∀ top, p top) :=
  decidable_of_iff (p none ∧ ∀ f, p (some f)) Option.forall.symm

abbrev Step := Move State Frame

/-! ## Byte classes -/

def isWs (byte : UInt8) : Bool := byte = ' ' || byte = '\t' || byte = '\n' || byte = '\r'

def isAsciiDigit (byte : UInt8) : Bool := '0' ≤ byte && byte ≤ '9'

def isAsciiAlphabetic (byte : UInt8) : Bool :=
  ('a' ≤ byte && byte ≤ 'z') || ('A' ≤ byte && byte ≤ 'Z')

def isIdentStart (byte : UInt8) : Bool := isAsciiAlphabetic byte || byte = '_'

def isIdentTail (byte : UInt8) : Bool :=
  isAsciiAlphabetic byte || isAsciiDigit byte || byte = '_'

/-- The single quote. -/
abbrev QUOTE : UInt8 := 39

/-- The byte a completed value is probed with. -/
abbrev VALUE_BOUNDARY : UInt8 := ' '

/-! ## The frames that separate and that close -/

/-- The frames whose elements a `,` separates. -/
def separatesElements : Option Frame → Bool
  | some .Paren | some .Bracket | some .BraceLambda | some .RelColBracket => true
  | _ => false

/-- The frames in which the binder of a lambda may stand. -/
def holdsALambdaSlot (top : Option Frame) : Bool :=
  separatesElements top || top = some .Group

/-- A closer pops the frame it belongs to, and no other. -/
def closeTo (top : Option Frame) (byte : UInt8) (resume : State) : Step :=
  match top with
  | some .Paren | some .Group => if byte = ')' then .Pop resume else .Dead
  | some .Bracket | some .RelColBracket => if byte = ']' then .Pop resume else .Dead
  | some .Brace | some .BraceLambda => if byte = '}' then .Pop resume else .Dead
  | none => .Dead

def close (top : Option Frame) (byte : UInt8) : Step := closeTo top byte .AfterValue

/-! ## The transition function, one state at a time -/

/-- Where a value is expected: what opens one, and with `allowClose` the closer of a list
that is still empty. -/
def valuePosition (top : Option Frame) (byte : UInt8) (allowClose : Bool) : Step :=
  if isWs byte then .Next (if allowClose then .ExpectValue else .ExpectValueReq)
  else if isIdentStart byte then .Next .InIdent
  else if isAsciiDigit byte then .Next .InNumberInt
  else if byte = '-' then .Next .SawNumSign
  else if byte = '.' then .Next .NeedFracDigit
  else if byte = QUOTE then .Next (.InStrLit false)
  else if byte = '%' then .Next .SawPercent
  else if byte = '$' then .Next .AfterDollar
  else if byte = '~' then .Next .SawTilde
  -- no name stands before this `(`, so it opens a group and not a call
  else if byte = '(' then .Push .Group .ExpectValue
  else if byte = '[' then .Push .Bracket .ExpectValue
  else if byte = '{' then .Push .BraceLambda .ExpectBraceBinder
  else if byte = '|' then .Next .ExpectValueReq
  else if byte = '!' then .Next .ExpectValueReq
  -- a `*` is only ever a multiplicity, alone in its bracket
  else if byte = '*' && allowClose && top = some .Bracket then .Next .InMultiplicity
  else if (byte = ')' || byte = ']' || byte = '}') && allowClose then close top byte
  else .Dead

/-- Where a column of a relation is expected, by its name or by its quoted name. -/
def relColSpecPosition (top : Option Frame) (byte : UInt8) (allowClose : Bool) : Step :=
  if isWs byte then .Next (if allowClose then .ExpectRelColSpec else .ExpectRelColSpecReq)
  else if isIdentStart byte then .Next .InRelColIdent
  else if byte = QUOTE then .Next (.InRelColStrLit false)
  else if byte = ']' && allowClose then close top byte
  else .Dead

def stepExpectRelColSpec (top : Option Frame) (byte : UInt8) : Step :=
  relColSpecPosition top byte true

def stepExpectRelColSpecReq (top : Option Frame) (byte : UInt8) : Step :=
  relColSpecPosition top byte false

/-- Where a statement of a block is expected. With `allowClose` the block may end instead.
-/
def blockStmt (top : Option Frame) (byte : UInt8) (allowClose : Bool) : Step :=
  if isWs byte then .Next (if allowClose then .BlockStmtClose else .BlockStmt)
  else if byte = 'l' then .Next .LetL
  else if isIdentStart byte then .Next .InSourceIdent
  else if byte = '$' then .Next .AfterDollar
  else if byte = '}' && allowClose then close top byte
  else .Dead

/-- A query is a pipe with its source, or a block in braces. -/
def stepStart (byte : UInt8) : Step :=
  if isWs byte then .Next .Start
  else if byte = '|' then .Next .ExpectSource
  else if byte = '{' then .Push .Brace .AfterBraceOpen
  else .Dead

def stepExpectSource (byte : UInt8) : Step :=
  if isWs byte then .Next .ExpectSource
  else if isIdentStart byte then .Next .InSourceIdent
  else .Dead

def stepAfterBraceOpen (byte : UInt8) : Step :=
  if isWs byte then .Next .AfterBraceOpen
  else if byte = '|' then .Next .BlockStmt
  else .Dead

def stepBlockStmt (top : Option Frame) (byte : UInt8) : Step := blockStmt top byte false

def stepBlockStmtClose (top : Option Frame) (byte : UInt8) : Step := blockStmt top byte true

def stepExpectValue (top : Option Frame) (byte : UInt8) : Step := valuePosition top byte true

def stepExpectValueReq (top : Option Frame) (byte : UInt8) : Step := valuePosition top byte false

/-- The bytes that end a completed term. -/
def TERM_END_BYTES : List UInt8 := lit "),;]\x7d"

/-- Behind a term: an operator, a separator, or the closer of its frame. -/
def stepAfterValue (top : Option Frame) (byte : UInt8) : Step :=
  if isWs byte then .Next .AfterValue
  else if byte = '-' then .Next .SawDash
  else if byte = '>' then .Next .SawGt
  else if byte = '<' then .Next .SawLt
  else if byte = '=' then .Next .SawEq
  else if byte = '!' then .Next .SawBang
  else if byte = '&' then .Next .SawAmp
  -- only an identifier names a lambda binder, so here a pipe can only open `||`
  else if byte = '|' then .Next .SawValuePipe
  else if byte = '+' || byte = '*' || byte = '/' then .Next .ExpectValueReq
  else if byte = '.' then .Next .AfterDot
  else if byte = ':' && holdsALambdaSlot top then .Next .AfterValueColon
  else if byte = ',' && top = some .RelColBracket then .Next .ExpectRelColSpecReq
  else if byte = ',' && separatesElements top then .Next .ExpectValueReq
  else if byte = ';' && top = some .Brace then .Next .BlockStmtClose
  else if byte = ')' || byte = ']' || byte = '}' then close top byte
  else .Dead

/-- A name may be called, bind a lambda, or be typed. Else it is a term. -/
def stepAfterName (top : Option Frame) (byte : UInt8) : Step :=
  if isWs byte then .Next .AfterName
  else if byte = '(' then .Push .Paren .ExpectValue
  else if byte = '|' then .Next .SawPipe
  else if byte = ':' then .Next .AfterColon
  else stepAfterValue top byte

def stepInIdent (top : Option Frame) (byte : UInt8) : Step :=
  if isIdentTail byte then .Next .InIdent else stepAfterName top byte

/-- The name of a member may be called. Else it is a term. -/
def stepAfterMemberName (top : Option Frame) (byte : UInt8) : Step :=
  if isWs byte then .Next .AfterMemberName
  else if byte = '(' then .Push .Paren .ExpectValue
  else stepAfterValue top byte

def stepInMemberIdent (top : Option Frame) (byte : UInt8) : Step :=
  if isIdentTail byte then .Next .InMemberIdent else stepAfterMemberName top byte

/-- The name of an arrow step takes its call and nothing else. -/
def stepAfterArrowName (byte : UInt8) : Step :=
  if isWs byte then .Next .AfterArrowName
  else if byte = '(' then .Push .Paren .ExpectValue
  else .Dead

def stepInArrowIdent (byte : UInt8) : Step :=
  if isIdentTail byte then .Next .InArrowIdent else stepAfterArrowName byte

/-- A quoted name may bind a lambda or be typed, as a name may. -/
def stepAfterStrLit (top : Option Frame) (byte : UInt8) : Step :=
  if isWs byte then .Next .AfterStrLit
  else if byte = '|' then .Next .SawPipe
  else if byte = ':' then .Next .AfterColon
  else stepAfterValue top byte

/-- The name of a column takes its lambda behind a colon, and never a pipe. -/
def stepAfterRelColName (top : Option Frame) (byte : UInt8) : Step :=
  if isWs byte then .Next .AfterRelColName
  else if byte = ':' then .Next .AfterRelColColon
  else if byte = '|' then .Dead
  else stepAfterValue top byte

def stepInRelColIdent (top : Option Frame) (byte : UInt8) : Step :=
  if isIdentTail byte then .Next .InRelColIdent else stepAfterRelColName top byte

/-- A quote that closes the name of a column may turn out to be doubled. -/
def stepInRelColStrLit (escaped : Bool) (top : Option Frame) (byte : UInt8) : Step :=
  if escaped then
    if byte = QUOTE then .Next (.InRelColStrLit false) else stepAfterRelColName top byte
  else if byte = QUOTE then .Next (.InRelColStrLit true)
  else .Next (.InRelColStrLit false)

/-- Behind the colon of a column: a lambda in braces or its binder. -/
def stepAfterRelColColon (byte : UInt8) : Step :=
  if isWs byte then .Next .AfterRelColColon
  else if byte = '{' then .Push .BraceLambda .ExpectBraceBinder
  else if isIdentStart byte then .Next .InRelColLambdaBinder
  else .Dead

def stepAfterRelColLambdaBinder (byte : UInt8) : Step :=
  if isWs byte then .Next .AfterRelColLambdaBinder
  else if byte = '|' then .Next .SawPipe
  else .Dead

def stepInRelColLambdaBinder (byte : UInt8) : Step :=
  if isIdentTail byte then .Next .InRelColLambdaBinder else stepAfterRelColLambdaBinder byte

/-- Behind a lambda of an aggregate stands the binder of the one that reduces. -/
def stepAfterValueColon (byte : UInt8) : Step :=
  if isWs byte then .Next .AfterValueColon
  else if isIdentStart byte then .Next .InRelAggReduceBinder
  else .Dead

def stepAfterRelAggReduceBinder (byte : UInt8) : Step :=
  if isWs byte then .Next .AfterRelAggReduceBinder
  else if byte = '|' then .Next .SawPipe
  else .Dead

def stepInRelAggReduceBinder (byte : UInt8) : Step :=
  if isIdentTail byte then .Next .InRelAggReduceBinder else stepAfterRelAggReduceBinder byte

/-- A source classpath, and with `allowCall` the value of a `let`, which may
also be a call with no argument. -/
def sourceIdent (byte : UInt8) (allowCall : Bool) : Step :=
  if isIdentTail byte then .Next (if allowCall then .InBinderValueIdent else .InSourceIdent)
  else if byte = '.' then .Next .AfterDot
  else if byte = '-' then .Next .SourceDash
  else if byte = ':' then .Next .SourceColon
  else if byte = '(' && allowCall then .Push .Paren .ExpectBinderCallClose
  else .Dead

def stepInSourceIdent (byte : UInt8) : Step := sourceIdent byte false

def stepInBinderValueIdent (byte : UInt8) : Step := sourceIdent byte true

def stepSourceColon (byte : UInt8) : Step := if byte = ':' then .Next .SourceColon2 else .Dead

def stepSourceColon2 (byte : UInt8) : Step :=
  if isIdentStart byte then .Next .InSourceIdent else .Dead

def stepSourceDash (byte : UInt8) : Step := if byte = '>' then .Next .AfterArrow else .Dead

/-- The keyword `let` is read as a name until white space follows it. -/
def stepLetL (byte : UInt8) : Step := if byte = 'e' then .Next .LetLe else stepInSourceIdent byte

def stepLetLe (byte : UInt8) : Step := if byte = 't' then .Next .LetLet else stepInSourceIdent byte

def stepLetLet (byte : UInt8) : Step :=
  if isWs byte then .Next .ExpectBinder else stepInSourceIdent byte

def stepExpectBinder (byte : UInt8) : Step :=
  if isWs byte then .Next .ExpectBinder
  else if isIdentStart byte then .Next .InBinder
  else .Dead

def stepInBinder (byte : UInt8) : Step :=
  if isIdentTail byte then .Next .InBinder
  else if isWs byte then .Next .AfterBinder
  else if byte = '=' then .Next .ExpectBinderValue
  else .Dead

def stepAfterBinder (byte : UInt8) : Step :=
  if isWs byte then .Next .AfterBinder
  else if byte = '=' then .Next .ExpectBinderValue
  else .Dead

/-- The value of a `let`: a name with its call, or a date. -/
def stepExpectBinderValue (byte : UInt8) : Step :=
  if isWs byte then .Next .ExpectBinderValue
  else if isIdentStart byte then .Next .InBinderValueIdent
  else if byte = '%' then .Next .SawPercent
  else .Dead

/-- The call in the value of a `let` has no argument. -/
def stepExpectBinderCallClose (top : Option Frame) (byte : UInt8) : Step :=
  if isWs byte then .Next .ExpectBinderCallClose
  else if byte = ')' then close top byte
  else .Dead

def stepInMultiplicity (top : Option Frame) (byte : UInt8) : Step :=
  if byte = ']' then close top byte else .Dead

def stepExpectBraceBinder (byte : UInt8) : Step :=
  if isWs byte then .Next .ExpectBraceBinder
  else if isIdentStart byte then .Next .InIdent
  else .Dead

/-- A sign takes a digit or a decimal point. -/
def stepSawNumSign (byte : UInt8) : Step :=
  if isAsciiDigit byte then .Next .InNumberInt
  else if byte = '.' then .Next .NeedFracDigit
  else .Dead

/-- The digits of a number. What is no digit and no point stands behind the term. -/
def stepInNumberInt (top : Option Frame) (byte : UInt8) : Step :=
  if isAsciiDigit byte then .Next .InNumberInt
  else if byte = '.' then .Next .NeedFracDigit
  else stepAfterValue top byte

def stepNeedFracDigit (byte : UInt8) : Step :=
  if isAsciiDigit byte then .Next .InNumberFrac else .Dead

def stepInNumberFrac (top : Option Frame) (byte : UInt8) : Step :=
  if isAsciiDigit byte then .Next .InNumberFrac
  else if byte = 'e' || byte = 'E' then .Next .SawExp
  else stepAfterValue top byte

def stepSawExp (byte : UInt8) : Step :=
  if byte = '+' || byte = '-' then .Next .NeedExpDigit
  else if isAsciiDigit byte then .Next .InExp
  else .Dead

def stepNeedExpDigit (byte : UInt8) : Step :=
  if isAsciiDigit byte then .Next .InExp else .Dead

def stepInExp (top : Option Frame) (byte : UInt8) : Step :=
  if isAsciiDigit byte then .Next .InExp else stepAfterValue top byte

/-- A quote in a literal ends it unless a second one follows. -/
def stepInStrLit (escaped : Bool) (top : Option Frame) (byte : UInt8) : Step :=
  if escaped then
    -- a second quote is a doubled one, any other byte comes after the literal
    if byte = QUOTE then .Next (.InStrLit false) else stepAfterStrLit top byte
  else if byte = QUOTE then .Next (.InStrLit true)
  else .Next (.InStrLit false)

/-- A `%` opens a date at a digit and the keyword `latest` at its `l`. -/
def stepSawPercent (byte : UInt8) : Step :=
  if isAsciiDigit byte then .Next .InDateLit
  else if byte = 'l' then .Next .MilestoneL
  else .Dead

/-- One link of the chain that spells the keyword `latest`. -/
def milestoneLink (expected : UInt8) (next : State) (byte : UInt8) : Step :=
  if byte = expected then .Next next else .Dead

/-- A date, up to the `:` that makes it a time. -/
def stepInDateLit (top : Option Frame) (byte : UInt8) : Step :=
  if isAsciiDigit byte then .Next .InDateLit
  else if byte = '-' || byte = 'T' then .Next .DateSep
  else if byte = ':' then .Next .DateTimeSep
  else stepAfterValue top byte

/-- One digit of a field of a date. -/
def dateField (next : State) (byte : UInt8) : Step :=
  if isAsciiDigit byte then .Next next else .Dead

def stepDateSep (byte : UInt8) : Step := dateField .InDateLit byte

def stepDateTimeSep (byte : UInt8) : Step := dateField .InDateTime byte

def stepInDateTime (top : Option Frame) (byte : UInt8) : Step :=
  if isAsciiDigit byte then .Next .InDateTime
  else if byte = '-' || byte = ':' then .Next .DateTimeSep
  else if byte = '.' then .Next .DateFrac
  else stepAfterValue top byte

def stepDateFrac (byte : UInt8) : Step := dateField .InDateFrac byte

def stepInDateFrac (top : Option Frame) (byte : UInt8) : Step :=
  if isAsciiDigit byte then .Next .InDateFrac else stepAfterValue top byte

def stepInMilestoneLit (top : Option Frame) (byte : UInt8) : Step := stepAfterValue top byte

def stepAfterDollar (byte : UInt8) : Step :=
  if isIdentStart byte then .Next .InMemberIdent else .Dead

def stepAfterDot (byte : UInt8) : Step :=
  if isWs byte then .Next .AfterDot
  else if isIdentStart byte then .Next .InMemberIdent
  else if byte = QUOTE then .Next (.InStrLit false)
  else .Dead

def stepAfterArrow (byte : UInt8) : Step :=
  if isWs byte then .Next .AfterArrow
  else if isIdentStart byte then .Next .InArrowIdent
  else .Dead

/-- Behind the colon of a name: a second one of a path, or the type of a binder where the
frame holds lambdas. -/
def stepAfterColon (top : Option Frame) (byte : UInt8) : Step :=
  if byte = ':' then .Next .AfterColon2
  else if !holdsALambdaSlot top then .Dead
  else if isWs byte then .Next .AfterColonWs
  else if isIdentStart byte then .Next .InBinderType
  else if byte = '{' then .Push .BraceLambda .ExpectBraceBinder
  else .Dead

def stepAfterColonWs (byte : UInt8) : Step :=
  if isWs byte then .Next .AfterColonWs
  else if isIdentStart byte then .Next .InBinderType
  else if byte = '{' then .Push .BraceLambda .ExpectBraceBinder
  else .Dead

def stepAfterColon2 (byte : UInt8) : Step :=
  if isIdentStart byte then .Next .InIdent else .Dead

/-- The type of a binder: a name, a path, or a name with its multiplicity. -/
def stepInBinderType (byte : UInt8) : Step :=
  if isIdentTail byte then .Next .InBinderType
  else if byte = ':' then .Next .BinderTypeColon
  else if isWs byte then .Next .AfterBinderType
  else if byte = '[' then .Push .Bracket .ExpectBinderMult
  else if byte = '|' then .Next .ExpectLambdaBody
  else .Dead

def stepAfterBinderType (byte : UInt8) : Step :=
  if isWs byte then .Next .AfterBinderType
  else if byte = ':' then .Next .BinderTypeColon
  else if byte = '[' then .Push .Bracket .ExpectBinderMult
  else if byte = '|' then .Next .ExpectLambdaBody
  else .Dead

def stepBinderTypeColon (byte : UInt8) : Step :=
  if byte = ':' then .Next .BinderTypeColon2 else .Dead

def stepBinderTypeColon2 (byte : UInt8) : Step :=
  if isIdentStart byte then .Next .InBinderTypePath else .Dead

def stepInBinderTypePath (byte : UInt8) : Step :=
  if isIdentTail byte then .Next .InBinderTypePath
  else if byte = ':' then .Next .BinderTypeColon
  else if isWs byte then .Next .AfterBinderTypePath
  else if byte = '[' then .Push .Bracket .ExpectBinderMult
  else .Dead

def stepAfterBinderTypePath (byte : UInt8) : Step :=
  if isWs byte then .Next .AfterBinderTypePath
  else if byte = ':' then .Next .BinderTypeColon
  else if byte = '[' then .Push .Bracket .ExpectBinderMult
  else .Dead

def stepExpectBinderMult (byte : UInt8) : Step :=
  if isWs byte then .Next .ExpectBinderMult
  else if isAsciiDigit byte then .Next .InBinderMult
  else if byte = '*' then .Next .AfterBinderMultToken
  else .Dead

def stepInBinderMult (top : Option Frame) (byte : UInt8) : Step :=
  if isAsciiDigit byte then .Next .InBinderMult
  else if isWs byte then .Next .AfterBinderMultToken
  else if byte = ']' then closeTo top byte .AfterBinderMult
  else .Dead

def stepAfterBinderMultToken (top : Option Frame) (byte : UInt8) : Step :=
  if isWs byte then .Next .AfterBinderMultToken
  else if byte = ']' then closeTo top byte .AfterBinderMult
  else .Dead

/-- Behind the multiplicity the body follows, or in braces the next binder. -/
def stepAfterBinderMult (top : Option Frame) (byte : UInt8) : Step :=
  if isWs byte then .Next .AfterBinderMult
  else if byte = '|' then .Next .ExpectLambdaBody
  else if byte = ',' && top = some .BraceLambda then .Next .ExpectBraceBinder
  else .Dead

def stepExpectLambdaBody (top : Option Frame) (byte : UInt8) : Step :=
  if byte = '|' then .Dead else stepExpectValueReq top byte

def stepSawDash (top : Option Frame) (byte : UInt8) : Step :=
  if byte = '>' then .Next .AfterArrow else stepExpectValueReq top byte

/-- A second pipe is the operator. Else the body of a lambda begins. -/
def stepSawPipe (top : Option Frame) (byte : UInt8) : Step :=
  if byte = '|' then .Next .ExpectValueReq
  else if !holdsALambdaSlot top then .Dead
  else stepExpectValueReq top byte

def stepSawValuePipe (byte : UInt8) : Step :=
  if byte = '|' then .Next .ExpectValueReq else .Dead

def stepSawEq (byte : UInt8) : Step := if byte = '=' then .Next .ExpectValueReq else .Dead

def stepSawBang (byte : UInt8) : Step := if byte = '=' then .Next .ExpectValueReq else .Dead

def stepSawGt (top : Option Frame) (byte : UInt8) : Step :=
  if byte = '=' then .Next .ExpectValueReq else stepExpectValueReq top byte

def stepSawLt (top : Option Frame) (byte : UInt8) : Step :=
  if byte = '=' then .Next .ExpectValueReq else stepExpectValueReq top byte

def stepSawAmp (byte : UInt8) : Step := if byte = '&' then .Next .ExpectValueReq else .Dead

/-- A tilde opens a list of columns or names one column. -/
def stepSawTilde (byte : UInt8) : Step :=
  if byte = '[' then .Push .RelColBracket .ExpectRelColSpec
  else if byte = QUOTE then .Next (.InRelColStrLit false)
  else if isIdentStart byte then .Next .InRelColIdent
  else .Dead

/-- The transition function: state, frame on top of the stack, byte. -/
def step (state : State) (top : Option Frame) (byte : UInt8) : Step :=
  match state with
  | .Start => stepStart byte
  | .ExpectSource => stepExpectSource byte
  | .AfterBraceOpen => stepAfterBraceOpen byte
  | .BlockStmt => stepBlockStmt top byte
  | .BlockStmtClose => stepBlockStmtClose top byte
  | .InSourceIdent => stepInSourceIdent byte
  | .SourceColon => stepSourceColon byte
  | .SourceColon2 => stepSourceColon2 byte
  | .SourceDash => stepSourceDash byte
  | .LetL => stepLetL byte
  | .LetLe => stepLetLe byte
  | .LetLet => stepLetLet byte
  | .ExpectBinder => stepExpectBinder byte
  | .InBinder => stepInBinder byte
  | .AfterBinder => stepAfterBinder byte
  | .ExpectBinderValue => stepExpectBinderValue byte
  | .InBinderValueIdent => stepInBinderValueIdent byte
  | .ExpectBinderCallClose => stepExpectBinderCallClose top byte
  | .InMultiplicity => stepInMultiplicity top byte
  | .ExpectBraceBinder => stepExpectBraceBinder byte
  | .AfterColonWs => stepAfterColonWs byte
  | .ExpectValue => stepExpectValue top byte
  | .ExpectValueReq => stepExpectValueReq top byte
  | .AfterValue => stepAfterValue top byte
  | .AfterName => stepAfterName top byte
  | .AfterMemberName => stepAfterMemberName top byte
  | .AfterStrLit => stepAfterStrLit top byte
  | .InIdent => stepInIdent top byte
  | .InMemberIdent => stepInMemberIdent top byte
  | .SawNumSign => stepSawNumSign byte
  | .InNumberInt => stepInNumberInt top byte
  | .NeedFracDigit => stepNeedFracDigit byte
  | .InNumberFrac => stepInNumberFrac top byte
  | .SawExp => stepSawExp byte
  | .NeedExpDigit => stepNeedExpDigit byte
  | .InExp => stepInExp top byte
  | .InStrLit escaped => stepInStrLit escaped top byte
  | .SawPercent => stepSawPercent byte
  | .InDateLit => stepInDateLit top byte
  | .DateSep => stepDateSep byte
  | .InDateTime => stepInDateTime top byte
  | .DateTimeSep => stepDateTimeSep byte
  | .DateFrac => stepDateFrac byte
  | .InDateFrac => stepInDateFrac top byte
  | .MilestoneL => milestoneLink 'a' .MilestoneLa byte
  | .MilestoneLa => milestoneLink 't' .MilestoneLat byte
  | .MilestoneLat => milestoneLink 'e' .MilestoneLate byte
  | .MilestoneLate => milestoneLink 's' .MilestoneLates byte
  | .MilestoneLates => milestoneLink 't' .InMilestoneLit byte
  | .InMilestoneLit => stepInMilestoneLit top byte
  | .AfterDollar => stepAfterDollar byte
  | .AfterDot => stepAfterDot byte
  | .AfterArrow => stepAfterArrow byte
  | .AfterColon => stepAfterColon top byte
  | .AfterValueColon => stepAfterValueColon byte
  | .AfterColon2 => stepAfterColon2 byte
  | .InBinderType => stepInBinderType byte
  | .AfterBinderType => stepAfterBinderType byte
  | .BinderTypeColon => stepBinderTypeColon byte
  | .BinderTypeColon2 => stepBinderTypeColon2 byte
  | .InBinderTypePath => stepInBinderTypePath byte
  | .AfterBinderTypePath => stepAfterBinderTypePath byte
  | .ExpectBinderMult => stepExpectBinderMult byte
  | .InBinderMult => stepInBinderMult top byte
  | .AfterBinderMultToken => stepAfterBinderMultToken top byte
  | .AfterBinderMult => stepAfterBinderMult top byte
  | .ExpectLambdaBody => stepExpectLambdaBody top byte
  | .SawDash => stepSawDash top byte
  | .SawPipe => stepSawPipe top byte
  | .SawValuePipe => stepSawValuePipe byte
  | .SawEq => stepSawEq byte
  | .SawBang => stepSawBang byte
  | .SawGt => stepSawGt top byte
  | .SawLt => stepSawLt top byte
  | .SawAmp => stepSawAmp byte
  | .SawTilde => stepSawTilde byte
  | .InRelColIdent => stepInRelColIdent top byte
  | .InRelColStrLit escaped => stepInRelColStrLit escaped top byte
  | .AfterRelColName => stepAfterRelColName top byte
  | .ExpectRelColSpec => stepExpectRelColSpec top byte
  | .ExpectRelColSpecReq => stepExpectRelColSpecReq top byte
  | .AfterRelColColon => stepAfterRelColColon byte
  | .InRelColLambdaBinder => stepInRelColLambdaBinder byte
  | .AfterRelColLambdaBinder => stepAfterRelColLambdaBinder byte
  | .InArrowIdent => stepInArrowIdent byte
  | .AfterArrowName => stepAfterArrowName byte
  | .InRelAggReduceBinder => stepInRelAggReduceBinder byte
  | .AfterRelAggReduceBinder => stepAfterRelAggReduceBinder byte

/-! ## The driver -/

/-- The report of a byte that has no continuation. -/
structure DeadState where
  state : String
  stack_top : String
deriving DecidableEq, Repr

/-- A live automaton: its state and its open frames, the frame on top first. -/
abbrev Pda := Config State Frame

def Pda.new : Pda := ⟨.Start, []⟩

/-- An automaton in `state` with no open frame. -/
def Pda.atState (state : State) : Pda := ⟨state, []⟩

def Pda.stackTop (p : Pda) : Option Frame := p.stack.head?

/-- Reads one byte. An error leaves the automaton as it was. -/
def Pda.advance (p : Pda) (byte : UInt8) : Except DeadState Pda :=
  match step p.state (Pda.stackTop p) byte with
  | .Next next => .ok ⟨next, p.stack⟩
  | .Push frame next => .ok ⟨next, frame :: p.stack⟩
  | .Pop next => .ok ⟨next, p.stack.tail⟩
  | .Dead => .error ⟨p.state.name, (Pda.stackTop p).elim "none" Frame.name⟩

/-- The stack is empty, and a space would take the state to a completed term. -/
def Pda.isAccepting (p : Pda) : Bool :=
  p.stack.isEmpty && match step p.state none VALUE_BOUNDARY with
    | .Next next => next.completesATerm
    | _ => false

/-- Whether every byte of a token keeps a copy of the automaton alive. -/
def Pda.admits (p : Pda) (bytes : List UInt8) : Bool := (Config.run step p bytes).isSome

/-- The same replay, which also says if a dead byte asked for a frame that
the automaton does not hold. -/
def Pda.probe (p : Pda) (bytes : List UInt8) : Probe := pushdown.probe step ALL_FRAMES p bytes

/-- The automaton takes a byte as the machine of its table does. -/
theorem advance_eq (p : Pda) (byte : UInt8) :
    (Pda.advance p byte).toOption = Config.advance step p byte := by
  unfold Pda.advance Config.advance Config.apply Pda.stackTop
  split <;> simp_all [Except.toOption]

end purecard.pda
