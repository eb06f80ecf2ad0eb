-- The token layer (`pure-analyzer-lexer`): a pattern for each kind of token, the
-- longest one at each place, and the ranges of the tokens of a text.
import PureAnalyzer.Document
import PureAnalyzer.Regex

namespace analyzer.lexer

open document

/-- The names are those of the source. -/
inductive SyntaxKind where
  | DATE_TIME
  | STRICT_DATE
  | LATEST_DATE
  | PERCENT
  | TILDE
  | DOLLAR
  | ARROW
  | PIPE
  | AT
  | NEW_SYMBOL
  | DOT
  | COMMA
  | PATH_SEPARATOR
  | COLON
  | PAREN_OPEN
  | PAREN_CLOSE
  | BRACKET_OPEN
  | BRACKET_CLOSE
  | EQ
  | NEQ
  | PLUS
  | MINUS
  | STAR
  | SLASH
  | LE
  | LT
  | GE
  | GT
  | SEMICOLON
  | BRACE_OPEN
  | BRACE_CLOSE
  | ALL_KW
  | LET_KW
  | ALL_VERSIONS_KW
  | ALL_VERSIONS_IN_RANGE_KW
  | TO_BYTES_KW
  | IDENT
  | INTEGER
  | BOOLEAN
  | STRING
  | HASH_STORE_OPEN
  | HASH_ISLAND_OPEN
  | NAV_PATH_BLOCK
  | ISLAND_END
  | HASH
  | WHITESPACE
  | LINE_COMMENT
  | BLOCK_COMMENT
  | ERROR
  | ASSIGN
deriving DecidableEq, Repr

/-! ## The patterns -/

abbrev Pattern := Regex Char

def one (c : Char) : Pattern := .letter (· = c)

def notOne (c : Char) : Pattern := .letter (· ≠ c)

def digit : Pattern := .letter fun c => '0' ≤ c && c ≤ '9'

def identStart : Pattern :=
  .letter fun c => ('A' ≤ c && c ≤ 'Z') || ('a' ≤ c && c ≤ 'z') || c = '_'

def identTail : Pattern :=
  .letter fun c => ('A' ≤ c && c ≤ 'Z') || ('a' ≤ c && c ≤ 'z') || ('0' ≤ c && c ≤ '9') || c = '_'

def digits : Nat → Pattern
  | 0 => .epsilon
  | n + 1 => .seq digit (digits n)

/-- `%[0-9]{4}-[0-9]{2}-[0-9]{2}` -/
def strictDate : Pattern :=
  .seq (one '%') (.seq (digits 4) (.seq (one '-') (.seq (digits 2) (.seq (one '-') (digits 2)))))

/-- The date, and `T[0-9]{2}:[0-9]{2}:[0-9]{2}` -/
def dateTime : Pattern :=
  .seq strictDate (.seq (one 'T') (.seq (digits 2) (.seq (one ':') (.seq (digits 2)
    (.seq (one ':') (digits 2))))))

/-- `[A-Za-z_][A-Za-z0-9_]*` -/
def ident : Pattern := .seq identStart (.star identTail)

/-- `'([^']|'')*'` -/
def string : Pattern :=
  .seq (one '\'') (.seq (.star (.alt (notOne '\'') (.word ['\'', '\'']))) (one '\''))

/-- `#/[^#]*#` -/
def navPathBlock : Pattern := .seq (.word ['#', '/']) (.seq (.star (notOne '#')) (one '#'))

/-- `[ \t\r\n]+` -/
def whitespace : Pattern :=
  .plus (.letter fun c => c = ' ' || c = '\t' || c = '\r' || c = '\n')

/-- `//[^\n]*` -/
def lineComment : Pattern := .seq (.word ['/', '/']) (.star (notOne '\n'))

/-- `([^*]|\*[^/])*\*/`, behind the `/*` of a comment. -/
def commentTail : Pattern :=
  .seq (.star (.alt (notOne '*') (.seq (one '*') (notOne '/')))) (.word ['*', '/'])

/-- `/\*([^*]|\*[^/])*\*/` -/
def blockComment : Pattern := .seq (one '/') (.seq (one '*') commentTail)

/-- The tokens of one spelling. -/
def literals : List (SyntaxKind × List Char) :=
  [(.LATEST_DATE, ['%', 'l', 'a', 't', 'e', 's', 't']), (.PERCENT, ['%']), (.TILDE, ['~']),
    (.DOLLAR, ['$']), (.ARROW, ['-', '>']), (.PIPE, ['|']), (.AT, ['@']), (.NEW_SYMBOL, ['^']),
    (.DOT, ['.']), (.COMMA, [',']), (.PATH_SEPARATOR, [':', ':']), (.COLON, [':']),
    (.PAREN_OPEN, ['(']), (.PAREN_CLOSE, [')']), (.BRACKET_OPEN, ['[']), (.BRACKET_CLOSE, [']']),
    (.EQ, ['=', '=']), (.NEQ, ['!', '=']), (.PLUS, ['+']), (.MINUS, ['-']), (.STAR, ['*']),
    (.SLASH, ['/']), (.LE, ['<', '=']), (.LT, ['<']), (.GE, ['>', '=']), (.GT, ['>']),
    (.SEMICOLON, [';']), (.BRACE_OPEN, ['{']), (.BRACE_CLOSE, ['}']),
    (.ALL_KW, ['a', 'l', 'l']), (.LET_KW, ['l', 'e', 't']),
    (.ALL_VERSIONS_KW, ['a', 'l', 'l', 'V', 'e', 'r', 's', 'i', 'o', 'n', 's']),
    (.ALL_VERSIONS_IN_RANGE_KW, ['a', 'l', 'l', 'V', 'e', 'r', 's', 'i', 'o', 'n', 's', 'I', 'n',
      'R', 'a', 'n', 'g', 'e']),
    (.TO_BYTES_KW, ['t', 'o', 'B', 'y', 't', 'e', 's']),
    (.BOOLEAN, ['t', 'r', 'u', 'e']), (.BOOLEAN, ['f', 'a', 'l', 's', 'e']),
    (.HASH_STORE_OPEN, ['#', '>', '{']), (.HASH_ISLAND_OPEN, ['#', '{']),
    (.ISLAND_END, ['}', '#']), (.HASH, ['#']), (.ASSIGN, ['='])]

/-- A spelling wins over a pattern that takes as much. -/
def rules : List (SyntaxKind × Pattern) :=
  literals.map (fun literal => (literal.1, .word literal.2)) ++
    [(.DATE_TIME, dateTime), (.STRICT_DATE, strictDate), (.IDENT, ident), (.INTEGER, .plus digit),
      (.STRING, string), (.NAV_PATH_BLOCK, navPathBlock), (.WHITESPACE, whitespace),
      (.LINE_COMMENT, lineComment), (.BLOCK_COMMENT, blockComment)]

/-! ## Tokens -/

/-- The kind and the number of characters of the next token. What no pattern
takes is an error as long as the automaton says, one character at least. -/
def nextToken (unmatched : Str → Nat) (rest : Str) : SyntaxKind × Nat :=
  match Regex.longestOf rules rest with
  | some (kind, n + 1) => (kind, n + 1)
  | _ => (.ERROR, unmatched rest + 1)

theorem nextToken_pos (unmatched : Str → Nat) (rest : Str) : 0 < (nextToken unmatched rest).2 := by
  unfold nextToken
  split
  · exact Nat.succ_pos _
  · exact Nat.succ_pos _

/-- The tokens of a text, each with the offsets of its start and its end. -/
def spannedFrom (unmatched : Str → Nat) (start : Nat) (rest : Str) :
    List (SyntaxKind × Nat × Nat) :=
  if rest = [] then []
  else
    let token := nextToken unmatched rest
    let stop := start + len (rest.take token.2)
    (token.1, start, stop) :: spannedFrom unmatched stop (rest.drop token.2)
termination_by rest.length
decreasing_by
  have hpos := nextToken_pos unmatched rest
  have hlen : 0 < rest.length := List.length_pos_iff.mpr ‹_›
  rw [List.length_drop]
  omega

def spanned (unmatched : Str → Nat) (text : Str) : List (SyntaxKind × Nat × Nat) :=
  spannedFrom unmatched 0 text

/-- An offset that does not fit in 32 bits is the largest one. -/
def toU32 (offset : Nat) : Nat := if offset < 2 ^ 32 then offset else 2 ^ 32 - 1

def lex (unmatched : Str → Nat) (text : Str) : List (SyntaxKind × Nat × Nat) :=
  (spanned unmatched text).map fun token => (token.1, toU32 token.2.1, toU32 token.2.2)

end analyzer.lexer
