-- The byte trie of legal names (`schema/trie.rs`): nodes in one list, edges
-- sorted by byte, and the walk of a token from a cursor.
import PureAnalyzer.Pda

namespace purecard.trie

open pda

/-- What a whole name takes after its last byte: anything, or one byte. -/
inductive NameClose where
  | Free
  | MustFollow (byte : UInt8)
deriving DecidableEq, Repr

def NameClose.admits : NameClose → UInt8 → Bool
  | .Free, _ => true
  | .MustFollow required, byte => byte = required

inductive NameShape where
  | Plain
  | ClassPath
deriving DecidableEq, Repr

/-- Whether a byte goes on with the name's own lexeme. -/
def NameShape.continues (shape : NameShape) (byte : UInt8) : Bool :=
  isIdentTail byte || (shape = .ClassPath && byte = ':')

inductive Walk where
  | Stay (node : Nat)
  | Complete (node : Nat) (boundary : UInt8)
  | Diverge
deriving DecidableEq, Repr

structure Node where
  next : List (UInt8 × Nat) := []
  terminal : Bool := false
  close : NameClose := .Free
deriving DecidableEq, Repr

/-- Node `0` is the root. -/
structure Trie where
  nodes : List Node
deriving DecidableEq, Repr

namespace Trie

def root (_ : Trie) : Nat := 0

def node (t : Trie) (n : Nat) : Node := t.nodes.getD n {}

/-- The edges of a node are sorted by byte, so the search finds the edge of a
byte when there is one. -/
def child (t : Trie) (n : Nat) (byte : UInt8) : Option Nat := (t.node n).next.lookup byte

/-- Puts an edge at its place among the edges sorted by byte. -/
def insertEdge (byte : UInt8) (child : Nat) : List (UInt8 × Nat) → List (UInt8 × Nat)
  | [] => [(byte, child)]
  | (b, c) :: edges =>
    if b < byte then (b, c) :: insertEdge byte child edges else (byte, child) :: (b, c) :: edges

/-- Goes to the child of a byte, which is a new node when there is none. -/
def descend (t : Trie) (n : Nat) (byte : UInt8) : Trie × Nat :=
  match t.child n byte with
  | some c => (t, c)
  | none =>
    let nodes := t.nodes ++ [{}]
    (⟨nodes.modify n fun nd => { nd with next := insertEdge byte t.nodes.length nd.next }⟩,
      t.nodes.length)

/-- Goes down a name from a node, and gives the node it ends at. -/
def extend (t : Trie) (n : Nat) : List UInt8 → Trie × Nat
  | [] => (t, n)
  | byte :: rest => (t.descend n byte).1.extend (t.descend n byte).2 rest

def insert (t : Trie) (name : List UInt8) (close : NameClose) : Trie :=
  ⟨(t.extend 0 name).1.nodes.modify (t.extend 0 name).2 fun nd =>
    { nd with terminal := true, close := close }⟩

def fromClosingNames (names : List (List UInt8 × NameClose)) : Trie :=
  names.foldl (fun t (name, close) => t.insert name close) ⟨[{}]⟩

def fromNames (names : List (List UInt8)) : Trie :=
  fromClosingNames (names.map fun name => (name, .Free))

def isTerminal (t : Trie) (n : Nat) : Bool := (t.node n).terminal

def closeAt (t : Trie) (n : Nat) : NameClose := (t.node n).close

end Trie

/-- Walks the bytes of a token from a node. A byte with an edge goes down it.
A byte without one ends the walk: at a whole name it is a boundary, unless it
goes on with the lexeme. -/
def walk (t : Trie) (n : Nat) (shape : NameShape) : List UInt8 → Walk
  | [] => .Stay n
  | byte :: rest =>
    match t.child n byte with
    | some c => walk t c shape rest
    | none =>
      if t.isTerminal n && !shape.continues byte then .Complete n byte else .Diverge

end purecard.trie
