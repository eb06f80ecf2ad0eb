-- Expressions with operators: what spells them, and which trees stand for
-- them. An operand has signs before it and postfixes behind it, and the
-- operators between operands nest by their precedence.
import PureAnalyzer.ParserTrees
import PureAnalyzer.Precedence

namespace analyzer.m3

open fragments model cst precedence

/-! ## Trees without their spaces -/

inductive Skeleton where
  | Node (kind : SyntaxKind) (children : List Skeleton)
  | Leaf (kind : SyntaxKind)

/-- A token of the tree, unless it is a space or a comment. -/
def leaf : SyntaxKind → List Skeleton
  | .Token kind => if isTrivia kind then [] else [.Leaf (.Token kind)]
  | .Node kind => [.Leaf (.Node kind)]

mutual

def skeleton : GreenNode → Skeleton
  | .new kind children _ => .Node kind (skeletons children)

def skeletons : List GreenElement → List Skeleton
  | [] => []
  | .Node node :: rest => skeleton node :: skeletons rest
  | .Token token :: rest => leaf token.kind ++ skeletons rest

end

/-! ## Spellings -/

/-- A token that an expression is spelled with. Before one that is not tight
there can be spaces and comments. -/
structure Terminal where
  kind : TokenKind
  tight : Bool
deriving DecidableEq, Repr

inductive Spaced : List Terminal → List TokenKind → Prop where
  | done {gap : List TokenKind} (trivia : ∀ kind ∈ gap, isTrivia kind = true) : Spaced [] gap
  | tight {kind : TokenKind} {terminals : List Terminal} {kinds : List TokenKind}
      (rest : Spaced terminals kinds) : Spaced (⟨kind, true⟩ :: terminals) (kind :: kinds)
  | free {kind : TokenKind} {terminals : List Terminal} {gap kinds : List TokenKind}
      (trivia : ∀ kind ∈ gap, isTrivia kind = true) (rest : Spaced terminals kinds) :
      Spaced (⟨kind, false⟩ :: terminals) (gap ++ kind :: kinds)

/-- A part of an expression: how it is spelled, the trees that stand for it,
and how deep the parser goes into expressions in it. -/
structure Piece where
  terminals : List Terminal
  trees : List Skeleton
  height : Nat

namespace Piece

def empty : Piece := ⟨[], [], 0⟩

def append (p q : Piece) : Piece :=
  ⟨p.terminals ++ q.terminals, p.trees ++ q.trees, max p.height q.height⟩

instance : Append Piece := ⟨append⟩

def token (kind : TokenKind) : Piece := ⟨[⟨kind, false⟩], leaf (.Token kind), 0⟩

/-- All of it in one node. -/
def node (kind : NodeKind) (p : Piece) : Piece := { p with trees := [.Node (.Node kind) p.trees] }

/-- An expression of its own. -/
def deeper (p : Piece) : Piece := { p with height := p.height + 1 }

/-- Pieces with commas between them. -/
def list : List Piece → Piece
  | [] => empty
  | [p] => p
  | p :: q :: rest => p ++ (token .Comma ++ list (q :: rest))

def callArgs (args : List Piece) : Piece :=
  (token .ParenOpen ++ (list args ++ token .ParenClose)).node .CallArgs

end Piece

open Piece (empty token list callArgs)

/-! ## Operands -/

structure NameToken where
  kind : TokenKind
  name : isName kind = true

/-- A name in packages. It can start with a separator. -/
structure QualifiedName where
  absolute : Bool
  first : NameToken
  rest : List NameToken

def QualifiedName.tail : List NameToken → Piece
  | [] => empty
  | name :: rest => token .PathSeparator ++ (token name.kind ++ tail rest)

def QualifiedName.piece (q : QualifiedName) : Piece :=
  ((if q.absolute then token .PathSeparator else empty) ++
    (token q.first.kind ++ tail q.rest)).node .QualifiedName

def LITERALS : List TokenKind := [.Integer, .Boolean, .String, .DateTime, .StrictDate, .LatestDate]

/-- What an operand is about. -/
inductive Primary where
  | literal (kind : TokenKind) (literal : kind ∈ LITERALS)
  | var (name : NameToken)
  | name (name : QualifiedName)
  | paren (items : List Piece)

def Primary.piece : Primary → Piece
  | literal kind _ => (token kind).node .LiteralExpr
  | var n => (token .Dollar ++ token n.kind).node .VariableExpr
  | name q => q.piece
  | paren items => (token .ParenOpen ++ (list items ++ token .ParenClose)).node .ParenExpr

def Primary.inner : Primary → List Piece
  | paren items => items
  | _ => []

def ALL_KEYWORDS : List TokenKind := [.AllKw, .AllVersionsKw, .AllVersionsInRangeKw]

/-- A postfix. -/
inductive Part where
  | property (name : NameToken) (plain : name.kind ∉ ALL_KEYWORDS) (args : Option (List Piece))
  | arrow (name : QualifiedName) (args : List Piece)
  | index (item : Option Piece)
  | call (args : List Piece)
  | all (in_range : Bool) (args : List Piece)
  | allVersions

namespace Part

/-- What the postfix adds behind the operand. -/
def own : Part → Piece
  | property name _ args =>
    (token .Dot ++ (token name.kind ++ (args.map callArgs).getD empty)).node .PropertyNav
  | arrow name args => (token .Arrow ++ (name.piece ++ callArgs args)).node .ArrowCall
  | index item =>
    (token .BracketOpen ++ (item.getD empty ++ token .BracketClose)).node .BracketIndex
  | call args => callArgs args
  | all in_range args =>
    token .Dot ++ (token (if in_range then .AllVersionsInRangeKw else .AllKw) ++ callArgs args)
  | allVersions => token .Dot ++ token .AllVersionsKw

/-- The node that a postfix puts around the operand and itself. -/
def wraps : Part → Option NodeKind
  | call _ => some .FunctionCall
  | all _ _ | allVersions => some .AllExpr
  | _ => none

def after (p : Piece) (part : Part) : Piece :=
  match part.wraps with
  | none => p ++ part.own
  | some kind => (p ++ part.own).node kind

def inner : Part → List Piece
  | property _ _ args => args.getD []
  | index item => item.toList
  | arrow _ args | call args | all _ args => args
  | allVersions => []

/-- A property name takes the arguments behind it as its own. -/
def Apart (part next : Part) : Prop :=
  match part, next with
  | property _ _ none, call _ => False
  | _, _ => True

end Part

def isSign (kind : TokenKind) : Bool := kind = .Plus || kind = .Minus

/-- The signs before an operand and all that stands between them, in no more
tokens than the parser takes. -/
structure Signs where
  kinds : List TokenKind
  tokens : ∀ kind ∈ kinds, isSign kind = true ∨ isTrivia kind = true
  first : ∀ kind ∈ kinds.head?, isSign kind = true
  last : ∀ kind ∈ kinds.getLast?, isSign kind = true
  short : kinds.length ≤ MAX_UNARY_OPERATOR_COUNT

/-- Each sign is the operator of a node. The parser makes a node of a space
between two signs as well. -/
def unaries : List TokenKind → List Skeleton → List Skeleton
  | [], trees => trees
  | kind :: kinds, trees =>
    [.Node (.Node .UnaryExpr) (leaf (.Token kind) ++ unaries kinds trees)]

namespace Signs

def terminals (signs : Signs) : List Terminal :=
  match signs.kinds with
  | [] => []
  | kind :: kinds => ⟨kind, false⟩ :: kinds.map (⟨·, true⟩)

def before (signs : Signs) (p : Piece) : Piece :=
  ⟨signs.terminals ++ p.terminals, unaries signs.kinds p.trees, p.height⟩

end Signs

/-- An operand, with no more wraps than the parser takes. -/
structure Operand where
  signs : Signs
  primary : Primary
  parts : List Part
  apart : parts.IsChain Part.Apart
  few : (parts.filter fun part => part.wraps.isSome).length ≤ MAX_RETROACTIVE_WRAP_DEPTH

namespace Operand

/-- Postfixes bind tighter than signs. -/
def piece (o : Operand) : Piece := o.signs.before (o.parts.foldl Part.after o.primary.piece)

/-- The expressions in parentheses, among arguments and at an index. -/
def inner (o : Operand) : List Piece := o.primary.inner ++ o.parts.flatMap Part.inner

end Operand

/-! ## Operators -/

inductive BinaryOp where
  | Eq | Neq | Le | Lt | Ge | Gt
  | Plus | Minus
  | Star | Slash
deriving DecidableEq, Repr

namespace BinaryOp

def kind : BinaryOp → TokenKind
  | Eq => .Eq
  | Neq => .Neq
  | Le => .Le
  | Lt => .Lt
  | Ge => .Ge
  | Gt => .Gt
  | Plus => .Plus
  | Minus => .Minus
  | Star => .Star
  | Slash => .Slash

/-- How strong an operator binds: products before sums, and sums before
comparisons. -/
def level : BinaryOp → Nat
  | Eq | Neq | Le | Lt | Ge | Gt => 1
  | Plus | Minus => 2
  | Star | Slash => 3

def all : List BinaryOp := [Eq, Neq, Le, Lt, Ge, Gt, Plus, Minus, Star, Slash]

end BinaryOp

/-- The tree of a nesting. A run is one node, without which it is left open here. -/
def within : Nesting BinaryOp Operand → Piece
  | .operand o => o.piece
  | .start first op second =>
    closed first (within first) ++ (token op.kind ++ (closed second (within second)).deeper)
  | .next run op part => within run ++ (token op.kind ++ (closed part (within part)).deeper)
where
  /-- A run is closed, and an operand is as it is. -/
  closed (n : Nesting BinaryOp Operand) (p : Piece) : Piece :=
    match n with
    | .operand _ => p
    | _ => p.node .BinaryExpr

/-- The expression of a nesting. -/
def expression (n : Nesting BinaryOp Operand) : Piece := (within.closed n (within n)).deeper

/-- How a sequence of operands and operators is spelled. -/
def spelling (first : Operand) (rest : List (BinaryOp × Operand)) : List Terminal :=
  first.piece.terminals ++
    rest.flatMap fun p => ⟨p.1.kind, false⟩ :: p.2.piece.terminals

/-- Well-formed expressions: in a proper nesting of operands, in which there
are well-formed expressions again. -/
inductive Sequence : Piece → Prop where
  | mk (n : Nesting BinaryOp Operand) (proper : n.Proper BinaryOp.level)
      (inner : ∀ o ∈ n.operands, ∀ p ∈ o.inner, Sequence p) : Sequence (expression n)

end analyzer.m3
