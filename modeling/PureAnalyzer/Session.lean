-- The compiled grammar (`grammar/compiled.rs`) and the decode session
-- (`session.rs`). A grammar keeps, for each state it has met, the tokens
-- that live whatever the stack is and those that the stack decides. A
-- session reads tokens and gives the mask of the tokens that may come next.
import PureAnalyzer.Narrow
import PureAnalyzer.Spec

namespace purecard.compiled

open pushdown pda spec lower mask vocab

inductive Engine where
  | Fixed
  | Spec (automaton : CompiledAutomaton)

/-- The tokens of a state that live on every stack, and the ids of those
that the live stack decides. -/
structure Cached where
  indep : BitMask
  deferred : List Nat

/-- One cell for each state, empty until the state is met. -/
structure CompiledGrammar where
  vocab : Vocab
  engine : Engine
  cache : List (Option Cached)

/-- Puts one token on its side of the partition. A token that died without
asking for a frame is on neither. -/
def placeToken (probe : List UInt8 → Probe) (vocab : Vocab) (cached : Cached) (id : Nat) :
    Cached :=
  if (probe ((vocab.bytes id).getD [])).consulted_ambient then
    { cached with deferred := cached.deferred ++ [id] }
  else if (probe ((vocab.bytes id).getD [])).alive then
    { cached with indep := cached.indep.set id }
  else cached

/-- Probes every token, in the order of their ids. -/
def buildPartition (probe : List UInt8 → Probe) (vocab : Vocab) (mask_len : Nat) : Cached :=
  (List.range vocab.lenU32).foldl (placeToken probe vocab) ⟨BitMask.withLen mask_len, []⟩

def buildFixed (state : State) (vocab : Vocab) (mask_len : Nat) : Cached :=
  buildPartition (Pda.probe (Pda.atState state)) vocab mask_len

def buildSpec (automaton : CompiledAutomaton) (id : Nat) (vocab : Vocab) (mask_len : Nat) :
    Cached :=
  buildPartition (RtnPda.atState automaton id).probe vocab mask_len

namespace CompiledGrammar

def compile (vocab : Vocab) : CompiledGrammar :=
  ⟨vocab, .Fixed, List.replicate State.COUNT none⟩

/-- A grammar over a spec that is already parsed. -/
def fromSpec (parsed : GrammarSpec) (vocab : Vocab) : Except SpecError CompiledGrammar :=
  (CompiledAutomaton.compile parsed).map fun automaton =>
    ⟨vocab, .Spec automaton, List.replicate automaton.states.length none⟩

/-- The id of the end of the stream, one past the last token. -/
def eosBit (g : CompiledGrammar) : Nat := g.vocab.lenU32

def maskLen (g : CompiledGrammar) : Nat := g.eosBit + 1

/-- Reads a cell of the cache, or builds it and keeps it. -/
def getOrInit (g : CompiledGrammar) (i : Nat) (build : Cached) : Cached × CompiledGrammar :=
  match g.cache.getD i none with
  | some cached => (cached, g)
  | none => (build, { g with cache := g.cache.set i (some build) })

def cached (g : CompiledGrammar) (state : State) : Cached × CompiledGrammar :=
  g.getOrInit state.index (buildFixed state g.vocab g.maskLen)

def cachedSpec (g : CompiledGrammar) (automaton : CompiledAutomaton) (id : Nat) :
    Cached × CompiledGrammar :=
  g.getOrInit id (buildSpec automaton id g.vocab g.maskLen)

end CompiledGrammar

end purecard.compiled

namespace purecard.session

open pushdown pda lower mask vocab compiled model scope narrow

/-! ## The live automaton -/

inductive Cursor where
  | Fixed (pda : Pda)
  | Spec (pda : RtnPda)
deriving DecidableEq, Repr

namespace Cursor

def new (grammar : CompiledGrammar) : Cursor :=
  match grammar.engine with
  | .Fixed => .Fixed Pda.new
  | .Spec automaton => .Spec (RtnPda.new automaton)

def cached (c : Cursor) (grammar : CompiledGrammar) : Cached × CompiledGrammar :=
  match c with
  | .Fixed pda => grammar.cached pda.state
  | .Spec pda => grammar.cachedSpec pda.automaton pda.config.state

def stackTopPresent : Cursor → Bool
  | .Fixed pda => (Pda.stackTop pda).isSome
  | .Spec pda => pda.stackTop.isSome

def admits : Cursor → List UInt8 → Bool
  | .Fixed pda, bytes => Pda.admits pda bytes
  | .Spec pda, bytes => pda.admits bytes

def isAccepting : Cursor → Bool
  | .Fixed pda => Pda.isAccepting pda
  | .Spec pda => pda.isAccepting

def reset : Cursor → Cursor
  | .Fixed _ => .Fixed Pda.new
  | .Spec pda => .Spec pda.reset

/-- Reads one byte. A byte that is dead is reported with the names of the
state and of the frame on top. -/
def advanceByte (c : Cursor) (byte : UInt8) : Except (String × String) Cursor :=
  match c with
  | .Fixed pda =>
    match Pda.advance pda byte with
    | .ok next => .ok (.Fixed next)
    | .error dead => .error (dead.state, dead.stack_top)
  | .Spec pda =>
    match pda.advance byte with
    | some next => .ok (.Spec next)
    | none =>
      .error (pda.automaton.stateName pda.config.state, pda.automaton.frameName pda.stackTop)

/-- Reads every byte of a token, or none of them. -/
def tryAcceptToken (c : Cursor) (bytes : List UInt8) : Option Cursor :=
  match c with
  | .Fixed pda => (Config.run step pda bytes).map .Fixed
  | .Spec pda =>
    (pda.config.run pda.automaton.step bytes).map fun config => .Spec ⟨pda.automaton, config⟩

end Cursor

/-! ## The session -/

inductive DecodeError where
  | DeadState (offset : Nat) (byte : UInt8) (state stack_top : String)
  | InadmissibleToken (id : Nat)
  | UnknownToken (id : Nat)
  | UnexpectedEos
  | SchemaRequiresFixedGrammar
deriving DecidableEq, Repr

structure DecoderSession where
  cursor : Cursor
  offset : Nat
  grammar : CompiledGrammar
  mask : BitMask
  narrow_buf : BitMask
  schema : Option Schema
  tracker : ScopeTracker
  narrow_cache : NarrowCache
  l2_eos : Bool

namespace DecoderSession

def build (grammar : CompiledGrammar) (schema : Option Schema) : DecoderSession where
  cursor := Cursor.new grammar
  offset := 0
  grammar := grammar
  mask := BitMask.withLen grammar.maskLen
  narrow_buf := BitMask.withLen grammar.maskLen
  schema := schema
  tracker := ScopeTracker.new
  narrow_cache := NarrowCache.new
  l2_eos := true

def new (grammar : CompiledGrammar) : DecoderSession := build grammar none

def withSchema (grammar : CompiledGrammar) (schema : Schema) :
    Except DecodeError DecoderSession :=
  match grammar.engine with
  | .Spec _ => .error .SchemaRequiresFixedGrammar
  | .Fixed => .ok (build grammar (some schema))

/-! ## The mask of the next token -/

/-- The tokens that the grammar admits: those cached for the state, those
the live stack admits, and the end of the stream where it may end. -/
def fillGrammar (mask : BitMask) (cached : Cached) (cursor : Cursor) (grammar : CompiledGrammar) :
    BitMask :=
  let mask := mask.copyFrom cached.indep
  -- a deferred token needs a frame, so with no frame every one stays dead
  let mask := if cursor.stackTopPresent then
      cached.deferred.foldl
        (fun mask id =>
          if cursor.admits ((grammar.vocab.bytes id).getD []) then mask.set id else mask) mask
    else mask
  if cursor.isAccepting then mask.set grammar.eosBit else mask.clear grammar.eosBit

/-- Takes a rule's tokens into the mask when the rule applied. -/
def intersectNarrowed (s : DecoderSession) (n : Narrowed) : DecoderSession :=
  { s with
    narrow_buf := n.dst
    narrow_cache := n.cache
    mask := if n.applied then s.mask.intersect n.dst else s.mask }

def narrowPosition (s : DecoderSession) (schema : Schema) (pda : Pda) : DecoderSession :=
  s.intersectNarrowed
    (narrowInto s.narrow_buf s.narrow_cache schema (s.tracker.position pda.state)
      s.tracker.narrowPrefix s.tracker.emittedColumns s.tracker.boundVariables s.grammar.vocab
      s.grammar.eosBit)

/-- Before a variable is bound, no token may open a reference to one. -/
def narrowSigil (s : DecoderSession) (pda : Pda) : DecoderSession :=
  if s.tracker.masksUnboundSigil pda.state then
    s.intersectNarrowed
      (narrowSigilInto s.narrow_buf s.narrow_cache s.grammar.vocab s.grammar.eosBit)
  else s

/-- A token that joins the dot and the name behind it. -/
def narrowFused (s : DecoderSession) (schema : Schema) : DecoderSession :=
  match s.tracker.fusedNavPosition schema with
  | some fused =>
    s.intersectNarrowed
      (narrowFusedInto s.narrow_buf s.narrow_cache schema fused s.tracker.emittedColumns
        s.grammar.vocab s.grammar.eosBit)
  | none => s

/-- Refills the mask. The answer is the `mask` of the session after it. -/
def allowedMask (s : DecoderSession) : DecoderSession :=
  let (cached, grammar) := s.cursor.cached s.grammar
  let s := { s with
    grammar := grammar
    mask := fillGrammar s.mask cached s.cursor grammar }
  match s.schema, s.cursor with
  | some schema, .Fixed pda => ((s.narrowPosition schema pda).narrowSigil pda).narrowFused schema
  | _, _ => s

/-! ## Reading the stream -/

/-- Asks the rule of the new position whether the stream may end. -/
def refreshL2Eos (s : DecoderSession) : DecoderSession :=
  match s.schema, s.cursor with
  | some schema, .Fixed pda =>
    let (l2_eos, cache) := admitsEos s.narrow_cache schema (s.tracker.position pda.state)
      s.tracker.narrowPrefix s.tracker.emittedColumns s.tracker.boundVariables
    { s with l2_eos := l2_eos, narrow_cache := cache }
  | _, _ => s

/-- Reads one token. An error leaves the session as it was. -/
def acceptToken (s : DecoderSession) (id : Nat) : Except DecodeError DecoderSession :=
  if id = s.grammar.eosBit then
    if s.cursor.isAccepting then .ok s else .error .UnexpectedEos
  else match s.grammar.vocab.bytes id with
    | none => .error (.UnknownToken id)
    | some bytes =>
      match s.schema, s.cursor with
      | some schema, .Fixed pda =>
        match Config.run step pda bytes with
        | none => .error (.InadmissibleToken id)
        | some next =>
          -- the tracker reads the token from the automaton before it
          let s := { s with tracker := s.tracker.observe bytes pda schema, cursor := .Fixed next }
          let s := s.refreshL2Eos
          .ok { s with offset := s.offset + bytes.length }
      | _, _ =>
        match s.cursor.tryAcceptToken bytes with
        | none => .error (.InadmissibleToken id)
        | some next => .ok { s with cursor := next, offset := s.offset + bytes.length }

def isComplete (s : DecoderSession) : Bool := s.cursor.isAccepting && s.l2_eos

def reset (s : DecoderSession) : DecoderSession :=
  { s with
    cursor := s.cursor.reset
    offset := 0
    tracker := ScopeTracker.new
    narrow_cache := NarrowCache.new
    l2_eos := true }

/-- Reads one byte, with no look at the schema. -/
def acceptByte (s : DecoderSession) (byte : UInt8) : Except DecodeError DecoderSession :=
  match s.cursor.advanceByte byte with
  | .ok next => .ok { s with cursor := next, offset := s.offset + 1 }
  | .error (state, stack_top) => .error (.DeadState s.offset byte state stack_top)

/-! ## Runs -/

/-- A call that a host makes. -/
inductive Op where
  | acceptToken (id : Nat)
  | allowedMask
  | reset
deriving DecidableEq, Repr

/-- One call. A token that is refused changes nothing. -/
def call (s : DecoderSession) : Op → DecoderSession
  | .acceptToken id =>
    match s.acceptToken id with
    | .ok next => next
    | .error _ => s
  | .allowedMask => s.allowedMask
  | .reset => s.reset

/-- A run of calls. -/
def calls (s : DecoderSession) (ops : List Op) : DecoderSession := ops.foldl call s

end DecoderSession

end purecard.session
