-- Nodes that are opened around what was built before. A builder takes
-- checkpoints and later opens nodes at them; here are the calls as the builder
-- and as the event stream of the parser carry them out, and as a builder would
-- that makes its nodes at once.
import PureAnalyzer.BuilderLaws

namespace analyzer.cst

open fragments model linkedarena analyzer.m3

/-- A call on a builder. A checkpoint is named by how many were taken before it. -/
inductive Call where
  | Open (kind : SyntaxKind)
  | Advance
  | Close
  | Checkpoint
  | OpenAt (checkpoint : Nat) (kind : SyntaxKind)
deriving DecidableEq, Repr

/-! ## The builder and the stream -/

/-- A builder, with the checkpoints that it gave out. -/
structure Building where
  builder : GreenNodeBuilder
  checkpoints : List Checkpoint

def Building.call (s : Building) : Call → Except BuildError Building
  | .Open kind => .ok { s with builder := s.builder.push (.Open kind) }
  | .Advance => .ok { s with builder := s.builder.push .Advance }
  | .Close => .ok { s with builder := s.builder.push .Close }
  | .Checkpoint =>
    .ok ⟨s.builder.checkpoint.2, s.checkpoints ++ [s.builder.checkpoint.1]⟩
  | .OpenAt c kind =>
    match s.checkpoints[c]? with
    | none => .error .InvalidCheckpoint
    | some checkpoint => (s.builder.openAt checkpoint kind).map fun builder => { s with builder }

def finishCalls (source : Text) (tokens : List Token) (calls : List Call) :
    Except BuildError GreenNode := do
  let s ← calls.foldlM Building.call ⟨.new 0 source tokens, []⟩
  s.builder.finish

/-- The events of the parser, with the anchors that it took. -/
structure Streaming where
  events : Arena Event
  anchors : List Nat

/-- There is no anchor before the first event. -/
def Streaming.call (s : Streaming) : Call → Option Streaming
  | .Open kind => some { s with events := s.events.append (.Open kind) }
  | .Advance => some { s with events := s.events.append .Advance }
  | .Close => some { s with events := s.events.append .Close }
  | .Checkpoint => s.events.tail.map fun anchor => { s with anchors := s.anchors ++ [anchor] }
  | .OpenAt c kind =>
    (s.anchors[c]?).map fun anchor => { s with events := s.events.insertAfter anchor (.Open kind) }

def streamCalls (calls : List Call) : Option (List Event) :=
  (calls.foldlM Streaming.call ⟨.empty, []⟩).map fun s => s.events.toList

/-! ## Nodes at once -/

/-- What stands in a node that is still open: what was made in it, and the
places where checkpoints were taken. -/
inductive Item where
  | Mark (checkpoints : List Nat) (offset : Nat)
  | Element (element : GreenElement)

def Item.element : Item → Option GreenElement
  | Mark _ _ => none
  | Element element => some element

def Item.marks (c : Nat) : Item → Bool
  | Mark checkpoints _ => checkpoints.contains c
  | Element _ => false

/-- An open node, and what stands before it in the node around it. -/
structure Enclosing where
  kind : SyntaxKind
  start : Nat
  before : List Item

/-- What stands in the innermost open node, and the open nodes from there. -/
structure Immediate where
  items : List Item
  enclosing : List Enclosing
  token_index : Nat
  offset : Nat

namespace Immediate

def new : Immediate := ⟨[], [], 0, 0⟩

def event (source : Text) (tokens : List Token) (s : Immediate) : Event → Option Immediate
  | .Open kind =>
    some { s with items := [], enclosing := ⟨kind, s.offset, s.items⟩ :: s.enclosing }
  | .Advance =>
    (tokens[s.token_index]?).map fun token => { s with
      items := s.items ++ [.Element (.Token (greenToken source token))]
      token_index := s.token_index + 1
      offset := token.2.stop }
  | .Close =>
    match s.enclosing with
    | [] => none
    | ⟨kind, start, before⟩ :: enclosing =>
      let node := GreenNode.new kind (s.items.filterMap Item.element) (pendingRange start s.offset)
      some { s with items := before ++ [.Element (.Node node)], enclosing }

def mark (s : Immediate) (checkpoints : List Nat) : Immediate :=
  { s with items := s.items ++ [.Mark checkpoints s.offset] }

/-- Two checkpoints with nothing between them share their place. -/
def checkpoint (s : Immediate) (c : Nat) : Immediate :=
  match s.items.getLast? with
  | some (.Mark checkpoints offset) =>
    { s with items := s.items.dropLast ++ [.Mark (checkpoints ++ [c]) offset] }
  | _ => s.mark [c]

/-- What stands up to the place of a checkpoint, its offset, and what came since. -/
def splitAt (c : Nat) : List Item → Option (List Item × Nat × List Item)
  | [] => none
  | .Mark checkpoints offset :: rest =>
    if checkpoints.contains c then some ([.Mark checkpoints offset], offset, rest)
    else (splitAt c rest).map fun r => (.Mark checkpoints offset :: r.1, r.2)
  | .Element element :: rest => (splitAt c rest).map fun r => (.Element element :: r.1, r.2)

/-- A node that takes over all that came since the checkpoint. -/
def openAt (s : Immediate) (c : Nat) (kind : SyntaxKind) : Option Immediate :=
  (splitAt c s.items).map fun r =>
    { s with items := r.2.2, enclosing := ⟨kind, r.2.1, r.1⟩ :: s.enclosing }

/-- One call, with the number of checkpoints taken so far. -/
def call (source : Text) (tokens : List Token) (s : Immediate × Nat) :
    Call → Option (Immediate × Nat)
  | .Open kind => (s.1.event source tokens (.Open kind)).map (·, s.2)
  | .Advance => (s.1.event source tokens .Advance).map (·, s.2)
  | .Close => (s.1.event source tokens .Close).map (·, s.2)
  | .Checkpoint => some (s.1.checkpoint s.2, s.2 + 1)
  | .OpenAt c kind => (s.1.openAt c kind).map (·, s.2)

def calls (source : Text) (tokens : List Token) (calls : List Call) : Option Immediate :=
  (calls.foldlM (call source tokens) (new, 0)).map Prod.fst

/-- The one node that was made, with none left open. -/
def root (s : Immediate) : Option GreenNode :=
  match s.enclosing, s.items.filterMap Item.element with
  | [], [.Node root] => some root
  | _, _ => none

end Immediate

/-! ## The script of the calls -/

/-- An event, or a place where checkpoints were taken with the nodes that were
opened at them since, in the order of the calls. -/
inductive Entry where
  | Event (event : Event)
  | Place (checkpoints : List Nat) (wraps : List (Nat × SyntaxKind))
deriving DecidableEq, Repr

def Entry.checkpoints : Entry → List Nat
  | Event _ => []
  | Place checkpoints _ => checkpoints

/-- A node is opened at a checkpoint of this place. -/
def Entry.wrap (c : Nat) (kind : SyntaxKind) : Entry → Entry
  | Event event => .Event event
  | Place checkpoints wraps =>
    .Place checkpoints (if checkpoints.contains c then wraps ++ [(c, kind)] else wraps)

structure Script where
  entries : List Entry
  taken : Nat

def Script.checkpoint (s : Script) : Script :=
  match s.entries.getLast? with
  | some (.Place checkpoints []) =>
    ⟨s.entries.dropLast ++ [.Place (checkpoints ++ [s.taken]) []], s.taken + 1⟩
  | _ => ⟨s.entries ++ [.Place [s.taken] []], s.taken + 1⟩

def Script.call (s : Script) : Call → Script
  | .Open kind => { s with entries := s.entries ++ [.Event (.Open kind)] }
  | .Advance => { s with entries := s.entries ++ [.Event .Advance] }
  | .Close => { s with entries := s.entries ++ [.Event .Close] }
  | .Checkpoint => s.checkpoint
  | .OpenAt c kind => { s with entries := s.entries.map (Entry.wrap c kind) }

def script (calls : List Call) : Script := calls.foldl Script.call ⟨[], 0⟩

/-- The kinds opened at a place as the builder puts them, from the outermost:
by checkpoint, and at each in the order of the calls. -/
def Entry.byCheckpoint : Entry → List SyntaxKind
  | Event _ => []
  | Place checkpoints wraps =>
    checkpoints.flatMap fun c => (wraps.filter (·.1 = c)).map Prod.snd

/-- The same kinds with the last one opened around the ones before it. -/
def Entry.lastOutermost : Entry → List SyntaxKind
  | Event _ => []
  | Place _ wraps => (wraps.map Prod.snd).reverse

/-- At every place the two orders give the same kinds. With one checkpoint at a
place, its kinds read the same from both ends. -/
def Mirrored (calls : List Call) : Prop :=
  ∀ entry ∈ (script calls).entries, entry.byCheckpoint = entry.lastOutermost

instance (calls : List Call) : Decidable (Mirrored calls) := by
  unfold Mirrored
  infer_instance

/-! ## Calls in their place -/

/-- The open nodes by the calls that opened them, and those that were open at
each checkpoint. -/
structure OpenNodes where
  nodes : List Nat
  at_checkpoint : List (List Nat)
  calls : Nat

/-- Every node is opened at a checkpoint while the nodes are open that were open there. -/
def OpenNodes.call (s : OpenNodes) : Call → Option OpenNodes
  | .Open _ => some { s with nodes := s.calls :: s.nodes, calls := s.calls + 1 }
  | .Advance => some { s with calls := s.calls + 1 }
  | .Close =>
    match s.nodes with
    | [] => none
    | _ :: nodes => some { s with nodes, calls := s.calls + 1 }
  | .Checkpoint => some { s with
      at_checkpoint := s.at_checkpoint ++ [s.nodes]
      calls := s.calls + 1 }
  | .OpenAt c _ =>
    if s.at_checkpoint[c]? = some s.nodes then
      some { s with nodes := s.calls :: s.nodes, calls := s.calls + 1 }
    else none

def opensWhereTaken (calls : List Call) : Bool :=
  (calls.foldlM OpenNodes.call ⟨[], [], 0⟩).isSome

end analyzer.cst
