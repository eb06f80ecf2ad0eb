-- Grammars that come as data (`grammar/spec.rs`) and their lowering to a
-- table (`grammar/compile.rs`): the rules of a state in order, the checks
-- that refuse a bad table, and the automaton that runs one.
import Mathlib.Algebra.GroupWithZero.Nat
import Mathlib.Data.List.Chain
import PureAnalyzer.Pda

namespace purecard.spec

open pda

def MAX_STATES : Nat := 512
def MAX_RULES_PER_STATE : Nat := 64
def MAX_TOTAL_RULES : Nat := 8192
def MAX_FRAMES : Nat := 64

/-! ## The spec -/

/-- A question about one byte. -/
inductive ByteTest where
  | Whitespace
  | IdentStart
  | IdentTail
  | Digit
  | Exact (byte : UInt8)
  | OneOf (bytes : List UInt8)
  | NoneOf (bytes : List UInt8)
  | Any
deriving DecidableEq, Repr

def ByteTest.matches : ByteTest → UInt8 → Bool
  | .Whitespace, byte => isWs byte
  | .IdentStart, byte => isIdentStart byte
  | .IdentTail, byte => isIdentTail byte
  | .Digit, byte => isAsciiDigit byte
  | .Exact want, byte => byte = want
  | .OneOf bytes, byte => bytes.contains byte
  | .NoneOf bytes, byte => !bytes.contains byte
  | .Any, _ => true

/-- Every byte that `t` admits is one that `other` admits. -/
def ByteTest.isSubsumedBy (t other : ByteTest) : Bool :=
  (List.range 256).all fun n => !t.matches (UInt8.ofNat n) || other.matches (UInt8.ofNat n)

/-- A question about the top of the stack, by the name of a frame. -/
inductive Guard where
  | Always
  | StackTopIs (frame : String)
  | StackTopIsNot (frame : String)
  | StackNonEmpty
  | StackEmpty
deriving DecidableEq, Repr

inductive Action where
  | Next (state : String)
  | Push (frame : String) (state : String)
  | Pop (state : String)
  | Goto (state : String)
  | Dead
deriving DecidableEq, Repr

structure TransitionRule where
  byte_test : ByteTest
  guard : Guard := .Always
  action : Action
deriving DecidableEq, Repr

structure StateSpec where
  accepting : Bool := false
  rules : List TransitionRule := []
deriving DecidableEq, Repr

/-- A grammar by named states. The states are a map from names, so they come
in the order of their names and no name comes twice. -/
structure GrammarSpecV1 where
  start : String
  boundary_byte : UInt8 := ' '
  frames : List String := []
  states : List (String × StateSpec)
  sorted : (states.map Prod.fst).IsChain (· < ·)

inductive GrammarSpec where
  | V1 (v1 : GrammarSpecV1)

/-- Why a spec is refused, with the state and the rule at fault. -/
inductive SpecError where
  | UnknownStartState (start : String)
  | UnknownTargetState (state : String) (rule_index : Nat) (target : String)
  | UnknownFrame (state : String) (rule_index : Nat) (frame : String)
  | TooManyStates (count max : Nat)
  | TooManyRules (state : String) (count max : Nat)
  | TooManyTotalRules (count max : Nat)
  | TooManyFrames (count max : Nat)
  | DuplicateFrame (frame : String)
  | AmbiguousTransition (state : String) (first_index rule_index : Nat)
  | UnreachableRule (state : String) (rule_index shadowed_by : Nat)
  | UnguardedPop (state : String) (rule_index : Nat)
  | CyclicGoto (state : String) (rule_index : Nat)
  | NoReachableAccept (start : String)
deriving DecidableEq, Repr

end purecard.spec

namespace purecard.lower

open pushdown pda spec

/-! ## The table -/

inductive CompiledGuard where
  | Always
  | StackTopIs (frame : Nat)
  | StackTopIsNot (frame : Nat)
  | StackNonEmpty
  | StackEmpty
deriving DecidableEq, Repr

def CompiledGuard.matches : CompiledGuard → Option Nat → Bool
  | .Always, _ => true
  | .StackTopIs frame, top => top = some frame
  | .StackTopIsNot frame, top => top.any (· ≠ frame)
  | .StackNonEmpty, top => top.isSome
  | .StackEmpty, top => top.isNone

inductive CompiledAction where
  | Next (state : Nat)
  | Push (frame : Nat) (state : Nat)
  | Pop (state : Nat)
  | Goto (state : Nat)
  | Dead
deriving DecidableEq, Repr

structure CompiledRule where
  byte_test : ByteTest
  guard : CompiledGuard
  action : CompiledAction
deriving DecidableEq, Repr

structure CompiledState where
  accepting : Bool
  rules : List CompiledRule
deriving DecidableEq, Repr

/-- A table over dense state and frame ids, with the names they came from. -/
structure CompiledAutomaton where
  states : List CompiledState
  start : Nat
  frame_count : Nat
  boundary_byte : UInt8
  state_names : List String
  frame_names : List String
deriving DecidableEq, Repr

abbrev Step := Move Nat Nat

namespace CompiledAutomaton

def stateName (a : CompiledAutomaton) (id : Nat) : String := a.state_names.getD id "unknown"

def frameName (a : CompiledAutomaton) : Option Nat → String
  | none => "none"
  | some id => a.frame_names.getD id "unknown"

/-- The first rule of a state that takes the byte under the top frame. -/
def select (rules : List CompiledRule) (top : Option Nat) (byte : UInt8) : Option CompiledRule :=
  rules.find? fun rule => rule.byte_test.matches byte && rule.guard.matches top

/-- Follows the `Goto` rules of one byte, for at most `fuel` states. -/
def stepFrom (a : CompiledAutomaton) (top : Option Nat) (byte : UInt8) : Nat → Nat → Step
  | 0, _ => .Dead
  | fuel + 1, state =>
    match a.states[state]? with
    | none => .Dead
    | some compiled =>
      match (select compiled.rules top byte).map CompiledRule.action with
      | some (.Next next) => .Next next
      | some (.Push frame next) => .Push frame next
      | some (.Pop next) => if top.isNone then .Dead else .Pop next
      | some (.Goto next) => a.stepFrom top byte fuel next
      | some .Dead => .Dead
      | none => .Dead

def step (a : CompiledAutomaton) (state : Nat) (top : Option Nat) (byte : UInt8) : Step :=
  a.stepFrom top byte (a.states.length + 1) state

/-- A state is accepting by its mark, or when the boundary byte takes it to
a state with the mark. -/
def isAcceptingState (a : CompiledAutomaton) (state : Nat) : Bool :=
  match a.states[state]? with
  | none => false
  | some compiled =>
    compiled.accepting || match a.step state none a.boundary_byte with
      | .Next landed => a.states[landed]?.any CompiledState.accepting
      | _ => false

end CompiledAutomaton

/-! ## Lowering -/

/-- A map from names to ids, in the order of insertion. -/
abbrev Ids := List (String × Nat)

def frameIdsFrom : Nat → Ids → List String → Except SpecError Ids
  | _, seen, [] => .ok seen
  | index, seen, frame :: rest =>
    if (seen.lookup frame).isSome then .error (.DuplicateFrame frame)
    else frameIdsFrom (index + 1) (seen ++ [(frame, index)]) rest

def stateIds (states : List (String × StateSpec)) : Ids := (states.map Prod.fst).zipIdx

def resolve (ids : Ids) (name : String) (err : SpecError) : Except SpecError Nat :=
  match ids.lookup name with
  | some id => .ok id
  | none => .error err

def compileGuard (state : String) (rule_index : Nat) (guard : Guard) (frame_ids : Ids) :
    Except SpecError CompiledGuard :=
  match guard with
  | .Always => .ok .Always
  | .StackTopIs frame =>
    (resolve frame_ids frame (.UnknownFrame state rule_index frame)).map .StackTopIs
  | .StackTopIsNot frame =>
    (resolve frame_ids frame (.UnknownFrame state rule_index frame)).map .StackTopIsNot
  | .StackNonEmpty => .ok .StackNonEmpty
  | .StackEmpty => .ok .StackEmpty

/-- The guards that prove the stack is not empty. -/
def CompiledGuard.provesFrame : CompiledGuard → Bool
  | .StackTopIs _ | .StackNonEmpty => true
  | _ => false

def compileAction (state : String) (rule_index : Nat) (action : Action) (state_ids frame_ids : Ids)
    (guard : CompiledGuard) : Except SpecError CompiledAction :=
  match action with
  | .Next target =>
    (resolve state_ids target (.UnknownTargetState state rule_index target)).map .Next
  | .Push frame target => do
    let f ← resolve frame_ids frame (.UnknownFrame state rule_index frame)
    let t ← resolve state_ids target (.UnknownTargetState state rule_index target)
    return .Push f t
  | .Pop target =>
    if !guard.provesFrame then .error (.UnguardedPop state rule_index)
    else (resolve state_ids target (.UnknownTargetState state rule_index target)).map .Pop
  | .Goto target =>
    (resolve state_ids target (.UnknownTargetState state rule_index target)).map .Goto
  | .Dead => .ok .Dead

def sameGuard : CompiledGuard → CompiledGuard → Bool
  | .Always, .Always => true
  | .StackNonEmpty, .StackNonEmpty => true
  | .StackEmpty, .StackEmpty => true
  | .StackTopIs x, .StackTopIs y => x = y
  | .StackTopIsNot x, .StackTopIsNot y => x = y
  | _, _ => false

/-- Refuses a rule that repeats an earlier one or that can never fire. -/
def checkShadowing (state : String) (rule_index : Nat) (byte_test : ByteTest)
    (guard : CompiledGuard) : Nat → List CompiledRule → Except SpecError Unit
  | _, [] => .ok ()
  | earlier_index, earlier :: rest =>
    if !sameGuard earlier.guard guard then
      checkShadowing state rule_index byte_test guard (earlier_index + 1) rest
    else if byte_test = earlier.byte_test then
      .error (.AmbiguousTransition state earlier_index rule_index)
    else if byte_test.isSubsumedBy earlier.byte_test then
      .error (.UnreachableRule state rule_index earlier_index)
    else checkShadowing state rule_index byte_test guard (earlier_index + 1) rest

def compileRules (state : String) (state_ids frame_ids : Ids) :
    Nat → List CompiledRule → List TransitionRule → Except SpecError (List CompiledRule)
  | _, done, [] => .ok done
  | rule_index, done, rule :: rest => do
    let guard ← compileGuard state rule_index rule.guard frame_ids
    let action ← compileAction state rule_index rule.action state_ids frame_ids guard
    checkShadowing state rule_index rule.byte_test guard 0 done
    compileRules state state_ids frame_ids (rule_index + 1)
      (done ++ [⟨rule.byte_test, guard, action⟩]) rest

def compileState (state_ids frame_ids : Ids) (entry : String × StateSpec) :
    Except SpecError CompiledState :=
  if entry.2.rules.length > MAX_RULES_PER_STATE then
    .error (.TooManyRules entry.1 entry.2.rules.length MAX_RULES_PER_STATE)
  else (compileRules entry.1 state_ids frame_ids 0 [] entry.2.rules).map
    (CompiledState.mk entry.2.accepting)

/-! ## The two walks over the table -/

/-- More turns than a walk over an accepted spec can take. -/
def GRAPH_TRAVERSAL_BUDGET : Nat := 100000

inductive Mark where
  | Unvisited
  | InProgress
  | Done
deriving DecidableEq, Repr

/-- The `Goto` rules of one state: its targets, each with the rule's index. -/
def gotoRules (state_ids : Ids) (rules : List TransitionRule) : List (Nat × Nat) :=
  rules.zipIdx.filterMap fun (rule, rule_index) =>
    match rule.action with
    | .Goto target => (state_ids.lookup target).map fun next => (next, rule_index)
    | _ => none

/-- The first rule of `state` that goes to `next`. -/
def owningRule (v1 : GrammarSpecV1) (state_ids : Ids) (state next : Nat) : String × Nat :=
  match v1.states[state]? with
  | none => ("", 0)
  | some entry => (entry.1, ((gotoRules state_ids entry.2.rules).lookup next).getD 0)

/-- The depth-first walk of the `Goto` edges from one state. It gives the
marks it ends with, or nothing when it runs out of turns. -/
def gotoWalk (edges : List (List Nat)) (owner : Nat → Nat → String × Nat) :
    Nat → List Mark → List (Nat × Nat) → Except SpecError (Option (List Mark))
  | 0, _, _ => .ok none
  | _ + 1, marks, [] => .ok (some marks)
  | turns + 1, marks, (node, next_edge) :: stack =>
    match (edges.getD node [])[next_edge]? with
    | none => gotoWalk edges owner turns (marks.set node .Done) stack
    | some neighbor =>
      match marks.getD neighbor .Unvisited with
      | .InProgress => .error (.CyclicGoto (owner node neighbor).1 (owner node neighbor).2)
      | .Unvisited =>
        gotoWalk edges owner turns (marks.set neighbor .InProgress)
          ((neighbor, 0) :: (node, next_edge + 1) :: stack)
      | .Done => gotoWalk edges owner turns marks ((node, next_edge + 1) :: stack)

def gotoWalks (v1 : GrammarSpecV1) (edges : List (List Nat)) (owner : Nat → Nat → String × Nat) :
    List Nat → List Mark → Except SpecError Unit
  | [], _ => .ok ()
  | start :: rest, marks =>
    if marks.getD start .Unvisited ≠ .Unvisited then gotoWalks v1 edges owner rest marks
    else do
      let walked ← gotoWalk edges owner (GRAPH_TRAVERSAL_BUDGET + 1)
        (marks.set start .InProgress) [(start, 0)]
      match walked with
      | none => .error (.CyclicGoto v1.start 0)
      | some marks => gotoWalks v1 edges owner rest marks

/-- Refuses a chain of `Goto` rules that comes back to a state. -/
def checkGotoAcyclic (v1 : GrammarSpecV1) (state_ids : Ids) : Except SpecError Unit :=
  gotoWalks v1 (v1.states.map fun entry => (gotoRules state_ids entry.2.rules).map Prod.fst)
    (owningRule v1 state_ids) (List.range state_ids.length)
    (List.replicate state_ids.length .Unvisited)

def CompiledAction.target : CompiledAction → Option Nat
  | .Next s | .Push _ s | .Pop s | .Goto s => some s
  | .Dead => none

/-- Marks the targets of a rule list, and stacks those seen for the first time. -/
def visitTargets : List CompiledRule → List Bool → List Nat → List Bool × List Nat
  | [], seen, stack => (seen, stack)
  | rule :: rest, seen, stack =>
    match rule.action.target with
    | none => visitTargets rest seen stack
    | some next =>
      if seen.getD next false then visitTargets rest seen stack
      else visitTargets rest (seen.set next true) (next :: stack)

def reachesAccept (a : CompiledAutomaton) : Nat → List Bool → List Nat → Bool
  | 0, _, _ => false
  | _ + 1, _, [] => false
  | turns + 1, seen, state :: stack =>
    a.isAcceptingState state || match a.states[state]? with
      | none => reachesAccept a turns seen stack
      | some compiled =>
        reachesAccept a turns (visitTargets compiled.rules seen stack).1
          (visitTargets compiled.rules seen stack).2

/-- Refuses a table where no walk from the start accepts, whatever its guards. -/
def checkReachableAccept (a : CompiledAutomaton) (start_name : String) : Except SpecError Unit :=
  if reachesAccept a (MAX_STATES + 1) ((List.replicate a.states.length false).set a.start true)
      [a.start] then .ok ()
  else .error (.NoReachableAccept start_name)

def compileV1 (v1 : GrammarSpecV1) : Except SpecError CompiledAutomaton := do
  if v1.frames.length > MAX_FRAMES then
    throw (.TooManyFrames v1.frames.length MAX_FRAMES)
  let frame_ids ← frameIdsFrom 0 [] v1.frames
  if v1.states.length > MAX_STATES then
    throw (.TooManyStates v1.states.length MAX_STATES)
  let start ← resolve (stateIds v1.states) v1.start (.UnknownStartState v1.start)
  let total_rules := (v1.states.map fun entry => entry.2.rules.length).sum
  if total_rules > MAX_TOTAL_RULES then
    throw (.TooManyTotalRules total_rules MAX_TOTAL_RULES)
  let states ← v1.states.mapM (compileState (stateIds v1.states) frame_ids)
  let automaton : CompiledAutomaton :=
    ⟨states, start, frame_ids.length, v1.boundary_byte, v1.states.map Prod.fst, v1.frames⟩
  checkGotoAcyclic v1 (stateIds v1.states)
  checkReachableAccept automaton v1.start
  return automaton

def CompiledAutomaton.compile : GrammarSpec → Except SpecError CompiledAutomaton
  | .V1 v1 => compileV1 v1

/-! ## The automaton of a table -/

/-- A live automaton over a table. -/
structure RtnPda where
  automaton : CompiledAutomaton
  config : Config Nat Nat
deriving DecidableEq, Repr

namespace RtnPda

def new (a : CompiledAutomaton) : RtnPda := ⟨a, ⟨a.start, []⟩⟩

def atState (a : CompiledAutomaton) (state : Nat) : RtnPda := ⟨a, ⟨state, []⟩⟩

def stackTop (p : RtnPda) : Option Nat := p.config.stack.head?

/-- Reads one byte, or nothing when the byte is dead. -/
def advance (p : RtnPda) (byte : UInt8) : Option RtnPda :=
  (p.config.advance p.automaton.step byte).map (RtnPda.mk p.automaton)

def isAccepting (p : RtnPda) : Bool :=
  p.config.stack.isEmpty && p.automaton.isAcceptingState p.config.state

def reset (p : RtnPda) : RtnPda := new p.automaton

def admits (p : RtnPda) (bytes : List UInt8) : Bool :=
  (p.config.run p.automaton.step bytes).isSome

def probe (p : RtnPda) (bytes : List UInt8) : Probe :=
  pushdown.probe p.automaton.step (List.range p.automaton.frame_count) p.config bytes

end RtnPda

end purecard.lower
