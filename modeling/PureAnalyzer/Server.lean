-- The language server: the scheduler with its workers, the dispatch of a
-- message, and the server loop between the reader and the workers.
import Mathlib.Logic.Relation
import PureAnalyzer.Requests

namespace analyzer.lsp

open document json

/-! ## Answers (`response.rs`) -/

inductive Frame where
  | Result (id result : Value)
  | Error (id : Value) (code : Int) (message : String)
  | Diagnostics (uri : String) (version : Option Int) (findings : List Value)

/-- What a frame answers. Diagnostics are sent without being asked for. -/
def Frame.id : Frame → Option Value
  | Result id _ | Error id _ _ => some id
  | Diagnostics _ _ _ => none

def REQUEST_CANCELLED_CODE : Int := -32800
def INTERNAL_ERROR_CODE : Int := -32603
def INVALID_REQUEST_CODE : Int := -32600
def METHOD_NOT_FOUND_CODE : Int := -32601
def INVALID_PARAMS_CODE : Int := -32602
def SERVER_NOT_INITIALIZED_CODE : Int := -32002

def Frame.cancelled (id : Value) : Frame := .Error id REQUEST_CANCELLED_CODE "request cancelled"
def Frame.duplicate (id : Value) : Frame :=
  .Error id INVALID_REQUEST_CODE "duplicate active request id"
def Frame.failed (id : Value) : Frame := .Error id INTERNAL_ERROR_CODE "request failed"

def initializationResult : Value := .Object [
  ("capabilities", .Object [
    ("codeActionProvider", .Object [("codeActionKinds", .Array [.String "quickfix"])]),
    ("definitionProvider", .Bool true),
    ("hoverProvider", .Bool true),
    ("positionEncoding", .String "utf-16"),
    ("textDocumentSync", .Object [
      ("change", .Number (.PosInt 2)),
      ("openClose", .Bool true),
      ("save", .Object [("includeText", .Bool false)])])]),
  ("serverInfo", .Object [
    ("name", .String "pure-analyzer-lsp"),
    ("version", .String "0.4.1")])]

/-! ## The scheduler (`scheduler.rs`) -/

/-- Who asked: the message by its number, the identifier to answer under, and
what the request is registered with. -/
structure Ticket where
  number : Nat
  response_id : Value
  request_id : Option RequestId
  token : Option Nat

inductive WorkerOutcome where
  | Completed (completion : RequestCompletion)
  | Cancelled
  | Panicked

/-- A worker in the pool, with its outcome once it has run. -/
structure Worker where
  ticket : Ticket
  work : RequestWork
  outcome : Option WorkerOutcome

structure CompletedRequest where
  ticket : Ticket
  outcome : WorkerOutcome

structure RequestScheduler where
  pending : Nat
  pool : List Worker

namespace RequestScheduler

def isIdle (s : RequestScheduler) : Bool := s.pending = 0

def spawn (s : RequestScheduler) (worker : Worker) : RequestScheduler :=
  ⟨s.pending + 1, s.pool ++ [worker]⟩

/-- `none` is an identifier that an active request already has. An identifier
that is neither a string nor an integer is not registered at all. -/
def schedule (s : RequestScheduler) (server : Server) (number : Nat) (response_id : Value)
    (work : RequestWork) : Option (Server × RequestScheduler) :=
  match RequestId.fromJson response_id with
  | none => some (server, s.spawn ⟨⟨number, response_id, none, none⟩, work, none⟩)
  | some request =>
    (server.cancellation.begin request).map fun registered =>
      ({ server with cancellation := registered.2 },
        s.spawn ⟨⟨number, response_id, some request, some registered.1⟩, work, none⟩)

def isCancelled (ticket : Ticket) (server : Server) : Bool × CancellationRegistry :=
  match ticket.request_id, ticket.token with
  | some request, some token => server.cancellation.finish request token
  | none, none => (false, server.cancellation)
  | _, _ => (true, server.cancellation)

def complete (s : RequestScheduler) (server : Server) (completed : CompletedRequest) :
    Server × RequestScheduler × Frame :=
  let (cancelled, cancellation) := isCancelled completed.ticket server
  let server := { server with cancellation }
  let id := completed.ticket.response_id
  let frame := match cancelled, completed.outcome with
    | true, _ | false, .Cancelled => Frame.cancelled id
    | false, .Completed completion =>
      if completion.snapshot.isCurrent server then .Result id completion.result
      else .Result id completion.stale_result
    | false, .Panicked => Frame.failed id
  (server, { s with pending := s.pending - 1 }, frame)

end RequestScheduler

/-! ## Dispatch (`dispatch.rs`) -/

inductive ServerExit where
  | Clean
  | Unclean
deriving DecidableEq, Repr

inductive Method where
  | Initialize | Shutdown | Exit | CancelRequest | DidOpen | DidChange | DidSave | DidClose
  | Hover | DidChangeConfiguration | Definition | CodeAction | Unknown
deriving DecidableEq, Repr

def Method.parse : String → Method
  | "initialize" => Initialize
  | "shutdown" => Shutdown
  | "exit" => Exit
  | "$/cancelRequest" => CancelRequest
  | "textDocument/didOpen" => DidOpen
  | "textDocument/didChange" => DidChange
  | "textDocument/didSave" => DidSave
  | "textDocument/didClose" => DidClose
  | "textDocument/hover" => Hover
  | "workspace/didChangeConfiguration" => DidChangeConfiguration
  | "textDocument/definition" => Definition
  | "textDocument/codeAction" => CodeAction
  | _ => Unknown

/-- What is left once a message is handled. A change of a document or of the
settings was accepted or not. -/
structure Handled where
  server : Server
  scheduler : RequestScheduler
  frames : List Frame
  exit : Option ServerExit
  accepted : Bool

section Handlers

variable (analysis : Analysis) (server : Server) (scheduler : RequestScheduler)

def answered (frames : List Frame) : Handled := ⟨server, scheduler, frames, none, false⟩

def errorIfAsked (id : Option Value) (code : Int) (message : String) : List Frame :=
  id.toList.map fun id => .Error id code message

/-- Whether the method may go on to its handler, and what is sent if not. -/
def lifecyclePermits (method : Option Method) (id : Option Value) : Bool × List Frame :=
  match server.lifecycle, method with
  | _, some .Initialize | _, some .Exit => (true, [])
  | .New, _ => (false, errorIfAsked id SERVER_NOT_INITIALIZED_CODE "server not initialized")
  | .ShuttingDown, some .Shutdown => (true, [])
  | .ShuttingDown, _ =>
    (false, errorIfAsked id INVALID_REQUEST_CODE "request received after shutdown")
  | .Running, _ => (true, [])

def initialize_ (id : Option Value) : Handled :=
  match id with
  | none => answered server scheduler []
  | some id =>
    if server.lifecycle ≠ .New then
      answered server scheduler [.Error id INVALID_REQUEST_CODE "initialize may only run once"]
    else answered { server with lifecycle := .Running } scheduler [.Result id initializationResult]

def shutdown (id : Option Value) : Handled :=
  match id with
  | none => answered server scheduler []
  | some id =>
    if server.lifecycle ≠ .Running then
      answered server scheduler [.Error id INVALID_REQUEST_CODE "shutdown requires initialize"]
    else answered { server with lifecycle := .ShuttingDown } scheduler [.Result id .Null]

def exit : ServerExit := if server.lifecycle = .ShuttingDown then .Clean else .Unclean

/-- The request that a cancel notification names. -/
def cancelTarget (params : Option Value) : Option RequestId :=
  (params.bind (get "id")).bind RequestId.fromJson

def cancel (params : Option Value) : Server :=
  match cancelTarget params with
  | none => server
  | some request => { server with cancellation := server.cancellation.cancel request }

def publishCurrentDiagnostics : List Frame :=
  let snapshot := AnalysisSnapshot.capture server
  snapshot.documents.entries.map fun e =>
    .Diagnostics e.2.uri e.2.version (analysis.diagnostics snapshot e.2.uri)

/-- The documents after a change, with the diagnostics published anew. -/
def changed (documents : DocumentStore) : Handled :=
  let server := { server with documents }
  ⟨server, scheduler, publishCurrentDiagnostics analysis server, none, true⟩

def openDocument (params : Option Value) : Handled :=
  match params.bind (get "textDocument") with
  | none => answered server scheduler []
  | some document =>
    match (get "uri" document).bind asStr, (get "text" document).bind asStr with
    | some uri, some text =>
      match server.documents.replace ⟨uri, text.toList, (get "version" document).bind asI64⟩ with
      | none => answered server scheduler []
      | some documents => changed analysis server scheduler documents
    | _, _ => answered server scheduler []

def changeDocument (params : Option Value) : Handled :=
  match params.bind (get "textDocument") with
  | none => answered server scheduler []
  | some document =>
    match (get "uri" document).bind asStr, (get "version" document).bind asI64,
        contentChanges params with
    | some uri, some version, some changes =>
      match server.documents.applyChanges uri version changes with
      | none => answered server scheduler []
      | some documents => changed analysis server scheduler documents
    | _, _, _ => answered server scheduler []

def documentUri (params : Option Value) : Option String :=
  ((params.bind (get "textDocument")).bind (get "uri")).bind asStr

def saveDocument (params : Option Value) : Handled :=
  match documentUri params with
  | none => answered server scheduler []
  | some uri =>
    if (server.documents.get uri).isSome then
      answered server scheduler (publishCurrentDiagnostics analysis server)
    else answered server scheduler []

def closeDocument (params : Option Value) : Handled :=
  match (documentUri params).bind server.documents.remove with
  | none => answered server scheduler []
  | some (document, documents) =>
    let rest := changed analysis server scheduler documents
    { rest with frames := .Diagnostics document.uri document.version [] :: rest.frames }

/-- Diagnostics are published for settings that change nothing, too. -/
def updateConfiguration (params : Option Value) : Handled :=
  match params.bind (get "settings") with
  | none => answered server scheduler []
  | some settings =>
    match server.configuration.update settings with
    | none => answered server scheduler (publishCurrentDiagnostics analysis server)
    | some configuration =>
      let server := { server with configuration }
      ⟨server, scheduler, publishCurrentDiagnostics analysis server, none, true⟩

def dispatchWork (number : Nat) (id : Option Value) (work : Option RequestWork) : Handled :=
  match id, work with
  | none, _ => answered server scheduler []
  | some id, none =>
    answered server scheduler [.Error id INVALID_PARAMS_CODE "invalid params"]
  | some id, some work =>
    match scheduler.schedule server number id work with
    | none => answered server scheduler [Frame.duplicate id]
    | some (server, scheduler) => answered server scheduler []

def methodOf (fields : List (String × Value)) : Option Method :=
  ((field "method" fields).bind asStr).map Method.parse

/-- Handles the message of that number. -/
def handle (number : Nat) (message : Value) : Handled :=
  match asObject message with
  | none =>
    answered server scheduler [.Error .Null INVALID_REQUEST_CODE "invalid request"]
  | some fields =>
    let method := methodOf fields
    let id := field "id" fields
    let params := field "params" fields
    match lifecyclePermits server method id with
    | (false, frames) => answered server scheduler frames
    | (true, _) =>
      match method with
      | some .Initialize => initialize_ server scheduler id
      | some .Shutdown => shutdown server scheduler id
      | some .Exit => { answered server scheduler [] with exit := some (exit server) }
      | some .CancelRequest => answered (cancel server params) scheduler []
      | some .DidOpen => openDocument analysis server scheduler params
      | some .DidChange => changeDocument analysis server scheduler params
      | some .DidSave => saveDocument analysis server scheduler params
      | some .DidClose => closeDocument analysis server scheduler params
      | some .Hover => dispatchWork server scheduler number id (hoverWork server params)
      | some .DidChangeConfiguration => updateConfiguration analysis server scheduler params
      | some .Definition => dispatchWork server scheduler number id (definitionWork server params)
      | some .CodeAction => dispatchWork server scheduler number id (codeActionsWork server params)
      | some .Unknown =>
        answered server scheduler (errorIfAsked id METHOD_NOT_FOUND_CODE "method not found")
      | none => answered server scheduler (errorIfAsked id INVALID_REQUEST_CODE "invalid request")

end Handlers

/-! ## The server loop (`server.rs`) -/

inductive ServerEvent where
  | Input (message : Value)
  | EndOfInput
  | Completed (completed : CompletedRequest)

/-- The reader waits for each message to be taken before it reads the next. -/
inductive Reader where
  | Reading
  | Waiting
  | Stopped
deriving DecidableEq, Repr

/-- A cancel notification that named a request in flight. -/
structure Cancel where
  message : Nat
  request : Nat
  lifecycle : Lifecycle

/-- The server, its channel and its workers, and what has happened so far: the
messages in the order they were taken, the frames that each one led to, the
messages that changed a document or the settings, and the cancels. -/
structure System where
  server : Server
  scheduler : RequestScheduler
  terminal : Option ServerExit
  returned : Option ServerExit
  events : List ServerEvent
  reader : Reader
  received : List Value
  output : List (Nat × Frame)
  accepted : List Nat
  cancels : List Cancel

def ServerEvent.ticket : ServerEvent → Option Ticket
  | Completed completed => some completed.ticket
  | Input _ | EndOfInput => none

/-- The request that a message cancels. -/
def cancelOf (message : Value) : Option RequestId := do
  let fields ← asObject message
  if methodOf fields = some .CancelRequest then cancelTarget (field "params" fields) else none

namespace System

def new : System where
  server := .new
  scheduler := ⟨0, []⟩
  terminal := none
  returned := none
  events := []
  reader := .Reading
  received := []
  output := []
  accepted := []
  cancels := []

/-- The requests that are scheduled and not answered yet. -/
def inFlight (s : System) : List Ticket :=
  s.scheduler.pool.map Worker.ticket ++ s.events.filterMap ServerEvent.ticket

def cancelsOf (s : System) (message : Value) : List Cancel :=
  match cancelOf message with
  | none => []
  | some request =>
    (s.inFlight.filter (·.request_id = some request)).map fun ticket =>
      ⟨s.received.length, ticket.number, s.server.lifecycle⟩

/-- The server takes one event. -/
def take (analysis : Analysis) (s : System) : ServerEvent → System
  | .Input message =>
    if s.terminal.isSome then { s with reader := .Stopped }
    else
      let number := s.received.length
      let handled := handle analysis s.server s.scheduler number message
      { s with
        server := handled.server
        scheduler := handled.scheduler
        terminal := handled.exit
        reader := if handled.exit.isSome then .Stopped else .Reading
        received := s.received ++ [message]
        output := s.output ++ handled.frames.map (number, ·)
        accepted := if handled.accepted then s.accepted ++ [number] else s.accepted
        cancels := s.cancels ++ s.cancelsOf message }
  | .EndOfInput => { s with terminal := s.terminal.or (some .Unclean) }
  | .Completed completed =>
    let (server, scheduler, frame) := s.scheduler.complete s.server completed
    { s with server, scheduler, output := s.output ++ [(completed.ticket.number, frame)] }

end System

/-- What a worker comes to. It looks at its token once, before it computes. -/
def Outcome (analysis : Analysis) (server : Server) (worker : Worker) (outcome : WorkerOutcome) :
    Prop :=
  if worker.ticket.token.any server.cancellation.isCancelled then outcome = .Cancelled
  else outcome = .Completed (worker.work.execute analysis) ∨ outcome = .Panicked

/-- A step of the server or of a worker. -/
inductive Works (analysis : Analysis) : System → System → Prop
  | run {s : System} {before after : List Worker} {worker : Worker} {outcome : WorkerOutcome}
      (waits : s.scheduler.pool = before ++ worker :: after) (fresh : worker.outcome = none)
      (comes : Outcome analysis s.server worker outcome) :
      Works analysis s { s with
        scheduler.pool := before ++ { worker with outcome := some outcome } :: after }
  | send {s : System} {before after : List Worker} {worker : Worker} {outcome : WorkerOutcome}
      (done : s.scheduler.pool = before ++ worker :: after) (ran : worker.outcome = some outcome) :
      Works analysis s { s with
        scheduler.pool := before ++ after
        events := s.events ++ [.Completed ⟨worker.ticket, outcome⟩] }
  | take {s : System} {event : ServerEvent} {rest : List ServerEvent}
      (running : s.returned = none)
      (stays : ¬(s.terminal.isSome = true ∧ s.scheduler.isIdle = true))
      (next : s.events = event :: rest) :
      Works analysis s ({ s with events := rest }.take analysis event)
  | leave {s : System} {exit : ServerExit} (running : s.returned = none)
      (terminal : s.terminal = some exit) (idle : s.scheduler.isIdle = true) :
      Works analysis s { s with returned := some exit }

/-- The client sends a message or closes the input, or the server goes on. -/
inductive Step (analysis : Analysis) : System → System → Prop
  | read {s : System} (message : Value) (reading : s.reader = .Reading) :
      Step analysis s { s with reader := .Waiting, events := s.events ++ [.Input message] }
  | endOfInput {s : System} (reading : s.reader = .Reading) :
      Step analysis s { s with reader := .Stopped, events := s.events ++ [.EndOfInput] }
  | work {s t : System} : Works analysis s t → Step analysis s t

def Reachable (analysis : Analysis) (s : System) : Prop :=
  Relation.ReflTransGen (Step analysis) .new s

end analyzer.lsp
