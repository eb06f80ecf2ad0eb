-- The requests of the language server (`pure-analyzer-lsp`): the registry of
-- those that can be cancelled, the settings of the workspace, and the work
-- that a request becomes, with a snapshot of its own to run on.
import PureAnalyzer.Document
import PureAnalyzer.Json

namespace analyzer.lsp

open document json

/-! ## Cancellation (`cancellation.rs`) -/

inductive RequestId where
  | String (s : String)
  | Number (n : Int)
deriving DecidableEq, Repr

def RequestId.fromJson : Value → Option RequestId
  | .String s => some (.String s)
  | .Number n => n.asI64.map .Number
  | _ => none

/-- A token is a cell of its own, which the worker shares with the registry. -/
structure CancellationRegistry where
  active : RequestId → Option Nat
  cells : List Bool

namespace CancellationRegistry

def new : CancellationRegistry := ⟨fun _ => none, []⟩

def isCancelled (s : CancellationRegistry) (token : Nat) : Bool := s.cells[token]? = some true

/-- `none` is an identifier that a request in flight already has. -/
def begin (s : CancellationRegistry) (request : RequestId) :
    Option (Nat × CancellationRegistry) :=
  match s.active request with
  | some _ => none
  | none =>
    let token := s.cells.length
    some (token, ⟨fun r => if r = request then some token else s.active r, s.cells ++ [false]⟩)

def cancel (s : CancellationRegistry) (request : RequestId) : CancellationRegistry :=
  match s.active request with
  | none => s
  | some token => { s with cells := s.cells.set token true }

/-- Takes out the request that the token is of, and says whether it was cancelled. -/
def finish (s : CancellationRegistry) (request : RequestId) (token : Nat) :
    Bool × CancellationRegistry :=
  if s.active request = some token then
    (s.isCancelled token, { s with active := fun r => if r = request then none else s.active r })
  else (false, s)

end CancellationRegistry

/-! ## Settings (`workspace.rs`) -/

inductive ModelDocumentKind where
  | Pmcd
  | Pure
deriving DecidableEq, Repr

structure ModelDocument where
  uri : String
  kind : ModelDocumentKind
deriving DecidableEq, Repr

def modelDocument (route : Value) : Option ModelDocument := do
  let uri ← (get "uri" route).bind asStr
  match ← (get "kind" route).bind asStr with
  | "pmcd" => some ⟨uri, .Pmcd⟩
  | "pure" => some ⟨uri, .Pure⟩
  | _ => none

/-- The first route of each document stays. -/
def modelDocumentsFrom (seen : List String) : List Value → List ModelDocument
  | [] => []
  | route :: routes =>
    match modelDocument route with
    | none => modelDocumentsFrom seen routes
    | some document =>
      if document.uri = "" ∨ document.uri ∈ seen then modelDocumentsFrom seen routes
      else document :: modelDocumentsFrom (document.uri :: seen) routes

def modelDocuments (settings : Value) : List ModelDocument :=
  match (get "modelDocuments" settings).bind asArray with
  | none => []
  | some routes => modelDocumentsFrom [] routes

structure WorkspaceConfiguration where
  settings : Option Value
  model_documents : List ModelDocument
  revision : Nat

def WorkspaceConfiguration.new : WorkspaceConfiguration := ⟨none, [], 0⟩

/-- `none` is an update that changes nothing. -/
def WorkspaceConfiguration.update (s : WorkspaceConfiguration) (settings : Value) :
    Option WorkspaceConfiguration :=
  if s.settings.any (sameValue · settings) then none
  else (checkedAdd (2 ^ 64) s.revision 1).map fun revision =>
    ⟨some settings, modelDocuments settings, revision⟩

/-! ## The server (`server.rs`) -/

inductive Lifecycle where
  | New
  | Running
  | ShuttingDown
deriving DecidableEq, Repr

structure Server where
  cancellation : CancellationRegistry
  configuration : WorkspaceConfiguration
  documents : DocumentStore
  lifecycle : Lifecycle

def Server.new : Server := ⟨.new, .new, .new, .New⟩

/-! ## Snapshots (`state.rs`) -/

structure AnalysisSnapshot where
  document_revision : Nat
  configuration_revision : Nat
  documents : SortedMap String DocumentSnapshot
  models : List ModelDocument

/-- A model document that the client has not opened is left out. -/
def AnalysisSnapshot.capture (server : Server) : AnalysisSnapshot where
  document_revision := server.documents.revision
  configuration_revision := server.configuration.revision
  documents := server.documents.documents
  models := server.configuration.model_documents.filter fun route =>
    (server.documents.get route.uri).isSome

def AnalysisSnapshot.isCurrent (s : AnalysisSnapshot) (server : Server) : Bool :=
  s.document_revision = server.documents.revision &&
    s.configuration_revision = server.configuration.revision &&
    s.documents.len = server.documents.documents.len &&
    s.documents.entries.all fun e => server.documents.get e.1 = some e.2

/-- What is computed from a snapshot. -/
structure Analysis where
  diagnostics : AnalysisSnapshot → String → List Value
  hover : AnalysisSnapshot → String → ProtocolPosition → Option Value
  definition : AnalysisSnapshot → String → ProtocolPosition → Value
  code_actions : AnalysisSnapshot → String → Option (List Value)

/-! ## Work -/

inductive RequestWork where
  | Hover (snapshot : AnalysisSnapshot) (uri : String) (position : ProtocolPosition)
  | Definition (snapshot : AnalysisSnapshot) (uri : String) (position : ProtocolPosition)
  | CodeActions (snapshot : AnalysisSnapshot) (uri : String)

def RequestWork.snapshot : RequestWork → AnalysisSnapshot
  | Hover snapshot _ _ | Definition snapshot _ _ | CodeActions snapshot _ => snapshot

structure RequestCompletion where
  snapshot : AnalysisSnapshot
  stale_result : Value
  result : Value

def RequestWork.execute (analysis : Analysis) : RequestWork → RequestCompletion
  | Hover snapshot uri position =>
    ⟨snapshot, .Null, (analysis.hover snapshot uri position).getD .Null⟩
  | Definition snapshot uri position => ⟨snapshot, .Null, analysis.definition snapshot uri position⟩
  | CodeActions snapshot uri =>
    ⟨snapshot, .Array [], .Array ((analysis.code_actions snapshot uri).getD [])⟩

/-! ### What a request asks for -/

def u32 (value : Value) : Option Nat := (asU64 value).filter (· < 2 ^ 32)

def protocolPosition (position : Value) : Option ProtocolPosition := do
  let line ← (get "line" position).bind u32
  let character ← (get "character" position).bind u32
  some ⟨line, character⟩

def protocolRange (range : Value) : Option ProtocolRange := do
  let start ← (get "start" range).bind protocolPosition
  let stop ← (get "end" range).bind protocolPosition
  some ⟨start, stop⟩

/-- Hover and definition ask about one position of a document. -/
def positionParams (params : Option Value) : Option (String × ProtocolPosition) := do
  let params ← params
  let uri ← ((get "textDocument" params).bind (get "uri")).bind asStr
  let position ← (get "position" params).bind protocolPosition
  some (uri, position)

def codeActionUri (params : Option Value) : Option String := do
  let params ← params
  let uri ← ((get "textDocument" params).bind (get "uri")).bind asStr
  let _ ← (get "range" params).bind protocolRange
  let _ ← ((get "context" params).bind (get "diagnostics")).bind asArray
  some uri

def hoverWork (server : Server) (params : Option Value) : Option RequestWork :=
  (positionParams params).map fun request => .Hover (.capture server) request.1 request.2

def definitionWork (server : Server) (params : Option Value) : Option RequestWork :=
  (positionParams params).map fun request => .Definition (.capture server) request.1 request.2

def codeActionsWork (server : Server) (params : Option Value) : Option RequestWork :=
  (codeActionUri params).map fun uri => .CodeActions (.capture server) uri

/-! ### Edits -/

def contentChange (change : Value) : Option ContentChange := do
  let text ← (get "text" change).bind asStr
  let range ← match get "range" change with
    | none => some none
    | some range => (protocolRange range).map some
  let range_length ← match get "rangeLength" change with
    | none => some none
    | some length => (u32 length).map some
  some ⟨range, range_length, text.toList⟩

def contentChanges (params : Option Value) : Option (List ContentChange) := do
  let changes ← (params.bind (get "contentChanges")).bind asArray
  if changes.isEmpty then none else changes.mapM contentChange

end analyzer.lsp
