-- All that a message can lead to, and all that a step of the language server
-- can do: it is quiet, it takes a message, or it sends the answer of a worker.
import PureAnalyzer.Server

namespace analyzer.document.DocumentStore

/-! ## Revisions -/

theorem advance {s : DocumentStore} {revision : Nat}
    (h : s.advanceRevision = some revision) : revision = s.revision + 1 := by
  unfold advanceRevision checkedAdd at h
  split at h
  · exact (Option.some.inj h).symm
  · cases h

theorem replace_revision {s t : DocumentStore} {d : DocumentSnapshot}
    (h : s.replace d = some t) : t.revision = s.revision + 1 := by
  unfold replace at h
  split at h
  · cases h
  · obtain ⟨revision, hrevision, rfl⟩ := Option.map_eq_some_iff.mp h
    exact advance hrevision

theorem remove_revision {s t : DocumentStore} {uri : String}
    {d : DocumentSnapshot} (h : s.remove uri = some (d, t)) :
    t.revision = s.revision + 1 := by
  unfold remove at h
  split at h
  · cases h
  · obtain ⟨revision, hrevision, heq⟩ := Option.map_eq_some_iff.mp h
    obtain ⟨-, rfl⟩ := Prod.mk.inj heq
    exact advance hrevision

theorem applyChanges_revision {s t : DocumentStore} {uri : String} {version : Int}
    {changes : List ContentChange} (h : s.applyChanges uri version changes = some t) :
    t.revision = s.revision + 1 := by
  unfold applyChanges at h
  split at h
  · cases h
  · split at h
    · cases h
    · split at h
      · obtain ⟨text, -, h⟩ := Option.bind_eq_some_iff.mp h
        obtain ⟨revision, hrevision, h⟩ := Option.bind_eq_some_iff.mp h
        obtain rfl := Option.some.inj h
        exact advance hrevision
      · cases h

end analyzer.document.DocumentStore

namespace analyzer.lsp

open document json

variable {analysis : Analysis}

/-! ## What a message asks -/

/-- Methods that are not answered, whether they carry an identifier or not. -/
def Method.isNotification : Method → Bool
  | Exit | CancelRequest | DidOpen | DidChange | DidSave | DidClose
  | DidChangeConfiguration => true
  | Initialize | Shutdown | Hover | Definition | CodeAction | Unknown => false

/-- The identifier of a request. -/
def asks (message : Value) : Option Value := do
  let fields ← asObject message
  let id ← field "id" fields
  if (methodOf fields).any Method.isNotification then none else some id

/-- How a request is registered under its identifier. -/
def Registers (cancellation : CancellationRegistry) (ticket : Ticket)
    (cancellation' : CancellationRegistry) : Prop :=
  match RequestId.fromJson ticket.response_id with
  | none => ticket.request_id = none ∧ ticket.token = none ∧ cancellation' = cancellation
  | some request => ticket.request_id = some request ∧
      ∃ token, ticket.token = some token ∧ cancellation.begin request = some (token, cancellation')

/-- What a change does to the revisions: one of them goes up. -/
def Changes (server server' : Server) : Prop :=
  (server'.documents.revision = server.documents.revision + 1 ∧
    server'.configuration = server.configuration) ∨
  (server'.documents = server.documents ∧
    server'.configuration.revision = server.configuration.revision + 1)

/-- The registry after a message: a running server heeds a cancel. -/
def heeded (server : Server) (message : Value) : CancellationRegistry :=
  match cancelOf message with
  | none => server.cancellation
  | some request =>
    if server.lifecycle = .Running then server.cancellation.cancel request
    else server.cancellation

/-- All that a message can lead to. -/
inductive Handles (server : Server) (scheduler : RequestScheduler) (number : Nat)
    (message : Value) (handled : Handled) : Prop where
  | schedules {id : Value} {work : RequestWork} {request : Option RequestId} {token : Option Nat}
      (asked : asks message = some id) (snapshot : work.snapshot = .capture server)
      (scheduler : handled.scheduler = scheduler.spawn ⟨⟨number, id, request, token⟩, work, none⟩)
      (registers : Registers server.cancellation ⟨number, id, request, token⟩
        handled.server.cancellation)
      (keeps : cancelOf message = none)
      (documents : handled.server.documents = server.documents)
      (configuration : handled.server.configuration = server.configuration)
      (lifecycle : handled.server.lifecycle = server.lifecycle)
      (frames : handled.frames = []) (accepted : handled.accepted = false)
  | answers (scheduler : handled.scheduler = scheduler)
      (answer : ∀ id, asks message = some id →
        ∃ frame, handled.frames = [frame] ∧ frame.id = some id)
      (honest : ∀ frame ∈ handled.frames, ∀ id, frame ≠ Frame.cancelled id)
      (cancellation : handled.server.cancellation = heeded server message)
      (accepted : handled.accepted = true → Changes server handled.server)
      (refused : handled.accepted = false →
        handled.server.documents = server.documents ∧
          handled.server.configuration = server.configuration)

theorem WorkspaceConfiguration.update_revision {s t : WorkspaceConfiguration} {settings : Value}
    (h : s.update settings = some t) : t.revision = s.revision + 1 := by
  unfold WorkspaceConfiguration.update at h
  split at h
  · cases h
  · obtain ⟨revision, hrevision, rfl⟩ := Option.map_eq_some_iff.mp h
    unfold checkedAdd at hrevision
    split at hrevision
    · exact (Option.some.inj hrevision).symm
    · cases hrevision

/-! ## What a message leads to -/

section Handle

variable {server : Server} {scheduler : RequestScheduler} {number : Nat} {message : Value}
  {fields : List (String × Value)}

theorem asks_field (hfields : asObject message = some fields) {id : Value}
    (h : asks message = some id) :
    field "id" fields = some id ∧ (methodOf fields).any Method.isNotification = false := by
  unfold asks at h
  rw [hfields, Option.bind_eq_bind, Option.bind_some] at h
  obtain ⟨id', hid, h⟩ := Option.bind_eq_some_iff.mp h
  split at h
  · cases h
  · next hnotification =>
    obtain rfl := Option.some.inj h
    exact ⟨hid, Bool.eq_false_iff.mpr hnotification⟩

/-- Nobody asks without an identifier. -/
theorem asks_none (hfields : asObject message = some fields) (hid : field "id" fields = none) :
    asks message = none := by
  by_contra hasks
  obtain ⟨id, hasks⟩ := Option.ne_none_iff_exists'.mp hasks
  rw [(asks_field hfields hasks).1] at hid
  cases hid

theorem asks_eq (hfields : asObject message = some fields) {id : Value}
    (hid : field "id" fields = some id)
    (hmethod : (methodOf fields).any Method.isNotification = false) : asks message = some id := by
  unfold asks
  rw [hfields]
  show (field "id" fields).bind _ = _
  rw [hid]
  simp [hmethod]

theorem cancelOf_none (hfields : asObject message = some fields)
    (hmethod : methodOf fields ≠ some .CancelRequest) : cancelOf message = none := by
  unfold cancelOf
  rw [hfields]
  exact if_neg hmethod

theorem heeded_none (h : cancelOf message = none) : heeded server message = server.cancellation := by
  unfold heeded
  rw [h]

/-- A message that changes nothing but what its frames say. -/
theorem Handles.rest {server' : Server} {frames : List Frame}
    (answer : ∀ id, asks message = some id → ∃ frame, frames = [frame] ∧ frame.id = some id)
    (honest : ∀ frame ∈ frames, ∀ id, frame ≠ Frame.cancelled id)
    (cancellation : server'.cancellation = heeded server message)
    (documents : server'.documents = server.documents)
    (configuration : server'.configuration = server.configuration) :
    Handles server scheduler number message (answered server' scheduler frames) :=
  .answers rfl answer honest cancellation (fun h => Bool.noConfusion h)
    fun _ => ⟨documents, configuration⟩

theorem errorIfAsked_answers (hfields : asObject message = some fields) (code : Int)
    (text : String) : ∀ id, asks message = some id →
      ∃ frame, errorIfAsked (field "id" fields) code text = [frame] ∧ frame.id = some id := by
  intro id h
  rw [(asks_field hfields h).1]
  exact ⟨.Error id code text, rfl, rfl⟩

theorem errorIfAsked_honest {id : Option Value} {code : Int} {text : String}
    (hcode : code ≠ REQUEST_CANCELLED_CODE) :
    ∀ frame ∈ errorIfAsked id code text, ∀ id', frame ≠ Frame.cancelled id' := by
  rintro frame hframe id' rfl
  obtain ⟨id'', -, heq⟩ := List.mem_map.mp hframe
  exact hcode (Frame.Error.inj heq).2.1

theorem publish_honest (server : Server) : ∀ frame ∈ publishCurrentDiagnostics analysis server,
    ∀ id, frame ≠ Frame.cancelled id := by
  rintro frame hframe id rfl
  obtain ⟨e, -, heq⟩ := List.mem_map.mp hframe
  cases heq

theorem changed_handles (hasks : asks message = none) (hcancel : cancelOf message = none)
    {documents : DocumentStore} (h : documents.revision = server.documents.revision + 1) :
    Handles server scheduler number message (changed analysis server scheduler documents) := by
  refine .answers rfl (fun id hid => ?_) (publish_honest _) (heeded_none hcancel).symm
    (fun _ => .inl ⟨h, rfl⟩) fun hfalse => Bool.noConfusion hfalse
  rw [hasks] at hid
  cases hid

/-- A notification that is not heeded. -/
theorem ignored (hasks : asks message = none) (hcancel : cancelOf message = none) :
    Handles server scheduler number message (answered server scheduler []) := by
  refine .rest (fun id hid => ?_) (fun _ hframe => absurd hframe List.not_mem_nil)
    (heeded_none hcancel).symm rfl rfl
  rw [hasks] at hid
  cases hid

theorem published (hasks : asks message = none) (hcancel : cancelOf message = none) :
    Handles server scheduler number message
      (answered server scheduler (publishCurrentDiagnostics analysis server)) := by
  refine .rest (fun id hid => ?_) (publish_honest _) (heeded_none hcancel).symm rfl rfl
  rw [hasks] at hid
  cases hid

theorem openDocument_handles (hasks : asks message = none) (hcancel : cancelOf message = none)
    (params : Option Value) : Handles server scheduler number message
      (openDocument analysis server scheduler params) := by
  unfold openDocument
  split
  · exact ignored hasks hcancel
  · split
    · split
      · exact ignored hasks hcancel
      · next hreplace => exact changed_handles hasks hcancel (DocumentStore.replace_revision hreplace)
    · exact ignored hasks hcancel

theorem changeDocument_handles (hasks : asks message = none) (hcancel : cancelOf message = none)
    (params : Option Value) : Handles server scheduler number message
      (changeDocument analysis server scheduler params) := by
  unfold changeDocument
  split
  · exact ignored hasks hcancel
  · split
    · split
      · exact ignored hasks hcancel
      · next hchanges =>
        exact changed_handles hasks hcancel (DocumentStore.applyChanges_revision hchanges)
    · exact ignored hasks hcancel

theorem saveDocument_handles (hasks : asks message = none) (hcancel : cancelOf message = none)
    (params : Option Value) : Handles server scheduler number message
      (saveDocument analysis server scheduler params) := by
  unfold saveDocument
  split
  · exact ignored hasks hcancel
  · split_ifs
    · exact published hasks hcancel
    · exact ignored hasks hcancel

theorem closeDocument_handles (hasks : asks message = none) (hcancel : cancelOf message = none)
    (params : Option Value) : Handles server scheduler number message
      (closeDocument analysis server scheduler params) := by
  unfold closeDocument
  split
  · exact ignored hasks hcancel
  · next document documents hremove =>
    obtain ⟨uri, -, hremove⟩ := Option.bind_eq_some_iff.mp hremove
    refine .answers rfl (fun id hid => ?_) (fun frame hframe id => ?_) (heeded_none hcancel).symm
      (fun _ => .inl ⟨DocumentStore.remove_revision hremove, rfl⟩)
      fun hfalse => Bool.noConfusion hfalse
    · rw [hasks] at hid
      cases hid
    · rcases List.mem_cons.mp hframe with rfl | hframe
      · rintro ⟨⟩
      · exact publish_honest _ frame hframe id

theorem updateConfiguration_handles (hasks : asks message = none)
    (hcancel : cancelOf message = none) (params : Option Value) :
    Handles server scheduler number message
      (updateConfiguration analysis server scheduler params) := by
  unfold updateConfiguration
  split
  · exact ignored hasks hcancel
  · split
    · exact published hasks hcancel
    · next hupdate =>
      refine .answers rfl (fun id hid => ?_) (publish_honest _) (heeded_none hcancel).symm
        (fun _ => .inr ⟨rfl, WorkspaceConfiguration.update_revision hupdate⟩)
        fun hfalse => Bool.noConfusion hfalse
      rw [hasks] at hid
      cases hid

/-- An answer that is one error, to whoever asks. -/
theorem refuses (hcancel : cancelOf message = none) {id : Value} {code : Int} {text : String}
    (hcode : code ≠ REQUEST_CANCELLED_CODE)
    (hid : ∀ id', asks message = some id' → id = id') :
    Handles server scheduler number message
      (answered server scheduler [.Error id code text]) := by
  refine .rest (fun id' hasks => ⟨_, rfl, ?_⟩) (fun frame hframe id' => ?_)
    (heeded_none hcancel).symm rfl rfl
  · rw [hid id' hasks]
    rfl
  · obtain rfl := List.mem_singleton.mp hframe
    exact fun heq => hcode (Frame.Error.inj heq).2.1

/-- A result to whoever asks, and the next part of the life of the server. -/
theorem resolves (hcancel : cancelOf message = none) {id : Value} (lifecycle : Lifecycle)
    (result : Value) (hid : ∀ id', asks message = some id' → id = id') :
    Handles server scheduler number message
      (answered { server with lifecycle } scheduler [.Result id result]) := by
  have hkept : server.cancellation = heeded server message := (heeded_none hcancel).symm
  refine .rest (fun id' hasks => ⟨_, rfl, ?_⟩) (fun frame hframe id' => ?_) hkept rfl rfl
  · rw [hid id' hasks]
    rfl
  · obtain rfl := List.mem_singleton.mp hframe
    rintro ⟨⟩

theorem schedule_handles (hcancel : cancelOf message = none) {id : Value} {work : RequestWork}
    (hasks : asks message = some id) (hwork : work.snapshot = .capture server) :
    Handles server scheduler number message
      (match scheduler.schedule server number id work with
        | none => answered server scheduler [Frame.duplicate id]
        | some (server, scheduler) => answered server scheduler []) := by
  unfold RequestScheduler.schedule
  cases hid : RequestId.fromJson id with
  | none =>
    refine .schedules hasks hwork rfl ?_ hcancel rfl rfl rfl rfl rfl
    unfold Registers
    rw [hid]
    exact ⟨rfl, rfl, rfl⟩
  | some request =>
    dsimp only
    cases hbegin : server.cancellation.begin request with
    | none =>
      refine refuses hcancel (show INVALID_REQUEST_CODE ≠ REQUEST_CANCELLED_CODE by decide) ?_
      exact fun id' hid' => Option.some.inj (hasks.symm.trans hid')
    | some registered =>
      refine .schedules hasks hwork rfl ?_ hcancel rfl rfl rfl rfl rfl
      unfold Registers
      rw [hid]
      exact ⟨rfl, registered.1, rfl, hbegin⟩

theorem dispatchWork_handles (hfields : asObject message = some fields)
    (hcancel : cancelOf message = none)
    (hmethod : (methodOf fields).any Method.isNotification = false) {work : Option RequestWork}
    (hwork : ∀ w ∈ work, w.snapshot = .capture server) : Handles server scheduler number message
      (dispatchWork server scheduler number (field "id" fields) work) := by
  unfold dispatchWork
  split
  · next hid => exact ignored (asks_none hfields hid) hcancel
  · next id hid =>
    refine refuses hcancel (show INVALID_PARAMS_CODE ≠ REQUEST_CANCELLED_CODE by decide) ?_
    exact fun id' hasks => Option.some.inj (hid.symm.trans (asks_field hfields hasks).1)
  · next id work hid =>
    exact schedule_handles hcancel (asks_eq hfields hid hmethod) (hwork work rfl)

theorem initialize_handles (hfields : asObject message = some fields)
    (hcancel : cancelOf message = none) : Handles server scheduler number message
      (initialize_ server scheduler (field "id" fields)) := by
  unfold initialize_
  split
  · next hid => exact ignored (asks_none hfields hid) hcancel
  · next id hid =>
    have hasked : ∀ id', asks message = some id' → id = id' := fun id' hasks =>
      Option.some.inj (hid.symm.trans (asks_field hfields hasks).1)
    split_ifs
    · exact refuses hcancel (by decide) hasked
    · exact resolves hcancel _ _ hasked

theorem shutdown_handles (hfields : asObject message = some fields)
    (hcancel : cancelOf message = none) : Handles server scheduler number message
      (shutdown server scheduler (field "id" fields)) := by
  unfold shutdown
  split
  · next hid => exact ignored (asks_none hfields hid) hcancel
  · next id hid =>
    have hasked : ∀ id', asks message = some id' → id = id' := fun id' hasks =>
      Option.some.inj (hid.symm.trans (asks_field hfields hasks).1)
    split_ifs
    · exact refuses hcancel (by decide) hasked
    · exact resolves hcancel _ _ hasked

theorem work_snapshot {work : Option RequestWork}
    (h : work = hoverWork server (field "params" fields) ∨
      work = definitionWork server (field "params" fields) ∨
      work = codeActionsWork server (field "params" fields)) :
    ∀ w ∈ work, w.snapshot = .capture server := by
  intro w hw
  rcases h with rfl | rfl | rfl <;> obtain ⟨request, -, rfl⟩ := Option.map_eq_some_iff.mp hw <;> rfl

/-- A message that the gate stops, and one that it lets through. -/
theorem lifecyclePermits_cases (server : Server) (method : Option Method) (id : Option Value) :
    (∃ code text, code ≠ REQUEST_CANCELLED_CODE ∧ server.lifecycle ≠ .Running ∧
      method ≠ some .Exit ∧ lifecyclePermits server method id = (false, errorIfAsked id code text)) ∨
    (lifecyclePermits server method id = (true, []) ∧
      (method = some .CancelRequest → server.lifecycle = .Running)) := by
  unfold lifecyclePermits
  split
  · exact .inr ⟨rfl, fun h => nomatch h⟩
  · exact .inr ⟨rfl, fun h => nomatch h⟩
  · next hlife _ hexit =>
    exact .inl ⟨_, _, by decide, by rw [hlife]; decide, hexit, rfl⟩
  · exact .inr ⟨rfl, fun h => nomatch h⟩
  · next hlife _ hexit _ =>
    exact .inl ⟨_, _, by decide, by rw [hlife]; decide, hexit, rfl⟩
  · next hlife _ _ => exact .inr ⟨rfl, fun _ => hlife⟩

/-- Every message is handled in one of two ways. -/
theorem handle_handles (analysis : Analysis) (server : Server) (scheduler : RequestScheduler)
    (number : Nat) (message : Value) : Handles server scheduler number message
      (handle analysis server scheduler number message) := by
  unfold handle
  cases hfields : asObject message with
  | none =>
    have hasks : asks message = none := by
      unfold asks
      rw [hfields]
      rfl
    have hcancel : cancelOf message = none := by
      unfold cancelOf
      rw [hfields]
      rfl
    refine refuses hcancel (show INVALID_REQUEST_CODE ≠ REQUEST_CANCELLED_CODE by decide) ?_
    intro id' hid
    rw [hasks] at hid
    cases hid
  | some fields =>
    dsimp only
    rcases lifecyclePermits_cases server (methodOf fields) (field "id" fields) with
      ⟨code, text, hcode, hlife, -, hgate⟩ | ⟨hgate, hrunning⟩
    · rw [hgate]
      refine .rest (errorIfAsked_answers hfields code text) (errorIfAsked_honest hcode) ?_ rfl rfl
      unfold heeded
      split
      · rfl
      · rw [if_neg hlife]
    · rw [hgate]
      dsimp only
      have hquiet : ∀ m, methodOf fields = some m → m.isNotification = true →
          asks message = none := by
        intro m hm hnotification
        by_contra hasks
        obtain ⟨id, hasks⟩ := Option.ne_none_iff_exists'.mp hasks
        have hmethod := (asks_field hfields hasks).2
        rw [hm, Option.any_some, hnotification] at hmethod
        cases hmethod
      cases hmethod : methodOf fields with
      | none =>
        have hcancel := cancelOf_none hfields (by rw [hmethod]; decide)
        exact .rest (errorIfAsked_answers hfields _ _) (errorIfAsked_honest (by decide))
          (heeded_none hcancel).symm rfl rfl
      | some method =>
        have hany : method.isNotification = false →
            (methodOf fields).any Method.isNotification = false := by
          intro h
          rw [hmethod]
          exact h
        cases method with
        | CancelRequest =>
          have hheeded : (cancel server (field "params" fields)).cancellation =
              heeded server message := by
            have htarget : cancelOf message = cancelTarget (field "params" fields) := by
              unfold cancelOf
              rw [hfields, Option.bind_eq_bind, Option.bind_some, if_pos hmethod]
            unfold cancel heeded
            rw [htarget]
            cases cancelTarget (field "params" fields) with
            | none => rfl
            | some request => exact (if_pos (hrunning hmethod)).symm
          refine .rest (fun id hid => ?_) (fun _ hframe => absurd hframe List.not_mem_nil) hheeded
            (by unfold cancel; split <;> rfl) (by unfold cancel; split <;> rfl)
          rw [hquiet _ hmethod rfl] at hid
          cases hid
        | Initialize =>
          exact initialize_handles hfields (cancelOf_none hfields (by rw [hmethod]; decide))
        | Shutdown =>
          exact shutdown_handles hfields (cancelOf_none hfields (by rw [hmethod]; decide))
        | Exit =>
          obtain hcancel := cancelOf_none hfields (by rw [hmethod]; decide)
          refine .answers rfl (fun id hid => ?_) (fun _ hframe => absurd hframe List.not_mem_nil)
            (heeded_none hcancel).symm (fun h => Bool.noConfusion h) fun _ => ⟨rfl, rfl⟩
          rw [hquiet _ hmethod rfl] at hid
          cases hid
        | Unknown =>
          have hcancel := cancelOf_none hfields (by rw [hmethod]; decide)
          exact .rest (errorIfAsked_answers hfields _ _) (errorIfAsked_honest (by decide))
            (heeded_none hcancel).symm rfl rfl
        | DidOpen =>
          exact openDocument_handles (hquiet _ hmethod rfl)
            (cancelOf_none hfields (by rw [hmethod]; decide)) _
        | DidChange =>
          exact changeDocument_handles (hquiet _ hmethod rfl)
            (cancelOf_none hfields (by rw [hmethod]; decide)) _
        | DidSave =>
          exact saveDocument_handles (hquiet _ hmethod rfl)
            (cancelOf_none hfields (by rw [hmethod]; decide)) _
        | DidClose =>
          exact closeDocument_handles (hquiet _ hmethod rfl)
            (cancelOf_none hfields (by rw [hmethod]; decide)) _
        | DidChangeConfiguration =>
          exact updateConfiguration_handles (hquiet _ hmethod rfl)
            (cancelOf_none hfields (by rw [hmethod]; decide)) _
        | Hover =>
          exact dispatchWork_handles hfields (cancelOf_none hfields (by rw [hmethod]; decide))
            (hany rfl) (work_snapshot (.inl rfl))
        | Definition =>
          exact dispatchWork_handles hfields (cancelOf_none hfields (by rw [hmethod]; decide))
            (hany rfl) (work_snapshot (.inr (.inl rfl)))
        | CodeAction =>
          exact dispatchWork_handles hfields (cancelOf_none hfields (by rw [hmethod]; decide))
            (hany rfl) (work_snapshot (.inr (.inr rfl)))

end Handle

/-! ## What a step does -/

/-- The outcome of a request, once there is one. -/
def ServerEvent.task : ServerEvent → Option (Ticket × Option WorkerOutcome)
  | Completed completed => some (completed.ticket, some completed.outcome)
  | Input _ | EndOfInput => none

def System.tasks (s : System) : List (Ticket × Option WorkerOutcome) :=
  s.scheduler.pool.map (fun worker => (worker.ticket, worker.outcome)) ++
    s.events.filterMap ServerEvent.task

theorem System.tasks_tickets (s : System) : s.tasks.map Prod.fst = s.inFlight := by
  unfold tasks inFlight
  rw [List.map_append, List.map_map, List.map_filterMap]
  congr 1
  apply List.filterMap_congr
  intro event _
  cases event <;> rfl

theorem System.mem_inFlight {s : System} {task : Ticket × Option WorkerOutcome}
    (h : task ∈ s.tasks) : task.1 ∈ s.inFlight := by
  rw [← s.tasks_tickets]
  exact List.mem_map_of_mem h

theorem System.mem_pool {s : System} {worker : Worker} (h : worker ∈ s.scheduler.pool) :
    worker.ticket ∈ s.inFlight := List.mem_append_left _ (List.mem_map_of_mem h)

/-- Nothing is taken or sent. At most a worker comes to its outcome. -/
structure Quiet (analysis : Analysis) (s t : System) : Prop where
  server : t.server = s.server
  pending : t.scheduler.pending = s.scheduler.pending
  inFlight : s.inFlight.Perm t.inFlight
  received : t.received = s.received
  output : t.output = s.output
  accepted : t.accepted = s.accepted
  cancels : t.cancels = s.cancels
  pool : ∀ worker ∈ t.scheduler.pool, ∃ worker' ∈ s.scheduler.pool,
    worker.ticket = worker'.ticket ∧ worker.work = worker'.work
  tasks : ∀ task ∈ t.tasks, task ∈ s.tasks ∨ ∃ worker ∈ s.scheduler.pool, ∃ outcome,
    Outcome analysis s.server worker outcome ∧ task = (worker.ticket, some outcome)

/-- A message is taken. -/
structure Takes (analysis : Analysis) (s t : System) (message : Value) : Prop where
  server : t.server = (handle analysis s.server s.scheduler s.received.length message).server
  scheduler : t.scheduler =
    (handle analysis s.server s.scheduler s.received.length message).scheduler
  received : t.received = s.received ++ [message]
  output : t.output = s.output ++
    (handle analysis s.server s.scheduler s.received.length message).frames.map
      (s.received.length, ·)
  accepted : t.accepted =
    if (handle analysis s.server s.scheduler s.received.length message).accepted then
      s.accepted ++ [s.received.length] else s.accepted
  cancels : t.cancels = s.cancels ++ s.cancelsOf message
  tickets : t.events.filterMap ServerEvent.ticket = s.events.filterMap ServerEvent.ticket
  tasks : t.events.filterMap ServerEvent.task = s.events.filterMap ServerEvent.task

/-- The answer of a worker is sent. -/
structure Commits (s t : System) (completed : CompletedRequest) : Prop where
  server : t.server = (s.scheduler.complete s.server completed).1
  pending : t.scheduler.pending = s.scheduler.pending - 1
  inFlight : s.inFlight.Perm (completed.ticket :: t.inFlight)
  received : t.received = s.received
  output : t.output = s.output ++
    [(completed.ticket.number, (s.scheduler.complete s.server completed).2.2)]
  accepted : t.accepted = s.accepted
  cancels : t.cancels = s.cancels
  pool : t.scheduler.pool = s.scheduler.pool
  task : (completed.ticket, some completed.outcome) ∈ s.tasks
  tasks : ∀ task ∈ t.tasks, task ∈ s.tasks

theorem Works.moves {s t : System} (h : Works analysis s t) : Quiet analysis s t ∨
    (∃ message, Takes analysis s t message) ∨ ∃ completed, Commits s t completed := by
  cases h with
  | @run before after worker outcome waits fresh comes =>
    refine .inl ⟨rfl, rfl, ?_, rfl, rfl, rfl, rfl, fun w hw => ?_, fun task htask => ?_⟩
    · simp [System.inFlight, waits]
    · rw [waits]
      rcases List.mem_append.mp hw with hw | hw
      · exact ⟨w, List.mem_append_left _ hw, rfl, rfl⟩
      · rcases List.mem_cons.mp hw with rfl | hw
        · exact ⟨worker, by simp, rfl, rfl⟩
        · exact ⟨w, by simp [hw], rfl, rfl⟩
    · simp only [System.tasks, waits, List.map_append, List.map_cons, List.mem_append,
        List.mem_cons] at htask ⊢
      rcases htask with (htask | rfl | htask) | htask
      · exact .inl (.inl (.inl htask))
      · exact .inr ⟨worker, .inr (.inl rfl), outcome, comes, rfl⟩
      · exact .inl (.inl (.inr (.inr htask)))
      · exact .inl (.inr htask)
  | @send before after worker outcome done ran =>
    refine .inl ⟨rfl, rfl, ?_, rfl, rfl, rfl, rfl, fun w hw => ?_, fun task htask => ?_⟩
    · simp only [System.inFlight, done, List.map_append, List.map_cons, List.filterMap_append,
        ← List.append_assoc]
      refine (List.Perm.append_right _ List.perm_middle).trans ?_
      rw [List.cons_append]
      refine (List.perm_append_singleton worker.ticket _).symm.trans ?_
      simp [ServerEvent.ticket]
    · rw [done]
      refine ⟨w, ?_, rfl, rfl⟩
      rcases List.mem_append.mp hw with hw | hw
      · exact List.mem_append_left _ hw
      · exact List.mem_append_right _ (List.mem_cons_of_mem _ hw)
    · left
      simp only [System.tasks, done, List.map_append, List.map_cons, List.filterMap_append,
        List.mem_append, List.mem_cons, ran] at htask ⊢
      rcases htask with (htask | htask) | htask | htask
      · exact .inl (.inl htask)
      · exact .inl (.inr (.inr htask))
      · exact .inr htask
      · exact .inl (.inr (.inl (by simpa [ServerEvent.task] using htask)))
  | @take event rest running stays next =>
    cases event with
    | EndOfInput =>
      refine .inl ⟨rfl, rfl, ?_, rfl, rfl, rfl, rfl, fun w hw => ⟨w, hw, rfl, rfl⟩, ?_⟩
      · simp [System.inFlight, System.take, next, List.filterMap_cons, ServerEvent.ticket]
      · intro task htask
        left
        simpa [System.tasks, System.take, next, List.filterMap_cons, ServerEvent.task] using htask
    | Input message =>
      by_cases hterminal : s.terminal.isSome = true
      · refine .inl ?_
        have htake : ({ s with events := rest } : System).take analysis (.Input message) =
            { s with events := rest, reader := .Stopped } := if_pos hterminal
        rw [htake]
        refine ⟨rfl, rfl, ?_, rfl, rfl, rfl, rfl, fun w hw => ⟨w, hw, rfl, rfl⟩, ?_⟩
        · simp [System.inFlight, next, List.filterMap_cons, ServerEvent.ticket]
        · intro task htask
          left
          simpa [System.tasks, next, List.filterMap_cons, ServerEvent.task] using htask
      · refine .inr (.inl ⟨message, ?_⟩)
        have hcancels : ({ s with events := rest } : System).cancelsOf message =
            s.cancelsOf message := by
          simp [System.cancelsOf, System.inFlight, next, List.filterMap_cons, ServerEvent.ticket]
        unfold System.take
        simp only
        rw [if_neg hterminal, hcancels]
        refine ⟨rfl, rfl, rfl, rfl, rfl, rfl, ?_, ?_⟩
        · simp [next, List.filterMap_cons, ServerEvent.ticket]
        · simp [next, List.filterMap_cons, ServerEvent.task]
    | Completed completed =>
      refine .inr (.inr ⟨completed, rfl, rfl, ?_, rfl, rfl, rfl, rfl, rfl, ?_, ?_⟩)
      · simp only [System.inFlight, System.take, next, List.filterMap_cons, ServerEvent.ticket]
        exact List.perm_middle
      · simp [System.tasks, next, ServerEvent.task]
      · intro task htask
        simp only [System.tasks, System.take, next, List.filterMap_cons, ServerEvent.task,
          List.mem_append, List.mem_cons] at htask ⊢
        exact htask.imp_right .inr
  | leave running terminal idle =>
    exact .inl ⟨rfl, rfl, .refl _, rfl, rfl, rfl, rfl, fun w hw => ⟨w, hw, rfl, rfl⟩,
      fun task htask => .inl htask⟩

/-- Each step is quiet, takes a message or sends an answer. -/
theorem Step.moves {s t : System} (h : Step analysis s t) : Quiet analysis s t ∨
    (∃ message, Takes analysis s t message) ∨ ∃ completed, Commits s t completed := by
  cases h with
  | read message reading =>
    refine .inl ⟨rfl, rfl, ?_, rfl, rfl, rfl, rfl, fun w hw => ⟨w, hw, rfl, rfl⟩, ?_⟩
    · simp [System.inFlight, List.filterMap_cons, ServerEvent.ticket]
    · intro task htask
      left
      simpa [System.tasks, ServerEvent.task] using htask
  | endOfInput reading =>
    refine .inl ⟨rfl, rfl, ?_, rfl, rfl, rfl, rfl, fun w hw => ⟨w, hw, rfl, rfl⟩, ?_⟩
    · simp [System.inFlight, List.filterMap_cons, ServerEvent.ticket]
    · intro task htask
      left
      simpa [System.tasks, ServerEvent.task] using htask
  | work h => exact h.moves

end analyzer.lsp
