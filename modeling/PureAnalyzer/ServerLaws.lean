-- The laws of the language server, in every run: who is in flight, what is
-- registered, what was answered and with what.
import PureAnalyzer.ServerSteps

namespace analyzer.lsp

open document json

variable {analysis : Analysis}

/-! ## The count of the pending requests -/

def Counted (s : System) : Prop := s.scheduler.pending = s.inFlight.length

/-- The requests in flight once a message is taken: those before, and perhaps its own. -/
theorem Takes.inFlight {s t : System} {message : Value} (h : Takes analysis s t message) :
    (t.scheduler = s.scheduler ∧ t.inFlight = s.inFlight) ∨
    ∃ worker, t.scheduler = s.scheduler.spawn worker ∧
      t.inFlight.Perm (worker.ticket :: s.inFlight) := by
  have hscheduler := h.scheduler
  cases handle_handles analysis s.server s.scheduler s.received.length message with
  | answers scheduler =>
    rw [scheduler] at hscheduler
    refine .inl ⟨hscheduler, ?_⟩
    unfold System.inFlight
    rw [hscheduler, h.tickets]
  | schedules asked snapshot scheduler =>
    rw [scheduler] at hscheduler
    refine .inr ⟨_, hscheduler, ?_⟩
    unfold System.inFlight
    rw [hscheduler, h.tickets]
    simp only [RequestScheduler.spawn, List.map_append, List.map_singleton, List.append_assoc]
    exact List.perm_middle

theorem Counted.step {s t : System} (hs : Counted s) (h : Step analysis s t) : Counted t := by
  unfold Counted at hs ⊢
  rcases h.moves with h | ⟨message, h⟩ | ⟨completed, h⟩
  · rw [h.pending, hs, h.inFlight.length_eq]
  · rcases h.inFlight with ⟨hscheduler, hflight⟩ | ⟨worker, hscheduler, hflight⟩
    · rw [hscheduler, hflight, hs]
    · rw [hscheduler, hflight.length_eq, List.length_cons, ← hs]
      rfl
  · have hlength := h.inFlight.length_eq
    rw [List.length_cons] at hlength
    rw [h.pending, hs, hlength]
    rfl

/-! ## The registry -/

/-- Every request in flight that has an identifier to register is registered, and
no other is. -/
structure Registered (s : System) : Prop where
  id : ∀ ticket ∈ s.inFlight, ticket.request_id = RequestId.fromJson ticket.response_id
  held : ∀ ticket ∈ s.inFlight, ∀ request, ticket.request_id = some request →
    ∃ token, ticket.token = some token ∧ s.server.cancellation.active request = some token
  bare : ∀ ticket ∈ s.inFlight, ticket.request_id = none → ticket.token = none
  once : (s.inFlight.filterMap Ticket.request_id).Nodup
  owner : ∀ request token, s.server.cancellation.active request = some token →
    token < s.server.cancellation.cells.length ∧
      ∃ ticket ∈ s.inFlight, ticket.request_id = some request
  distinct : ∀ request request' token, s.server.cancellation.active request = some token →
    s.server.cancellation.active request' = some token → request = request'

theorem cancel_active (s : CancellationRegistry) (request : RequestId) :
    (s.cancel request).active = s.active := by
  unfold CancellationRegistry.cancel
  split <;> rfl

theorem cancel_length (s : CancellationRegistry) (request : RequestId) :
    (s.cancel request).cells.length = s.cells.length := by
  unfold CancellationRegistry.cancel
  split <;> simp

theorem heeded_active (server : Server) (message : Value) :
    (heeded server message).active = server.cancellation.active := by
  unfold heeded
  split
  · rfl
  · split_ifs
    · exact cancel_active _ _
    · rfl

theorem heeded_length (server : Server) (message : Value) :
    (heeded server message).cells.length = server.cancellation.cells.length := by
  unfold heeded
  split
  · rfl
  · split_ifs
    · exact cancel_length _ _
    · rfl

/-- The requests in flight and the registry may change in their order and in the cells. -/
theorem Registered.congr {s t : System} (hs : Registered s) (hflight : s.inFlight.Perm t.inFlight)
    (hactive : t.server.cancellation.active = s.server.cancellation.active)
    (hlength : t.server.cancellation.cells.length = s.server.cancellation.cells.length) :
    Registered t := by
  refine ⟨fun ticket ht => hs.id ticket (hflight.mem_iff.mpr ht),
    fun ticket ht request hr => ?_, fun ticket ht => hs.bare ticket (hflight.mem_iff.mpr ht),
    (hflight.filterMap _).nodup_iff.mp hs.once, fun request token hr => ?_,
    fun request request' token hr hr' => ?_⟩
  · rw [hactive]
    exact hs.held ticket (hflight.mem_iff.mpr ht) request hr
  · rw [hactive] at hr
    obtain ⟨hlt, ticket, ht, hid⟩ := hs.owner request token hr
    exact ⟨hlength ▸ hlt, ticket, hflight.mem_iff.mp ht, hid⟩
  · rw [hactive] at hr hr'
    exact hs.distinct request request' token hr hr'

/-- A request that is not in flight has no token in the registry. -/
theorem Registered.inactive {s : System} (hs : Registered s) {request : RequestId}
    (h : ∀ ticket ∈ s.inFlight, ticket.request_id ≠ some request) :
    s.server.cancellation.active request = none := by
  cases hactive : s.server.cancellation.active request with
  | none => rfl
  | some token =>
    obtain ⟨-, ticket, hmem, hid⟩ := hs.owner request token hactive
    exact absurd hid (h ticket hmem)

theorem begin_some {s s' : CancellationRegistry} {request : RequestId} {token : Nat}
    (h : s.begin request = some (token, s')) : s.active request = none ∧ token = s.cells.length ∧
      s' = ⟨fun r => if r = request then some token else s.active r, s.cells ++ [false]⟩ := by
  unfold CancellationRegistry.begin at h
  split at h
  · cases h
  · next hnone =>
    obtain ⟨rfl, rfl⟩ := Prod.mk.inj (Option.some.inj h)
    exact ⟨hnone, rfl, rfl⟩

theorem Registered.schedule {s t : System} (hs : Registered s) {ticket : Ticket}
    (hflight : t.inFlight.Perm (ticket :: s.inFlight))
    (hregisters : Registers s.server.cancellation ticket t.server.cancellation) :
    Registered t := by
  unfold Registers at hregisters
  cases hid : RequestId.fromJson ticket.response_id with
  | none =>
    rw [hid] at hregisters
    obtain ⟨hrequest, htoken, hcancellation⟩ := hregisters
    have hcons : ∀ x ∈ t.inFlight, x = ticket ∨ x ∈ s.inFlight := fun x hx =>
      List.mem_cons.mp (hflight.mem_iff.mp hx)
    refine ⟨fun x hx => ?_, fun x hx request hr => ?_, fun x hx hr => ?_, ?_, ?_, ?_⟩
    · rcases hcons x hx with rfl | hx
      · rw [hrequest, hid]
      · exact hs.id x hx
    · rcases hcons x hx with rfl | hx
      · rw [hrequest] at hr
        cases hr
      · rw [hcancellation]
        exact hs.held x hx request hr
    · rcases hcons x hx with rfl | hx
      · exact htoken
      · exact hs.bare x hx hr
    · rw [(hflight.filterMap _).nodup_iff, List.filterMap_cons_none hrequest]
      exact hs.once
    · intro request token hr
      rw [hcancellation] at hr ⊢
      obtain ⟨hlt, x, hx, hxid⟩ := hs.owner request token hr
      exact ⟨hlt, x, hflight.mem_iff.mpr (List.mem_cons_of_mem _ hx), hxid⟩
    · intro request request' token hr hr'
      rw [hcancellation] at hr hr'
      exact hs.distinct request request' token hr hr'
  | some request =>
    rw [hid] at hregisters
    obtain ⟨hrequest, token, htoken, hbegin⟩ := hregisters
    obtain ⟨hfree, hnew, hcancellation⟩ := begin_some hbegin
    have hcons : ∀ x ∈ t.inFlight, x = ticket ∨ x ∈ s.inFlight := fun x hx =>
      List.mem_cons.mp (hflight.mem_iff.mp hx)
    have hother : ∀ x ∈ s.inFlight, x.request_id ≠ some request := by
      intro x hx hxid
      obtain ⟨_, -, hactive⟩ := hs.held x hx request hxid
      rw [hfree] at hactive
      cases hactive
    refine ⟨fun x hx => ?_, fun x hx r hr => ?_, fun x hx hr => ?_, ?_, ?_, ?_⟩
    · rcases hcons x hx with rfl | hx
      · rw [hrequest, hid]
      · exact hs.id x hx
    · rw [hcancellation]
      rcases hcons x hx with rfl | hx
      · obtain rfl : request = r := Option.some.inj (hrequest.symm.trans hr)
        exact ⟨token, htoken, if_pos rfl⟩
      · obtain ⟨k, hk, hactive⟩ := hs.held x hx r hr
        refine ⟨k, hk, ?_⟩
        have hne : r ≠ request := fun heq => hother x hx (heq ▸ hr)
        exact (if_neg hne).trans hactive
    · rcases hcons x hx with rfl | hx
      · rw [hrequest] at hr
        cases hr
      · exact hs.bare x hx hr
    · rw [(hflight.filterMap _).nodup_iff, List.filterMap_cons_some hrequest, List.nodup_cons]
      refine ⟨fun hmem => ?_, hs.once⟩
      obtain ⟨x, hx, hxid⟩ := List.mem_filterMap.mp hmem
      exact hother x hx hxid
    · intro r k hr
      rw [hcancellation] at hr ⊢
      simp only [List.length_append, List.length_singleton] at hr ⊢
      split_ifs at hr with heq
      · obtain rfl := Option.some.inj hr
        exact ⟨by omega, ticket, hflight.mem_iff.mpr List.mem_cons_self, heq ▸ hrequest⟩
      · obtain ⟨hlt, x, hx, hxid⟩ := hs.owner r k hr
        exact ⟨by omega, x, hflight.mem_iff.mpr (List.mem_cons_of_mem _ hx), hxid⟩
    · intro r r' k hr hr'
      rw [hcancellation] at hr hr'
      simp only at hr hr'
      split_ifs at hr hr' with heq heq'
      · rw [heq, heq']
      · have hlt := (hs.owner r' k hr').1
        obtain rfl := Option.some.inj hr
        omega
      · have hlt := (hs.owner r k hr).1
        obtain rfl := Option.some.inj hr'
        omega
      · exact hs.distinct r r' k hr hr'

/-- What finishing a request in flight does to the registry, and says. -/
theorem Registered.finish {s : System} (hs : Registered s) {ticket : Ticket}
    (hmem : ticket ∈ s.inFlight) :
    (∃ request token, ticket.request_id = some request ∧ ticket.token = some token ∧
      s.server.cancellation.active request = some token ∧
      RequestScheduler.isCancelled ticket s.server = (s.server.cancellation.isCancelled token,
        { s.server.cancellation with
          active := fun r => if r = request then none else s.server.cancellation.active r })) ∨
    (ticket.request_id = none ∧ ticket.token = none ∧
      RequestScheduler.isCancelled ticket s.server = (false, s.server.cancellation)) := by
  unfold RequestScheduler.isCancelled
  cases hrequest : ticket.request_id with
  | none =>
    have htoken := hs.bare ticket hmem hrequest
    rw [htoken]
    exact .inr ⟨rfl, rfl, rfl⟩
  | some request =>
    obtain ⟨token, htoken, hactive⟩ := hs.held ticket hmem request hrequest
    rw [htoken]
    exact .inl ⟨request, token, rfl, rfl, hactive, if_pos hactive⟩

theorem complete_cancellation (scheduler : RequestScheduler) (server : Server)
    (completed : CompletedRequest) : (scheduler.complete server completed).1 =
      { server with
        cancellation := (RequestScheduler.isCancelled completed.ticket server).2 } := rfl

theorem Registered.commit {s t : System} (hs : Registered s) {completed : CompletedRequest}
    (h : Commits s t completed) : Registered t := by
  have hin : completed.ticket ∈ s.inFlight := h.inFlight.mem_iff.mpr List.mem_cons_self
  have hold : ∀ x ∈ t.inFlight, x ∈ s.inFlight := fun x hx =>
    h.inFlight.mem_iff.mpr (List.mem_cons_of_mem _ hx)
  have hcancellation : t.server.cancellation =
      (RequestScheduler.isCancelled completed.ticket s.server).2 := by
    rw [h.server, complete_cancellation]
  have honce := hs.once
  rw [(h.inFlight.filterMap _).nodup_iff] at honce
  rcases hs.finish hin with ⟨request, token, hrequest, htoken, hactive, hfinish⟩ |
    ⟨hrequest, htoken, hfinish⟩
  · rw [hfinish] at hcancellation
    rw [List.filterMap_cons_some hrequest, List.nodup_cons] at honce
    have hother : ∀ x ∈ t.inFlight, x.request_id ≠ some request := fun x hx hxid =>
      honce.1 (List.mem_filterMap.mpr ⟨x, hx, hxid⟩)
    refine ⟨fun x hx => hs.id x (hold x hx), fun x hx r hr => ?_,
      fun x hx => hs.bare x (hold x hx), honce.2, fun r k hr => ?_, fun r r' k hr hr' => ?_⟩
    · obtain ⟨k, hk, hactive⟩ := hs.held x (hold x hx) r hr
      refine ⟨k, hk, ?_⟩
      have hne : r ≠ request := fun heq => hother x hx (heq ▸ hr)
      rw [hcancellation]
      exact (if_neg hne).trans hactive
    · rw [hcancellation] at hr ⊢
      simp only at hr
      split_ifs at hr with heq
      obtain ⟨hlt, x, hx, hxid⟩ := hs.owner r k hr
      refine ⟨hlt, x, ?_, hxid⟩
      rcases List.mem_cons.mp (h.inFlight.mem_iff.mp hx) with rfl | hx
      · exact absurd (Option.some.inj (hxid.symm.trans hrequest)) heq
      · exact hx
    · rw [hcancellation] at hr hr'
      simp only at hr hr'
      split_ifs at hr hr'
      exact hs.distinct r r' k hr hr'
  · rw [hfinish] at hcancellation
    rw [List.filterMap_cons_none hrequest] at honce
    refine ⟨fun x hx => hs.id x (hold x hx), fun x hx r hr => ?_,
      fun x hx => hs.bare x (hold x hx), honce, fun r k hr => ?_, fun r r' k hr hr' => ?_⟩
    · rw [hcancellation]
      exact hs.held x (hold x hx) r hr
    · rw [hcancellation] at hr ⊢
      obtain ⟨hlt, x, hx, hxid⟩ := hs.owner r k hr
      refine ⟨hlt, x, ?_, hxid⟩
      rcases List.mem_cons.mp (h.inFlight.mem_iff.mp hx) with rfl | hx
      · rw [hrequest] at hxid
        cases hxid
      · exact hx
    · rw [hcancellation] at hr hr'
      exact hs.distinct r r' k hr hr'

theorem Registered.step {s t : System} (hs : Registered s) (h : Step analysis s t) :
    Registered t := by
  rcases h.moves with h | ⟨message, h⟩ | ⟨completed, h⟩
  · exact hs.congr h.inFlight (by rw [h.server]) (by rw [h.server])
  · cases handle_handles analysis s.server s.scheduler s.received.length message with
    | answers scheduler answer honest cancellation =>
      have hcancellation : t.server.cancellation = heeded s.server message := by
        rw [h.server, cancellation]
      refine hs.congr ?_ (by rw [hcancellation, heeded_active])
        (by rw [hcancellation, heeded_length])
      unfold System.inFlight
      rw [h.scheduler, scheduler, h.tickets]
    | schedules asked snapshot scheduler registers =>
      refine hs.schedule ?_ (by rw [h.server]; exact registers)
      unfold System.inFlight
      rw [h.scheduler, scheduler, h.tickets]
      simp only [RequestScheduler.spawn, List.map_append, List.map_singleton, List.append_assoc]
      exact List.perm_middle
  · exact hs.commit h

/-! ## The answers -/

/-- The frames that a message led to. -/
def System.answers (s : System) (number : Nat) : List Frame :=
  (s.output.filter (·.1 = number)).map Prod.snd

structure Answered (s : System) : Prop where
  asked : ∀ ticket ∈ s.inFlight, ∃ message, s.received[ticket.number]? = some message ∧
    asks message = some ticket.response_id
  output : ∀ e ∈ s.output, e.1 < s.received.length
  once : ∀ (number : Nat) message id, s.received[number]? = some message →
    asks message = some id →
      (s.answers number).length + s.inFlight.countP (·.number = number) = 1 ∧
        ∀ frame ∈ s.answers number, frame.id = some id

theorem Answered.number {s : System} (hs : Answered s) {ticket : Ticket}
    (hmem : ticket ∈ s.inFlight) : ticket.number < s.received.length := by
  obtain ⟨message, hget, -⟩ := hs.asked ticket hmem
  exact (List.getElem?_eq_some_iff.mp hget).1

/-- What is in flight is not answered, and nothing else in flight is of its number. -/
theorem Answered.unanswered {s : System} (hs : Answered s) {ticket : Ticket}
    (hmem : ticket ∈ s.inFlight) : s.answers ticket.number = [] ∧
      s.inFlight.countP (·.number = ticket.number) = 1 := by
  obtain ⟨message, hget, hasks⟩ := hs.asked ticket hmem
  obtain ⟨hcount, -⟩ := hs.once ticket.number message _ hget hasks
  have hpos : 0 < s.inFlight.countP (·.number = ticket.number) :=
    List.countP_pos_iff.mpr ⟨ticket, hmem, by simp⟩
  have hlength : (s.answers ticket.number).length = 0 := by omega
  exact ⟨List.eq_nil_of_length_eq_zero hlength, by omega⟩

theorem answers_append {s t : System} {more : List (Nat × Frame)}
    (h : t.output = s.output ++ more) (number : Nat) : t.answers number =
      s.answers number ++ (more.filter (·.1 = number)).map Prod.snd := by
  unfold System.answers
  rw [h, List.filter_append, List.map_append]

theorem Answered.quiet {s t : System} (hs : Answered s) (h : Quiet analysis s t) :
    Answered t := by
  have hanswers : ∀ number, t.answers number = s.answers number := fun number => by
    unfold System.answers
    rw [h.output]
  refine ⟨fun ticket hmem => ?_, fun e he => ?_, fun number message id hget hasks => ?_⟩
  · rw [h.received]
    exact hs.asked ticket (h.inFlight.mem_iff.mpr hmem)
  · rw [h.output] at he
    rw [h.received]
    exact hs.output e he
  · rw [h.received] at hget
    rw [hanswers, ← h.inFlight.countP_eq]
    exact hs.once number message id hget hasks

theorem Answered.commit {s t : System} (hs : Answered s) {completed : CompletedRequest}
    (h : Commits s t completed)
    (hid : (s.scheduler.complete s.server completed).2.2.id = some completed.ticket.response_id) :
    Answered t := by
  have hin : completed.ticket ∈ s.inFlight := h.inFlight.mem_iff.mpr List.mem_cons_self
  refine ⟨fun ticket hmem => ?_, fun e he => ?_, fun number message id hget hasks => ?_⟩
  · rw [h.received]
    exact hs.asked ticket (h.inFlight.mem_iff.mpr (List.mem_cons_of_mem _ hmem))
  · rw [h.output] at he
    rw [h.received]
    rcases List.mem_append.mp he with he | he
    · exact hs.output e he
    · obtain rfl := List.mem_singleton.mp he
      exact hs.number hin
  · rw [h.received] at hget
    obtain ⟨hcount, hids⟩ := hs.once number message id hget hasks
    rw [h.inFlight.countP_eq, List.countP_cons] at hcount
    rw [answers_append h.output]
    by_cases hnumber : completed.ticket.number = number
    · subst hnumber
      have hnone := (hs.unanswered hin).1
      obtain ⟨message', hget', hasks'⟩ := hs.asked _ hin
      obtain rfl : message = message' := Option.some.inj (hget.symm.trans hget')
      obtain rfl : id = completed.ticket.response_id := Option.some.inj (hasks.symm.trans hasks')
      simp only [hnone, List.length_nil, decide_true, if_true] at hcount
      refine ⟨?_, fun frame hframe => ?_⟩
      · simp only [hnone, List.nil_append, List.filter_cons, decide_true, if_true, List.filter_nil,
          List.map_singleton, List.length_singleton]
        omega
      · rw [hnone] at hframe
        obtain rfl : frame = (s.scheduler.complete s.server completed).2.2 := by
          simpa using hframe
        exact hid
    · simp only [hnumber, decide_false, Bool.false_eq_true, if_false, Nat.add_zero] at hcount
      have hmore : ([(completed.ticket.number, (s.scheduler.complete s.server completed).2.2)].filter
          (·.1 = number)).map Prod.snd = [] := by
        simp [hnumber]
      rw [hmore, List.append_nil]
      exact ⟨hcount, hids⟩

theorem Answered.fresh {s : System} (hs : Answered s) : s.answers s.received.length = [] ∧
    s.inFlight.countP (·.number = s.received.length) = 0 := by
  constructor
  · unfold System.answers
    rw [List.filter_eq_nil_iff.mpr fun e he => ?_, List.map_nil]
    have hlt := hs.output e he
    simp only [decide_eq_true_eq]
    omega
  · rw [List.countP_eq_zero]
    intro ticket hmem
    have hlt := hs.number hmem
    simp only [decide_eq_true_eq]
    omega

theorem answers_take {s t : System} {message : Value} (h : Takes analysis s t message)
    (number : Nat) : t.answers number = s.answers number ++
      if number = s.received.length then
        (handle analysis s.server s.scheduler s.received.length message).frames else [] := by
  rw [answers_append h.output]
  congr 1
  rw [List.filter_map, List.map_map]
  split_ifs with heq
  · rw [List.filter_eq_self.mpr fun frame _ => by simp [heq]]
    exact List.map_id' _
  · rw [List.filter_eq_nil_iff.mpr fun frame _ => by simp [Ne.symm heq], List.map_nil]

theorem Answered.take {s t : System} (hs : Answered s) {message : Value}
    (h : Takes analysis s t message) : Answered t := by
  have hreceived : ∀ number < s.received.length, t.received[number]? = s.received[number]? := by
    intro number hlt
    rw [h.received, List.getElem?_append_left hlt]
  have hlast : t.received[s.received.length]? = some message := by
    rw [h.received]
    simp
  have hlength : t.received.length = s.received.length + 1 := by
    rw [h.received, List.length_append, List.length_singleton]
  have houtput : ∀ e ∈ t.output, e.1 < t.received.length := by
    intro e he
    rw [h.output] at he
    rcases List.mem_append.mp he with he | he
    · have hlt := hs.output e he
      omega
    · obtain ⟨frame, -, rfl⟩ := List.mem_map.mp he
      simp only
      omega
  obtain ⟨hnone, hzero⟩ := hs.fresh
  have hscheduler := h.scheduler
  cases handle_handles analysis s.server s.scheduler s.received.length message with
  | answers scheduler answer =>
    have hflight : t.inFlight = s.inFlight := by
      unfold System.inFlight
      rw [hscheduler, scheduler, h.tickets]
    refine ⟨fun ticket hmem => ?_, houtput, fun number message' id hget hasks => ?_⟩
    · rw [hflight] at hmem
      rw [hreceived _ (hs.number hmem)]
      exact hs.asked ticket hmem
    · rw [answers_take h, hflight]
      by_cases hnumber : number = s.received.length
      · subst hnumber
        obtain rfl : message = message' := Option.some.inj (hlast.symm.trans hget)
        obtain ⟨frame, hframes, hid⟩ := answer id hasks
        rw [if_pos rfl, hnone, hframes, hzero]
        refine ⟨rfl, fun frame' hframe' => ?_⟩
        obtain rfl : frame' = frame := by simpa using hframe'
        exact hid
      · have hlt : number < s.received.length := by
          have hlt := (List.getElem?_eq_some_iff.mp hget).1
          omega
        rw [hreceived number hlt] at hget
        rw [if_neg hnumber, List.append_nil]
        exact hs.once number message' id hget hasks
  | @schedules id work request token asked snapshot scheduler registers keeps documents
      configuration lifecycle frames =>
    have hflight : t.inFlight.Perm (⟨s.received.length, id, request, token⟩ :: s.inFlight) := by
      unfold System.inFlight
      rw [hscheduler, scheduler, h.tickets]
      simp only [RequestScheduler.spawn, List.map_append, List.map_singleton, List.append_assoc]
      exact List.perm_middle
    refine ⟨fun ticket hmem => ?_, houtput, fun number message' id' hget hasks => ?_⟩
    · rcases List.mem_cons.mp (hflight.mem_iff.mp hmem) with rfl | hmem
      · exact ⟨message, hlast, asked⟩
      · rw [hreceived _ (hs.number hmem)]
        exact hs.asked ticket hmem
    · rw [answers_take h, hflight.countP_eq, List.countP_cons, frames]
      by_cases hnumber : number = s.received.length
      · subst hnumber
        rw [hnone, hzero]
        simp
      · have hlt : number < s.received.length := by
          have hlt := (List.getElem?_eq_some_iff.mp hget).1
          omega
        rw [hreceived number hlt] at hget
        obtain ⟨hcount, hids⟩ := hs.once number message' id' hget hasks
        simp only [ite_self, List.append_nil, Ne.symm hnumber, decide_false, Bool.false_eq_true,
          if_false, Nat.add_zero]
        exact ⟨hcount, hids⟩

theorem complete_id (scheduler : RequestScheduler) (server : Server)
    (completed : CompletedRequest) :
    (scheduler.complete server completed).2.2.id = some completed.ticket.response_id := by
  unfold RequestScheduler.complete
  dsimp only
  split <;> try rfl
  split_ifs <;> rfl

theorem Answered.step {s t : System} (hs : Answered s) (h : Step analysis s t) :
    Answered t := by
  rcases h.moves with h | ⟨message, h⟩ | ⟨completed, h⟩
  · exact hs.quiet h
  · exact hs.take h
  · exact hs.commit h (complete_id _ _ _)

/-! ## Cancels -/

/-- The server was running when it took a cancel for the request. -/
def System.Heeded (s : System) (number : Nat) : Prop :=
  ∃ cancel ∈ s.cancels, cancel.request = number ∧ cancel.lifecycle = .Running

/-- A token is set once a cancel was heeded, and that is what an answer tells. -/
structure Flagged (s : System) : Prop where
  cells : ∀ ticket ∈ s.inFlight,
    (ticket.token.any s.server.cancellation.isCancelled = true ↔ s.Heeded ticket.number)
  cancels : ∀ cancel ∈ s.cancels, cancel.request < s.received.length
  outcome : ∀ task ∈ s.tasks, task.2 = some .Cancelled →
    task.1.token.any s.server.cancellation.isCancelled = true
  told : ∀ e ∈ s.output, s.Heeded e.1 ↔ ∃ id, e.2 = Frame.cancelled id

theorem isCancelled_cancel {c : CancellationRegistry} {request : RequestId}
    (hlt : ∀ token, c.active request = some token → token < c.cells.length) (token : Nat) :
    (c.cancel request).isCancelled token = true ↔
      c.isCancelled token = true ∨ c.active request = some token := by
  unfold CancellationRegistry.cancel
  cases hactive : c.active request with
  | none => simp
  | some token' =>
    have hlt' := hlt token' hactive
    unfold CancellationRegistry.isCancelled
    simp only [List.getElem?_set, Option.some.injEq]
    by_cases heq : token' = token
    · subst heq
      simp [hlt']
    · simp [heq]

theorem isCancelled_begin {c c' : CancellationRegistry} {request : RequestId} {fresh : Nat}
    (h : c.begin request = some (fresh, c')) (token : Nat) :
    c'.isCancelled token = c.isCancelled token := by
  obtain ⟨-, -, rfl⟩ := begin_some h
  unfold CancellationRegistry.isCancelled
  simp only [List.getElem?_append]
  by_cases hlt : token < c.cells.length
  · simp [hlt]
  · simp only [hlt, if_false]
    cases hsub : token - c.cells.length with
    | zero => simp [List.getElem?_eq_none (Nat.le_of_not_lt hlt)]
    | succ n => simp [List.getElem?_eq_none (Nat.le_of_not_lt hlt)]

/-- A number is that of one request in flight at most. -/
theorem Answered.unique {s : System} (hs : Answered s) {ticket ticket' : Ticket}
    (hmem : ticket ∈ s.inFlight) (hmem' : ticket' ∈ s.inFlight)
    (hnumber : ticket'.number = ticket.number) : ticket' = ticket := by
  have hcount := (hs.unanswered hmem).2
  rw [List.countP_eq_length_filter, List.length_eq_one_iff] at hcount
  obtain ⟨x, hx⟩ := hcount
  have h : ticket ∈ [x] := by
    rw [← hx]
    exact List.mem_filter.mpr ⟨hmem, by simp⟩
  have h' : ticket' ∈ [x] := by
    rw [← hx]
    exact List.mem_filter.mpr ⟨hmem', by simp [hnumber]⟩
  rw [List.mem_singleton.mp h, List.mem_singleton.mp h']

/-- Nothing was sent for a request in flight. -/
theorem Answered.silent {s : System} (hs : Answered s) {ticket : Ticket}
    (hmem : ticket ∈ s.inFlight) {e : Nat × Frame} (he : e ∈ s.output) :
    e.1 ≠ ticket.number := by
  intro hnumber
  have hin : e.2 ∈ s.answers ticket.number := by
    refine List.mem_map_of_mem (List.mem_filter.mpr ⟨he, ?_⟩)
    simpa using hnumber
  rw [(hs.unanswered hmem).1] at hin
  cases hin

theorem Flagged.quiet {s t : System} (hs : Flagged s) (h : Quiet analysis s t) :
    Flagged t := by
  have hheeded : ∀ number, t.Heeded number ↔ s.Heeded number := fun number => by
    unfold System.Heeded
    rw [h.cancels]
  refine ⟨fun ticket hmem => ?_, fun cancel hcancel => ?_, fun task htask hcancelled => ?_,
    fun e he => ?_⟩
  · rw [h.server, hheeded]
    exact hs.cells ticket (h.inFlight.mem_iff.mpr hmem)
  · rw [h.cancels] at hcancel
    rw [h.received]
    exact hs.cancels cancel hcancel
  · rw [h.server]
    rcases h.tasks task htask with htask | ⟨worker, -, outcome, hcomes, rfl⟩
    · exact hs.outcome task htask hcancelled
    · unfold Outcome at hcomes
      by_contra hflag
      rw [if_neg hflag] at hcomes
      obtain rfl : outcome = .Cancelled := Option.some.inj hcancelled
      rcases hcomes with hcomes | hcomes <;> cases hcomes
  · rw [h.output] at he
    rw [hheeded]
    exact hs.told e he

/-- What a heeded cancel sets, and for whom. -/
theorem heeded_flags {s : System} (hr : Registered s) {message : Value} {ticket : Ticket}
    (hmem : ticket ∈ s.inFlight) :
    (ticket.token.any (heeded s.server message).isCancelled = true ↔
      ticket.token.any s.server.cancellation.isCancelled = true ∨
        (s.server.lifecycle = .Running ∧ ∃ request, cancelOf message = some request ∧
          ticket.request_id = some request)) := by
  unfold heeded
  cases hcancel : cancelOf message with
  | none => simp
  | some request =>
    by_cases hlife : s.server.lifecycle = .Running
    · dsimp only
      rw [if_pos hlife]
      have hlt := fun token hactive => (hr.owner request token hactive).1
      cases htoken : ticket.token with
      | none =>
        have hnone : ticket.request_id = none := by
          cases hid : ticket.request_id with
          | none => rfl
          | some r =>
            obtain ⟨k, hk, -⟩ := hr.held ticket hmem r hid
            rw [htoken] at hk
            cases hk
        simp [hnone]
      | some token =>
        simp only [Option.any_some, isCancelled_cancel hlt, hlife, true_and, Option.some.injEq,
          exists_eq_left']
        refine or_congr_right ⟨fun hactive => ?_, fun hid => ?_⟩
        · cases hid : ticket.request_id with
          | none =>
            have hbare := hr.bare ticket hmem hid
            rw [htoken] at hbare
            cases hbare
          | some r =>
            obtain ⟨k, hk, hactive'⟩ := hr.held ticket hmem r hid
            obtain rfl : token = k := Option.some.inj (htoken.symm.trans hk)
            rw [hr.distinct request r token hactive hactive']
        · obtain ⟨k, hk, hactive⟩ := hr.held ticket hmem request hid
          obtain rfl : token = k := Option.some.inj (htoken.symm.trans hk)
          exact hactive
    · simp [hlife]

/-- The cancels that a message adds. -/
theorem mem_cancelsOf {s : System} {message : Value} {cancel : Cancel} :
    cancel ∈ s.cancelsOf message ↔ ∃ request, cancelOf message = some request ∧
      ∃ ticket ∈ s.inFlight, ticket.request_id = some request ∧
        cancel = ⟨s.received.length, ticket.number, s.server.lifecycle⟩ := by
  unfold System.cancelsOf
  cases cancelOf message with
  | none => simp
  | some request =>
    simp only [List.mem_map, List.mem_filter, decide_eq_true_eq, Option.some.injEq,
      exists_eq_left']
    constructor
    · rintro ⟨ticket, ⟨hmem, hid⟩, rfl⟩
      exact ⟨ticket, hmem, hid, rfl⟩
    · rintro ⟨ticket, hmem, hid, rfl⟩
      exact ⟨ticket, ⟨hmem, hid⟩, rfl⟩

theorem Takes.heeded {s t : System} {message : Value} (h : Takes analysis s t message)
    (number : Nat) : t.Heeded number ↔ s.Heeded number ∨
      (s.server.lifecycle = .Running ∧ ∃ request, cancelOf message = some request ∧
        ∃ ticket ∈ s.inFlight, ticket.request_id = some request ∧ ticket.number = number) := by
  unfold System.Heeded
  rw [h.cancels]
  constructor
  · rintro ⟨cancel, hcancel, hnumber, hlife⟩
    rcases List.mem_append.mp hcancel with hcancel | hcancel
    · exact .inl ⟨cancel, hcancel, hnumber, hlife⟩
    · obtain ⟨request, hof, ticket, hmem, hid, rfl⟩ := mem_cancelsOf.mp hcancel
      exact .inr ⟨hlife, request, hof, ticket, hmem, hid, hnumber⟩
  · rintro (⟨cancel, hcancel, hnumber, hlife⟩ | ⟨hlife, request, hof, ticket, hmem, hid, hnumber⟩)
    · exact ⟨cancel, List.mem_append_left _ hcancel, hnumber, hlife⟩
    · exact ⟨_, List.mem_append_right _ (mem_cancelsOf.mpr ⟨request, hof, ticket, hmem, hid, rfl⟩),
        hnumber, hlife⟩

/-- No cancel was heeded for a message that is only now taken. -/
theorem Flagged.fresh {s t : System} (hs : Flagged s) (ha : Answered s) {message : Value}
    (h : Takes analysis s t message) : ¬t.Heeded s.received.length := by
  rw [h.heeded]
  rintro (⟨cancel, hcancel, hnumber, -⟩ | ⟨-, request, -, ticket, hmem, -, hnumber⟩)
  · have hlt := hs.cancels cancel hcancel
    omega
  · have hlt := ha.number hmem
    omega

theorem Flagged.take_cancels {s t : System} (hs : Flagged s) (ha : Answered s) {message : Value}
    (h : Takes analysis s t message) : ∀ cancel ∈ t.cancels, cancel.request < t.received.length := by
  intro cancel hcancel
  rw [h.cancels] at hcancel
  rw [h.received, List.length_append, List.length_singleton]
  rcases List.mem_append.mp hcancel with hcancel | hcancel
  · have hlt := hs.cancels cancel hcancel
    omega
  · obtain ⟨request, -, ticket, hmem, -, rfl⟩ := mem_cancelsOf.mp hcancel
    have hlt := ha.number hmem
    simp only
    omega

/-- A frame that was sent before stays what it is, and one that a message leads
to is no answer of a worker. -/
theorem Flagged.take_told {s t : System} (hs : Flagged s) (ha : Answered s) {message : Value}
    (h : Takes analysis s t message)
    (honest : ∀ frame ∈ (handle analysis s.server s.scheduler s.received.length message).frames,
      ∀ id, frame ≠ Frame.cancelled id) :
    ∀ e ∈ t.output, t.Heeded e.1 ↔ ∃ id, e.2 = Frame.cancelled id := by
  intro e he
  rw [h.output] at he
  rcases List.mem_append.mp he with he | he
  · rw [h.heeded, ← hs.told e he]
    constructor
    · rintro (hheeded | ⟨-, request, -, ticket, hmem, -, hnumber⟩)
      · exact hheeded
      · exact absurd hnumber.symm (ha.silent hmem he)
    · exact .inl
  · obtain ⟨frame, hframe, rfl⟩ := List.mem_map.mp he
    refine ⟨fun hheeded => absurd hheeded (hs.fresh ha h), ?_⟩
    rintro ⟨id, hid⟩
    exact absurd hid (honest frame hframe id)

theorem Flagged.take {s t : System} (hs : Flagged s) (hr : Registered s) (ha : Answered s)
    {message : Value} (h : Takes analysis s t message) : Flagged t := by
  have hscheduler := h.scheduler
  cases hhandles : handle_handles analysis s.server s.scheduler s.received.length message with
  | answers scheduler answer honest cancellation =>
    have hcancellation : t.server.cancellation = heeded s.server message := by
      rw [h.server, cancellation]
    have hflight : t.inFlight = s.inFlight := by
      unfold System.inFlight
      rw [hscheduler, scheduler, h.tickets]
    have htasks : t.tasks = s.tasks := by
      unfold System.tasks
      rw [hscheduler, scheduler, h.tasks]
    refine ⟨fun ticket hmem => ?_, hs.take_cancels ha h, fun task htask hcancelled => ?_,
      hs.take_told ha h honest⟩
    · rw [hflight] at hmem
      rw [hcancellation, heeded_flags hr hmem, hs.cells ticket hmem, h.heeded]
      refine or_congr_right (and_congr_right fun _ => exists_congr fun request =>
        and_congr_right fun _ => ⟨fun hid => ⟨ticket, hmem, hid, rfl⟩, ?_⟩)
      rintro ⟨ticket', hmem', hid, hnumber⟩
      rw [← ha.unique hmem hmem' hnumber]
      exact hid
    · rw [htasks] at htask
      rw [hcancellation, heeded_flags hr (System.mem_inFlight htask)]
      exact .inl (hs.outcome task htask hcancelled)
  | @schedules id work request token asked snapshot scheduler registers keeps documents
      configuration lifecycle frames =>
    have hflight : t.inFlight.Perm (⟨s.received.length, id, request, token⟩ :: s.inFlight) := by
      unfold System.inFlight
      rw [hscheduler, scheduler, h.tickets]
      simp only [RequestScheduler.spawn, List.map_append, List.map_singleton, List.append_assoc]
      exact List.perm_middle
    have htasks : ∀ task ∈ t.tasks, task ∈ s.tasks ∨
        task = (⟨s.received.length, id, request, token⟩, none) := by
      intro task htask
      unfold System.tasks at htask ⊢
      rw [hscheduler, scheduler, h.tasks] at htask
      simp only [RequestScheduler.spawn, List.map_append, List.map_singleton, List.mem_append,
        List.mem_singleton] at htask ⊢
      tauto
    have hsame : ∀ k, t.server.cancellation.isCancelled k = s.server.cancellation.isCancelled k := by
      intro k
      rw [h.server]
      unfold Registers at registers
      cases hid : RequestId.fromJson id with
      | none =>
        rw [hid] at registers
        rw [registers.2.2]
      | some r =>
        rw [hid] at registers
        obtain ⟨-, fresh, -, hbegin⟩ := registers
        exact isCancelled_begin hbegin k
    have hsame' : t.server.cancellation.isCancelled = s.server.cancellation.isCancelled :=
      funext hsame
    have hheeded : ∀ number, t.Heeded number ↔ s.Heeded number := by
      intro number
      rw [h.heeded, keeps]
      simp
    refine ⟨fun ticket hmem => ?_, hs.take_cancels ha h, fun task htask hcancelled => ?_,
      hs.take_told ha h (by rw [frames]; exact fun _ hframe => absurd hframe List.not_mem_nil)⟩
    · rcases List.mem_cons.mp (hflight.mem_iff.mp hmem) with rfl | hmem
      · refine iff_of_false (fun hflag => ?_) (hs.fresh ha h)
        obtain ⟨k, htoken, hcancelled⟩ := (Option.any_eq_true _ _).mp hflag
        simp only at htoken
        unfold Registers at registers
        cases hid : RequestId.fromJson id with
        | none =>
          rw [hid] at registers
          have hnone : token = none := registers.2.1
          rw [hnone] at htoken
          cases htoken
        | some r =>
          rw [hid] at registers
          obtain ⟨-, fresh, hfresh, hbegin⟩ := registers
          obtain ⟨-, hlast, -⟩ := begin_some hbegin
          have hk : token = some fresh := hfresh
          obtain rfl : fresh = k := Option.some.inj (hk.symm.trans htoken)
          rw [hsame, hlast] at hcancelled
          simp [CancellationRegistry.isCancelled] at hcancelled
      · rw [hsame', hheeded]
        exact hs.cells ticket hmem
    · rw [hsame']
      rcases htasks task htask with htask | rfl
      · exact hs.outcome task htask hcancelled
      · cases hcancelled

/-- What finishing a request in flight says: whether its token is set. -/
theorem Registered.said {s : System} (hr : Registered s) {ticket : Ticket}
    (hmem : ticket ∈ s.inFlight) : (RequestScheduler.isCancelled ticket s.server).1 =
      ticket.token.any s.server.cancellation.isCancelled := by
  rcases hr.finish hmem with ⟨request, token, -, htoken, -, hfinish⟩ | ⟨-, htoken, hfinish⟩
  · rw [hfinish, htoken, Option.any_some]
  · rw [hfinish, htoken, Option.any_none]

theorem Registered.kept {s : System} (hr : Registered s) {ticket : Ticket}
    (hmem : ticket ∈ s.inFlight) : (RequestScheduler.isCancelled ticket s.server).2.isCancelled =
      s.server.cancellation.isCancelled := by
  rcases hr.finish hmem with ⟨request, token, -, -, -, hfinish⟩ | ⟨-, -, hfinish⟩
  · rw [hfinish]
    rfl
  · rw [hfinish]

theorem complete_frame (scheduler : RequestScheduler) (server : Server)
    (completed : CompletedRequest) : (scheduler.complete server completed).2.2 =
      match (RequestScheduler.isCancelled completed.ticket server).1, completed.outcome with
        | true, _ | false, .Cancelled => Frame.cancelled completed.ticket.response_id
        | false, .Completed completion =>
          if completion.snapshot.isCurrent (scheduler.complete server completed).1 then
            .Result completed.ticket.response_id completion.result
          else .Result completed.ticket.response_id completion.stale_result
        | false, .Panicked => Frame.failed completed.ticket.response_id := rfl

theorem Flagged.commit {s t : System} (hs : Flagged s) (hr : Registered s)
    {completed : CompletedRequest} (h : Commits s t completed) : Flagged t := by
  have hin : completed.ticket ∈ s.inFlight := h.inFlight.mem_iff.mpr List.mem_cons_self
  have hkept : t.server.cancellation.isCancelled = s.server.cancellation.isCancelled := by
    rw [h.server, complete_cancellation]
    exact hr.kept hin
  have hheeded : ∀ number, t.Heeded number ↔ s.Heeded number := fun number => by
    unfold System.Heeded
    rw [h.cancels]
  refine ⟨fun ticket hmem => ?_, fun cancel hcancel => ?_, fun task htask => ?_, fun e he => ?_⟩
  · rw [hkept, hheeded]
    exact hs.cells ticket (h.inFlight.mem_iff.mpr (List.mem_cons_of_mem _ hmem))
  · rw [h.cancels] at hcancel
    rw [h.received]
    exact hs.cancels cancel hcancel
  · rw [hkept]
    exact hs.outcome task (h.tasks task htask)
  · rw [hheeded]
    rw [h.output] at he
    rcases List.mem_append.mp he with he | he
    · exact hs.told e he
    · obtain rfl := List.mem_singleton.mp he
      rw [← hs.cells _ hin]
      simp only
      rw [complete_frame, hr.said hin]
      cases hflag : completed.ticket.token.any s.server.cancellation.isCancelled with
      | true => exact iff_of_true rfl ⟨_, rfl⟩
      | false =>
        refine iff_of_false Bool.false_ne_true ?_
        rintro ⟨id, hid⟩
        cases houtcome : completed.outcome with
        | Cancelled =>
          have hcancelled := hs.outcome _ h.task (by rw [houtcome])
          rw [hflag] at hcancelled
          cases hcancelled
        | Completed completion =>
          rw [houtcome] at hid
          dsimp only at hid
          split at hid <;> cases hid
        | Panicked =>
          rw [houtcome] at hid
          have hcode := (Frame.Error.inj hid).2.1
          exact absurd hcode (by decide)

theorem Flagged.step {s t : System} (hs : Flagged s) (hr : Registered s) (ha : Answered s)
    (h : Step analysis s t) : Flagged t := by
  rcases h.moves with h | ⟨message, h⟩ | ⟨completed, h⟩
  · exact hs.quiet h
  · exact hs.take hr ha h
  · exact hs.commit hr h

/-! ## Snapshots -/

/-- A snapshot from when the message of that number was taken. -/
structure Fits (s : System) (number : Nat) (snapshot : AnalysisSnapshot) : Prop where
  documents : snapshot.document_revision ≤ s.server.documents.revision
  configuration : snapshot.configuration_revision ≤ s.server.configuration.revision
  changed : (∃ change ∈ s.accepted, number < change) →
    snapshot.document_revision < s.server.documents.revision ∨
      snapshot.configuration_revision < s.server.configuration.revision
  same : (∀ change ∈ s.accepted, change ≤ number) →
    snapshot.document_revision = s.server.documents.revision ∧
      snapshot.configuration_revision = s.server.configuration.revision ∧
        snapshot.documents = s.server.documents.documents

theorem Fits.keep {s t : System} {number : Nat} {snapshot : AnalysisSnapshot}
    (h : Fits s number snapshot) (hdocuments : t.server.documents = s.server.documents)
    (hconfiguration : t.server.configuration = s.server.configuration)
    (haccepted : t.accepted = s.accepted) : Fits t number snapshot := by
  obtain ⟨h1, h2, h3, h4⟩ := h
  exact ⟨by rwa [hdocuments], by rwa [hconfiguration],
    by rwa [hdocuments, hconfiguration, haccepted],
    by rwa [hdocuments, hconfiguration, haccepted]⟩

theorem Fits.change {s t : System} {number change : Nat} {snapshot : AnalysisSnapshot}
    (h : Fits s number snapshot) (hlt : number < change) (hchanges : Changes s.server t.server)
    (haccepted : t.accepted = s.accepted ++ [change]) : Fits t number snapshot := by
  have hdocuments := h.documents
  have hconfiguration := h.configuration
  have hle : s.server.documents.revision ≤ t.server.documents.revision ∧
      s.server.configuration.revision ≤ t.server.configuration.revision ∧
      (s.server.documents.revision < t.server.documents.revision ∨
        s.server.configuration.revision < t.server.configuration.revision) := by
    rcases hchanges with ⟨hup, hsame⟩ | ⟨hsame, hup⟩
    · rw [hup, hsame]
      omega
    · rw [hup, hsame]
      omega
  refine ⟨by omega, by omega, fun _ => by omega, fun hbefore => ?_⟩
  have hafter := hbefore change (by rw [haccepted]; simp)
  omega

/-- A snapshot is current as long as no change was accepted after it. -/
theorem Fits.current {s : System} {number : Nat} {snapshot : AnalysisSnapshot}
    (h : Fits s number snapshot) {server : Server}
    (hdocuments : server.documents = s.server.documents)
    (hconfiguration : server.configuration = s.server.configuration) :
    snapshot.isCurrent server = true ↔ ∀ change ∈ s.accepted, change ≤ number := by
  unfold AnalysisSnapshot.isCurrent
  rw [hdocuments, hconfiguration]
  simp only [Bool.and_eq_true, decide_eq_true_eq, List.all_eq_true]
  constructor
  · rintro ⟨⟨⟨hdoc, hconf⟩, -⟩, -⟩ change hmem
    by_contra hlt
    rcases h.changed ⟨change, hmem, Nat.lt_of_not_le hlt⟩ with hless | hless
    · omega
    · omega
  · intro hbefore
    obtain ⟨hdoc, hconf, hsame⟩ := h.same hbefore
    refine ⟨⟨⟨hdoc, hconf⟩, by rw [hsame]⟩, fun e he => ?_⟩
    rw [hsame] at he
    exact SortedMap.get_of_mem he

structure Fitting (s : System) : Prop where
  accepted : ∀ change ∈ s.accepted, change < s.received.length
  works : ∀ worker ∈ s.scheduler.pool, Fits s worker.ticket.number worker.work.snapshot
  completions : ∀ task ∈ s.tasks, ∀ completion, task.2 = some (.Completed completion) →
    Fits s task.1.number completion.snapshot

theorem execute_snapshot (work : RequestWork) : (work.execute analysis).snapshot = work.snapshot := by
  cases work <;> rfl

theorem Fitting.quiet {s t : System} (hs : Fitting s) (h : Quiet analysis s t) : Fitting t := by
  have hkeep : ∀ {number snapshot}, Fits s number snapshot → Fits t number snapshot := fun hfits =>
    hfits.keep (by rw [h.server]) (by rw [h.server]) h.accepted
  refine ⟨fun change hmem => ?_, fun worker hmem => ?_, fun task htask completion hdone => ?_⟩
  · rw [h.accepted] at hmem
    rw [h.received]
    exact hs.accepted change hmem
  · obtain ⟨worker', hmem', hticket, hwork⟩ := h.pool worker hmem
    rw [hticket, hwork]
    exact hkeep (hs.works worker' hmem')
  · rcases h.tasks task htask with htask | ⟨worker, hmem, outcome, hcomes, rfl⟩
    · exact hkeep (hs.completions task htask completion hdone)
    · obtain rfl : outcome = .Completed completion := Option.some.inj hdone
      unfold Outcome at hcomes
      split_ifs at hcomes
      rcases hcomes with hcomes | hcomes
      · obtain rfl := WorkerOutcome.Completed.inj hcomes
        rw [execute_snapshot]
        exact hkeep (hs.works worker hmem)
      · cases hcomes

theorem Fitting.take {s t : System} (hs : Fitting s) (ha : Answered s) {message : Value}
    (h : Takes analysis s t message) : Fitting t := by
  have hlength : t.received.length = s.received.length + 1 := by
    rw [h.received, List.length_append, List.length_singleton]
  have hscheduler := h.scheduler
  have haccepted := h.accepted
  cases handle_handles analysis s.server s.scheduler s.received.length message with
  | answers scheduler answer honest cancellation accepted refused =>
    have hpool : t.scheduler.pool = s.scheduler.pool := by rw [hscheduler, scheduler]
    have htasks : t.tasks = s.tasks := by
      unfold System.tasks
      rw [hpool, h.tasks]
    have hkeep : ∀ {number snapshot}, number < s.received.length → Fits s number snapshot →
        Fits t number snapshot := by
      intro number snapshot hlt hfits
      split_ifs at haccepted with hflag
      · refine hfits.change hlt ?_ haccepted
        rw [h.server]
        exact accepted hflag
      · obtain ⟨hdocuments, hconfiguration⟩ := refused (Bool.eq_false_iff.mpr hflag)
        exact hfits.keep (by rw [h.server, hdocuments]) (by rw [h.server, hconfiguration]) haccepted
    refine ⟨fun change hmem => ?_, fun worker hmem => ?_, fun task htask completion hdone => ?_⟩
    · rw [haccepted] at hmem
      rw [hlength]
      split_ifs at hmem
      · rcases List.mem_append.mp hmem with hmem | hmem
        · exact Nat.lt_succ_of_lt (hs.accepted change hmem)
        · rw [List.mem_singleton.mp hmem]
          exact Nat.lt_succ_self _
      · exact Nat.lt_succ_of_lt (hs.accepted change hmem)
    · rw [hpool] at hmem
      exact hkeep (ha.number (System.mem_pool hmem)) (hs.works worker hmem)
    · rw [htasks] at htask
      exact hkeep (ha.number (System.mem_inFlight htask)) (hs.completions task htask completion hdone)
  | schedules asked snapshot scheduler registers keeps documents configuration lifecycle frames
      accepted =>
    rw [accepted] at haccepted
    have haccepted : t.accepted = s.accepted := haccepted
    have hdocuments : t.server.documents = s.server.documents := by rw [h.server, documents]
    have hconfiguration : t.server.configuration = s.server.configuration := by
      rw [h.server, configuration]
    have hkeep : ∀ {number snapshot}, Fits s number snapshot → Fits t number snapshot :=
      fun hfits => hfits.keep hdocuments hconfiguration haccepted
    refine ⟨fun change hmem => ?_, fun worker hmem => ?_, fun task htask completion hdone => ?_⟩
    · rw [haccepted] at hmem
      rw [hlength]
      exact Nat.lt_succ_of_lt (hs.accepted change hmem)
    · rw [hscheduler, scheduler] at hmem
      rcases List.mem_append.mp hmem with hmem | hmem
      · exact hkeep (hs.works worker hmem)
      · obtain rfl := List.mem_singleton.mp hmem
        simp only
        rw [snapshot]
        refine ⟨?_, ?_, ?_, fun _ => ⟨?_, ?_, ?_⟩⟩
        · exact Nat.le_of_eq (by rw [hdocuments]; rfl)
        · exact Nat.le_of_eq (by rw [hconfiguration]; rfl)
        · rintro ⟨change, hmem, hlt⟩
          rw [haccepted] at hmem
          exact absurd (hs.accepted change hmem) (Nat.lt_asymm hlt)
        · rw [hdocuments]
          rfl
        · rw [hconfiguration]
          rfl
        · rw [hdocuments]
          rfl
    · unfold System.tasks at htask
      rw [hscheduler, scheduler, h.tasks] at htask
      simp only [RequestScheduler.spawn, List.map_append, List.map_singleton, List.mem_append,
        List.mem_singleton] at htask
      rcases htask with (htask | rfl) | htask
      · exact hkeep (hs.completions task (List.mem_append_left _ htask) completion hdone)
      · cases hdone
      · exact hkeep (hs.completions task (List.mem_append_right _ htask) completion hdone)

theorem Fitting.commit {s t : System} (hs : Fitting s) {completed : CompletedRequest}
    (h : Commits s t completed) : Fitting t := by
  have hkeep : ∀ {number snapshot}, Fits s number snapshot → Fits t number snapshot := fun hfits =>
    hfits.keep (by rw [h.server, complete_cancellation]) (by rw [h.server, complete_cancellation])
      h.accepted
  refine ⟨fun change hmem => ?_, fun worker hmem => ?_, fun task htask completion hdone => ?_⟩
  · rw [h.accepted] at hmem
    rw [h.received]
    exact hs.accepted change hmem
  · rw [h.pool] at hmem
    exact hkeep (hs.works worker hmem)
  · exact hkeep (hs.completions task (h.tasks task htask) completion hdone)

theorem Fitting.step {s t : System} (hs : Fitting s) (ha : Answered s) (h : Step analysis s t) :
    Fitting t := by
  rcases h.moves with h | ⟨message, h⟩ | ⟨completed, h⟩
  · exact hs.quiet h
  · exact hs.take ha h
  · exact hs.commit h

/-! ## The reader and the end -/

def ServerEvent.isRead : ServerEvent → Bool
  | Input _ | EndOfInput => true
  | Completed _ => false

/-- While the reader reads, nothing that it read waits, and a server that has come
to its end has a reader that stopped. -/
structure Flow (s : System) : Prop where
  reading : s.reader = .Reading → s.events.countP ServerEvent.isRead = 0 ∧ s.terminal = none
  waiting : s.reader = .Waiting → s.events.countP ServerEvent.isRead = 1 ∧
    .EndOfInput ∉ s.events ∧ s.terminal = none
  stopped : s.reader = .Stopped → (∀ message, .Input message ∉ s.events) ∧
    (s.terminal = none → .EndOfInput ∈ s.events)
  left : s.returned.isSome = true → s.terminal.isSome = true ∧ s.inFlight = []

theorem not_read {events : List ServerEvent} (h : events.countP ServerEvent.isRead = 0)
    {event : ServerEvent} (hmem : event ∈ events) : event.isRead = false := by
  rw [List.countP_eq_zero] at h
  exact Bool.eq_false_iff.mpr (h event hmem)

theorem Flow.take {s : System} (hs : Flow s) {event : ServerEvent} {rest : List ServerEvent}
    (running : s.returned = none) (next : s.events = event :: rest) :
    Flow ({ s with events := rest }.take analysis event) := by
  have hleft : ∀ t : System, t.returned = s.returned →
      t.returned.isSome = true → t.terminal.isSome = true ∧ t.inFlight = [] := by
    intro t ht hsome
    rw [ht, running] at hsome
    cases hsome
  have hcount : s.events.countP ServerEvent.isRead =
      rest.countP ServerEvent.isRead + if event.isRead then 1 else 0 := by
    rw [next, List.countP_cons]
  cases event with
  | Completed completed =>
    refine ⟨fun h => ?_, fun h => ?_, fun h => ?_, hleft _ rfl⟩
    · obtain ⟨hzero, hterminal⟩ := hs.reading h
      exact ⟨hcount.symm.trans hzero, hterminal⟩
    · obtain ⟨hone, hend, hterminal⟩ := hs.waiting h
      rw [next] at hend
      exact ⟨hcount.symm.trans hone, fun hmem => hend (List.mem_cons_of_mem _ hmem), hterminal⟩
    · obtain ⟨hinput, hend⟩ := hs.stopped h
      rw [next] at hinput hend
      refine ⟨fun message hmem => hinput message (List.mem_cons_of_mem _ hmem), fun hterminal => ?_⟩
      rcases List.mem_cons.mp (hend hterminal) with heq | hmem
      · cases heq
      · exact hmem
  | EndOfInput =>
    have hstopped : s.reader = .Stopped := by
      cases hreader : s.reader with
      | Reading =>
        have hread := not_read (hs.reading hreader).1 (by rw [next]; exact List.mem_cons_self)
        cases hread
      | Waiting => exact absurd (by rw [next]; exact List.mem_cons_self) (hs.waiting hreader).2.1
      | Stopped => rfl
    have hsome : (s.terminal.or (some .Unclean)).isSome = true := by
      cases s.terminal <;> rfl
    refine ⟨fun h => ?_, fun h => ?_, fun _ => ⟨fun message hmem => ?_, fun hterminal => ?_⟩,
      hleft _ rfl⟩
    · rw [show s.reader = .Reading from h] at hstopped
      cases hstopped
    · rw [show s.reader = .Waiting from h] at hstopped
      cases hstopped
    · have hinput := (hs.stopped hstopped).1 message
      rw [next] at hinput
      exact hinput (List.mem_cons_of_mem _ hmem)
    · rw [show s.terminal.or (some .Unclean) = none from hterminal] at hsome
      cases hsome
  | Input message =>
    have hwaiting : s.reader = .Waiting := by
      cases hreader : s.reader with
      | Reading =>
        have hread := not_read (hs.reading hreader).1 (by rw [next]; exact List.mem_cons_self)
        cases hread
      | Waiting => rfl
      | Stopped =>
        exact absurd (by rw [next]; exact List.mem_cons_self) ((hs.stopped hreader).1 message)
    obtain ⟨hone, -, hterminal⟩ := hs.waiting hwaiting
    have hzero : rest.countP ServerEvent.isRead = 0 := by
      have hread : ServerEvent.isRead (.Input message) = true := rfl
      rw [hread, if_pos rfl] at hcount
      omega
    unfold System.take
    simp only [hterminal, Option.isSome_none, Bool.false_eq_true, if_false]
    cases hexit : (handle analysis s.server s.scheduler s.received.length message).exit with
    | none =>
      exact ⟨fun _ => ⟨hzero, rfl⟩, nofun, nofun, hleft _ rfl⟩
    | some exit =>
      refine ⟨nofun, nofun, fun _ => ⟨fun message' hmem => ?_, nofun⟩,
        hleft _ rfl⟩
      have hread := not_read hzero hmem
      cases hread

/-- Workers put only answers into the channel. -/
theorem Flow.worker {s t : System} (hs : Flow s) {more : List ServerEvent}
    (hmore : ∀ event ∈ more, event.isRead = false) (hreader : t.reader = s.reader)
    (hterminal : t.terminal = s.terminal) (hevents : t.events = s.events ++ more)
    (hreturned : t.returned = s.returned) (hbusy : s.inFlight ≠ []) : Flow t := by
  have hzero : more.countP ServerEvent.isRead = 0 := by
    rw [List.countP_eq_zero]
    intro event hmem
    rw [hmore event hmem]
    exact Bool.false_ne_true
  have hcount : t.events.countP ServerEvent.isRead = s.events.countP ServerEvent.isRead := by
    rw [hevents, List.countP_append, hzero, Nat.add_zero]
  have hread : ∀ event : ServerEvent, event.isRead = true → (event ∈ t.events ↔ event ∈ s.events) := by
    intro event hevent
    rw [hevents, List.mem_append]
    refine ⟨fun h => h.resolve_right fun hmem => ?_, .inl⟩
    rw [hmore event hmem] at hevent
    cases hevent
  refine ⟨fun h => ?_, fun h => ?_, fun h => ?_, fun h => ?_⟩
  · rw [hcount, hterminal]
    exact hs.reading (hreader ▸ h)
  · rw [hcount, hread _ rfl, hterminal]
    exact hs.waiting (hreader ▸ h)
  · obtain ⟨hinput, hend⟩ := hs.stopped (hreader ▸ h)
    rw [hread _ rfl, hterminal]
    exact ⟨fun message => (hread _ rfl).not.mpr (hinput message), hend⟩
  · rw [hreturned] at h
    exact absurd (hs.left h).2 hbusy

theorem Flow.step {s t : System} (hs : Flow s) (hc : Counted s) (h : Step analysis s t) :
    Flow t := by
  cases h with
  | read message reading =>
    obtain ⟨hzero, hterminal⟩ := hs.reading reading
    refine ⟨nofun, fun _ => ⟨?_, fun hmem => ?_, hterminal⟩, nofun,
      fun h => ?_⟩
    · rw [List.countP_append, hzero]
      rfl
    · rcases List.mem_append.mp hmem with hmem | hmem
      · have hread := not_read hzero hmem
        cases hread
      · cases List.mem_singleton.mp hmem
    · have hsome := (hs.left h).1
      rw [hterminal] at hsome
      cases hsome
  | endOfInput reading =>
    obtain ⟨hzero, hterminal⟩ := hs.reading reading
    refine ⟨nofun, nofun, fun _ => ⟨fun message hmem => ?_, fun _ => ?_⟩,
      fun h => ?_⟩
    · rcases List.mem_append.mp hmem with hmem | hmem
      · have hread := not_read hzero hmem
        cases hread
      · cases List.mem_singleton.mp hmem
    · simp
    · have hsome := (hs.left h).1
      rw [hterminal] at hsome
      cases hsome
  | work h =>
    cases h with
    | @run before after worker outcome waits =>
      have hbusy : s.inFlight ≠ [] :=
        List.ne_nil_of_mem (System.mem_pool (by rw [waits]; simp) : worker.ticket ∈ s.inFlight)
      exact hs.worker (fun _ hmem => absurd hmem List.not_mem_nil) rfl rfl
        (List.append_nil _).symm rfl hbusy
    | @send before after worker outcome done =>
      have hbusy : s.inFlight ≠ [] :=
        List.ne_nil_of_mem (System.mem_pool (by rw [done]; simp) : worker.ticket ∈ s.inFlight)
      refine hs.worker (fun event hmem => ?_) rfl rfl rfl rfl hbusy
      rw [List.mem_singleton.mp hmem]
      rfl
    | take running stays next => exact hs.take running next
    | leave running terminal idle =>
      refine ⟨hs.reading, hs.waiting, hs.stopped, fun _ => ⟨by rw [terminal]; rfl, ?_⟩⟩
      have hidle : s.scheduler.pending = 0 := by simpa [RequestScheduler.isIdle] using idle
      unfold Counted at hc
      rw [hidle] at hc
      exact List.eq_nil_of_length_eq_zero hc.symm

/-! ## Going on to the end -/

def Worker.weight (worker : Worker) : Nat := if worker.outcome.isSome then 2 else 3

def ServerEvent.weight : ServerEvent → Nat
  | Input _ => 4
  | EndOfInput | Completed _ => 1

/-- What the server and its workers have left to do. -/
def System.weight (s : System) : Nat :=
  (s.scheduler.pool.map Worker.weight).sum + (s.events.map ServerEvent.weight).sum +
    if s.returned.isSome then 0 else 1

/-- The server and its workers come to an end as long as the client sends nothing. -/
theorem Works.lighter {s t : System} (h : Works analysis s t) : t.weight < s.weight := by
  unfold System.weight
  cases h with
  | @run before after worker outcome waits fresh =>
    simp only [waits, List.map_append, List.map_cons, List.sum_append, List.sum_cons,
      Worker.weight, fresh, Option.isSome_none, Option.isSome_some]
    simp
  | @send before after worker outcome done ran =>
    simp only [done, List.map_append, List.map_cons, List.map_nil, List.sum_append, List.sum_cons,
      List.sum_nil, Worker.weight, ServerEvent.weight, ran, Option.isSome_some, if_true]
    omega
  | @take event rest running stays next =>
    rw [next, List.map_cons, List.sum_cons]
    cases event with
    | EndOfInput =>
      simp only [System.take, ServerEvent.weight, running]
      omega
    | Completed completed =>
      simp only [System.take, RequestScheduler.complete, ServerEvent.weight, running]
      omega
    | Input message =>
      by_cases hterminal : s.terminal.isSome = true
      · simp only [System.take, if_pos hterminal, ServerEvent.weight, running]
        omega
      · simp only [System.take, if_neg hterminal, ServerEvent.weight, running]
        cases handle_handles analysis s.server s.scheduler s.received.length message with
        | answers scheduler =>
          rw [scheduler]
          omega
        | schedules asked snapshot scheduler =>
          rw [scheduler]
          simp only [RequestScheduler.spawn, List.map_append, List.map_singleton, List.sum_append,
            List.sum_singleton, Worker.weight, Option.isSome_none, Bool.false_eq_true, if_false]
          omega
  | leave running =>
    simp only [running, Option.isSome_none, Option.isSome_some, Bool.false_eq_true, if_false,
      if_true]
    omega

/-- Nothing is in flight, and every message that was read was taken. -/
def System.Settled (s : System) : Prop := s.inFlight = [] ∧ ∀ message, .Input message ∉ s.events

theorem Flow.settled {s : System} (hs : Flow s) (h : s.returned.isSome = true) : s.Settled := by
  obtain ⟨hterminal, hflight⟩ := hs.left h
  refine ⟨hflight, ?_⟩
  cases hreader : s.reader with
  | Reading =>
    rw [(hs.reading hreader).2] at hterminal
    cases hterminal
  | Waiting =>
    rw [(hs.waiting hreader).2.2] at hterminal
    cases hterminal
  | Stopped => exact (hs.stopped hreader).1

theorem Outcome.some_one (analysis : Analysis) (server : Server) (worker : Worker) :
    ∃ outcome, Outcome analysis server worker outcome := by
  unfold Outcome
  split_ifs
  · exact ⟨_, rfl⟩
  · exact ⟨_, .inl rfl⟩

/-- Where nobody can go on, everything was answered. -/
theorem Flow.rests {s : System} (hs : Flow s)
    (hstuck : ∀ t, ¬Works analysis s t) : s.Settled := by
  cases hreturned : s.returned with
  | some exit => exact hs.settled (by rw [hreturned]; rfl)
  | none =>
    have hpool : s.scheduler.pool = [] := by
      cases hpool : s.scheduler.pool with
      | nil => rfl
      | cons worker rest =>
        exfalso
        replace hpool : s.scheduler.pool = [] ++ worker :: rest := hpool
        cases houtcome : worker.outcome with
        | some outcome => exact hstuck _ (.send hpool houtcome)
        | none =>
          obtain ⟨outcome, hcomes⟩ := Outcome.some_one analysis s.server worker
          exact hstuck _ (.run hpool houtcome hcomes)
    cases hevents : s.events with
    | nil =>
      refine ⟨?_, fun message => ?_⟩
      · simp [System.inFlight, hpool, hevents]
      · rw [hevents]
        exact List.not_mem_nil
    | cons event rest =>
      exfalso
      by_cases hon : s.terminal.isSome = true ∧ s.scheduler.isIdle = true
      · obtain ⟨exit, hexit⟩ := Option.isSome_iff_exists.mp hon.1
        exact hstuck _ (.leave hreturned hexit hon.2)
      · exact hstuck _ (.take hreturned hon hevents)

/-! ## The service -/

/-- What is kept in every run. -/
structure Sound (s : System) : Prop where
  counted : Counted s
  registered : Registered s
  answered : Answered s
  flagged : Flagged s
  fitting : Fitting s
  flow : Flow s

theorem Sound.new : Sound .new where
  counted := rfl
  registered := {
    id := nofun
    held := nofun
    bare := nofun
    once := .nil
    owner := nofun
    distinct := nofun }
  answered := ⟨nofun, nofun, nofun⟩
  flagged := ⟨nofun, nofun, nofun, nofun⟩
  fitting := ⟨nofun, nofun, nofun⟩
  flow := ⟨fun _ => ⟨rfl, rfl⟩, nofun, nofun, nofun⟩

theorem Sound.step {s t : System} (hs : Sound s) (h : Step analysis s t) : Sound t where
  counted := hs.counted.step h
  registered := hs.registered.step h
  answered := hs.answered.step h
  flagged := hs.flagged.step hs.registered hs.answered h
  fitting := hs.fitting.step hs.answered h
  flow := hs.flow.step hs.counted h

theorem Reachable.sound {s : System} (h : Reachable analysis s) : Sound s := by
  induction h with
  | refl => exact .new
  | tail _ hstep ih => exact ih.step hstep

/-- The requests that become work. -/
def Method.isScheduled : Method → Bool
  | Hover | Definition | CodeAction => true
  | _ => false

/-- How the server serves: what holds wherever it comes to. -/
structure Served (analysis : Analysis) (s : System) : Prop where
  /-- A request that was taken is answered once or in flight once. -/
  once : ∀ (number : Nat) message id, s.received[number]? = some message →
    asks message = some id →
      (s.answers number).length + s.inFlight.countP (·.number = number) = 1 ∧
        ∀ frame ∈ s.answers number, frame.id = some id
  /-- The counter counts the requests in flight. -/
  pending : s.scheduler.pending = s.inFlight.length
  /-- Work under the identifier of a registered request is refused, and nothing else happens. -/
  duplicate : ∀ number message fields id method, asObject message = some fields →
    field "id" fields = some id → methodOf fields = some method → method.isScheduled = true →
      (∃ ticket ∈ s.inFlight, ticket.request_id.isSome = true ∧
        ticket.request_id = RequestId.fromJson id) →
        ∃ code text, handle analysis s.server s.scheduler number message =
          answered s.server s.scheduler [.Error id code text]
  /-- A request that was cancelled while the server ran has no other answer. -/
  heeded : ∀ cancel ∈ s.cancels, cancel.lifecycle = .Running →
    ∀ frame ∈ s.answers cancel.request, ∃ id, frame = Frame.cancelled id
  /-- No request is answered so unless it was cancelled. -/
  cancelled : ∀ (number : Nat), ∀ frame ∈ s.answers number, ∀ id, frame = Frame.cancelled id →
    ∃ cancel ∈ s.cancels, cancel.request = number
  /-- A cancel of what is not in flight leaves no trace. -/
  unknown : ∀ number message request, cancelOf message = some request →
    (∀ ticket ∈ s.inFlight, ticket.request_id ≠ some request) →
      ∃ frames, handle analysis s.server s.scheduler number message =
        answered s.server s.scheduler frames
  /-- A result is sent as long as no change was accepted since its request was taken. -/
  commits : ∀ completed rest completion, s.events = .Completed completed :: rest →
    completed.outcome = .Completed completion →
      (∀ cancel ∈ s.cancels, cancel.request ≠ completed.ticket.number) →
        (s.scheduler.complete s.server completed).2.2 = .Result completed.ticket.response_id
          (if ∀ change ∈ s.accepted, change ≤ completed.ticket.number then completion.result
          else completion.stale_result)
  /-- The server leaves its loop with nothing in flight and nothing unread. -/
  leaves : s.returned.isSome = true → s.Settled
  /-- Without the client the server comes to an end, and there all is answered. -/
  settles : (∀ t, Works analysis s t → t.weight < s.weight) ∧
    ((∀ t, ¬Works analysis s t) → s.Settled)

theorem Registered.refused {s : System} (hr : Registered s) {number : Nat} {message : Value}
    {fields : List (String × Value)} {id : Value} {method : Method}
    (hfields : asObject message = some fields) (hid : field "id" fields = some id)
    (hmethod : methodOf fields = some method) (hscheduled : method.isScheduled = true)
    (hactive : ∃ ticket ∈ s.inFlight, ticket.request_id.isSome = true ∧
      ticket.request_id = RequestId.fromJson id) :
    ∃ code text, handle analysis s.server s.scheduler number message =
      answered s.server s.scheduler [.Error id code text] := by
  obtain ⟨ticket, hmem, hsome, hrequest⟩ := hactive
  obtain ⟨request, hrid⟩ := Option.isSome_iff_exists.mp hsome
  obtain ⟨token, -, htoken⟩ := hr.held ticket hmem request hrid
  have hwork : ∀ work, ∃ code text, dispatchWork s.server s.scheduler number (some id) work =
      answered s.server s.scheduler [.Error id code text] := by
    intro work
    cases work with
    | none => exact ⟨_, _, rfl⟩
    | some work =>
      refine ⟨INVALID_REQUEST_CODE, "duplicate active request id", ?_⟩
      have hnone : s.scheduler.schedule s.server number id work = none := by
        unfold RequestScheduler.schedule CancellationRegistry.begin
        rw [← hrequest, hrid]
        dsimp only
        rw [htoken]
        rfl
      unfold dispatchWork
      dsimp only
      rw [hnone]
      rfl
  unfold handle
  rw [hfields]
  dsimp only
  rw [hid, hmethod]
  rcases lifecyclePermits_cases s.server (some method) (some id) with
    ⟨code, text, -, -, -, hgate⟩ | ⟨hgate, -⟩
  · rw [hgate]
    exact ⟨code, text, rfl⟩
  · rw [hgate]
    cases method with
    | Hover => exact hwork _
    | Definition => exact hwork _
    | CodeAction => exact hwork _
    | _ => cases hscheduled

theorem Registered.ignored {s : System} (hr : Registered s) {number : Nat} {message : Value}
    {request : RequestId} (hcancel : cancelOf message = some request)
    (hunknown : ∀ ticket ∈ s.inFlight, ticket.request_id ≠ some request) :
    ∃ frames, handle analysis s.server s.scheduler number message =
      answered s.server s.scheduler frames := by
  obtain ⟨fields, hfields, htarget⟩ := Option.bind_eq_some_iff.mp hcancel
  split_ifs at htarget with hmethod
  have hsame : cancel s.server (field "params" fields) = s.server := by
    unfold cancel CancellationRegistry.cancel
    rw [htarget]
    dsimp only
    rw [hr.inactive hunknown]
  unfold handle
  rw [hfields]
  dsimp only
  rw [hmethod]
  rcases lifecyclePermits_cases s.server (some .CancelRequest) (field "id" fields) with
    ⟨code, text, -, -, -, hgate⟩ | ⟨hgate, -⟩
  · rw [hgate]
    exact ⟨_, rfl⟩
  · rw [hgate]
    dsimp only
    rw [hsame]
    exact ⟨[], rfl⟩

/-- Each request is answered once, a cancel that is heeded in time is what the
answer tells, and no result is sent that a change has overtaken. -/
theorem every_request_is_served (analysis : Analysis) {s : System}
    (h : Reachable analysis s) : Served analysis s := by
  have hs := h.sound
  have hanswers : ∀ {number frame}, frame ∈ s.answers number → (number, frame) ∈ s.output := by
    intro number frame hframe
    obtain ⟨e, he, rfl⟩ := List.mem_map.mp hframe
    obtain ⟨he, hnumber⟩ := List.mem_filter.mp he
    rw [← show e.1 = number by simpa using hnumber]
    exact he
  refine ⟨hs.answered.once, hs.counted, fun number message fields id method hfields hid hmethod
    hscheduled hactive => hs.registered.refused hfields hid hmethod hscheduled hactive,
    fun cancel hcancel hlife frame hframe => ?_, fun number frame hframe id hid => ?_,
    fun number message request hcancel hunknown => hs.registered.ignored hcancel hunknown,
    fun completed rest completion hevents houtcome hnever => ?_, hs.flow.settled,
    fun t hworks => hworks.lighter, hs.flow.rests⟩
  · exact (hs.flagged.told _ (hanswers hframe)).mp ⟨cancel, hcancel, rfl, hlife⟩
  · obtain ⟨cancel, hcancel, hnumber, -⟩ := (hs.flagged.told _ (hanswers hframe)).mpr ⟨id, hid⟩
    exact ⟨cancel, hcancel, hnumber⟩
  · have htask : (completed.ticket, some completed.outcome) ∈ s.tasks := by
      unfold System.tasks
      rw [hevents]
      simp [ServerEvent.task]
    have hmem := System.mem_inFlight htask
    have hflag : completed.ticket.token.any s.server.cancellation.isCancelled = false := by
      rw [Bool.eq_false_iff]
      intro hflag
      obtain ⟨cancel, hcancel, hnumber, -⟩ := (hs.flagged.cells _ hmem).mp hflag
      exact hnever cancel hcancel hnumber
    have hfits := hs.fitting.completions _ htask completion (by rw [houtcome])
    have hcurrent := @Fits.current _ _ _ hfits (s.scheduler.complete s.server completed).1 rfl rfl
    rw [complete_frame, hs.registered.said hmem, hflag, houtcome]
    dsimp only
    by_cases hbefore : ∀ change ∈ s.accepted, change ≤ completed.ticket.number
    · rw [if_pos (hcurrent.mpr hbefore), if_pos hbefore]
    · rw [if_neg fun hnow => hbefore (hcurrent.mp hnow), if_neg hbefore]

/-! ### Short runs -/

/-- An analysis that finds nothing. -/
def blank : Analysis := ⟨fun _ _ => [], fun _ _ _ => none, fun _ _ _ => .Null, fun _ _ => none⟩

def request (id : Value) (method : String) : Value :=
  .Object [("id", id), ("method", .String method), ("params", .Object [
    ("position", .Object [("character", .Number (.PosInt 0)), ("line", .Number (.PosInt 0))]),
    ("textDocument", .Object [("uri", .String "untitled:query")])])]

/-- A message is read and taken. -/
def System.feed (analysis : Analysis) (s : System) (message : Value) : System :=
  ({ s with reader := .Waiting, events := [] } : System).take analysis (.Input message)

theorem Reachable.feed {s : System} (h : Reachable analysis s) (message : Value)
    (reading : s.reader = .Reading) (quiet : s.events = []) (open_ : s.terminal = none)
    (running : s.returned = none) : Reachable analysis (s.feed analysis message) := by
  have hread := h.tail (.read message reading)
  have htake : Works analysis
      { s with reader := .Waiting, events := s.events ++ [.Input message] }
      (s.feed analysis message) := by
    refine .take running (fun hend => ?_) (by rw [quiet]; rfl)
    rw [show s.terminal = none from open_] at hend
    cases hend.1
  exact hread.tail (.work htake)

/-- The one worker runs, and its outcome goes to the channel. -/
theorem Reachable.finish {s : System} (h : Reachable analysis s) {worker : Worker}
    (outcome : WorkerOutcome) (waits : s.scheduler.pool = [worker]) (fresh : worker.outcome = none)
    (comes : Outcome analysis s.server worker outcome) :
    Reachable analysis { s with
      scheduler.pool := []
      events := s.events ++ [.Completed ⟨worker.ticket, outcome⟩] } :=
  (h.tail (.work (@Works.run _ _ [] [] _ _ waits fresh comes))).tail
    (.work (@Works.send _ _ [] [] { worker with outcome := some outcome } outcome rfl rfl))

/-- The server takes what its worker came to. -/
theorem Reachable.commit {s : System} (h : Reachable analysis s) {completed : CompletedRequest}
    (next : s.events = [.Completed completed]) (open_ : s.terminal = none)
    (running : s.returned = none) :
    Reachable analysis ({ s with events := [] }.take analysis (.Completed completed)) := by
  refine h.tail (.work (.take running (fun hend => ?_) next))
  rw [open_] at hend
  cases hend.1

/-- An analysis that knows where everything is defined. -/
def located : Analysis :=
  ⟨fun _ _ => [], fun _ _ _ => none, fun _ _ _ => .String "here", fun _ _ => none⟩

def cancelRequest (id : Value) : Value :=
  .Object [("method", .String "$/cancelRequest"), ("params", .Object [("id", id)])]

/-- A hover is cancelled while it waits for its worker, and the definition that is asked
for behind it is found. -/
theorem a_cancel_and_a_result_are_served : ∃ s, Reachable located s ∧ Served located s ∧
    s.cancels.map (fun cancel => (cancel.message, cancel.request)) = [(2, 1)] ∧
    s.answers 1 = [Frame.cancelled (.Number (.PosInt 2))] ∧
    ∃ completed rest, s.events = .Completed completed :: rest ∧
      (s.scheduler.complete s.server completed).2.2 =
        .Result (.Number (.PosInt 3)) (.String "here") := by
  have hgreeted : Reachable located (System.new.feed located
      (request (.Number (.PosInt 1)) "initialize")) := .feed .refl _ rfl rfl rfl rfl
  have hcancelled := (hgreeted.feed (request (.Number (.PosInt 2)) "textDocument/hover") rfl rfl
    rfl rfl).feed (cancelRequest (.Number (.PosInt 2))) rfl rfl rfl rfl
  have htold := (hcancelled.finish .Cancelled rfl rfl rfl).commit rfl rfl rfl
  have hfound := (htold.feed (request (.Number (.PosInt 3)) "textDocument/definition") rfl rfl
    rfl rfl).finish _ rfl rfl (Or.inl rfl)
  have hserved := every_request_is_served located hfound
  refine ⟨_, hfound, hserved, rfl, rfl, _, _, rfl, hserved.commits _ _ _ rfl rfl ?_⟩
  intro cancel hcancel
  obtain rfl := List.mem_singleton.mp hcancel
  show (1 : Nat) ≠ 3
  decide

/-- An edit is not answered where it carries an identifier, requests without a
string or an integer for it share it, and a shutdown takes one that is in use. -/
theorem some_identifiers_are_not_served :
    (∃ s, Reachable blank s ∧
      s.received[1]? = some (request (.Number (.PosInt 2)) "textDocument/didClose") ∧
      s.answers 1 = [] ∧ s.Settled) ∧
    (∃ s, Reachable blank s ∧
      s.received[2]? = some (request .Null "textDocument/hover") ∧ s.answers 2 = [] ∧
      s.inFlight.map Ticket.response_id = [.Null, .Null]) ∧
    ∃ s, Reachable blank s ∧
      s.received[2]? = some (request (.Number (.PosInt 2)) "shutdown") ∧
      s.answers 2 = [.Result (.Number (.PosInt 2)) .Null] ∧
      s.inFlight.map Ticket.response_id = [.Number (.PosInt 2)] := by
  have hstart : Reachable blank (System.new.feed blank
      (request (.Number (.PosInt 1)) "initialize")) := .feed .refl _ rfl rfl rfl rfl
  refine ⟨⟨_, hstart.feed (request (.Number (.PosInt 2)) "textDocument/didClose") rfl rfl rfl rfl,
      rfl, rfl, rfl, fun _ => List.not_mem_nil⟩,
    ⟨_, (hstart.feed (request .Null "textDocument/hover") rfl rfl rfl rfl).feed
      (request .Null "textDocument/hover") rfl rfl rfl rfl, rfl, rfl, rfl⟩,
    ⟨_, (hstart.feed (request (.Number (.PosInt 2)) "textDocument/hover") rfl rfl rfl rfl).feed
      (request (.Number (.PosInt 2)) "shutdown") rfl rfl rfl rfl, rfl, rfl, rfl⟩⟩

end analyzer.lsp
