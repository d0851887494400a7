import Swarm.Network.Polling

/-!
# The requests of a behaviour

What a step of the behaviour's poll does to its tables and queues of requests and
responses (`micro_desk`). It moves ids of requests on, keeps what it knows of
them, and reads a response after the id it comes under.
-/

namespace Swarm.Network

open Swarm.DataMemory Swarm.Processor Swarm.Consensus Swarm.Node Swarm.Behaviour
open Actors (weigh weigh_nil weigh_cons weigh_append)

variable {limit B : Nat} {Sync : Type}

namespace Deployment

/-- The response is of the kind of the request: the data memory is told of it. -/
def Answers (request : Request) (response : Response B) : Prop :=
  ∃ e, handleResponse request response = [.dataMemory e]

/-! ## What a poll step does to the requests -/

/-- The request or response that an event is. -/
def asks : Emission RequestId ResponseChannel Sync B →
    Option (RequestResponseIn RequestId ResponseChannel B)
  | .requestResponse e => some e
  | _ => none

/-- The behaviour asks a peer. -/
inductive Asks : RequestResponseIn RequestId ResponseChannel B → Prop where
  | makeRequest (request : Request) (location : PeerId) : Asks (.makeRequest request location)

/-- The event that a poll step takes from the network's requests and responses. -/
def taken (c : PollChoice) (phase : Phase) (b : NodeBehaviour limit Sync B) :
    Option (RequestResponseOut RequestId ResponseChannel B) :=
  if phase = .requestResponse ∧ 0 < c.budget then b.requestResponse.output.queue.head? else none

/-- The tables and the events of the behaviour stay. -/
structure Same (b b' : NodeBehaviour limit Sync B) : Prop where
  events : b'.requestResponse.output = b.requestResponse.output
  pending : b'.pendingResponse = b.pendingResponse
  processed : b'.processedRequests = b.processedRequests

/-- Everything a poll step does to the tables and queues of requests; `e` is the event it takes. -/
inductive Desk (b : NodeBehaviour limit Sync B) :
    Option (RequestResponseOut RequestId ResponseChannel B) → NodeBehaviour limit Sync B → Prop where
  | asked {b' : NodeBehaviour limit Sync B}
      (l : List (RequestResponseIn RequestId ResponseChannel B)) (same : Same b b')
      (input : b'.requestResponse.input.queue = b.requestResponse.input.queue ++ l)
      (asks : ∀ e ∈ l, Asks e) : Desk b none b'
  | answered {b' : NodeBehaviour limit Sync B} {request : Request} {response : Response B}
      (l : List (RequestResponseIn RequestId ResponseChannel B)) (answers : Answers request response)
      (events : b'.requestResponse.output = b.requestResponse.output)
      (pending : b'.pendingResponse = b.pendingResponse)
      (processed : b'.processedRequests = b.processedRequests.erase request)
      (input : b'.requestResponse.input.queue = b.requestResponse.input.queue ++ l)
      (waited : l.Sublist (((b.processedRequests.lookup request).getD []).map fun w =>
        .respond w.1 w.2 response)) : Desk b none b'
  | assigned {b' : NodeBehaviour limit Sync B} {id : RequestId} {request : Request}
      (events : b.requestResponse.output.queue =
        .assignedRequestId id request :: b'.requestResponse.output.queue)
      (pending : b'.pendingResponse = b.pendingResponse.insert id request)
      (processed : b'.processedRequests = b.processedRequests)
      (input : b'.requestResponse.input.queue = b.requestResponse.input.queue) :
      Desk b (some (.assignedRequestId id request)) b'
  | response {b' : NodeBehaviour limit Sync B} {id : RequestId} {response : Response B}
      (events : b.requestResponse.output.queue =
        .response id response :: b'.requestResponse.output.queue)
      (pending : b'.pendingResponse = b.pendingResponse)
      (processed : b'.processedRequests = b.processedRequests)
      (input : b'.requestResponse.input.queue = b.requestResponse.input.queue) :
      Desk b (some (.response id response)) b'
  | incoming {b' : NodeBehaviour limit Sync B} {id : RequestId} {request : Request}
      {channel : ResponseChannel}
      (events : b.requestResponse.output.queue =
        .incomingRequest id request channel :: b'.requestResponse.output.queue)
      (pending : b'.pendingResponse = b.pendingResponse)
      (processed : b'.processedRequests = b.processedRequests ∨
        b'.processedRequests = pushRequest b.processedRequests request (id, channel))
      (input : b'.requestResponse.input.queue = b.requestResponse.input.queue) :
      Desk b (some (.incomingRequest id request channel)) b'

variable {b b' b₁ : NodeBehaviour limit Sync B} {now : Instant} {budget : Nat}
  {result : HandleResult}

theorem Same.refl (b : NodeBehaviour limit Sync B) : Same b b := ⟨rfl, rfl, rfl⟩

theorem Same.trans (h : Same b b₁) (h' : Same b₁ b') : Same b b' :=
  ⟨h'.events.trans h.events, h'.pending.trans h.pending, h'.processed.trans h.processed⟩

/-- Nothing is taken, asked or answered. -/
theorem Desk.quiet (same : Same b b') (input : b'.requestResponse.input = b.requestResponse.input) :
    Desk b none b' :=
  .asked [] same (by rw [input, List.append_nil]) fun _ h => by cases h

/-! ### Sends -/

theorem send_asks {e : Emission RequestId ResponseChannel Sync B} (h : b.send now budget e = (result, b')) :
    Same b b' ∧ (b' = b ∨ b'.requestResponse.input.queue =
      b.requestResponse.input.queue ++ (asks e).toList) := by
  cases e with
  | requestResponse e =>
    simp only [send, sent] at h
    split at h
    · rename_i c hsend
      cases h
      exact ⟨⟨rfl, rfl, rfl⟩, .inr (Channel.pollSend_queue hsend)⟩
    · cases h
      exact ⟨.refl _, .inl rfl⟩
  | _ =>
    simp only [send, sent] at h
    split at h
    · cases h
      exact ⟨⟨rfl, rfl, rfl⟩, .inr (List.append_nil _).symm⟩
    · cases h
      exact ⟨.refl _, .inl rfl⟩

/-- A list of sends asks and answers a part of what is in it. -/
theorem sendAll_asks {es : List (Emission RequestId ResponseChannel Sync B)}
    (h : sendAll now budget b es = (result, b')) : Same b b' ∧ ∃ l, l.Sublist (es.filterMap asks) ∧
      b'.requestResponse.input.queue = b.requestResponse.input.queue ++ l := by
  induction es generalizing b budget with
  | nil =>
    cases h
    exact ⟨.refl _, [], .slnil, (List.append_nil _).symm⟩
  | cons e es ih =>
    have hcons : (e :: es).filterMap asks = (asks e).toList ++ es.filterMap asks := by
      cases he : asks e <;> simp [he]
    rw [sendAll] at h
    split at h
    · rename_i b₁ hsend
      obtain ⟨same, hinput⟩ := send_asks hsend
      obtain ⟨same', l, hsub, hinput'⟩ := ih h
      refine ⟨same.trans same', ?_⟩
      rw [hcons]
      rcases hinput with rfl | hinput
      · exact ⟨l, hsub.trans (List.sublist_append_right ..), hinput'⟩
      · exact ⟨(asks e).toList ++ l, hsub.append_left _,
          by rw [hinput', hinput, List.append_assoc]⟩
    · rename_i b₁ hsend
      cases h
      obtain ⟨same, hinput⟩ := send_asks hsend
      refine ⟨same, ?_⟩
      rw [hcons]
      rcases hinput with rfl | hinput
      · exact ⟨[], List.nil_sublist _, (List.append_nil _).symm⟩
      · exact ⟨(asks e).toList, List.sublist_append_left .., hinput⟩

/-- What a handler sends as it is asks peers only. -/
theorem asks_emissions {sends : List (Send B)}
    {x : RequestResponseIn RequestId ResponseChannel B}
    (h : x ∈ (sends.flatMap emission : List (Emission _ _ Sync B)).filterMap asks) : Asks x := by
  obtain ⟨e, he, hx⟩ := List.mem_filterMap.1 h
  obtain ⟨a, -, ha⟩ := List.mem_flatMap.1 he
  cases a with
  | makeRequest request location =>
    obtain rfl := List.mem_singleton.1 ha
    cases hx
    exact .makeRequest _ _
  | respond origin request response => cases ha
  | _ =>
    obtain rfl := List.mem_singleton.1 ha
    cases hx

/-- The behaviour takes something else and sends. -/
theorem Desk.sends {es : List (Emission RequestId ResponseChannel Sync B)} (same : Same b b₁)
    (input : b₁.requestResponse.input = b.requestResponse.input)
    (h : ∀ x ∈ es.filterMap asks, Asks x) : Desk b none (sendAll now budget b₁ es).2 := by
  obtain ⟨same', l, hsub, hinput⟩ := sendAll_asks (show sendAll now budget b₁ es = (_, _) from rfl)
  exact .asked l (same.trans same') (by rw [hinput, input]) fun x hx => h x (hsub.subset hx)

/-! ### The handlers -/

theorem onDataMemory_desk {e : DataMemory.OutEvent B} {rest : Channel limit (DataMemory.OutEvent B)} :
    Desk b none (sendAll now budget ((withoutMemory b rest).onDataMemory e).1
      ((withoutMemory b rest).onDataMemory e).2).2 := by
  unfold onDataMemory
  split
  · rename_i request response hans
    obtain ⟨same, l, hsub, hinput⟩ := sendAll_asks (show sendAll now budget
      { withoutMemory b rest with processedRequests := b.processedRequests.erase request }
      (((b.processedRequests.lookup request).getD []).map fun w =>
        .requestResponse (.respond w.1 w.2 response)) = (_, _) from rfl)
    have hanswers : Answers request response := by
      cases e with
      | serveShardResponse f x | assignedResponse f x =>
        cases hans
        exact ⟨_, rfl⟩
      | _ => cases hans
    refine .answered l hanswers same.events same.pending same.processed hinput ?_
    rw [List.filterMap_map] at hsub
    exact hsub.trans (List.filterMap_eq_map (f := fun w : RequestId × ResponseChannel =>
      (.respond w.1 w.2 response : RequestResponseIn _ _ B)) ▸ List.Sublist.refl _)
  · exact .sends ⟨rfl, rfl, rfl⟩ rfl fun x hx => asks_emissions hx

theorem onRequestResponse_desk {e : RequestResponseOut RequestId ResponseChannel B}
    {rest : Channel limit (RequestResponseOut RequestId ResponseChannel B)}
    (hqueue : b.requestResponse.output.queue = e :: rest.queue) :
    Desk b (some e) ((withoutEvent b rest).onRequestResponse now budget e).2 := by
  cases e with
  | assignedRequestId id request => exact .assigned hqueue rfl rfl rfl
  | response id response =>
    rw [onRequestResponse]
    split
    · rename_i request hl
      obtain ⟨same, l, hsub, hinput⟩ := sendAll_asks (show sendAll now budget (withoutEvent b rest)
        ((handleResponse request response).flatMap emission) = (_, _) from rfl)
      have hnone : ((handleResponse request response).flatMap emission :
          List (Emission RequestId ResponseChannel Sync B)).filterMap asks = [] := by
        unfold handleResponse
        split <;> rfl
      rw [hnone, List.sublist_nil] at hsub
      rw [hsub, List.append_nil] at hinput
      exact .response (hqueue.trans (by rw [same.events]; rfl)) same.pending same.processed hinput
    · exact .response hqueue rfl rfl rfl
  | incomingRequest id request channel =>
    rw [onRequestResponse]
    split
    · rename_i b₁ hsend
      obtain ⟨same, hinput⟩ := send_asks hsend
      refine .incoming (hqueue.trans (by rw [same.events]; rfl)) same.pending
        (.inr (by rw [same.processed]; rfl)) ?_
      rcases hinput with rfl | hinput
      · rfl
      · exact hinput.trans (List.append_nil _)
    · rename_i b₁ hsend
      obtain ⟨same, hinput⟩ := send_asks hsend
      refine .incoming (hqueue.trans (by rw [same.events]; rfl)) same.pending
        (.inl same.processed) ?_
      rcases hinput with rfl | hinput
      · rfl
      · exact hinput.trans (List.append_nil _)

theorem onConsensus_desk {e : Consensus.OutEvent Sync}
    {rest : Channel limit (Consensus.OutEvent Sync)} {c : PollChoice}
    {calculateHash : Instructions → Hash} :
    Desk b none (after ((withoutConsensus b rest).onConsensus calculateHash c e)) := by
  cases e with
  | generateSyncResponse peer sync => exact .quiet ⟨rfl, rfl, rfl⟩ rfl
  | finalizedTransaction author hash tx => exact .quiet ⟨rfl, rfl, rfl⟩ rfl
  | knownPeersResponse peers =>
    rw [onConsensus, after_stay]
    exact .sends ⟨rfl, rfl, rfl⟩ rfl fun x hx => asks_emissions hx
  | recognizedTransaction author hash tx =>
    rw [onConsensus, after_stay]
    exact .sends ⟨rfl, rfl, rfl⟩ rfl fun x hx => asks_emissions hx

theorem sendGossip_same {e : Consensus.InEvent Sync} (h : b.sendGossip budget e = (result, b')) :
    Same b b' ∧ b'.requestResponse.input = b.requestResponse.input := by
  unfold sendGossip at h
  split at h <;> cases h <;> exact ⟨⟨rfl, rfl, rfl⟩, rfl⟩

theorem gossip_desk (c : PollChoice) (peer : PeerId) : Desk b none (b.gossip c peer).2 := by
  unfold gossip
  split
  · rename_i b₁ h₁
    obtain ⟨same, input⟩ := sendGossip_same h₁
    exact .quiet same input
  · rename_i b₁ h₁
    obtain ⟨same, input⟩ := sendGossip_same h₁
    split
    all_goals
      rename_i b₂ h₂
      obtain ⟨same', input'⟩ := sendGossip_same h₂
    · exact .quiet (same.trans same') (input'.trans input)
    · have h := same.trans same'
      exact .quiet ⟨h.events, h.pending, h.processed⟩ (input'.trans input)

theorem look_desk {α : Type} {x : Received limit α} {next : Phase}
    {handle : α → Channel limit α → Micro limit RequestId ResponseChannel Sync B}
    (h : ∀ e rest, x = .item e rest → Desk b none (after (handle e rest))) :
    Desk b none (after (b.look x next handle)) := by
  cases x with
  | item e rest => exact h e rest rfl
  | closed | pending => exact .quiet (.refl b) rfl

theorem taken_item {e : RequestResponseOut RequestId ResponseChannel B} {c : PollChoice}
    {rest : Channel limit (RequestResponseOut RequestId ResponseChannel B)}
    (h : b.requestResponse.output.pollRecv c.budget = .item e rest) :
    taken c .requestResponse b = some e := by
  rw [taken, if_pos ⟨rfl, (Channel.pollRecv_eq_item.1 h).1⟩, Channel.pollRecv_queue h]
  rfl

theorem taken_none {c : PollChoice}
    (h : ∀ e rest, b.requestResponse.output.pollRecv c.budget ≠ .item e rest) :
    taken c .requestResponse b = none := by
  rw [taken, ite_eq_right_iff]
  rintro ⟨-, hbudget⟩
  rw [Channel.queue_of_pollRecv hbudget h]
  rfl

/-- **One poll step.** -/
theorem micro_desk (calculateHash : Instructions → Hash) (c : PollChoice) (phase : Phase)
    (b : NodeBehaviour limit Sync B) :
    Desk b (taken c phase b) (after (b.micro calculateHash c phase)) := by
  have still : Desk b none b := .quiet (.refl b) rfl
  cases phase with
  | shutdown =>
    rw [micro]
    split <;> exact still
  | discoveredPeers =>
    rw [micro]
    split
    · exact .quiet ⟨rfl, rfl, rfl⟩ rfl
    · exact still
  | oneshotMessages =>
    rw [micro]
    split
    · rw [after_stay, ← sendAll_singleton]
      exact .sends ⟨rfl, rfl, rfl⟩ rfl fun x hx => by cases hx
    · exact still
  | dataMemory =>
    refine look_desk fun e rest _ => ?_
    rw [after_stay]
    exact onDataMemory_desk
  | user =>
    refine look_desk fun e rest _ => ?_
    rw [after_stay]
    refine .sends ⟨rfl, rfl, rfl⟩ rfl fun x hx => ?_
    cases e with
    | getMetrics => cases hx
    | event e => exact asks_emissions hx
  | processor =>
    refine look_desk fun e rest _ => ?_
    rw [after_stay]
    exact .sends ⟨rfl, rfl, rfl⟩ rfl fun x hx => asks_emissions hx
  | instructionMemory =>
    rw [micro]
    split
    · refine look_desk fun e rest _ => ?_
      rw [after_stay]
      exact .sends ⟨rfl, rfl, rfl⟩ rfl fun x hx => asks_emissions hx
    · exact still
  | consensus => exact look_desk fun e rest _ => onConsensus_desk
  | gossip =>
    rw [micro]
    split
    · split
      · rw [after_stay]
        exact gossip_desk c _
      · exact still
    · exact still
  | requestResponse =>
    rw [micro]
    split
    · rename_i e rest hrecv
      rw [taken_item hrecv, after_stay]
      exact onRequestResponse_desk (Channel.pollRecv_queue hrecv)
    · rename_i hrecv
      rw [taken_none fun e rest h => by rw [hrecv] at h; cases h]
      exact still
    · rename_i hrecv
      rw [taken_none fun e rest h => by rw [hrecv] at h; cases h]
      exact still

/-! ## Where an id is -/

section Places

variable (a : PeerId) (id : RequestId) (p : PeerId)

/-- The packet goes under the id of machine `a`. -/
def inPacket : PeerId × Packet Sync B → Nat
  | (_, .request id' origin) => if origin = a ∧ id' = id then 1 else 0
  | (q, .response id' _) => if q = a ∧ id' = id then 1 else 0
  | _ => 0

/-- The event that waits at machine `p` is of a request under the id, or its response. -/
def inEvent : RequestResponseOut RequestId ResponseChannel B → Nat
  | .assignedRequestId _ _ => 0
  | .response id' _ => if p = a ∧ id' = id then 1 else 0
  | .incomingRequest _ _ channel => if channel = ⟨a, id⟩ then 1 else 0

def inTable (w : RequestId × ResponseChannel) : Nat := if w.2 = ⟨a, id⟩ then 1 else 0

def inAnswer : RequestResponseIn RequestId ResponseChannel B → Nat
  | .makeRequest _ _ => 0
  | .respond _ channel _ => if channel = ⟨a, id⟩ then 1 else 0

/-- How often the id of machine `a` is at machine `p`. -/
def traces (b : NodeBehaviour limit Sync B) : Nat :=
  weigh (inEvent a id p) b.requestResponse.output.queue +
  weigh (inTable a id) ((b.processedRequests.lookup id.request).getD []) +
  weigh (inAnswer a id) b.requestResponse.input.queue

/-- Machine `p` reads a response under the id. -/
def reading : Option (RequestResponseOut RequestId ResponseChannel B) → Nat
  | some (.response id' _) => if p = a ∧ id' = id then 1 else 0
  | some (.assignedRequestId _ _) | some (.incomingRequest _ _ _) | none => 0

end Places

variable {a p : PeerId} {id : RequestId}
  {e : Option (RequestResponseOut RequestId ResponseChannel B)}

theorem weigh_asks {l : List (RequestResponseIn RequestId ResponseChannel B)}
    (h : ∀ x ∈ l, Asks x) : weigh (inAnswer a id) l = 0 :=
  Actors.weigh_eq_zero fun x hx => by
    cases h x hx
    rfl

/-- Those that wait for another request have other ids. -/
theorem weigh_inTable {request : Request} (sound : Sound b) (hne : request ≠ id.request) :
    weigh (inTable a id) ((b.processedRequests.lookup request).getD []) = 0 := by
  refine Actors.weigh_eq_zero fun w hw => if_neg fun hchannel => hne ?_
  rw [← sound.waits request w hw, hchannel]

/-- A poll step moves ids on, and takes those of responses. -/
theorem Desk.traces_le (a p : PeerId) (id : RequestId) (h : Desk b e b') (sound : Sound b) :
    traces a id p b' + reading a id p e ≤ traces a id p b := by
  unfold traces
  cases h with
  | asked l same input asks =>
    rw [same.events, same.processed, input, weigh_append, weigh_asks asks]
    exact le_rfl
  | @answered _ request response l answers events pending processed input waited =>
    have hl : weigh (inAnswer a id) l ≤
        weigh (inTable a id) ((b.processedRequests.lookup request).getD []) := by
      refine (Actors.weigh_sublist waited).trans ?_
      rw [weigh, List.map_map]
      exact le_rfl
    rw [events, processed, input, weigh_append, Server.waiting_erase, reading]
    by_cases hrequest : id.request = request
    · subst hrequest
      rw [if_pos rfl, weigh_nil]
      omega
    · rw [weigh_inTable sound (Ne.symm hrequest)] at hl
      rw [if_neg hrequest]
      omega
  | assigned events pending processed input =>
    rw [events, processed, input, weigh_cons, inEvent, reading]
    omega
  | response events pending processed input =>
    rw [events, processed, input, weigh_cons, inEvent, reading]
    omega
  | @incoming _ id' request channel events pending processed input =>
    have hchannel : channel.requestId.request = request :=
      sound.incoming id' request channel (events ▸ List.mem_cons_self)
    rw [events, input, weigh_cons, inEvent, reading]
    rcases processed with processed | processed
    · rw [processed]
      omega
    · rw [processed, Server.waiting_push]
      by_cases hrequest : id.request = request
      · rw [if_pos hrequest, weigh_append, weigh_cons, weigh_nil]
        simp only [inTable]
        omega
      · rw [if_neg hrequest]
        omega

/-! ## The id comes before its response -/

/-- The behaviour knows the request of the id. -/
def Known (b : NodeBehaviour limit Sync B) (id : RequestId) : Prop :=
  b.pendingResponse.lookup id = some id.request

/-- The behaviour knows it, or is going to be told. -/
def Assigned (b : NodeBehaviour limit Sync B) (id : RequestId) : Prop :=
  Known b id ∨ .assignedRequestId id id.request ∈ b.requestResponse.output.queue

/-- Each response is of an id that is known or comes before it. -/
def Follows : (RequestId → Prop) → List (RequestResponseOut RequestId ResponseChannel B) → Prop
  | _, [] => True
  | known, .assignedRequestId id _ :: es => Follows (fun i => i = id ∨ known i) es
  | known, .response id _ :: es => known id ∧ Follows known es
  | known, .incomingRequest _ _ _ :: es => Follows known es

section Follows

variable {known known' : RequestId → Prop}
  {es : List (RequestResponseOut RequestId ResponseChannel B)}

theorem Follows.mono (hknown : ∀ i, known i → known' i) (h : Follows known es) :
    Follows known' es := by
  induction es generalizing known known' with
  | nil => trivial
  | cons e es ih =>
    cases e with
    | assignedRequestId id request => exact ih (fun i => Or.imp_right (hknown i)) h
    | response id response => exact ⟨hknown id h.1, ih hknown h.2⟩
    | incomingRequest id request channel => exact ih hknown h

theorem Follows.snoc {e : RequestResponseOut RequestId ResponseChannel B} (h : Follows known es)
    (he : ∀ i response, e = .response i response →
      known i ∨ ∃ request, .assignedRequestId i request ∈ es) : Follows known (es ++ [e]) := by
  induction es generalizing known with
  | nil =>
    cases e with
    | response i response =>
      rcases he i response rfl with hi | ⟨request, hmem⟩
      · exact ⟨hi, trivial⟩
      · cases hmem
    | assignedRequestId | incomingRequest => trivial
  | cons e' es ih =>
    cases e' with
    | assignedRequestId id request =>
      refine ih h fun i response hi => ?_
      rcases he i response hi with hknown | ⟨request', hmem⟩
      · exact .inl (.inr hknown)
      · rcases List.mem_cons.1 hmem with hmem | hmem
        · cases hmem
          exact .inl (.inl rfl)
        · exact .inr ⟨request', hmem⟩
    | response id response =>
      refine ⟨h.1, ih h.2 fun i response' hi => (he i response' hi).imp_right ?_⟩
      rintro ⟨request, hmem⟩
      exact ⟨request, (List.mem_cons.1 hmem).resolve_left fun h => by cases h⟩
    | incomingRequest id request channel =>
      refine ih h fun i response hi => (he i response hi).imp_right ?_
      rintro ⟨request, hmem⟩
      exact ⟨request, (List.mem_cons.1 hmem).resolve_left fun h => by cases h⟩

end Follows

/-- Responses come after their ids and are of their requests' kinds. -/
structure Orderly (b : NodeBehaviour limit Sync B) : Prop where
  follows : Follows (Known b) b.requestResponse.output.queue
  responses : ∀ i response, .response i response ∈ b.requestResponse.output.queue →
    Answers i.request response
  answers : ∀ i channel response, .respond i channel response ∈ b.requestResponse.input.queue →
    Answers channel.requestId.request response

/-- A poll step forgets no id. -/
theorem Desk.assigned_mono (h : Desk b e b') (sound : Sound b) (hid : Assigned b id) :
    Assigned b' id := by
  cases h with
  | asked l same input asks =>
    rw [Assigned, Known, same.events, same.pending]
    exact hid
  | answered l answers events pending processed input waited =>
    rw [Assigned, Known, events, pending]
    exact hid
  | @assigned _ i request events pending processed input =>
    have hrequest : request = i.request :=
      sound.assigned i request (events ▸ List.mem_cons_self)
    rw [Assigned, Known, pending, Finmap.lookup_insert_ite]
    by_cases hi : id = i
    · subst hi
      rw [if_pos rfl, hrequest]
      exact .inl rfl
    · rw [if_neg hi]
      refine hid.imp_right fun hmem => ?_
      rw [events] at hmem
      refine (List.mem_cons.1 hmem).resolve_left fun heq => hi ?_
      cases heq
      rfl
  | response events pending processed input | incoming events pending processed input =>
    rw [Assigned, Known, pending]
    refine hid.imp_right fun hmem => ?_
    rw [events] at hmem
    exact (List.mem_cons.1 hmem).resolve_left fun h => by cases h

/-- A poll step keeps the order. -/
theorem Desk.orderly (h : Desk b e b') (sound : Sound b) (ordered : Orderly b) : Orderly b' := by
  obtain ⟨follows, responses, answers⟩ := ordered
  cases h with
  | asked l same input asks =>
    refine ⟨?_, fun i x hx => responses i x (same.events ▸ hx), fun i channel x hx => ?_⟩
    · rw [same.events]
      exact follows.mono fun i hi => by rwa [Known, same.pending]
    · rw [input] at hx
      exact (List.mem_append.1 hx).elim (answers i channel x) fun hx => by cases asks _ hx
  | answered l fits events pending processed input waited =>
    refine ⟨?_, fun i x hx => responses i x (events ▸ hx), fun i channel x hx => ?_⟩
    · rw [events]
      exact follows.mono fun i hi => by rwa [Known, pending]
    · rw [input] at hx
      rcases List.mem_append.1 hx with hx | hx
      · exact answers i channel x hx
      · obtain ⟨w, hw, heq⟩ := List.mem_map.1 (waited.subset hx)
        cases heq
        rw [sound.waits _ w hw]
        exact fits
  | @assigned _ i request events pending processed input =>
    have hrequest : request = i.request :=
      sound.assigned i request (events ▸ List.mem_cons_self)
    rw [events] at follows responses
    refine ⟨Follows.mono (fun j hj => ?_) follows,
      fun j x hx => responses j x (List.mem_cons_of_mem _ hx), input ▸ answers⟩
    rw [Known, pending, Finmap.lookup_insert_ite]
    split
    · rename_i hij
      rw [hij, hrequest]
    · rename_i hij
      exact hj.resolve_left hij
  | response events pending processed input =>
    rw [events] at follows responses
    refine ⟨follows.2.mono fun i hi => by rwa [Known, pending],
      fun i x hx => responses i x (List.mem_cons_of_mem _ hx), input ▸ answers⟩
  | incoming events pending processed input =>
    rw [events] at follows responses
    refine ⟨Follows.mono (fun i hi => by rwa [Known, pending]) follows,
      fun i x hx => responses i x (List.mem_cons_of_mem _ hx), input ▸ answers⟩

end Deployment

end Swarm.Network
