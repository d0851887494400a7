import Swarm.Network.Queues

/-!
# A poll step as the node's

Each step of the behaviour's poll does what the node does on the message that is
taken, or nothing that the node sees. A channel that is full or closed and a
budget that is used up leave the later sends out, so the queues of the machine
are at most the node's messages.
The node's user acts when a command is taken, and asks for storage to be
initialised when the known peers are told.
-/

namespace Swarm.Network

open Swarm.DataMemory Swarm.Processor Swarm.Consensus Swarm.Node Swarm.Behaviour

variable {limit B : Nat} {Sync : Type}

namespace Deployment

/-! ## The user's commands -/

/-- The request that a command is. That storage be initialised is asked with the peers that are
known when consensus answers. -/
def requestOf : Behaviour.InEvent B → Option (Behaviour.InEvent B)
  | .initializeStorage => none
  | e => some e

def commandOf : Command B → Option (Behaviour.InEvent B)
  | .event e => requestOf e
  | .getMetrics => none

/-- The requests that the behaviour has yet to take. -/
def commandsOf (b : NodeBehaviour limit Sync B) : List (Behaviour.InEvent B) :=
  b.userInteraction.input.queue.filterMap commandOf

/-- The requests among the actions of a node. -/
def requestsOf (us : List (Act B)) : List (Behaviour.InEvent B) :=
  us.filterMap fun
    | .user e => requestOf e
    | _ => none

/-! ## One poll step -/

/-- The tables and the events of the behaviour name the request of each id. -/
structure Sound (b : NodeBehaviour limit Sync B) : Prop where
  pending : ∀ id request, b.pendingResponse.lookup id = some request → request = id.request
  assigned : ∀ id request, .assignedRequestId id request ∈ b.requestResponse.output.queue →
    request = id.request
  waits : ∀ request w, w ∈ (b.processedRequests.lookup request).getD [] →
    w.2.requestId.request = request
  incoming : ∀ id request channel,
    .incomingRequest id request channel ∈ b.requestResponse.output.queue →
      channel.requestId.request = request

/-- The node of a machine whose behaviour is `b`. -/
def nodeWith (m : Machine limit Sync B) (b : NodeBehaviour limit Sync B) : Node B :=
  ⟨m.tile, m.instructionMemory, peersOf b.processedRequests⟩

variable (D : Deployment) (p : PeerId)

/-- The behaviour of machine `m` goes on as `b'`, as the node does in a local run. -/
structure Polled (m : Machine limit Sync B) (b' : NodeBehaviour limit Sync B) : Prop where
  sound : Sound b'
  state : b'.processor.state = m.behaviour.processor.state
  matched : ∃ us ms out, Actors.Locally D.toSetup.actors p (nodeWith m m.behaviour)
    (D.queued p m.scheduled m.behaviour ++ held p m) us (nodeWith m b') ms out ∧
    (D.queued p m.scheduled b' ++ held p m).Subperm ms ∧
    (Machine.told m.behaviour b').Sublist out ∧
    requestsOf us ++ commandsOf b' = commandsOf m.behaviour

variable {D p} {m : Machine limit Sync B} {b b' b₁ : NodeBehaviour limit Sync B} {now : Instant}
  {budget : Nat}

theorem Sound.kept (h : Sound b) (kept : Kept b b') : Sound b' where
  pending id request hl := h.pending id request (kept.pending ▸ hl)
  assigned id request hmem := h.assigned id request (kept.events ▸ hmem)
  waits request w hw := h.waits request w (kept.processed ▸ hw)
  incoming id request channel hmem := h.incoming id request channel (kept.events ▸ hmem)

theorem told_append {es : List (Emission RequestId ResponseChannel Sync B)}
    (h : b'.userInteraction.output.queue =
      b.userInteraction.output.queue ++ es.filterMap replyOf) :
    Machine.told b b' = (es.filterMap replyOf).filterMap event := by
  rw [Machine.told, h, List.drop_left]
  rfl

theorem told_self (h : b'.userInteraction.output.queue = b.userInteraction.output.queue) :
    Machine.told b b' = [] := by
  rw [Machine.told, h, List.drop_length]
  rfl

/-- The behaviour does nothing that the node sees, and may lose messages. -/
theorem Polled.stutter (sound : Sound b') (state : b'.processor.state = m.behaviour.processor.state)
    (processed : b'.processedRequests = m.behaviour.processedRequests)
    (queues : (D.queued p m.scheduled b').Subperm (D.queued p m.scheduled m.behaviour))
    (replies : b'.userInteraction.output.queue = m.behaviour.userInteraction.output.queue)
    (commands : commandsOf b' = commandsOf m.behaviour) : Polled D p m b' where
  sound := sound
  state := state
  matched := by
    have hnode : nodeWith m b' = nodeWith m m.behaviour := by rw [nodeWith, processed, nodeWith]
    refine ⟨[], _, [], hnode ▸ .nil _ _, queues.append (List.Subperm.refl _), ?_, commands⟩
    rw [told_self replies]

/-- The behaviour takes something, `b₁` is left, and it sends: what the node does includes all
sends. -/
theorem Polled.sends {es : List (Emission RequestId ResponseChannel Sync B)} {u : List (Act B)}
    {o : List (Output B)} (sound : Sound b₁)
    (state : b₁.processor.state = m.behaviour.processor.state)
    (replies : b₁.userInteraction.output = m.behaviour.userInteraction.output)
    (plain : ∀ e ∈ es.tail, Plain e)
    (local' : Actors.Locally D.toSetup.actors p (nodeWith m m.behaviour)
      (D.queued p m.scheduled m.behaviour ++ held p m) u (nodeWith m b₁)
      (D.queued p m.scheduled b₁ ++ held p m ++
        es.flatMap (D.message p (m.scheduled + txsOf b₁))) o)
    (told : ((es.filterMap replyOf).filterMap event).Sublist o)
    (commands : requestsOf u ++ commandsOf b₁ = commandsOf m.behaviour) :
    Polled D p m (sendAll now budget b₁ es).2 := by
  obtain ⟨sent, hsub, kept, hqueues, hreplies⟩ :=
    sendAll_sends (D := D) (p := p) plain (show sendAll now budget b₁ es = (_, _) from rfl)
  have hnode : nodeWith m (sendAll now budget b₁ es).2 = nodeWith m b₁ := by
    rw [nodeWith, kept.processed, nodeWith]
  refine ⟨sound.kept kept, kept.processor.trans state, u, _, o, hnode ▸ local', ?_, ?_, ?_⟩
  · have hsent : (sent.flatMap (D.message p (m.scheduled + txsOf b₁))).Subperm
        (es.flatMap (D.message p (m.scheduled + txsOf b₁))) := (hsub.flatMap _).subperm
    refine ((hqueues m.scheduled).append_right _).subperm.trans ?_
    rw [List.append_assoc, List.append_assoc]
    exact (List.subperm_append_left _).2
      (List.perm_append_comm.subperm.trans ((List.subperm_append_left _).2 hsent))
  · rw [replies] at hreplies
    rw [told_append hreplies]
    exact ((hsub.filterMap replyOf).filterMap event).trans told
  · rw [← commands, commandsOf, kept.commands]
    rfl

/-- The behaviour takes an event that is shown as a message, and handles it as the node does. -/
theorem Polled.delivered {es : List (Emission RequestId ResponseChannel Sync B)}
    {y : Message B} {sends : List (Send B)} {c : Choice} (sound : Sound b₁)
    (state : b₁.processor.state = m.behaviour.processor.state)
    (replies : b₁.userInteraction = m.behaviour.userInteraction) (plain : ∀ e ∈ es.tail, Plain e)
    (has : ∀ i, (D.queued p i m.behaviour).Perm ((p, y) :: D.queued p i b₁))
    (reaction : D.toSetup.receive p c (nodeWith m m.behaviour) y =
      some (D.behave p c (nodeWith m m.behaviour) (peersOf b₁.processedRequests, sends)))
    (messages : es.flatMap (D.message p (m.scheduled + txsOf b₁)) = sends.flatMap (D.dispatch p c))
    (told : (es.filterMap replyOf).filterMap event = sends.filterMap Setup.told) :
    Polled D p m (sendAll now budget b₁ es).2 := by
  refine .sends sound state (by rw [replies]) plain ?_ (List.Sublist.refl _)
    (by rw [commandsOf, replies]; rfl) (u := [])
  rw [messages, told]
  exact Actors.Locally.delivered (A := D.toSetup.actors)
    (r := D.behave p c (nodeWith m m.behaviour) (peersOf b₁.processedRequests, sends))
    ((has m.scheduled).append_right _) reaction

/-- The same for a handler that makes its sends as they are. -/
theorem Polled.handled {y : Message B} {sends : List (Send B)} (sound : Sound b₁)
    (state : b₁.processor.state = m.behaviour.processor.state)
    (replies : b₁.userInteraction = m.behaviour.userInteraction)
    (processed : b₁.processedRequests = m.behaviour.processedRequests)
    (relayed : ∀ a ∈ sends, Relayed a) (single : sends.length ≤ 1)
    (has : ∀ i, (D.queued p i m.behaviour).Perm ((p, y) :: D.queued p i b₁))
    (reaction : ∀ c, D.toSetup.receive p c (nodeWith m m.behaviour) y =
      some (D.behave p c (nodeWith m m.behaviour)
        ((nodeWith m m.behaviour).processedRequests, sends))) :
    Polled D p m (sendAll now budget b₁ (sends.flatMap emission)).2 := by
  refine .delivered sound state replies ?_ has ?_
    (message_emissions relayed (c := choice D p (m.scheduled + txsOf b₁)) rfl)
    (event_emissions sends)
  · match sends, single with
    | [], _ => exact fun e h => by cases h
    | [a], _ => cases a <;> exact fun e h => by cases h
  · rw [reaction, processed]
    rfl

/-! ### The handlers -/

/-- What is left of the behaviour when it takes an event of the data memory. -/
def withoutMemory (b : NodeBehaviour limit Sync B) (rest : Channel limit (DataMemory.OutEvent B)) :
    NodeBehaviour limit Sync B :=
  { b with dataMemory := { b.dataMemory with output := rest } }

/-- What is left when it takes a command of the user. -/
def withoutCommand (b : NodeBehaviour limit Sync B) (rest : Channel limit (Command B)) :
    NodeBehaviour limit Sync B :=
  { b with userInteraction := { b.userInteraction with input := rest } }

/-- Which events are taken does not matter to the tables. -/
theorem Sound.of_events (h : Sound b) (pending : b'.pendingResponse = b.pendingResponse)
    (processed : b'.processedRequests = b.processedRequests)
    (events : b'.requestResponse.output.queue ⊆ b.requestResponse.output.queue) : Sound b' where
  pending id request hl := h.pending id request (pending ▸ hl)
  assigned id request hmem := h.assigned id request (events hmem)
  waits request w hw := h.waits request w (processed ▸ hw)
  incoming id request channel hmem := h.incoming id request channel (events hmem)

theorem handleDataMemory_snd (processed processed' : ProcessedRequests) {e : DataMemory.OutEvent B}
    (h : answered e = none) :
    (handleDataMemory processed e).2 = (handleDataMemory processed' e).2 := by
  cases e with
  | serveShardResponse f x | assignedResponse f x => cases h
  | _ => rfl

theorem onDataMemory_polled {e : DataMemory.OutEvent B}
    {rest : Channel limit (DataMemory.OutEvent B)} (sound : Sound m.behaviour)
    (hqueue : m.behaviour.dataMemory.output.queue = e :: rest.queue) :
    Polled D p m (sendAll now budget ((withoutMemory m.behaviour rest).onDataMemory e).1
      ((withoutMemory m.behaviour rest).onDataMemory e).2).2 := by
  classical
  have has : ∀ i, (D.queued p i m.behaviour).Perm
      ((p, .memoryOut e) :: D.queued p i (withoutMemory m.behaviour rest)) := by
    intro i
    refine List.perm_iff_count.2 fun x => ?_
    simp only [queued, withoutMemory, hqueue, List.map_cons, List.count_append, List.count_cons]
    omega
  cases hans : answered e with
  | none =>
    have hon : (withoutMemory m.behaviour rest).onDataMemory e =
        (withoutMemory m.behaviour rest, (handleDataMemory ∅ e).2.flatMap emission) := by
      rw [onDataMemory, hans]
    rw [hon]
    refine .handled (sound.of_events rfl rfl fun _ h => h) rfl rfl rfl ?_ ?_ has fun c => ?_
    · cases e with
      | serveShardResponse f x | assignedResponse f x => cases hans
      | distributionSufficient v => exact fun a h => by cases h
      | _ => exact fun a h => by obtain rfl := List.mem_singleton.1 h; trivial
    · cases e with
      | serveShardResponse f x | assignedResponse f x => cases hans
      | _ => simp [handleDataMemory]
    · have h : handleDataMemory (nodeWith m m.behaviour).processedRequests e =
          ((nodeWith m m.behaviour).processedRequests, (handleDataMemory ∅ e).2) :=
        Prod.ext (Server.handleDataMemory_keeps _ e hans) (handleDataMemory_snd _ ∅ hans)
      show some (D.behave p c _ (handleDataMemory _ e)) = _
      rw [h]
  | some answer =>
    obtain ⟨request, response⟩ := answer
    have hon : (withoutMemory m.behaviour rest).onDataMemory e =
        ({ withoutMemory m.behaviour rest with
          processedRequests := m.behaviour.processedRequests.erase request },
        ((m.behaviour.processedRequests.lookup request).getD []).map fun w =>
          .requestResponse (.respond w.1 w.2 response)) := by
      rw [onDataMemory, hans]
      rfl
    have hmemory : handleDataMemory (nodeWith m m.behaviour).processedRequests e =
        (peersOf (m.behaviour.processedRequests.erase request),
          ((m.behaviour.processedRequests.lookup request).getD []).map fun w =>
            .respond w.2.peer request response) := by
      have hanswer : ∀ processed : ProcessedRequests,
          handleDataMemory processed e = answer processed request response := by
        intro processed
        cases e with
        | serveShardResponse f x | assignedResponse f x => cases hans; rfl
        | _ => cases hans
      rw [hanswer, answer, nodeWith, peersOf, Finmap.mapValues_erase, Finmap.lookup_mapValues]
      cases m.behaviour.processedRequests.lookup request <;> simp
    rw [hon]
    refine .delivered (c := default) ⟨sound.pending, sound.assigned, fun r w hw => ?_,
      sound.incoming⟩ rfl rfl ?_ has (by rw [← hmemory]; rfl) ?_ ?_
    · simp only [Finmap.lookup_erase_ite] at hw
      split at hw
      · cases hw
      · exact sound.waits r w hw
    · intro a ha
      obtain ⟨w, -, rfl⟩ := List.mem_map.1 (List.mem_of_mem_tail ha)
      trivial
    · rw [List.flatMap_map, List.flatMap_map]
      refine List.flatMap_congr fun w hw => ?_
      have hw : w.2.requestId.request = request := sound.waits request w hw
      simp only [message, asked, Setup.dispatch, hw]
    · have hnone : ((((m.behaviour.processedRequests.lookup request).getD []).map fun w =>
          (.requestResponse (.respond w.1 w.2 response) :
            Emission RequestId ResponseChannel Sync B)).filterMap replyOf) = [] := by
        simp [replyOf]
      rw [hnone]
      simp [Setup.told]

/-- Sends that the node does not see. -/
theorem Polled.silent {es : List (Emission RequestId ResponseChannel Sync B)} (sound : Sound b₁)
    (state : b₁.processor.state = m.behaviour.processor.state)
    (processed : b₁.processedRequests = m.behaviour.processedRequests)
    (replies : b₁.userInteraction.output = m.behaviour.userInteraction.output)
    (commands : commandsOf b₁ = commandsOf m.behaviour)
    (queues : ∀ i, D.queued p i b₁ = D.queued p i m.behaviour)
    (unseen : ∀ e ∈ es, Plain e ∧ (∀ i, D.message p i e = []) ∧ (replyOf e).bind event = none) :
    Polled D p m (sendAll now budget b₁ es).2 := by
  have hmessages : ∀ i, es.flatMap (D.message p i) = [] := fun i =>
    List.flatMap_eq_nil_iff.2 fun e he => (unseen e he).2.1 i
  have hreplies : (es.filterMap replyOf).filterMap event = [] := by
    rw [List.filterMap_filterMap]
    exact List.filterMap_eq_nil_iff.2 fun e he => (unseen e he).2.2
  refine .sends sound state replies (fun e he => (unseen e (List.mem_of_mem_tail he)).1) ?_
    (o := []) (by rw [hreplies]) commands (u := [])
  rw [hmessages, List.append_nil, queues, nodeWith, nodeWith, processed]
  exact .nil _ _

theorem sendAll_singleton (e : Emission RequestId ResponseChannel Sync B) :
    sendAll now budget b [e] = b.send now budget e := by
  rw [sendAll]
  split
  · rename_i hs
    rw [sendAll, hs]
  · rename_i hs
    rw [hs]

theorem onCommand_polled {e : Command B} {rest : Channel limit (Command B)} (hp : p ∈ D.peers)
    (sound : Sound m.behaviour)
    (hqueue : m.behaviour.userInteraction.input.queue = e :: rest.queue) :
    Polled D p m (sendAll now budget (withoutCommand m.behaviour rest)
      ((withoutCommand m.behaviour rest).onCommand e)).2 := by
  have sound₁ : Sound (withoutCommand m.behaviour rest) := sound.of_events rfl rfl fun _ h => h
  cases e with
  | getMetrics =>
    refine .silent sound₁ rfl rfl rfl
      (by simp [commandsOf, withoutCommand, hqueue, List.filterMap_cons, commandOf]) (fun i => rfl) ?_
    intro e he
    obtain rfl := List.mem_singleton.1 he
    exact ⟨trivial, fun _ => rfl, rfl⟩
  | event e =>
    by_cases hinit : requestOf e = none
    · refine .silent sound₁ rfl rfl rfl (by simp [commandsOf, withoutCommand, hqueue, commandOf, hinit])
        (fun i => rfl) fun e' he => ?_
      cases e with
      | initializeStorage =>
        obtain rfl := List.mem_singleton.1 he
        exact ⟨rfl, fun _ => rfl, rfl⟩
      | _ => cases hinit
    · have hown : requestOf e = some e := by
        cases e with
        | initializeStorage => exact absurd rfl hinit
        | _ => rfl
      have hrelayed : ∀ a ∈ handleUser e, Relayed a := by
        cases e with
        | initializeStorage => exact absurd rfl hinit
        | scheduleProgram program =>
          intro a ha
          rcases List.mem_cons.1 ha with rfl | ha
          · trivial
          · obtain rfl := List.mem_singleton.1 ha
            trivial
        | _ => exact fun a h => by obtain rfl := List.mem_singleton.1 h; trivial
      refine .sends sound₁ rfl rfl ?_ ?_ (o := (handleUser e).filterMap Setup.told)
        (u := [.user e]) ?_ ?_
      · cases e with
        | scheduleProgram program =>
          intro a ha
          obtain rfl := List.mem_singleton.1 ha
          trivial
        | _ => exact fun a h => by cases h
      · rw [onCommand, message_emissions hrelayed (c := choice D p _) rfl]
        refine Actors.Locally.acted (A := D.toSetup.actors)
          (c := choice D p (m.scheduled + txsOf (withoutCommand m.behaviour rest)))
          (r := D.behave p _ (nodeWith m m.behaviour)
            ((nodeWith m m.behaviour).processedRequests, handleUser e)) ?_
        show D.toSetup.act p _ _ (.user e) = _
        rw [Setup.act, if_pos hp]
      · rw [onCommand, event_emissions]
      · simp [requestsOf, commandsOf, withoutCommand, hqueue, commandOf, hown]

/-- What is left when it takes an event of the network's requests. -/
def withoutEvent (b : NodeBehaviour limit Sync B)
    (rest : Channel limit (RequestResponseOut RequestId ResponseChannel B)) :
    NodeBehaviour limit Sync B :=
  { b with requestResponse := { b.requestResponse with output := rest } }

theorem handleResponse_relayed {request : Request} {response : Response B} {a : Send B}
    (h : a ∈ handleResponse request response) : Relayed a := by
  unfold handleResponse at h
  split at h
  · obtain rfl := List.mem_singleton.1 h
    trivial
  · obtain rfl := List.mem_singleton.1 h
    trivial
  · cases h

theorem peersOf_pushRequest (processed : HashMap Request (List (RequestId × ResponseChannel)))
    (request : Request) (id : RequestId) (channel : ResponseChannel) :
    peersOf (pushRequest processed request (id, channel)) =
      pushRequest (peersOf processed) request channel.peer := by
  rw [peersOf, pushRequest, pushRequest, Finmap.mapValues_insert, Finmap.lookup_mapValues]
  cases processed.lookup request <;> simp

theorem onRequestResponse_polled {e : RequestResponseOut RequestId ResponseChannel B}
    {rest : Channel limit (RequestResponseOut RequestId ResponseChannel B)}
    (sound : Sound m.behaviour)
    (hqueue : m.behaviour.requestResponse.output.queue = e :: rest.queue) :
    Polled D p m ((withoutEvent m.behaviour rest).onRequestResponse now budget e).2 := by
  classical
  have has : ∀ i, (D.queued p i m.behaviour).Perm
      (arrived p e ++ D.queued p i (withoutEvent m.behaviour rest)) := by
    intro i
    refine List.perm_iff_count.2 fun x => ?_
    simp only [queued, withoutEvent, hqueue, List.flatMap_cons, List.count_append]
    omega
  have lost : ∀ i, (D.queued p i (withoutEvent m.behaviour rest)).Subperm
      (D.queued p i m.behaviour) := fun i =>
    (List.sublist_append_right ..).subperm.trans (has i).symm.subperm
  have hsub : rest.queue ⊆ m.behaviour.requestResponse.output.queue :=
    hqueue ▸ List.subset_cons_self _ _
  have sound₁ : Sound (withoutEvent m.behaviour rest) := sound.of_events rfl rfl hsub
  cases e with
  | assignedRequestId id request =>
    refine .stutter ⟨fun id' request' hl => ?_, sound₁.assigned, sound₁.waits, sound₁.incoming⟩
      rfl rfl (lost _) rfl rfl
    simp only [onRequestResponse, withoutEvent, Finmap.lookup_insert_ite] at hl
    split at hl
    · rename_i hid
      cases hl
      rw [hid]
      exact sound.assigned id request (hqueue ▸ List.mem_cons_self)
    · exact sound.pending id' request' hl
  | response id response =>
    rw [onRequestResponse]
    split
    · rename_i request hl
      obtain rfl := sound.pending id request hl
      refine .handled sound₁ rfl rfl rfl (fun a ha => handleResponse_relayed ha) ?_
        (fun i => has i) fun c => rfl
      unfold handleResponse
      split <;> simp
    · exact .stutter sound₁ rfl rfl (lost _) rfl rfl
  | incomingRequest id request channel =>
    rw [onRequestResponse]
    have hsend : Sends D p (withoutEvent m.behaviour rest) (.dataMemory (forwarded request))
      ((withoutEvent m.behaviour rest).send now budget (.dataMemory (forwarded request))) := send_sends
    generalize (withoutEvent m.behaviour rest).send now budget (.dataMemory (forwarded request)) = x
      at hsend ⊢
    cases hsend with
    | failed => exact .stutter sound₁ rfl rfl (lost _) rfl rfl
    | @sent b' kept queues replies txs =>
      have hprocessed : b'.processedRequests = m.behaviour.processedRequests := kept.processed
      have hnode : nodeWith m
          { b' with processedRequests := pushRequest b'.processedRequests request (id, channel) } =
          ⟨m.tile, m.instructionMemory,
            pushRequest (peersOf m.behaviour.processedRequests) request channel.peer⟩ := by
        rw [nodeWith, hprocessed, peersOf_pushRequest]
      have hlocal := Actors.Locally.delivered (A := D.toSetup.actors) (c := default)
        (r := D.behave p default (nodeWith m m.behaviour)
          (handleIncomingRequest (nodeWith m m.behaviour).processedRequests channel.peer request))
        ((has m.scheduled).append_right (held p m)) rfl
      rw [Server.handleIncomingRequest_eq] at hlocal
      have hlocal' : Actors.Locally D.toSetup.actors p (nodeWith m m.behaviour)
          (D.queued p m.scheduled m.behaviour ++ held p m) []
          (nodeWith m { b' with
            processedRequests := pushRequest b'.processedRequests request (id, channel) })
          (D.queued p m.scheduled (withoutEvent m.behaviour rest) ++ held p m ++
            [(p, .memoryIn (forwarded request))]) [] := by
        rw [hnode]
        exact hlocal
      refine ⟨⟨(sound₁.kept kept).pending, (sound₁.kept kept).assigned, fun r w hw => ?_,
        (sound₁.kept kept).incoming⟩, kept.processor, [], _, _, hlocal', ?_, ?_, ?_⟩
      · simp only [pushRequest, hprocessed, Finmap.lookup_insert_ite] at hw
        split at hw
        · rename_i hr
          rw [hr]
          rcases List.mem_append.1 hw with hw | hw
          · exact sound.waits request w hw
          · obtain rfl := List.mem_singleton.1 hw
            exact sound.incoming id request channel (hqueue ▸ List.mem_cons_self)
        · exact sound.waits r w hw
      · refine ((queues m.scheduled).append_right _).subperm.trans ?_
        rw [List.append_assoc, List.append_assoc]
        exact (List.subperm_append_left _).2 List.perm_append_comm.subperm
      · have htold : Machine.told m.behaviour b' = [] :=
          told_self (replies.trans (List.append_nil _))
        exact htold ▸ List.nil_sublist _
      · rw [commandsOf, kept.commands]
        rfl

/-- What is left when it takes an event of consensus. -/
def withoutConsensus (b : NodeBehaviour limit Sync B)
    (rest : Channel limit (Consensus.OutEvent Sync)) : NodeBehaviour limit Sync B :=
  { b with consensus := { b.consensus with output := rest } }

/-- The behaviour after a step of its poll. -/
def after : Micro limit RequestId ResponseChannel Sync B → NodeBehaviour limit Sync B
  | .goto _ b | .ready _ b | .pending b => b

@[simp] theorem after_stay (phase : Phase) (x : HandleResult × NodeBehaviour limit Sync B) :
    after (stay phase x) = x.2 := by
  obtain ⟨r, b⟩ := x
  cases r <;> rfl

theorem onConsensus_polled {e : Consensus.OutEvent Sync}
    {rest : Channel limit (Consensus.OutEvent Sync)} {c : PollChoice} (hp : p ∈ D.peers)
    (sound : Sound m.behaviour)
    (hqueue : m.behaviour.consensus.output.queue = e :: rest.queue) :
    Polled D p m (after ((withoutConsensus m.behaviour rest).onConsensus D.calculateHash c e)) := by
  classical
  have has : ∀ i, (D.queued p i m.behaviour).Perm
      (recognizedBy p e ++ D.queued p i (withoutConsensus m.behaviour rest)) := by
    intro i
    refine List.perm_iff_count.2 fun x => ?_
    simp only [queued, withoutConsensus, hqueue, List.flatMap_cons, List.count_append]
    omega
  have lost : ∀ i, (D.queued p i (withoutConsensus m.behaviour rest)).Subperm
      (D.queued p i m.behaviour) := fun i =>
    (List.sublist_append_right ..).subperm.trans (has i).symm.subperm
  have sound₁ : Sound (withoutConsensus m.behaviour rest) := sound.of_events rfl rfl fun _ h => h
  cases e with
  | generateSyncResponse peer sync =>
    exact .stutter (sound₁.of_events rfl rfl fun _ h => h) rfl rfl (lost _) rfl rfl
  | finalizedTransaction author hash tx => exact .stutter sound₁ rfl rfl (lost _) rfl rfl
  | recognizedTransaction author hash tx =>
    rw [onConsensus, after_stay]
    refine .handled sound₁ rfl rfl rfl ?_ ?_ (fun i => has i) fun c => rfl
    · cases tx <;> exact fun a h => by obtain rfl := List.mem_singleton.1 h; trivial
    · cases tx <;> exact le_rfl
  | knownPeersResponse peers =>
    rw [onConsensus, after_stay]
    -- the node is asked now, with the peers that are known
    generalize (withoutConsensus m.behaviour rest).knownPeers c.peerOrder peers = known
    let c' : Choice := { choice D p (m.scheduled + txsOf (withoutConsensus m.behaviour rest)) with
      peers := known }
    have hrelayed : ∀ a ∈ handleKnownPeers (B := B) known, Relayed a :=
      fun a h => by obtain rfl := List.mem_singleton.1 h; trivial
    refine .sends sound₁ rfl rfl (fun a h => by cases h) ?_ (o := [])
      (u := [.user .initializeStorage]) (List.Sublist.refl _) rfl
    rw [message_emissions hrelayed (c := c') rfl]
    refine Actors.Locally.act (A := D.toSetup.actors) (c := c')
      (r := D.behave p c' (nodeWith m m.behaviour)
        ((nodeWith m m.behaviour).processedRequests, [.knownPeersRequest])) ?_ ?_
    · show D.toSetup.act p _ _ (.user _) = _
      rw [Setup.act, if_pos hp]
      rfl
    · refine Actors.Locally.delivered (A := D.toSetup.actors) (c := c') (m := .knownPeers known)
        (r := D.behave p c' (nodeWith m m.behaviour)
          ((nodeWith m m.behaviour).processedRequests, handleKnownPeers known)) ?_ rfl
      exact List.perm_append_comm.trans (((has m.scheduled).append_right (held p m)).cons _)

variable (D p) in
/-- Nothing that the node sees changes. -/
structure Unseen (b b' : NodeBehaviour limit Sync B) : Prop where
  kept : Kept b b'
  queues : ∀ i, D.queued p i b' = D.queued p i b
  replies : b'.userInteraction.output = b.userInteraction.output

theorem Unseen.trans (h : Unseen D p b b') (h' : Unseen D p b' b₁) : Unseen D p b b₁ :=
  ⟨h.kept.trans h'.kept, fun i => (h'.queues i).trans (h.queues i), h'.replies.trans h.replies⟩

theorem Unseen.polled (h : Unseen D p m.behaviour b') (sound : Sound m.behaviour) :
    Polled D p m b' :=
  .stutter (sound.kept h.kept) h.kept.processor h.kept.processed
    (h.queues _ ▸ List.Subperm.refl _) (by rw [h.replies]) (by rw [commandsOf, h.kept.commands]; rfl)

theorem sendGossip_unseen {e : Consensus.InEvent Sync} (he : txOf e = none) {r : HandleResult}
    (h : b.sendGossip budget e = (r, b')) : Unseen D p b b' := by
  unfold sendGossip at h
  split at h
  · rename_i c hc
    have hqueue := Channel.pollSend_queue hc
    cases h
    refine ⟨⟨rfl, rfl, rfl, rfl, rfl⟩, fun i => ?_, rfl⟩
    simp only [queued, hqueue, List.filterMap_append, List.filterMap_cons, he, List.filterMap_nil,
      List.append_nil]
  · cases h
    exact ⟨.refl _, fun _ => rfl, rfl⟩
  · cases h
    exact ⟨.refl _, fun _ => rfl, rfl⟩

theorem gossip_unseen (c : PollChoice) (peer : PeerId) : Unseen D p b (b.gossip c peer).2 := by
  unfold gossip
  split
  · rename_i b₁ h₁
    exact sendGossip_unseen rfl h₁
  · rename_i b₁ h₁
    split
    · rename_i b₂ h₂
      exact (sendGossip_unseen rfl h₁).trans (sendGossip_unseen rfl h₂)
    · rename_i b₂ h₂
      have h := (sendGossip_unseen (D := D) (p := p) rfl h₁).trans (sendGossip_unseen rfl h₂)
      exact ⟨⟨h.kept.commands, h.kept.events, h.kept.processor, h.kept.pending, h.kept.processed⟩,
        h.queues, h.replies⟩

theorem look_polled {α : Type} {r : Received limit α} {next : Phase}
    {handle : α → Channel limit α → Micro limit RequestId ResponseChannel Sync B}
    (same : Polled D p m m.behaviour)
    (h : ∀ a rest, r = .item a rest → Polled D p m (after (handle a rest))) :
    Polled D p m (after (m.behaviour.look r next handle)) := by
  cases r with
  | item a rest => exact h a rest rfl
  | closed | pending => exact same

/-- **A step of the poll** is a local run of the node. -/
theorem micro_polled {c : PollChoice} {phase : Phase} (hp : p ∈ D.peers)
    (sound : Sound m.behaviour)
    (ready : m.behaviour.processor.state ≠ some .executing → m.tile.processor = .ready) :
    Polled D p m (after (m.behaviour.micro D.calculateHash c phase)) := by
  classical
  have same : Polled D p m m.behaviour :=
    Unseen.polled ⟨.refl _, fun _ => rfl, rfl⟩ sound
  cases phase with
  | shutdown =>
    rw [micro]
    split <;> exact same
  | discoveredPeers =>
    rw [micro]
    split
    · exact Unseen.polled ⟨⟨rfl, rfl, rfl, rfl, rfl⟩, fun _ => rfl, rfl⟩ sound
    · exact same
  | oneshotMessages =>
    rw [micro]
    split
    · rename_i peer sync rest hrest
      rw [after_stay, ← sendAll_singleton]
      refine .silent (sound.of_events rfl rfl fun _ h => h) rfl rfl rfl rfl (fun _ => rfl) ?_
      intro e he
      obtain rfl := List.mem_singleton.1 he
      exact ⟨rfl, fun _ => rfl, rfl⟩
    · exact same
  | dataMemory =>
    refine look_polled same fun e rest hrecv => ?_
    rw [after_stay]
    exact onDataMemory_polled sound (Channel.pollRecv_queue hrecv)
  | user =>
    refine look_polled same fun e rest hrecv => ?_
    rw [after_stay]
    exact onCommand_polled hp sound (Channel.pollRecv_queue hrecv)
  | processor =>
    refine look_polled same fun e rest hrecv => ?_
    rw [after_stay]
    refine .handled (y := .processorOut e.1 e.2) (sound.of_events rfl rfl fun _ h => h) rfl rfl
      rfl (fun a h => by obtain rfl := List.mem_singleton.1 h; trivial) le_rfl (fun i => ?_)
      fun c => rfl
    refine List.perm_iff_count.2 fun x => ?_
    simp only [queued, Channel.pollRecv_queue hrecv, List.map_cons, List.count_append,
      List.count_cons]
    omega
  | instructionMemory =>
    rw [micro]
    split
    · rename_i haccepts
      have hready : m.tile.processor = .ready := ready fun hstate => by
        simp [ModuleChannel.acceptsInput, hstate, Behaviour.State.acceptsInput] at haccepts
      refine look_polled same fun e rest hrecv => ?_
      rw [after_stay]
      refine .handled (y := .instructionOut e) (sound.of_events rfl rfl fun _ h => h) rfl rfl
        rfl ?_ ?_ (fun i => ?_) fun c => ?_
      · cases e <;> exact fun a h => by obtain rfl := List.mem_singleton.1 h; trivial
      · cases e <;> exact le_rfl
      · refine List.perm_iff_count.2 fun x => ?_
        simp only [queued, Channel.pollRecv_queue hrecv, List.map_cons, List.count_append,
          List.count_cons]
        omega
      · simp only [Setup.receive, nodeWith, hready]
    · exact same
  | consensus =>
    exact look_polled same fun e rest hrecv =>
      onConsensus_polled hp sound (Channel.pollRecv_queue hrecv)
  | gossip =>
    rw [micro]
    split
    · split
      · rw [after_stay]
        exact (gossip_unseen c _).polled sound
      · exact same
    · exact same
  | requestResponse =>
    rw [micro]
    split
    · rename_i e rest hrecv
      rw [after_stay]
      exact onRequestResponse_polled sound (Channel.pollRecv_queue hrecv)
    · exact same
    · exact same

end Deployment

end Swarm.Network
