import Swarm.Lib.Simulation
import Swarm.Network.Machine

/-!
# What is inside a machine

The entries of the queues of a machine, as the messages in flight of the plain
network: a request that waits for `main` is on its way to its peer, and a
transaction that waits for consensus is on its way to every node, with the hash
that it is going to have.

Sends of the behaviour put entries in; one that fails leaves them out.
-/

namespace Swarm.Network

open Swarm.DataMemory Swarm.Processor Swarm.Consensus Swarm.Node Swarm.Behaviour

variable {limit B : Nat} {Sync : Type}

namespace Deployment

variable (D : Deployment) (p : PeerId)

/-- The transaction that waits for consensus, if the event is one. -/
def txOf : Consensus.InEvent Sync → Option Transaction
  | .scheduleTx tx => some tx
  | _ => none

/-- The transactions of node `p` from number `i` on, as they are going to be recognised. -/
def broadcasts : Nat → List Transaction → List (PeerId × Message B)
  | _, [] => []
  | i, tx :: txs =>
    D.peers.map (·, .recognized p tx (D.eventHash p i)) ++ broadcasts (i + 1) txs

/-- What consensus has to say about recognised transactions. -/
def recognizedBy : Consensus.OutEvent Sync → List (PeerId × Message B)
  | .recognizedTransaction author eventHash tx => [(p, .recognized author tx eventHash)]
  | _ => []

def asked : RequestResponseIn RequestId ResponseChannel B → PeerId × Message B
  | .makeRequest request location => (location, .request p request)
  | .respond _ channel response => (channel.peer, .response channel.requestId.request response)

def arrived : RequestResponseOut RequestId ResponseChannel B → List (PeerId × Message B)
  | .assignedRequestId _ _ => []
  | .response requestId response => [(p, .response requestId.request response)]
  | .incomingRequest _ request channel => [(p, .request channel.peer request)]

/-- The entries of the behaviour's queues, if consensus has taken `i` transactions. -/
def queued (i : Nat) (b : NodeBehaviour limit Sync B) : List (PeerId × Message B) :=
  b.dataMemory.input.queue.map (fun e => (p, .memoryIn e)) ++
  b.dataMemory.output.queue.map (fun e => (p, .memoryOut e)) ++
  b.instructionMemory.input.queue.map (fun e => (p, .instructionIn e)) ++
  b.instructionMemory.output.queue.map (fun e => (p, .instructionOut e)) ++
  b.processor.input.queue.map (fun program => (p, .processorIn program)) ++
  b.processor.output.queue.map (fun e => (p, .processorOut e.1 e.2)) ++
  D.broadcasts p i (b.consensus.input.queue.filterMap txOf) ++
  b.consensus.output.queue.flatMap (recognizedBy p) ++
  b.requestResponse.input.queue.map (asked p) ++
  b.requestResponse.output.queue.flatMap (arrived p)

def loopHolds : ProcessorLoop → List (PeerId × Message B)
  | .received program => [(p, .processorIn program)]
  | .finished e => [(p, .processorOut e.1 e.2)]
  | .waiting | .executing | .reported => []

/-- What the modules hold. -/
def held (m : Machine limit Sync B) : List (PeerId × Message B) :=
  m.memoryOutbox.map (fun e => (p, .memoryOut e)) ++
  m.instructionOutbox.map (fun e => (p, .instructionOut e)) ++
  m.consensusOutbox.flatMap (recognizedBy p) ++ loopHolds p m.processorLoop

/-- The peers that wait, without their request ids. -/
def peersOf : HashMap Request (List (RequestId × ResponseChannel)) → ProcessedRequests :=
  Finmap.mapValues (List.map (·.2.peer))

/-- The messages that a packet is. -/
def carried : PeerId × Packet Sync B → List (PeerId × Message B)
  | (q, .request requestId origin) => [(q, .request origin requestId.request)]
  | (q, .response requestId response) => [(q, .response requestId.request response)]
  | (q, .recognized author tx eventHash) => [(q, .recognized author tx eventHash)]
  | (_, .simple _ _) => []

/-- A deployment as a network of nodes. -/
def shown : Actors.Shown PeerId (Node B) (Message B) (Machine limit Sync B) (Packet Sync B) where
  node m := ⟨m.tile, m.instructionMemory, peersOf m.behaviour.processedRequests⟩
  inside p m := D.queued p m.scheduled m.behaviour ++ held p m
  packet := carried

/-! ## Sends -/

/-- The message that an event is, as the `i`-th transaction if it is one. -/
def message (i : Nat) : Emission RequestId ResponseChannel Sync B → List (PeerId × Message B)
  | .consensus e => D.broadcasts p i (txOf e).toList
  | .instructionMemory e => [(p, .instructionIn e)]
  | .dataMemory e => [(p, .memoryIn e)]
  | .processor program => [(p, .processorIn program)]
  | .requestResponse e => [asked p e]
  | .user _ => []

/-- The event is no transaction. -/
def Plain : Emission RequestId ResponseChannel Sync B → Prop
  | .consensus e => txOf e = none
  | _ => True

/-- The reply to the user that an event is. -/
def replyOf : Emission RequestId ResponseChannel Sync B → Option (Reply B)
  | .user e => some e
  | _ => none

/-- How many transactions wait for consensus. -/
def txsOf (b : NodeBehaviour limit Sync B) : Nat :=
  (b.consensus.input.queue.filterMap txOf).length

/-- What sends do not touch. -/
structure Kept (b b' : NodeBehaviour limit Sync B) : Prop where
  commands : b'.userInteraction.input = b.userInteraction.input
  events : b'.requestResponse.output = b.requestResponse.output
  processor : b'.processor.state = b.processor.state
  pending : b'.pendingResponse = b.pendingResponse
  processed : b'.processedRequests = b.processedRequests

variable {D p} {i j : Nat} {b b' b'' : NodeBehaviour limit Sync B} {now : Instant}
  {budget : Nat} {e : Emission RequestId ResponseChannel Sync B} {r : HandleResult}

theorem Kept.refl (b : NodeBehaviour limit Sync B) : Kept b b := ⟨rfl, rfl, rfl, rfl, rfl⟩

theorem Kept.trans (h : Kept b b') (h' : Kept b' b'') : Kept b b'' :=
  ⟨h'.commands.trans h.commands, h'.events.trans h.events, h'.processor.trans h.processor,
    h'.pending.trans h.pending, h'.processed.trans h.processed⟩

theorem broadcasts_append (txs txs' : List Transaction) :
    (D.broadcasts p i (txs ++ txs') : List (PeerId × Message B)) =
      D.broadcasts p i txs ++ D.broadcasts p (i + txs.length) txs' := by
  induction txs generalizing i with
  | nil => rfl
  | cons tx txs ih =>
    rw [List.cons_append, broadcasts, broadcasts, ih, List.append_assoc, List.length_cons,
      Nat.add_assoc, Nat.add_comm 1]

theorem message_plain (h : Plain e) : D.message p i e = D.message p j e := by
  cases e with
  | consensus e =>
    have he : txOf e = none := h
    simp only [message, he]
    rfl
  | _ => rfl

/-- Everything a send does. -/
inductive Sends (D : Deployment) (p : PeerId) (b : NodeBehaviour limit Sync B)
    (e : Emission RequestId ResponseChannel Sync B) :
    HandleResult × NodeBehaviour limit Sync B → Prop where
  | sent {b' : NodeBehaviour limit Sync B} (kept : Kept b b')
      (queues : ∀ i, (D.queued p i b').Perm (D.queued p i b ++ D.message p (i + txsOf b) e))
      (replies : b'.userInteraction.output.queue =
        b.userInteraction.output.queue ++ (replyOf e).toList)
      (txs : Plain e → txsOf b' = txsOf b) : Sends D p b e (.ok, b')
  | failed : Sends D p b e (.abort, b)

theorem sent_sends {α : Type} {c : Channel limit α} {a : α}
    {set : Channel limit α → NodeBehaviour limit Sync B}
    (h : ∀ c' : Channel limit α, c'.queue = c.queue ++ [a] → Sends D p b e (.ok, set c')) :
    Sends D p b e (sent (c.pollSend budget a) set b) := by
  cases hs : c.pollSend budget a with
  | ok c' => exact h c' (Channel.pollSend_queue hs)
  | error => exact .failed

/-- **One send.** -/
theorem send_sends : Sends D p b e (b.send now budget e) := by
  classical
  cases e with
  | consensus e =>
    refine sent_sends fun c hqueue => ?_
    have htxs : c.queue.filterMap txOf = b.consensus.input.queue.filterMap txOf ++
        (txOf e).toList := by
      rw [hqueue, List.filterMap_append]
      cases he : txOf e <;> simp [he]
    refine .sent ⟨rfl, rfl, rfl, rfl, rfl⟩ (fun i => List.perm_iff_count.2 fun x => ?_)
      (List.append_nil _).symm fun h => ?_
    · simp only [queued, htxs, broadcasts_append, message, txsOf, List.count_append]
      omega
    · have he : txOf e = none := h
      rw [txsOf, htxs, he]
      exact congrArg List.length (List.append_nil _)
  | instructionMemory e =>
    refine sent_sends fun c hqueue => .sent ⟨rfl, rfl, rfl, rfl, rfl⟩
      (fun i => List.perm_iff_count.2 fun x => ?_) (List.append_nil _).symm fun _ => rfl
    simp only [queued, hqueue, message, List.map_append, List.map_cons, List.map_nil,
      List.count_append]
    omega
  | dataMemory e =>
    refine sent_sends fun c hqueue => .sent ⟨rfl, rfl, rfl, rfl, rfl⟩
      (fun i => List.perm_iff_count.2 fun x => ?_) (List.append_nil _).symm fun _ => rfl
    simp only [queued, hqueue, message, List.map_append, List.map_cons, List.map_nil,
      List.count_append]
    omega
  | processor program =>
    refine sent_sends fun c hqueue => .sent ⟨rfl, rfl, rfl, rfl, rfl⟩
      (fun i => List.perm_iff_count.2 fun x => ?_) (List.append_nil _).symm fun _ => rfl
    simp only [queued, hqueue, message, List.map_append, List.map_cons, List.map_nil,
      List.count_append]
    omega
  | requestResponse e =>
    refine sent_sends fun c hqueue => .sent ⟨rfl, rfl, rfl, rfl, rfl⟩
      (fun i => List.perm_iff_count.2 fun x => ?_) (List.append_nil _).symm fun _ => rfl
    simp only [queued, hqueue, message, List.map_append, List.map_cons, List.map_nil,
      List.count_append]
    omega
  | user e =>
    refine sent_sends fun c hqueue => .sent ⟨rfl, rfl, rfl, rfl, rfl⟩ (fun i => ?_) hqueue
      fun _ => rfl
    rw [message, List.append_nil]
    exact List.Perm.refl _

/-- **A list of sends**: a part of it is sent. Only the first may be a transaction. -/
theorem sendAll_sends {es : List (Emission RequestId ResponseChannel Sync B)}
    (plain : ∀ e ∈ es.tail, Plain e) (h : sendAll now budget b es = (r, b')) :
    ∃ sent : List (Emission RequestId ResponseChannel Sync B), sent.Sublist es ∧ Kept b b' ∧
      (∀ i, (D.queued p i b').Perm (D.queued p i b ++ sent.flatMap (D.message p (i + txsOf b)))) ∧
      b'.userInteraction.output.queue =
        b.userInteraction.output.queue ++ sent.filterMap replyOf := by
  induction es generalizing b budget with
  | nil =>
    cases h
    exact ⟨[], .slnil, .refl _, fun i => by simp, (List.append_nil _).symm⟩
  | cons e es ih =>
    rw [sendAll] at h
    have hsend : Sends D p b e (b.send now budget e) := send_sends
    generalize b.send now budget e = x at h hsend
    cases hsend with
    | failed =>
      cases h
      exact ⟨[], List.nil_sublist _, .refl _, fun i => by simp, (List.append_nil _).symm⟩
    | @sent b₁ kept queues replies txs =>
      obtain ⟨sent, hsub, kept', hqueues, hreplies⟩ :=
        ih (fun e he => plain e (List.mem_of_mem_tail he)) h
      have hindex : ∀ i, sent.flatMap (D.message p (i + txsOf b₁)) =
          sent.flatMap (D.message p (i + txsOf b)) :=
        fun i => List.flatMap_congr fun e he => message_plain (plain e (hsub.subset he))
      refine ⟨e :: sent, hsub.cons_cons e, kept.trans kept', fun i => ?_, ?_⟩
      · rw [List.flatMap_cons, ← List.append_assoc, ← hindex]
        exact (hqueues i).trans ((queues i).append_right _)
      · rw [hreplies, replies, List.append_assoc]
        cases hreply : replyOf e <;> simp [hreply]

/-! ## Emissions -/

/-- The choice for a transaction with number `j`. -/
def choice (D : Deployment) (p : PeerId) (j : Nat) : Choice :=
  { (default : Choice) with eventHash := D.eventHash p j }

/-- The send that the behaviour makes as it is. -/
def Relayed : Send B → Prop
  | .knownPeersRequest | .respond _ _ _ => False
  | _ => True

/-- What the user reads of a reply. -/
def event : Reply B → Option (Output B)
  | .event e => some (.user e)
  | .getMetricsResponse _ => none

theorem message_emission {a : Send B} {c : Choice} (h : Relayed a)
    (hc : c.eventHash = D.eventHash p j) :
    (emission a : List (Emission RequestId ResponseChannel Sync B)).flatMap (D.message p j) =
      D.dispatch p c a := by
  cases a with
  | scheduleTx tx =>
    simp only [emission, List.flatMap_cons, List.flatMap_nil, message, txOf, Option.toList_some,
      broadcasts, List.append_nil, Setup.dispatch, hc]
  | knownPeersRequest | respond origin request response => exact h.elim
  | _ => rfl

theorem message_emissions {sends : List (Send B)} {c : Choice} (h : ∀ a ∈ sends, Relayed a)
    (hc : c.eventHash = D.eventHash p j) :
    (sends.flatMap emission : List (Emission RequestId ResponseChannel Sync B)).flatMap
      (D.message p j) = sends.flatMap (D.dispatch p c) := by
  rw [List.flatMap_assoc]
  exact List.flatMap_congr fun a ha => message_emission (h a ha) hc

/-- The user reads what the handler told. -/
theorem event_emissions (sends : List (Send B)) :
    ((sends.flatMap emission : List (Emission RequestId ResponseChannel Sync B)).filterMap
      replyOf).filterMap event = sends.filterMap Setup.told := by
  induction sends with
  | nil => rfl
  | cons a sends ih =>
    rw [List.flatMap_cons, List.filterMap_append, List.filterMap_append, ih]
    cases a <;> rfl

end Deployment

end Swarm.Network
