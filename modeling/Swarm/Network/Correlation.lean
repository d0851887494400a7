import Swarm.Lib.Ledger
import Swarm.Network.Deployment
import Swarm.Network.Requests

/-!
# Requests and their responses

A machine gives each of its requests an id, and the response comes back under it.
The behaviour is told the id before the response, so it knows the request when it
reads the response; the response is of the request's kind, and no second one
comes: `responses_expected`. An id is at one place of the network at most, on its
way to the peer that is asked, waiting there, or on its way back.
-/

namespace Swarm.Network

open Swarm.DataMemory Swarm.Processor Swarm.Consensus Swarm.Node Swarm.Behaviour
open Actors (weigh weigh_nil weigh_cons weigh_append tokens tokens_react)

variable {limit B : Nat} {Sync : Type}

namespace Deployment

variable {b b' : NodeBehaviour limit Sync B} {a p : PeerId} {id : RequestId}
  {e : Option (RequestResponseOut RequestId ResponseChannel B)}

/-! ## Steps of a machine -/

/-- The packet carries no request or response. -/
inductive Idle : PeerId × Packet Sync B → Prop where
  | recognized (q author : PeerId) (tx : Transaction) (eventHash : Hash) :
      Idle (q, .recognized author tx eventHash)
  | simple (q origin : PeerId) (sync : Sync) : Idle (q, .simple origin sync)

theorem weigh_idle {sent : List (PeerId × Packet Sync B)} (h : ∀ x ∈ sent, Idle x) :
    weigh (inPacket a id) sent = 0 :=
  Actors.weigh_eq_zero fun x hx => by
    cases h x hx <;> rfl

/-- The requests and responses of the behaviour stay, but for those that `main` takes. -/
structure Fewer (b b' : NodeBehaviour limit Sync B) : Prop extends Same b b' where
  input : b'.requestResponse.input.queue.Sublist b.requestResponse.input.queue

theorem Fewer.traces_le (a p : PeerId) (id : RequestId) (h : Fewer b b') :
    traces a id p b' ≤ traces a id p b := by
  unfold traces
  rw [h.events, h.processed]
  exact Nat.add_le_add_left (Actors.weigh_sublist h.input) _

theorem Fewer.assigned (h : Fewer b b') (hid : Assigned b id) : Assigned b' id := by
  rw [Assigned, Known, h.events, h.pending]
  exact hid

theorem Fewer.orderly (h : Fewer b b') (ordered : Orderly b) : Orderly b' where
  follows := by
    rw [h.events]
    exact ordered.follows.mono fun i hi => by rwa [Known, h.pending]
  responses i x hx := ordered.responses i x (h.events ▸ hx)
  answers i channel x hx := ordered.answers i channel x (h.input.subset hx)

/-- What the reaction of machine `p` to `given` does to the ids. Its poll reads `e`, and `new` is an
id it gives out. -/
structure Tracked (p : PeerId) (m : Machine limit Sync B) (given : List (PeerId × Packet Sync B))
    (e : Option (RequestResponseOut RequestId ResponseChannel B)) (new : Option RequestId)
    (r : MachineReaction limit Sync B) : Prop where
  traces : ∀ a id, weigh (inPacket a id) r.sent + traces a id p r.node.behaviour +
    reading a id p e ≤ weigh (inPacket a id) given + traces a id p m.behaviour +
      if p = a ∧ new = some id then 1 else 0
  assigned : ∀ id, Assigned m.behaviour id ∨ new = some id → Assigned r.node.behaviour id
  numbers : m.outboundIds ≤ r.node.outboundIds
  fresh : ∀ id, new = some id → id.number = m.outboundIds ∧ id.number < r.node.outboundIds
  orderly : Orderly m.behaviour → (∀ i x, (p, .response i x) ∈ given →
    Assigned m.behaviour i ∧ Answers i.request x) → Orderly r.node.behaviour
  sent : Orderly m.behaviour → ∀ q i x, (q, .response i x) ∈ r.sent → Answers i.request x

variable {m m' : Machine limit Sync B} {r : MachineReaction limit Sync B}
  {given : List (PeerId × Packet Sync B)}

/-- No request or response is taken or sent. -/
theorem Tracked.quiet (h : Fewer m.behaviour r.node.behaviour)
    (numbers : r.node.outboundIds = m.outboundIds) (idle : ∀ x ∈ r.sent, Idle x) :
    Tracked p m given none none r where
  traces a id := by
    have := h.traces_le a p id
    rw [weigh_idle idle, reading]
    omega
  assigned id hid := h.assigned (hid.resolve_right fun hnew => by cases hnew)
  numbers := numbers.ge
  fresh id hnew := by cases hnew
  orderly ordered _ := h.orderly ordered
  sent _ q i x hx := by cases idle _ hx

theorem pollStep_tracked {calculateHash : Instructions → Hash} {c : PollChoice}
    (sound : Sound m.behaviour) :
    Tracked p m [] (taken c m.phase m.behaviour) none (m.pollStep calculateHash p c) := by
  have hdesk := micro_desk calculateHash c m.phase m.behaviour
  have tracked : ∀ (m' : Machine limit Sync B) (sent : List (PeerId × Packet Sync B))
      (out : List (Output B)), Fewer (after (m.behaviour.micro calculateHash c m.phase)) m'.behaviour →
      m'.outboundIds = m.outboundIds → (∀ x ∈ sent, Idle x) →
      Tracked p m [] (taken c m.phase m.behaviour) none ⟨m', sent, out⟩ := by
    intro m' sent out fewer numbers idle
    refine ⟨fun a id => ?_, fun id hid => ?_, numbers.ge, fun id hnew => (by cases hnew),
      fun ordered _ => fewer.orderly (hdesk.orderly sound ordered), fun _ q i x hx => ?_⟩
    · have hle := hdesk.traces_le a p id sound
      have hless := fewer.traces_le a p id
      show weigh _ sent + traces a id p m'.behaviour + _ ≤ _
      rw [weigh_idle idle]
      omega
    · exact fewer.assigned (hdesk.assigned_mono sound (hid.resolve_right fun hnew => by cases hnew))
    · cases idle _ hx
  unfold Machine.pollStep
  split
  all_goals
    rename_i hmicro
    rw [hmicro] at tracked
  · exact tracked _ _ _ ⟨⟨rfl, rfl, rfl⟩, .refl _⟩ rfl fun x hx => by cases hx
  · exact tracked _ _ _ ⟨⟨rfl, rfl, rfl⟩, .refl _⟩ rfl fun x hx => by cases hx
  · exact tracked _ _ _ ⟨⟨rfl, rfl, rfl⟩, .refl _⟩ rfl fun x hx => by cases hx
  · refine tracked _ _ _ ⟨⟨rfl, rfl, rfl⟩, .refl _⟩ rfl fun x hx => ?_
    obtain rfl := List.mem_singleton.1 hx
    exact .simple _ _ _
  · exact tracked _ _ _ ⟨⟨rfl, rfl, rfl⟩, .refl _⟩ rfl fun x hx => by cases hx

/-- `main` tells the behaviour `e`, or cannot. -/
theorem tell_tracked {e : RequestResponseOut RequestId ResponseChannel B}
    {packets : List (PeerId × Packet Sync B)} (new : Option RequestId)
    (h : m'.tell e packets = some r) (fewer : Fewer m.behaviour m'.behaviour)
    (numbers : m.outboundIds ≤ m'.outboundIds)
    (moves : ∀ a id, weigh (inPacket a id) packets + inEvent a id p e ≤
      weigh (inPacket a id) given + if p = a ∧ new = some id then 1 else 0)
    (response : ∀ i x, e = .response i x → (p, .response i x) ∈ given)
    (fresh : ∀ id, new = some id → id.number = m.outboundIds ∧ id.number < m'.outboundIds ∧
      e = .assignedRequestId id id.request)
    (requests : ∀ q i x, (q, .response i x) ∉ packets) :
    ∃ new, Tracked p m given none new r := by
  have dropped : ∀ main, Tracked p m given none none ⟨{ m' with main := main }, [], []⟩ := by
    intro main
    refine ⟨fun a id => ?_, fun id hid => ?_, numbers, fun id hnew => (by cases hnew),
      fun ordered _ => fewer.orderly ordered, fun _ q i x hx => by cases hx⟩
    · have := fewer.traces_le a p id
      show 0 + traces a id p m'.behaviour + 0 ≤ _
      omega
    · exact fewer.assigned (hid.resolve_right fun hnew => by cases hnew)
  unfold Machine.tell at h
  split at h
  · rename_i c hsend
    obtain ⟨-, -, hqueue, -, -⟩ := Channel.send_eq_ok.1 hsend
    cases h
    refine ⟨new, fun a id => ?_, fun id hid => ?_, numbers, fun id hnew => ?_,
      fun ordered hgiven => ?_, fun _ q i x hx => absurd hx (requests q i x)⟩
    · have hless := fewer.traces_le a p id
      have hmoves := moves a id
      simp only [traces, hqueue, weigh_append, weigh_cons, weigh_nil, reading] at hless ⊢
      omega
    · rcases hid with hid | hnew
      · exact (fewer.assigned hid).imp_right fun hmem =>
          hqueue ▸ List.mem_append_left _ hmem
      · obtain ⟨-, -, rfl⟩ := fresh id hnew
        exact .inr (hqueue ▸ List.mem_append_right _ List.mem_cons_self)
    · exact ⟨(fresh id hnew).1, (fresh id hnew).2.1⟩
    · have ordered' := fewer.orderly ordered
      refine ⟨?_, fun i x hx => ?_, ordered'.answers⟩
      · show Follows _ c.queue
        rw [hqueue]
        refine ordered'.follows.snoc fun i x hx => ?_
        exact (fewer.assigned (hgiven i x (response i x hx)).1).imp_right fun hmem => ⟨_, hmem⟩
      · have hx : RequestResponseOut.response i x ∈ c.queue := hx
        rw [hqueue] at hx
        rcases List.mem_append.1 hx with hx | hx
        · exact ordered'.responses i x hx
        · exact (hgiven i x (response i x (List.mem_singleton.1 hx).symm)).2
  · cases h
    exact ⟨none, dropped .blocked⟩
  · cases h
    exact ⟨none, dropped .ended⟩

/-- What is left of the behaviour when `main` takes a request or response. -/
def withoutRequest (b : NodeBehaviour limit Sync B)
    (rest : Channel limit (RequestResponseIn RequestId ResponseChannel B)) :
    NodeBehaviour limit Sync B :=
  { b with requestResponse := { b.requestResponse with input := rest } }

theorem takeRequest_tracked (h : m.takeRequest p = some r) :
    ∃ new, Tracked p m [] none new r := by
  unfold Machine.takeRequest at h
  split at h
  · rename_i e rest hrecv
    have hqueue := (Channel.recv_eq_item hrecv).1
    have fewer : Fewer m.behaviour (withoutRequest m.behaviour rest) :=
      ⟨⟨rfl, rfl, rfl⟩, hqueue ▸ List.sublist_cons_self _ _⟩
    cases e with
    | makeRequest request location =>
      refine tell_tracked (some ⟨m.outboundIds, request⟩) h fewer (Nat.le_succ _)
        (fun a id => ?_) (fun i x hx => by cases hx) (fun id hid => ?_)
        fun q i x hx => by cases List.mem_singleton.1 hx
      · simp only [weigh_cons, weigh_nil, inPacket, inEvent, Option.some.injEq]
        omega
      · cases hid
        exact ⟨rfl, Nat.lt_succ_self _, rfl⟩
    | respond i channel response =>
      obtain ⟨peer, requestId⟩ := channel
      cases h
      refine ⟨none, fun a id => ?_, fun id hid => ?_, le_rfl, fun id hid => (by cases hid),
        fun ordered _ => ?_, fun ordered q j x hx => ?_⟩
      · simp only [traces, hqueue, weigh_cons, weigh_nil, inPacket, inAnswer, reading,
          ResponseChannel.mk.injEq]
        omega
      · exact fewer.assigned (hid.resolve_right fun h => by cases h)
      · exact fewer.orderly ordered
      · cases List.mem_singleton.1 hx
        exact ordered.answers i _ response (hqueue ▸ List.mem_cons_self)
  · cases h

/-- The machine goes on with the same requests and responses, and sends none. -/
structure Bystander (m : Machine limit Sync B) (r : MachineReaction limit Sync B) : Prop where
  same : Same m.behaviour r.node.behaviour
  input : r.node.behaviour.requestResponse.input = m.behaviour.requestResponse.input
  numbers : r.node.outboundIds = m.outboundIds
  idle : ∀ x ∈ r.sent, Idle x

theorem Bystander.tracked (h : Bystander m r) : Tracked p m given none none r :=
  .quiet ⟨h.same, h.input ▸ .refl _⟩ h.numbers h.idle

theorem tileAct_bystander {add : UInt8 → UInt8 → UInt8} {s : TileStep B}
    {x : Machine limit Sync B × List (TileOut B)} (h : m.tileAct add s = some x) :
    Same m.behaviour x.1.behaviour ∧
      x.1.behaviour.requestResponse.input = m.behaviour.requestResponse.input ∧
      x.1.outboundIds = m.outboundIds := by
  obtain ⟨y, -, rfl⟩ := Option.map_eq_some_iff.1 h
  show Same m.behaviour (ite _ _ _) ∧ (ite _ _ _ : NodeBehaviour limit Sync B).requestResponse.input
    = _ ∧ _
  split <;> exact ⟨⟨rfl, rfl, rfl⟩, rfl, rfl⟩

theorem busStep_bystander {add : UInt8 → UInt8 → UInt8} {s : TileStep B}
    (h : m.busStep add s = some r) : Bystander m r := by
  obtain ⟨x, hx, hr⟩ := Option.bind_eq_some_iff.1 h
  cases hr
  obtain ⟨same, input, numbers⟩ := tileAct_bystander hx
  exact ⟨same, input, numbers, fun y hy => by cases hy⟩

theorem consensusStep_bystander {peers : List PeerId} {eventHash : PeerId → Nat → Hash}
    {c : ConsensusChoice Sync} (h : m.consensusStep peers eventHash p c = some r) :
    Bystander m r := by
  unfold Machine.consensusStep at h
  split at h
  · rename_i e rest _ _
    cases e with
    | generateSyncRequest peer =>
      simp only at h
      split at h <;> cases h <;> exact ⟨⟨rfl, rfl, rfl⟩, rfl, rfl, fun x hx => by cases hx⟩
    | createStandalone =>
      simp only at h
      split at h <;> cases h <;> exact ⟨⟨rfl, rfl, rfl⟩, rfl, rfl, fun x hx => by cases hx⟩
    | scheduleTx tx =>
      cases h
      refine ⟨⟨rfl, rfl, rfl⟩, rfl, rfl, fun x hx => ?_⟩
      obtain ⟨q, -, rfl⟩ := List.mem_map.1 hx
      exact .recognized _ _ _ _
    | knownPeersRequest | applySync =>
      cases h
      exact ⟨⟨rfl, rfl, rfl⟩, rfl, rfl, fun x hx => by cases hx⟩
  · cases h

theorem putOut_bystander {e : Consensus.OutEvent Sync} (h : m.putOut e = some r) :
    Bystander m r := by
  unfold Machine.putOut at h
  split at h
  · cases h
    exact ⟨⟨rfl, rfl, rfl⟩, rfl, rfl, fun x hx => by cases hx⟩
  · cases h

variable {D : Deployment}

/-- The response that the poll of a machine reads when it acts. -/
def readBy (m : Machine limit Sync B) :
    MachineAct Sync B → Option (RequestResponseOut RequestId ResponseChannel B)
  | .poll c => taken c m.phase m.behaviour
  | _ => none

theorem receive_tracked {lost : Bool} {packet : Packet Sync B}
    (h : D.receive p lost m packet = some r) :
    p ∈ D.peers ∧ ∃ new, Tracked p m [(p, packet)] none new r := by
  unfold receive at h
  split at h
  · rename_i hp
    refine ⟨hp, ?_⟩
    split at h
    · cases h
      exact ⟨none, .quiet ⟨.refl _, .refl _⟩ rfl fun x hx => by cases hx⟩
    · cases packet with
      | request requestId origin =>
        simp only at h
        split at h
        · refine tell_tracked none h ⟨⟨rfl, rfl, rfl⟩, .refl _⟩ le_rfl (fun a id => ?_)
            (fun i x hx => by cases hx) (fun id hid => by cases hid) fun q i x hx => by cases hx
          simp only [weigh_cons, weigh_nil, inPacket, inEvent, ResponseChannel.mk.injEq]
          omega
        · cases h
      | response requestId response =>
        simp only at h
        split at h
        · refine tell_tracked none h ⟨.refl _, .refl _⟩ le_rfl (fun a id => ?_) (fun i x hx => ?_)
            (fun id hid => by cases hid) fun q i x hx => by cases hx
          · simp only [weigh_cons, weigh_nil, inPacket, inEvent]
            omega
          · cases hx
            exact List.mem_singleton_self _
        · cases h
      | recognized author tx eventHash => exact ⟨none, (putOut_bystander h).tracked⟩
      | simple origin sync =>
        simp only at h
        split at h
        · cases h
          exact ⟨none, .quiet ⟨⟨rfl, rfl, rfl⟩, .refl _⟩ rfl fun x hx => by cases hx⟩
        · cases h
  · cases h

theorem act_tracked {c : Bool} {s : MachineAct Sync B} (sound : Sound m.behaviour)
    (h : D.act p c m s = some r) :
    p ∈ D.peers ∧ ∃ new, Tracked p m [] (readBy m s) new r := by
  unfold act at h
  split at h
  · rename_i hp
    refine ⟨hp, ?_⟩
    have bystander (hm : Bystander m r) : ∃ new, Tracked p m [] none new r := ⟨none, hm.tracked⟩
    cases s with
    | poll c =>
      simp only [machineAct] at h
      split at h
      · cases h
        exact ⟨none, pollStep_tracked sound⟩
      · cases h
    | takeRequest =>
      simp only [machineAct] at h
      split at h
      · exact takeRequest_tracked h
      · cases h
    | connectionEstablished peer otherEstablished =>
      simp only [machineAct, connectionEstablished] at h
      refine bystander ?_
      split at h
      · split at h <;> cases h <;> exact ⟨⟨rfl, rfl, rfl⟩, rfl, rfl, fun x hx => by cases hx⟩
      · cases h
    | connectionClosed peer remainingEstablished =>
      simp only [machineAct, connectionClosed] at h
      refine bystander ?_
      split at h
      · split at h <;> cases h <;> exact ⟨⟨rfl, rfl, rfl⟩, rfl, rfl, fun x hx => by cases hx⟩
      · cases h
    | discovered | command | readReply =>
      simp only [machineAct] at h
      refine bystander ?_
      split at h
      · cases h
        exact ⟨⟨rfl, rfl, rfl⟩, rfl, rfl, fun x hx => by cases hx⟩
      · cases h
    | shutdown =>
      cases h
      exact bystander ⟨⟨rfl, rfl, rfl⟩, rfl, rfl, fun x hx => by cases hx⟩
    | dataMemory order =>
      simp only [machineAct, Machine.dataMemoryStep] at h
      refine bystander ?_
      split at h
      · obtain ⟨x, hx, rfl⟩ := Option.map_eq_some_iff.1 h
        obtain ⟨same, input, numbers⟩ := tileAct_bystander hx
        exact ⟨⟨same.events, same.pending, same.processed⟩, input, numbers,
          fun y hy => by cases hy⟩
      · cases h
    | startProgram fetchOrder saveOrder =>
      simp only [machineAct, Machine.startProgram] at h
      refine bystander ?_
      split at h
      · obtain ⟨x, hx, hr⟩ := Option.bind_eq_some_iff.1 h
        obtain ⟨same, input, numbers⟩ := tileAct_bystander hx
        cases hr
        exact ⟨⟨same.events, same.pending, same.processed⟩, input, numbers,
          fun y hy => by cases hy⟩
      · cases h
    | finish =>
      simp only [machineAct, Machine.finish] at h
      refine bystander ?_
      obtain ⟨x, hx, hr⟩ := Option.bind_eq_some_iff.1 h
      obtain ⟨same, input, numbers⟩ := tileAct_bystander hx
      split at hr
      · cases hr
        exact ⟨same, input, numbers, fun y hy => by cases hy⟩
      · cases hr
    | read order | push | applyWrite =>
      simp only [machineAct] at h
      refine bystander ?_
      split at h
      · exact busStep_bystander h
      · cases h
    | consensus c => exact bystander (consensusStep_bystander h)
    | finalize author eventHash tx => exact bystander (putOut_bystander h)
    | sendDataMemory | sendInstructions | sendConsensus | report =>
      simp only [machineAct, Machine.sendDataMemory, Machine.sendInstructions,
        Machine.sendConsensus, Machine.report] at h
      refine bystander ?_
      split at h
      · split at h <;> cases h
        exact ⟨⟨rfl, rfl, rfl⟩, rfl, rfl, fun x hx => by cases hx⟩
      · cases h
    | instructions | receiveProgram | setReady =>
      simp only [machineAct, Machine.instructionsStep, Machine.receiveProgram,
        Machine.setReady] at h
      refine bystander ?_
      split at h <;> cases h
      exact ⟨⟨rfl, rfl, rfl⟩, rfl, rfl, fun x hx => by cases hx⟩
  · cases h

/-! ## Runs -/

section Runs

variable {bs : List (Action Sync B)} {t t' : State limit Sync B}

/-- How often the id of machine `a` is in the network. -/
def total (D : Deployment) (a : PeerId) (id : RequestId) (t : State limit Sync B) : Nat :=
  tokens (inPacket a id) (fun p m => traces a id p m.behaviour) D.peers.toFinset t

/-- Machine `a` reads a response under the id in this step. -/
def reads (a : PeerId) (id : RequestId) (t : State limit Sync B) : Action Sync B → Nat
  | .act p _ s => reading a id p (readBy (t.nodes p) s)
  | .deliver _ _ => 0

/-- Every id that has been given out is at one place, or its response has been read. -/
structure Correlated (D : Deployment) (bs : List (Action Sync B)) (t : State limit Sync B) :
    Prop where
  run : D.Run bs t
  inv : ∀ p, Inv (t.nodes p)
  orderly : ∀ p, Orderly (t.nodes p).behaviour
  packets : ∀ q i x, (q, .response i x) ∈ t.pool → Answers i.request x
  once : ∀ a id, countAlong D.step (reads a id) (D.init : State limit Sync B) bs +
    D.total a id t ≤
      if id.number < (t.nodes a).outboundIds then 1 else 0
  assigned : ∀ a id, 0 < D.total a id t → Assigned (t.nodes a).behaviour id

/-- The response on its way is under an id that its machine has been told of. -/
theorem Correlated.expects (h : Correlated D bs t) {i : RequestId} {x : Response B}
    (hmem : (p, .response i x) ∈ t.pool) :
    Assigned (t.nodes p).behaviour i ∧ Answers i.request x := by
  refine ⟨h.assigned p i ?_, h.packets p i x hmem⟩
  have hle := Actors.le_weigh (w := inPacket p i) hmem
  rw [inPacket, if_pos ⟨rfl, rfl⟩] at hle
  exact Nat.lt_of_lt_of_le Nat.zero_lt_one (hle.trans (Nat.le_add_right _ _))

theorem Correlated.react {pool given : List (PeerId × Packet Sync B)} {new : Option RequestId}
    {b : Action Sync B} {r : MachineReaction limit Sync B} (h : Correlated D bs t)
    (hp : p ∈ D.peers)
    (hpool : ∀ a id, weigh (inPacket a id) pool + weigh (inPacket a id) given =
      weigh (inPacket a id) t.pool)
    (hsub : ∀ y ∈ pool, y ∈ t.pool) (hgiven : ∀ y ∈ given, y ∈ t.pool)
    (hr : Tracked p (t.nodes p) given e new r) (inv : Inv r.node)
    (hstep : D.step t b = some (t.react p pool r))
    (hreads : ∀ a id, reads a id t b = reading a id p e) :
    Correlated D (bs ++ [b]) (t.react p pool r) := by
  have htotal : ∀ a id, D.total a id (t.react p pool r) + reading a id p e ≤
      D.total a id t + if p = a ∧ new = some id then 1 else 0 := fun a id =>
    tokens_react (List.mem_toFinset.2 hp) (hpool a id) (hr.traces a id)
  have ordered := hr.orderly (h.orderly p) fun i x hx => h.expects (hgiven _ hx)
  refine ⟨h.run.snoc hstep, fun q => ?_, fun q => ?_, fun q i x hx => ?_, fun a id => ?_,
    fun a id hpos => ?_⟩
  · rw [Actors.react_nodes]
    split
    · exact inv
    · exact h.inv q
  · rw [Actors.react_nodes]
    split
    · exact ordered
    · exact h.orderly q
  · rcases List.mem_append.1 hx with hx | hx
    · exact h.packets q i x (hsub _ hx)
    · exact hr.sent (h.orderly p) q i x hx
  · have honce := h.once a id
    have hafter := htotal a id
    rw [h.run.countAlong_snoc, hreads, Actors.react_nodes]
    by_cases hnew : p = a ∧ new = some id
    · obtain ⟨rfl, hid⟩ := hnew
      obtain ⟨hnumber, hlt⟩ := hr.fresh id hid
      rw [if_neg (by omega)] at honce
      rw [if_pos ⟨rfl, hid⟩] at hafter
      rw [if_pos rfl, if_pos hlt]
      omega
    · rw [if_neg hnew] at hafter
      by_cases ha : a = p
      · subst ha
        have hnumbers := hr.numbers
        rw [if_pos rfl]
        split
        · split at honce <;> omega
        · rw [if_neg (by omega)] at honce
          omega
      · rw [if_neg ha]
        omega
  · have hafter := htotal a id
    rw [Actors.react_nodes]
    by_cases ha : a = p
    · subst ha
      rw [if_pos rfl]
      refine hr.assigned id ?_
      by_cases hnew : new = some id
      · exact .inr hnew
      · rw [if_neg fun hid => hnew hid.2] at hafter
        exact .inl (h.assigned a id (by omega))
    · rw [if_neg ha]
      rw [if_neg fun hid => ha hid.1.symm] at hafter
      exact h.assigned a id (by omega)

theorem Correlated.step {b : Action Sync B} (h : Correlated D bs t) (hs : D.step t b = some t') :
    Correlated D (bs ++ [b]) t' := by
  cases Actors.step_moves hs with
  | @delivered i c p packet r pending reaction =>
    obtain ⟨hp, new, hr⟩ := receive_tracked reaction
    have inv := (receive_matched (h.inv p) reaction).2.inv
    refine h.react hp (fun a id => ?_) (fun y hy => List.mem_of_mem_eraseIdx hy) (fun y hy => ?_)
      hr inv hs fun a id => rfl
    · rw [weigh_cons, weigh_nil, Nat.add_zero, Nat.add_comm]
      exact Actors.weigh_eraseIdx pending
    · obtain rfl := List.mem_singleton.1 hy
      exact List.mem_of_getElem? pending
  | @acted p c s r reaction =>
    obtain ⟨hp, new, hr⟩ := act_tracked (c := c) (h.inv p).sound reaction
    have inv := (act_matched (c := c) (h.inv p) reaction).2.inv
    exact h.react hp (fun a id => rfl) (fun y hy => hy) (fun y hy => by cases hy) hr inv hs
      fun a id => rfl

theorem correlated_run (run : D.Run bs t) : Correlated D bs t := by
  refine Trace.invariant (I := fun bs (t : State limit Sync B) => Correlated D bs t) ?_
    (fun _ _ _ _ h hs => h.step hs) run
  have hnone : ∀ a id, D.total a id (D.init : State limit Sync B) = 0 := by
    intro a id
    show 0 + ∑ p ∈ D.peers.toFinset, 0 = 0
    rw [Finset.sum_const_zero, Nat.zero_add]
  refine ⟨.nil _, init_inv, fun p => ?_, fun q i x hx => (by cases hx), fun a id => ?_,
    fun a id hpos => ?_⟩
  · exact ⟨trivial, fun i x hx => (by cases hx), fun i c x hx => by cases hx⟩
  · rw [hnone]
    exact Nat.zero_le _
  · rw [hnone] at hpos
    exact absurd hpos (Nat.lt_irrefl 0)

/-- **Responses are expected**: in every run, a behaviour reads at most one response under an id,
and when it is about to read one, it knows the request of the id, and the response is of its
kind: the data memory is told. -/
theorem responses_expected (run : D.Run bs t) (a : PeerId) (id : RequestId) :
    countAlong D.step (reads a id) (D.init : State limit Sync B) bs ≤ 1 ∧
    ∀ response rest, (t.nodes a).behaviour.requestResponse.output.queue =
        .response id response :: rest →
      (t.nodes a).behaviour.pendingResponse.lookup id = some id.request ∧
        ∃ e, handleResponse id.request response = [.dataMemory e] := by
  have h := correlated_run run
  refine ⟨?_, fun response rest hqueue => ?_⟩
  · have honce := h.once a id
    split at honce <;> omega
  · have follows := (h.orderly a).follows
    have hanswers := (h.orderly a).responses id response (hqueue ▸ List.mem_cons_self)
    rw [hqueue] at follows
    exact ⟨follows.1, hanswers⟩

end Runs

/-! ## A sample request -/

open InitializedDataMemory (samplePeer)

def samplePolls (i : UInt8) (n : Nat) : List (Action Unit 4) :=
  List.replicate n (.act (samplePeer i) false samplePoll)

/-- Peer 1 asks peer 0 for its shard of the sample put, is answered, and has its request's id read. -/
def sampleResponse : List (Action Unit 4) :=
  samplePut ++ .deliver 1 false :: .act (samplePeer 1) false .sendConsensus :: samplePolls 1 11 ++
    .act (samplePeer 1) false (.dataMemory default) :: .act (samplePeer 1) false .sendDataMemory ::
    samplePolls 1 11 ++ .act (samplePeer 1) false .takeRequest :: samplePolls 0 4 ++
    .deliver 2 false :: samplePolls 0 11 ++
    .act (samplePeer 0) false (.dataMemory default) :: .act (samplePeer 0) false .sendDataMemory ::
    samplePolls 0 11 ++ .act (samplePeer 0) false .takeRequest :: .deliver 2 false ::
    samplePolls 1 10

theorem responses_expected_put : ∃ t : State 2 Unit 4,
    runAll sample.step sample.init sampleResponse = some t ∧
      ∃ id response, (t.nodes (samplePeer 1)).behaviour.requestResponse.output.queue =
          [.response id response] ∧
        (t.nodes (samplePeer 1)).behaviour.pendingResponse.lookup id = some id.request ∧
          ∃ e, handleResponse id.request response = [.dataMemory e] := by
  obtain ⟨t, run, id, response, hqueue⟩ : ∃ t : State 2 Unit 4,
      runAll sample.step sample.init sampleResponse = some t ∧
        ∃ id response, (t.nodes (samplePeer 1)).behaviour.requestResponse.output.queue =
          [.response id response] := ⟨_, rfl, _, _, rfl⟩
  exact ⟨t, run, id, response, hqueue,
    (responses_expected (Trace.of_runAll run) (samplePeer 1) id).2 response [] hqueue⟩

end Deployment

end Swarm.Network
