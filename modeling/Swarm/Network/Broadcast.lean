import Mathlib.Data.Multiset.Bind
import Swarm.Consensus.Run
import Swarm.Network.System

/-!
# Consensus as a broadcast

The network sends a scheduled transaction to every peer. In the program it goes
through the loops of consensus: into an event of its author, by the hashgraph to
the graphs of the other peers, and out of their streams. `scheduled_broadcast`:
what the loop of a peer puts out is what the network sends it, for all that is
not lost by a call that fails.
-/

namespace Swarm.Network

open Swarm.Consensus

variable {G Job : Type} {B : Nat}

/-- The consensus of one peer after a run of its loop. -/
structure Member (G Job : Type) where
  crate : RunCrate G Job
  appends : crate.Appends
  start : GraphWrapper G
  /-- It has been made of a graph, with random peers. -/
  fresh : ∃ inner peer peer', start = .fromGraph inner peer peer'
  wakes : List (Wake Job)
  state : GraphWrapper G
  out : List (Ran Job)
  run : Turn.loop crate.run start wakes = .next state out

namespace Member

variable (m : Member G Job)

/-- What a new wrapper says about an event. -/
def told (e : Event) : Multiset NextTxData := ↑(yielded (Hash.fromArray fun _ => 0) e)

/-- What has been put out as recognised. -/
def recognized : Multiset NextTxData := ↑(returned .recognized (m.out.filterMap Ran.transaction))

/-- What is still to be put out. -/
def waiting : Multiset NextTxData := ↑(m.state.waiting .recognized)

/-- The recognised events that the graph has had ready. -/
def events : Multiset Event :=
  ↑(m.start.ready .recognized ++ m.crate.readied .recognized m.start m.wakes)

/-- The payloads of the own events. -/
def created : Multiset EventPayload := ↑(m.out.filterMap Ran.payload)

def scheduled : Multiset Transaction := ↑(pushed (m.wakes.filterMap Wake.call))

/-- Scheduled transactions that are in no event: a call lost them, or they are in the buffer. -/
def unsent : Multiset Transaction :=
  ↑(m.crate.lost m.start m.wakes ++ m.state.includedTransactionBuffer)

/-- No call fails after it took transactions from the buffer. -/
def Keeps : Prop := ∀ us w vs t out c, m.wakes = us ++ w :: vs →
  Turn.loop m.crate.run m.start us = .next t out → w.call = some c →
    m.crate.FailsAfterTake t c → t.includedTransactionBuffer = []

theorem recognized_add_waiting : m.recognized + m.waiting = m.events.bind told := by
  obtain ⟨inner, peer, peer', hstart⟩ := m.fresh
  have hloop := RunCrate.loop_waiting m.appends m.run .recognized
  have hhash : (m.start.buffer .recognized).hash = Hash.fromArray fun _ => 0 := by
    rw [hstart]
    rfl
  have hwaiting : m.start.waiting .recognized =
      (m.start.ready .recognized).flatMap (yielded (Hash.fromArray fun _ => 0)) := by
    rw [hstart]
    rfl
  rw [hwaiting, hhash, ← List.flatMap_append] at hloop
  rw [recognized, waiting, Multiset.coe_add]
  exact (congrArg _ hloop).trans (Multiset.coe_bind _ _).symm

theorem created_add_unsent :
    m.created.bind (fun payload => ↑payload.transactions) + m.unsent = m.scheduled := by
  obtain ⟨inner, peer, peer', hstart⟩ := m.fresh
  have htaken := RunCrate.loop_taken m.run
  have hbuffer : m.start.includedTransactionBuffer = [] := by
    rw [hstart]
    rfl
  rw [hbuffer, List.nil_append, Ran.flatMap_included] at htaken
  have hcreated : m.created.bind (fun payload => (payload.transactions : Multiset Transaction)) =
      ↑((m.out.filterMap Ran.payload).flatMap EventPayload.transactions) :=
    Multiset.coe_bind _ _
  rw [hcreated, unsent, Multiset.coe_add]
  exact Multiset.coe_eq_coe.2 htaken

theorem unsent_eq (keeps : m.Keeps) : m.unsent = ↑m.state.includedTransactionBuffer := by
  rw [unsent, RunCrate.lost_eq_nil m.run keeps, List.nil_append]

end Member

/-- What the hashgraph does with events: those of a peer are its first event, which has no
transactions, and the ones it created; a graph has each at most once. -/
structure Gossip (peers : List PeerId) (member : PeerId → Member G Job) (events : Multiset Event) :
    Prop where
  authored : ∀ e ∈ events, e.author ∈ peers
  created : ∀ q ∈ peers,
    (events.filter (·.author = q)).map Event.payload = ⟨[]⟩ ::ₘ (member q).created
  ready : ∀ p ∈ peers, (member p).events ≤ events

/-- The message of a transaction that is put out at peer `p`. -/
def message (p : PeerId) (d : NextTxData) : PeerId × Message B := (p, .recognized d.1 d.2.1 d.2.2)

/-- What the stream of peer `p` says about the events of peer `q`, as messages. -/
def delivered (member : PeerId → Member G Job) (p q : PeerId) : Multiset (PeerId × Message B) :=
  ((member p).recognized.filter (·.1 = q)).map (message p)

/-- What the network sends to peer `p` when `q` schedules transactions. -/
def dispatched (S : Setup) (p q : PeerId) (sent : List (Choice × Transaction)) :
    Multiset (PeerId × Message B) :=
  Multiset.ofList ((sent.flatMap fun s => S.dispatch q s.1 (.scheduleTx s.2)).filter (·.1 = p))

section Told

variable {q : PeerId}

theorem author_of_told {e : Event} {d : NextTxData} (hd : d ∈ Member.told e) : d.1 = e.author := by
  rw [Member.told, Multiset.mem_coe, yielded] at hd
  split at hd
  · cases hd
  · rcases List.mem_cons.1 hd with rfl | hd
    · rfl
    · obtain ⟨tx, -, rfl⟩ := List.mem_map.1 hd
      rfl

theorem filter_told (e : Event) :
    (Member.told e).filter (·.1 = q) = if e.author = q then Member.told e else 0 := by
  split
  · rename_i h
    exact Multiset.filter_eq_self.2 fun d hd => (author_of_told hd).trans h
  · rename_i h
    exact Multiset.filter_eq_nil.2 fun d hd hq => h ((author_of_told hd).symm.trans hq)

theorem filter_bind_told (events : Multiset Event) :
    (events.bind Member.told).filter (·.1 = q) =
      (events.filter (·.author = q)).bind Member.told := by
  rw [Multiset.filter_bind, Multiset.bind_filter]
  exact Multiset.bind_congr fun e _ => filter_told e

theorem map_told (e : Event) :
    (Member.told e).map (·.2.1) = (e.payload.transactions : Multiset Transaction) := by
  rw [Member.told, yielded]
  cases e.payload.transactions with
  | nil => rfl
  | cons tx txs =>
    rw [Multiset.map_coe, List.map_cons, List.map_map]
    exact congrArg _ (congrArg _ (List.map_id txs))

end Told

/-- A scheduled transaction, with the hash it is put out with. -/
def sending (d : NextTxData) : Choice × Transaction :=
  ({ (default : Choice) with eventHash := d.2.2 }, d.2.1)

theorem filter_dispatch {S : Setup} (nodup : S.peers.Nodup) {p q : PeerId} (hp : p ∈ S.peers)
    {d : NextTxData} (hd : d.1 = q) :
    (S.dispatch (B := B) q (sending d).1 (.scheduleTx (sending d).2)).filter (·.1 = p) =
      [message p d] := by
  have hone : S.peers.filter (· = p) = [p] := by
    rw [List.filter_eq, List.count_eq_one_of_mem nodup hp]
    rfl
  show (S.peers.map (·, Message.recognized q d.2.1 d.2.2)).filter (·.1 = p) = [message p d]
  rw [List.filter_map, ← hd]
  exact congrArg (List.map _) hone

theorem dispatched_sending {S : Setup} (nodup : S.peers.Nodup) {p q : PeerId} (hp : p ∈ S.peers)
    {ds : List NextTxData} (hds : ∀ d ∈ ds, d.1 = q) :
    dispatched (B := B) S p q (ds.map sending) = (ds : Multiset NextTxData).map (message p) := by
  rw [dispatched]
  refine congrArg _ ?_
  induction ds with
  | nil => rfl
  | cons d ds ih =>
    rw [List.forall_mem_cons] at hds
    rw [List.map_cons, List.flatMap_cons, List.filter_append, filter_dispatch nodup hp hds.1,
      ih hds.2]
    rfl

/-- **Consensus is the network's broadcast**: what is put out is of the peers. For every peer there
are hashes for the transactions it scheduled, save for those that are unsent, such that every peer
has been told at most what the network sends it when they are scheduled with these hashes; and just
that once all events with transactions have reached it and nothing waits there to be put out. If no
call of the peer fails after it took transactions, the unsent ones are those in its buffer. -/
theorem scheduled_broadcast {S : Setup} {member : PeerId → Member G Job} {events : Multiset Event}
    (nodup : S.peers.Nodup) (gossip : Gossip S.peers member events) :
    (∀ p ∈ S.peers, ∀ d ∈ (member p).recognized, d.1 ∈ S.peers) ∧
    ∀ q ∈ S.peers, ∃ sent : List (Choice × Transaction),
      ↑(sent.map Prod.snd) + (member q).unsent = (member q).scheduled ∧
      ((member q).Keeps → (member q).unsent = ↑(member q).state.includedTransactionBuffer) ∧
      ∀ p ∈ S.peers, delivered (B := B) member p q ≤ dispatched S p q sent ∧
        ((∀ e ∈ events - (member p).events, e.payload.transactions = []) →
          (member p).waiting = 0 → delivered (B := B) member p q = dispatched S p q sent) := by
  refine ⟨fun p hp d hd => ?_, fun q hq => ?_⟩
  · have htold : d ∈ (member p).events.bind Member.told := by
      rw [← Member.recognized_add_waiting]
      exact Multiset.mem_add.2 (.inl hd)
    obtain ⟨e, he, hde⟩ := Multiset.mem_bind.1 htold
    rw [author_of_told hde]
    exact gossip.authored e (Multiset.mem_of_le (gossip.ready p hp) he)
  obtain ⟨ds, hds⟩ : ∃ ds : List NextTxData,
      (ds : Multiset NextTxData) = (events.filter (·.author = q)).bind Member.told :=
    ⟨_, Multiset.coe_toList _⟩
  have hauthor : ∀ d ∈ ds, d.1 = q := by
    intro d hd
    rw [← Multiset.mem_coe, hds, ← filter_bind_told] at hd
    exact (Multiset.mem_filter.1 hd).2
  refine ⟨ds.map sending, ?_, (member q).unsent_eq, fun p hp => ?_⟩
  · rw [← (member q).created_add_unsent]
    refine congrArg (· + (member q).unsent) ?_
    calc ((ds.map sending).map Prod.snd : Multiset Transaction)
        _ = (ds : Multiset NextTxData).map (·.2.1) := by
          rw [List.map_map]
          rfl
        _ = (events.filter (·.author = q)).bind
            fun e => (e.payload.transactions : Multiset Transaction) := by
          rw [hds, Multiset.map_bind]
          exact Multiset.bind_congr fun e _ => map_told e
        _ = ((events.filter (·.author = q)).map Event.payload).bind
            fun payload => (payload.transactions : Multiset Transaction) := by
          rw [Multiset.bind_map]
        _ = (member q).created.bind fun payload => ↑payload.transactions := by
          rw [gossip.created q hq, Multiset.cons_bind]
          exact zero_add _
  · obtain ⟨rest, hrest⟩ := Multiset.le_iff_exists_add.1 (gossip.ready p hp)
    -- put out, waiting at `p`, or of events that have not reached `p`
    have hsplit : (ds : Multiset NextTxData) = (member p).recognized.filter (·.1 = q) +
        ((member p).waiting.filter (·.1 = q) + (rest.bind Member.told).filter (·.1 = q)) := by
      rw [hds, ← filter_bind_told, hrest, Multiset.add_bind, ← Member.recognized_add_waiting,
        Multiset.filter_add, Multiset.filter_add, add_assoc]
    rw [dispatched_sending nodup hp hauthor, hsplit, Multiset.map_add]
    refine ⟨Multiset.le_add_right _ _, fun harrived hwaiting => ?_⟩
    rw [hrest, add_tsub_cancel_left] at harrived
    have hnone : rest.bind Member.told = 0 := by
      rw [← Multiset.bind_zero rest]
      refine Multiset.bind_congr fun e he => ?_
      rw [Member.told, yielded, harrived e he]
      rfl
    rw [hwaiting, hnone]
    exact (add_zero _).symm

open DataMemory.InitializedDataMemory (samplePeer)

/-- The graph of a peer that knows itself. -/
def memberCrate (p : PeerId) : RunCrate Unit Unit where
  selfId _ := p
  peerLatestEvent _ peer := if peer = p then some ⟨fun _ => 0⟩ else none
  pushEvent inner _ := (.ok (), inner)
  createEvent inner _ _ := (.ok (), inner)
  generateSyncFor _ _ := .ok []
  peers _ := [p]

theorem memberCrate_appends (p : PeerId) : (memberCrate p).Appends :=
  ⟨fun inner _ => .refl inner, fun inner _ _ => .refl inner⟩

/-- The event of peer 0. -/
def requestEvent : Event := ⟨samplePeer 0, ⟨fun _ => 1⟩, ⟨[.storageRequest ⟨0⟩]⟩⟩

/-- Peer 0 schedules a transaction and creates the event. -/
def authorMember : Member Unit Unit where
  crate := memberCrate (samplePeer 0)
  appends := memberCrate_appends _
  start := sampleWrapper
  fresh := ⟨_, _, _, rfl⟩
  wakes := [.input (.scheduleTx (.storageRequest ⟨0⟩)), .input .createStandalone,
    .arrive .recognized requestEvent, .next]
  state := _
  out := _
  run := rfl

/-- The others hear of it. -/
def listenerMember (p : PeerId) : Member Unit Unit where
  crate := memberCrate p
  appends := memberCrate_appends p
  start := sampleWrapper
  fresh := ⟨_, _, _, rfl⟩
  wakes := [.arrive .recognized requestEvent, .next]
  state := _
  out := _
  run := rfl

def sampleMember (p : PeerId) : Member Unit Unit :=
  if p = samplePeer 0 then authorMember else listenerMember p

/-- The first events of the peers and the one that peer 0 created. -/
def sampleEvents : Multiset Event :=
  ↑(requestEvent :: Setup.sample.peers.map fun p => ⟨p, ⟨fun _ => 0⟩, ⟨[]⟩⟩)

theorem sampleGossip : Gossip Setup.sample.peers sampleMember sampleEvents where
  authored := by decide
  created := by decide
  ready := by decide

theorem scheduled_broadcast_sample : ∃ sent : List (Choice × Transaction),
    ↑(sent.map Prod.snd) + (sampleMember (samplePeer 0)).unsent =
      (sampleMember (samplePeer 0)).scheduled ∧
    ∀ p ∈ Setup.sample.peers, delivered (B := 4) sampleMember p (samplePeer 0) =
      dispatched Setup.sample p (samplePeer 0) sent := by
  obtain ⟨sent, hsent, -, htold⟩ :=
    (scheduled_broadcast (B := 4) (S := Setup.sample) (by decide) sampleGossip).2 (samplePeer 0)
      (by decide)
  have harrived : ∀ p ∈ Setup.sample.peers, (∀ e ∈ sampleEvents - (sampleMember p).events,
      e.payload.transactions = []) ∧ (sampleMember p).waiting = 0 := by decide
  refine ⟨sent, hsent, fun p hp => ?_⟩
  exact (htold p hp).2 (harrived p hp).1 (harrived p hp).2

end Swarm.Network
