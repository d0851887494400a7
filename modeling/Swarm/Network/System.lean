import Swarm.Behaviour.Handlers
import Swarm.DataMemory.Loop
import Swarm.Lib.Actors
import Swarm.Node.Tile

/-!
# The network of nodes

A node is its data memory and processor, its instruction memory and the
requests its behaviour has yet to answer. Module queues, requests and responses
are messages in flight, delivered in any order. Queues have room for everything,
nothing is lost and no node stops: `deployment_refines` says what bounded queues
change. A scheduled transaction is recognised once at every node, at any time:
`scheduled_broadcast` derives this from the loops of consensus. Runs start when
the storage of every node has been initialised with one distribution.
-/

namespace Swarm.Network

open Swarm.DataMemory Swarm.Processor Swarm.Consensus Swarm.Encoding Swarm.Node
open Swarm.Behaviour (Request Response ProcessedRequests Send)
open Swarm.InstructionStorage (InstructionMemory)

variable {B : Nat}

structure Node (B : Nat) where
  tile : Tile B
  instructionMemory : InstructionMemory
  processedRequests : ProcessedRequests

/-- A message on its way to a node or inside one. -/
inductive Message (B : Nat) where
  | memoryIn (e : DataMemory.InEvent B)
  | memoryOut (e : DataMemory.OutEvent B)
  | instructionIn (e : InstructionStorage.InEvent)
  | instructionOut (e : InstructionStorage.OutEvent)
  | processorIn (program : Program)
  | processorOut (programId : ProgramIdentifier) (results : List (Except Processor.Error Vid))
  | recognized (author : PeerId) (tx : Transaction) (eventHash : Hash)
  | knownPeers (peers : List PeerId)
  | request (origin : PeerId) (request : Request)
  | response (request : Request) (response : Response B)

/-- An event emitted by a module of a node. -/
inductive Output (B : Nat) where
  | memory (e : DataMemory.OutEvent B)
  | instruction (e : InstructionStorage.OutEvent)
  | processor (programId : ProgramIdentifier) (results : List (Except Processor.Error Vid))
  | user (e : Behaviour.OutEvent B)
  deriving DecidableEq

/-- What a node does on its own: the user's requests and the exchanges on its memory bus. -/
inductive Act (B : Nat) where
  | user (e : Behaviour.InEvent B)
  | read (order : HashOrder)
  | push
  | applyWrite
  | finish

/-- What the code leaves open: iteration orders, the event a scheduled transaction is included
in, the peers known when storage is initialised. -/
structure Choice where
  order : HashOrder
  vids : KeyOrder Vid
  fetchOrder : KeyOrder Vid
  saveOrder : KeyOrder Vid
  eventHash : Hash
  peers : List PeerId
  deriving Inhabited

/-- The network: its peers, the code's external functions and the common settings. -/
structure Setup where
  peers : List PeerId
  add : UInt8 → UInt8 → UInt8
  calculateHash : Instructions → Hash
  encoding : ReedSolomonWrapper
  distribution : HashMap PeerId Sid
  executionConfirmationsThreshold : Nat

abbrev NodeReaction (B : Nat) := Reaction PeerId (Node B) (Message B) (Output B)

namespace Setup

variable (S : Setup)

/-- The messages that leave the behaviour of node `self`. -/
def dispatch (self : PeerId) (c : Choice) : Send B → List (PeerId × Message B)
  | .dataMemory e => [(self, .memoryIn e)]
  | .instructionMemory e => [(self, .instructionIn e)]
  | .processor program => [(self, .processorIn program)]
  | .scheduleTx tx => S.peers.map (·, .recognized self tx c.eventHash)
  | .knownPeersRequest => [(self, .knownPeers c.peers)]
  | .makeRequest request location => [(location, .request self request)]
  | .respond origin request response => [(origin, .response request response)]
  | .user _ => []

def told : Send B → Option (Output B)
  | .user e => some (.user e)
  | _ => none

/-- The behaviour goes on with what is left to answer and makes its sends: none is refused here,
so the node never gives up. -/
def behave (self : PeerId) (c : Choice) (node : Node B)
    (r : ProcessedRequests × List (Send B)) : NodeReaction B :=
  ⟨{ node with processedRequests := r.1 }, r.2.flatMap (S.dispatch self c), r.2.filterMap told⟩

def emit (self : PeerId) : TileOut B → PeerId × Message B
  | .memory e => (self, .memoryOut e)
  | .finishedExecution programId results => (self, .processorOut programId results)

def emitted : TileOut B → Output B
  | .memory e => .memory e
  | .finishedExecution programId results => .processor programId results

/-- A step of the data memory and the processor of node `self`. -/
def tileStep (self : PeerId) (node : Node B) (a : TileStep B) : Option (NodeReaction B) :=
  (node.tile.step S.add a).map fun r =>
    ⟨{ node with tile := r.1 }, r.2.map (emit self), r.2.map emitted⟩

/-- An event of the instruction memory of node `self`. -/
def instructionStep (self : PeerId) (c : Choice) (node : Node B) (e : InstructionStorage.InEvent) :
    NodeReaction B :=
  let r := node.instructionMemory.handle c.vids e
  ⟨{ node with instructionMemory := r.1 }, r.2.map fun o => (self, .instructionOut o),
    r.2.map .instruction⟩

/-- The reaction of node `self` to a message. The instruction memory is polled only while the
processor accepts input. -/
def receive (self : PeerId) (c : Choice) (node : Node B) :
    Message B → Option (NodeReaction B)
  | .memoryIn e => S.tileStep self node (.handle c.order e)
  | .memoryOut e =>
    some (S.behave self c node (Behaviour.handleDataMemory node.processedRequests e))
  | .instructionIn e => some (instructionStep self c node e)
  | .instructionOut e =>
    match node.tile.processor with
    | .ready =>
      some (S.behave self c node (node.processedRequests, Behaviour.handleInstructionMemory e))
    | .executing _ _ => none
  | .processorIn program => S.tileStep self node (.start c.fetchOrder c.saveOrder program)
  | .processorOut programId _ =>
    some (S.behave self c node (node.processedRequests, Behaviour.handleProcessor programId))
  | .recognized author tx eventHash =>
    some (S.behave self c node
      (node.processedRequests, Behaviour.handleTx S.calculateHash author eventHash tx))
  | .knownPeers peers =>
    some (S.behave self c node (node.processedRequests, Behaviour.handleKnownPeers peers))
  | .request origin request =>
    some (S.behave self c node
      (Behaviour.handleIncomingRequest node.processedRequests origin request))
  | .response request response =>
    some (S.behave self c node
      (node.processedRequests, Behaviour.handleResponse request response))

def act (self : PeerId) (c : Choice) (node : Node B) (a : Act B) : Option (NodeReaction B) :=
  if self ∈ S.peers then
    match a with
    | .user e => some (S.behave self c node (node.processedRequests, Behaviour.handleUser e))
    | .read order => S.tileStep self node (.read order)
    | .push => S.tileStep self node .push
    | .applyWrite => S.tileStep self node .applyWrite
    | .finish => S.tileStep self node .finish
  else none

/-- The nodes' code. -/
def actors : Actors PeerId (Node B) (Message B) (Output B) Choice (Act B) where
  receive := S.receive
  act := S.act

abbrev State (B : Nat) := Actors.Config PeerId (Node B) (Message B) (Output B)

abbrev Action (B : Nat) := Actors.Action PeerId Choice (Act B)

/-- A node whose storage has just been initialised. -/
def initialNode (p : PeerId) : Node B where
  tile := ⟨UninitializedDataMemory.initializeWith ⟨S.encoding, p⟩ S.distribution, true, .ready, []⟩
  instructionMemory := .new S.executionConfirmationsThreshold
  processedRequests := ∅

def init : State B := ⟨S.initialNode, [], []⟩

def step : State B → Action B → Option (State B) := S.actors.step

/-- A run from the initialised network. -/
abbrev Run (as : List (Action B)) (s : State B) : Prop := Trace S.step S.init as s

/-- The programs that are scheduled in a run. -/
def scheduled (as : List (Action B)) : Set Instructions :=
  {program | ∃ p c, .act p c (.user (.scheduleProgram program)) ∈ as}

/-! ## Reactions -/

section Reactions

variable {S} {p : PeerId} {c : Choice} {node : Node B} {r : NodeReaction B}

theorem tileStep_moves {a : TileStep B} (h : S.tileStep p node a = some r) :
    ∃ t out, node.tile.Moves S.add a t out ∧
      r = ⟨{ node with tile := t }, out.map (emit p), out.map emitted⟩ := by
  obtain ⟨⟨t, out⟩, ht, rfl⟩ := Option.map_eq_some_iff.1 h
  exact ⟨t, out, Tile.step_moves ht, rfl⟩

/-- The behaviour does not touch the modules. -/
@[simp] theorem behave_tile (x : ProcessedRequests × List (Send B)) :
    (S.behave p c node x).node.tile = node.tile := rfl

@[simp] theorem behave_instructionMemory (x : ProcessedRequests × List (Send B)) :
    (S.behave p c node x).node.instructionMemory = node.instructionMemory := rfl

@[simp] theorem behave_processedRequests (x : ProcessedRequests × List (Send B)) :
    (S.behave p c node x).node.processedRequests = x.1 := rfl

theorem behave_sent (x : ProcessedRequests × List (Send B)) :
    (S.behave p c node x).sent = x.2.flatMap (S.dispatch p c) := rfl

theorem behave_outputs (x : ProcessedRequests × List (Send B)) :
    (S.behave p c node x).outputs = x.2.filterMap told := rfl

/-- Only events for the user are logged by the behaviour. -/
theorem mem_behave_outputs {x : ProcessedRequests × List (Send B)} {o : Output B}
    (h : o ∈ (S.behave p c node x).outputs) : ∃ e, o = .user e := by
  rw [behave_outputs, List.mem_filterMap] at h
  obtain ⟨a, -, ha⟩ := h
  cases a with
  | user e => cases ha; exact ⟨e, rfl⟩
  | _ => cases ha

variable {N : PeerId → Node B → Prop} {M : PeerId → Message B → Prop} {O : PeerId → Output B → Prop}

theorem keeps_behave {x : ProcessedRequests × List (Send B)}
    (hnode : N p { node with processedRequests := x.1 })
    (hsend : ∀ a ∈ x.2, ∀ q m, (q, m) ∈ S.dispatch p c a → M q m) (hout : ∀ e, O p (.user e)) :
    Actors.Keeps N M O p (S.behave p c node x) where
  node := hnode
  sent q m hm := by
    rw [behave_sent, List.mem_flatMap] at hm
    obtain ⟨a, ha, hqm⟩ := hm
    exact hsend a ha q m hqm
  outputs o ho := by
    obtain ⟨e, rfl⟩ := mem_behave_outputs ho
    exact hout e

/-- The peers that wait for the answer to `request`. -/
def waiting (node : Node B) (request : Request) : List PeerId :=
  (node.processedRequests.lookup request).getD []

theorem mem_answer {request : Request} {response : Response B} {a : Send B}
    (h : a ∈ (Behaviour.answer node.processedRequests request response).2) :
    ∃ q ∈ waiting node request, a = .respond q request response := by
  obtain ⟨q, hq, rfl⟩ := List.mem_map.1 h
  exact ⟨q, hq, rfl⟩

theorem keeps_tile {t : Tile B} {out : List (TileOut B)} (hnode : N p { node with tile := t })
    (hmemory : ∀ o, .memory o ∈ out → M p (.memoryOut o) ∧ O p (.memory o))
    (hprocessor : ∀ id results, .finishedExecution id results ∈ out →
      M p (.processorOut id results) ∧ O p (.processor id results)) :
    Actors.Keeps N M O p
      ⟨{ node with tile := t }, out.map (emit p), out.map emitted⟩ where
  node := hnode
  sent q m hm := by
    obtain ⟨o, ho, he⟩ := List.mem_map.1 hm
    cases o with
    | memory e => cases he; exact (hmemory e ho).1
    | finishedExecution id results => cases he; exact (hprocessor id results ho).1
  outputs o ho := by
    obtain ⟨o', ho', he⟩ := List.mem_map.1 ho
    cases o' with
    | memory e => cases he; exact (hmemory e ho').2
    | finishedExecution id results => cases he; exact (hprocessor id results ho').2

theorem mem_scheduleTx {tx : Transaction} {q : PeerId} {m : Message B}
    (h : (q, m) ∈ S.dispatch p c (.scheduleTx tx)) :
    q ∈ S.peers ∧ m = .recognized p tx c.eventHash := by
  obtain ⟨q', hq', he⟩ := List.mem_map.1 h
  cases he
  exact ⟨hq', rfl⟩

end Reactions

/-! ## What a reaction sends -/

/-- What the behaviour of node `p` sends for a message. -/
inductive Passes (S : Setup) (p : PeerId) (c : Choice) (node : Node B) :
    Message B → PeerId → Message B → Prop where
  | serveRequest {f : FullShardId} {location : PeerId} :
      Passes S p c node (.memoryOut (.serveShardRequest f location)) location
        (.request p (.serveShard f))
  | getRequest {f : FullShardId} {location : PeerId} :
      Passes S p c node (.memoryOut (.assignedRequest f location)) location
        (.request p (.getShard f))
  | served {f : FullShardId} {x : Option (Shard B)} {q : PeerId}
      (waits : q ∈ waiting node (.serveShard f)) :
      Passes S p c node (.memoryOut (.serveShardResponse f x)) q
        (.response (.serveShard f) (.serveShard x))
  | got {f : FullShardId} {x : Option (Shard B)} {q : PeerId}
      (waits : q ∈ waiting node (.getShard f)) :
      Passes S p c node (.memoryOut (.assignedResponse f x)) q (.response (.getShard f) (.getShard x))
  | stored {f : FullShardId} {q : PeerId} (peer : q ∈ S.peers) :
      Passes S p c node (.memoryOut (.assignedStoreSuccess f)) q
        (.recognized p (.stored f.1 f.2) c.eventHash)
  | prepared {v : Vid} {q : PeerId} (peer : q ∈ S.peers) :
      Passes S p c node (.memoryOut (.preparedServiceResponse v)) q
        (.recognized p (.storageRequest v) c.eventHash)
  | program {program : Program} :
      Passes S p c node (.instructionOut (.nextProgram program)) p (.processorIn program)
  | actualized {id : ProgramIdentifier} {peer : PeerId} {ids : List Vid} :
      Passes S p c node (.instructionOut (.peerShardsActualized id peer ids)) p
        (.memoryIn (.peerShardsActualized peer ids))
  | executed {id : ProgramIdentifier} {results : List (Except Processor.Error Vid)} {q : PeerId}
      (peer : q ∈ S.peers) :
      Passes S p c node (.processorOut id results) q (.recognized p (.executed id) c.eventHash)
  | known {peers : List PeerId} {distribution : List (PeerId × Sid)} {q : PeerId}
      (peer : q ∈ S.peers) :
      Passes S p c node (.knownPeers peers) q
        (.recognized p (.initializeStorage distribution) c.eventHash)
  | storageRequestTx {author : PeerId} {v : Vid} {eventHash : Hash} :
      Passes S p c node (.recognized author (.storageRequest v) eventHash) p
        (.memoryIn (.storageRequestTx v author))
  | storedTx {author : PeerId} {v : Vid} {sid : Sid} {eventHash : Hash} :
      Passes S p c node (.recognized author (.stored v sid) eventHash) p
        (.memoryIn (.storeConfirmed (v, sid) author))
  | executeTx {author : PeerId} {instructions : Instructions} {eventHash : Hash} :
      Passes S p c node (.recognized author (.execute instructions) eventHash) p
        (.instructionIn (.finalizedProgram (.new S.calculateHash instructions eventHash)))
  | executedTx {author : PeerId} {id : ProgramIdentifier} {eventHash : Hash} :
      Passes S p c node (.recognized author (.executed id) eventHash) p
        (.instructionIn (.executedProgram author id))
  | initializeTx {author : PeerId} {distribution : List (PeerId × Sid)} {eventHash : Hash} :
      Passes S p c node (.recognized author (.initializeStorage distribution) eventHash) p
        (.memoryIn (.initializeStorage distribution))
  | serve {origin : PeerId} {f : FullShardId} :
      Passes S p c node (.request origin (.serveShard f)) p (.memoryIn (.serveShardRequest f))
  | get {origin : PeerId} {f : FullShardId} :
      Passes S p c node (.request origin (.getShard f)) p (.memoryIn (.assignedRequest f))
  | serveResponse {f : FullShardId} {x : Option (Shard B)} :
      Passes S p c node (.response (.serveShard f) (.serveShard x)) p
        (.memoryIn (.serveShardResponse f x))
  | getResponse {f : FullShardId} {x : Option (Shard B)} :
      Passes S p c node (.response (.getShard f) (.getShard x)) p
        (.memoryIn (.assignedResponse f x))

/-- What the behaviour of node `p` sends for an event of its user. -/
inductive Asks (S : Setup) (p : PeerId) (c : Choice) :
    Behaviour.InEvent B → PeerId → Message B → Prop where
  | scheduleProgram {instructions : Instructions} {q : PeerId} (peer : q ∈ S.peers) :
      Asks S p c (.scheduleProgram instructions) q (.recognized p (.execute instructions) c.eventHash)
  | get {v : Vid} : Asks S p c (.get v) p (.memoryIn (.recollectRequest v))
  | put {v : Vid} {d : Data B} : Asks S p c (.put v d) p (.memoryIn (.prepareServiceRequest v d))
  | listStored : Asks S p c .listStored p (.memoryIn .listDistributed)
  | initializeStorage : Asks S p c .initializeStorage p (.knownPeers c.peers)

/-- Everything a node does on a message. -/
inductive Reacts (S : Setup) (p : PeerId) (c : Choice) (node : Node B) :
    Message B → NodeReaction B → Prop where
  | handled {e : DataMemory.InEvent B} {t : Tile B} {out : List (TileOut B)}
      (moves : node.tile.Moves S.add (.handle c.order e) t out) :
      Reacts S p c node (.memoryIn e)
        ⟨{ node with tile := t }, out.map (emit p), out.map emitted⟩
  | started {program : Program} {t : Tile B} {out : List (TileOut B)}
      (moves : node.tile.Moves S.add (.start c.fetchOrder c.saveOrder program) t out) :
      Reacts S p c node (.processorIn program)
        ⟨{ node with tile := t }, out.map (emit p), out.map emitted⟩
  | instructed {e : InstructionStorage.InEvent} :
      Reacts S p c node (.instructionIn e) (instructionStep p c node e)
  | passed {m : Message B} {x : ProcessedRequests × List (Send B)}
      (notMemory : ∀ e, m ≠ .memoryIn e)
      (sent : ∀ a ∈ x.2, ∀ q m', (q, m') ∈ S.dispatch p c a → Passes S p c node m q m')
      (waits : ∀ request q, q ∈ (x.1.lookup request).getD [] →
        q ∈ waiting node request ∨ m = .request q request) :
      Reacts S p c node m (S.behave p c node x)

section Reactions

variable {S} {p : PeerId} {c : Choice} {node : Node B} {r : NodeReaction B}

theorem Passes.of_mem {m m₁ m₂ : Message B} {q q₁ : PeerId} (h : (q, m₂) ∈ [(q₁, m₁)])
    (passes : Passes S p c node m q₁ m₁) : Passes S p c node m q m₂ := by
  obtain ⟨rfl, rfl⟩ := Prod.mk.inj (List.mem_singleton.1 h)
  exact passes

theorem Passes.of_scheduleTx {m m' : Message B} {q : PeerId} {tx : Transaction}
    (h : (q, m') ∈ S.dispatch p c (.scheduleTx tx))
    (passes : q ∈ S.peers → Passes S p c node m q (.recognized p tx c.eventHash)) :
    Passes S p c node m q m' := by
  obtain ⟨hq, rfl⟩ := mem_scheduleTx h
  exact passes hq

theorem asks_of_mem {e : Behaviour.InEvent B} {a : Send B} (ha : a ∈ Behaviour.handleUser e)
    {q : PeerId} {m : Message B} (h : (q, m) ∈ S.dispatch p c a) : Asks S p c e q m := by
  cases e with
  | scheduleProgram instructions =>
    rcases List.mem_cons.1 ha with rfl | ha
    · obtain ⟨hq, rfl⟩ := mem_scheduleTx h
      exact .scheduleProgram hq
    · obtain rfl := List.mem_singleton.1 ha
      cases h
  | _ =>
    obtain rfl := List.mem_singleton.1 ha
    obtain ⟨rfl, rfl⟩ := Prod.mk.inj (List.mem_singleton.1 h)
    constructor

theorem reacts_of_sends {m : Message B} {sends : List (Send B)} (notMemory : ∀ e, m ≠ .memoryIn e)
    (sent : ∀ a ∈ sends, ∀ q m', (q, m') ∈ S.dispatch p c a → Passes S p c node m q m') :
    Reacts S p c node m (S.behave p c node (node.processedRequests, sends)) :=
  .passed notMemory sent fun _ _ h => .inl h

theorem reacts_of_send {m : Message B} {a : Send B} (notMemory : ∀ e, m ≠ .memoryIn e)
    (sent : ∀ q m', (q, m') ∈ S.dispatch p c a → Passes S p c node m q m') :
    Reacts S p c node m (S.behave p c node (node.processedRequests, [a])) := by
  refine reacts_of_sends notMemory fun a' ha => ?_
  rw [List.mem_singleton.1 ha]
  exact sent

/-- The answer to a request goes to the peers that wait for it. -/
theorem reacts_of_answer {m : Message B} {request : Request} {response : Response B}
    (notMemory : ∀ e, m ≠ .memoryIn e)
    (sent : ∀ q ∈ waiting node request, Passes S p c node m q (.response request response)) :
    Reacts S p c node m
      (S.behave p c node (Behaviour.answer node.processedRequests request response)) := by
  refine .passed notMemory (fun a ha q m' hqm => ?_) fun request' q hq => ?_
  · obtain ⟨q', hq', rfl⟩ := mem_answer ha
    exact .of_mem hqm (sent q' hq')
  · simp only [Behaviour.answer, Finmap.lookup_erase_ite] at hq
    split at hq
    · cases hq
    · exact .inl hq

theorem memoryOut_reacts (e : DataMemory.OutEvent B) :
    Reacts S p c node (.memoryOut e)
      (S.behave p c node (Behaviour.handleDataMemory node.processedRequests e)) := by
  have other : ∀ e', (.memoryOut e : Message B) ≠ .memoryIn e' := fun _ h => by cases h
  cases e with
  | serveShardResponse f x => exact reacts_of_answer other fun _ hq => .served hq
  | assignedResponse f x => exact reacts_of_answer other fun _ hq => .got hq
  | serveShardRequest f location => exact reacts_of_send other fun _ _ h => .of_mem h .serveRequest
  | assignedRequest f location => exact reacts_of_send other fun _ _ h => .of_mem h .getRequest
  | assignedStoreSuccess f => exact reacts_of_send other fun _ _ h => .of_scheduleTx h .stored
  | preparedServiceResponse v => exact reacts_of_send other fun _ _ h => .of_scheduleTx h .prepared
  | distributionSufficient v => exact reacts_of_sends other fun _ h => by cases h
  | _ => exact reacts_of_send other fun _ _ h => by cases h

theorem request_reacts (origin : PeerId) (request : Request) :
    Reacts (B := B) S p c node (.request origin request)
      (S.behave p c node
        (Behaviour.handleIncomingRequest node.processedRequests origin request)) := by
  refine .passed (fun _ h => by cases h) (fun a ha q m hqm => ?_) fun request' q hq => ?_
  · obtain rfl := List.mem_singleton.1 ha
    cases request with
    | serveShard f => exact .of_mem hqm .serve
    | getShard f => exact .of_mem hqm .get
  · simp only [Behaviour.handleIncomingRequest, Finmap.lookup_insert_ite] at hq
    split at hq
    · rename_i hrequest
      subst hrequest
      rcases List.mem_append.1 hq with hq | hq
      · exact .inl hq
      · exact .inr (by rw [List.mem_singleton.1 hq])
    · exact .inl hq

/-- **One reaction to a message.** -/
theorem receive_reacts {m : Message B} (h : S.receive p c node m = some r) :
    Reacts S p c node m r := by
  cases m with
  | memoryIn e =>
    obtain ⟨t, out, hmove, rfl⟩ := tileStep_moves h
    exact .handled hmove
  | processorIn program =>
    obtain ⟨t, out, hmove, rfl⟩ := tileStep_moves h
    exact .started hmove
  | memoryOut e =>
    cases h
    exact memoryOut_reacts e
  | instructionIn e =>
    cases h
    exact .instructed
  | instructionOut e =>
    simp only [receive] at h
    split at h
    · cases h
      cases e with
      | finishedExecution id =>
        exact reacts_of_send (fun _ h => by cases h) fun _ _ h => by cases h
      | nextProgram program =>
        exact reacts_of_send (fun _ h => by cases h) fun _ _ h => .of_mem h .program
      | peerShardsActualized id peer ids =>
        exact reacts_of_send (fun _ h => by cases h) fun _ _ h => .of_mem h .actualized
    · cases h
  | processorOut id results =>
    cases h
    exact reacts_of_send (fun _ h => by cases h) fun _ _ h => .of_scheduleTx h .executed
  | recognized author tx eventHash =>
    cases h
    cases tx with
    | storageRequest v =>
      exact reacts_of_send (fun _ h => by cases h) fun _ _ h => .of_mem h .storageRequestTx
    | stored v sid => exact reacts_of_send (fun _ h => by cases h) fun _ _ h => .of_mem h .storedTx
    | execute is => exact reacts_of_send (fun _ h => by cases h) fun _ _ h => .of_mem h .executeTx
    | executed id =>
      exact reacts_of_send (fun _ h => by cases h) fun _ _ h => .of_mem h .executedTx
    | initializeStorage distribution =>
      exact reacts_of_send (fun _ h => by cases h) fun _ _ h => .of_mem h .initializeTx
  | knownPeers peers =>
    cases h
    exact reacts_of_send (fun _ h => by cases h) fun _ _ h => .of_scheduleTx h .known
  | request origin request =>
    cases h
    exact request_reacts origin request
  | response request response =>
    cases h
    cases request with
    | getShard f =>
      cases response with
      | getShard x =>
        exact reacts_of_send (fun _ h => by cases h) fun _ _ h => .of_mem h .getResponse
      | serveShard x => exact reacts_of_sends (fun _ h => by cases h) fun _ h => by cases h
    | serveShard f =>
      cases response with
      | serveShard x =>
        exact reacts_of_send (fun _ h => by cases h) fun _ _ h => .of_mem h .serveResponse
      | getShard x => exact reacts_of_sends (fun _ h => by cases h) fun _ h => by cases h

/-- A reaction to a message leaves the tile or moves it. -/
theorem receive_tile {m : Message B} (h : S.receive p c node m = some r) :
    r.node.tile = node.tile ∨ ∃ a out, node.tile.Moves S.add a r.node.tile out := by
  cases m with
  | memoryIn e | processorIn e =>
    obtain ⟨t, out, hmove, rfl⟩ := tileStep_moves h
    exact .inr ⟨_, out, hmove⟩
  | instructionOut e =>
    simp only [receive] at h
    split at h <;> cases h
    exact .inl rfl
  | _ => cases h; exact .inl rfl

theorem act_tile {a : Act B} (h : S.act p c node a = some r) :
    r.node.tile = node.tile ∨ ∃ a out, node.tile.Moves S.add a r.node.tile out := by
  unfold act at h
  split at h
  · cases a with
    | user e => cases h; exact .inl rfl
    | _ =>
      obtain ⟨t, out, hmove, rfl⟩ := tileStep_moves h
      exact .inr ⟨_, out, hmove⟩
  · cases h

end Reactions

/-- A step leaves the tile of each node or moves it. -/
theorem step_tile {S : Setup} {s s' : State B} {a : Action B} (h : S.step s a = some s')
    (q : PeerId) : (s'.nodes q).tile = (s.nodes q).tile ∨
      ∃ a out, (s.nodes q).tile.Moves S.add a (s'.nodes q).tile out := by
  cases Actors.step_moves h with
  | @delivered i c p m r pending reaction =>
    by_cases hq : q = p
    · subst hq
      rw [Actors.react_nodes_self]
      exact receive_tile reaction
    · exact .inl (by rw [Actors.react_nodes_of_ne hq])
  | @acted p c b r reaction =>
    by_cases hq : q = p
    · subst hq
      rw [Actors.react_nodes_self]
      exact act_tile reaction
    · exact .inl (by rw [Actors.react_nodes_of_ne hq])

/-! ## A sample network -/

open InitializedDataMemory (samplePeer sampleMemory)

/-- Three peers with one shard each; two of them confirm an execution. -/
def sample : Setup where
  peers := [samplePeer 0, samplePeer 1, samplePeer 2]
  add := (· ^^^ ·)
  calculateHash program := .fromArray fun _ => UInt8.ofNat program.length
  encoding := OneParity.wrapper
  distribution := (sampleMemory (B := 4)).distribution
  executionConfirmationsThreshold := 2

/-- A request of the user at peer `i`. -/
def sampleUser (i : UInt8) (e : Behaviour.InEvent 4) : Action 4 :=
  .act (samplePeer i) default (.user e)

def sampleDeliver (i : Nat) : Action 4 := .deliver i default

end Setup

end Swarm.Network
