import Swarm.Behaviour.Metrics
import Swarm.Behaviour.Requests
import Swarm.Consensus.Run
import Swarm.Node.Pipeline
import Swarm.Processor.SingleThreaded

/-!
# The poll of the behaviour

`Behaviour::poll` looks at its sources in a fixed order and passes what it finds
on through bounded channels. `micro` is one step of it: what is done between two
looks at a channel. A send does not wait: a full or closed channel makes `poll`
report that the node cannot go on, except for the periodic gossip, which is
skipped. A task that has used up its budget of channel operations finds every
queue empty when it looks and full when it sends. Between two steps the other
modules may take and add events.

Ids of requests and channels for responses are opaque to the behaviour. The
gossip timer may be ready at any time.
-/

namespace Swarm.Behaviour

open Swarm.Processor Swarm.Consensus

/-! ## Modules -/

/-- Whether a module in this state takes more input. -/
class State (σ : Type) where
  acceptsInput : σ → Bool

instance : State Unit := ⟨fun _ => true⟩

instance : State Consensus.ModuleState := ⟨fun s => decide (s = .ready)⟩

instance : State Node.ModuleState := ⟨fun s => decide (s = .ready)⟩

/-- The two queues between a module and the behaviour, and the state the module shows. -/
structure ModuleChannel (limit : Nat) (ι ω σ : Type) where
  input : Channel limit ι
  output : Channel limit ω
  state : Option σ

namespace ModuleChannel

variable {limit : Nat} {ι ω σ : Type}

def new (initialState : Option σ) : ModuleChannel limit ι ω σ := ⟨.new, .new, initialState⟩

def setState (c : ModuleChannel limit ι ω σ) (value : σ) : ModuleChannel limit ι ω σ :=
  { c with state := c.state.map fun _ => value }

/-- A module without a state always accepts input; one whose state is locked does not. -/
def acceptsInput [State σ] (c : ModuleChannel limit ι ω σ) (locked : Bool) : Bool :=
  match c.state with
  | none => true
  | some s => !locked && State.acceptsInput s

end ModuleChannel

/-! ## Events -/

variable {limit B : Nat} {Id Chan Sync : Type}

/-- What the user asks for, metrics included. -/
inductive Command (B : Nat) where
  | event (e : InEvent B)
  | getMetrics

/-- What the user is told, metrics included. -/
inductive Reply (B : Nat) where
  | event (e : OutEvent B)
  | getMetricsResponse (metrics : Metrics)
  deriving DecidableEq

/-- What the behaviour tells the network's requests and responses. -/
inductive RequestResponseIn (Id Chan : Type) (B : Nat) where
  | makeRequest (request : Request) (location : PeerId)
  | respond (requestId : Id) (channel : Chan) (response : Response B)

/-- What the behaviour is told of requests and responses. -/
inductive RequestResponseOut (Id Chan : Type) (B : Nat) where
  | assignedRequestId (requestId : Id) (request : Request)
  | response (requestId : Id) (response : Response B)
  | incomingRequest (requestId : Id) (request : Request) (channel : Chan)

/-- `OutEvent::FinishedExecution` of the processor. -/
abbrev FinishedExecution := ProgramIdentifier × List (Except Processor.Error Vid)

/-- An event with the module it is sent to. -/
inductive Emission (Id Chan Sync : Type) (B : Nat) where
  | consensus (e : Consensus.InEvent Sync)
  | instructionMemory (e : InstructionStorage.InEvent)
  | dataMemory (e : DataMemory.InEvent B)
  | processor (program : Program)
  | requestResponse (e : RequestResponseIn Id Chan B)
  | user (e : Reply B)

/-- The module event of a handler's send. A response is sent under the id of its request. -/
def emission : Send B → List (Emission Id Chan Sync B)
  | .dataMemory e => [.dataMemory e]
  | .instructionMemory e => [.instructionMemory e]
  | .processor program => [.processor program]
  | .scheduleTx tx => [.consensus (.scheduleTx tx)]
  | .knownPeersRequest => [.consensus .knownPeersRequest]
  | .makeRequest request location => [.requestResponse (.makeRequest request location)]
  | .user e => [.user (.event e)]
  | .respond _ _ _ => []

/-! ## The behaviour -/

inductive Error where
  | unableToOperate
  | cancelSignal
  deriving DecidableEq

/-- What `poll` returns to the swarm. -/
inductive ToSwarm (Sync : Type) where
  | error (e : Error)
  | dial (peer : PeerId)
  | notifyHandler (peer : PeerId) (sync : Sync)
  deriving DecidableEq

/-- What `poll` looks at, in this order. -/
inductive Phase where
  | shutdown
  | discoveredPeers
  | oneshotMessages
  | dataMemory
  | user
  | processor
  | instructionMemory
  | consensus
  | gossip
  | requestResponse
  deriving DecidableEq

/-- What the code leaves open in a step: the time, the timer, the random number, iteration
orders, and whether a module holds the lock of its state. `budget` is how many channel operations
the task may still do; it may be any number, since the rest of the task takes from it too. -/
structure PollChoice where
  now : Instant
  budget : Nat
  timerReady : Bool
  position : Nat
  peerOrder : KeyOrder PeerId
  consensusLocked : Bool
  processorLocked : Bool

end Swarm.Behaviour

open Swarm.Behaviour Swarm.Processor in
/-- The queues of peers and of simple messages are listed oldest first: entries are pushed at
the front and popped at the back. -/
structure Swarm.Behaviour (limit : Nat) (Id Chan Sync : Type) (B : Nat) where
  discoveredPeers : List PeerId
  userInteraction : ModuleChannel limit (Command B) (Reply B) Unit
  shutdown : Bool
  consensus : ModuleChannel limit (Consensus.InEvent Sync) (Consensus.OutEvent Sync)
    Consensus.ModuleState
  instructionMemory : ModuleChannel limit InstructionStorage.InEvent InstructionStorage.OutEvent Unit
  dataMemory : ModuleChannel limit (DataMemory.InEvent B) (DataMemory.OutEvent B) Unit
  processor : ModuleChannel limit Program FinishedExecution Node.ModuleState
  requestResponse : ModuleChannel limit (RequestResponseIn Id Chan B)
    (RequestResponseOut Id Chan B) Unit
  connectedPeers : Finset PeerId
  oneshotMessages : List (PeerId × Sync)
  pendingResponse : HashMap Id Request
  processedRequests : HashMap Request (List (Id × Chan))
  metrics : Metrics

namespace Swarm.Behaviour

open Swarm.Processor Swarm.Consensus

variable {limit B : Nat} {Id Chan Sync : Type}

/-- Whether `poll` goes on, and in which phase, or returns. -/
inductive Micro (limit : Nat) (Id Chan Sync : Type) (B : Nat) where
  | goto (phase : Phase) (b : Behaviour limit Id Chan Sync B)
  | ready (e : ToSwarm Sync) (b : Behaviour limit Id Chan Sync B)
  | pending (b : Behaviour limit Id Chan Sync B)

inductive HandleResult where
  | ok
  | abort
  deriving DecidableEq

section

variable (b : Behaviour limit Id Chan Sync B)

/-- `Behaviour::new`. -/
def new : Behaviour limit Id Chan Sync B where
  discoveredPeers := []
  userInteraction := .new none
  shutdown := false
  consensus := .new (some .ready)
  instructionMemory := .new none
  dataMemory := .new none
  processor := .new (some .ready)
  requestResponse := .new none
  connectedPeers := ∅
  oneshotMessages := []
  pendingResponse := ∅
  processedRequests := ∅
  metrics := .new

/-! ### Events of the swarm -/

def injectPeerDiscovered (newPeer : PeerId) : Behaviour limit Id Chan Sync B :=
  { b with discoveredPeers := b.discoveredPeers ++ [newPeer] }

/-- `FromSwarm::ConnectionEstablished`. -/
def connectionEstablished (peer : PeerId) (otherEstablished : Nat) :
    Behaviour limit Id Chan Sync B :=
  if otherEstablished > 0 then b else { b with connectedPeers := insert peer b.connectedPeers }

/-- `FromSwarm::ConnectionClosed`. -/
def connectionClosed (peer : PeerId) (remainingEstablished : Nat) :
    Behaviour limit Id Chan Sync B :=
  if remainingEstablished > 0 then b else { b with connectedPeers := b.connectedPeers.erase peer }

/-- A simple message is received on a connection of the peer. -/
def onConnectionHandlerEvent (peer : PeerId) (sync : Sync) : Behaviour limit Id Chan Sync B :=
  { b with oneshotMessages := b.oneshotMessages ++ [(peer, sync)] }

/-- `gen_range` gives a number below the number of connected peers. -/
def getRandomPeer (order : KeyOrder PeerId) (position : Nat) : Option PeerId :=
  let connected := b.connectedPeers.card
  if connected = 0 then none else (order.list b.connectedPeers)[position % connected]?

/-! ### Sending -/

variable {b} in
/-- One send: the node cannot go on without the receiver or the event. -/
def sent {α : Type} (r : Except SendError α) (set : α → Behaviour limit Id Chan Sync B)
    (b : Behaviour limit Id Chan Sync B) : HandleResult × Behaviour limit Id Chan Sync B :=
  match r with
  | .ok c => (.ok, set c)
  | .error _ => (.abort, b)

/-- Sends an event; the size of the queue of consensus is recorded. -/
def send (now : Instant) (budget : Nat) :
    Emission Id Chan Sync B → HandleResult × Behaviour limit Id Chan Sync B
  | .consensus e => sent (b.consensus.input.pollSend budget e) (fun c => { b with
      consensus := { b.consensus with input := c }
      metrics := b.metrics.updateQueueSize now c }) b
  | .instructionMemory e => sent (b.instructionMemory.input.pollSend budget e) (fun c => { b with
      instructionMemory := { b.instructionMemory with input := c } }) b
  | .dataMemory e => sent (b.dataMemory.input.pollSend budget e) (fun c => { b with
      dataMemory := { b.dataMemory with input := c } }) b
  | .processor program => sent (b.processor.input.pollSend budget program) (fun c => { b with
      processor := { b.processor with input := c } }) b
  | .requestResponse e => sent (b.requestResponse.input.pollSend budget e) (fun c => { b with
      requestResponse := { b.requestResponse with input := c } }) b
  | .user e => sent (b.userInteraction.output.pollSend budget e) (fun c => { b with
      userInteraction := { b.userInteraction with output := c } }) b

/-- Sends events up to the first that cannot be sent. -/
def sendAll (now : Instant) (budget : Nat) (b : Behaviour limit Id Chan Sync B) :
    List (Emission Id Chan Sync B) → HandleResult × Behaviour limit Id Chan Sync B
  | [] => (.ok, b)
  | e :: es =>
    match b.send now budget e with
    | (.ok, b) => sendAll now (budget - 1) b es
    | (.abort, b) => (.abort, b)

/-- The phase goes on, or the poll reports that the node cannot. -/
def stay (phase : Phase) :
    HandleResult × Behaviour limit Id Chan Sync B → Micro limit Id Chan Sync B
  | (.ok, b) => .goto phase b
  | (.abort, b) => .ready (.error .unableToOperate) b

/-! ### Handlers -/

/-- The state and the events to be sent, for an event of the data memory. -/
def onDataMemory (e : DataMemory.OutEvent B) :
    Behaviour limit Id Chan Sync B × List (Emission Id Chan Sync B) :=
  match answered e with
  | some (request, response) =>
    let waitingForResponse := (b.processedRequests.lookup request).getD []
    ({ b with processedRequests := b.processedRequests.erase request },
      waitingForResponse.map fun w => .requestResponse (.respond w.1 w.2 response))
  | none => (b, (handleDataMemory ∅ e).2.flatMap emission)

def onCommand : Command B → List (Emission Id Chan Sync B)
  | .event e => (handleUser e).flatMap emission
  | .getMetrics => [.user (.getMetricsResponse b.metrics)]

/-- The peers that consensus or the network know, in the order of the hash set. -/
def knownPeers (order : KeyOrder PeerId) (peers : List PeerId) : List PeerId :=
  order.list (peers.toFinset ∪ b.connectedPeers)

def onConsensus (calculateHash : Instructions → Hash) (c : PollChoice) :
    Consensus.OutEvent Sync → Micro limit Id Chan Sync B
  | .generateSyncResponse peer sync =>
    .ready (.notifyHandler peer sync)
      { b with metrics := { b.metrics with sync := b.metrics.sync.recordEnd c.now } }
  | .knownPeersResponse peers =>
    stay .consensus (sendAll c.now (c.budget - 1) b
      ((handleKnownPeers (b.knownPeers c.peerOrder peers)).flatMap emission))
  | .recognizedTransaction author eventHash tx =>
    stay .consensus (sendAll c.now (c.budget - 1) b
      ((handleTx calculateHash author eventHash tx).flatMap emission))
  | .finalizedTransaction _ _ _ => .goto .consensus b

/-- `CreateStandalone` or `GenerateSyncRequest` of the gossip: skipped if it had to wait. -/
def sendGossip (budget : Nat) (e : Consensus.InEvent Sync) :
    HandleResult × Behaviour limit Id Chan Sync B :=
  match b.consensus.input.pollSend budget e with
  | .ok c => (.ok, { b with consensus := { b.consensus with input := c } })
  | .error .full => (.ok, b)
  | .error .closed => (.abort, b)

/-- A sync is being generated, if its request was sent. -/
def recordSync (now : Instant) (sent : Bool) : Behaviour limit Id Chan Sync B :=
  let sync := if sent then b.metrics.sync.recordStart now else b.metrics.sync
  { b with metrics := { b.metrics with sync := sync }.updateQueueSize now b.consensus.input }

def gossip (c : PollChoice) (peer : PeerId) : HandleResult × Behaviour limit Id Chan Sync B :=
  match b.sendGossip c.budget .createStandalone with
  | (.abort, b) => (.abort, b)
  | (.ok, b) =>
    match b.sendGossip (c.budget - 1) (.generateSyncRequest peer) with
    | (.abort, b') => (.abort, b')
    | (.ok, b') => (.ok, b'.recordSync c.now
        (decide (0 < c.budget - 1 ∧ b.consensus.input.queue.length < limit)))

variable [DecidableEq Id]

def onRequestResponse (now : Instant) (budget : Nat) :
    RequestResponseOut Id Chan B → HandleResult × Behaviour limit Id Chan Sync B
  | .assignedRequestId requestId request =>
    (.ok, { b with pendingResponse := b.pendingResponse.insert requestId request })
  | .response requestId response =>
    match b.pendingResponse.lookup requestId with
    | some request => sendAll now budget b ((handleResponse request response).flatMap emission)
    -- unknown request
    | none => (.ok, b)
  | .incomingRequest requestId request channel =>
    match b.send now budget (.dataMemory (forwarded request)) with
    | (.ok, b) => (.ok, { b with
        processedRequests := pushRequest b.processedRequests request (requestId, channel) })
    | (.abort, b) => (.abort, b)

/-! ### One step -/

/-- A look at the output of a module. -/
def look {α : Type} (r : Received limit α) (next : Phase)
    (handle : α → Channel limit α → Micro limit Id Chan Sync B) : Micro limit Id Chan Sync B :=
  match r with
  | .item a rest => handle a rest
  | .closed => .ready (.error .unableToOperate) b
  | .pending => .goto next b

/-- **One step of `poll`.** -/
def micro (calculateHash : Instructions → Hash) (c : PollChoice) :
    Phase → Micro limit Id Chan Sync B
  | .shutdown =>
    if b.shutdown then .ready (.error .cancelSignal) b else .goto .discoveredPeers b
  | .discoveredPeers =>
    match b.discoveredPeers with
    | peer :: rest => .ready (.dial peer) { b with discoveredPeers := rest }
    | [] => .goto .oneshotMessages b
  | .oneshotMessages =>
    match b.oneshotMessages with
    | (peer, sync) :: rest =>
      stay .oneshotMessages
        ({ b with oneshotMessages := rest }.send c.now c.budget (.consensus (.applySync peer sync)))
    | [] => .goto .dataMemory b
  | .dataMemory => b.look (b.dataMemory.output.pollRecv c.budget) .user fun e rest =>
    let (b, es) := { b with dataMemory := { b.dataMemory with output := rest } }.onDataMemory e
    stay .dataMemory (sendAll c.now (c.budget - 1) b es)
  | .user => b.look (b.userInteraction.input.pollRecv c.budget) .processor fun e rest =>
    let b := { b with userInteraction := { b.userInteraction with input := rest } }
    stay .user (sendAll c.now (c.budget - 1) b (b.onCommand e))
  | .processor => b.look (b.processor.output.pollRecv c.budget) .instructionMemory fun e rest =>
    stay .processor (sendAll c.now (c.budget - 1)
      { b with processor := { b.processor with output := rest } }
      ((handleProcessor (B := B) e.1).flatMap emission))
  | .instructionMemory =>
    if b.processor.acceptsInput c.processorLocked then
      b.look (b.instructionMemory.output.pollRecv c.budget) .consensus fun e rest =>
        stay .instructionMemory (sendAll c.now (c.budget - 1)
          { b with instructionMemory := { b.instructionMemory with output := rest } }
          ((handleInstructionMemory (B := B) e).flatMap emission))
    else .goto .consensus b
  | .consensus => b.look (b.consensus.output.pollRecv c.budget) .gossip fun e rest =>
    { b with consensus := { b.consensus with output := rest } }.onConsensus calculateHash c e
  | .gossip =>
    if b.consensus.acceptsInput c.consensusLocked && c.timerReady then
      match b.getRandomPeer c.peerOrder c.position with
      | some peer => stay .requestResponse (b.gossip c peer)
      | none => .goto .requestResponse b
    else .goto .requestResponse b
  | .requestResponse =>
    match b.requestResponse.output.pollRecv c.budget with
    | .item e rest =>
      stay .requestResponse ({ b with
        requestResponse := { b.requestResponse with output := rest } }.onRequestResponse c.now
          (c.budget - 1) e)
    | .closed => .ready (.error .unableToOperate) b
    | .pending => .pending b

/-- A poll that nothing interrupts, up to its return; `none` if the choices do not suffice. -/
def poll (calculateHash : Instructions → Hash) :
    List PollChoice → Phase → Behaviour limit Id Chan Sync B →
      Option (Option (ToSwarm Sync) × Behaviour limit Id Chan Sync B)
  | [], _, _ => none
  | c :: cs, phase, b =>
    match b.micro calculateHash c phase with
    | .goto phase b => poll calculateHash cs phase b
    | .ready e b => some (some e, b)
    | .pending b => some (none, b)

end

end Swarm.Behaviour
