import Swarm.Behaviour.Poll
import Swarm.Network.System

/-!
# A node with its queues

A `Machine` is a node as it runs: the poll of the behaviour step by step, the
bounded channels between the modules, and the loop of `main`. A module that has
events to send waits for room; while it does, it takes nothing. `main` runs the
polls of the behaviour and everything it does itself one after another, so if it
waits for room in the output of the requests, it waits for a poll that never
comes.

Packets between nodes may be lost or delivered in any order. A transaction that
consensus takes is recognised at every node at most once, with the hash of its
event; the hashes are fixed in advance, and any. A request id is opaque to the
behaviour; here it shows the request it names.
-/

namespace Swarm.Network

open Swarm.DataMemory Swarm.Processor Swarm.Consensus Swarm.Node Swarm.Behaviour
open Swarm.InstructionStorage (InstructionMemory)

variable {limit B : Nat} {Sync : Type}

/-- The id of a request, with the request. -/
structure RequestId where
  number : Nat
  request : Request
  deriving DecidableEq

/-- A response channel leads to the peer that asked, under its own id. -/
structure ResponseChannel where
  peer : PeerId
  requestId : RequestId
  deriving DecidableEq

abbrev NodeBehaviour (limit : Nat) (Sync : Type) (B : Nat) :=
  Swarm.Behaviour limit RequestId ResponseChannel Sync B

/-- Where `ShardProcessor::run` is: it has received a program but not yet said so, executes it,
has the report to send, or has sent it. -/
inductive ProcessorLoop where
  | waiting
  | received (program : Program)
  | executing
  | finished (e : FinishedExecution)
  | reported

/-- The loop of `main`. -/
inductive MainLoop where
  | running
  /-- It waits for room in the output of the requests. -/
  | blocked
  | ended
  deriving DecidableEq

structure Machine (limit : Nat) (Sync : Type) (B : Nat) where
  behaviour : NodeBehaviour limit Sync B
  /-- Where the poll of the behaviour is; `shutdown` also between two polls. -/
  phase : Phase
  main : MainLoop
  /-- The ids assigned to own requests and to requests of others. -/
  outboundIds : Nat
  inboundIds : Nat
  tile : Tile B
  /-- What a module has yet to send, oldest first. -/
  memoryOutbox : List (DataMemory.OutEvent B)
  instructionOutbox : List InstructionStorage.OutEvent
  consensusOutbox : List (Consensus.OutEvent Sync)
  instructionMemory : InstructionMemory
  processorLoop : ProcessorLoop
  /-- How many transactions consensus has taken. -/
  scheduled : Nat

/-- What travels between nodes. -/
inductive Packet (Sync : Type) (B : Nat) where
  | request (requestId : RequestId) (origin : PeerId)
  | response (requestId : RequestId) (response : Response B)
  | recognized (author : PeerId) (tx : Transaction) (eventHash : Hash)
  | simple (origin : PeerId) (sync : Sync)

/-- What consensus makes of an input event: a sync or none, the known peers, or its end. -/
structure ConsensusChoice (Sync : Type) where
  sync : Option Sync
  peers : List PeerId
  ends : Bool

/-- A step of a machine. -/
inductive MachineAct (Sync : Type) (B : Nat) where
  /-- The behaviour's poll makes a step. -/
  | poll (c : PollChoice)
  | connectionEstablished (peer : PeerId) (otherEstablished : Nat)
  | connectionClosed (peer : PeerId) (remainingEstablished : Nat)
  | discovered (peer : PeerId)
  /-- `main` takes the oldest request or response of the behaviour. -/
  | takeRequest
  /-- The user sends a command, or reads a reply. -/
  | command (e : Command B)
  | readReply
  /-- The cancellation token is cancelled. -/
  | shutdown
  | dataMemory (order : HashOrder)
  | sendDataMemory
  | instructions (order : KeyOrder Vid)
  | sendInstructions
  | receiveProgram
  | startProgram (fetchOrder saveOrder : KeyOrder Vid)
  | read (order : HashOrder)
  | push
  | applyWrite
  | finish
  | report
  | setReady
  | consensus (c : ConsensusChoice Sync)
  | finalize (author : PeerId) (eventHash : Hash) (tx : Transaction)
  | sendConsensus

abbrev MachineReaction (limit : Nat) (Sync : Type) (B : Nat) :=
  Reaction PeerId (Machine limit Sync B) (Packet Sync B) (Output B)

namespace Machine

variable (m : Machine limit Sync B)

/-- A reaction without packets and outputs. -/
def quiet : Option (MachineReaction limit Sync B) := some ⟨m, [], []⟩

/-- `main` is between two polls and free. -/
def Free : Prop := m.main = .running ∧ m.phase = .shutdown

instance : Decidable m.Free := inferInstanceAs (Decidable (_ ∧ _))

/-! ### `main` -/

/-- Sends to the behaviour: without room, `main` waits. -/
def tell (e : RequestResponseOut RequestId ResponseChannel B)
    (packets : List (PeerId × Packet Sync B)) : Option (MachineReaction limit Sync B) :=
  match m.behaviour.requestResponse.output.send e with
  | .ok c => some ⟨{ m with behaviour := { m.behaviour with
      requestResponse := { m.behaviour.requestResponse with output := c } } }, packets, []⟩
  | .error .full => quiet { m with main := .blocked }
  | .error .closed => quiet { m with main := .ended }

/-- The `MakeRequest` and `Respond` branches of `main`. -/
def takeRequest (self : PeerId) : Option (MachineReaction limit Sync B) :=
  match m.behaviour.requestResponse.input.recv with
  | .item e rest =>
    let m := { m with behaviour := { m.behaviour with
      requestResponse := { m.behaviour.requestResponse with input := rest } } }
    match e with
    | .makeRequest request location =>
      let requestId : RequestId := ⟨m.outboundIds, request⟩
      { m with outboundIds := m.outboundIds + 1 }.tell (.assignedRequestId requestId request)
        [(location, .request requestId self)]
    | .respond _ channel response =>
      some ⟨m, [(channel.peer, .response channel.requestId response)], []⟩
  | _ => none

/-- The replies that a poll step has sent to the user. -/
def told (b b' : NodeBehaviour limit Sync B) : List (Output B) :=
  (b'.userInteraction.output.queue.drop b.userInteraction.output.queue.length).filterMap fun
    | .event e => some (.user e)
    | .getMetricsResponse _ => none

/-- A step of the behaviour's poll. When `poll` returns, `main` does what it is told. -/
def pollStep (calculateHash : Instructions → Hash) (self : PeerId) (c : PollChoice) :
    MachineReaction limit Sync B :=
  match m.behaviour.micro calculateHash c m.phase with
  | .goto phase b => ⟨{ m with behaviour := b, phase := phase }, [], told m.behaviour b⟩
  | .pending b => ⟨{ m with behaviour := b, phase := .shutdown }, [], told m.behaviour b⟩
  | .ready (.dial _) b => ⟨{ m with behaviour := b, phase := .shutdown }, [], told m.behaviour b⟩
  | .ready (.notifyHandler peer sync) b =>
    ⟨{ m with behaviour := b, phase := .shutdown }, [(peer, .simple self sync)],
      told m.behaviour b⟩
  | .ready (.error _) b =>
    ⟨{ m with behaviour := { b with shutdown := true }, phase := .shutdown, main := .ended }, [],
      told m.behaviour b⟩

/-! ### Modules -/

/-- A step of the data memory and the processor. Where the memory's loop ends, its ends of the
channels are dropped. -/
def tileAct (add : UInt8 → UInt8 → UInt8) (a : TileStep B) :
    Option (Machine limit Sync B × List (TileOut B)) :=
  (m.tile.step add a).map fun r =>
    ({ m with
      tile := r.1
      behaviour := if r.1.running then m.behaviour else { m.behaviour with
        dataMemory := { m.behaviour.dataMemory with
          input := m.behaviour.dataMemory.input.dropReceiver
          output := m.behaviour.dataMemory.output.dropSender } } }, r.2)

/-- The event that a tile puts out for the behaviour. -/
def memoryEvent : TileOut B → Option (DataMemory.OutEvent B)
  | .memory e => some e
  | .finishedExecution _ _ => none

def dataMemoryStep (add : UInt8 → UInt8 → UInt8) (order : HashOrder) :
    Option (MachineReaction limit Sync B) :=
  match m.memoryOutbox, m.behaviour.dataMemory.input.recv with
  | [], .item e rest =>
    let m := { m with behaviour := { m.behaviour with
      dataMemory := { m.behaviour.dataMemory with input := rest } } }
    (m.tileAct add (.handle order e)).map fun r =>
      ⟨{ r.1 with memoryOutbox := r.2.filterMap memoryEvent }, [], r.2.map Setup.emitted⟩
  | _, _ => none

def sendDataMemory : Option (MachineReaction limit Sync B) :=
  match m.memoryOutbox with
  | e :: rest =>
    match m.behaviour.dataMemory.output.send e with
    | .ok c => quiet { m with
        memoryOutbox := rest
        behaviour := { m.behaviour with
          dataMemory := { m.behaviour.dataMemory with output := c } } }
    | .error _ => none
  | [] => none

def instructionsStep (order : KeyOrder Vid) : Option (MachineReaction limit Sync B) :=
  match m.instructionOutbox, m.behaviour.instructionMemory.input.recv with
  | [], .item e rest =>
    let r := m.instructionMemory.handle order e
    some ⟨{ m with
      instructionMemory := r.1
      instructionOutbox := r.2
      behaviour := { m.behaviour with
        instructionMemory := { m.behaviour.instructionMemory with input := rest } } }, [],
      r.2.map .instruction⟩
  | _, _ => none

def sendInstructions : Option (MachineReaction limit Sync B) :=
  match m.instructionOutbox with
  | e :: rest =>
    match m.behaviour.instructionMemory.output.send e with
    | .ok c => quiet { m with
        instructionOutbox := rest
        behaviour := { m.behaviour with
          instructionMemory := { m.behaviour.instructionMemory with output := c } } }
    | .error _ => none
  | [] => none

def receiveProgram : Option (MachineReaction limit Sync B) :=
  match m.processorLoop, m.behaviour.processor.input.recv with
  | .waiting, .item program rest => quiet { m with
      processorLoop := .received program
      behaviour := { m.behaviour with processor := { m.behaviour.processor with input := rest } } }
  | _, _ => none

/-- `set_state(Executing)`, and `execute` is called. -/
def startProgram (add : UInt8 → UInt8 → UInt8) (fetchOrder saveOrder : KeyOrder Vid) :
    Option (MachineReaction limit Sync B) :=
  match m.processorLoop with
  | .received program =>
    (m.tileAct add (.start fetchOrder saveOrder program)).bind fun r =>
      quiet { r.1 with
        processorLoop := .executing
        behaviour := { r.1.behaviour with
          processor := r.1.behaviour.processor.setState .executing } }
  | _ => none

/-- A step on the memory bus. The memory answers between two events. -/
def busStep (add : UInt8 → UInt8 → UInt8) (a : TileStep B) : Option (MachineReaction limit Sync B) :=
  (m.tileAct add a).bind fun r => quiet r.1

def finish (add : UInt8 → UInt8 → UInt8) : Option (MachineReaction limit Sync B) :=
  (m.tileAct add .finish).bind fun r =>
    match r.2 with
    | [.finishedExecution programId results] =>
      some ⟨{ r.1 with processorLoop := .finished (programId, results) }, [],
        [.processor programId results]⟩
    | _ => none

def report : Option (MachineReaction limit Sync B) :=
  match m.processorLoop with
  | .finished e =>
    match m.behaviour.processor.output.send e with
    | .ok c => quiet { m with
        processorLoop := .reported
        behaviour := { m.behaviour with processor := { m.behaviour.processor with output := c } } }
    | .error _ => none
  | _ => none

def setReady : Option (MachineReaction limit Sync B) :=
  match m.processorLoop with
  | .reported => quiet { m with
      processorLoop := .waiting
      behaviour := { m.behaviour with processor := m.behaviour.processor.setState .ready } }
  | _ => none

/-- Consensus ends: its ends of the channels are dropped. -/
def endConsensus : Machine limit Sync B :=
  { m with behaviour := { m.behaviour with
      consensus := { m.behaviour.consensus with
        input := m.behaviour.consensus.input.dropReceiver
        output := m.behaviour.consensus.output.dropSender } } }

/-- Consensus takes an input event; a scheduled transaction goes to all nodes. -/
def consensusStep (peers : List PeerId) (eventHash : PeerId → Nat → Hash) (self : PeerId)
    (c : ConsensusChoice Sync) : Option (MachineReaction limit Sync B) :=
  match m.consensusOutbox, m.behaviour.consensus.input.recv with
  | [], .item e rest =>
    let m := { m with behaviour := { m.behaviour with
      consensus := { m.behaviour.consensus with input := rest } } }
    match e with
    | .generateSyncRequest peer =>
      match c.sync with
      | some sync => quiet { m with consensusOutbox := [.generateSyncResponse peer sync] }
      | none => quiet m.endConsensus
    | .knownPeersRequest => quiet { m with consensusOutbox := [.knownPeersResponse c.peers] }
    | .applySync _ _ => quiet m
    | .scheduleTx tx =>
      some ⟨{ m with scheduled := m.scheduled + 1 },
        peers.map (·, .recognized self tx (eventHash self m.scheduled)), []⟩
    | .createStandalone => if c.ends then quiet m.endConsensus else quiet m
  | _, _ => none

def sendConsensus : Option (MachineReaction limit Sync B) :=
  match m.consensusOutbox with
  | e :: rest =>
    match m.behaviour.consensus.output.send e with
    | .ok c => quiet { m with
        consensusOutbox := rest
        behaviour := { m.behaviour with consensus := { m.behaviour.consensus with output := c } } }
    | .error _ => none
  | [] => none

/-- Consensus has the next transaction of a stream to put out. -/
def putOut (e : Consensus.OutEvent Sync) : Option (MachineReaction limit Sync B) :=
  match m.consensusOutbox, m.behaviour.consensus.input.receiving with
  | [], true => quiet { m with consensusOutbox := [e] }
  | _, _ => none

end Machine

/-- A network whose nodes are machines. -/
structure Deployment extends Setup where
  /-- The hash of the event that includes the `i`-th transaction a node schedules. -/
  eventHash : PeerId → Nat → Hash

namespace Deployment

variable (D : Deployment)

/-- A packet arrives, unless it is lost. -/
def receive (self : PeerId) (lost : Bool) (m : Machine limit Sync B) :
    Packet Sync B → Option (MachineReaction limit Sync B)
  | packet =>
    if self ∈ D.peers then
      if lost then m.quiet else
        match packet with
        | .request requestId origin =>
          if m.Free then
            { m with inboundIds := m.inboundIds + 1 }.tell
              (.incomingRequest ⟨m.inboundIds, requestId.request⟩ requestId.request
                ⟨origin, requestId⟩) []
          else none
        | .response requestId response =>
          if m.Free then m.tell (.response requestId response) [] else none
        | .recognized author tx eventHash => m.putOut (.recognizedTransaction author eventHash tx)
        | .simple origin sync =>
          if m.Free then
            Machine.quiet { m with behaviour := m.behaviour.onConnectionHandlerEvent origin sync }
          else none
    else none

/-- What a machine does on its own. -/
def machineAct (self : PeerId) (m : Machine limit Sync B) :
    MachineAct Sync B → Option (MachineReaction limit Sync B)
  | .poll c => if m.main = .running then some (m.pollStep D.calculateHash self c) else none
  | .connectionEstablished peer otherEstablished =>
    if m.Free then Machine.quiet { m with
      behaviour := m.behaviour.connectionEstablished peer otherEstablished } else none
  | .connectionClosed peer remainingEstablished =>
    if m.Free then Machine.quiet { m with
      behaviour := m.behaviour.connectionClosed peer remainingEstablished } else none
  | .discovered peer =>
    if m.Free then Machine.quiet { m with behaviour := m.behaviour.injectPeerDiscovered peer }
    else none
  | .takeRequest => if m.Free then m.takeRequest self else none
  | .command e =>
    match m.behaviour.userInteraction.input.send e with
    | .ok c => Machine.quiet { m with behaviour := { m.behaviour with
        userInteraction := { m.behaviour.userInteraction with input := c } } }
    | .error _ => none
  | .readReply =>
    match m.behaviour.userInteraction.output.recv with
    | .item _ rest => Machine.quiet { m with behaviour := { m.behaviour with
        userInteraction := { m.behaviour.userInteraction with output := rest } } }
    | _ => none
  | .shutdown => Machine.quiet { m with behaviour := { m.behaviour with shutdown := true } }
  | .dataMemory order => m.dataMemoryStep D.add order
  | .sendDataMemory => m.sendDataMemory
  | .instructions order => m.instructionsStep order
  | .sendInstructions => m.sendInstructions
  | .receiveProgram => m.receiveProgram
  | .startProgram fetchOrder saveOrder => m.startProgram D.add fetchOrder saveOrder
  | .read order =>
    if m.memoryOutbox = [] then m.busStep D.add (.read order) else none
  | .push => if m.tile.writes.length < limit then m.busStep D.add .push else none
  | .applyWrite => if m.memoryOutbox = [] then m.busStep D.add .applyWrite else none
  | .finish => m.finish D.add
  | .report => m.report
  | .setReady => m.setReady
  | .consensus c => m.consensusStep D.peers D.eventHash self c
  | .finalize author eventHash tx => m.putOut (.finalizedTransaction author eventHash tx)
  | .sendConsensus => m.sendConsensus

def act (self : PeerId) (_ : Bool) (m : Machine limit Sync B) (a : MachineAct Sync B) :
    Option (MachineReaction limit Sync B) :=
  if self ∈ D.peers then D.machineAct self m a else none

/-- The code of the machines; a choice is whether a packet is lost. -/
def actors : Actors PeerId (Machine limit Sync B) (Packet Sync B) (Output B) Bool
    (MachineAct Sync B) where
  receive := D.receive
  act := D.act

/-- A machine whose storage has just been initialised. -/
def initialMachine (p : PeerId) : Machine limit Sync B where
  behaviour := .new
  phase := .shutdown
  main := .running
  outboundIds := 0
  inboundIds := 0
  tile := (D.initialNode p).tile
  memoryOutbox := []
  instructionOutbox := []
  consensusOutbox := []
  instructionMemory := .new D.executionConfirmationsThreshold
  processorLoop := .waiting
  scheduled := 0

abbrev State (limit : Nat) (Sync : Type) (B : Nat) :=
  Actors.Config PeerId (Machine limit Sync B) (Packet Sync B) (Output B)

abbrev Action (Sync : Type) (B : Nat) := Actors.Action PeerId Bool (MachineAct Sync B)

def init : State limit Sync B := ⟨D.initialMachine, [], []⟩

def step : State limit Sync B → Action Sync B → Option (State limit Sync B) := D.actors.step

/-- A run from the initialised machines. -/
abbrev Run (as : List (Action Sync B)) (s : State limit Sync B) : Prop := Trace D.step D.init as s

end Deployment

end Swarm.Network
