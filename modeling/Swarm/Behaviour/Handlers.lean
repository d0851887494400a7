import Swarm.Consensus.Graph
import Swarm.DataMemory.Memory
import Swarm.InstructionStorage.Memory

/-!
# The node's behaviour

`Behaviour` passes events between the modules of a node and the network. A
handler is one arm of its `poll`: an event of a module to the events sent to
others. All channels are open and have room.

A request id with its response channel is the peer that asked; what the peer
waits for travels back with the response.
-/

namespace Swarm.Behaviour

open Swarm.Processor Swarm.Consensus

variable {B : Nat}

inductive Request where
  | getShard (fullShardId : FullShardId)
  | serveShard (fullShardId : FullShardId)
  deriving DecidableEq

inductive Response (B : Nat) where
  | getShard (shard : Option (Shard B))
  | serveShard (shard : Option (Shard B))
  deriving DecidableEq

/-- What the user asks for. -/
inductive InEvent (B : Nat) where
  | scheduleProgram (instructions : Instructions)
  | get (dataId : Vid)
  | put (dataId : Vid) (data : Data B)
  | listStored
  | initializeStorage

/-- What the user is told. -/
inductive OutEvent (B : Nat) where
  | scheduleOk
  | programExecuted (programId : ProgramIdentifier)
  | getResponse (response : Except DataMemory.RecollectionError (Vid × Data B))
  | putConfirmed (dataId : Vid)
  | listStoredResponse (list : List (Vid × HashMap Sid PeerId))
  | storageInitialized
  deriving DecidableEq

/-- An event that the behaviour sends to a module. -/
inductive Send (B : Nat) where
  | dataMemory (e : DataMemory.InEvent B)
  | instructionMemory (e : InstructionStorage.InEvent)
  | processor (program : Program)
  | scheduleTx (tx : Transaction)
  | knownPeersRequest
  | makeRequest (request : Request) (location : PeerId)
  | respond (origin : PeerId) (request : Request) (response : Response B)
  | user (e : OutEvent B)

/-! ## Transactions -/

def handleStorageRequestTx (dataId : Vid) (author : PeerId) : List (Send B) :=
  [.dataMemory (.storageRequestTx dataId author)]

def handleStoredTx (dataId : Vid) (shardId : Sid) (author : PeerId) : List (Send B) :=
  [.dataMemory (.storeConfirmed (dataId, shardId) author)]

def handleExecuteTx (calculateHash : Instructions → Hash) (eventHash : Hash)
    (instructions : Instructions) : List (Send B) :=
  [.instructionMemory (.finalizedProgram (.new calculateHash instructions eventHash))]

def handleExecutedTx (author : PeerId) (programId : ProgramIdentifier) : List (Send B) :=
  [.instructionMemory (.executedProgram author programId)]

def handleInitializeStorageTx (distribution : List (PeerId × Sid)) : List (Send B) :=
  [.dataMemory (.initializeStorage distribution)]

def handleTx (calculateHash : Instructions → Hash) (author : PeerId) (eventHash : Hash) :
    Transaction → List (Send B)
  | .storageRequest dataId => handleStorageRequestTx dataId author
  | .stored dataId shardId => handleStoredTx dataId shardId author
  | .execute instructions => handleExecuteTx calculateHash eventHash instructions
  | .executed programId => handleExecutedTx author programId
  | .initializeStorage distribution => handleInitializeStorageTx distribution

/-! ## Module events -/

/-- The peers that wait for the answer to a request of another node. -/
abbrev ProcessedRequests := HashMap Request (List PeerId)

/-- `processed_requests.remove(&request)`, and a response to each of the waiting peers. -/
def answer (processed : ProcessedRequests) (request : Request) (response : Response B) :
    ProcessedRequests × List (Send B) :=
  let waitingForResponse := (processed.lookup request).getD []
  (processed.erase request, waitingForResponse.map (.respond · request response))

/-- Events of the data memory. -/
def handleDataMemory (processed : ProcessedRequests) :
    DataMemory.OutEvent B → ProcessedRequests × List (Send B)
  | .serveShardRequest fullShardId location =>
    (processed, [.makeRequest (.serveShard fullShardId) location])
  | .serveShardResponse fullShardId shard =>
    answer processed (.serveShard fullShardId) (.serveShard shard)
  | .assignedStoreSuccess fullShardId =>
    (processed, [.scheduleTx (.stored fullShardId.1 fullShardId.2)])
  | .assignedResponse fullShardId shard =>
    answer processed (.getShard fullShardId) (.getShard shard)
  | .distributionSufficient _ => (processed, [])
  | .distributionFull dataId => (processed, [.user (.putConfirmed dataId)])
  | .listDistributed list => (processed, [.user (.listStoredResponse list)])
  | .preparedServiceResponse dataId => (processed, [.scheduleTx (.storageRequest dataId)])
  | .assignedRequest fullShardId location =>
    (processed, [.makeRequest (.getShard fullShardId) location])
  | .recollectResponse response => (processed, [.user (.getResponse response)])
  | .initialized => (processed, [.user .storageInitialized])

/-- Events of the user interaction. -/
def handleUser : InEvent B → List (Send B)
  | .scheduleProgram instructions => [.scheduleTx (.execute instructions), .user .scheduleOk]
  | .get dataId => [.dataMemory (.recollectRequest dataId)]
  | .put dataId data => [.dataMemory (.prepareServiceRequest dataId data)]
  | .listStored => [.dataMemory .listDistributed]
  | .initializeStorage => [.knownPeersRequest]

/-- The processor's `FinishedExecution`; the results are only logged. -/
def handleProcessor (programId : ProgramIdentifier) : List (Send B) :=
  [.scheduleTx (.executed programId)]

/-- Events of the instruction memory. -/
def handleInstructionMemory : InstructionStorage.OutEvent → List (Send B)
  | .nextProgram program => [.processor program]
  | .finishedExecution programId => [.user (.programExecuted programId)]
  | .peerShardsActualized _ peer updatedDataIds =>
    [.dataMemory (.peerShardsActualized peer updatedDataIds)]

/-- The peers that consensus or the network know, in some order: shard ids are handed out in
that order. -/
def handleKnownPeers (peers : List PeerId) : List (Send B) :=
  [.scheduleTx (.initializeStorage (peers.zipIdx.map fun p => (p.1, ⟨p.2⟩)))]

/-- A response to the request this node made. -/
def handleResponse : Request → Response B → List (Send B)
  | .getShard fullShardId, .getShard shard => [.dataMemory (.assignedResponse fullShardId shard)]
  | .serveShard fullShardId, .serveShard shard =>
    [.dataMemory (.serveShardResponse fullShardId shard)]
  | _, _ => []

/-- A request of the peer `origin`. -/
def handleIncomingRequest (processed : ProcessedRequests) (origin : PeerId) (request : Request) :
    ProcessedRequests × List (Send B) :=
  let event : DataMemory.InEvent B := match request with
    | .getShard fullShardId => .assignedRequest fullShardId
    | .serveShard fullShardId => .serveShardRequest fullShardId
  (processed.insert request ((processed.lookup request).getD [] ++ [origin]), [.dataMemory event])

end Swarm.Behaviour
