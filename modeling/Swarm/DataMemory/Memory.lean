import Swarm.Encoding.ReedSolomon

/-!
# The data memory

`InitializedDataMemory` keeps the shards assigned to this peer, the shards it
serves while a put is distributed, the shards collected for a recollection and
the known locations of all shards. `handle` is the `match` of its event loop:
one input event to the next state and the events sent out. The channels are
open: a send succeeds. `busRead` and `busWrite` are the loop's two branches for
the memory bus.

Loops over hash maps take the iteration order from a `HashOrder`.
-/

namespace Swarm.DataMemory

open Swarm.Encoding

variable {B : Nat}

inductive RecollectionError where
  | unknownDataId
  | notEnoughShards
  deriving DecidableEq

inductive OutEvent (B : Nat) where
  | initialized
  | preparedServiceResponse (dataId : Vid)
  | serveShardRequest (fullShardId : FullShardId) (location : PeerId)
  | serveShardResponse (fullShardId : FullShardId) (shard : Option (Shard B))
  | assignedStoreSuccess (fullShardId : FullShardId)
  | distributionSufficient (dataId : Vid)
  | distributionFull (dataId : Vid)
  | assignedResponse (fullShardId : FullShardId) (shard : Option (Shard B))
  | assignedRequest (fullShardId : FullShardId) (location : PeerId)
  | listDistributed (list : List (Vid × HashMap Sid PeerId))
  | recollectResponse (response : Except RecollectionError (Vid × Data B))
  deriving DecidableEq

inductive InEvent (B : Nat) where
  | initializeStorage (distribution : List (PeerId × Sid))
  | prepareServiceRequest (dataId : Vid) (data : Data B)
  | storageRequestTx (dataId : Vid) (author : PeerId)
  | serveShardResponse (fullShardId : FullShardId) (shard : Option (Shard B))
  | serveShardRequest (fullShardId : FullShardId)
  | storeConfirmed (fullShardId : FullShardId) (location : PeerId)
  | assignedRequest (fullShardId : FullShardId)
  | assignedResponse (fullShardId : FullShardId) (shard : Option (Shard B))
  | listDistributed
  | recollectRequest (dataId : Vid)
  | peerShardsActualized (peer : PeerId) (updatedDataIds : List Vid)
  deriving DecidableEq

/-- The iteration orders of one pass of the loop. -/
structure HashOrder where
  vids : KeyOrder Vid
  sids : KeyOrder Sid
  deriving Inhabited

structure InitializedDataMemory (B : Nat) where
  localStorage : HashMap Vid (HashMap Sid (Shard B))
  toDistribute : HashMap Vid (HashMap Sid (Shard B))
  currentlyAssembled : HashMap Vid (HashMap Sid (Shard B))
  distribution : HashMap PeerId Sid
  dataKnownLocations : HashMap Vid (HashMap Sid PeerId)
  localId : PeerId
  encoding : ReedSolomonWrapper

/-! ## Initialisation -/

structure UninitializedDataMemory where
  encoding : ReedSolomonWrapper
  localId : PeerId

namespace UninitializedDataMemory

variable (u : UninitializedDataMemory)

/-- The distribution names exactly the shard ids below the total. -/
def verifyDistribution (distribution : HashMap PeerId Sid) : Bool :=
  (distribution.entries.map Sigma.snd).toFinset =
    (Finset.range u.encoding.settings.dataShardsTotal).image Sid.mk

def initializeWith (distribution : HashMap PeerId Sid) : InitializedDataMemory B where
  localStorage := ∅
  toDistribute := ∅
  currentlyAssembled := ∅
  distribution := distribution
  dataKnownLocations := ∅
  localId := u.localId
  encoding := u.encoding

/-- One event before initialisation: the initialised memory, once a valid distribution
arrives. Every other event is ignored. -/
def handle : InEvent B → Option (InitializedDataMemory B × List (OutEvent B))
  | .initializeStorage distribution =>
    let distribution : HashMap PeerId Sid :=
      distribution.foldl (fun m p => m.insert p.1 p.2) ∅
    if u.verifyDistribution distribution then
      some (u.initializeWith distribution, [.initialized])
    else none
  | _ => none

end UninitializedDataMemory

/-! ## Operations -/

namespace InitializedDataMemory

variable (m : InitializedDataMemory B)

def assignedShardId : Option Sid := m.distribution.lookup m.localId

def sufficientShards : Nat := m.encoding.settings.dataShardsSufficient

def totalShards : Nat := m.encoding.settings.dataShardsTotal

def getShard (fullShardId : FullShardId) : Option (Shard B) :=
  (m.localStorage.lookup fullShardId.1).bind fun shards => shards.lookup fullShardId.2

def storeShard (fullShardId : FullShardId) (data : Shard B) : InitializedDataMemory B :=
  let shards := (m.localStorage.orDefault fullShardId.1).insert fullShardId.2 data
  { m with localStorage := m.localStorage.insert fullShardId.1 shards }

def observeNewLocation (fullShardId : FullShardId) (location : PeerId) :
    InitializedDataMemory B :=
  let toDistribute := match m.toDistribute.lookup fullShardId.1 with
    | some distributedShards =>
      m.toDistribute.insert fullShardId.1 (distributedShards.erase fullShardId.2)
    | none => m.toDistribute
  let shards := (m.dataKnownLocations.orDefault fullShardId.1).insert fullShardId.2 location
  { m with
    toDistribute := toDistribute
    dataKnownLocations := m.dataKnownLocations.insert fullShardId.1 shards }

def prepareToServeShards (dataId : Vid) (shards : HashMap Sid (Shard B)) :
    InitializedDataMemory B :=
  { m with toDistribute := m.toDistribute.insert dataId shards }

def serveShard (fullShardId : FullShardId) : Option (Shard B) :=
  (m.toDistribute.lookup fullShardId.1).bind fun shards => shards.lookup fullShardId.2

abbrev Step (B : Nat) := Turn (InitializedDataMemory B) (OutEvent B)

def handleServeShardResponse (fullShardId : FullShardId) : Option (Shard B) → Step B
  | none => .next m []
  | some shard => .next (m.storeShard fullShardId shard) [.assignedStoreSuccess fullShardId]

def handleAssignedResponse (fullShardId : FullShardId) : Option (Shard B) → Step B
  | none => .next m []
  | some shard =>
    match m.currentlyAssembled.lookup fullShardId.1 with
    -- likely already assembled
    | none => .next m []
    | some receivedShards =>
      if fullShardId.2 ∈ receivedShards then .next m []
      else
        let receivedShards := receivedShards.insert fullShardId.2 shard
        if receivedShards.len ≥ m.sufficientShards then
          let m := { m with currentlyAssembled := m.currentlyAssembled.erase fullShardId.1 }
          match m.encoding.decode receivedShards with
          | .ok data => .next m [.recollectResponse (.ok (fullShardId.1, data))]
          | .err _ => .next m []
          | .panic => .panic
        else
          let assembled := m.currentlyAssembled.insert fullShardId.1 receivedShards
          .next { m with currentlyAssembled := assembled } []

/-- The loop of a recollection over the known locations: local shards are used at once, the
others are requested from their owners. -/
def gather (m : InitializedDataMemory B) (dataId : Vid) : List (Sid × PeerId) → Step B
  | [] => .next m []
  | (shardId, owner) :: rest =>
    (if owner = m.localId then
      m.handleAssignedResponse (dataId, shardId) (m.getShard (dataId, shardId))
    else .next m [.assignedRequest (dataId, shardId) owner]).andThen fun m => gather m dataId rest

/-- The known locations after `peer` reported new shards `shardId` of the given data. -/
def actualize (locations : HashMap Vid (HashMap Sid PeerId)) (shardId : Sid) (peer : PeerId)
    (updatedDataIds : List Vid) : HashMap Vid (HashMap Sid PeerId) :=
  updatedDataIds.foldl (fun ls v => ls.insert v ((ls.orDefault v).insert shardId peer)) locations

/-! ## Event handling -/

def handlePrepareServiceRequest (dataId : Vid) (data : Data B) : Step B :=
  match m.encoding.encode data with
  | .ok shards => .next (m.prepareToServeShards dataId shards) [.preparedServiceResponse dataId]
  -- `expect` on the encoding result
  | _ => .panic

def handleStorageRequestTx (dataId : Vid) (author : PeerId) : Step B :=
  match m.assignedShardId with
  | none => .next m []
  | some assignedSid =>
    if author = m.localId then
      m.handleServeShardResponse (dataId, assignedSid) (m.serveShard (dataId, assignedSid))
    else .next m [.serveShardRequest (dataId, assignedSid) author]

def handleStoreConfirmed (fullShardId : FullShardId) (location : PeerId) : Step B :=
  let m := m.observeNewLocation fullShardId location
  match m.dataKnownLocations.lookup fullShardId.1 with
  | none => .next m []
  | some locations =>
    let sufficient : List (OutEvent B) :=
      if locations.len = m.sufficientShards then [.distributionSufficient fullShardId.1] else []
    if locations.len = m.totalShards then
      .next { m with toDistribute := m.toDistribute.erase fullShardId.1 }
        (sufficient ++ [.distributionFull fullShardId.1])
    else .next m sufficient

def handleRecollectRequest (order : HashOrder) (dataId : Vid) : Step B :=
  match m.dataKnownLocations.lookup dataId with
  | none => .next m [.recollectResponse (.error .unknownDataId)]
  | some knownLocations =>
    if knownLocations.len < m.sufficientShards then
      .next m [.recollectResponse (.error .notEnoughShards)]
    else if dataId ∈ m.currentlyAssembled then .next m []
    else
      gather { m with currentlyAssembled := m.currentlyAssembled.insert dataId ∅ } dataId
        (knownLocations.iter order.sids)

def handlePeerShardsActualized (peer : PeerId) (updatedDataIds : List Vid) : Step B :=
  match m.distribution.lookup peer with
  | none => .stop
  | some expectedShardId =>
    let locations := actualize m.dataKnownLocations expectedShardId peer updatedDataIds
    .next { m with dataKnownLocations := locations } []

def handle (order : HashOrder) : InEvent B → Step B
  | .initializeStorage _ => .next m []
  | .prepareServiceRequest dataId data => m.handlePrepareServiceRequest dataId data
  | .storageRequestTx dataId author => m.handleStorageRequestTx dataId author
  | .serveShardRequest fullShardId =>
    .next m [.serveShardResponse fullShardId (m.serveShard fullShardId)]
  | .serveShardResponse fullShardId shard => m.handleServeShardResponse fullShardId shard
  | .storeConfirmed fullShardId location => m.handleStoreConfirmed fullShardId location
  | .assignedRequest fullShardId =>
    .next m [.assignedResponse fullShardId (m.getShard fullShardId)]
  | .listDistributed =>
    .next m [.listDistributed ((m.dataKnownLocations.iter order.vids).filter fun p =>
      m.sufficientShards ≤ p.2.len)]
  | .recollectRequest dataId => m.handleRecollectRequest order dataId
  | .assignedResponse fullShardId shard => m.handleAssignedResponse fullShardId shard
  | .peerShardsActualized peer updatedDataIds => m.handlePeerShardsActualized peer updatedDataIds

/-! ## The memory bus -/

/-- The answer to a bus read: the first of the shards stored for `dataId`. -/
def busRead (order : HashOrder) (dataId : Vid) : Option (Shard B) :=
  let shards := match m.localStorage.lookup dataId with
    | some mapping => (mapping.iter order.sids).map Prod.snd
    | none => []
  shards[0]?

/-- A bus write: stored under the assigned shard id, dropped if there is none. -/
def busWrite (dataId : Vid) (shard : Shard B) : InitializedDataMemory B :=
  match m.assignedShardId with
  | none => m
  | some assignedSid => m.storeShard (dataId, assignedSid) shard

/-! ## Local storage -/

section Storage

variable {m : InitializedDataMemory B}

@[simp] theorem assignedShardId_storeShard (f : FullShardId) (x : Shard B) :
    (m.storeShard f x).assignedShardId = m.assignedShardId := rfl

theorem getShard_storeShard (f g : FullShardId) (x : Shard B) :
    (m.storeShard f x).getShard g = if g = f then some x else m.getShard g := by
  obtain ⟨v, s⟩ := f
  obtain ⟨u, t⟩ := g
  simp only [getShard, storeShard, Finmap.lookup_insert_ite, Prod.mk.injEq]
  by_cases hu : u = v
  · subst hu
    by_cases ht : t = s
    · subst ht
      simp
    · cases h : m.localStorage.lookup u <;> simp [h, ht]
  · simp [hu]

/-- A bus write changes the local storage only. -/
theorem busWrite_eq (v : Vid) (x : Shard B) :
    ∃ storage, m.busWrite v x = { m with localStorage := storage } := by
  unfold busWrite
  split
  · exact ⟨_, rfl⟩
  · exact ⟨_, rfl⟩

@[simp] theorem assignedShardId_busWrite (v : Vid) (x : Shard B) :
    (m.busWrite v x).assignedShardId = m.assignedShardId := by
  obtain ⟨storage, h⟩ := m.busWrite_eq v x
  rw [h]
  rfl

@[simp] theorem distribution_busWrite (v : Vid) (x : Shard B) :
    (m.busWrite v x).distribution = m.distribution := by
  obtain ⟨storage, h⟩ := m.busWrite_eq v x
  rw [h]

@[simp] theorem dataKnownLocations_busWrite (v : Vid) (x : Shard B) :
    (m.busWrite v x).dataKnownLocations = m.dataKnownLocations := by
  obtain ⟨storage, h⟩ := m.busWrite_eq v x
  rw [h]

@[simp] theorem currentlyAssembled_busWrite (v : Vid) (x : Shard B) :
    (m.busWrite v x).currentlyAssembled = m.currentlyAssembled := by
  obtain ⟨storage, h⟩ := m.busWrite_eq v x
  rw [h]

theorem getShard_busWrite {sid : Sid} (h : m.assignedShardId = some sid) (v : Vid) (x : Shard B)
    (g : FullShardId) :
    (m.busWrite v x).getShard g = if g = (v, sid) then some x else m.getShard g := by
  simp only [busWrite, h, getShard_storeShard]

theorem busRead_isSome {order : HashOrder} {v : Vid} :
    (m.busRead order v).isSome ↔ ∃ s, (m.getShard (v, s)).isSome := by
  unfold busRead
  cases hl : m.localStorage.lookup v with
  | none => simp [getShard, hl]
  | some mapping =>
    have hget : ∀ s, m.getShard (v, s) = mapping.lookup s := fun s => by simp [getShard, hl]
    simp only [hget]
    cases hi : mapping.iter order.sids with
    | nil =>
      refine iff_of_false (by simp) ?_
      rintro ⟨s, hs⟩
      rw [Finmap.lookup_of_iter_nil hi s] at hs
      cases hs
    | cons p rest =>
      have hp : p ∈ mapping.iter order.sids := hi ▸ List.mem_cons_self
      exact iff_of_true rfl ⟨p.1, by rw [Finmap.mem_iter.1 hp]; rfl⟩

/-- Where nothing but shard `sid` is stored, a bus read returns it. -/
theorem busRead_eq {sid : Sid} {v : Vid} (h : ∀ s, (m.getShard (v, s)).isSome → s = sid)
    (order : HashOrder) : m.busRead order v = m.getShard (v, sid) := by
  unfold busRead
  cases hl : m.localStorage.lookup v with
  | none => simp [getShard, hl]
  | some mapping =>
    have hget : ∀ s, m.getShard (v, s) = mapping.lookup s := fun s => by simp [getShard, hl]
    have hkeys : ∀ p ∈ mapping.iter order.sids, p.1 = sid := fun p hp =>
      h p.1 (by rw [hget, Finmap.mem_iter.1 hp]; rfl)
    rw [hget]
    change ((mapping.iter order.sids).map Prod.snd)[0]? = mapping.lookup sid
    cases hi : mapping.iter order.sids with
    | nil => exact (Finmap.lookup_of_iter_nil hi sid).symm
    | cons p rest =>
      have hp : p ∈ mapping.iter order.sids := hi ▸ List.mem_cons_self
      rw [← hkeys p hp, Finmap.mem_iter.1 hp]
      rfl

end Storage

end InitializedDataMemory

end Swarm.DataMemory
