import Swarm.DataMemory.Memory
import Swarm.Encoding.OneParity

/-!
# The event loop of the data memory

`turn` is one pass of the `select!`: an input event or an exchange on the
memory bus. `memory_survives_iff`: the loop goes on for ever exactly as long as
no notification about an unassigned peer comes in.
-/

namespace Swarm.DataMemory

open Swarm.Encoding

variable {B : Nat}

/-- What the loop wakes up for. -/
inductive Input (B : Nat) where
  | event (order : HashOrder) (e : InEvent B)
  | busRead (dataId : Vid)
  | busWrite (dataId : Vid) (shard : Shard B)

/-- A notification about program results is about a peer with an assigned shard. -/
def Input.Assigned (distribution : HashMap PeerId Sid) : Input B → Prop
  | .event _ (.peerShardsActualized peer _) => peer ∈ distribution
  | _ => True

/-- The event neither puts data nor reports a location. -/
def InEvent.Silent : InEvent B → Prop
  | .prepareServiceRequest _ _ | .storeConfirmed _ _ | .peerShardsActualized _ _ => False
  | _ => True

namespace InitializedDataMemory

/-- One pass of the loop. The answer to a bus read goes to the reader, not to the output. -/
def turn (m : InitializedDataMemory B) : Input B → Step B
  | .event order e => m.handle order e
  | .busRead _ => .next m []
  | .busWrite dataId shard => .next (m.busWrite dataId shard) []

/-! ## What an assembly changes -/

/-- The memories differ in the data being assembled at most. -/
def SameButAssembled (m m' : InitializedDataMemory B) : Prop :=
  ∃ a, m' = { m with currentlyAssembled := a }

theorem SameButAssembled.refl (m : InitializedDataMemory B) : SameButAssembled m m :=
  ⟨m.currentlyAssembled, rfl⟩

theorem SameButAssembled.trans {m₁ m₂ m₃ : InitializedDataMemory B}
    (h : SameButAssembled m₁ m₂) (h' : SameButAssembled m₂ m₃) : SameButAssembled m₁ m₃ := by
  obtain ⟨a, rfl⟩ := h
  obtain ⟨b, rfl⟩ := h'
  exact ⟨b, rfl⟩

/-- An output of a recollection: a request for a shard or the assembled data. -/
def IsRecollection : OutEvent B → Prop
  | .assignedRequest _ _ | .recollectResponse _ => True
  | _ => False

variable {m m' : InitializedDataMemory B} {order : HashOrder} {out : List (OutEvent B)}

theorem handleAssignedResponse_next {f : FullShardId} {shard : Option (Shard B)}
    (h : m.handleAssignedResponse f shard = .next m' out) :
    SameButAssembled m m' ∧ ∀ o ∈ out, IsRecollection o := by
  unfold handleAssignedResponse at h
  split at h
  · cases h; exact ⟨.refl m, by simp⟩
  · split at h
    · cases h; exact ⟨.refl m, by simp⟩
    · split at h
      · cases h; exact ⟨.refl m, by simp⟩
      · dsimp only at h
        split at h
        · split at h
          · cases h; exact ⟨⟨_, rfl⟩, by simp [IsRecollection]⟩
          · cases h; exact ⟨⟨_, rfl⟩, by simp⟩
          · cases h
        · cases h; exact ⟨⟨_, rfl⟩, by simp⟩

theorem gather_next {v : Vid} {locations : List (Sid × PeerId)}
    (h : gather m v locations = .next m' out) :
    SameButAssembled m m' ∧ ∀ o ∈ out, IsRecollection o := by
  induction locations generalizing m out with
  | nil => cases h; exact ⟨.refl _, by simp⟩
  | cons p rest ih =>
    obtain ⟨s, owner⟩ := p
    obtain ⟨t, o, o', ht, hg, rfl⟩ := Turn.andThen_eq_next.1 h
    obtain ⟨hsame, hout⟩ := ih hg
    have hstep : SameButAssembled m t ∧ ∀ e ∈ o, IsRecollection e := by
      split at ht
      · exact handleAssignedResponse_next ht
      · cases ht; exact ⟨.refl m, by simp [IsRecollection]⟩
    refine ⟨hstep.1.trans hsame, fun e he => ?_⟩
    rcases List.mem_append.1 he with he | he
    · exact hstep.2 e he
    · exact hout e he

theorem handleRecollectRequest_next {v : Vid}
    (h : m.handleRecollectRequest order v = .next m' out) :
    SameButAssembled m m' ∧ ∀ o ∈ out, IsRecollection o := by
  unfold handleRecollectRequest at h
  split at h
  · cases h; exact ⟨.refl m, by simp [IsRecollection]⟩
  · split at h
    · cases h; exact ⟨.refl m, by simp [IsRecollection]⟩
    · split at h
      · cases h; exact ⟨.refl m, by simp⟩
      · obtain ⟨hsame, hout⟩ := gather_next h
        exact ⟨SameButAssembled.trans ⟨_, rfl⟩ hsame, hout⟩

/-! ## What an event changes -/

/-- The shard that an event puts into the local storage. -/
def stores (m : InitializedDataMemory B) : InEvent B → Option (FullShardId × Shard B)
  | .serveShardResponse fullShardId (some shard) => some (fullShardId, shard)
  | .storageRequestTx dataId author =>
    match m.assignedShardId with
    | some sid =>
      if author = m.localId then (m.serveShard (dataId, sid)).map fun x => ((dataId, sid), x)
      else none
    | none => none
  | _ => none

/-- A shard is stored when it was pulled, and by the author of a storage request. -/
theorem stores_cases {e : InEvent B} {f : FullShardId} {x : Shard B}
    (h : m.stores e = some (f, x)) :
    e = .serveShardResponse f (some x) ∨
      e = .storageRequestTx f.1 m.localId ∧ m.assignedShardId = some f.2 ∧
        m.serveShard f = some x := by
  cases e with
  | serveShardResponse g shard =>
    cases shard with
    | none => cases h
    | some y => cases h; exact .inl rfl
  | storageRequestTx v author =>
    simp only [stores] at h
    cases hs : m.assignedShardId with
    | none => simp [hs] at h
    | some sid =>
      simp only [hs] at h
      split at h
      · rename_i hauthor
        obtain ⟨y, hy, he⟩ := Option.map_eq_some_iff.1 h
        cases he
        exact .inr ⟨hauthor ▸ rfl, rfl, hy⟩
      · cases h
  | _ => cases h

theorem silent_of_stores {e : InEvent B} {p : FullShardId × Shard B} (h : m.stores e = some p) :
    e.Silent := by
  rcases stores_cases h with rfl | ⟨rfl, -, -⟩ <;> trivial

/-- Everything an event can change. -/
inductive Moves (m : InitializedDataMemory B) : InEvent B → InitializedDataMemory B → Prop where
  /-- At most an assembly changes, with an answer or a request. -/
  | assembled {e : InEvent B} {m' : InitializedDataMemory B} (same : SameButAssembled m m')
      (silent : e.Silent) (stores : m.stores e = none)
      (kept : (∀ f x, e ≠ .assignedResponse f (some x)) → (∀ v, e ≠ .recollectRequest v) → m' = m) :
      Moves m e m'
  | stored {e : InEvent B} {f : FullShardId} {x : Shard B} (stores : m.stores e = some (f, x)) :
      Moves m e (m.storeShard f x)
  | prepared {v : Vid} {d : Data B} {shards : HashMap Sid (Shard B)}
      (encoded : m.encoding.encode d = .ok shards) :
      Moves m (.prepareServiceRequest v d) (m.prepareToServeShards v shards)
  /-- A full distribution is not served any more. -/
  | confirmed {f : FullShardId} {location : PeerId} {served : HashMap Vid (HashMap Sid (Shard B))}
      (served_eq : served = (m.observeNewLocation f location).toDistribute ∨
        served = (m.observeNewLocation f location).toDistribute.erase f.1) :
      Moves m (.storeConfirmed f location)
        { m.observeNewLocation f location with toDistribute := served }
  | actualized {peer : PeerId} {ids : List Vid} {s : Sid}
      (keeper : m.distribution.lookup peer = some s) :
      Moves m (.peerShardsActualized peer ids)
        { m with dataKnownLocations := actualize m.dataKnownLocations s peer ids }

theorem handle_moves {e : InEvent B} (h : m.handle order e = .next m' out) : m.Moves e m' := by
  have rest : ∀ {e : InEvent B}, e.Silent → m.stores e = none → m.Moves e m := fun he hs =>
    .assembled (.refl m) he hs fun _ _ => rfl
  cases e with
  | initializeStorage _ | listDistributed => cases h; exact rest trivial rfl
  | serveShardRequest _ | assignedRequest _ => cases h; exact rest trivial rfl
  | prepareServiceRequest v d =>
    simp only [handle, handlePrepareServiceRequest] at h
    split at h
    · rename_i shards hshards
      cases h
      exact .prepared hshards
    · cases h
  | storageRequestTx v author =>
    simp only [handle, handleStorageRequestTx] at h
    cases hs : m.assignedShardId with
    | none =>
      simp only [hs] at h
      cases h
      exact rest trivial (by simp only [stores, hs])
    | some sid =>
      simp only [hs] at h
      by_cases ha : author = m.localId
      · rw [if_pos ha] at h
        cases hx : m.serveShard (v, sid) with
        | none =>
          rw [hx] at h
          cases h
          exact rest trivial (by simp only [stores, hs, ha, if_pos, hx, Option.map_none])
        | some x =>
          rw [hx] at h
          cases h
          exact .stored (by simp only [stores, hs, ha, if_pos, hx, Option.map_some])
      · rw [if_neg ha] at h
        cases h
        exact rest trivial (by simp only [stores, hs, if_neg ha])
  | serveShardResponse g shard =>
    cases shard with
    | none => cases h; exact rest trivial rfl
    | some x => cases h; exact .stored rfl
  | storeConfirmed g location =>
    simp only [handle, handleStoreConfirmed] at h
    split at h
    · cases h; exact .confirmed (.inl rfl)
    · split at h
      · cases h; exact .confirmed (.inr rfl)
      · cases h; exact .confirmed (.inl rfl)
  | assignedResponse g shard =>
    refine .assembled (handleAssignedResponse_next h).1 trivial rfl fun hanswer _ => ?_
    cases shard with
    | none => cases h; rfl
    | some x => exact absurd rfl (hanswer g x)
  | recollectRequest v =>
    exact .assembled (handleRecollectRequest_next h).1 trivial rfl fun _ hrequest =>
      absurd rfl (hrequest v)
  | peerShardsActualized peer ids =>
    simp only [handle, handlePeerShardsActualized] at h
    split at h
    · cases h
    · rename_i s hs
      cases h
      exact .actualized hs

/-! ## What no turn changes -/

theorem SameButAssembled.fixed (h : SameButAssembled m m') :
    m'.distribution = m.distribution ∧ m'.encoding = m.encoding ∧ m'.localId = m.localId := by
  obtain ⟨a, rfl⟩ := h
  exact ⟨rfl, rfl, rfl⟩

theorem handle_fixed {e : InEvent B} (h : m.handle order e = .next m' out) :
    m'.distribution = m.distribution ∧ m'.encoding = m.encoding ∧ m'.localId = m.localId := by
  cases handle_moves h with
  | assembled same _ _ _ => exact same.fixed
  | stored _ | prepared _ | confirmed _ | actualized _ => exact ⟨rfl, rfl, rfl⟩

/-- Only an answer with a shard and a request change an assembly. -/
theorem currentlyAssembled_handle {e : InEvent B} (h : m.handle order e = .next m' out)
    (hanswer : ∀ f x, e ≠ .assignedResponse f (some x)) (hrequest : ∀ v, e ≠ .recollectRequest v) :
    m'.currentlyAssembled = m.currentlyAssembled := by
  cases handle_moves h with
  | assembled _ _ _ kept => rw [kept hanswer hrequest]
  | stored _ | prepared _ | confirmed _ | actualized _ => rfl

theorem turn_fixed {i : Input B} (h : m.turn i = .next m' out) :
    m'.distribution = m.distribution ∧ m'.encoding = m.encoding ∧ m'.localId = m.localId := by
  cases i with
  | event order e => exact handle_fixed h
  | busRead v => cases h; exact ⟨rfl, rfl, rfl⟩
  | busWrite v x =>
    cases h
    unfold busWrite
    split <;> exact ⟨rfl, rfl, rfl⟩

/-! ## The shards kept -/

theorem SameButAssembled.getShard (h : SameButAssembled m m') (f : FullShardId) :
    m'.getShard f = m.getShard f := by
  obtain ⟨a, rfl⟩ := h
  rfl

theorem getShard_handle {e : InEvent B} (h : m.handle order e = .next m' out) (f : FullShardId) :
    m'.getShard f = match m.stores e with
      | some (g, x) => if f = g then some x else m.getShard f
      | none => m.getShard f := by
  cases handle_moves h with
  | assembled same _ stores _ => rw [stores, same.getShard f]
  | stored stores => rw [stores, getShard_storeShard]
  | prepared _ | confirmed _ | actualized _ => rfl

/-! ## The loop goes on -/

/-- The coder keeps the crate's contract for some code. -/
def Works (w : ReedSolomonWrapper) : Prop :=
  ∃ C : MdsCode UInt8 dataShardsCount w.inner.totalShardCount, w.inner.Implements C

theorem handleAssignedResponse_continues (hw : Works m.encoding) (hB : 0 < B) (f : FullShardId)
    (shard : Option (Shard B)) : (m.handleAssignedResponse f shard).Continues := by
  obtain ⟨C, hC⟩ := hw
  unfold handleAssignedResponse
  split
  · trivial
  · split
    · trivial
    · split
      · trivial
      · dsimp only
        split
        · split
          · trivial
          · trivial
          · rename_i hd
            exact absurd hd (decode_ne_panic hC hB _)
        · trivial

theorem gather_continues (hw : Works m.encoding) (hB : 0 < B) (v : Vid)
    (locations : List (Sid × PeerId)) : (gather m v locations).Continues := by
  induction locations generalizing m with
  | nil => trivial
  | cons p rest ih =>
    obtain ⟨s, owner⟩ := p
    unfold gather
    split
    · obtain ⟨t, o, ht⟩ := Turn.continues_iff.1
        (handleAssignedResponse_continues hw hB (v, s) (m.getShard (v, s)))
      obtain ⟨⟨a, rfl⟩, -⟩ := handleAssignedResponse_next ht
      obtain ⟨t', o', ht'⟩ := Turn.continues_iff.1 (ih (m := { m with currentlyAssembled := a }) hw)
      rw [ht, Turn.andThen, ht']
      trivial
    · obtain ⟨t', o', ht'⟩ := Turn.continues_iff.1 (ih hw)
      rw [Turn.andThen, ht']
      trivial

theorem handleStorageRequestTx_continues (v : Vid) (author : PeerId) :
    (m.handleStorageRequestTx v author).Continues := by
  unfold handleStorageRequestTx
  split
  · trivial
  · split
    · unfold handleServeShardResponse
      split <;> trivial
    · trivial

theorem handleStoreConfirmed_continues (f : FullShardId) (location : PeerId) :
    (m.handleStoreConfirmed f location).Continues := by
  unfold handleStoreConfirmed
  dsimp only
  split
  · trivial
  · split <;> trivial

theorem handleRecollectRequest_continues (hw : Works m.encoding) (hB : 0 < B) (v : Vid) :
    (m.handleRecollectRequest order v).Continues := by
  unfold handleRecollectRequest
  split
  · trivial
  · split
    · trivial
    · split
      · trivial
      · exact gather_continues
          (m := { m with currentlyAssembled := m.currentlyAssembled.insert v ∅ }) hw hB v _

/-- **One turn** goes on exactly when it is no notification about an unassigned peer. -/
theorem turn_continues_iff (hw : Works m.encoding) (hB : 0 < B) (i : Input B) :
    (m.turn i).Continues ↔ i.Assigned m.distribution := by
  cases i with
  | busRead v | busWrite v x => exact iff_of_true trivial trivial
  | event order e =>
    cases e with
    | initializeStorage _ | listDistributed => exact iff_of_true trivial trivial
    | serveShardRequest _ | assignedRequest _ => exact iff_of_true trivial trivial
    | prepareServiceRequest v d =>
      refine iff_of_true ?_ trivial
      obtain ⟨C, hC⟩ := hw
      simp only [turn, handle, handlePrepareServiceRequest, encode_eq hC hB]
      trivial
    | storageRequestTx v author =>
      exact iff_of_true (handleStorageRequestTx_continues v author) trivial
    | serveShardResponse f shard => cases shard <;> exact iff_of_true trivial trivial
    | storeConfirmed f location =>
      exact iff_of_true (handleStoreConfirmed_continues f location) trivial
    | assignedResponse f shard =>
      exact iff_of_true (handleAssignedResponse_continues hw hB f shard) trivial
    | recollectRequest v => exact iff_of_true (handleRecollectRequest_continues hw hB v) trivial
    | peerShardsActualized peer ids =>
      change (m.handlePeerShardsActualized peer ids).Continues ↔ peer ∈ m.distribution
      rw [← Finmap.lookup_isSome]
      unfold handlePeerShardsActualized
      cases h : m.distribution.lookup peer with
      | none => simp
      | some s => simp

/-- **Survival**: whatever the state, a run of the loop never panics or returns exactly when
every notification about program results names a peer with an assigned shard. -/
theorem memory_survives_iff {C : MdsCode UInt8 dataShardsCount m.encoding.inner.totalShardCount}
    (hw : m.encoding.inner.Implements C) (hB : 0 < B) (is : List (Input B)) :
    (Turn.loop turn m is).Continues ↔ ∀ i ∈ is, i.Assigned m.distribution := by
  refine Turn.loop_continues_iff
    (I := fun s => s.distribution = m.distribution ∧ s.encoding = m.encoding) ?_ ?_ ⟨rfl, rfl⟩
  · rintro s i s' o ⟨hd, he⟩ h
    obtain ⟨hd', he', -⟩ := turn_fixed h
    exact ⟨hd'.trans hd, he'.trans he⟩
  · rintro s i ⟨hd, he⟩
    rw [turn_continues_iff (he ▸ ⟨C, hw⟩) hB, hd]

/-- Peer `i` of the sample network. -/
def samplePeer (i : UInt8) : PeerId := ⟨[i]⟩

/-- Three peers, one shard each, seen from peer 0. -/
def sampleMemory : InitializedDataMemory B :=
  UninitializedDataMemory.initializeWith ⟨OneParity.wrapper, samplePeer 0⟩
    ((((∅ : HashMap PeerId Sid).insert (samplePeer 0) ⟨0⟩).insert (samplePeer 1) ⟨1⟩).insert
      (samplePeer 2) ⟨2⟩)

/-- Peer `i` reports new shards of address 0. -/
def sampleNotice (i : UInt8) : Input 4 :=
  .event default (.peerShardsActualized (samplePeer i) [⟨0⟩])

theorem memory_survives_iff_sample :
    (Turn.loop turn sampleMemory [sampleNotice 1, sampleNotice 3]).Continues ↔
      ∀ i ∈ [sampleNotice 1, sampleNotice 3], i.Assigned (sampleMemory (B := 4)).distribution :=
  memory_survives_iff (m := sampleMemory (B := 4)) OneParity.coder_implements (by decide) _

/-- Storage is initialised for peers 0, 1 and 2. An `Executed` of peer 3, which joined later,
ends the loop. -/
theorem unassigned_peer_ends_loop :
    ∃ (m : InitializedDataMemory 4) (out : List (OutEvent 4)),
      UninitializedDataMemory.handle ⟨OneParity.wrapper, samplePeer 0⟩
        (.initializeStorage
          [(samplePeer 0, ⟨0⟩), (samplePeer 1, ⟨1⟩), (samplePeer 2, ⟨2⟩)]) = some (m, out) ∧
      m.turn (sampleNotice 3) = .stop :=
  ⟨sampleMemory, [.initialized], rfl, rfl⟩

end InitializedDataMemory

end Swarm.DataMemory
