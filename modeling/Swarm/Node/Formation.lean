import Swarm.Behaviour.Poll
import Swarm.Network.Distribution
import Swarm.Node.Initialization

/-!
# Forming the storage

Storage is initialised with the peers that a behaviour knows, in the order of its
hash set: the shard ids are their numbers. A memory takes such a distribution if
there are as many peers as shards, and only then. So a memory that has been
initialised is the one that the runs of the network start with, and its
distribution a bijection: `storage_formed`.
-/

namespace Swarm.Node

open Swarm.DataMemory Swarm.Consensus Swarm.Encoding Swarm.Processor Swarm.Network
open Swarm.Behaviour (MemoryModule Send handleKnownPeers)

namespace Initialization

/-- The peers with their numbers. -/
def numbered (peers : List PeerId) : List (PeerId × Sid) := peers.zipIdx.map fun p => (p.1, ⟨p.2⟩)

/-- The hash map that a memory makes of a distribution. -/
def collected (distribution : List (PeerId × Sid)) : HashMap PeerId Sid :=
  distribution.foldl (fun m p => m.insert p.1 p.2) ∅

section Numbered

variable {peers : List PeerId}

theorem mem_numbered {p : PeerId} {s : Sid} :
    (p, s) ∈ numbered peers ↔ peers[s.val]? = some p := by
  rw [← List.mk_mem_zipIdx_iff_getElem?, numbered, List.mem_map]
  constructor
  · rintro ⟨e, he, heq⟩
    cases heq
    exact he
  · intro h
    exact ⟨_, h, rfl⟩

theorem exists_getElem? {i : Nat} : (∃ p, peers[i]? = some p) ↔ i < peers.length := by
  rw [← Option.isSome_iff_exists]
  simp

theorem map_fst_numbered (peers : List PeerId) : (numbered peers).map Prod.fst = peers := by
  rw [numbered, List.map_map]
  exact List.zipIdx_map_fst ..

theorem lookup_numbered (nodup : peers.Nodup) {p : PeerId} {s : Sid} :
    (collected (numbered peers)).lookup p = some s ↔ peers[s.val]? = some p := by
  have hnodup : ((numbered peers).map Prod.fst).Nodup := by rwa [map_fst_numbered]
  rw [collected, Finmap.lookup_foldl_insert hnodup, ← mem_numbered]
  simp

/-- A distribution is valid if its values are the shard ids. -/
theorem verifyDistribution_iff {u : UninitializedDataMemory} {d : HashMap PeerId Sid} :
    u.verifyDistribution d = true ↔
      ∀ s, (∃ p, d.lookup p = some s) ↔ s.val < u.encoding.settings.dataShardsTotal := by
  have hvalues : ∀ s, s ∈ (d.entries.map Sigma.snd).toFinset ↔ ∃ p, d.lookup p = some s := by
    intro s
    rw [Multiset.mem_toFinset, Multiset.mem_map]
    constructor
    · rintro ⟨e, he, rfl⟩
      exact ⟨e.1, Finmap.lookup_eq_some_iff.2 he⟩
    · rintro ⟨p, hp⟩
      exact ⟨⟨p, s⟩, Finmap.lookup_eq_some_iff.1 hp, rfl⟩
  have hids : ∀ s : Sid, s ∈ (Finset.range u.encoding.settings.dataShardsTotal).image Sid.mk ↔
      s.val < u.encoding.settings.dataShardsTotal := by
    intro s
    rw [Finset.mem_image]
    constructor
    · rintro ⟨i, hi, rfl⟩
      exact Finset.mem_range.1 hi
    · intro hs
      exact ⟨s.val, Finset.mem_range.2 hs, rfl⟩
  rw [UninitializedDataMemory.verifyDistribution, decide_eq_true_iff, Finset.ext_iff]
  exact forall_congr' fun s => by rw [hvalues, hids]

/-- **Numbered peers are a valid distribution** if there are as many as shards. -/
theorem validInit_numbered {encoding : ReedSolomonWrapper} (nodup : peers.Nodup) :
    validInit encoding (.initializeStorage (numbered peers)) =
      if peers.length = encoding.settings.dataShardsTotal then some (collected (numbered peers))
      else none := by
  have hsids : ∀ s : Sid, (∃ p, (collected (numbered peers)).lookup p = some s) ↔
      s.val < peers.length := fun s => by
    simp only [lookup_numbered nodup, exists_getElem?]
  have hvalid : UninitializedDataMemory.verifyDistribution ⟨encoding, ⟨[]⟩⟩
      (collected (numbered peers)) = true ↔
        peers.length = encoding.settings.dataShardsTotal := by
    rw [verifyDistribution_iff]
    constructor
    · intro h
      have hlt : ∀ i, i < peers.length ↔ i < encoding.settings.dataShardsTotal :=
        fun i => (hsids ⟨i⟩).symm.trans (h ⟨i⟩)
      have hless := hlt peers.length
      have htotal := hlt encoding.settings.dataShardsTotal
      omega
    · intro hlen s
      rw [hsids, hlen]
  show (if UninitializedDataMemory.verifyDistribution ⟨encoding, ⟨[]⟩⟩
    (collected (numbered peers)) = true then some (collected (numbered peers)) else none) = _
  by_cases hlen : peers.length = encoding.settings.dataShardsTotal
  · rw [if_pos (hvalid.2 hlen), if_pos hlen]
  · rw [if_neg fun h => hlen (hvalid.1 h), if_neg hlen]

/-- A network of the numbered peers. -/
theorem bijective_numbered {S : Setup} (nodup : peers.Nodup) (hpeers : S.peers = peers)
    (hlen : peers.length = S.encoding.settings.dataShardsTotal)
    (hd : S.distribution = collected (numbered peers)) : S.Bijective := by
  have hassigned : ∀ p s, S.Assigned p s ↔ peers[s.val]? = some p := fun p s => by
    rw [Setup.Assigned, hd, lookup_numbered nodup]
  refine ⟨hpeers ▸ nodup, fun p => ?_, fun p q s hp hq => ?_, fun s => ?_⟩
  · rw [hpeers, List.mem_iff_getElem?]
    simp only [hassigned]
    constructor
    · rintro ⟨i, hi⟩
      exact ⟨⟨i⟩, hi⟩
    · rintro ⟨s, hs⟩
      exact ⟨s.val, hs⟩
  · rw [hassigned] at hp hq
    exact Option.some.inj (hp.symm.trans hq)
  · simp only [hassigned, exists_getElem?]
    rw [hlen]
    exact Iff.rfl

/-- The distribution names its peers. -/
theorem numbered_injective {peers' : List PeerId} (h : numbered peers = numbered peers') :
    peers = peers' := by
  rw [← map_fst_numbered peers, h, map_fst_numbered]

end Numbered

/-! ## Runs -/

section Runs

variable {G : Type} {limit B : Nat} {Id Chan Sync : Type} {encoding : ReedSolomonWrapper}
  {calculateHash : Instructions → Hash} {s s' : Initialization G B} {core : G}
  {peer peer' localId : PeerId} {as : List (InitializationStep B)}

/-- The step that initialises a memory leaves it as its distribution makes it. -/
theorem initialized_step {a : InitializationStep B} {u : UninitializedDataMemory}
    {m : InitializedDataMemory B} (hu : s.memory = .uninitialized u)
    (hs : s.step calculateHash a = some s') (hm : s'.memory = .initialized m) :
    m = u.initializeWith m.distribution := by
  rcases flow_step u.encoding hs with ⟨order, e, out, hhandle, -, -⟩ | ⟨-, hmemory⟩
  · rw [hu] at hhandle
    have h := handle_uninitialized hhandle
    rw [hm] at h
    split at h <;> cases h
    rfl
  · rw [hm, hu] at hmemory
    rcases hmemory with h | ⟨_, _, _, h, _⟩ <;> cases h

/-- Until it is initialised, a memory stays as it was made. -/
theorem uninitialized_run
    (run : Trace (step calculateHash) (new core peer peer' ⟨encoding, localId⟩) as s)
    {u : UninitializedDataMemory} (hu : s.memory = .uninitialized u) : u = ⟨encoding, localId⟩ := by
  refine Trace.invariant (I := fun _ (s : Initialization G B) =>
    ∀ u, s.memory = .uninitialized u → u = ⟨encoding, localId⟩) ?_ ?_ run u hu
  · intro u hu
    cases hu
    rfl
  · intro as s a s' ih hs u hu
    rcases flow_step encoding hs with ⟨order, e, out, hhandle, -, -⟩ | ⟨-, hmemory⟩
    · rw [hu] at hhandle
      cases hmem : s.memory with
      | uninitialized u' =>
        rw [hmem] at hhandle
        have h := handle_uninitialized hhandle
        split at h <;> cases h
        exact ih u hmem
      | initialized m =>
        rw [hmem] at hhandle
        simp only [MemoryModule.handle] at hhandle
        split at hhandle <;> cases hhandle
      | ended =>
        rw [hmem] at hhandle
        cases hhandle
    · rcases hmemory with h | ⟨_, _, _, _, h⟩
      · exact ih u (h.symm.trans hu)
      · rw [hu] at h
        cases h

/-- The transaction is one that a behaviour schedules when it is told the known peers. -/
theorem numbered_of_scheduled {b : Behaviour limit Id Chan Sync B} {order : KeyOrder PeerId}
    {known : List PeerId} {d : List (PeerId × Sid)}
    (h : .scheduleTx (.initializeStorage d) ∈ handleKnownPeers (B := B) (b.knownPeers order known)) :
    ∃ peers, peers.Nodup ∧ d = numbered peers := by
  cases List.mem_singleton.1 h
  exact ⟨_, order.nodup _, rfl⟩

/-- **Forming the storage**: let all initialisation transactions be scheduled by behaviours. A
memory that has been initialised got its distribution from such a transaction, over exactly as many
peers as shards, so it is a bijection; the step that initialised it left the memory that a run
of the network over these peers starts with. A memory that is still waiting when everything
recognised has reached it has met no transaction over the right number of peers. -/
theorem storage_formed
    (run : Trace (step calculateHash) (new core peer peer' ⟨encoding, localId⟩) as s)
    (scheduled : ∀ e ∈ recognized as, ∀ d, .initializeStorage d ∈ e.payload.transactions →
      ∃ (b : Behaviour limit Id Chan Sync B) (order : KeyOrder PeerId) (known : List PeerId),
        .scheduleTx (.initializeStorage d) ∈
          handleKnownPeers (B := B) (b.knownPeers order known)) :
    (∀ m, s.memory = .initialized m → ∃ e ∈ recognized as, ∃ peers,
      .initializeStorage (numbered peers) ∈ e.payload.transactions ∧
        ∀ S : Setup, S.peers = peers → S.encoding = encoding →
          S.distribution = m.distribution → S.Bijective) ∧
    (∀ u a s' m, s.memory = .uninitialized u → s.step calculateHash a = some s' →
      s'.memory = .initialized m → ∀ S : Setup, S.encoding = encoding →
        S.distribution = m.distribution → (S.initialNode localId).tile.memory = m) ∧
    (∀ u, s.memory = .uninitialized u → s.memoryInput = [] → s.consensusOutput = [] →
      s.consensus.Drained .recognized → ∀ e ∈ recognized as, ∀ peers,
        .initializeStorage (numbered peers) ∈ e.payload.transactions →
          peers.length ≠ encoding.settings.dataShardsTotal) := by
  have took := took run
  unfold Took at took
  refine ⟨fun m hm => ?_, fun u a s' m hu hs hm S hencoding hd => ?_,
    fun u hu hinput hout hdrained e he peers htx hlen => ?_⟩
  · rw [hm] at took
    obtain ⟨e, he, hd⟩ := List.mem_flatMap.1 (List.mem_of_mem_head? took)
    obtain ⟨tx, htx, hvalid⟩ := List.mem_filterMap.1 hd
    cases tx with
    | initializeStorage d =>
      obtain ⟨b, order, known, hmade⟩ := scheduled e he d htx
      obtain ⟨peers, nodup, rfl⟩ := numbered_of_scheduled hmade
      rw [validInit_numbered nodup] at hvalid
      split at hvalid
      · rename_i hlen
        refine ⟨e, he, peers, htx, fun S hpeers hencoding hdistribution => ?_⟩
        exact bijective_numbered nodup hpeers (hencoding ▸ hlen)
          (hdistribution.trans (Option.some.inj hvalid).symm)
      · cases hvalid
    | _ => cases hvalid
  · obtain rfl := uninitialized_run run hu
    rw [initialized_step hu hs hm, ← hd, ← hencoding]
    rfl
  · rw [hu] at took
    obtain ⟨b, order, known, hmade⟩ := scheduled e he _ htx
    obtain ⟨peers', nodup, heq⟩ := numbered_of_scheduled hmade
    rw [← numbered_injective heq] at nodup
    have hempty : flow encoding s = [] := by
      rw [flow, hinput, hout, upcoming, TxBuffer.pending, hdrained.1, hdrained.2]
      rfl
    have hmem : collected (numbered peers) ∈ inits encoding as :=
      List.mem_flatMap.2 ⟨e, he, List.mem_filterMap.2 ⟨_, htx, by
        rw [validInit_numbered nodup, if_pos hlen]⟩⟩
    rw [← took.2, hempty] at hmem
    cases hmem

/-- Consensus knows two peers, and a third one is connected. -/
def sampleBehaviour : Behaviour 1 Unit Unit Unit 4 :=
  Behaviour.connectionEstablished .new ⟨[2]⟩ 0

theorem storage_formed_one : ∃ (s : Initialization Unit 4) (m : InitializedDataMemory 4),
    Trace (step fun _ => ⟨fun _ => 0⟩) (new () ⟨[0]⟩ ⟨[0]⟩ ⟨OneParity.wrapper, ⟨[0]⟩⟩)
      (initSteps 0) s ∧ s.memory = .initialized m ∧
      ∃ peers : List PeerId, ∀ S : Setup, S.peers = peers → S.encoding = OneParity.wrapper →
        S.distribution = m.distribution → S.Bijective := by
  have run : Trace (step fun _ => ⟨fun _ => 0⟩)
    (new () ⟨[0]⟩ ⟨[0]⟩ ⟨OneParity.wrapper, ⟨[0]⟩⟩) (initSteps 0) _ := Trace.of_runAll rfl
  have scheduled : ∀ e ∈ recognized (initSteps 0), ∀ d,
      .initializeStorage d ∈ e.payload.transactions →
        ∃ (b : Behaviour 1 Unit Unit Unit 4) (order : KeyOrder PeerId) (known : List PeerId),
          .scheduleTx (.initializeStorage d) ∈
            handleKnownPeers (B := 4) (b.knownPeers order known) := by
    intro e he d hd
    obtain rfl := List.mem_singleton.1 he
    cases List.mem_singleton.1 hd
    obtain ⟨order, horder⟩ := (default : KeyOrder PeerId).exists_list
      (l := [⟨[0]⟩, ⟨[1]⟩, ⟨[2]⟩]) (by decide)
    have hpeers : sampleBehaviour.knownPeers order [⟨[0]⟩, ⟨[1]⟩] = [⟨[0]⟩, ⟨[1]⟩, ⟨[2]⟩] := horder
    refine ⟨sampleBehaviour, order, [⟨[0]⟩, ⟨[1]⟩], ?_⟩
    rw [hpeers]
    exact List.mem_singleton_self _
  obtain ⟨e, -, peers, -, hbijective⟩ := (storage_formed run scheduled).1 _ rfl
  exact ⟨_, _, run, rfl, peers, hbijective⟩

end Runs

end Initialization

end Swarm.Node
