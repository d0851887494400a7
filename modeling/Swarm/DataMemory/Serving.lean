import Swarm.DataMemory.Loop

/-!
# Serving a put

After a `PrepareServiceRequest` the memory serves the shards of the data until
the map of known locations is as large as the number of shards. That map also
holds locations learned before the put and from program execution.
`serves_until_complete_iff` says when the shards nobody confirmed stay
servable and the distribution is not reported full too early.
-/

namespace Swarm.DataMemory

open Swarm.Encoding

variable {B : Nat}

namespace Input

/-- The shard of `v` that the input confirms as stored. -/
def confirms (v : Vid) : Input B → Option Sid
  | .event _ (.storeConfirmed fullShardId _) => if fullShardId.1 = v then some fullShardId.2 else none
  | _ => none

/-- The shard of `v` whose location the input reports. -/
def reports (distribution : HashMap PeerId Sid) (v : Vid) : Input B → Option Sid
  | .event _ (.storeConfirmed fullShardId _) => if fullShardId.1 = v then some fullShardId.2 else none
  | .event _ (.peerShardsActualized peer ids) => if v ∈ ids then distribution.lookup peer else none
  | _ => none

def Prepares (v : Vid) : Input B → Prop
  | .event _ (.prepareServiceRequest dataId _) => dataId = v
  | _ => False

theorem reports_silent {distribution : HashMap PeerId Sid} {v : Vid} {order : HashOrder}
    {e : InEvent B} (h : e.Silent) : (event order e).reports distribution v = none := by
  cases e with
  | prepareServiceRequest _ _ | storeConfirmed _ _ | peerShardsActualized _ _ => exact h.elim
  | _ => rfl

theorem confirms_silent {v : Vid} {order : HashOrder} {e : InEvent B} (h : e.Silent) :
    (event order e).confirms v = none := by
  cases e with
  | prepareServiceRequest _ _ | storeConfirmed _ _ | peerShardsActualized _ _ => exact h.elim
  | _ => rfl

theorem confirms_reports {distribution : HashMap PeerId Sid} {v : Vid} {i : Input B} {s : Sid}
    (h : i.confirms v = some s) : i.reports distribution v = some s := by
  unfold confirms at h
  split at h
  · exact h
  · cases h

end Input

namespace InitializedDataMemory

variable {m m' : InitializedDataMemory B} {order : HashOrder} {out : List (OutEvent B)} {v : Vid}

/-- The Sids of `v` with a known location. -/
def knownSids (m : InitializedDataMemory B) (v : Vid) : Finset Sid :=
  (m.dataKnownLocations.orDefault v).keys

/-- The input passes the test for a full distribution of `v`. -/
def Completes (m : InitializedDataMemory B) (v : Vid) (i : Input B) : Prop :=
  ∃ s, i.confirms v = some s ∧ (insert s (m.knownSids v)).card = m.totalShards

/-! ## What one turn does to the locations and the served shards -/

theorem keys_actualize (ls : HashMap Vid (HashMap Sid PeerId)) (s : Sid) (peer : PeerId)
    (ids : List Vid) : ((actualize ls s peer ids).orDefault v).keys =
      if v ∈ ids then insert s (ls.orDefault v).keys else (ls.orDefault v).keys := by
  induction ids generalizing ls with
  | nil => rfl
  | cons u ids ih =>
    change ((actualize (ls.insert u ((ls.orDefault u).insert s peer)) s peer ids).orDefault v).keys = _
    rw [ih, Finmap.orDefault_insert]
    by_cases hu : v = u
    · subst hu
      simp
    · simp [hu]

theorem SameButAssembled.knownSids (h : SameButAssembled m m') (v : Vid) :
    m'.knownSids v = m.knownSids v := by
  obtain ⟨a, rfl⟩ := h
  rfl

theorem SameButAssembled.serveShard (h : SameButAssembled m m') (f : FullShardId) :
    m'.serveShard f = m.serveShard f := by
  obtain ⟨a, rfl⟩ := h
  rfl

theorem knownSids_observe (f : FullShardId) (location : PeerId) (v : Vid) :
    (m.observeNewLocation f location).knownSids v =
      if v = f.1 then insert f.2 (m.knownSids v) else m.knownSids v := by
  simp only [InitializedDataMemory.knownSids, observeNewLocation, Finmap.orDefault_insert]
  by_cases h : v = f.1
  · subst h
    simp
  · simp [h]

theorem serveShard_observe (f g : FullShardId) (location : PeerId) :
    (m.observeNewLocation f location).serveShard g = if g = f then none else m.serveShard g := by
  obtain ⟨v, s⟩ := f
  obtain ⟨u, t⟩ := g
  simp only [InitializedDataMemory.serveShard, observeNewLocation]
  cases h : m.toDistribute.lookup v with
  | none =>
    by_cases hu : u = v
    · subst hu
      simp [h]
    · simp [hu]
  | some shards =>
    simp only [Finmap.lookup_insert_ite, Prod.mk.injEq]
    by_cases hu : u = v
    · subst hu
      simp [h, Finmap.lookup_erase_ite]
    · simp [hu]

theorem handleStoreConfirmed_eq (f : FullShardId) (location : PeerId) :
    m.handleStoreConfirmed f location =
      let located := (insert f.2 (m.knownSids f.1)).card
      let sufficient : List (OutEvent B) :=
        if located = m.sufficientShards then [.distributionSufficient f.1] else []
      let m' := m.observeNewLocation f location
      if located = m.totalShards then
        .next { m' with toDistribute := m'.toDistribute.erase f.1 }
          (sufficient ++ [.distributionFull f.1])
      else .next m' sufficient := by
  have hlookup : (m.observeNewLocation f location).dataKnownLocations.lookup f.1 =
      some ((m.dataKnownLocations.orDefault f.1).insert f.2 location) := by
    simp [observeNewLocation]
  have hlen : ((m.dataKnownLocations.orDefault f.1).insert f.2 location).len =
      (insert f.2 (m.knownSids f.1)).card := by
    rw [Finmap.len, Finmap.keys_insert]
    rfl
  simp only [handleStoreConfirmed, hlookup, hlen]
  rfl

/-- A confirmation: the location is observed, and the full distribution is reported and no
longer served exactly when all shards are located. -/
theorem handleStoreConfirmed_next {f : FullShardId} {location : PeerId}
    (h : m.handleStoreConfirmed f location = .next m' out) :
    (∀ v, m'.knownSids v = (m.observeNewLocation f location).knownSids v) ∧
    (∀ v, OutEvent.distributionFull v ∈ out ↔
      v = f.1 ∧ (insert f.2 (m.knownSids f.1)).card = m.totalShards) ∧
    (∀ g, (insert f.2 (m.knownSids f.1)).card ≠ m.totalShards →
      m'.serveShard g = (m.observeNewLocation f location).serveShard g) := by
  rw [handleStoreConfirmed_eq] at h
  dsimp only at h
  by_cases hfull : (insert f.2 (m.knownSids f.1)).card = m.totalShards
  · rw [if_pos hfull] at h
    cases h
    refine ⟨fun v => rfl, fun v => ?_, fun g hg => absurd hfull hg⟩
    simp only [List.mem_append, List.mem_singleton, OutEvent.distributionFull.injEq, hfull, and_true]
    split <;> simp
  · rw [if_neg hfull] at h
    cases h
    refine ⟨fun v => rfl, fun v => ?_, fun g _ => rfl⟩
    simp only [hfull, and_false, iff_false]
    split <;> simp

/-- A confirmation for `f` does not touch what is served of other data. -/
theorem serveShard_other {f : FullShardId} {location : PeerId}
    (h : m.handleStoreConfirmed f location = .next m' out) {v : Vid} (hv : v ≠ f.1) (s : Sid) :
    m'.serveShard (v, s) = m.serveShard (v, s) := by
  have hobs : (m.observeNewLocation f location).serveShard (v, s) = m.serveShard (v, s) := by
    rw [serveShard_observe, if_neg fun e => hv (congrArg Prod.fst e)]
  have herase : ∀ t : InitializedDataMemory B,
      ({ t with toDistribute := t.toDistribute.erase f.1 } : InitializedDataMemory B).serveShard
        (v, s) = t.serveShard (v, s) := fun t => by
    simp only [InitializedDataMemory.serveShard, Finmap.lookup_erase_ite, if_neg hv]
  simp only [handleStoreConfirmed] at h
  split at h
  · cases h; exact hobs
  · split at h
    · cases h; rw [herase, hobs]
    · cases h; exact hobs

theorem knownSids_turn {i : Input B} (h : m.turn i = .next m' out) (v : Vid) :
    m'.knownSids v = m.knownSids v ∪ (i.reports m.distribution v).toFinset := by
  cases i with
  | busRead u => cases h; simp [Input.reports]
  | busWrite u x =>
    cases h
    simp [knownSids, Input.reports]
  | event order e =>
    cases handle_moves h with
    | assembled same silent _ _ => simp [same.knownSids, Input.reports_silent silent]
    | stored stores =>
      simp [Input.reports_silent (silent_of_stores stores), knownSids, storeShard]
    | prepared _ => simp [Input.reports, knownSids, prepareToServeShards]
    | @confirmed f location served _ =>
      change (m.observeNewLocation f location).knownSids v = _
      rw [knownSids_observe]
      simp only [Input.reports, eq_comm (a := v)]
      by_cases hv : f.1 = v <;> simp [hv]
    | @actualized peer ids s keeper =>
      simp only [knownSids, keys_actualize, Input.reports, keeper]
      split <;> simp

/-- Served shards of `v` disappear one by one as they are confirmed, unless the turn completes
the distribution or prepares the next one. -/
theorem serveShard_turn {i : Input B} (h : m.turn i = .next m' out) (hp : ¬ i.Prepares v)
    (hc : ¬ m.Completes v i) (s : Sid) :
    m'.serveShard (v, s) = if i.confirms v = some s then none else m.serveShard (v, s) := by
  cases i with
  | busRead u => cases h; simp [Input.confirms]
  | busWrite u x =>
    cases h
    simp only [busWrite, Input.confirms]
    split <;> rfl
  | event order e =>
    have hmoves := handle_moves h
    cases hmoves with
    | assembled same silent _ _ => simp [same.serveShard, Input.confirms_silent silent]
    | stored stores =>
      simp [Input.confirms_silent (silent_of_stores stores), serveShard, storeShard]
    | @prepared u d shards _ =>
      have hu : v ≠ u := fun e => hp e.symm
      simp [Input.confirms, serveShard, prepareToServeShards, hu]
    | @confirmed f location served _ =>
      obtain ⟨u, t⟩ := f
      by_cases hfull : (insert t (m.knownSids u)).card = m.totalShards
      · have hu : u ≠ v := by
          rintro rfl
          exact hc ⟨t, by simp [Input.confirms], hfull⟩
        rw [serveShard_other h hu.symm]
        simp [Input.confirms, hu]
      · rw [(handleStoreConfirmed_next h).2.2 _ hfull, serveShard_observe]
        have hpair : ((v, s) = (u, t)) ↔ u = v ∧ t = s := by
          rw [Prod.mk.injEq, eq_comm, eq_comm (a := s)]
        simp only [Input.confirms, hpair]
        by_cases hu : u = v <;> simp [hu]
    | actualized _ => simp [Input.confirms, serveShard]

/-- A full distribution of `v` is reported exactly by the turns that complete it. -/
theorem distributionFull_turn {i : Input B} (h : m.turn i = .next m' out) (v : Vid) :
    OutEvent.distributionFull v ∈ out ↔ m.Completes v i := by
  cases i with
  | busRead u => cases h; simp [Completes, Input.confirms]
  | busWrite u x => cases h; simp [Completes, Input.confirms]
  | event order e =>
    cases e with
    | initializeStorage _ | listDistributed => cases h; simp [Completes, Input.confirms]
    | serveShardRequest _ | assignedRequest _ => cases h; simp [Completes, Input.confirms]
    | prepareServiceRequest u d =>
      simp only [turn, handle, handlePrepareServiceRequest] at h
      split at h <;> cases h
      simp [Completes, Input.confirms]
    | storageRequestTx u author =>
      simp only [turn, handle, handleStorageRequestTx] at h
      split at h
      · cases h; simp [Completes, Input.confirms]
      · split at h
        · unfold handleServeShardResponse at h
          split at h <;> cases h <;> simp [Completes, Input.confirms]
        · cases h; simp [Completes, Input.confirms]
    | serveShardResponse f shard =>
      simp only [turn, handle, handleServeShardResponse] at h
      split at h <;> cases h <;> simp [Completes, Input.confirms]
    | storeConfirmed f location =>
      rw [(handleStoreConfirmed_next h).2.1 v]
      simp only [Completes, Input.confirms]
      by_cases hv : f.1 = v
      · subst hv
        simp
      · simp [hv, Ne.symm hv]
    | assignedResponse f shard =>
      refine iff_of_false (fun hmem => (handleAssignedResponse_next h).2 _ hmem) ?_
      simp [Completes, Input.confirms]
    | recollectRequest u =>
      refine iff_of_false (fun hmem => (handleRecollectRequest_next h).2 _ hmem) ?_
      simp [Completes, Input.confirms]
    | peerShardsActualized peer ids =>
      simp only [turn, handle, handlePeerShardsActualized] at h
      split at h <;> cases h
      simp [Completes, Input.confirms]

/-! ## A whole put -/

/-- The Sids of `v` that the inputs confirm as stored. -/
def confirmed (v : Vid) (is : List (Input B)) : List Sid := is.filterMap (Input.confirms v)

/-- Every shard of `v = d` without a confirmation is served. -/
def ServesUnconfirmed (w : ReedSolomonWrapper) (v : Vid) (d : Data B) (is : List (Input B))
    (m : InitializedDataMemory B) : Prop :=
  ∀ s : Sid, s.val < w.settings.dataShardsTotal → s ∉ confirmed v is →
    ∃ shards x, w.encode d = .ok shards ∧ shards.lookup s = some x ∧ m.serveShard (v, s) = some x

/-- A full distribution of `v` is among the outputs only if all its shards are confirmed. -/
def FullAfterAll (w : ReedSolomonWrapper) (v : Vid) (is : List (Input B))
    (out : List (OutEvent B)) : Prop :=
  OutEvent.distributionFull v ∈ out →
    ∀ s : Sid, s.val < w.settings.dataShardsTotal → s ∈ confirmed v is

/-- The Sids of `v` with a known location in `m`, or reported by the inputs since. -/
def located (m : InitializedDataMemory B) (v : Vid) (is : List (Input B)) : Finset Sid :=
  m.knownSids v ∪ (is.filterMap (Input.reports m.distribution v)).toFinset

/-- Whenever a confirmation of `v` comes in and as many Sids as there are shards are located,
all shards have been confirmed. -/
def CompletesLate (m : InitializedDataMemory B) (v : Vid) (is : List (Input B)) : Prop :=
  ∀ p i, p ++ [i] <+: is → (i.confirms v).isSome →
    (m.located v (p ++ [i])).card = m.totalShards →
    ∀ s : Sid, s.val < m.totalShards → s ∈ confirmed v (p ++ [i])

theorem located_append (m : InitializedDataMemory B) (v : Vid) (p : List (Input B)) (i : Input B) :
    m.located v (p ++ [i]) = m.located v p ∪ (i.reports m.distribution v).toFinset := by
  ext s
  cases h : i.reports m.distribution v <;> simp [located, h, eq_comm]

theorem mem_confirmed_append {v : Vid} {p : List (Input B)} {i : Input B} {s : Sid} :
    s ∈ confirmed v (p ++ [i]) ↔ s ∈ confirmed v p ∨ i.confirms v = some s := by
  cases h : i.confirms v <;> simp [confirmed, h, eq_comm]

/-- The locations after a run are the ones before and the ones reported. -/
theorem located_loop {m₀ : InitializedDataMemory B} (hk : ∀ v, m.knownSids v = m₀.knownSids v)
    (hd : m.distribution = m₀.distribution) (he : m.encoding = m₀.encoding) {p : List (Input B)}
    (h : Turn.loop turn m p = .next m' out) :
    m'.distribution = m₀.distribution ∧ m'.encoding = m₀.encoding ∧
      ∀ v, m'.knownSids v = m₀.located v p := by
  refine Turn.loop_invariant (I := fun js _ t => t.distribution = m₀.distribution ∧
    t.encoding = m₀.encoding ∧ ∀ v, t.knownSids v = m₀.located v js) ⟨hd, he, fun v => ?_⟩ ?_ h
  · simp [located, hk]
  · rintro js os t i t' o ⟨hd, he, hk⟩ hturn
    obtain ⟨hd', he', -⟩ := turn_fixed hturn
    refine ⟨hd'.trans hd, he'.trans he, fun v => ?_⟩
    rw [knownSids_turn hturn, hk, hd, located_append]

/-- The test for completion, over the run so far. -/
theorem completes_iff {m₀ t : InitializedDataMemory B} {p : List (Input B)} {i : Input B}
    (hk : t.knownSids v = m₀.located v p) (he : t.encoding = m₀.encoding) :
    t.Completes v i ↔
      (i.confirms v).isSome ∧ (m₀.located v (p ++ [i])).card = m₀.totalShards := by
  have ht : t.totalShards = m₀.totalShards := by simp only [totalShards, he]
  rw [Completes, hk, ht, located_append, Option.isSome_iff_exists]
  constructor
  · rintro ⟨s, hs, hcard⟩
    refine ⟨⟨s, hs⟩, ?_⟩
    rw [Input.confirms_reports hs]
    simpa using hcard
  · rintro ⟨⟨s, hs⟩, hcard⟩
    refine ⟨s, hs, ?_⟩
    rw [Input.confirms_reports hs] at hcard
    simpa using hcard

theorem turn_prepare {C : MdsCode UInt8 dataShardsCount m.encoding.inner.totalShardCount}
    (hw : m.encoding.inner.Implements C) (hB : 0 < B) (v : Vid) (d : Data B) :
    m.turn (.event order (.prepareServiceRequest v d)) =
      .next (m.prepareToServeShards v (codeword C d)) [.preparedServiceResponse v] := by
  simp only [turn, handle, handlePrepareServiceRequest, encode_eq hw hB]

/-- **A put is served until it is complete**: in a run after `PrepareServiceRequest{v, d}` and
before the next one, the unconfirmed shards stay servable and `DistributionFull(v)` waits for
all confirmations, exactly when `CompletesLate` holds of the run. -/
theorem serves_until_complete_iff
    {C : MdsCode UInt8 dataShardsCount m.encoding.inner.totalShardCount}
    (hw : m.encoding.inner.Implements C) (hB : 0 < B) {d : Data B} {m₁ : InitializedDataMemory B}
    {out₁ : List (OutEvent B)}
    (hprep : m.turn (.event order (.prepareServiceRequest v d)) = .next m₁ out₁)
    {rest : List (Input B)} (hrest : ∀ i ∈ rest, ¬ i.Prepares v)
    (hrun : Turn.loop turn m₁ rest = .next m' out) :
    (∀ p mp op, p <+: rest → Turn.loop turn m₁ p = .next mp op →
      ServesUnconfirmed m.encoding v d p mp ∧ FullAfterAll m.encoding v p op) ↔
      m.CompletesLate v rest := by
  rw [turn_prepare hw hB] at hprep
  cases hprep
  constructor
  · intro h p i hp hi hcard
    obtain ⟨r, hr⟩ := hp
    obtain ⟨t, o, o', hpi, -, -⟩ := Turn.loop_append_next.1 (hr ▸ hrun)
    obtain ⟨tp, op, oi, hlp, hli, rfl⟩ := Turn.loop_append_next.1 hpi
    have hk₁ : ∀ u, (m.prepareToServeShards v (codeword C d)).knownSids u = m.knownSids u :=
      fun _ => rfl
    obtain ⟨-, he, hk⟩ := located_loop hk₁ rfl rfl hlp
    have hfull : OutEvent.distributionFull v ∈ oi :=
      (distributionFull_turn (Turn.loop_singleton_next.1 hli) v).2
        ((completes_iff (hk v) he).2 ⟨hi, hcard⟩)
    exact (h _ _ _ ⟨r, hr⟩ hpi).2 (List.mem_append_right _ hfull)
  · intro h p mp op hp hlp
    have hinv := Turn.loop_invariant (I := fun js os t => js <+: rest →
        t.encoding = m.encoding ∧ (∀ v, t.knownSids v = m.located v js) ∧
        t.distribution = m.distribution ∧
        (∀ s : Sid, s.val < m.totalShards → s ∉ confirmed v js →
          t.serveShard (v, s) = (codeword C d).lookup s) ∧ FullAfterAll m.encoding v js os)
      (fun _ => ⟨rfl, fun v => by simp [located, knownSids, prepareToServeShards], rfl,
        fun s _ _ => by simp [serveShard, prepareToServeShards], fun hmem => by cases hmem⟩)
      ?_ hlp
    · obtain ⟨-, -, -, hserve, hfull⟩ := hinv hp
      refine ⟨fun s hs hconf => ?_, hfull⟩
      refine ⟨_, shardOf C d ⟨s.val, hs⟩, encode_eq hw hB d, ?_, ?_⟩
      · rw [lookup_codeword]
        exact dif_pos hs
      · rw [hserve s hs hconf, lookup_codeword]
        exact dif_pos hs
    · intro js os t i t' o ih hturn hpre
      obtain ⟨he, hk, hd, hserve, hfull⟩ := ih ((List.prefix_append _ _).trans hpre)
      obtain ⟨hd', he', -⟩ := turn_fixed hturn
      have hi : ¬ i.Prepares v := hrest i (hpre.subset (List.mem_append_right _ List.mem_cons_self))
      refine ⟨he'.trans he, fun u => ?_, hd'.trans hd, fun s hs hconf => ?_, fun hmem => ?_⟩
      · rw [knownSids_turn hturn, hk, hd, located_append]
      · rw [mem_confirmed_append, not_or] at hconf
        have hc : ¬ t.Completes v i := fun hc => by
          obtain ⟨hi, hcard⟩ := (completes_iff (hk v) he).1 hc
          have := h js i hpre hi hcard s hs
          rw [mem_confirmed_append] at this
          exact this.elim hconf.1 hconf.2
        rw [serveShard_turn hturn hi hc, if_neg hconf.2, hserve s hs hconf.1]
      · rcases List.mem_append.1 hmem with hmem | hmem
        · exact fun s hs => mem_confirmed_append.2 (.inl (hfull hmem s hs))
        · obtain ⟨hi, hcard⟩ := (completes_iff (hk v) he).1 ((distributionFull_turn hturn v).1 hmem)
          exact h js i hpre hi hcard

/-- Put the data `fill` times the unit byte at address 0. -/
def samplePut (fill : UInt8) : Input 4 :=
  .event default (.prepareServiceRequest ⟨0⟩ ⟨fun _ => fill⟩)

/-- Peer `i` confirms its shard of address 0. -/
def sampleConfirm (i : UInt8) : Input 4 :=
  .event default (.storeConfirmed (⟨0⟩, ⟨i.toNat⟩) (samplePeer i))

theorem serves_until_complete_iff_sample :
    (∀ p mp op, p <+: [sampleConfirm 0, sampleConfirm 2] →
      Turn.loop turn (sampleMemory.prepareToServeShards ⟨0⟩
        (codeword (w := OneParity.wrapper) OneParity.code ⟨fun _ => 1⟩)) p = .next mp op →
      ServesUnconfirmed OneParity.wrapper ⟨0⟩ (B := 4) ⟨fun _ => 1⟩ p mp ∧
        FullAfterAll OneParity.wrapper ⟨0⟩ p op) ↔
      sampleMemory.CompletesLate ⟨0⟩ [sampleConfirm 0, sampleConfirm 2] := by
  obtain ⟨m', out, hrun⟩ := Turn.continues_iff.1
    (show (Turn.loop turn (sampleMemory.prepareToServeShards ⟨0⟩
      (codeword (w := OneParity.wrapper) OneParity.code ⟨fun _ => 1⟩))
      [sampleConfirm 0, sampleConfirm 2]).Continues by decide +kernel)
  exact serves_until_complete_iff (m := sampleMemory) (B := 4) OneParity.coder_implements
    (by decide)
    (turn_prepare OneParity.coder_implements (by decide) _ _ :
      sampleMemory.turn (.event default (.prepareServiceRequest _ _)) = _)
    (by simp [sampleConfirm, Input.Prepares]) hrun

/-- Address 0 is put again after a complete put. The first confirmation of the second put
completes it: no shard is served any more, and the distribution is reported full. -/
theorem second_put_stops_serving :
    ∃ (m m₁ m₂ : InitializedDataMemory 4) (out out₁ out₂ : List (OutEvent 4)),
      Turn.loop turn sampleMemory
        [samplePut 1, sampleConfirm 0, sampleConfirm 1, sampleConfirm 2] = .next m out ∧
      m.turn (samplePut 2) = .next m₁ out₁ ∧ m₁.turn (sampleConfirm 0) = .next m₂ out₂ ∧
      m₂.serveShard (⟨0⟩, ⟨1⟩) = none ∧ OutEvent.distributionFull ⟨0⟩ ∈ out₂ :=
  ⟨_, _, _, _, _, _, rfl, rfl, rfl, rfl, by decide⟩

end InitializedDataMemory

end Swarm.DataMemory
