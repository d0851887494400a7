import Swarm.DataMemory.Serving

/-!
# What an event of the data memory causes

Known locations, emitted events and assembled shards after one event, each in
terms of the state before it.
-/

namespace Swarm.DataMemory

open Swarm.Encoding

variable {B : Nat}

namespace InitializedDataMemory

variable {m m' : InitializedDataMemory B} {order : HashOrder} {out : List (OutEvent B)}
  {e : InEvent B}

/-! ## Known locations -/

/-- The peer known to keep a shard. -/
def knownLocation (m : InitializedDataMemory B) (f : FullShardId) : Option PeerId :=
  (m.dataKnownLocations.orDefault f.1).lookup f.2

/-- The peer that an event reports as the keeper of shard `f`. -/
def learns (m : InitializedDataMemory B) (f : FullShardId) : InEvent B → Option PeerId
  | .storeConfirmed g location => if g = f then some location else none
  | .peerShardsActualized peer updatedDataIds =>
    if f.1 ∈ updatedDataIds ∧ m.distribution.lookup peer = some f.2 then some peer else none
  | _ => none

@[simp] theorem knownLocation_busWrite (v : Vid) (x : Shard B) (f : FullShardId) :
    (m.busWrite v x).knownLocation f = m.knownLocation f := by
  rw [knownLocation, dataKnownLocations_busWrite, knownLocation]

theorem mem_knownSids {v : Vid} {s : Sid} :
    s ∈ m.knownSids v ↔ (m.knownLocation (v, s)).isSome := by
  rw [knownSids, Finmap.mem_keys, ← Finmap.lookup_isSome]
  rfl

theorem lookup_actualize (ls : HashMap Vid (HashMap Sid PeerId)) (s t : Sid) (peer : PeerId)
    (ids : List Vid) (v : Vid) : ((actualize ls s peer ids).orDefault v).lookup t =
      if v ∈ ids ∧ t = s then some peer else (ls.orDefault v).lookup t := by
  induction ids generalizing ls with
  | nil => simp [actualize]
  | cons u ids ih =>
    change ((actualize (ls.insert u ((ls.orDefault u).insert s peer)) s peer ids).orDefault v).lookup
      t = _
    rw [ih, Finmap.orDefault_insert]
    by_cases hu : v = u
    · subst hu
      by_cases ht : t = s
      · subst ht
        simp
      · simp [ht]
    · simp [hu]

theorem SameButAssembled.knownLocation (h : SameButAssembled m m') (f : FullShardId) :
    m'.knownLocation f = m.knownLocation f := by
  obtain ⟨a, rfl⟩ := h
  rfl

theorem knownLocation_observe (f g : FullShardId) (location : PeerId) :
    (m.observeNewLocation f location).knownLocation g =
      if f = g then some location else m.knownLocation g := by
  obtain ⟨v, s⟩ := f
  obtain ⟨u, t⟩ := g
  simp only [InitializedDataMemory.knownLocation, observeNewLocation, Finmap.orDefault_insert,
    Prod.mk.injEq]
  by_cases hv : u = v
  · subst hv
    rw [if_pos rfl, Finmap.lookup_insert_ite]
    simp [eq_comm (a := t)]
  · rw [if_neg hv, if_neg fun h => hv h.1.symm]

theorem learns_silent {e : InEvent B} (h : e.Silent) (f : FullShardId) : m.learns f e = none := by
  cases e with
  | prepareServiceRequest _ _ | storeConfirmed _ _ | peerShardsActualized _ _ => exact h.elim
  | _ => rfl

theorem knownLocation_handle (h : m.handle order e = .next m' out) (f : FullShardId) :
    m'.knownLocation f = (m.learns f e).or (m.knownLocation f) := by
  cases handle_moves h with
  | assembled same silent _ _ =>
    rw [same.knownLocation f, learns_silent silent f, Option.none_or]
  | @stored _ g x stores =>
    rcases stores_cases stores with rfl | ⟨rfl, -, -⟩ <;> rfl
  | prepared _ => rfl
  | @confirmed g location served _ =>
    change (m.observeNewLocation g location).knownLocation f = _
    rw [knownLocation_observe, learns]
    split <;> rfl
  | @actualized peer ids s keeper =>
    simp only [InitializedDataMemory.knownLocation, lookup_actualize, learns, keeper,
      Option.some.injEq, eq_comm (a := s)]
    split <;> rfl

/-! ## Emitted events -/

/-- Which event makes the memory emit an event, and with what content. -/
def Emits (m : InitializedDataMemory B) (e : InEvent B) : OutEvent B → Prop
  | .initialized => False
  | .preparedServiceResponse dataId => ∃ data, e = .prepareServiceRequest dataId data
  | .serveShardRequest f location =>
    e = .storageRequestTx f.1 location ∧ m.assignedShardId = some f.2 ∧ location ≠ m.localId
  | .serveShardResponse f shard => e = .serveShardRequest f ∧ shard = m.serveShard f
  | .assignedStoreSuccess f => ∃ shard, m.stores e = some (f, shard)
  | .distributionSufficient dataId | .distributionFull dataId =>
    ∃ sid location, e = .storeConfirmed (dataId, sid) location
  | .assignedResponse f shard => e = .assignedRequest f ∧ shard = m.getShard f
  | .assignedRequest f location =>
    e = .recollectRequest f.1 ∧ m.knownLocation f = some location ∧ location ≠ m.localId
  | .listDistributed _ => e = .listDistributed
  | .recollectResponse _ =>
    (∃ dataId, e = .recollectRequest dataId) ∨ ∃ f shard, e = .assignedResponse f shard

theorem handleAssignedResponse_emits {f : FullShardId} {shard : Option (Shard B)}
    (h : m.handleAssignedResponse f shard = .next m' out) :
    ∀ o ∈ out, ∃ response, o = .recollectResponse response := by
  unfold handleAssignedResponse at h
  split at h
  · cases h; simp
  · split at h
    · cases h; simp
    · split at h
      · cases h; simp
      · dsimp only at h
        split at h
        · split at h <;> cases h <;> simp
        · cases h; simp

theorem gather_emits {v : Vid} {locations : List (Sid × PeerId)}
    (h : gather m v locations = .next m' out) :
    ∀ o ∈ out, (∃ response, o = .recollectResponse response) ∨
      ∃ s q, o = .assignedRequest (v, s) q ∧ (s, q) ∈ locations ∧ q ≠ m.localId := by
  induction locations generalizing m out with
  | nil => cases h; simp
  | cons p rest ih =>
    obtain ⟨s, owner⟩ := p
    obtain ⟨t, o, o', ht, hg, rfl⟩ := Turn.andThen_eq_next.1 h
    have hid : t.localId = m.localId := by
      split at ht
      · exact (handleAssignedResponse_next ht).1.fixed.2.2
      · cases ht; rfl
    intro x hx
    rcases List.mem_append.1 hx with hx | hx
    · split at ht
      · exact .inl (handleAssignedResponse_emits ht x hx)
      · rename_i hne
        cases ht
        obtain rfl := List.mem_singleton.1 hx
        exact .inr ⟨s, owner, rfl, List.mem_cons_self, hne⟩
    · rcases ih hg x hx with hr | ⟨s', q, rfl, hmem, hne⟩
      · exact .inl hr
      · exact .inr ⟨s', q, rfl, List.mem_cons_of_mem _ hmem, hid ▸ hne⟩

theorem handleRecollectRequest_emits {v : Vid}
    (h : m.handleRecollectRequest order v = .next m' out) :
    ∀ o ∈ out, (∃ response, o = .recollectResponse response) ∨
      ∃ s q, o = .assignedRequest (v, s) q ∧ m.knownLocation (v, s) = some q ∧ q ≠ m.localId := by
  unfold handleRecollectRequest at h
  split at h
  · cases h; simp
  · rename_i known hknown
    split at h
    · cases h; simp
    · split at h
      · cases h; simp
      · intro o ho
        rcases gather_emits h o ho with hr | ⟨s, q, rfl, hmem, hne⟩
        · exact .inl hr
        · refine .inr ⟨s, q, rfl, ?_, hne⟩
          rw [knownLocation, Finmap.orDefault_some hknown]
          exact Finmap.mem_iter.1 hmem

theorem handle_emits (h : m.handle order e = .next m' out) : ∀ o ∈ out, m.Emits e o := by
  cases e with
  | initializeStorage _ => cases h; simp
  | listDistributed => cases h; simp [Emits]
  | serveShardRequest f | assignedRequest f => cases h; simp [Emits]
  | prepareServiceRequest v d =>
    simp only [handle, handlePrepareServiceRequest] at h
    split at h <;> cases h
    simp [Emits]
  | storageRequestTx v author =>
    simp only [handle, handleStorageRequestTx] at h
    cases hs : m.assignedShardId with
    | none =>
      rw [hs] at h
      cases h
      simp
    | some sid =>
      simp only [hs] at h
      by_cases ha : author = m.localId
      · rw [if_pos ha] at h
        cases hx : m.serveShard (v, sid) with
        | none =>
          rw [hx] at h
          cases h
          simp
        | some x =>
          rw [hx] at h
          cases h
          simp [Emits, stores, hs, ha, hx]
      · rw [if_neg ha] at h
        cases h
        simp [Emits, hs, ha]
  | serveShardResponse f shard =>
    cases shard with
    | none => cases h; simp
    | some x => cases h; simp [Emits, stores]
  | storeConfirmed f location =>
    intro o ho
    have hcases : o = .distributionSufficient f.1 ∨ o = .distributionFull f.1 := by
      simp only [handle, handleStoreConfirmed_eq] at h
      split at h
      all_goals
        cases h
        simp only [List.mem_append, List.mem_ite_nil_right, List.mem_singleton] at ho
        tauto
    rcases hcases with rfl | rfl <;> exact ⟨f.2, location, rfl⟩
  | assignedResponse f shard =>
    intro o ho
    obtain ⟨response, rfl⟩ := handleAssignedResponse_emits h o ho
    exact .inr ⟨f, shard, rfl⟩
  | recollectRequest v =>
    intro o ho
    rcases handleRecollectRequest_emits h o ho with ⟨response, rfl⟩ | ⟨s, q, rfl, hk, hne⟩
    · exact .inl ⟨v, rfl⟩
    · exact ⟨rfl, hk, hne⟩
  | peerShardsActualized peer ids =>
    simp only [handle, handlePeerShardsActualized] at h
    split at h <;> cases h
    simp

/-! ## Served shards -/

/-- A served shard was served before, or its data has just been encoded. -/
theorem serveShard_handle (h : m.handle order e = .next m' out) {f : FullShardId} {x : Shard B}
    (hx : m'.serveShard f = some x) : m.serveShard f = some x ∨
      ∃ data shards, e = .prepareServiceRequest f.1 data ∧ m.encoding.encode data = .ok shards ∧
        shards.lookup f.2 = some x := by
  cases handle_moves h with
  | assembled same _ _ _ => exact .inl (same.serveShard f ▸ hx)
  | stored _ | actualized _ => exact .inl hx
  | @prepared v d shards encoded =>
    simp only [serveShard, prepareToServeShards, Finmap.lookup_insert_ite] at hx
    split at hx
    · rename_i hv
      exact .inr ⟨d, shards, by rw [hv], encoded, hx⟩
    · exact .inl hx
  | @confirmed g location served served_eq =>
    have hobs : (m.observeNewLocation g location).serveShard f = some x := by
      rcases served_eq with rfl | rfl
      · exact hx
      · simp only [serveShard, Finmap.lookup_erase_ite] at hx
        split at hx
        · cases hx
        · exact hx
    rw [serveShard_observe] at hobs
    split at hobs
    · cases hobs
    · exact .inl hobs

theorem SameButAssembled.toDistribute (h : SameButAssembled m m') :
    m'.toDistribute = m.toDistribute := by
  obtain ⟨a, rfl⟩ := h
  rfl

/-- Data that are not distributed stay so, unless they are put. -/
theorem toDistribute_handle {v : Vid} (h : m.handle order e = .next m' out)
    (hv : m.toDistribute.lookup v = none) (hput : ∀ data, e ≠ .prepareServiceRequest v data) :
    m'.toDistribute.lookup v = none := by
  cases handle_moves h with
  | assembled same _ _ _ => rw [same.toDistribute, hv]
  | stored _ | actualized _ => exact hv
  | @prepared u d shards encoded =>
    simp only [prepareToServeShards, Finmap.lookup_insert_ite]
    rw [if_neg fun hu => hput d (by rw [hu]), hv]
  | @confirmed g location served served_eq =>
    have hobs : (m.observeNewLocation g location).toDistribute.lookup v = none := by
      simp only [observeNewLocation]
      split
      · rename_i shards hshards
        have hne : v ≠ g.1 := by
          rintro rfl
          rw [hshards] at hv
          cases hv
        rw [Finmap.lookup_insert_ite, if_neg hne, hv]
      · exact hv
    rcases served_eq with rfl | rfl
    · exact hobs
    · change Finmap.lookup v (Finmap.erase g.1 _) = none
      rw [Finmap.lookup_erase_ite, hobs, ite_self]

/-- The event that completes a distribution ends it. -/
theorem toDistribute_completes {v : Vid} (h : m.handle order e = .next m' out)
    (hc : m.Completes v (.event order e)) : m'.toDistribute.lookup v = none := by
  have hfull := (distributionFull_turn (i := .event order e) h v).2 hc
  cases e with
  | storeConfirmed g location =>
    obtain ⟨rfl, hlocated⟩ := ((handleStoreConfirmed_next h).2.1 v).1 hfull
    simp only [handle, handleStoreConfirmed_eq, if_pos hlocated] at h
    cases h
    simp
  | _ =>
    obtain ⟨sid, location, he⟩ := handle_emits h _ hfull
    cases he

/-- A full distribution is reported once at a time. -/
theorem count_distributionFull (h : m.handle order e = .next m' out) (v : Vid) :
    (m.Completes v (.event order e) ∧ out.count (.distributionFull v) = 1) ∨
      (¬ m.Completes v (.event order e) ∧ out.count (.distributionFull v) = 0) := by
  have hle : out.count (.distributionFull v) ≤ 1 := by
    cases e with
    | storeConfirmed g location =>
      simp only [handle, handleStoreConfirmed_eq] at h
      have hnodup : out.Nodup := by split at h <;> cases h <;> split <;> simp
      exact List.nodup_iff_count_le_one.1 hnodup _
    | _ =>
      refine (List.count_eq_zero.2 fun hmem => ?_).trans_le (Nat.zero_le 1)
      obtain ⟨sid, location, he⟩ := handle_emits h _ hmem
      cases he
  have hmem := distributionFull_turn (i := .event order e) h v
  by_cases hc : m.Completes v (.event order e)
  · exact .inl ⟨hc, Nat.le_antisymm hle (List.count_pos_iff.2 (hmem.2 hc))⟩
  · exact .inr ⟨hc, List.count_eq_zero.2 fun hm => hc (hmem.1 hm)⟩

/-! ## Assembled shards -/

/-- Every shard collected for a recollection has the property. -/
def Assembled (P : FullShardId → Shard B → Prop) (m : InitializedDataMemory B) : Prop :=
  ∀ v shards, m.currentlyAssembled.lookup v = some shards →
    ∀ s x, shards.lookup s = some x → P (v, s) x

/-- The data are decoded from enough shards with the property. -/
def DecodedFrom (P : FullShardId → Shard B → Prop) (m : InitializedDataMemory B) (v : Vid)
    (data : Data B) : Prop :=
  ∃ shards : HashMap Sid (Shard B), m.encoding.decode shards = .ok data ∧
    m.sufficientShards ≤ shards.len ∧ ∀ s x, shards.lookup s = some x → P (v, s) x

variable {P : FullShardId → Shard B → Prop}

theorem handleAssignedResponse_assembled {f : FullShardId} {shard : Option (Shard B)}
    (hm : m.Assembled P) (hx : ∀ x, shard = some x → P f x)
    (h : m.handleAssignedResponse f shard = .next m' out) :
    m'.Assembled P ∧ ∀ v d, .recollectResponse (.ok (v, d)) ∈ out → m.DecodedFrom P v d := by
  unfold handleAssignedResponse at h
  split at h
  · cases h; exact ⟨hm, by simp⟩
  · rename_i x
    split at h
    · cases h; exact ⟨hm, by simp⟩
    · rename_i received hreceived
      split at h
      · cases h; exact ⟨hm, by simp⟩
      · dsimp only at h
        have hall : ∀ s y, (received.insert f.2 x).lookup s = some y → P (f.1, s) y := by
          intro s y hy
          rw [Finmap.lookup_insert_ite] at hy
          split at hy
          · rename_i hs
            cases hy
            rw [hs]
            exact hx x rfl
          · exact hm f.1 received hreceived s y hy
        have herase : Assembled P { m with
            currentlyAssembled := m.currentlyAssembled.erase f.1 } := by
          intro v shards hv
          rw [Finmap.lookup_erase_ite] at hv
          split at hv
          · cases hv
          · exact hm v shards hv
        split at h
        · rename_i hlen
          split at h
          · rename_i d hd
            cases h
            refine ⟨herase, fun v d' hd' => ?_⟩
            simp only [List.mem_singleton, OutEvent.recollectResponse.injEq, Except.ok.injEq,
              Prod.mk.injEq] at hd'
            obtain ⟨rfl, rfl⟩ := hd'
            exact ⟨_, hd, hlen, hall⟩
          · cases h
            exact ⟨herase, by simp⟩
          · cases h
        · cases h
          refine ⟨?_, by simp⟩
          intro v shards hv
          simp only [Finmap.lookup_insert_ite] at hv
          split at hv
          · rename_i hvf
            cases hv
            rw [hvf]
            exact hall
          · exact hm v shards hv

theorem DecodedFrom.congr {v : Vid} {d : Data B} (h : SameButAssembled m m')
    (hd : m'.DecodedFrom P v d) : m.DecodedFrom P v d := by
  obtain ⟨a, rfl⟩ := h
  exact hd

theorem gather_assembled {v : Vid} {locations : List (Sid × PeerId)} (hm : m.Assembled P)
    (hlocal : ∀ s x, (s, m.localId) ∈ locations → m.getShard (v, s) = some x → P (v, s) x)
    (h : gather m v locations = .next m' out) :
    m'.Assembled P ∧ ∀ u d, .recollectResponse (.ok (u, d)) ∈ out → m.DecodedFrom P u d := by
  induction locations generalizing m out with
  | nil => cases h; exact ⟨hm, by simp⟩
  | cons p rest ih =>
    obtain ⟨s, owner⟩ := p
    obtain ⟨t, o, o', ht, hg, rfl⟩ := Turn.andThen_eq_next.1 h
    have hstep : SameButAssembled m t ∧ t.Assembled P ∧
        ∀ u d, .recollectResponse (.ok (u, d)) ∈ o → m.DecodedFrom P u d := by
      split at ht
      · rename_i howner
        exact ⟨(handleAssignedResponse_next ht).1, handleAssignedResponse_assembled hm
          (fun x hx => hlocal s x (howner ▸ List.mem_cons_self) hx) ht⟩
      · cases ht
        exact ⟨.refl m, hm, by simp⟩
    obtain ⟨hsame, hall, ho⟩ := hstep
    have hrest := ih hall (fun s' x hs' hx => by
      rw [hsame.fixed.2.2] at hs'
      rw [hsame.getShard] at hx
      exact hlocal s' x (List.mem_cons_of_mem _ hs') hx) hg
    refine ⟨hrest.1, fun u d hmem => ?_⟩
    rcases List.mem_append.1 hmem with hmem | hmem
    · exact ho u d hmem
    · exact (hrest.2 u d hmem).congr hsame

/-- Assembled shards come from answers and from the local storage. -/
theorem assembled_handle (hm : m.Assembled P)
    (hanswer : ∀ f x, e = .assignedResponse f (some x) → P f x)
    (hlocal : ∀ v s x, e = .recollectRequest v → m.knownLocation (v, s) = some m.localId →
      m.getShard (v, s) = some x → P (v, s) x)
    (h : m.handle order e = .next m' out) :
    m'.Assembled P ∧ ∀ v d, .recollectResponse (.ok (v, d)) ∈ out → m.DecodedFrom P v d := by
  have hkeep : ∀ {t : InitializedDataMemory B} {o : List (OutEvent B)},
      t.currentlyAssembled = m.currentlyAssembled → (∀ p, .recollectResponse (.ok p) ∉ o) →
      t.Assembled P ∧ ∀ v d, .recollectResponse (.ok (v, d)) ∈ o → m.DecodedFrom P v d :=
    fun ht ho => ⟨fun v shards hv => hm v shards (ht ▸ hv), fun v d hd => absurd hd (ho _)⟩
  cases e with
  | assignedResponse g shard =>
    exact handleAssignedResponse_assembled hm (fun x hx => hanswer g x (by rw [hx])) h
  | recollectRequest v =>
    simp only [handle, handleRecollectRequest] at h
    split at h
    · cases h; exact hkeep rfl (by simp)
    · rename_i known hknown
      split at h
      · cases h; exact hkeep rfl (by simp)
      · split at h
        · cases h; exact hkeep rfl (by simp)
        · have hm₀ : Assembled P { m with
              currentlyAssembled := m.currentlyAssembled.insert v ∅ } := by
            intro u shards hu
            simp only [Finmap.lookup_insert_ite] at hu
            split at hu
            · cases hu
              simp
            · exact hm u shards hu
          have hknows : ∀ s, (s, m.localId) ∈ known.iter order.sids →
              m.knownLocation (v, s) = some m.localId := fun s hs => by
            rw [knownLocation, Finmap.orDefault_some hknown]
            exact Finmap.mem_iter.1 hs
          have hg := gather_assembled hm₀ (fun s x hs hx => hlocal v s x rfl (hknows s hs) hx) h
          exact ⟨hg.1, hg.2⟩
  | _ =>
    refine hkeep (currentlyAssembled_handle h (fun _ _ he => by cases he) fun _ he => by cases he)
      fun p hp => ?_
    rcases handle_emits h _ hp with ⟨_, he⟩ | ⟨_, _, he⟩ <;> cases he

end InitializedDataMemory

end Swarm.DataMemory
