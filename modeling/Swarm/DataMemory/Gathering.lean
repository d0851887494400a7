import Swarm.DataMemory.Events
import Swarm.DataMemory.Recollection

/-!
# Recollections under way

While data are being assembled, the shards received and those asked for are
enough: `awaits_handle`. An answer takes one of them; a request asks for every
shard that is located at another peer and takes its own.
-/

namespace Swarm.DataMemory.InitializedDataMemory

variable {B : Nat} {m m' : InitializedDataMemory B} {order : HashOrder} {out : List (OutEvent B)}
  {e : InEvent B} {v : Vid} {K : Finset Sid}

/-- If `v` is being assembled, the shards `K` are valid and enough with those received. -/
structure Awaits (m : InitializedDataMemory B) (v : Vid) (K : Finset Sid) : Prop where
  valid : ∀ s ∈ K, s.val < m.totalShards
  underway : m.Underway v K.toList

theorem Awaits.offers (h : m.Awaits v K) {os : List Sid} (hsub : ∀ s ∈ K, s ∈ os)
    (hvalid : ∀ s ∈ os, s.val < m.totalShards) : m.Underway v os := by
  intro received hr
  obtain ⟨hlen, hreceived, offered, hprefix, hcard, -⟩ := h.underway received hr
  refine ⟨hlen, hreceived, os, List.prefix_rfl, hcard.trans (Finset.card_le_card ?_), hvalid⟩
  refine Finset.union_subset_union_right fun s hs => ?_
  have hmem := hprefix.subset (List.mem_toFinset.1 hs)
  exact List.mem_toFinset.2 (hsub s (Finset.mem_toList.1 hmem))

theorem Awaits.congr (h : m.Awaits v K) (he : m'.encoding = m.encoding)
    (ha : m'.currentlyAssembled.lookup v = m.currentlyAssembled.lookup v) : m'.Awaits v K where
  valid s hs := by
    rw [totalShards, he]
    exact h.valid s hs
  underway := h.underway.congr he ha

/-- With nothing asked for, nothing is being assembled. -/
theorem Awaits.idle (h : m.Awaits v ∅) : v ∉ m.currentlyAssembled := by
  intro hmem
  obtain ⟨received, hr⟩ := Finmap.mem_iff.1 hmem
  obtain ⟨hlen, -, offered, hprefix, hcard, -⟩ := h.underway received hr
  rw [Finset.toList_empty] at hprefix
  obtain rfl := List.prefix_nil.1 hprefix
  rw [List.toFinset_nil, Finset.union_empty] at hcard
  exact absurd hcard (Nat.not_le_of_lt hlen)

/-! ## A request -/

/-- The known shards of `v` at other peers. -/
def remote (m : InitializedDataMemory B) (v : Vid) : Finset Sid :=
  (m.knownSids v).filter fun s => m.knownLocation (v, s) ≠ some m.localId

theorem gather_requests {locations : List (Sid × PeerId)} {s : Sid} {owner : PeerId}
    (h : gather m v locations = .next m' out) (hmem : (s, owner) ∈ locations)
    (hne : owner ≠ m.localId) : .assignedRequest (v, s) owner ∈ out := by
  induction locations generalizing m out with
  | nil => cases hmem
  | cons p rest ih =>
    obtain ⟨s', owner'⟩ := p
    obtain ⟨t, o, o', ht, hrest, rfl⟩ := Turn.andThen_eq_next.1 h
    rcases List.mem_cons.1 hmem with he | hmem
    · cases he
      rw [if_neg hne] at ht
      cases ht
      exact List.mem_append_left _ (List.mem_singleton_self _)
    · have hid : t.localId = m.localId := by
        split at ht
        · exact (handleAssignedResponse_next ht).1.fixed.2.2
        · cases ht
          rfl
      exact List.mem_append_right _ (ih hrest hmem (hid ▸ hne))

theorem recollect_requests (hc : m.Collects v) (h : m.handleRecollectRequest order v = .next m' out)
    {s : Sid} (hs : s ∈ m.remote v) : ∃ q, .assignedRequest (v, s) q ∈ out := by
  obtain ⟨hnew, locations, hl, hmany⟩ := hc
  obtain ⟨hknown, hne⟩ := Finset.mem_filter.1 hs
  obtain ⟨q, hq⟩ := Option.isSome_iff_exists.1 (mem_knownSids.1 hknown)
  have hlookup : locations.lookup s = some q := by
    rwa [knownLocation, Finmap.orDefault_some hl] at hq
  simp only [handleRecollectRequest, hl, if_neg (Nat.not_lt.2 hmany), if_neg hnew] at h
  exact ⟨q, gather_requests h (Finmap.mem_iter.2 hlookup) fun hid => hne (hq.trans (congrArg some hid))⟩

/-- What is stored here and what is asked for are enough. -/
theorem enough_known (hmany : m.sufficientShards ≤ (m.knownSids v).card)
    (located : ∀ f q, m.knownLocation f = some q → f.2.val < m.totalShards)
    (held : ∀ f, m.knownLocation f = some m.localId → (m.getShard f).isSome) :
    m.Enough ∅ (m.ownOffers v ((m.dataKnownLocations.orDefault v).iter order.sids) ++
      (m.remote v).toList) := by
  have hvalid : ∀ s ∈ m.knownSids v, s.val < m.totalShards := fun s hs => by
    obtain ⟨q, hq⟩ := Option.isSome_iff_exists.1 (mem_knownSids.1 hs)
    exact located _ q hq
  have hown : ∀ s, s ∈ m.ownOffers v ((m.dataKnownLocations.orDefault v).iter order.sids) ↔
      m.knownLocation (v, s) = some m.localId ∧ (m.getShard (v, s)).isSome := by
    intro s
    simp only [ownOffers, List.mem_filterMap, Option.ite_none_right_eq_some, Option.some.injEq]
    constructor
    · rintro ⟨⟨s', q⟩, hmem, ⟨rfl, hsome⟩, rfl⟩
      exact ⟨Finmap.mem_iter.1 hmem, hsome⟩
    · rintro ⟨hl, hsome⟩
      exact ⟨(s, m.localId), Finmap.mem_iter.2 hl, ⟨rfl, hsome⟩, rfl⟩
  refine ⟨_, List.prefix_rfl, hmany.trans (Finset.card_le_card fun s hs => ?_), fun s hs => ?_⟩
  · refine Finset.mem_union_right _ (List.mem_toFinset.2 (List.mem_append.2 ?_))
    by_cases hl : m.knownLocation (v, s) = some m.localId
    · exact .inl ((hown s).2 ⟨hl, held _ hl⟩)
    · exact .inr (Finset.mem_toList.2 (Finset.mem_filter.2 ⟨hs, hl⟩))
  · rcases List.mem_append.1 hs with hs | hs
    · exact located _ _ ((hown s).1 hs).1
    · exact hvalid s (Finset.mem_of_mem_filter s (Finset.mem_toList.1 hs))

/-! ## One event -/

/-- What has become of an assembly. -/
def Goes (m' : InitializedDataMemory B) (out : List (OutEvent B)) (u : Vid) : Prop :=
  u ∈ m'.currentlyAssembled ∨ ∃ x, OutEvent.recollectResponse (.ok (u, x)) ∈ out

/-- What an event leaves to be awaited: what was awaited and has not come, and what is asked
for. -/
structure Continued (m : InitializedDataMemory B) (e : InEvent B) (K K' : Vid → Finset Sid)
    (m' : InitializedDataMemory B) (out : List (OutEvent B)) : Prop where
  awaits : ∀ u, m'.Awaits u (K' u)
  asked : ∀ u, ∀ s ∈ K' u, (s ∈ K u ∧ ∀ x, e ≠ .assignedResponse (u, s) x) ∨
    ∃ q, .assignedRequest (u, s) q ∈ out
  kept : ∀ u ∈ m.currentlyAssembled, Goes m' out u
  starts : ∀ u, e = .recollectRequest u → m.sufficientShards ≤ (m.knownSids u).card → Goes m' out u

theorem Advances.continued {K : Vid → Finset Sid} {L : Finset Sid}
    (hK : ∀ u, m.Awaits u (K u)) (h : Advances v L.toList m m' out)
    (hL : ∀ s ∈ L, s.val < m.totalShards)
    (hasked : ∀ u, ∀ s ∈ Function.update K v L u, (s ∈ K u ∧ ∀ x, e ≠ .assignedResponse (u, s) x) ∨
      ∃ q, .assignedRequest (u, s) q ∈ out)
    (hstarts : ∀ u, e = .recollectRequest u → m.sufficientShards ≤ (m.knownSids u).card →
      Goes m' out u) : Continued m e K (Function.update K v L) m' out := by
  refine ⟨fun u => ?_, hasked, fun u hu => ?_, hstarts⟩
  · by_cases huv : u = v
    · subst huv
      rw [Function.update_self]
      refine ⟨fun s hs => ?_, h.underway⟩
      rw [totalShards, h.same.fixed.2.1]
      exact hL s hs
    · rw [Function.update_of_ne huv]
      exact (hK u).congr h.same.fixed.2.1 (h.others u huv)
  · by_cases huv : u = v
    · exact huv ▸ h.kept (huv ▸ hu)
    · refine .inl ?_
      rw [← Finmap.lookup_isSome, h.others u huv, Finmap.lookup_isSome]
      exact hu

theorem handleAssignedResponse_no_error {f : FullShardId} {shard : Option (Shard B)}
    (h : m.handleAssignedResponse f shard = .next m' out) (error : RecollectionError) :
    .recollectResponse (.error error) ∉ out := by
  unfold handleAssignedResponse at h
  split at h
  · cases h; simp
  · split at h
    · cases h; simp
    · split at h
      · cases h; simp
      · dsimp only at h
        split at h
        · split at h <;> cases h <;> simp
        · cases h; simp

theorem gather_no_error {locations : List (Sid × PeerId)}
    (h : gather m v locations = .next m' out) (error : RecollectionError) :
    .recollectResponse (.error error) ∉ out := by
  induction locations generalizing m out with
  | nil => cases h; simp
  | cons p rest ih =>
    obtain ⟨s, owner⟩ := p
    obtain ⟨t, o, o', ht, hrest, rfl⟩ := Turn.andThen_eq_next.1 h
    rw [List.mem_append]
    rintro (hmem | hmem)
    · split at ht
      · exact handleAssignedResponse_no_error ht error hmem
      · cases ht
        cases List.mem_singleton.1 hmem
    · exact ih hrest hmem

/-- A request for data that enough shards of are located is not refused. -/
theorem recollect_no_error (hmany : m.sufficientShards ≤ (m.knownSids v).card)
    (hpos : 0 < m.sufficientShards) (h : m.handleRecollectRequest order v = .next m' out)
    (error : RecollectionError) : .recollectResponse (.error error) ∉ out := by
  cases hl : m.dataKnownLocations.lookup v with
  | none =>
    rw [knownSids, Finmap.orDefault_none hl, Finmap.keys_empty, Finset.card_empty] at hmany
    omega
  | some locations =>
    rw [knownSids, Finmap.orDefault_some hl] at hmany
    have hlen : ¬ locations.len < m.sufficientShards := Nat.not_lt.2 hmany
    simp only [handleRecollectRequest, hl, if_neg hlen] at h
    split at h
    · cases h; simp
    · exact gather_no_error h error

theorem recollect_continued {C : MdsCode UInt8 dataShardsCount m.encoding.inner.totalShardCount}
    (hw : m.encoding.inner.Implements C) (hB : 0 < B) {K : Vid → Finset Sid}
    (hK : ∀ u, m.Awaits u (K u))
    (located : ∀ f q, m.knownLocation f = some q → f.2.val < m.totalShards)
    (held : ∀ f, m.knownLocation f = some m.localId → (m.getShard f).isSome)
    (h : m.handle order (.recollectRequest v) = .next m' out) :
    ∃ K', Continued m (.recollectRequest v) K K' m' out := by
  have hpos : 0 < m.sufficientShards := by
    rw [show m.sufficientShards = dataShardsCount from hw.data]
    exact Nat.two_pos
  by_cases hc : m.Collects v
  · have hunder : m.Underway v (m.remote v).toList := fun received hr =>
      absurd (Finmap.mem_of_lookup_eq_some hr) hc.1
    have hmany : m.sufficientShards ≤ (m.knownSids v).card := by
      obtain ⟨-, locations, hl, hmany⟩ := hc
      rwa [knownSids, Finmap.orDefault_some hl]
    obtain ⟨hadvances, hconcl⟩ := handleRecollectRequest_advances hw hB hunder
      (fun _ => enough_known hmany located held) h
    refine ⟨_, hadvances.continued hK (fun s hs => ?_) (fun u s hs => ?_) fun u hu _ => ?_⟩
    · obtain ⟨q, hq⟩ := Option.isSome_iff_exists.1
        (mem_knownSids.1 (Finset.mem_of_mem_filter s hs))
      exact located _ q hq
    · by_cases huv : u = v
      · subst huv
        rw [Function.update_self] at hs
        exact .inr (recollect_requests hc h hs)
      · rw [Function.update_of_ne huv] at hs
        exact .inl ⟨hs, fun x he => by cases he⟩
    · cases hu
      refine hconcl.resolve_left ?_
      rintro ⟨error, hmem⟩
      exact recollect_no_error hmany hpos h error hmem
  · obtain ⟨hadvances, -⟩ := handleRecollectRequest_advances hw hB (hK v).underway
      (fun hc' => absurd hc' hc) h
    refine ⟨_, hadvances.continued hK (hK v).valid (fun u s hs => ?_) fun u hu hmany => ?_⟩
    · rw [Function.update_eq_self] at hs
      exact .inl ⟨hs, fun x he => by cases he⟩
    · -- enough is located, so the request joins an assembly
      cases hu
      refine hadvances.kept ?_
      by_contra hnew
      refine hc ⟨hnew, ?_⟩
      cases hl : m.dataKnownLocations.lookup v with
      | none =>
        rw [knownSids, Finmap.orDefault_none hl, Finmap.keys_empty, Finset.card_empty] at hmany
        omega
      | some locations =>
        rw [knownSids, Finmap.orDefault_some hl] at hmany
        exact ⟨locations, rfl, hmany⟩

/-- **One event** of a memory whose known shards are where they are located, and which is only
sent valid answers. -/
theorem awaits_handle {C : MdsCode UInt8 dataShardsCount m.encoding.inner.totalShardCount}
    (hw : m.encoding.inner.Implements C) (hB : 0 < B) {K : Vid → Finset Sid}
    (hK : ∀ u, m.Awaits u (K u))
    (located : ∀ f q, m.knownLocation f = some q → f.2.val < m.totalShards)
    (held : ∀ f, m.knownLocation f = some m.localId → (m.getShard f).isSome)
    (answered : ∀ f x, e = .assignedResponse f x → x.isSome ∧ f.2.val < m.totalShards)
    (h : m.handle order e = .next m' out) : ∃ K', Continued m e K K' m' out := by
  by_cases hans : ∃ f x, e = .assignedResponse f x
  · obtain ⟨⟨v, s⟩, x, rfl⟩ := hans
    obtain ⟨hx, hs⟩ := answered _ _ rfl
    obtain ⟨y, rfl⟩ := Option.isSome_iff_exists.1 hx
    have hvalid : ∀ t ∈ (K v).erase s, t.val < m.totalShards := fun t ht =>
      (hK v).valid t (Finset.mem_of_mem_erase ht)
    have hunder : m.Underway v (s :: ((K v).erase s).toList) := by
      refine (hK v).offers (fun t ht => ?_) fun t ht => ?_
      · by_cases hts : t = s
        · exact hts ▸ List.mem_cons_self
        · exact List.mem_cons_of_mem _ (Finset.mem_toList.2 (Finset.mem_erase.2 ⟨hts, ht⟩))
      · rcases List.mem_cons.1 ht with rfl | ht
        · exact hs
        · exact hvalid t (Finset.mem_toList.1 ht)
    refine ⟨_, (handleAssignedResponse_some hw hB hunder h).continued hK hvalid ?_ ?_⟩
    · intro u t ht
      by_cases huv : u = v
      · subst huv
        rw [Function.update_self] at ht
        refine .inl ⟨Finset.mem_of_mem_erase ht, fun z he => ?_⟩
        cases he
        exact Finset.notMem_erase _ _ ht
      · rw [Function.update_of_ne huv] at ht
        refine .inl ⟨ht, fun z he => ?_⟩
        cases he
        exact huv rfl
    · intro u he
      cases he
  have hnot : ∀ (u : Vid) (t : Sid) x, e ≠ .assignedResponse (u, t) x :=
    fun u t x he => hans ⟨_, x, he⟩
  by_cases hrec : ∃ v, e = .recollectRequest v
  · obtain ⟨v, rfl⟩ := hrec
    exact recollect_continued hw hB hK located held h
  · have hsame := currentlyAssembled_handle h (fun f x he => hans ⟨f, _, he⟩)
      fun v he => hrec ⟨v, he⟩
    refine ⟨K, fun u => (hK u).congr (handle_fixed h).2.1 (by rw [hsame]),
      fun u s hs => .inl ⟨hs, hnot u s⟩, fun u hu => .inl (hsame ▸ hu),
      fun u he => absurd ⟨u, he⟩ hrec⟩

end Swarm.DataMemory.InitializedDataMemory
