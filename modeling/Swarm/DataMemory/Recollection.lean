import Swarm.DataMemory.Loop

/-!
# Ending a recollection

A request for a data unit starts to collect shards when enough locations are
known. The entry for the data stays until enough different shards have come in;
an answer without a shard, or shards that do not decode, report nothing.
`recollections_concluded`: no entry stays and every request is followed by its
response, as long as enough valid shards are offered to each of them.
-/

namespace Swarm.DataMemory

open Swarm.Encoding

variable {B : Nat}

/-- The shard of `v` that the input brings as an answer. -/
def Input.offers (v : Vid) : Input B → Option Sid
  | .event _ (.assignedResponse fullShardId (some _)) =>
    if fullShardId.1 = v then some fullShardId.2 else none
  | _ => none

/-- The outputs of the request for `v`, and those after it, conclude it. -/
def Concludes (v : Vid) (now later : List (OutEvent B)) : Prop :=
  (∃ e, OutEvent.recollectResponse (.error e) ∈ now) ∨
    ∃ x, OutEvent.recollectResponse (.ok (v, x)) ∈ now ++ later

namespace InitializedDataMemory

/-- A request for `v` starts to collect shards. -/
def Collects (m : InitializedDataMemory B) (v : Vid) : Prop :=
  v ∉ m.currentlyAssembled ∧
    ∃ locations, m.dataKnownLocations.lookup v = some locations ∧
      m.sufficientShards ≤ locations.len

/-- The shards of `v` that are taken from the local storage, in the order of the locations. -/
def ownOffers (m : InitializedDataMemory B) (v : Vid) (locations : List (Sid × PeerId)) : List Sid :=
  locations.filterMap fun p =>
    if p.2 = m.localId ∧ (m.getShard (v, p.1)).isSome then some p.1 else none

/-- Of the shards offered for an assembly that has `received`, enough come first whose Sids are
all below the total. -/
def Enough (m : InitializedDataMemory B) (received : Finset Sid) (offers : List Sid) : Prop :=
  ∃ os, os <+: offers ∧ m.sufficientShards ≤ (received ∪ os.toFinset).card ∧
    ∀ s ∈ os, s.val < m.totalShards

/-- Every request that starts to collect is offered enough, from the local storage and by the
answers among the later inputs. -/
def Supplied : InitializedDataMemory B → List (Input B) → Prop
  | _, [] => True
  | m, i :: is =>
    (∀ order v, i = .event order (.recollectRequest v) → m.Collects v →
      m.Enough ∅ (m.ownOffers v ((m.dataKnownLocations.orDefault v).iter order.sids) ++
        is.filterMap (Input.offers v))) ∧
    match m.turn i with
    | .next m' _ => Supplied m' is
    | _ => True

/-- If `v` is being assembled, enough is still to come, and what has come is valid. -/
def Underway (m : InitializedDataMemory B) (v : Vid) (offers : List Sid) : Prop :=
  ∀ received, m.currentlyAssembled.lookup v = some received →
    received.len < m.sufficientShards ∧ (∀ s ∈ received, s.val < m.totalShards) ∧
      m.Enough received.keys offers

variable {m m' : InitializedDataMemory B} {order : HashOrder} {out : List (OutEvent B)} {v : Vid}

/-! ## One offered shard -/

theorem Underway.congr {offers : List Sid} (h : m.Underway v offers)
    (he : m'.encoding = m.encoding)
    (ha : m'.currentlyAssembled.lookup v = m.currentlyAssembled.lookup v) :
    m'.Underway v offers := by
  unfold Underway Enough sufficientShards totalShards at *
  rwa [he, ha]

/-- An assembly that lacks shards waits for the next one. -/
theorem Enough.uncons {received : HashMap Sid (Shard B)} {s : Sid} {offers : List Sid}
    (h : m.Enough received.keys (s :: offers)) (hlen : received.len < m.sufficientShards) :
    s.val < m.totalShards ∧ m.Enough (insert s received.keys) offers := by
  obtain ⟨os, hos, hcard, hvalid⟩ := h
  rcases os with _ | ⟨t, os⟩
  · rw [List.toFinset_nil, Finset.union_empty] at hcard
    exact absurd hcard (Nat.not_le_of_lt hlen)
  · obtain ⟨rfl, hrest⟩ := List.cons_prefix_cons.1 hos
    refine ⟨hvalid t List.mem_cons_self, os, hrest, ?_, fun s hs => hvalid s (List.mem_cons_of_mem _ hs)⟩
    rwa [List.toFinset_cons, Finset.union_insert, ← Finset.insert_union] at hcard

/-- What an answer of `shard` for the data `v` does to the assemblies. -/
structure Advances (v : Vid) (offers : List Sid) (m m' : InitializedDataMemory B)
    (out : List (OutEvent B)) : Prop where
  same : SameButAssembled m m'
  underway : m'.Underway v offers
  kept : v ∈ m.currentlyAssembled →
    v ∈ m'.currentlyAssembled ∨ ∃ x, OutEvent.recollectResponse (.ok (v, x)) ∈ out
  others : ∀ u, u ≠ v → m'.currentlyAssembled.lookup u = m.currentlyAssembled.lookup u

theorem Advances.refl {offers : List Sid} (h : m.Underway v offers) :
    Advances v offers m m out where
  same := .refl m
  underway := h
  kept := .inl
  others _ _ := rfl

theorem Advances.trans {offers offers' : List Sid} {m₁ m₂ m₃ : InitializedDataMemory B}
    {out out' : List (OutEvent B)} (h : Advances v offers m₁ m₂ out)
    (h' : Advances v offers' m₂ m₃ out') : Advances v offers' m₁ m₃ (out ++ out') where
  same := h.same.trans h'.same
  underway := h'.underway
  kept hv := by
    rcases h.kept hv with h₂ | ⟨x, hx⟩
    · rcases h'.kept h₂ with h₃ | ⟨x, hx⟩
      · exact .inl h₃
      · exact .inr ⟨x, List.mem_append_right _ hx⟩
    · exact .inr ⟨x, List.mem_append_left _ hx⟩
  others u hu := (h'.others u hu).trans (h.others u hu)

theorem handleAssignedResponse_some
    {C : MdsCode UInt8 dataShardsCount m.encoding.inner.totalShardCount}
    (hw : m.encoding.inner.Implements C) (hB : 0 < B) {s : Sid} {x : Shard B} {offers : List Sid}
    (hu : m.Underway v (s :: offers))
    (h : m.handleAssignedResponse (v, s) (some x) = .next m' out) :
    Advances v offers m m' out := by
  unfold handleAssignedResponse at h
  cases hr : m.currentlyAssembled.lookup v with
  | none =>
    simp only [hr] at h
    cases h
    refine .refl fun received hl => ?_
    rw [hr] at hl
    cases hl
  | some received =>
    obtain ⟨hlen, hvalid, henough⟩ := hu received hr
    obtain ⟨hs, hrest⟩ := henough.uncons hlen
    simp only [hr] at h
    split at h
    · -- the shard is there already
      rename_i hmem
      cases h
      refine .refl fun received' hl => ?_
      rw [hr] at hl
      cases hl
      rw [Finset.insert_eq_of_mem (Finmap.mem_keys.2 hmem)] at hrest
      exact ⟨hlen, hvalid, hrest⟩
    · rename_i hnew
      have hvalid' : ∀ t ∈ received.insert s x, t.val < m.totalShards := by
        intro t ht
        rcases Finmap.mem_insert.1 ht with rfl | ht
        · exact hs
        · exact hvalid t ht
      have hother : ∀ u, u ≠ v → (m.currentlyAssembled.insert v (received.insert s x)).lookup u =
          m.currentlyAssembled.lookup u := fun u hu => Finmap.lookup_insert_of_ne _ hu
      have hsucc := Finmap.len_insert_new x hnew
      split at h
      · -- the last shard: all are valid, so they decode
        rename_i hfull
        have hk : m.sufficientShards = dataShardsCount := hw.data
        have hlen : (received.insert s x).len = dataShardsCount := by omega
        obtain ⟨d, hd, -⟩ :=
          decode_two hw hB (fun t ht => hvalid' t (Finmap.mem_keys.1 ht)) hlen
        simp only [hd] at h
        cases h
        exact
          { same := ⟨_, rfl⟩
            underway := fun received' hl => by
              rw [Finmap.lookup_erase_ite, if_pos rfl] at hl
              cases hl
            kept := fun _ => .inr ⟨d, List.mem_singleton.2 rfl⟩
            others := fun u hu => by rw [Finmap.lookup_erase_ite, if_neg hu] }
      · rename_i hfew
        cases h
        exact
          { same := ⟨_, rfl⟩
            underway := fun received' hl => by
              rw [Finmap.lookup_insert] at hl
              cases hl
              refine ⟨Nat.lt_of_not_le hfew, hvalid', ?_⟩
              rw [Finmap.keys_insert]
              exact hrest
            kept := fun _ => .inl (Finmap.mem_insert.2 (.inl rfl))
            others := hother }

/-! ## A request -/

theorem SameButAssembled.ownOffers (h : SameButAssembled m m') (v : Vid)
    (locations : List (Sid × PeerId)) : m'.ownOffers v locations = m.ownOffers v locations := by
  obtain ⟨a, rfl⟩ := h
  rfl

theorem gather_advances {C : MdsCode UInt8 dataShardsCount m.encoding.inner.totalShardCount}
    (hw : m.encoding.inner.Implements C) (hB : 0 < B) {locations : List (Sid × PeerId)}
    {offers : List Sid} (hu : m.Underway v (m.ownOffers v locations ++ offers))
    (h : gather m v locations = .next m' out) : Advances v offers m m' out := by
  induction locations generalizing m out with
  | nil => cases h; exact .refl hu
  | cons p rest ih =>
    obtain ⟨s, owner⟩ := p
    obtain ⟨t, o, o', ht, hg, rfl⟩ := Turn.andThen_eq_next.1 h
    have hstep : Advances v (m.ownOffers v rest ++ offers) m t o := by
      by_cases ho : owner = m.localId
      · rw [if_pos ho] at ht
        cases hx : m.getShard (v, s) with
        | none =>
          have hskip : m.ownOffers v ((s, owner) :: rest) = m.ownOffers v rest := by
            simp [InitializedDataMemory.ownOffers, hx]
          rw [hskip] at hu
          rw [hx] at ht
          cases ht
          exact .refl hu
        | some x =>
          have htake : m.ownOffers v ((s, owner) :: rest) = s :: m.ownOffers v rest := by
            simp [InitializedDataMemory.ownOffers, hx, ho]
          rw [htake] at hu
          rw [hx] at ht
          exact handleAssignedResponse_some hw hB hu ht
      · have hskip : m.ownOffers v ((s, owner) :: rest) = m.ownOffers v rest := by
          simp [InitializedDataMemory.ownOffers, ho]
        rw [hskip] at hu
        rw [if_neg ho] at ht
        cases ht
        exact .refl hu
    have hunder := hstep.underway
    rw [← hstep.same.ownOffers v rest] at hunder
    obtain ⟨a, rfl⟩ := hstep.same
    exact hstep.trans (ih hw hunder hg)

/-- A request is answered with an error, or its data is being assembled or reported. -/
theorem handleRecollectRequest_advances
    {C : MdsCode UInt8 dataShardsCount m.encoding.inner.totalShardCount}
    (hw : m.encoding.inner.Implements C) (hB : 0 < B) {offers : List Sid}
    (hu : m.Underway v offers)
    (hs : m.Collects v → m.Enough ∅
      (m.ownOffers v ((m.dataKnownLocations.orDefault v).iter order.sids) ++ offers))
    (h : m.handleRecollectRequest order v = .next m' out) :
    Advances v offers m m' out ∧ ((∃ e, OutEvent.recollectResponse (.error e) ∈ out) ∨
      v ∈ m'.currentlyAssembled ∨ ∃ x, OutEvent.recollectResponse (.ok (v, x)) ∈ out) := by
  unfold handleRecollectRequest at h
  cases hl : m.dataKnownLocations.lookup v with
  | none =>
    simp only [hl] at h
    cases h
    exact ⟨.refl hu, .inl ⟨_, List.mem_singleton.2 rfl⟩⟩
  | some locations =>
    simp only [hl] at h
    split at h
    · cases h
      exact ⟨.refl hu, .inl ⟨_, List.mem_singleton.2 rfl⟩⟩
    · rename_i hmany
      split at h
      · rename_i hmem
        cases h
        exact ⟨.refl hu, .inr (.inl hmem)⟩
      · rename_i hnew
        have henough := hs ⟨hnew, locations, hl, Nat.le_of_not_lt hmany⟩
        rw [Finmap.orDefault_some hl] at henough
        -- the assembly starts with no shards
        have hstart : InitializedDataMemory.Underway
            { m with currentlyAssembled := m.currentlyAssembled.insert v ∅ } v
            (m.ownOffers v (locations.iter order.sids) ++ offers) := by
          intro received hr
          dsimp only at hr
          rw [Finmap.lookup_insert] at hr
          cases hr
          have hk : m.sufficientShards = dataShardsCount := hw.data
          refine ⟨?_, fun s hs => absurd hs Finmap.notMem_empty, ?_⟩
          · show Finmap.len (∅ : HashMap Sid (Shard B)) < m.sufficientShards
            rw [hk, Finmap.len_empty]
            exact Nat.two_pos
          · rw [Finmap.keys_empty]
            exact henough
        have hg := gather_advances
          (m := { m with currentlyAssembled := m.currentlyAssembled.insert v ∅ }) hw hB hstart h
        have hkept := hg.kept (Finmap.mem_insert.2 (.inl rfl))
        exact
          ⟨{ same := SameButAssembled.trans ⟨_, rfl⟩ hg.same
             underway := hg.underway
             kept := fun _ => hkept
             others := fun u hu => (hg.others u hu).trans (Finmap.lookup_insert_of_ne _ hu) },
            .inr hkept⟩

/-! ## Runs -/

/-- The inputs to come are enough for every assembly, under way or still to start. -/
structure Provided (m : InitializedDataMemory B) (is : List (Input B)) : Prop where
  works : Works m.encoding
  underway : ∀ v, m.Underway v (is.filterMap (Input.offers v))
  supplied : m.Supplied is

theorem Advances.underway_all {is : List (Input B)}
    (h : Advances v (is.filterMap (Input.offers v)) m m' out)
    (hu : ∀ u, u ≠ v → m.Underway u (is.filterMap (Input.offers u))) (u : Vid) :
    m'.Underway u (is.filterMap (Input.offers u)) := by
  by_cases huv : u = v
  · rw [huv]
    exact h.underway
  · exact (hu u huv).congr h.same.fixed.2.1 (h.others u huv)

/-- An input that is neither an answer with a shard nor a request leaves the assemblies alone. -/
theorem assembled_turn {i : Input B} (h : m.turn i = .next m' out)
    (ha : ∀ order f x, i ≠ .event order (.assignedResponse f (some x)))
    (hr : ∀ order v, i ≠ .event order (.recollectRequest v)) :
    m'.currentlyAssembled = m.currentlyAssembled := by
  cases i with
  | busRead v => cases h; rfl
  | busWrite v x =>
    cases h
    exact currentlyAssembled_busWrite v x
  | event order e =>
    exact currentlyAssembled_handle h (fun f x he => ha order f x (he ▸ rfl))
      fun v he => hr order v (he ▸ rfl)

/-- **One turn**: the inputs stay enough, no assembly ends without a report, and a request is
answered or its data is being assembled. -/
theorem Provided.step (hB : 0 < B) {i : Input B} {is : List (Input B)}
    (h : m.Provided (i :: is)) (ht : m.turn i = .next m' out) :
    m'.Provided is ∧
    (∀ v ∈ m.currentlyAssembled,
      v ∈ m'.currentlyAssembled ∨ ∃ x, OutEvent.recollectResponse (.ok (v, x)) ∈ out) ∧
    ∀ order v, i = .event order (.recollectRequest v) →
      (∃ e, OutEvent.recollectResponse (.error e) ∈ out) ∨
        v ∈ m'.currentlyAssembled ∨ ∃ x, OutEvent.recollectResponse (.ok (v, x)) ∈ out := by
  obtain ⟨⟨C, hw⟩, hunder, hreq, hrest⟩ := h
  have hfixed := (turn_fixed ht).2.1
  have hsupplied : m'.Supplied is := by
    rw [ht] at hrest
    exact hrest
  have hworks : Works m'.encoding := by
    rw [hfixed]
    exact ⟨C, hw⟩
  -- the assemblies after the turn, once it is known which data it is about
  have hkept : ∀ {v}, Advances v (is.filterMap (Input.offers v)) m m' out →
      ∀ u ∈ m.currentlyAssembled,
        u ∈ m'.currentlyAssembled ∨ ∃ x, OutEvent.recollectResponse (.ok (u, x)) ∈ out := by
    intro v ha u hu
    by_cases huv : u = v
    · subst huv
      exact ha.kept hu
    · refine .inl ?_
      rw [← Finmap.lookup_isSome, ha.others u huv, Finmap.lookup_isSome]
      exact hu
  by_cases hans : ∃ order f x, i = .event order (.assignedResponse f (some x))
  · obtain ⟨order, ⟨v, s⟩, x, rfl⟩ := hans
    have hv := hunder v
    rw [List.filterMap_cons_some (b := s) (by simp [Input.offers])] at hv
    have ha := handleAssignedResponse_some hw hB hv ht
    refine ⟨⟨hworks, ha.underway_all fun u hu => ?_, hsupplied⟩, hkept ha, by simp⟩
    have hother := hunder u
    rwa [List.filterMap_cons_none (by simp [Input.offers, Ne.symm hu])] at hother
  by_cases hrec : ∃ order v, i = .event order (.recollectRequest v)
  · obtain ⟨order, v, rfl⟩ := hrec
    have hskip : ∀ u, m.Underway u (is.filterMap (Input.offers u)) := fun u => by
      have hu := hunder u
      rwa [List.filterMap_cons_none rfl] at hu
    obtain ⟨ha, hconcl⟩ := handleRecollectRequest_advances hw hB (hskip v)
      (hreq order v rfl) ht
    refine ⟨⟨hworks, ha.underway_all fun u _ => hskip u, hsupplied⟩, hkept ha, ?_⟩
    intro order' u hu
    cases hu
    exact hconcl
  · have hoff : ∀ u, Input.offers u i = none := by
      intro u
      unfold Input.offers
      split
      · rename_i order f x
        exact absurd ⟨order, f, x, rfl⟩ hans
      · rfl
    have hsame := assembled_turn ht (fun order f x he => hans ⟨order, f, x, he⟩)
      (fun order v he => hrec ⟨order, v, he⟩)
    refine ⟨⟨hworks, fun u => ?_, hsupplied⟩, fun u hu => .inl (hsame ▸ hu),
      fun order v he => absurd ⟨order, v, he⟩ hrec⟩
    have hu := hunder u
    rw [List.filterMap_cons_none (hoff u)] at hu
    exact hu.congr hfixed (by rw [hsame])

theorem Provided.run (hB : 0 < B) {is js : List (Input B)} (h : m.Provided (is ++ js))
    (hl : Turn.loop turn m is = .next m' out) :
    m'.Provided js ∧ ∀ v ∈ m.currentlyAssembled,
      v ∈ m'.currentlyAssembled ∨ ∃ x, OutEvent.recollectResponse (.ok (v, x)) ∈ out := by
  induction is generalizing m out with
  | nil =>
    cases hl
    exact ⟨h, fun _ hv => .inl hv⟩
  | cons i is ih =>
    obtain ⟨t, o, o', ht, hrest, rfl⟩ := Turn.loop_cons_next.1 hl
    obtain ⟨hprov, hkept, -⟩ := h.step hB ht
    obtain ⟨hend, hkept'⟩ := ih hprov hrest
    refine ⟨hend, fun v hv => ?_⟩
    rcases hkept v hv with hv | ⟨x, hx⟩
    · rcases hkept' v hv with hv | ⟨x, hx⟩
      · exact .inl hv
      · exact .inr ⟨x, List.mem_append_right _ hx⟩
    · exact .inr ⟨x, List.mem_append_left _ hx⟩

/-- With no inputs to come, nothing is being assembled. -/
theorem Provided.idle (h : m.Provided []) : m.currentlyAssembled = ∅ := by
  refine Finmap.ext_lookup fun v => ?_
  rw [Finmap.lookup_empty]
  by_contra hne
  obtain ⟨received, hr⟩ := Option.ne_none_iff_exists'.1 hne
  obtain ⟨hlen, -, os, hos, hcard, -⟩ := h.underway v received hr
  obtain rfl := List.prefix_nil.1 hos
  rw [List.toFinset_nil, Finset.union_empty] at hcard
  exact absurd hcard (Nat.not_le_of_lt hlen)

/-- **Recollections end**: in every run in which each request that starts to collect is offered
enough valid shards, nothing is left being assembled and every request is followed by the
response that concludes it. -/
theorem recollections_concluded
    {C : MdsCode UInt8 dataShardsCount m.encoding.inner.totalShardCount}
    (works : m.encoding.inner.Implements C) (positive : 0 < B) (idle : m.currentlyAssembled = ∅)
    {is : List (Input B)} (supplied : m.Supplied is)
    (run : Turn.loop turn m is = .next m' out) :
    m'.currentlyAssembled = ∅ ∧
    ∀ js order v ks, is = js ++ .event order (.recollectRequest v) :: ks →
      ∀ t t' before now later, Turn.loop turn m js = .next t before →
        t.handleRecollectRequest order v = .next t' now → Turn.loop turn t' ks = .next m' later →
        Concludes v now later := by
  have hunder : ∀ v, m.Underway v (is.filterMap (Input.offers v)) := fun v received hr => by
    rw [idle] at hr
    cases hr
  have hstart : m.Provided is := ⟨⟨C, works⟩, hunder, supplied⟩
  have hend : ∀ {t : InitializedDataMemory B} {ks : List (Input B)} {later : List (OutEvent B)},
      t.Provided ks → Turn.loop turn t ks = .next m' later →
      m'.currentlyAssembled = ∅ ∧ ∀ v ∈ t.currentlyAssembled,
        ∃ x, OutEvent.recollectResponse (.ok (v, x)) ∈ later := by
    intro t ks later hp hl
    rw [← List.append_nil ks] at hp
    obtain ⟨hp', hkept⟩ := hp.run positive hl
    refine ⟨hp'.idle, fun v hv => (hkept v hv).resolve_left ?_⟩
    rw [hp'.idle]
    exact Finmap.notMem_empty
  refine ⟨(hend hstart run).1, fun js order v ks his t t' before now later hjs hreq hks => ?_⟩
  rw [his] at hstart
  obtain ⟨hprov, -⟩ := hstart.run positive hjs
  obtain ⟨hprov', -, hconcl⟩ := hprov.step positive hreq
  rcases hconcl order v rfl with he | hv | ⟨x, hx⟩
  · exact .inl he
  · obtain ⟨x, hx⟩ := (hend hprov' hks).2 v hv
    exact .inr ⟨x, List.mem_append_right _ hx⟩
  · exact .inr ⟨x, List.mem_append_left _ hx⟩

/-- Peers 1 and 2 confirm their shards of address 0, and peer 0 asks for the data. -/
def recollectInputs : List (Input 4) :=
  [.event default (.storeConfirmed (⟨0⟩, ⟨1⟩) (samplePeer 1)),
    .event default (.storeConfirmed (⟨0⟩, ⟨2⟩) (samplePeer 2)),
    .event default (.recollectRequest ⟨0⟩)]

/-- The answers of peers 1 and 2. -/
def recollectAnswers (first second : Option (Shard 4)) : List (Input 4) :=
  [.event default (.assignedResponse (⟨0⟩, ⟨1⟩) first),
    .event default (.assignedResponse (⟨0⟩, ⟨2⟩) second)]

theorem recollections_concluded_sample :
    ∃ m' out, Turn.loop turn sampleMemory
        (recollectInputs ++ recollectAnswers (some ⟨fun _ => 1⟩) (some ⟨fun _ => 2⟩)) =
          .next m' out ∧
      m'.currentlyAssembled = ∅ := by
  have run : Turn.loop turn sampleMemory
      (recollectInputs ++ recollectAnswers (some ⟨fun _ => 1⟩) (some ⟨fun _ => 2⟩)) =
        .next _ _ := rfl
  refine ⟨_, _, run, (recollections_concluded (m := sampleMemory) OneParity.coder_implements
    (by decide) rfl ?_ run).1⟩
  refine ⟨by simp, by simp, ?_, by simp, by simp, trivial⟩
  intro order v hi _
  cases hi
  exact ⟨[⟨1⟩, ⟨2⟩], by decide +kernel, by decide +kernel, by decide +kernel⟩

/-- Both peers answer that they do not have their shards. No response is given, the entry stays,
and asking again has no effect. -/
theorem missing_shards_hang :
    ∃ m', Turn.loop turn sampleMemory (recollectInputs ++ recollectAnswers none none) =
        .next m' [.distributionSufficient ⟨0⟩,
          .assignedRequest (⟨0⟩, ⟨1⟩) (samplePeer 1), .assignedRequest (⟨0⟩, ⟨2⟩) (samplePeer 2)] ∧
      m'.currentlyAssembled.lookup ⟨0⟩ = some ∅ ∧
      m'.handle default (.recollectRequest ⟨0⟩) = .next m' [] :=
  ⟨_, rfl, rfl, rfl⟩

end InitializedDataMemory

end Swarm.DataMemory
