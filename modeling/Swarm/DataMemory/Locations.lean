import Swarm.Lib.Override
import Swarm.DataMemory.Events

/-!
# Location tables converge

Two nodes may recognise the same reports about where shards are kept in
different orders. Each report overrides entries of the table of known locations,
so the tables are the same exactly when no two reports name different keepers of
one shard. A distribution is accepted when every Sid has a peer; it may have two.
-/

namespace Swarm.DataMemory

open Override Swarm.Encoding

variable {B : Nat}

/-- The event by which the input reports locations. -/
def Input.report : Input B → Option (InEvent B)
  | .event _ (.storeConfirmed fullShardId location) => some (.storeConfirmed fullShardId location)
  | .event _ (.peerShardsActualized peer updatedDataIds) =>
    some (.peerShardsActualized peer updatedDataIds)
  | _ => none

theorem Input.report_silent {order : HashOrder} {e : InEvent B} (h : e.Silent) :
    (Input.event order e).report = none := by
  cases e with
  | prepareServiceRequest _ _ | storeConfirmed _ _ | peerShardsActualized _ _ => exact h.elim
  | _ => rfl

/-- A report by a peer of the distribution; a confirmation is about its own Sid. -/
def InEvent.ReportBy (distribution : HashMap PeerId Sid) : InEvent B → Prop
  | .storeConfirmed fullShardId location => distribution.lookup location = some fullShardId.2
  | .peerShardsActualized peer _ => peer ∈ distribution
  | _ => False

namespace InitializedDataMemory

variable {m m' : InitializedDataMemory B} {out : List (OutEvent B)}

theorem knownLocation_congr (h : m'.dataKnownLocations = m.dataKnownLocations) :
    m'.knownLocation = m.knownLocation := by
  funext f
  rw [knownLocation, h, knownLocation]

theorem learns_congr (h : m'.distribution = m.distribution) (f : FullShardId) (e : InEvent B) :
    m'.learns f e = m.learns f e := by
  cases e <;> simp [learns, h]

theorem knownLocation_turn {i : Input B} (h : m.turn i = .next m' out) :
    m'.knownLocation = overrideAll (fun e f => m.learns f e) m.knownLocation
      i.report.toList := by
  funext f
  cases i with
  | busRead v => cases h; rfl
  | busWrite v x => cases h; simp [Input.report, overrideAll]
  | event order e =>
    rw [knownLocation_handle h f]
    cases e <;> rfl

theorem knownLocation_loop {is : List (Input B)} (h : Turn.loop turn m is = .next m' out) :
    m'.knownLocation = overrideAll (fun e f => m.learns f e) m.knownLocation
      (is.filterMap Input.report) := by
  refine (Turn.loop_invariant
    (I := fun js _ t => t.distribution = m.distribution ∧ t.knownLocation =
      overrideAll (fun e f => m.learns f e) m.knownLocation (js.filterMap Input.report))
    ⟨rfl, rfl⟩ ?_ h).2
  rintro js _ t i t' _ ⟨hd, hk⟩ hturn
  refine ⟨(turn_fixed hturn).1.trans hd, ?_⟩
  simp only [knownLocation_turn hturn, learns_congr hd, hk, List.filterMap_append,
    overrideAll_append]
  cases hi : i.report <;> simp [hi]

/-! ## Which data have a table -/

/-- The event reports a location of `v`. -/
def ReportsOn (v : Vid) : InEvent B → Prop
  | .storeConfirmed fullShardId _ => fullShardId.1 = v
  | .peerShardsActualized _ updatedDataIds => v ∈ updatedDataIds
  | _ => False

theorem mem_actualize (ls : HashMap Vid (HashMap Sid PeerId)) (s : Sid) (peer : PeerId)
    (ids : List Vid) (v : Vid) : v ∈ actualize ls s peer ids ↔ v ∈ ls ∨ v ∈ ids := by
  induction ids generalizing ls with
  | nil => simp [actualize]
  | cons u ids ih =>
    change v ∈ actualize (ls.insert u ((ls.orDefault u).insert s peer)) s peer ids ↔ _
    rw [ih, Finmap.mem_insert, List.mem_cons]
    tauto

theorem mem_dataKnownLocations_turn {i : Input B} (h : m.turn i = .next m' out) (v : Vid) :
    v ∈ m'.dataKnownLocations ↔ v ∈ m.dataKnownLocations ∨ ∃ e ∈ i.report, ReportsOn v e := by
  cases i with
  | busRead u => cases h; simp [Input.report]
  | busWrite u x => cases h; simp [Input.report]
  | event order e =>
    cases handle_moves h with
    | assembled same silent _ _ =>
      obtain ⟨a, rfl⟩ := same
      simp [Input.report_silent silent]
    | stored stores => simp [Input.report_silent (silent_of_stores stores), storeShard]
    | prepared _ => simp [Input.report, prepareToServeShards]
    | confirmed _ =>
      simp [observeNewLocation, Input.report, ReportsOn, Finmap.mem_insert, or_comm,
        eq_comm (a := v)]
    | actualized _ => simp [Input.report, ReportsOn, mem_actualize]

theorem mem_dataKnownLocations_loop {is : List (Input B)}
    (h : Turn.loop turn m is = .next m' out) (v : Vid) : v ∈ m'.dataKnownLocations ↔
      v ∈ m.dataKnownLocations ∨ ∃ e ∈ is.filterMap Input.report, ReportsOn v e := by
  refine Turn.loop_invariant
    (I := fun js _ t => v ∈ t.dataKnownLocations ↔
      v ∈ m.dataKnownLocations ∨ ∃ e ∈ js.filterMap Input.report, ReportsOn v e) (by simp) ?_ h
  intro js _ t i t' _ hm hturn
  rw [mem_dataKnownLocations_turn hturn, hm, or_assoc, ← exists_or]
  simp only [List.filterMap_append, List.mem_append, or_and_right]
  cases hi : i.report <;> simp [hi, eq_comm]

/-! ## Convergence -/

theorem filterMap_report {distribution : HashMap PeerId Sid} {events : List (InEvent B)}
    (hev : ∀ e ∈ events, e.ReportBy distribution) :
    (events.map (Input.event default)).filterMap Input.report = events := by
  rw [List.filterMap_map]
  refine (List.filterMap_congr fun e he => ?_).trans List.filterMap_some
  cases e <;> first | rfl | exact (hev _ he).elim

theorem loop_reports_continues {distribution : HashMap PeerId Sid}
    (hd : m.distribution = distribution) {events : List (InEvent B)}
    (hev : ∀ e ∈ events, e.ReportBy distribution) :
    (Turn.loop turn m (events.map (.event default))).Continues := by
  induction events generalizing m with
  | nil => trivial
  | cons e events ih =>
    have hturn : (m.turn (.event default e)).Continues := by
      have he := hev e List.mem_cons_self
      cases e with
      | storeConfirmed f location => exact handleStoreConfirmed_continues f location
      | peerShardsActualized peer ids =>
        obtain ⟨s, hs⟩ := Finmap.mem_iff.1 he
        simp [turn, handle, handlePeerShardsActualized, hd, hs]
      | _ => exact he.elim
    obtain ⟨t, o, ht⟩ := Turn.continues_iff.1 hturn
    obtain ⟨t', o', ht'⟩ := Turn.continues_iff.1
      (ih ((turn_fixed ht).1.trans hd) fun e he => hev e (List.mem_cons_of_mem _ he))
    rw [List.map_cons, Turn.loop_cons, ht, Turn.andThen, ht']
    trivial

/-- A distribution that is accepted and has no more peers than shards gives each peer a Sid of
its own. -/
theorem keeper_unique {u : UninitializedDataMemory} {distribution : HashMap PeerId Sid}
    (hv : u.verifyDistribution distribution)
    (hlen : distribution.len ≤ u.encoding.settings.dataShardsTotal) {p q : PeerId} {s : Sid}
    (hp : distribution.lookup p = some s) (hq : distribution.lookup q = some s) : p = q := by
  have hsids : (distribution.entries.map Sigma.snd).toFinset =
      (Finset.range u.encoding.settings.dataShardsTotal).image Sid.mk := by
    simpa [UninitializedDataMemory.verifyDistribution] using hv
  have htotal : (distribution.entries.map Sigma.snd).toFinset.card =
      u.encoding.settings.dataShardsTotal := by
    rw [hsids, Finset.card_image_of_injective _ fun a b h => Sid.mk.inj h, Finset.card_range]
  have hcard : (distribution.entries.map Sigma.snd).card = distribution.len := by
    rw [Multiset.card_map, Finmap.len]
    exact (Multiset.card_map Sigma.fst distribution.entries).symm
  have hnodup : (distribution.entries.map Sigma.snd).Nodup :=
    Multiset.toFinset_card_eq_card_iff_nodup.1
      (le_antisymm (Multiset.toFinset_card_le _) (by omega))
  have hpq := Multiset.inj_on_of_nodup_map hnodup _ (Finmap.lookup_eq_some_iff.1 hp) _
    (Finmap.lookup_eq_some_iff.1 hq) rfl
  exact congrArg Sigma.fst hpq

theorem learns_reportBy {distribution : HashMap PeerId Sid} (hd : m.distribution = distribution)
    {e : InEvent B} (he : e.ReportBy distribution) {f : FullShardId} {p : PeerId}
    (h : m.learns f e = some p) : distribution.lookup p = some f.2 := by
  cases e with
  | storeConfirmed g location =>
    simp only [learns] at h
    split at h
    · rename_i hg
      cases h
      exact hg ▸ he
    · cases h
  | peerShardsActualized peer ids =>
    simp only [learns] at h
    split at h
    · rename_i hf
      cases h
      exact hd ▸ hf.2
    · cases h
  | _ => exact he.elim

/-- **Location tables converge** exactly for reports that agree on the keeper of each shard:
whatever two nodes with one distribution and one table receive, if they recognise these
reports, in whatever orders, their tables are the same. Reports always agree if the
distribution has no more peers than shards. -/
theorem locations_converge_iff {m₁ m₂ : InitializedDataMemory B}
    (hd : m₂.distribution = m₁.distribution)
    (hk : m₂.dataKnownLocations = m₁.dataKnownLocations) {events : List (InEvent B)}
    (hev : ∀ e ∈ events, e.ReportBy m₁.distribution) :
    ((∀ is₁ is₂ m₁' m₂' out₁ out₂, (is₁.filterMap Input.report).Perm events →
        (is₂.filterMap Input.report).Perm events → Turn.loop turn m₁ is₁ = .next m₁' out₁ →
        Turn.loop turn m₂ is₂ = .next m₂' out₂ →
        m₁'.dataKnownLocations = m₂'.dataKnownLocations) ↔
      ∀ e ∈ events, ∀ e' ∈ events, Agree (fun f => m₁.learns f e) (fun f => m₁.learns f e')) ∧
    ∀ u : UninitializedDataMemory, u.verifyDistribution m₁.distribution →
      m₁.distribution.len ≤ u.encoding.settings.dataShardsTotal →
      ∀ e ∈ events, ∀ e' ∈ events, Agree (fun f => m₁.learns f e) (fun f => m₁.learns f e') := by
  have hk' : m₂.knownLocation = m₁.knownLocation := knownLocation_congr hk
  have hlearns : (fun (e : InEvent B) f => m₂.learns f e) = fun e f => m₁.learns f e := by
    funext e f
    exact learns_congr hd f e
  refine ⟨⟨fun h => overrideAll_converges_iff (M := m₁.knownLocation).1 fun es fs hes hfs => ?_,
    fun h is₁ is₂ m₁' m₂' out₁ out₂ h₁ h₂ hl₁ hl₂ => ?_⟩, ?_⟩
  · have hes' : ∀ e ∈ es, e.ReportBy m₁.distribution := fun e he => hev e (hes.mem_iff.1 he)
    have hfs' : ∀ e ∈ fs, e.ReportBy m₁.distribution := fun e he => hev e (hfs.mem_iff.1 he)
    obtain ⟨m₁', out₁, hl₁⟩ := Turn.continues_iff.1 (loop_reports_continues (m := m₁) rfl hes')
    obtain ⟨m₂', out₂, hl₂⟩ := Turn.continues_iff.1 (loop_reports_continues (m := m₂) hd hfs')
    have heq := h _ _ m₁' m₂' out₁ out₂ ((filterMap_report hes').symm ▸ hes)
      ((filterMap_report hfs').symm ▸ hfs) hl₁ hl₂
    have htable : m₁'.knownLocation = m₂'.knownLocation := knownLocation_congr heq
    rwa [knownLocation_loop hl₁, knownLocation_loop hl₂, filterMap_report hes',
      filterMap_report hfs', hk', hlearns] at htable
  · have htable : m₁'.knownLocation = m₂'.knownLocation := by
      rw [knownLocation_loop hl₁, knownLocation_loop hl₂, hk', hlearns]
      exact overrideAll_converges_iff.2 h _ _ h₁ h₂
    refine Finmap.ext_orDefault (fun v => ?_) fun v s => congrFun htable (v, s)
    rw [mem_dataKnownLocations_loop hl₁, mem_dataKnownLocations_loop hl₂, hk]
    simp only [h₁.mem_iff, h₂.mem_iff]
  · intro u hv hlen e he e' he' f p q hp hq
    exact keeper_unique hv hlen (learns_reportBy rfl (hev e he) hp)
      (learns_reportBy rfl (hev e' he') hq)

/-- The shard of address 0 on peer 1, and the results of peer 2 for the same address. -/
def sampleReports : List (InEvent 4) :=
  [.storeConfirmed (⟨0⟩, ⟨1⟩) (samplePeer 1), .peerShardsActualized (samplePeer 2) [⟨0⟩]]

/-- Peer 0, and peer 1 that recognises the reports in the other order. -/
theorem locations_converge_sample :
    ∃ (m₁ m₂ : InitializedDataMemory 4) (out₁ out₂ : List (OutEvent 4)),
      Turn.loop turn sampleMemory (sampleReports.map (.event default)) = .next m₁ out₁ ∧
      Turn.loop turn { sampleMemory with localId := samplePeer 1 }
        (sampleReports.reverse.map (.event default)) = .next m₂ out₂ ∧
      m₁.dataKnownLocations = m₂.dataKnownLocations := by
  have hev : ∀ e ∈ sampleReports, e.ReportBy (sampleMemory (B := 4)).distribution := by
    intro e he
    simp only [sampleReports, List.mem_cons, List.not_mem_nil, or_false] at he
    rcases he with rfl | rfl
    · rfl
    · exact Finmap.mem_iff.2 ⟨⟨2⟩, rfl⟩
  have h := @locations_converge_iff 4 sampleMemory
    { sampleMemory with localId := samplePeer 1 } rfl rfl sampleReports hev
  have hagree := h.2 ⟨OneParity.wrapper, samplePeer 0⟩ (by decide +kernel) (by decide +kernel)
  exact ⟨_, _, _, _, rfl, rfl,
    h.1.2 hagree (sampleReports.map (.event default)) (sampleReports.reverse.map (.event default))
      _ _ _ _ (.refl _) (List.reverse_perm sampleReports) rfl rfl⟩

/-- Four peers, two of which keep shard 0, and three shards. -/
def sharedDistribution : HashMap PeerId Sid :=
  ((((∅ : HashMap PeerId Sid).insert (samplePeer 0) ⟨0⟩).insert (samplePeer 1) ⟨1⟩).insert
    (samplePeer 2) ⟨2⟩).insert (samplePeer 3) ⟨0⟩

/-- Peers 0 and 3 both confirm shard 0 of address 0. The distribution is accepted, and the last
of the two confirmations decides where the shard is known to be. -/
theorem shared_shard_diverges :
    ∃ (u : UninitializedDataMemory) (m m' : InitializedDataMemory 4) (out out' : List (OutEvent 4)),
      u.verifyDistribution sharedDistribution ∧
      sharedDistribution.lookup (samplePeer 0) = some ⟨0⟩ ∧
      sharedDistribution.lookup (samplePeer 3) = some ⟨0⟩ ∧
      Turn.loop turn (u.initializeWith sharedDistribution)
        [.event default (.storeConfirmed (⟨0⟩, ⟨0⟩) (samplePeer 0)),
          .event default (.storeConfirmed (⟨0⟩, ⟨0⟩) (samplePeer 3))] = .next m out ∧
      Turn.loop turn (u.initializeWith sharedDistribution)
        [.event default (.storeConfirmed (⟨0⟩, ⟨0⟩) (samplePeer 3)),
          .event default (.storeConfirmed (⟨0⟩, ⟨0⟩) (samplePeer 0))] = .next m' out' ∧
      m.dataKnownLocations ≠ m'.dataKnownLocations := by
  refine ⟨⟨OneParity.wrapper, samplePeer 1⟩, _, _, _, _, by decide +kernel, by decide +kernel,
    by decide +kernel, rfl, rfl, ?_⟩
  decide +kernel

end InitializedDataMemory

end Swarm.DataMemory
