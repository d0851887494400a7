import Swarm.Network.Deployment
import Swarm.Network.Distribution
import Swarm.Network.Locations
import Swarm.Network.Notifications

/-!
# A confirmed put is stored everywhere

In a network without programs, where no address is put twice, a node confirms a
put to its user only when every peer stores its shard. The shard is the one of
what was put, and it stays.

The network of machines only leaves messages out, so it keeps this, and what
stored and recollected data are: `deployed_puts`.
-/

namespace Swarm.Network

open Swarm.DataMemory Swarm.Processor Swarm.Consensus Swarm.Encoding Swarm.Node
open Swarm.Behaviour (Request Response ProcessedRequests Send)

variable {B : Nat}

namespace Setup

/-! ## Confirmations -/

/-- `K v` says that every peer holds its shard of `v`. -/
def OutputFull (K : Vid → Prop) (_p : PeerId) : Output B → Prop
  | .memory (.distributionFull v) => K v
  | _ => True

variable {S : Setup} {C : MdsCode UInt8 dataShardsCount S.encoding.inner.totalShardCount}
  {D : Vid → Option (PeerId × Data B)} {p : PeerId} {c : Choice} {node : Node B}
  {r : NodeReaction B} {K : Vid → Prop} {v : Vid} {s s' : State B}

/-- The event that completes a distribution leaves all shards located. -/
theorem card_of_completes {m m' : InitializedDataMemory B} {order : HashOrder}
    {e : DataMemory.InEvent B} {out : List (DataMemory.OutEvent B)} (ha : S.MemoryAddressed p m)
    (hh : m.handle order e = .next m' out) (h : .distributionFull v ∈ out) :
    (m'.knownSids v).card = S.dataShardsTotal := by
  obtain ⟨sid, hsid, hcard⟩ :=
    (InitializedDataMemory.distributionFull_turn (i := .event order e) hh v).1 h
  rw [InitializedDataMemory.knownSids_turn (i := .event order e) hh v, ← ha.totalShards, ← hcard]
  have hreports : (Input.event order e).reports m.distribution v = some sid := by
    cases e with
    | storeConfirmed f location => exact hsid
    | _ => cases hsid
  rw [hreports, Option.toFinset_some, Finset.union_comm]
  rfl

/-- If all shards are located at a node, all peers hold them. -/
theorem held_of_card (hb : S.Bijective) (ha : S.Addressed s)
    (hsound : S.Sound ∅ (S.Holds s) s)
    (hcard : ((s.nodes p).tile.memory.knownSids v).card = S.dataShardsTotal) (q : PeerId) :
    S.Holds s q v := by
  intro sid hq
  have hknown := (hb.card_knownSids (ha.nodes p).memory v).2.1 hcard q sid hq
  obtain ⟨q', hq'⟩ := Option.isSome_iff_exists.1 (InitializedDataMemory.mem_knownSids.1 hknown)
  obtain rfl := hb.injective q' q sid ((ha.nodes p).memory.located _ _ hq') hq
  exact (hsound.nodes p).located _ _ hq' sid hq

/-- A full distribution is reported by the event that completes it. -/
theorem full_receive {m : Message B} (hn : S.NodeAddressed p node)
    (hr : S.receive p c node m = some r)
    (hK : ∀ v, (r.node.tile.memory.knownSids v).card = S.dataShardsTotal → K v) :
    ∀ o ∈ r.outputs, OutputFull K p o := by
  intro o ho
  cases o with
  | memory e =>
    cases e with
    | distributionFull v =>
      cases receive_reacts hr with
      | handled moves =>
        cases moves with
        | @handled _ _ memory out running turn =>
          obtain ⟨o, ho, he⟩ := List.mem_map.1 ho
          cases o with
          | memory e =>
            cases he
            exact hK v (card_of_completes hn.memory turn (by simpa using ho))
          | finishedExecution id results => cases he
        | ended => cases ho
      | started moves => cases moves; cases ho
      | instructed =>
        obtain ⟨e, -, he⟩ := List.mem_map.1 ho
        cases he
      | passed notMemory sent waits =>
        obtain ⟨e, he⟩ := mem_behave_outputs ho
        cases he
    | _ => trivial
  | _ => trivial

/-! ## Runs -/

/-- What confirmations say, in a run of puts. -/
structure Confirming (S : Setup) (s : State B) : Prop where
  sound : S.Sound ∅ (S.Holds s) s
  full : ∀ p v, (p, .memory (.distributionFull v)) ∈ s.log → ∀ q, S.Holds s q v

theorem confirming_init : S.Confirming (S.init : State B) where
  sound := sound_init
  full := by rintro p v h; cases h

theorem Confirming.step (hw : S.encoding.inner.Implements C) (hB : 0 < B) (hb : S.Bijective)
    {a : Action B} (ha : S.Addressed s) (honest : S.Honest C D s) (h : S.Confirming s)
    (hallowed : ∀ p c b, a = .act p c b → Allowed D p b) (hs : S.step s a = some s') :
    S.Confirming s' := by
  have ha' := ha.step hs
  have grounded : S.Grounded s a := by
    cases a with
    | act p c b => trivial
    | deliver i c =>
      simp only [Grounded]
      cases hi : s.pool[i]? with
      | none => trivial
      | some e =>
        obtain ⟨p, m⟩ := e
        have hm := honest.pool p m (List.mem_of_getElem? hi)
        cases m with
        | processorIn program => exact hm.elim
        | memoryIn e =>
          cases e with
          | peerShardsActualized peer ids => exact hm.elim
          | _ => trivial
        | _ => trivial
  have hsound' : S.Sound ∅ (S.Holds s') s' :=
    h.sound.step ⟨C, hw⟩ hB (Set.injOn_empty _) ha grounded
      (fun p c program he => (hallowed p c _ he).elim) hs
  have hbefore : s.Everywhere (fun _ _ => True) (fun _ _ => True)
      (OutputFull fun v => ∀ q, S.Holds s' q v) := by
    refine ⟨fun _ => trivial, fun _ _ _ => trivial, fun p o ho => ?_⟩
    cases o with
    | memory e =>
      cases e with
      | distributionFull v => exact fun q => holds_step ha hs (h.full p v ho q)
      | _ => trivial
    | _ => trivial
  have hafter : s'.Everywhere (fun _ _ => True) (fun _ _ => True)
      (OutputFull fun v => ∀ q, S.Holds s' q v) := by
    refine hbefore.step ?_ ?_ hs
    · rintro i p c m r rfl hi hr hnode
      exact ⟨trivial, fun _ _ _ => trivial, full_receive (ha.nodes p) hr fun v hv =>
        held_of_card hb ha' hsound' (hnode ▸ hv)⟩
    · rintro p c b r rfl hr -
      obtain ⟨-, e, rfl, rfl⟩ := (honest.nodes p).idle.act_user hr
      refine ⟨trivial, fun _ _ _ => trivial, fun o ho => ?_⟩
      obtain ⟨e, rfl⟩ := mem_behave_outputs ho
      trivial
  exact ⟨hsound', fun p v hmem => hafter.log p _ hmem⟩

/-- A run of puts of `D`, no address twice. -/
theorem confirming_run (hw : S.encoding.inner.Implements C) (hB : 0 < B) (hb : S.Bijective)
    (hauthors : ∀ v a d, D v = some (a, d) → a ∈ S.peers) {as : List (Action B)}
    (hallowed : ∀ p c b, .act p c b ∈ as → Allowed D p b) (distinct : (putVids as).Nodup)
    (run : S.Run as s) : S.Confirming s := by
  induction run with
  | nil => exact confirming_init
  | @snoc s t as a run hs ih =>
    have hallowed' : ∀ p c b, .act p c b ∈ as → Allowed D p b :=
      fun p c b hmem => hallowed p c b (List.mem_append_left _ hmem)
    have distinct' : (putVids as).Nodup := by
      rw [putVids, puts, List.filterMap_append, List.map_append] at distinct
      exact distinct.of_append_left
    have h := distributing_run hw hB hb hauthors hallowed' distinct' run
    exact (ih hallowed' distinct').step hw hB hb h.addressed h.honest
      (fun p c b he => hallowed p c b (by simp [he])) hs

end Setup

/-! ## Deployments -/

namespace Deployment

variable {limit : Nat} {Sync : Type}

/-- The author, the address and the data of a put command. -/
def putIn : Action Sync B → Option (PeerId × Vid × Data B)
  | .act p _ (.command (.event (.put v d))) => some (p, v, d)
  | _ => none

/-- The puts that the users command in a run. -/
def commandedPuts (bs : List (Action Sync B)) : List (PeerId × Vid × Data B) := bs.filterMap putIn

/-- The put of peer `p` that a request is. -/
def putBy (p : PeerId) : Behaviour.InEvent B → Option (PeerId × Vid × Data B)
  | .put v d => some (p, v, d)
  | _ => none

theorem filter_commandedPuts (p : PeerId) (bs : List (Action Sync B)) :
    (commandedPuts bs).filter (·.1 = p) = (commanded p bs).filterMap (putBy p) := by
  induction bs with
  | nil => rfl
  | cons b bs ih =>
    have hcons : commandedPuts (b :: bs) = (putIn b).toList ++ commandedPuts bs := by
      cases hb : putIn b <;> simp [commandedPuts, hb]
    have hcons' : commanded p (b :: bs) = commanded p [b] ++ commanded p bs := by simp [commanded]
    have hone : (putIn b).toList.filter (·.1 = p) = (commanded p [b]).filterMap (putBy p) := by
      cases b with
      | deliver i c => rfl
      | act q c a =>
        by_cases hq : q = p
        · subst hq
          cases a with
          | command e =>
            cases e with
            | event e => cases e <;> simp [putIn, commanded, requestIn, commandOf, requestOf, putBy]
            | getMetrics => simp [putIn, commanded, requestIn, commandOf]
          | _ => simp [putIn, commanded, requestIn]
        · cases a with
          | command e =>
            cases e with
            | event e => cases e <;> simp [putIn, commanded, hq]
            | getMetrics => simp [putIn, commanded, hq]
          | _ => simp [putIn, commanded, hq]
    rw [hcons, hcons', List.filter_append, List.filterMap_append, hone, ih]

theorem filter_puts (p : PeerId) (as : List (Setup.Action B)) :
    (Setup.puts as).filter (·.1 = p) = (requested p (Actors.acts as)).filterMap (putBy p) := by
  induction as with
  | nil => rfl
  | cons a as ih =>
    have hcons : Setup.puts (a :: as) = (Setup.putOf a).toList ++ Setup.puts as := by
      cases ha : Setup.putOf a <;> simp [Setup.puts, ha]
    have hcons' : Actors.acts (a :: as) = Actors.acts [a] ++ Actors.acts as :=
      Actors.acts_append [a] as
    have hone : (Setup.putOf a).toList.filter (·.1 = p) =
        (requested p (Actors.acts [a])).filterMap (putBy p) := by
      cases a with
      | deliver i c => rfl
      | act q c b =>
        by_cases hq : q = p
        · subst hq
          cases b with
          | user e =>
            cases e <;> simp [Setup.putOf, Actors.acts, requested, requestsOf, requestOf, putBy]
          | _ => simp [Setup.putOf, Actors.acts, requested, requestsOf]
        · cases b with
          | user e => cases e <;> simp [Setup.putOf, Actors.acts, requested, requestsOf, hq]
          | _ => simp [Setup.putOf, Actors.acts, requested, requestsOf, hq]
    rw [hcons, hcons', requested_append, List.filter_append, List.filterMap_append, hone, ih]

theorem mem_requested {as : List (Setup.Action B)} {p : PeerId} {c : Choice}
    {e : Behaviour.InEvent B} (h : .act p c (.user e) ∈ as) (he : requestOf e = some e) :
    e ∈ requested p (Actors.acts as) := by
  refine List.mem_filterMap.2 ⟨.user e, List.mem_map.2 ⟨(p, .user e), ?_, rfl⟩, he⟩
  exact List.mem_filter.2 ⟨List.mem_filterMap.2 ⟨_, h, rfl⟩, by simp⟩

/-- The puts that were taken are among those that were commanded. -/
theorem puts_subperm {as : List (Setup.Action B)} {bs : List (Action Sync B)}
    {waits : PeerId → List (Behaviour.InEvent B)}
    (h : ∀ p, requested p (Actors.acts as) ++ waits p = commanded p bs) :
    (Setup.puts as).Subperm (commandedPuts bs) := by
  classical
  refine List.subperm_ext_iff.2 fun x _ => ?_
  have hcount : ∀ l : List (PeerId × Vid × Data B),
      l.count x = (l.filter (·.1 = x.1)).count x := fun l =>
    (List.count_filter (by simp)).symm
  rw [hcount, hcount (commandedPuts bs), filter_puts, filter_commandedPuts, ← h,
    List.filterMap_append, List.count_append]
  exact Nat.le_add_right ..

variable {D : Deployment} {bs : List (Action Sync B)} {t : State limit Sync B}

/-- **Puts in a deployment**: if no address is put twice and no program is scheduled, then whatever
is lost, full or shut down, stored shards are of what was put, a user gets what was put, and a put
is confirmed to a user only when every peer stores its shard. -/
theorem deployed_puts {C : MdsCode UInt8 dataShardsCount D.encoding.inner.totalShardCount}
    (hw : D.encoding.inner.Implements C) (hB : 0 < B) (hb : D.Bijective)
    (noProgram : ∀ p program, .scheduleProgram program ∉ commanded p bs)
    (distinct : ((commandedPuts bs).map fun x => x.2.1).Nodup) (run : D.Run bs t) :
    (∀ q f x, (t.nodes q).tile.memory.getShard f = some x →
      ∃ a d shards, (a, f.1, d) ∈ commandedPuts bs ∧ D.encoding.encode d = .ok shards ∧
        D.Assigned q f.2 ∧ shards.lookup f.2 = some x) ∧
    (∀ r v x, (r, .user (.getResponse (.ok (v, x)))) ∈ t.log →
      ∃ a, (a, v, x) ∈ commandedPuts bs) ∧
    (∀ r v, (r, .user (.putConfirmed v)) ∈ t.log → ∀ q sid, D.Assigned q sid →
      ((t.nodes q).tile.memory.getShard (v, sid)).isSome) := by
  obtain ⟨as, s, run', below, hrequests⟩ := deployment_refines hb.nodup run
  have hsub := puts_subperm hrequests
  have hnodes : ∀ q, (t.nodes q).tile = (s.nodes q).tile := fun q =>
    congrArg Node.tile (congrFun below.nodes q)
  have distinct' : (Setup.putVids as).Nodup := by
    obtain ⟨l, hperm, hsublist⟩ := hsub
    exact (hperm.map _).nodup_iff.1 (distinct.sublist (hsublist.map _))
  have hput : ∀ {v a d}, Setup.putFor (Setup.puts as) v = some (a, d) ↔
      (a, v, d) ∈ Setup.puts as := Setup.putFor_eq_some distinct'
  have hallowed : ∀ p c b, .act p c b ∈ as →
      Setup.Allowed (Setup.putFor (Setup.puts as)) p b := by
    intro p c b hmem
    cases b with
    | user e =>
      cases e with
      | put v d => exact hput.2 (List.mem_filterMap.2 ⟨_, hmem, rfl⟩)
      | scheduleProgram program =>
        have hrequested := mem_requested hmem rfl
        exact noProgram p program (hrequests p ▸ List.mem_append_left _ hrequested)
      | _ => trivial
    | _ => trivial
  have hauthors : ∀ v a d, Setup.putFor (Setup.puts as) v = some (a, d) → a ∈ D.peers :=
    fun v a d hD => Setup.author_mem_peers run' (hput.1 hD)
  have h := Setup.distributing_run hw hB hb hauthors hallowed distinct' run'
  have hconfirming := Setup.confirming_run hw hB hb hauthors hallowed distinct' run'
  refine ⟨fun q f x hx => ?_, fun r v x hx => ?_, fun r v hv q sid hq => ?_⟩
  · rw [hnodes] at hx
    obtain ⟨a, d, hD, hl⟩ := (h.honest.nodes q).memory.stored f x hx
    exact ⟨a, d, codeword C d, hsub.subset (hput.1 hD), encode_eq hw hB d,
      (h.addressed.nodes q).memory.stored f (Option.isSome_iff_exists.2 ⟨x, hx⟩), hl⟩
  · obtain ⟨a, hD⟩ := h.honest.log r _ (Setup.told_run run' rfl (below.log.subset hx))
    exact ⟨a, hsub.subset (hput.1 hD)⟩
  · rw [hnodes]
    refine (hconfirming.full r v (Setup.told_run run' rfl (below.log.subset hv)) q sid hq).resolve_right
      fun hwrites => ?_
    rw [(h.honest.nodes q).writes] at hwrites
    cases hwrites

open InitializedDataMemory (samplePeer)

/-- The author of the sample put recognises its transaction and stores its own shard. -/
def sampleStored : List (Action Unit 4) :=
  samplePut ++ .deliver 0 false ::
    (MachineAct.sendConsensus :: (List.replicate 2 samplePoll ++ [.dataMemory default])).map
      (.act (samplePeer 0) false)

theorem deployed_puts_stored : ∃ t : State 2 Unit 4,
    runAll sample.step sample.init sampleStored = some t ∧
      (∃ a d shards, (a, ⟨0⟩, d) ∈ commandedPuts sampleStored ∧
        sample.encoding.encode d = .ok shards ∧ sample.Assigned (samplePeer 0) ⟨0⟩ ∧
        shards.lookup ⟨0⟩ = some ⟨fun _ => 1⟩) := by
  obtain ⟨t, run, hstored⟩ : ∃ t : State 2 Unit 4,
      runAll sample.step sample.init sampleStored = some t ∧
        (t.nodes (samplePeer 0)).tile.memory.getShard (⟨0⟩, ⟨0⟩) = some ⟨fun _ => 1⟩ :=
    ⟨_, rfl, by decide +kernel⟩
  have noProgram : ∀ p program, .scheduleProgram program ∉ commanded p sampleStored := by
    intro p program
    simp [sampleStored, samplePut, samplePoll, commanded, requestIn, commandOf, requestOf]
  have h := deployed_puts OneParity.coder_implements (by decide) Setup.sample_bijective noProgram
    (by decide) (Trace.of_runAll run)
  exact ⟨t, run, h.1 (samplePeer 0) _ _ hstored⟩

end Deployment

end Swarm.Network
