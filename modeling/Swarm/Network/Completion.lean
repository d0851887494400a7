import Swarm.DataMemory.Recollection
import Swarm.Network.Confirmation
import Swarm.Network.Notifications
import Swarm.Network.Rest

/-!
# Puts complete

In a network without programs, where no address is put twice, a state without
further steps has confirmed every put to every user: `puts_complete`. With the
bound on the steps, such a state is always reached.
-/

namespace Swarm.Network

open Swarm.DataMemory Swarm.Processor Swarm.Consensus Swarm.Encoding Swarm.Node
open Swarm.Behaviour (Request Response ProcessedRequests Send)
open Actors (weigh)

variable {B : Nat}

namespace Setup

variable {S : Setup} {C : MdsCode UInt8 dataShardsCount S.encoding.inner.totalShardCount}
  {D : Vid → Option (PeerId × Data B)} {p q r : PeerId} {c : Choice} {node : Node B}
  {x : NodeReaction B} {v : Vid} {s s' : State B} {as : List (Action B)}

/-! ## Runs of puts -/

/-- The puts of a run without programs, no address twice. -/
structure PutsOnly (as : List (Action B)) : Prop where
  noProgram : scheduled as = ∅
  distinct : (putVids as).Nodup

theorem PutsOnly.allowed (h : PutsOnly as) : ∀ p c b, .act p c b ∈ as →
    Allowed (putFor (puts as)) p b := by
  intro p c b hmem
  cases b with
  | user e =>
    cases e with
    | put v d => exact (putFor_eq_some h.distinct).2 (List.mem_filterMap.2 ⟨_, hmem, rfl⟩)
    | scheduleProgram program =>
      have hprogram : program ∈ scheduled as := ⟨p, c, hmem⟩
      rw [h.noProgram] at hprogram
      exact hprogram.elim
    | _ => trivial
  | _ => trivial

/-- The first part of a run of puts. -/
theorem PutsOnly.of_append {bs : List (Action B)} (h : PutsOnly (as ++ bs)) : PutsOnly as where
  noProgram := by
    refine Set.eq_empty_of_forall_notMem fun program hprogram => ?_
    obtain ⟨p, c, hmem⟩ := hprogram
    have hscheduled : program ∈ scheduled (as ++ bs) := ⟨p, c, List.mem_append_left _ hmem⟩
    rw [h.noProgram] at hscheduled
    exact hscheduled
  distinct := by
    have hdistinct := h.distinct
    rw [putVids, puts, List.filterMap_append, List.map_append] at hdistinct
    exact hdistinct.of_append_left

theorem PutsOnly.distributing (hw : S.encoding.inner.Implements C) (hB : 0 < B) (hb : S.Bijective)
    (h : PutsOnly as) (run : S.Run as s) : S.Distributing C (putFor (puts as)) (putVids as) s :=
  distributing_run hw hB hb
    (fun _ _ _ hD => author_mem_peers run ((putFor_eq_some h.distinct).1 hD)) h.allowed h.distinct run

theorem PutsOnly.confirming (hw : S.encoding.inner.Implements C) (hB : 0 < B) (hb : S.Bijective)
    (h : PutsOnly as) (run : S.Run as s) : S.Confirming s :=
  confirming_run hw hB hb
    (fun _ _ _ hD => author_mem_peers run ((putFor_eq_some h.distinct).1 hD)) h.allowed h.distinct run

/-- At rest every shard of every put is located everywhere. -/
theorem Distributing.located (hb : S.Bijective) (h : S.Distributing C D (putVids as) s)
    (rest : s.pool = []) (distinct : (putVids as).Nodup) {a : PeerId} {d : Data B}
    (hD : D v = some (a, d)) (hv : v ∈ putVids as) (hr : r ∈ S.peers) :
    ((s.nodes r).tile.memory.knownSids v).card = S.dataShardsTotal := by
  refine (hb.card_knownSids (h.addressed.nodes r).memory v).2.2 fun q sid hq => ?_
  have htokens := h.tokens (v, sid) a d q r hD hq hr
  simp only [Actors.tally, Setup.located, rest, Actors.weigh_nil,
    List.count_eq_one_of_mem distinct hv] at htokens
  by_contra hsid
  rw [if_neg hsid] at htokens
  cases htokens

/-- **Puts complete**: in a network whose distribution is a bijection, where no address is put
twice and no program runs, a state without further steps has told every user once of every put,
and every peer stores its shard of it. No send of the network is refused and no packet lost. -/
theorem puts_complete (hw : S.encoding.inner.Implements C) (hB : 0 < B) (hb : S.Bijective)
    (hputs : PutsOnly as) (run : S.Run as s) (stuck : S.Stuck s) {a : PeerId} {d : Data B}
    (hput : (a, v, d) ∈ puts as) :
    (∀ r ∈ S.peers, s.log.count (r, .user (.putConfirmed v)) = 1) ∧
      ∃ shards, S.encoding.encode d = .ok shards ∧ ∀ q sid, S.Assigned q sid →
        (s.nodes q).tile.memory.getShard (v, sid) = shards.lookup sid := by
  have h := hputs.distributing hw hB hb run
  have rest := ((stuck_iff (attended_run hw hB hb run)).1 stuck).1
  have hD := (putFor_eq_some hputs.distinct).2 hput
  have hlocated := fun r (hr : r ∈ S.peers) =>
    h.located hb rest hputs.distinct hD (List.mem_map.2 ⟨_, hput, rfl⟩) hr
  refine ⟨fun r hr => ?_, codeword C d, encode_eq hw hB d, fun q sid hq => ?_⟩
  · have htold := told_exactly run (e := .putConfirmed v) rfl r
    rw [h.reported v a d r hD hr, if_pos (hlocated r hr), rest, Actors.weigh_nil] at htold
    omega
  · have hheld := held_of_card hb h.addressed (hputs.confirming hw hB hb run).sound
      (hlocated a (author_mem_peers run hput)) q sid hq
    have hwrites : (s.nodes q).tile.writes = [] := (h.honest.nodes q).writes
    rw [hwrites] at hheld
    obtain ⟨y, hy⟩ := Option.isSome_iff_exists.1 (hheld.resolve_right List.not_mem_nil)
    obtain ⟨a', d', hD', hl⟩ := (h.honest.nodes q).memory.stored _ y hy
    cases hD.symm.trans hD'
    rw [hy]
    exact hl.symm

/-! ## A sample run -/

open InitializedDataMemory (samplePeer)

/-- Peer 0 puts address 0 and every message is handled. -/
def putSettled : List (Action 4) :=
  sampleUser 0 (.put ⟨0⟩ ⟨fun _ => 1⟩) :: List.replicate 47 (sampleDeliver 0)

theorem putSettled_putsOnly : PutsOnly putSettled where
  noProgram := by simp [putSettled, scheduled, sampleUser, sampleDeliver]
  distinct := by decide

/-- In a sample run of puts it suffices that nothing is in flight. -/
theorem PutsOnly.stuck {as : List (Action 4)} (h : PutsOnly as) {s : State 4} (run : sample.Run as s)
    (rest : s.pool = []) : sample.Stuck s := by
  have hidle := (h.distributing OneParity.coder_implements (by decide) sample_bijective run).honest.nodes
  exact (stuck_iff (attended_run OneParity.coder_implements (by decide) sample_bijective run)).2
    ⟨rest, fun p _ => ⟨(hidle p).idle.ready, (hidle p).idle.writes⟩⟩

theorem puts_complete_put : ∃ s, runAll sample.step sample.init putSettled = some s ∧
    sample.Stuck s ∧
    (∀ r ∈ sample.peers, s.log.count (r, .user (.putConfirmed ⟨0⟩)) = 1) ∧
      ∃ shards, sample.encoding.encode ⟨fun _ => 1⟩ = .ok shards ∧ ∀ q sid, sample.Assigned q sid →
        (s.nodes q).tile.memory.getShard (⟨0⟩, sid) = shards.lookup sid := by
  obtain ⟨s, run, rest⟩ : ∃ s, runAll sample.step sample.init putSettled = some s ∧
      s.pool = [] := ⟨_, rfl, rfl⟩
  have stuck := putSettled_putsOnly.stuck (Trace.of_runAll run) rest
  exact ⟨s, run, stuck, puts_complete OneParity.coder_implements (by decide) sample_bijective
    putSettled_putsOnly (Trace.of_runAll run) stuck (a := samplePeer 0) (by decide)⟩

end Setup

end Swarm.Network
