import Swarm.Network.System

/-!
# What users are told

Each event of a module that is meant for the user reaches the user of its node
once, and nothing else does, apart from the receipt for a scheduled program.
-/

namespace Swarm.Network

open Swarm.DataMemory Swarm.Processor Swarm.Consensus Swarm.Node
open Swarm.Behaviour (Request Response ProcessedRequests Send)
open Actors (weigh)

variable {B : Nat}

/-- The event of a module that a message brings to the behaviour of its node. -/
def Message.event : Message B → Option (Output B)
  | .memoryOut o => some (.memory o)
  | .instructionOut o => some (.instruction o)
  | .processorOut programId results => some (.processor programId results)
  | _ => none

/-- The event of a module that an event for the user passes on. -/
def Setup.source : Behaviour.OutEvent B → Option (Output B)
  | .putConfirmed dataId => some (.memory (.distributionFull dataId))
  | .getResponse response => some (.memory (.recollectResponse response))
  | .listStoredResponse list => some (.memory (.listDistributed list))
  | .storageInitialized => some (.memory .initialized)
  | .programExecuted programId => some (.instruction (.finishedExecution programId))
  | .scheduleOk => none

namespace Setup

open InitializedDataMemory (samplePeer)

variable {S : Setup} {p q : PeerId} {c : Choice} {node : Node B} {m : Message B}
  {x : NodeReaction B} {o : Output B} {e : Behaviour.OutEvent B} {s : State B}
  {as : List (Action B)}

/-- Event `o` of a module of `p` on its way to the behaviour. -/
def passing (p : PeerId) (o : Output B) (e : PeerId × Message B) : Nat :=
  if e.1 = p ∧ e.2.event = some o then 1 else 0

/-! ## Module events are sent when they happen -/

theorem count_emitted {α : Type} {f : α → Output B} {g : α → Message B} (l : List α)
    (h : ∀ a, (g a).event = some (f a)) :
    ((l.map f).map (q, ·)).count (p, o) = weigh (passing p o) (l.map fun a => (q, g a)) := by
  induction l with
  | nil => rfl
  | cons a l ih =>
    rw [List.map_cons, List.map_cons, List.map_cons, List.count_cons, ih, Actors.weigh_cons,
      Nat.add_comm, passing, h]
    simp only [beq_iff_eq, Prod.mk.injEq, Option.some.injEq]

theorem count_emitted_tile (out : List (TileOut B)) :
    ((out.map emitted).map (q, ·)).count (p, o) = weigh (passing p o) (out.map (emit q)) := by
  have hemit : out.map (emit q) = out.map fun o => (q, (emit q o).2) :=
    List.map_congr_left fun o _ => by cases o <;> rfl
  rw [hemit]
  exact count_emitted out fun o => by cases o <;> rfl

/-- The behaviour passes no module event on to a behaviour. -/
theorem count_behave (ho : ∀ e, o ≠ .user e) {y : ProcessedRequests × List (Send B)} :
    ((S.behave q c node y).outputs.map (q, ·)).count (p, o) =
      weigh (passing p o) (S.behave q c node y).sent := by
  rw [List.count_eq_zero_of_not_mem, Actors.weigh_eq_zero]
  · rintro ⟨q', m'⟩ hsent
    rw [behave_sent, List.mem_flatMap] at hsent
    obtain ⟨a, -, hqm⟩ := hsent
    refine if_neg fun h => ?_
    cases a with
    | scheduleTx tx =>
      obtain ⟨-, rfl⟩ := mem_scheduleTx hqm
      cases h.2
    | user e => cases hqm
    | _ =>
      obtain ⟨-, rfl⟩ := Prod.mk.inj (List.mem_singleton.1 hqm)
      cases h.2
  · intro hmem
    obtain ⟨o', ho', he⟩ := List.mem_map.1 hmem
    obtain ⟨e, rfl⟩ := mem_behave_outputs ho'
    exact ho e (Prod.mk.inj he).2.symm

theorem count_receive (ho : ∀ e, o ≠ .user e) (hr : S.receive q c node m = some x) :
    (x.outputs.map (q, ·)).count (p, o) = weigh (passing p o) x.sent := by
  cases receive_reacts hr with
  | handled moves | started moves => exact count_emitted_tile _
  | instructed => exact count_emitted _ fun _ => rfl
  | passed notMemory sent waits => exact count_behave ho

theorem count_act (ho : ∀ e, o ≠ .user e) {a : Act B} (hr : S.act q c node a = some x) :
    (x.outputs.map (q, ·)).count (p, o) = weigh (passing p o) x.sent := by
  unfold Setup.act at hr
  split at hr
  · cases a with
    | user e =>
      cases hr
      exact count_behave ho
    | _ =>
      obtain ⟨t, out, -, rfl⟩ := tileStep_moves hr
      exact count_emitted_tile _
  · cases hr

/-! ## The behaviour tells the user -/

theorem mem_behave_user {y : ProcessedRequests × List (Send B)} :
    .user e ∈ (S.behave q c node y).outputs ↔ .user e ∈ y.2 := by
  rw [behave_outputs, List.mem_filterMap]
  constructor
  · rintro ⟨a, ha, htold⟩
    cases a with
    | user e => cases htold; exact ha
    | _ => cases htold
  · exact fun h => ⟨_, h, rfl⟩

/-- The user is only told of a module event that has just arrived. -/
theorem user_receive (hr : S.receive q c node m = some x) (h : .user e ∈ x.outputs) :
    source e = m.event := by
  cases m with
  | memoryIn e | processorIn e =>
    obtain ⟨t, out, -, rfl⟩ := tileStep_moves hr
    obtain ⟨o, -, ho⟩ := List.mem_map.1 h
    cases o <;> cases ho
  | memoryOut e' =>
    cases hr
    have hmem := mem_behave_user.1 h
    cases e' with
    | serveShardResponse f x | assignedResponse f x =>
      obtain ⟨q, -, hsend⟩ := mem_answer hmem
      cases hsend
    | distributionSufficient u => cases hmem
    | distributionFull u | listDistributed list | recollectResponse response | initialized =>
      cases List.mem_singleton.1 hmem
      rfl
    | _ => cases List.mem_singleton.1 hmem
  | instructionIn e =>
    cases hr
    obtain ⟨o, -, ho⟩ := List.mem_map.1 h
    cases ho
  | instructionOut e' =>
    simp only [receive] at hr
    split at hr
    · cases hr
      have hmem := mem_behave_user.1 h
      cases e' with
      | finishedExecution id =>
        cases List.mem_singleton.1 hmem
        rfl
      | _ => cases List.mem_singleton.1 hmem
    · cases hr
  | recognized author tx eventHash =>
    cases hr
    have hmem := mem_behave_user.1 h
    cases tx <;> cases List.mem_singleton.1 hmem
  | response request response =>
    cases hr
    have hmem := mem_behave_user.1 h
    cases request <;> cases response <;>
      first | cases List.mem_singleton.1 hmem | cases hmem
  | _ =>
    cases hr
    cases List.mem_singleton.1 (mem_behave_user.1 h)

/-- On its own a node only tells its user that a program has been scheduled. -/
theorem user_act {a : Act B} (hr : S.act q c node a = some x) (h : .user e ∈ x.outputs) :
    source e = none := by
  unfold act at hr
  split at hr
  · cases a with
    | user e' =>
      cases hr
      have hmem := mem_behave_user.1 h
      cases e' with
      | scheduleProgram program =>
        rcases List.mem_cons.1 hmem with ha | ha
        · cases ha
        · cases List.mem_singleton.1 ha
          rfl
      | _ => cases List.mem_singleton.1 hmem
    | _ =>
      obtain ⟨t, out, -, rfl⟩ := tileStep_moves hr
      obtain ⟨o, -, ho⟩ := List.mem_map.1 h
      cases o <;> cases ho
  · cases hr

/-- The user is told once of what arrives at the behaviour. -/
theorem told_once (he : source e = some o) (hr : S.receive q c node m = some x) :
    (x.outputs.map (q, ·)).count (p, .user e) = passing p o (q, m) := by
  by_cases hm : m.event = some o
  · have houtputs : x.outputs = [.user e] := by
      cases m with
      | memoryOut o' =>
        cases hm
        cases hr
        cases e <;> cases he <;> rfl
      | instructionOut o' =>
        cases hm
        simp only [receive] at hr
        split at hr <;> cases hr
        cases e <;> cases he
        rfl
      | processorOut id results => cases hm; cases e <;> cases he
      | _ => cases hm
    rw [houtputs, passing, List.map_singleton, List.count_singleton]
    simp only [beq_iff_eq, Prod.mk.injEq, and_true, hm]
  · rw [passing, if_neg fun h => hm h.2]
    refine List.count_eq_zero_of_not_mem fun hmem => ?_
    obtain ⟨o', ho', heq⟩ := List.mem_map.1 hmem
    cases heq
    exact hm ((user_receive hr ho').symm.trans he)

/-! ## Runs -/

/-- **Delivery to the user**: in every run of the network, whose sends are never refused, an event
of a module that is meant for the user has been told to the user of its node once, or is still on
its way there, and nothing else has been told. -/
theorem told_exactly (run : S.Run as s) (he : source e = some o) (p : PeerId) :
    s.log.count (p, o) = weigh (passing p o) s.pool + s.log.count (p, .user e) := by
  have ho : ∀ e', o ≠ .user e' := by
    rintro e' rfl
    cases e <;> cases he
  refine Trace.invariant (I := fun _ s => s.log.count (p, o) =
    weigh (passing p o) s.pool + s.log.count (p, .user e)) rfl ?_ run
  intro as s a t ih hs
  cases Actors.step_moves hs with
  | @delivered i c q m x pending reaction =>
    have hpool := Actors.weigh_eraseIdx (w := passing p o) pending
    have hemitted := count_receive (p := p) ho reaction
    have htold := told_once (p := p) he reaction
    rw [Actors.react_log, Actors.react_pool, List.count_append, List.count_append,
      Actors.weigh_append]
    omega
  | @acted q c a x reaction =>
    have hemitted := count_act (p := p) ho reaction
    have htold : (x.outputs.map (q, ·)).count (p, .user e) = 0 := by
      refine List.count_eq_zero_of_not_mem fun hmem => ?_
      obtain ⟨o', ho', heq⟩ := List.mem_map.1 hmem
      cases heq
      rw [user_act reaction ho'] at he
      cases he
    rw [Actors.react_log, Actors.react_pool, List.count_append, List.count_append,
      Actors.weigh_append]
    omega

/-- Peer 0 asks for the list of what is stored. -/
def listSteps : List (Action 4) := sampleUser 0 .listStored :: List.replicate 2 (sampleDeliver 0)

theorem told_exactly_list : ∃ s, runAll sample.step sample.init listSteps = some s ∧
    s.log.count (samplePeer 0, .memory (.listDistributed [])) =
      weigh (passing (samplePeer 0) (.memory (.listDistributed []))) s.pool +
        s.log.count (samplePeer 0, .user (.listStoredResponse [])) := by
  obtain ⟨s, run⟩ : ∃ s, runAll sample.step sample.init listSteps = some s := ⟨_, rfl⟩
  exact ⟨s, run, told_exactly (Trace.of_runAll run) rfl _⟩

/-- **Provenance**: what a user is told, a module of the node has said. -/
theorem told_run (run : S.Run as s) (he : source e = some o) (h : (p, .user e) ∈ s.log) :
    (p, o) ∈ s.log := by
  have htold := told_exactly run he p
  have hpos := List.count_pos_iff.2 h
  exact List.count_pos_iff.1 (by omega)

end Setup

end Swarm.Network
