import Swarm.Network.Termination

/-!
# The network at rest

Every node goes on running, and programs are only given to peers. So a state
without further steps has nothing in flight, nothing to write and no execution
under way: `stuck_iff`.
-/

namespace Swarm.Network

open Swarm.DataMemory Swarm.Processor Swarm.Consensus Swarm.Encoding Swarm.Node
open Swarm.InstructionStorage (InstructionMemory)

variable {B : Nat}

namespace Setup

/-! ## Only peers are given programs -/

section Attended

variable (S : Setup)

/-- Programs go to peers, and peers report them. -/
def MessageAttended (p : PeerId) : Message B → Prop
  | .memoryIn (.peerShardsActualized peer _) => peer ∈ S.peers
  | .instructionIn (.finalizedProgram _) => p ∈ S.peers
  | .instructionIn (.executedProgram peer _) => peer ∈ S.peers
  | .instructionOut (.nextProgram _) => p ∈ S.peers
  | .instructionOut (.peerShardsActualized _ peer _) => peer ∈ S.peers
  | .processorIn _ => p ∈ S.peers
  | .processorOut _ _ => p ∈ S.peers
  | .recognized _ (.execute _) _ => p ∈ S.peers
  | .recognized author (.executed _) _ => author ∈ S.peers
  | _ => True

structure NodeAttended (p : PeerId) (node : Node B) : Prop where
  running : node.tile.running = true
  ready : p ∉ S.peers → node.tile.processor = .ready

/-- Every node is running, and only peers are given programs. -/
abbrev Attended (s : State B) : Prop :=
  s.Everywhere S.NodeAttended S.MessageAttended fun _ _ => True

variable {S} {C : MdsCode UInt8 dataShardsCount S.encoding.inner.totalShardCount}
  {p : PeerId} {c : Choice} {node : Node B} {m : Message B} {x : NodeReaction B} {s s' : State B}

theorem MessageAttended.continues (hw : S.encoding.inner.Implements C) (hB : 0 < B)
    (hb : S.Bijective) {memory : InitializedDataMemory B} {order : HashOrder}
    {e : DataMemory.InEvent B} (ha : S.MemoryAddressed p memory)
    (hm : S.MessageAttended p (.memoryIn e)) : (memory.handle order e).Continues := by
  refine (InitializedDataMemory.turn_continues_iff (ha.encoding ▸ ⟨C, hw⟩) hB
    (.event order e)).2 ?_
  cases e with
  | peerShardsActualized peer ids =>
    obtain ⟨sid, hsid⟩ := (hb.peers peer).1 hm
    rw [ha.distribution]
    exact Finmap.mem_of_lookup_eq_some hsid
  | _ => trivial

theorem NodeAttended.receive (hw : S.encoding.inner.Implements C) (hB : 0 < B) (hb : S.Bijective)
    (ha : S.NodeAddressed p node) (h : S.NodeAttended p node) (hm : S.MessageAttended p m)
    (hr : S.receive p c node m = some x) :
    Actors.Keeps S.NodeAttended S.MessageAttended (fun _ _ => True) p x := by
  cases receive_reacts hr with
  | handled moves =>
    cases moves with
    | handled running turn =>
      exact keeps_tile ⟨running, h.ready⟩ (fun o _ => ⟨trivial, trivial⟩) (by simp)
    | ended running turn => exact absurd (hm.continues hw hB hb ha.memory) turn
  | started moves =>
    cases moves
    exact keeps_tile ⟨h.running, fun hp => absurd hm hp⟩ (by simp) (by simp)
  | instructed =>
    refine ⟨⟨h.running, h.ready⟩, fun q m' hqm => ?_, fun _ _ => trivial⟩
    obtain ⟨o, ho, he⟩ := List.mem_map.1 hqm
    cases he
    have hemit := InstructionMemory.handle_emits _ o ho
    cases o with
    | nextProgram program =>
      obtain rfl := hemit
      exact hm
    | finishedExecution id => trivial
    | peerShardsActualized id peer ids =>
      obtain ⟨rfl, -⟩ := hemit
      exact hm
  | passed notMemory sent waits =>
    refine keeps_behave ⟨h.running, h.ready⟩ (fun a ha' q m' hqm => ?_) fun _ => trivial
    cases sent a ha' q m' hqm with
    | program | actualized | executed | executeTx | executedTx => exact hm
    | _ => trivial

theorem NodeAttended.act (h : S.NodeAttended p node) {b : Act B}
    (hr : S.act p c node b = some x) :
    Actors.Keeps S.NodeAttended S.MessageAttended (fun _ _ => True) p x := by
  unfold Setup.act at hr
  split at hr
  · rename_i hp
    cases b with
    | user e =>
      cases hr
      refine keeps_behave ⟨h.running, h.ready⟩ (fun a ha q m' hqm => ?_) fun _ => trivial
      cases asks_of_mem ha hqm with
      | scheduleProgram hq => exact hq
      | _ => trivial
    | _ =>
      obtain ⟨t, out, hmove, rfl⟩ := tileStep_moves hr
      refine keeps_tile ⟨?_, fun hp' => absurd hp hp'⟩ (fun o ho => ?_) fun id results ho => ?_
      · cases hmove <;> exact h.running
      · cases hmove <;> simp at ho
      · exact ⟨hp, trivial⟩
  · cases hr

theorem attended_run (hw : S.encoding.inner.Implements C) (hB : 0 < B) (hb : S.Bijective)
    {as : List (Action B)} (run : S.Run as s) : S.Attended s := by
  refine (Trace.invariant (I := fun _ s => S.Addressed s ∧ S.Attended s)
    ⟨addressed_init, ⟨fun p => ⟨rfl, fun _ => rfl⟩, ?_, fun _ _ _ => trivial⟩⟩ ?_ run).2
  · rintro p m h; cases h
  · rintro as s a t ⟨ha, h⟩ hs
    refine ⟨ha.step hs, Actors.Config.Everywhere.step h ?_ ?_ hs⟩
    · exact fun _ p _ m _ _ hi hr _ =>
        (h.nodes p).receive hw hB hb (ha.nodes p) (h.pool p m (List.mem_of_getElem? hi)) hr
    · exact fun p _ _ _ _ hr _ => (h.nodes p).act hr

/-! ## States without further steps -/

/-- No step is possible but a request of a user. -/
def Stuck (S : Setup) (s : State B) : Prop := ∀ b, ¬ Requests b → S.step s b = none

/-- A peer in the middle of an execution can go on with it. -/
theorem executing_act (hp : p ∈ S.peers) (running : node.tile.running = true)
    (hbusy : node.tile.processor ≠ .ready) :
    ∃ b, (∀ e, b ≠ .user e) ∧ ∃ x, S.act p c node b = some x := by
  have hact : ∀ {a : TileStep B} {b : Act B}, S.act p c node b = S.tileStep p node a →
      (node.tile.step S.add a).isSome → ∃ x, S.act p c node b = some x := by
    intro a b hb ht
    obtain ⟨t, ht⟩ := Option.isSome_iff_exists.1 ht
    exact ⟨_, hb.trans (congrArg (Option.map _) ht)⟩
  cases hprocessor : node.tile.processor with
  | ready => exact absurd hprocessor hbusy
  | executing id rest =>
    cases rest with
    | ret results =>
      refine ⟨.finish, by simp, hact (if_pos hp) ?_⟩
      simp only [Tile.step, hprocessor, Option.isSome_some]
    | read v next =>
      refine ⟨.read c.order, by simp, hact (if_pos hp) ?_⟩
      simp only [Tile.step, hprocessor, Option.isSome_some]
    | write v y next =>
      refine ⟨.push, by simp, hact (if_pos hp) ?_⟩
      simp only [Tile.step, hprocessor, running, if_true, Option.isSome_some]

/-- A node that is waiting for a program can handle every message. -/
theorem NodeAttended.handled (h : S.NodeAttended p node)
    (ready : node.tile.processor = .ready) : ∃ x, S.receive p c node m = some x := by
  cases m with
  | memoryIn e =>
    simp only [Setup.receive, tileStep, Tile.step, h.running, if_true]
    cases node.tile.memory.handle c.order e <;> exact ⟨_, rfl⟩
  | instructionOut e =>
    simp only [Setup.receive, ready]
    exact ⟨_, rfl⟩
  | processorIn program =>
    simp only [Setup.receive, tileStep, Tile.step, ready]
    exact ⟨_, rfl⟩
  | _ => exact ⟨_, rfl⟩

/-- Nothing of its own is left to do at a node that waits for a program and has no writes. -/
theorem act_settled (ready : node.tile.processor = .ready) (writes : node.tile.writes = [])
    {b : Act B} (hr : S.act p c node b = some x) : ∃ e, b = .user e := by
  unfold Setup.act at hr
  split at hr
  · cases b with
    | user e => exact ⟨e, rfl⟩
    | _ =>
      obtain ⟨t, out, hmove, -⟩ := tileStep_moves hr
      cases hmove <;> simp_all
  · cases hr

theorem Stuck.act (stuck : S.Stuck s) {b : Act B} (hb : ∀ e, b ≠ .user e) :
    S.act p c (s.nodes p) b = none := by
  cases hx : S.act p c (s.nodes p) b with
  | none => rfl
  | some x =>
    have hsome : S.step s (.act p c b) = some (s.react p s.pool x) := congrArg (Option.map _) hx
    rw [stuck _ fun hrequests => ?_] at hsome
    · cases hsome
    · cases b with
      | user e => exact hb e rfl
      | _ => exact hrequests

/-- **At rest** nothing is in flight, no processor is executing and no writes are left. -/
theorem stuck_iff (h : S.Attended s) : S.Stuck s ↔
    s.pool = [] ∧ ∀ p ∈ S.peers,
      (s.nodes p).tile.processor = .ready ∧ (s.nodes p).tile.writes = [] := by
  constructor
  · intro stuck
    have hready : ∀ p, (s.nodes p).tile.processor = .ready := by
      intro p
      by_contra hbusy
      have hp : p ∈ S.peers := by
        by_contra hp
        exact hbusy ((h.nodes p).ready hp)
      obtain ⟨b, hb, x, hx⟩ := executing_act (c := default) hp (h.nodes p).running hbusy
      rw [stuck.act hb] at hx
      cases hx
    refine ⟨?_, fun p hp => ⟨hready p, ?_⟩⟩
    · cases hpool : s.pool with
      | nil => rfl
      | cons e rest =>
        obtain ⟨p, m⟩ := e
        obtain ⟨x, hx⟩ := (h.nodes p).handled (c := default) (m := m) (hready p)
        have hstep : S.step s (.deliver 0 default) = some (s.react p (s.pool.eraseIdx 0) x) := by
          show (s.pool[0]?.bind fun e => _) = _
          rw [hpool]
          exact congrArg (Option.map _) hx
        rw [stuck _ id] at hstep
        cases hstep
    · cases hwrites : (s.nodes p).tile.writes with
      | nil => rfl
      | cons write rest =>
        have hnone := stuck.act (p := p) (c := default) (b := .applyWrite) nofun
        simp only [Setup.act, if_pos hp, tileStep, Tile.step, (h.nodes p).running, hwrites] at hnone
        cases hnone
  · rintro ⟨hpool, hsettled⟩ b hb
    cases hs : S.step s b with
    | none => rfl
    | some t =>
      cases Actors.step_moves hs with
      | delivered pending reaction =>
        rw [hpool] at pending
        cases pending
      | @acted p c a x reaction =>
        by_cases hp : p ∈ S.peers
        · obtain ⟨e, rfl⟩ := act_settled (hsettled p hp).1 (hsettled p hp).2 reaction
          exact absurd trivial hb
        · have hnone : S.act p c (s.nodes p) a = none := if_neg hp
          cases hnone.symm.trans reaction

end Attended

end Setup

end Swarm.Network
