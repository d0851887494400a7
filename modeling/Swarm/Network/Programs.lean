import Swarm.Network.Distribution
import Swarm.Node.Computation

/-!
# One program in the network

A program that is scheduled once is one token for each peer, which travels with
its `Execute` transaction through the modules of the node and ends when the
processor starts it. While nothing else stores or mentions its Vids, it takes
its course at every peer, and a peer that reports it is finished with it.
-/

namespace Swarm.Network

open Swarm.DataMemory Swarm.Processor Swarm.Consensus Swarm.Encoding Swarm.Node
open Swarm.Behaviour (Request Response ProcessedRequests Send)
open Swarm.InstructionStorage (InstructionMemory)
open Actors (weigh)

variable {B : Nat}

namespace Setup

/-! ## Messages that leave the Vids of the program alone -/

section Apart

variable (S : Setup) (program : Instructions)

/-- The program itself, or one with another hash that mentions none of its Vids. -/
def Admitted (other : Instructions) : Prop :=
  other = program ∨ S.calculateHash other ≠ S.calculateHash program ∧
    ∀ v, Mentions other v → ¬ Mentions program v

/-- An admitted program under its own hash. -/
def Issued (p : Program) : Prop :=
  p.identifier.hash = S.calculateHash p.instructions ∧ S.Admitted program p.instructions

/-- The message stores none of the program's Vids, its programs are admitted, and reports of
executions are those of peers with a shard. -/
def MessageApart (p : PeerId) : Message B → Prop
  | .memoryIn (.prepareServiceRequest v _) | .memoryIn (.storageRequestTx v _) =>
    ¬ Mentions program v
  | .memoryIn (.serveShardRequest f) | .memoryIn (.serveShardResponse f _) =>
    ¬ Mentions program f.1
  | .memoryIn (.peerShardsActualized peer _) => peer ∈ S.distribution
  | .memoryOut (.preparedServiceResponse v) => ¬ Mentions program v
  | .memoryOut (.serveShardRequest f _) | .memoryOut (.serveShardResponse f _) =>
    ¬ Mentions program f.1
  | .instructionIn (.finalizedProgram x) => S.Issued program x
  | .instructionIn (.executedProgram peer _) => peer ∈ S.distribution
  | .instructionOut (.nextProgram x) => S.Issued program x
  | .instructionOut (.peerShardsActualized _ peer _) => peer ∈ S.distribution
  | .processorIn x => S.Issued program x
  | .processorOut _ _ => p ∈ S.distribution
  | .recognized _ (.storageRequest v) _ => ¬ Mentions program v
  | .recognized _ (.execute other) _ => S.Admitted program other
  | .recognized author (.executed _) _ => author ∈ S.distribution
  | .request _ (.serveShard f) => ¬ Mentions program f.1
  | .response (.serveShard f) _ => ¬ Mentions program f.1
  | _ => True

/-- The user puts none of the program's Vids and schedules admitted programs. -/
def Spares : Act B → Prop
  | .user (.put v _) => ¬ Mentions program v
  | .user (.scheduleProgram other) => S.Admitted program other
  | _ => True

variable {S program} {p : PeerId} {c : Choice} {node : Node B} {m : Message B} {r : NodeReaction B}

theorem Issued.own_or_other {x : Program} (h : S.Issued program x) :
    x.instructions = program ∧ x.identifier.hash = S.calculateHash program ∨
      x.instructions ≠ program ∧ x.identifier.hash ≠ S.calculateHash program ∧
        ∀ v, Mentions x.instructions v → ¬ Mentions program v := by
  obtain ⟨hid, hadmitted⟩ := h
  by_cases hown : x.instructions = program
  · exact .inl ⟨hown, by rw [hid, hown]⟩
  · obtain ⟨hne, hapart⟩ := hadmitted.resolve_left hown
    exact .inr ⟨hown, by rwa [hid], hapart⟩

/-- What an event stores is none of the program's. -/
theorem MessageApart.stores {memory : InitializedDataMemory B} {e : DataMemory.InEvent B}
    (hm : S.MessageApart program p (.memoryIn e)) {f : FullShardId} {x : Shard B}
    (hs : memory.stores e = some (f, x)) : ¬ Mentions program f.1 := by
  rcases InitializedDataMemory.stores_cases hs with rfl | ⟨rfl, -, -⟩ <;> exact hm

theorem MessageApart.continues {C : MdsCode UInt8 dataShardsCount S.encoding.inner.totalShardCount}
    (hw : S.encoding.inner.Implements C) (hB : 0 < B) {memory : InitializedDataMemory B}
    {order : HashOrder} {e : DataMemory.InEvent B} (ha : S.MemoryAddressed p memory)
    (hm : S.MessageApart program p (.memoryIn e)) : (memory.handle order e).Continues := by
  refine (InitializedDataMemory.turn_continues_iff (ha.encoding ▸ ⟨C, hw⟩) hB
    (.event order e)).2 ?_
  cases e with
  | peerShardsActualized peer ids =>
    rw [ha.distribution]
    exact hm
  | _ => trivial

/-- What the memory emits stores none of the program's Vids either. -/
theorem MessageApart.emits {memory : InitializedDataMemory B} {e : DataMemory.InEvent B}
    {o : DataMemory.OutEvent B} (hm : S.MessageApart program p (.memoryIn e))
    (ho : memory.Emits e o) : S.MessageApart program p (.memoryOut o) := by
  cases o with
  | preparedServiceResponse v =>
    obtain ⟨d, rfl⟩ := ho
    exact hm
  | serveShardRequest f author =>
    obtain ⟨rfl, -⟩ := ho
    exact hm
  | serveShardResponse f x =>
    obtain ⟨rfl, -⟩ := ho
    exact hm
  | _ => trivial

/-- **One reaction** to a message leaves the program's Vids alone. -/
theorem MessageApart.receive (hm : S.MessageApart program p m) (hr : S.receive p c node m = some r)
    {q : PeerId} {m' : Message B} (hsent : (q, m') ∈ r.sent) : S.MessageApart program q m' := by
  cases receive_reacts hr with
  | handled moves =>
    cases moves with
    | handled running turn =>
      obtain ⟨o, ho, he⟩ := List.mem_map.1 hsent
      obtain ⟨o', ho', rfl⟩ := List.mem_map.1 ho
      cases he
      exact hm.emits (InitializedDataMemory.handle_emits turn o' ho')
    | ended running turn => cases hsent
  | started moves => cases moves; cases hsent
  | @instructed e =>
    obtain ⟨o, ho, he⟩ := List.mem_map.1 hsent
    cases he
    have hemit := InstructionMemory.handle_emits e o ho
    cases o with
    | nextProgram x =>
      obtain rfl := hemit
      exact hm
    | finishedExecution id => trivial
    | peerShardsActualized id peer ids =>
      obtain ⟨rfl, -⟩ := hemit
      exact hm
  | passed notMemory sent waits =>
    rw [behave_sent, List.mem_flatMap] at hsent
    obtain ⟨a, ha, hqm⟩ := hsent
    cases sent a ha q m' hqm with
    | executeTx => exact ⟨rfl, hm⟩
    | serveRequest | served | prepared | storageRequestTx | serve | serveResponse => exact hm
    | program | actualized | executed | executedTx => exact hm
    | _ => trivial

/-- **One act** of a peer with a shard leaves the program's Vids alone. -/
theorem Spares.act (hp : p ∈ S.distribution) {b : Act B} (hb : S.Spares program b)
    (hr : S.act p c node b = some r) {q : PeerId} {m' : Message B} (hsent : (q, m') ∈ r.sent) :
    S.MessageApart program q m' := by
  unfold Setup.act at hr
  split at hr
  · cases b with
    | user e =>
      cases hr
      rw [behave_sent, List.mem_flatMap] at hsent
      obtain ⟨a, ha, hqm⟩ := hsent
      cases asks_of_mem ha hqm with
      | scheduleProgram _ | put => exact hb
      | _ => trivial
    | finish =>
      obtain ⟨t, out, hmove, rfl⟩ := tileStep_moves hr
      cases hmove
      obtain ⟨rfl, rfl⟩ := Prod.mk.inj (List.mem_singleton.1 hsent)
      exact hp
    | _ =>
      obtain ⟨t, out, hmove, rfl⟩ := tileStep_moves hr
      cases hmove <;> cases hsent
  · cases hr

end Apart

/-! ## Tokens of the program -/

section Tokens

variable (S : Setup) (program : Instructions)

/-- The tokens of the program on their way to the processor of peer `q`. -/
def carries (q : PeerId) : PeerId × Message B → Nat
  | (p, .recognized _ (.execute other) _) => if p = q ∧ other = program then 1 else 0
  | (p, .instructionIn (.finalizedProgram x)) => if p = q ∧ x.instructions = program then 1 else 0
  | (p, .instructionOut (.nextProgram x)) => if p = q ∧ x.instructions = program then 1 else 0
  | (p, .processorIn x) => if p = q ∧ x.instructions = program then 1 else 0
  | _ => 0

/-- How often an action schedules the program. -/
def schedules : Action B → Nat
  | .act _ _ (.user (.scheduleProgram other)) => if other = program then 1 else 0
  | _ => 0

variable {S program} {p q : PeerId} {c : Choice} {node : Node B} {m : Message B}
  {r : NodeReaction B}

theorem carries_emitted (out : List (TileOut B)) :
    weigh (carries program q) (out.map (emit p)) = 0 := by
  refine Actors.weigh_eq_zero fun e he => ?_
  obtain ⟨o, -, rfl⟩ := List.mem_map.1 he
  cases o <;> rfl

/-- The behaviour passes tokens on to the modules of its own node, one by one. -/
theorem carries_receive (hr : S.receive p c node m = some r) :
    weigh (carries program q) r.sent ≤ carries program q (p, m) := by
  have hpassed : (∀ q' m', (q', m') ∈ r.sent → carries program q (q', m') = 0) →
      weigh (carries program q) r.sent ≤ carries program q (p, m) := fun h => by
    rw [Actors.weigh_eq_zero fun e he => h e.1 e.2 he]
    exact Nat.zero_le _
  cases m with
  | memoryIn e | processorIn x =>
    obtain ⟨t, out, hmove, rfl⟩ := tileStep_moves hr
    rw [carries_emitted]
    exact Nat.zero_le _
  | instructionIn e =>
    cases hr
    cases e with
    | finalizedProgram x => exact le_of_eq rfl
    | executedProgram peer id =>
      refine hpassed fun q' m' hm => ?_
      obtain ⟨o, ho, he⟩ := List.mem_map.1 hm
      cases he
      have hemit := InstructionMemory.handle_emits _ o ho
      cases o with
      | nextProgram x => cases hemit
      | _ => rfl
  | instructionOut e =>
    simp only [receive] at hr
    split at hr
    · cases hr
      cases e <;> exact le_of_eq rfl
    · cases hr
  | recognized author tx eventHash =>
    cases hr
    cases tx <;> exact le_of_eq rfl
  | _ =>
    refine hpassed fun q' m' hm => ?_
    cases receive_reacts hr with
    | passed notMemory sent waits =>
      rw [behave_sent, List.mem_flatMap] at hm
      obtain ⟨a, ha, hqm⟩ := hm
      cases sent a ha q' m' hqm <;> rfl

/-- Scheduling the program sends one token to every peer, and no other act sends any. -/
theorem carries_act (hb : S.Bijective) (hq : q ∈ S.peers) {b : Act B}
    (hr : S.act p c node b = some r) :
    weigh (carries program q) r.sent = schedules program (.act p c b) := by
  unfold Setup.act at hr
  split at hr
  · cases b with
    | user e =>
      cases hr
      cases e with
      | scheduleProgram other =>
        have hsent : weigh (carries program q)
            (S.dispatch (B := B) p c (.scheduleTx (.execute other))) =
              if other = program then 1 else 0 :=
          Actors.weigh_broadcast hb.nodup hq fun p' => by simp only [carries, ite_and]
        rw [weigh_behave, Behaviour.handleUser, Actors.weigh_cons, hsent]
        rfl
      | _ => rfl
    | _ =>
      obtain ⟨t, out, hmove, rfl⟩ := tileStep_moves hr
      exact carries_emitted out
  · cases hr

end Tokens

/-! ## The course of the program at every peer -/

section Courses

variable (S : Setup) (program : Instructions) (M : PeerId → Vid → Option (Shard B))

/-- The program that a processor reports. -/
def executedId : Output B → Option ProgramIdentifier
  | .processor id _ => some id
  | _ => none

/-- Peer `q` has reported the program. -/
def HasExecuted (q : PeerId) (s : State B) : Prop :=
  ∃ id results, id.hash = S.calculateHash program ∧ (q, .processor id results) ∈ s.log

instance (q : PeerId) (s : State B) : Decidable (S.HasExecuted program q s) :=
  decidable_of_iff (∃ e ∈ s.log, ∃ id ∈ executedId e.2, e.1 = q ∧ id.hash = S.calculateHash program)
    (by
      constructor
      · rintro ⟨⟨p, o⟩, hmem, id, hid, rfl, hhash⟩
        cases o with
        | processor id' results => cases hid; exact ⟨id, results, hhash, hmem⟩
        | _ => cases hid
      · rintro ⟨id, results, hhash, hmem⟩
        exact ⟨_, hmem, id, rfl, rfl, hhash⟩)

/-- The program has come as far as this at the tile of peer `q`. -/
abbrev CourseAt (sid : Sid) (q : PeerId) (t : Tile B) (stage : Stage) : Prop :=
  Course S.add (S.calculateHash program) program sid (M q) t stage

/-- The program takes its course at peer `q`; it was scheduled `n` times. -/
def RunsAt (n : Nat) (q : PeerId) (sid : Sid) (s : State B) : Prop :=
  (s.nodes q).tile.running = true ∧ ∃ stage, S.CourseAt program M sid q (s.nodes q).tile stage ∧
    weigh (carries program q) s.pool + stage.begun ≤ n ∧
    (S.HasExecuted program q s → stage = .finished)

structure Computing (n : Nat) (s : State B) : Prop where
  addressed : S.Addressed s
  apart : ∀ p m, (p, m) ∈ s.pool → S.MessageApart program p m
  course : ∀ q sid, S.Assigned q sid → S.RunsAt program M n q sid s

variable {S program M} {C : MdsCode UInt8 dataShardsCount S.encoding.inner.totalShardCount}
  {s s' : State B} {p q : PeerId} {sid : Sid} {c : Choice} {m : Message B} {r : NodeReaction B}
  {pool : List (PeerId × Message B)} {n n' : Nat} {stage stage' : Stage}

theorem MemoryAddressed.assignedSid {memory : InitializedDataMemory B}
    (h : S.MemoryAddressed p memory) (hq : S.Assigned p sid) :
    memory.assignedShardId = some sid := h.assignedShardId.trans hq

theorem MemoryAddressed.only {memory : InitializedDataMemory B} (h : S.MemoryAddressed p memory)
    (hq : S.Assigned p sid) {f : FullShardId} (hf : (memory.getShard f).isSome) : f.2 = sid :=
  Option.some.inj ((h.stored f hf).symm.trans hq)

/-- The reaction of another node changes the messages on their way only. -/
theorem RunsAt.other (h : S.RunsAt program M n q sid s) (hp : q ≠ p)
    (hle : weigh (carries program q) (pool ++ r.sent) + n ≤ weigh (carries program q) s.pool + n') :
    S.RunsAt program M n' q sid (s.react p pool r) := by
  obtain ⟨running, stage, hc, hweight, hreported⟩ := h
  rw [RunsAt, Actors.react_nodes_of_ne hp, Actors.react_pool]
  refine ⟨running, stage, hc, by omega, fun hexec => hreported ?_⟩
  obtain ⟨id, results, hid, hmem⟩ := hexec
  refine ⟨id, results, hid, (List.mem_append.1 hmem).resolve_right fun hnew => hp ?_⟩
  obtain ⟨o, -, he⟩ := List.mem_map.1 hnew
  exact (Prod.mk.inj he).1.symm

/-- The node's own reaction takes the program to a stage that the tokens allow. -/
theorem RunsAt.own (hreported : S.HasExecuted program p s → stage = .finished)
    (running : r.node.tile.running = true) (hc : S.CourseAt program M sid p r.node.tile stage')
    (hle : weigh (carries program p) (pool ++ r.sent) + stage'.begun ≤ n)
    (hstays : stage = .finished → stage' = .finished)
    (hnew : ∀ id results, .processor id results ∈ r.outputs → id.hash = S.calculateHash program →
      stage' = .finished) : S.RunsAt program M n p sid (s.react p pool r) := by
  rw [RunsAt, Actors.react_nodes_self, Actors.react_pool]
  refine ⟨running, stage', hc, hle, fun hexec => ?_⟩
  obtain ⟨id, results, hid, hmem⟩ := hexec
  rcases List.mem_append.1 hmem with hmem | hmem
  · exact hstays (hreported ⟨id, results, hid, hmem⟩)
  · obtain ⟨o, ho, he⟩ := List.mem_map.1 hmem
    cases he
    exact hnew id results ho hid

/-- A move of the tile of node `p`. -/
theorem RunsAt.moves {a : TileStep B} {t : Tile B} {out : List (TileOut B)}
    (ha : S.NodeAddressed p (s.nodes p)) (hq : S.Assigned p sid)
    (h : S.RunsAt program M n p sid s)
    (hhandle : ∀ order e, a = .handle order e → S.MessageApart program p (.memoryIn e) ∧
      ((s.nodes p).tile.memory.handle order e).Continues)
    (hstart : ∀ f g x, a = .start f g x → S.Issued program x ∧
      (x.instructions = program → n ≤ weigh (carries program p) s.pool))
    (hle : weigh (carries program p) pool + begins program a ≤ weigh (carries program p) s.pool)
    (hmove : (s.nodes p).tile.Moves S.add a t out) :
    S.RunsAt program M n p sid
      (s.react p pool ⟨{ s.nodes p with tile := t }, out.map (emit p), out.map emitted⟩) := by
  obtain ⟨running, stage, hc, hweight, hreported⟩ := h
  have hadmitted : ∀ f g x, a = .start f g x →
      x.instructions = program ∧ x.identifier.hash = S.calculateHash program ∧ stage = .before ∨
        x.instructions ≠ program ∧ x.identifier.hash ≠ S.calculateHash program ∧
          ∀ v, Mentions x.instructions v → ¬ Mentions program v := fun f g x he => by
    obtain ⟨hissued, htoken⟩ := hstart f g x he
    refine hissued.own_or_other.imp_left fun hown => ⟨hown.1, hown.2, ?_⟩
    have hnone := htoken hown.1
    cases stage with
    | before => rfl
    | executing | finished =>
      simp only [Stage.begun] at hweight
      omega
  obtain ⟨running', stage', hc', hbegun, hstays, hfinished⟩ := hc.moves running
    (ha.memory.assignedSid hq) (fun f hf => ha.memory.only hq hf)
    (fun order e he => ⟨(hhandle order e he).2, fun f x hs => (hhandle order e he).1.stores hs⟩)
    hadmitted hmove
  refine RunsAt.own hreported running' hc' ?_ hstays fun id results hout => ?_
  · rw [Actors.weigh_append, carries_emitted]
    omega
  · obtain ⟨o, ho, he⟩ := List.mem_map.1 hout
    cases o with
    | memory e => cases he
    | finishedExecution id' results' => cases he; exact hfinished id results ho

/-- **One delivery**: a peer that starts the program takes its only token. -/
theorem Computing.deliver (hw : S.encoding.inner.Implements C) (hB : 0 < B) (hn : n ≤ 1)
    (h : S.Computing program M n s) {i : Nat} (hi : s.pool[i]? = some (p, m))
    (hr : S.receive p c (s.nodes p) m = some r) :
    S.Computing program M n (s.react p (s.pool.eraseIdx i) r) := by
  have hmem := List.mem_of_getElem? hi
  have ha := h.addressed.nodes p
  have hm := h.apart p m hmem
  refine ⟨h.addressed.react (fun e he => List.mem_of_mem_eraseIdx he)
    (ha.receive (h.addressed.pool p m hmem) hr), fun q m' hqm => ?_, fun q sid hq => ?_⟩
  · rcases List.mem_append.1 hqm with hqm | hqm
    · exact h.apart q m' (List.mem_of_mem_eraseIdx hqm)
    · exact hm.receive hr hqm
  have hpool := Actors.weigh_eraseIdx (w := carries program q) hi
  have hsent : weigh (carries program q) r.sent ≤ carries program q (p, m) := carries_receive hr
  by_cases hp : q = p
  · subst hp
    have hcourse := h.course q sid hq
    have hstays : r.node.tile = (s.nodes q).tile → (∀ id results, .processor id results ∉ r.outputs) →
        S.RunsAt program M n q sid (s.react q (s.pool.eraseIdx i) r) := fun htile hout => by
      obtain ⟨running, stage, hc, hweight, hreported⟩ := hcourse
      refine RunsAt.own hreported (by rw [htile]; exact running) (by rw [htile]; exact hc) ?_ id
        fun id results ho => absurd ho (hout id results)
      rw [Actors.weigh_append]
      omega
    cases receive_reacts hr with
    | handled moves =>
      refine hcourse.moves ha hq (fun order e he => ?_) (fun _ _ _ he => by cases he) ?_ moves
      · cases he
        exact ⟨hm, hm.continues hw hB ha.memory⟩
      · change weigh _ _ + 0 ≤ _
        omega
    | @started x t out moves =>
      refine hcourse.moves ha hq (fun _ _ he => by cases he) (fun f g x' he => ?_) ?_ moves
      · cases he
        refine ⟨hm, fun hown => hn.trans ?_⟩
        have hone : carries program q (q, (.processorIn x : Message B)) = 1 := if_pos ⟨rfl, hown⟩
        exact hone ▸ Actors.le_weigh hmem
      · have hone : carries program q (q, (.processorIn x : Message B)) =
            begins program (.start c.fetchOrder c.saveOrder x : TileStep B) := by
          simp [carries, begins]
        omega
    | instructed =>
      refine hstays rfl fun id results ho => ?_
      obtain ⟨o, -, he⟩ := List.mem_map.1 ho
      cases he
    | passed notMemory sent waits =>
      refine hstays rfl fun id results ho => ?_
      obtain ⟨e, he⟩ := mem_behave_outputs ho
      cases he
  · refine (h.course q sid hq).other hp ?_
    rw [Actors.weigh_append]
    omega

/-- **One act**: scheduling the program gives every peer a token. -/
theorem Computing.act (hb : S.Bijective) (h : S.Computing program M n s) {b : Act B}
    (hspares : S.Spares program b) (hr : S.act p c (s.nodes p) b = some r) :
    S.Computing program M (n + schedules program (.act p c b)) (s.react p s.pool r) := by
  have ha := h.addressed.nodes p
  have hp : p ∈ S.peers := by
    by_contra hp
    rw [show S.act p c (s.nodes p) b = none from if_neg hp] at hr
    cases hr
  obtain ⟨s', hassigned⟩ := (hb.peers p).1 hp
  have hmem : p ∈ S.distribution :=
    Finmap.lookup_isSome.1 (Option.isSome_iff_exists.2 ⟨s', hassigned⟩)
  refine ⟨h.addressed.react (fun e he => he) (ha.act hr), fun q m' hqm => ?_, fun q sid hq => ?_⟩
  · rcases List.mem_append.1 hqm with hqm | hqm
    · exact h.apart q m' hqm
    · exact hspares.act hmem hr hqm
  have hsent : weigh (carries program q) r.sent = schedules program (.act p c b) :=
    carries_act hb ((hb.peers q).2 ⟨sid, hq⟩) hr
  by_cases hqp : q = p
  · subst hqp
    have hcourse := h.course q sid hq
    unfold Setup.act at hr
    rw [if_pos hp] at hr
    cases b with
    | user e =>
      cases hr
      obtain ⟨running, stage, hc, hweight, hreported⟩ := hcourse
      refine RunsAt.own hreported running hc ?_ id fun id results ho => ?_
      · rw [Actors.weigh_append]
        omega
      · obtain ⟨e', he⟩ := mem_behave_outputs ho
        cases he
    | _ =>
      obtain ⟨t, out, hmove, rfl⟩ := tileStep_moves hr
      exact hcourse.moves ha hq (fun _ _ he => by cases he) (fun _ _ _ he => by cases he)
        (le_of_eq rfl) hmove
  · refine (h.course q sid hq).other hqp ?_
    rw [Actors.weigh_append]
    omega

theorem Computing.step (hw : S.encoding.inner.Implements C) (hB : 0 < B) (hb : S.Bijective)
    (hn : n ≤ 1) (h : S.Computing program M n s) {a : Action B}
    (hspares : ∀ p c b, a = .act p c b → S.Spares program b) (hs : S.step s a = some s') :
    S.Computing program M (n + schedules program a) s' := by
  cases Actors.step_moves hs with
  | delivered pending reaction => exact h.deliver hw hB hn pending reaction
  | acted reaction => exact h.act hb (hspares _ _ _ rfl) reaction

/-- **Runs**: the program, scheduled once, takes its course at every peer. -/
theorem Computing.run (hw : S.encoding.inner.Implements C) (hB : 0 < B) (hb : S.Bijective)
    (h : S.Computing program M n s) {as : List (Action B)}
    (hspares : ∀ p c b, .act p c b ∈ as → S.Spares program b)
    (once : n + weigh (schedules program) as ≤ 1) (run : Trace S.step s as s') :
    S.Computing program M (n + weigh (schedules program) as) s' := by
  refine Trace.invariant (I := fun as s' => (∀ p c b, .act p c b ∈ as → S.Spares program b) →
    n + weigh (schedules program) as ≤ 1 →
    S.Computing program M (n + weigh (schedules program) as) s') (fun _ _ => h) ?_ run hspares once
  intro as t a t' ih hs hspares once
  rw [Actors.weigh_append, Actors.weigh_cons, Actors.weigh_nil, Nat.add_zero] at once ⊢
  have ht := ih (fun p c b hmem => hspares p c b (List.mem_append_left _ hmem)) (by omega)
  rw [← Nat.add_assoc]
  exact ht.step hw hB hb (by omega) (fun p c b he => hspares p c b (by simp [he])) hs

end Courses

end Setup

end Swarm.Network
