import Swarm.InstructionStorage.Completion
import Swarm.Lib.Ledger
import Swarm.Network.Notifications
import Swarm.Network.Rest

/-!
# Every program is executed at every peer

A program that is scheduled is executed once at every peer, however the messages are
interleaved, and a state without further steps has done so: `programs_complete`. Its
execution is told to a user once enough reports have arrived there after the program.
-/

namespace Swarm.Network

open Swarm.DataMemory Swarm.Processor Swarm.Consensus Swarm.Encoding Swarm.Node
open Swarm.Behaviour (Request Response ProcessedRequests Send)
open Swarm.InstructionStorage (InstructionMemory Input Tracks registered reporters responses response)
open Actors (weigh Balances InBalance)

variable {B : Nat}

namespace Setup

/-! ## Executions -/

section Executions

variable (S : Setup) (id : ProgramIdentifier)

/-- An execution of program `id` on its way to the processor of `q`. -/
def owed (q : PeerId) : PeerId × Message B → Nat
  | (p, .recognized _ (.execute instructions) eventHash) =>
    if p = q ∧ (Program.new S.calculateHash instructions eventHash).identifier = id then 1 else 0
  | (p, .instructionIn (.finalizedProgram program)) =>
    if p = q ∧ program.identifier = id then 1 else 0
  | (p, .instructionOut (.nextProgram program)) =>
    if p = q ∧ program.identifier = id then 1 else 0
  | (p, .processorIn program) => if p = q ∧ program.identifier = id then 1 else 0
  | _ => 0

def underway : ProcessorState B → Nat
  | .executing id' _ => if id' = id then 1 else 0
  | .ready => 0

/-- An execution that the processor of `q` has ended. -/
def executes (q : PeerId) : PeerId × Output B → Nat
  | (p, .processor id' _) => if p = q ∧ id' = id then 1 else 0
  | _ => 0

/-- How often an action schedules the program. -/
def schedulesAs : Action B → Nat
  | .act _ c (.user (.scheduleProgram instructions)) =>
    if (Program.new S.calculateHash instructions c.eventHash).identifier = id then 1 else 0
  | _ => 0

variable {S id} {p q : PeerId} {c : Choice} {node : Node B} {m : Message B} {x : NodeReaction B}
  {s : State B} {as : List (Action B)} {given : Nat}

/-- The ledger of the executions of program `id` at peer `q`. -/
abbrev ExecutionBalances (S : Setup) (id : ProgramIdentifier) (q p : PeerId) (node : Node B)
    (given : Nat) (x : NodeReaction B) : Prop :=
  Balances (S.owed id q) q (fun node => underway id node.tile.processor) (executes id q)
    (fun _ => 0) p node given x

/-- The processor goes on with what it does, and no execution ends. -/
theorem ExecutionBalances.of_quiet
    (hprocessor : underway id x.node.tile.processor = underway id node.tile.processor)
    (hout : ∀ id results, .processor id results ∉ x.outputs)
    (hsent : weigh (S.owed id q) x.sent = given) : S.ExecutionBalances id q p node given x := by
  have hexecutes : weigh (executes id q) (x.outputs.map (p, ·)) = 0 := by
    refine Actors.weigh_eq_zero fun e he => ?_
    obtain ⟨o, ho, rfl⟩ := List.mem_map.1 he
    cases o with
    | processor id' results => exact absurd ho (hout id' results)
    | _ => rfl
  have hnone : weigh (fun _ => 0) (x.outputs.map (p, ·)) = 0 := Actors.weigh_eq_zero fun _ _ => rfl
  simp only [ExecutionBalances, Balances, hexecutes, hprocessor, hsent, hnone]

theorem owed_emitted (out : List (TileOut B)) : weigh (S.owed id q) (out.map (emit p)) = 0 := by
  refine Actors.weigh_eq_zero fun e he => ?_
  obtain ⟨o, -, rfl⟩ := List.mem_map.1 he
  cases o <;> rfl

theorem executes_behave {y : ProcessedRequests × List (Send B)}
    (hsent : weigh (S.owed id q) (S.behave p c node y).sent = given) :
    S.ExecutionBalances id q p node given (S.behave p c node y) := by
  refine .of_quiet rfl (fun id results ho => ?_) hsent
  obtain ⟨e, he⟩ := mem_behave_outputs ho
  cases he

/-- A move of the tile that starts no program. -/
theorem executes_moves {a : TileStep B} {t : Tile B} {out : List (TileOut B)}
    (hstart : ∀ f g program, a ≠ .start f g program) (hmove : node.tile.Moves S.add a t out) :
    S.ExecutionBalances id q p node 0
      ⟨{ node with tile := t }, out.map (emit p), out.map emitted⟩ := by
  have hquiet : underway id t.processor = underway id node.tile.processor →
      (∀ id results, .finishedExecution id results ∉ out) → S.ExecutionBalances id q p node 0
        ⟨{ node with tile := t }, out.map (emit p), out.map emitted⟩ := by
    refine fun hprocessor hout => .of_quiet hprocessor (fun id results ho => ?_) (owed_emitted out)
    obtain ⟨o, ho, he⟩ := List.mem_map.1 ho
    cases o with
    | memory o => cases he
    | finishedExecution id' results' => exact hout id' results' ho
  cases hmove with
  | started ready code => exact absurd rfl (hstart _ _ _)
  | @finished id' results done =>
    unfold ExecutionBalances Balances
    rw [owed_emitted]
    simp only [List.map_cons, List.map_nil, emitted, Actors.weigh_cons, Actors.weigh_nil, executes,
      underway, done, ite_and]
    split <;> rfl
  | handled running turn | ended running turn | applied running head =>
    exact hquiet rfl (by simp)
  | answered running reading | readRefused ended reading =>
    exact hquiet (by rw [reading]; rfl) (by simp)
  | pushed running writing | pushRefused ended writing =>
    exact hquiet (by rw [writing]; rfl) (by simp)

/-- **One delivery** passes an execution on to the next module, or starts it. -/
theorem executes_receive (hr : S.receive p c node m = some x) :
    S.ExecutionBalances id q p node (S.owed id q (p, m)) x := by
  cases m with
  | memoryIn e =>
    obtain ⟨t, out, hmove, rfl⟩ := tileStep_moves hr
    exact executes_moves (fun _ _ _ h => by cases h) hmove
  | processorIn program =>
    obtain ⟨t, out, hmove, rfl⟩ := tileStep_moves hr
    cases hmove with
    | started ready code =>
      unfold ExecutionBalances Balances
      simp only [List.map_nil, Actors.weigh_nil, owed, underway, ready, ite_and, Nat.zero_add,
        ite_self, Nat.add_zero]
  | instructionIn e =>
    cases hr
    refine .of_quiet rfl (fun id results ho => ?_) ?_
    · obtain ⟨o, -, he⟩ := List.mem_map.1 ho
      cases he
    · cases e with
      | finalizedProgram program => rfl
      | executedProgram peer id' =>
        refine Actors.weigh_eq_zero fun e he => ?_
        obtain ⟨o, ho, rfl⟩ := List.mem_map.1 he
        have hemit := InstructionMemory.handle_emits _ o ho
        cases o with
        | nextProgram program => cases hemit
        | _ => rfl
  | instructionOut e =>
    simp only [receive] at hr
    split at hr
    · cases hr
      exact executes_behave (by cases e <;> rfl)
    · cases hr
  | recognized author tx eventHash =>
    cases hr
    exact executes_behave (by cases tx <;> rfl)
  | _ =>
    cases receive_reacts hr with
    | passed notMemory sent waits =>
      refine executes_behave (Actors.weigh_eq_zero ?_)
      rintro ⟨q', m'⟩ he
      rw [behave_sent, List.mem_flatMap] at he
      obtain ⟨a, ha, hqm⟩ := he
      cases sent a ha q' m' hqm <;> rfl

/-- **One act**: a program that is scheduled is owed to every peer. -/
theorem executes_act (hb : S.Bijective) (hq : q ∈ S.peers) {b : Act B}
    (hr : S.act p c node b = some x) :
    S.ExecutionBalances id q p node (S.schedulesAs id (.act p c b)) x := by
  unfold Setup.act at hr
  split at hr
  · cases b with
    | user e =>
      cases hr
      refine executes_behave ?_
      cases e with
      | scheduleProgram instructions =>
        have hsent : weigh (S.owed id q)
            (S.dispatch (B := B) p c (.scheduleTx (.execute instructions))) =
              S.schedulesAs id (.act p c (.user (.scheduleProgram instructions)) : Action B) :=
          Actors.weigh_broadcast hb.nodup hq fun p' => by simp only [owed, schedulesAs, ite_and]
        rw [weigh_behave, Behaviour.handleUser, Actors.weigh_cons, hsent]
        rfl
      | _ => rfl
    | _ =>
      obtain ⟨t, out, hmove, rfl⟩ := tileStep_moves hr
      exact executes_moves (fun _ _ _ h => by cases h) hmove
  · cases hr

/-- **Each scheduled program is executed once at every peer**: in every run, the executions that are
on their way, under way and ended there are those scheduled. -/
theorem executes_run (hb : S.Bijective) (run : S.Run as s) (hq : q ∈ S.peers) :
    weigh (S.owed id q) s.pool + underway id (s.nodes q).tile.processor +
      weigh (executes id q) s.log = weigh (S.schedulesAs id) as := by
  have hbalanced : InBalance (S.owed id q) q (fun node => underway id node.tile.processor)
      (executes id q) (fun _ => 0) (weigh (S.schedulesAs id) as) s := by
    refine Trace.invariant (I := fun as (s : State B) => InBalance (S.owed id q) q
      (fun node => underway id node.tile.processor) (executes id q) (fun _ => 0)
      (weigh (S.schedulesAs id) as) s) ?_ ?_ run
    · unfold InBalance
      rfl
    · intro as s a t h hs
      rw [Actors.weigh_append, Actors.weigh_cons, Actors.weigh_nil]
      refine h.step (fun i p c m x ha _ hr => ?_) (fun p c b x ha hr => ?_) hs
      · subst ha
        exact executes_receive hr
      · subst ha
        exact executes_act hb hq hr
  unfold InBalance at hbalanced
  rwa [Actors.weigh_eq_zero (w := fun _ => 0) fun _ _ => rfl, Nat.zero_add] at hbalanced

end Executions

/-! ## Reports -/

section Reports

variable (S : Setup) (id : ProgramIdentifier)

/-- A report of `a` about program `id` on its way to the instruction memory of `r`. -/
def reporting (a r : PeerId) : PeerId × Message B → Nat
  | (p, .processorOut id' _) => if p = a ∧ id' = id then 1 else 0
  | (p, .recognized author (.executed id') _) => if p = r ∧ author = a ∧ id' = id then 1 else 0
  | (p, .instructionIn (.executedProgram peer id')) =>
    if p = r ∧ peer = a ∧ id' = id then 1 else 0
  | _ => 0

/-- A report of `a` that the instruction memory of `r` has heeded. -/
def heeds (a r : PeerId) : PeerId × Output B → Nat
  | (p, .instruction (.peerShardsActualized id' peer _)) =>
    if p = r ∧ peer = a ∧ id' = id then 1 else 0
  | _ => 0

/-- The program that a message reports to an instruction memory. -/
def reported : Message B → Option ProgramIdentifier
  | .instructionIn (.executedProgram _ id) => some id
  | _ => none

/-- No instruction memory takes a report of a program before the program. -/
def InOrder (s : State B) : Action B → Prop
  | .deliver i _ => ∀ e ∈ s.pool[i]?, ∀ id ∈ reported e.2,
    id ∈ (s.nodes e.1).instructionMemory.currentlyExecuted
  | .act _ _ _ => True

instance InOrder.decidable (s : State B) : ∀ b, Decidable (InOrder s b)
  | .deliver i _ => inferInstanceAs (Decidable (∀ e ∈ s.pool[i]?, ∀ id ∈ reported e.2,
      id ∈ (s.nodes e.1).instructionMemory.currentlyExecuted))
  | .act _ _ _ => isTrue trivial

variable {S id} {a p q r : PeerId} {c : Choice} {node : Node B} {m : Message B} {x : NodeReaction B}
  {s : State B} {as : List (Action B)} {given : Nat}

/-- The ledger of the reports of `a` about program `id` at peer `r`. -/
abbrev ReportBalances (id : ProgramIdentifier) (a r p : PeerId) (node : Node B) (given : Nat)
    (x : NodeReaction B) : Prop :=
  Balances (reporting id a r) r (fun _ => 0) (heeds id a r) (executes id a) p node given x

theorem reports_behave {y : ProcessedRequests × List (Send B)}
    (hsent : weigh (reporting id a r) (S.behave p c node y).sent = given) :
    ReportBalances id a r p node given (S.behave p c node y) := by
  have huser : ∀ {w : PeerId × Output B → Nat}, (∀ e, w (p, .user e) = 0) →
      weigh w ((S.behave p c node y).outputs.map (p, ·)) = 0 := by
    refine fun hw => Actors.weigh_eq_zero fun e he => ?_
    obtain ⟨o, ho, rfl⟩ := List.mem_map.1 he
    obtain ⟨e, rfl⟩ := mem_behave_outputs ho
    exact hw e
  simp only [ReportBalances, Balances, hsent, ite_self]
  rw [huser fun _ => rfl, huser fun _ => rfl]

/-- A move of the tile; an execution that ends is reported. -/
theorem reports_moves {b : TileStep B} {t : Tile B} {out : List (TileOut B)}
    (hmove : node.tile.Moves S.add b t out) :
    ReportBalances id a r p node 0
      ⟨{ node with tile := t }, out.map (emit p), out.map emitted⟩ := by
  have hquiet : (∀ id results, .finishedExecution id results ∉ out) → ReportBalances id a r p node 0
      ⟨{ node with tile := t }, out.map (emit p), out.map emitted⟩ := by
    intro hout
    have hzero : ∀ {β : Type} {w : β → Nat} {f : TileOut B → β}, (∀ o, w (f (.memory o)) = 0) →
        weigh w (out.map f) = 0 := by
      refine fun hw => Actors.weigh_eq_zero fun e he => ?_
      obtain ⟨o, ho, rfl⟩ := List.mem_map.1 he
      cases o with
      | memory o => exact hw o
      | finishedExecution id results => exact absurd ho (hout id results)
    simp only [ReportBalances, Balances, List.map_map, ite_self]
    rw [hzero fun _ => rfl, hzero fun _ => rfl, hzero fun _ => rfl]
  cases hmove with
  | finished done =>
    simp only [ReportBalances, Balances, List.map_cons, List.map_nil, emit, emitted,
      Actors.weigh_cons, Actors.weigh_nil, reporting, heeds, executes, ite_self]
    omega
  | _ => exact hquiet (by simp)

/-- A report about a program that has arrived is heeded. -/
theorem handle_heeded (order : KeyOrder Vid) (peer : PeerId) {memory : InstructionMemory}
    (hid : id ∈ memory.currentlyExecuted) :
    ∃ (done : Bool) (ids : List Vid), (memory.handle order (.executedProgram peer id)).2 =
      (if done then [.finishedExecution id] else []) ++ [.peerShardsActualized id peer ids] := by
  obtain ⟨metadata, hl⟩ := Option.isSome_iff_exists.1 (Finmap.lookup_isSome.2 hid)
  have hkept : ∃ metadata',
      (memory.notifyExecuted peer id).2.currentlyExecuted.lookup id = some metadata' := by
    simp only [InstructionMemory.notifyExecuted, hl]
    cases metadata.state with
    | executing finished => exact ⟨_, Finmap.lookup_insert _⟩
    | finished => exact ⟨_, hl⟩
  obtain ⟨metadata', hl'⟩ := hkept
  refine ⟨(memory.notifyExecuted peer id).1, metadata'.affectedDataIds, ?_⟩
  simp only [InstructionMemory.handle, hl']

theorem reports_instructed {e : InstructionStorage.InEvent}
    (hin : ∀ peer id', e = .executedProgram peer id' →
      id' ∈ node.instructionMemory.currentlyExecuted) :
    ReportBalances id a r p node (reporting id a r (p, (.instructionIn e : Message B)))
      (instructionStep p c node e) := by
  cases e with
  | finalizedProgram program =>
    simp [ReportBalances, Balances, instructionStep, InstructionMemory.handle, reporting, heeds,
      executes]
  | executedProgram peer id' =>
    obtain ⟨done, ids, hout⟩ := handle_heeded c.vids peer (hin peer id' rfl)
    cases done <;>
      simp [ReportBalances, Balances, instructionStep, hout, reporting, heeds, executes]

/-- **One delivery** passes a report on, or it is heeded. -/
theorem reports_receive (hb : S.Bijective) (hr : r ∈ S.peers)
    (hin : ∀ peer id', m = .instructionIn (.executedProgram peer id') →
      id' ∈ node.instructionMemory.currentlyExecuted)
    (hx : S.receive p c node m = some x) :
    ReportBalances id a r p node (reporting id a r (p, m)) x := by
  cases m with
  | memoryIn e | processorIn e =>
    obtain ⟨t, out, hmove, rfl⟩ := tileStep_moves hx
    exact reports_moves hmove
  | instructionIn e =>
    cases hx
    exact reports_instructed fun peer id' he => hin peer id' (by rw [he])
  | instructionOut e =>
    simp only [receive] at hx
    split at hx
    · cases hx
      exact reports_behave (by cases e <;> rfl)
    · cases hx
  | recognized author tx eventHash =>
    cases hx
    exact reports_behave (by cases tx <;> rfl)
  | processorOut id' results =>
    cases hx
    refine reports_behave ?_
    have hsent : weigh (reporting id a r)
        (S.dispatch (B := B) p c (.scheduleTx (.executed id'))) = if p = a ∧ id' = id then 1 else 0 :=
      Actors.weigh_broadcast hb.nodup hr fun p' => by simp only [reporting, ite_and]
    rw [weigh_behave, Behaviour.handleProcessor, Actors.weigh_cons, hsent]
    rfl
  | _ =>
    cases receive_reacts hx with
    | passed notMemory sent waits =>
      refine reports_behave (Actors.weigh_eq_zero ?_)
      rintro ⟨q', m'⟩ he
      rw [behave_sent, List.mem_flatMap] at he
      obtain ⟨b, hb', hqm⟩ := he
      cases sent b hb' q' m' hqm <;> rfl

theorem reports_act {b : Act B} (hx : S.act p c node b = some x) :
    ReportBalances id a r p node 0 x := by
  unfold Setup.act at hx
  split at hx
  · cases b with
    | user e =>
      cases hx
      refine reports_behave (Actors.weigh_eq_zero ?_)
      rintro ⟨q', m'⟩ he
      rw [behave_sent, List.mem_flatMap] at he
      obtain ⟨b, hb', hqm⟩ := he
      cases asks_of_mem hb' hqm <;> rfl
    | _ =>
      obtain ⟨t, out, hmove, rfl⟩ := tileStep_moves hx
      exact reports_moves hmove
  · cases hx

/-- **Every execution is reported once to every peer**: if no report overtakes its program, the
reports of `a` on their way to `r` and heeded there are the executions that `a` has ended. -/
theorem reports_run (hb : S.Bijective) (run : S.Run as s) (inOrder : Along S.step InOrder S.init as)
    (hr : r ∈ S.peers) :
    weigh (reporting id a r) s.pool + weigh (heeds id a r) s.log = weigh (executes id a) s.log := by
  have hbalanced : InBalance (reporting id a r) r (fun _ => 0) (heeds id a r) (executes id a) 0 s := by
    refine Trace.invariant_along (I := fun _ (s : State B) => InBalance (reporting id a r) r
      (fun _ => 0) (heeds id a r) (executes id a) 0 s) ?_ ?_ run inOrder
    · unfold InBalance
      rfl
    · intro as s b t h hin hs
      show InBalance (reporting id a r) r _ (heeds id a r) (executes id a) (0 + 0) t
      refine h.step (fun i p c m x hb' hi hx => ?_) (fun p c b x _ hx => ?_) hs
      · subst hb'
        refine reports_receive hb hr (fun peer id' hm => ?_) hx
        subst hm
        exact hin _ hi id' rfl
      · exact reports_act hx
  exact hbalanced

end Reports

/-! ## Completions -/

section Completions

/-- The peers whose reports about the program a list of answers acknowledges. -/
theorem mem_reporters {t : Nat} {id : ProgramIdentifier} {peer : PeerId} {before is : List Input} :
    peer ∈ reporters id (before ++ is) ↔ peer ∈ reporters id before ∨
      ∃ ids, .peerShardsActualized id peer ids ∈ responses t before is := by
  induction is generalizing before with
  | nil => simp [responses]
  | cons i is ih =>
    have hfirst : peer ∈ reporters id (before ++ [i]) ↔ peer ∈ reporters id before ∨
        ∃ ids, .peerShardsActualized id peer ids ∈ response t before i := by
      obtain ⟨order, e⟩ := i
      cases e with
      | finalizedProgram program => simp [InstructionStorage.reporters_finalized, response]
      | executedProgram peer' id' =>
        rw [InstructionStorage.reporters_report]
        cases hid : registered id' before with
        | none =>
          have hnot : ¬ ((registered id before).isSome ∧ id' = id) := by
            rintro ⟨hsome, rfl⟩
            rw [hid] at hsome
            cases hsome
          simp [response, hid, hnot]
        | some program =>
          by_cases hsame : id' = id
          · subst hsame
            simp [response, hid, Threshold.mem_signal, or_comm]
          · simp [response, hid, Threshold.mem_signal, hsame, Ne.symm hsame]
    rw [List.append_cons, ih, hfirst, responses]
    simp only [List.mem_append, exists_or, or_assoc]

variable (S : Setup) (id : ProgramIdentifier) (r : PeerId)

/-- What the instruction memory of `r` has said. -/
def saidBy : PeerId × Output B → Option InstructionStorage.OutEvent
  | (p, .instruction o) => if p = r then some o else none
  | _ => none

def heeded : InstructionStorage.OutEvent → Option PeerId
  | .peerShardsActualized id' peer _ => if id' = id then some peer else none
  | _ => none

/-- The peers whose reports about the program the instruction memory of `r` has heeded. -/
def confirmers (s : State B) : Finset PeerId :=
  ((s.log.filterMap (saidBy r)).filterMap (heeded id)).toFinset

variable {S id r} {p : PeerId} {c : Choice} {node : Node B} {m : Message B} {x : NodeReaction B}
  {s : State B} {as : List (Action B)}

theorem mem_confirmers {peer : PeerId} : peer ∈ confirmers id r s ↔
    ∃ ids, .peerShardsActualized id peer ids ∈ s.log.filterMap (saidBy r) := by
  rw [confirmers, List.mem_toFinset, List.mem_filterMap]
  constructor
  · rintro ⟨o, ho, hheeded⟩
    cases o with
    | peerShardsActualized id' peer' ids =>
      simp only [heeded] at hheeded
      split at hheeded
      · rename_i hid
        cases hheeded
        exact ⟨ids, hid ▸ ho⟩
      · cases hheeded
    | _ => cases hheeded
  · rintro ⟨ids, ho⟩
    exact ⟨_, ho, if_pos rfl⟩

/-- The instruction memory answers its input, and nothing else changes it. -/
theorem instruction_receive (hx : S.receive p c node m = some x) :
    (∃ e, m = .instructionIn e ∧ x = instructionStep p c node e) ∨
      x.node.instructionMemory = node.instructionMemory ∧ ∀ o, .instruction o ∉ x.outputs := by
  cases receive_reacts hx with
  | handled moves | started moves =>
    refine .inr ⟨rfl, fun o ho => ?_⟩
    obtain ⟨o', -, he⟩ := List.mem_map.1 ho
    cases o' <;> cases he
  | instructed => exact .inl ⟨_, rfl, rfl⟩
  | passed notMemory sent waits =>
    refine .inr ⟨rfl, fun o ho => ?_⟩
    obtain ⟨e, he⟩ := mem_behave_outputs ho
    cases he

theorem instruction_act {b : Act B} (hx : S.act p c node b = some x) :
    x.node.instructionMemory = node.instructionMemory ∧ ∀ o, .instruction o ∉ x.outputs := by
  unfold Setup.act at hx
  split at hx
  · cases b with
    | user e =>
      cases hx
      refine ⟨rfl, fun o ho => ?_⟩
      obtain ⟨e, he⟩ := mem_behave_outputs ho
      cases he
    | _ =>
      obtain ⟨t, out, hmove, rfl⟩ := tileStep_moves hx
      refine ⟨rfl, fun o ho => ?_⟩
      obtain ⟨o', -, he⟩ := List.mem_map.1 ho
      cases o' <;> cases he
  · cases hx

/-- Some inputs explain the instruction memory of `r` and what it has said. -/
def Explained (S : Setup) (r : PeerId) (s : State B) (is : List Input) : Prop :=
  Tracks S.executionConfirmationsThreshold is (s.nodes r).instructionMemory ∧
    s.log.filterMap (saidBy r) = responses S.executionConfirmationsThreshold [] is

theorem Explained.react {is : List Input} (h : S.Explained r s is)
    (ht : 1 ≤ S.executionConfirmationsThreshold) {pool : List (PeerId × Message B)}
    (hx : (∃ e, x = instructionStep p c (s.nodes p) e) ∨
      x.node.instructionMemory = (s.nodes p).instructionMemory ∧ ∀ o, .instruction o ∉ x.outputs) :
    ∃ is, S.Explained r (s.react p pool x) is := by
  obtain ⟨tracks, said⟩ := h
  have hquiet : (x.outputs.map (p, ·)).filterMap (saidBy r) = [] →
      (p = r → x.node.instructionMemory = (s.nodes p).instructionMemory) →
      S.Explained r (s.react p pool x) is := by
    intro hsaid hsame
    refine ⟨?_, by rw [Actors.react_log, List.filterMap_append, said, hsaid, List.append_nil]⟩
    rw [Actors.react_nodes]
    split
    · rename_i hr
      rw [hsame hr.symm, ← hr]
      exact tracks
    · exact tracks
  by_cases hp : p = r
  · subst hp
    rcases hx with ⟨e, rfl⟩ | ⟨hsame, hout⟩
    · obtain ⟨htracks, hresponse⟩ := tracks.handle ht (c.vids, e)
      refine ⟨is ++ [(c.vids, e)], by rw [Actors.react_nodes_self]; exact htracks, ?_⟩
      have hsaid : ((instructionStep p c (s.nodes p) e).outputs.map (p, ·)).filterMap (saidBy p) =
          ((s.nodes p).instructionMemory.handle c.vids e).2 := by
        simp [instructionStep, List.filterMap_map, Function.comp_def, saidBy]
      rw [Actors.react_log, List.filterMap_append, said, hsaid, hresponse,
        InstructionStorage.responses_append]
      simp [responses]
    · refine ⟨is, hquiet (List.filterMap_eq_nil_iff.2 fun e he => ?_) fun _ => hsame⟩
      obtain ⟨o, ho, rfl⟩ := List.mem_map.1 he
      cases o with
      | instruction o => exact absurd ho (hout o)
      | _ => rfl
  · refine ⟨is, hquiet (List.filterMap_eq_nil_iff.2 fun e he => ?_) fun h => absurd h hp⟩
    obtain ⟨o, ho, rfl⟩ := List.mem_map.1 he
    cases o with
    | instruction o => exact if_neg hp
    | _ => rfl

theorem explained_run (ht : 1 ≤ S.executionConfirmationsThreshold) (run : S.Run as s)
    (r : PeerId) : ∃ is, S.Explained r s is := by
  refine Trace.invariant (I := fun _ (s : State B) => ∃ is, S.Explained r s is) ?_ ?_ run
  · exact ⟨[], .new _, rfl⟩
  · rintro as s b t ⟨is, h⟩ hs
    cases Actors.step_moves hs with
    | delivered pending reaction =>
      exact h.react ht ((instruction_receive reaction).imp_left (Exists.imp fun _ => And.right))
    | @acted p c b x reaction => exact h.react (c := c) ht (.inr (instruction_act reaction))

/-- **A completion is announced once**, when enough reports have been heeded. -/
theorem announced_run (ht : 1 ≤ S.executionConfirmationsThreshold) (run : S.Run as s)
    (r : PeerId) : s.log.count (r, .instruction (.finishedExecution id)) =
      if S.executionConfirmationsThreshold ≤ (confirmers id r s).card then 1 else 0 := by
  obtain ⟨is, -, said⟩ := explained_run ht run r
  have hconfirmers : confirmers id r s = reporters id is := by
    ext peer
    have hmem : peer ∈ reporters id ([] ++ is) ↔ peer ∈ reporters id [] ∨ ∃ ids,
        .peerShardsActualized id peer ids ∈ responses S.executionConfirmationsThreshold [] is :=
      mem_reporters
    rw [List.nil_append] at hmem
    rw [mem_confirmers, said, hmem]
    exact ⟨.inr, fun h => h.resolve_left (Finset.notMem_empty _)⟩
  have hcount : s.log.count (r, .instruction (.finishedExecution id)) =
      (s.log.filterMap (saidBy r)).count (.finishedExecution id) := by
    rw [List.count_filterMap, List.count_eq_countP]
    refine List.countP_congr fun e _ => ?_
    obtain ⟨p, o⟩ := e
    cases o with
    | instruction o => by_cases hp : p = r <;> simp [saidBy, hp]
    | _ => simp [saidBy]
  have hfinished : (responses S.executionConfirmationsThreshold [] is).filter
      (· == .finishedExecution id) =
        Threshold.signal (.finishedExecution id) S.executionConfirmationsThreshold 0
          (reporters id is).card := InstructionStorage.finished_responses
  have hpos : 0 < S.executionConfirmationsThreshold := ht
  rw [hcount, said, hconfirmers, List.count_eq_length_filter, hfinished, Threshold.signal]
  simp only [Threshold.Reaches, hpos, true_and]
  split <;> rfl

/-- If no report overtakes its program, a peer whose reports have all arrived is a confirmer. -/
theorem confirmers_of_inOrder (hb : S.Bijective) (run : S.Run as s)
    (inOrder : Along S.step InOrder S.init as) (rest : s.pool = []) (hr : r ∈ S.peers) {a : PeerId}
    (ha : 0 < weigh (executes id a) s.log) : a ∈ confirmers id r s := by
  have hreports : weigh (reporting id a r) s.pool + weigh (heeds id a r) s.log =
      weigh (executes id a) s.log := reports_run hb run inOrder hr
  rw [rest, Actors.weigh_nil, Nat.zero_add] at hreports
  rw [← hreports] at ha
  obtain ⟨⟨p, o⟩, hlog, hheeds⟩ := Actors.exists_of_weigh_pos ha
  rw [mem_confirmers]
  cases o with
  | instruction o =>
    cases o with
    | peerShardsActualized id' peer ids =>
      simp only [heeds] at hheeds
      split at hheeds
      · rename_i hsame
        obtain ⟨rfl, rfl, rfl⟩ := hsame
        exact ⟨ids, List.mem_filterMap.2 ⟨_, hlog, if_pos rfl⟩⟩
      · cases hheeds
    | _ => cases hheeds
  | _ => cases hheeds

/-- **Programs complete**: in a network whose distribution is a bijection, a state without further
steps has executed every program at every peer as often as it was scheduled. Its completion has
been told once to the users at whose node enough reports were heeded, and to no others; if no
report overtook its program, these are the users of all peers. No send of the network is refused
and no node stops. -/
theorem programs_complete {C : MdsCode UInt8 dataShardsCount S.encoding.inner.totalShardCount}
    (hw : S.encoding.inner.Implements C) (hB : 0 < B) (hb : S.Bijective)
    (ht : 1 ≤ S.executionConfirmationsThreshold) (run : S.Run as s) (stuck : S.Stuck s)
    (id : ProgramIdentifier) :
    (∀ q ∈ S.peers, weigh (executes id q) s.log = weigh (S.schedulesAs id) as) ∧
    (∀ r, s.log.count (r, .user (.programExecuted id)) =
      if S.executionConfirmationsThreshold ≤ (confirmers id r s).card then 1 else 0) ∧
    (Along S.step InOrder S.init as → 0 < weigh (S.schedulesAs id) as →
      S.executionConfirmationsThreshold ≤ S.peers.length →
      ∀ r ∈ S.peers, s.log.count (r, .user (.programExecuted id)) = 1) := by
  obtain ⟨rest, settled⟩ := (stuck_iff (attended_run hw hB hb run)).1 stuck
  have hexecuted : ∀ q ∈ S.peers, weigh (executes id q) s.log = weigh (S.schedulesAs id) as := by
    intro q hq
    have hrun : weigh (S.owed id q) s.pool + underway id (s.nodes q).tile.processor +
        weigh (executes id q) s.log = weigh (S.schedulesAs id) as := executes_run hb run hq
    rw [rest, (settled q hq).1, Actors.weigh_nil, Nat.zero_add] at hrun
    exact (Nat.zero_add _).symm.trans hrun
  have htold : ∀ r, s.log.count (r, .user (.programExecuted id)) =
      if S.executionConfirmationsThreshold ≤ (confirmers id r s).card then 1 else 0 := by
    intro r
    have hdelivered := told_exactly run (e := .programExecuted id) rfl r
    rw [rest, Actors.weigh_nil, Nat.zero_add] at hdelivered
    rw [← hdelivered, announced_run ht run r]
  refine ⟨hexecuted, htold, fun inOrder hscheduled hpeers r hr => ?_⟩
  rw [htold, if_pos]
  refine hpeers.trans ?_
  rw [← List.toFinset_card_of_nodup hb.nodup]
  refine Finset.card_le_card fun a ha => ?_
  have hpeer := List.mem_toFinset.1 ha
  exact confirmers_of_inOrder hb run inOrder rest hr (by rwa [hexecuted a hpeer])

end Completions

/-! ## A sample run -/

open InitializedDataMemory (samplePeer)

def sampleInversion : Processor.Instructions := [⟨.inv ⟨⟨0⟩⟩, ⟨1⟩⟩]

def sampleExecution (i : UInt8) : List (Action 4) :=
  [.act (samplePeer i) default (.read default), .act (samplePeer i) default (.read default),
    .act (samplePeer i) default .finish]

/-- Peer 0 schedules a program, and everything is done, oldest first. -/
def inversionSteps : List (Action 4) :=
  sampleUser 0 (.scheduleProgram sampleInversion) :: List.replicate 12 (sampleDeliver 0) ++
    sampleExecution 0 ++ List.replicate 8 (sampleDeliver 0) ++ sampleExecution 1 ++
    sampleDeliver 0 :: sampleExecution 2 ++ List.replicate 33 (sampleDeliver 0)

def sampleIdentifier : ProgramIdentifier :=
  (Program.new sample.calculateHash sampleInversion (default : Choice).eventHash).identifier

theorem programs_complete_inversion : ∃ s, runAll sample.step sample.init inversionSteps = some s ∧
    sample.Stuck s ∧ (∀ q ∈ sample.peers, weigh (executes sampleIdentifier q) s.log = 1) ∧
    ∀ r ∈ sample.peers, s.log.count (r, .user (.programExecuted sampleIdentifier)) = 1 := by
  obtain ⟨s, run, rest, settled⟩ : ∃ s, runAll sample.step sample.init inversionSteps = some s ∧
      s.pool = [] ∧ ∀ p ∈ sample.peers,
        (s.nodes p).tile.processor = .ready ∧ (s.nodes p).tile.writes = [] :=
    ⟨_, rfl, rfl, List.forall_mem_cons.2 ⟨⟨rfl, rfl⟩, List.forall_mem_cons.2 ⟨⟨rfl, rfl⟩,
      List.forall_mem_cons.2 ⟨⟨rfl, rfl⟩, nofun⟩⟩⟩⟩
  have stuck := (stuck_iff (attended_run OneParity.coder_implements (by decide) sample_bijective
    (Trace.of_runAll run))).2 ⟨rest, settled⟩
  obtain ⟨hexecuted, -, htold⟩ := programs_complete OneParity.coder_implements (by decide)
    sample_bijective (by decide) (Trace.of_runAll run) stuck sampleIdentifier
  exact ⟨s, run, stuck, hexecuted, htold (by decide +kernel) (by decide) (by decide)⟩

end Setup

end Swarm.Network
