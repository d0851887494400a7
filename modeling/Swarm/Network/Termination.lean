import Swarm.Lib.Credit
import Swarm.Network.Distribution
import Swarm.Processor.Exchanges

/-!
# The network comes to rest

Every message is priced with all steps that it can still cause, on any node, in
any order; peers that wait for a response and programs in execution keep the
credits of what is still to be done for them. So the requests of the users bound
the steps of a whole run: `steps_le`, and nothing goes on forever: `comes_to_rest`.
-/

namespace Swarm.Network

open Swarm.DataMemory Swarm.Processor Swarm.Consensus Swarm.Node
open Swarm.Behaviour (Request Response ProcessedRequests Send)
open Actors (weigh Credited)

variable {B : Nat}

namespace Setup

variable (S : Setup)

/-! ## Prices -/

/-- The steps after a response to a request. -/
def responsePrice : Request → Nat
  | .serveShard _ => 4 * S.peers.length + 3
  | .getShard _ => 3

/-- The steps from the recognition of a transaction at one peer. -/
def recognizedPrice : Transaction → Nat
  | .storageRequest _ => 4 * S.peers.length + 9
  | .stored _ _ => 4
  | .execute instructions => 10 * instructions.length + (5 * S.peers.length + 6)
  | .executed _ => 5
  | .initializeStorage _ => 2

def memoryInPrice : DataMemory.InEvent B → Nat
  | .initializeStorage _ => 1
  | .prepareServiceRequest _ _ => S.peers.length * (4 * S.peers.length + 9) + 2
  | .storageRequestTx _ _ => 4 * S.peers.length + 8
  | .serveShardResponse _ _ => 4 * S.peers.length + 2
  | .serveShardRequest _ => 2
  | .storeConfirmed _ _ => 3
  | .assignedRequest _ => 2
  | .assignedResponse _ _ => 2
  | .listDistributed => 2
  | .recollectRequest _ => 7 * S.distribution.len + 2
  | .peerShardsActualized _ _ => 1

def memoryOutPrice : DataMemory.OutEvent B → Nat
  | .preparedServiceResponse _ => S.peers.length * (4 * S.peers.length + 9) + 1
  | .serveShardRequest _ _ => 4 * S.peers.length + 7
  | .assignedStoreSuccess _ => S.peers.length * 4 + 1
  | .assignedRequest _ _ => 7
  | _ => 1

def instructionInPrice : InstructionStorage.InEvent → Nat
  | .finalizedProgram program => 10 * program.instructions.length + (5 * S.peers.length + 5)
  | .executedProgram _ _ => 4

def instructionOutPrice : InstructionStorage.OutEvent → Nat
  | .nextProgram program => 10 * program.instructions.length + (5 * S.peers.length + 4)
  | .finishedExecution _ => 1
  | .peerShardsActualized _ _ _ => 2

/-- The steps that a message causes, its own delivery included. -/
def price : Message B → Nat
  | .memoryIn e => S.memoryInPrice e
  | .memoryOut e => S.memoryOutPrice e
  | .instructionIn e => S.instructionInPrice e
  | .instructionOut e => S.instructionOutPrice e
  | .processorIn program => 10 * program.instructions.length + (5 * S.peers.length + 3)
  | .processorOut _ _ => S.peers.length * 5 + 1
  | .recognized _ tx _ => S.recognizedPrice tx
  | .knownPeers _ => S.peers.length * 2 + 1
  | .request _ request => S.responsePrice request + 3
  | .response request _ => S.responsePrice request

/-- The steps that a request of the user causes, itself included. -/
def cost : Behaviour.InEvent B → Nat
  | .scheduleProgram instructions =>
    S.peers.length * (10 * instructions.length + (5 * S.peers.length + 6)) + 1
  | .get _ => 7 * S.distribution.len + 3
  | .put _ _ => S.peers.length * (4 * S.peers.length + 9) + 3
  | .listStored => 3
  | .initializeStorage => S.peers.length * 2 + 2

def actCost : Act B → Nat
  | .user e => S.cost e
  | _ => 0

/-! ## Credits of a node -/

/-- The credits for the rest of an execution, its report included. -/
def ProcessorPays : ProcessorState B → Nat → Prop
  | .ready, n => n = 0
  | .executing _ rest, n => ∃ m, n = m + (S.peers.length * 5 + 2) ∧ rest.Costs 1 2 (fun _ => True) m

/-- The credits for the responses that peers wait for, the execution and the queued writes. -/
def NodePays (_p : PeerId) (node : Node B) (n : Nat) : Prop :=
  ∃ responses execution, n = responses + execution + node.tile.writes.length ∧
    SumLE (fun request => (waiting node request).length * S.responsePrice request) responses ∧
    S.ProcessorPays node.tile.processor execution

variable {S} {p : PeerId} {c : Choice} {node : Node B} {m m' : InitializedDataMemory B}
  {order : HashOrder} {e : DataMemory.InEvent B} {out : List (DataMemory.OutEvent B)}
  {r : NodeReaction B} {n : Nat}

/-- What the behaviour sends costs. -/
def sendPrice (S : Setup) : Send B → Nat
  | .dataMemory e => S.memoryInPrice e
  | .instructionMemory e => S.instructionInPrice e
  | .processor program => S.price (B := B) (.processorIn program)
  | .scheduleTx tx => S.peers.length * S.recognizedPrice tx
  | .knownPeersRequest => S.peers.length * 2 + 1
  | .makeRequest request _ => S.responsePrice request + 3
  | .respond _ request _ => S.responsePrice request
  | .user _ => 0

/-- The price of a message, wherever it goes. -/
def fare (S : Setup) (x : PeerId × Message B) : Nat := S.price x.2

theorem weigh_dispatch (a : Send B) : weigh S.fare (S.dispatch p c a) = S.sendPrice a := by
  cases a with
  | scheduleTx tx => exact Actors.weigh_map_const fun q _ => rfl
  | user e => rfl
  | _ => exact Nat.add_zero _

theorem weigh_sent (x : ProcessedRequests × List (Send B)) :
    weigh S.fare (S.behave p c node x).sent = weigh S.sendPrice x.2 := by
  rw [weigh_behave]
  exact congrArg (weigh · x.2) (funext weigh_dispatch)

/-! ## The data memory -/

theorem handleAssignedResponse_price {f : FullShardId} {shard : Option (Shard B)}
    (h : m.handleAssignedResponse f shard = .next m' out) : weigh S.memoryOutPrice out ≤ 1 := by
  unfold InitializedDataMemory.handleAssignedResponse at h
  split at h
  · cases h; exact Nat.zero_le _
  · split at h
    · cases h; exact Nat.zero_le _
    · split at h
      · cases h; exact Nat.zero_le _
      · dsimp only at h
        split at h
        · split at h <;> cases h
          · exact Nat.le_refl 1
          · exact Nat.zero_le _
        · cases h; exact Nat.zero_le _

theorem gather_price {v : Vid} {locations : List (Sid × PeerId)}
    (h : InitializedDataMemory.gather m v locations = .next m' out) :
    weigh S.memoryOutPrice out ≤ 7 * locations.length := by
  induction locations generalizing m out with
  | nil => cases h; exact Nat.zero_le _
  | cons x rest ih =>
    obtain ⟨t, o, o', ht, hrest, rfl⟩ := Turn.andThen_eq_next.1 h
    have hfirst : weigh S.memoryOutPrice o ≤ 7 := by
      split at ht
      · exact (handleAssignedResponse_price ht).trans (by decide)
      · cases ht
        exact Nat.le_refl 7
    have := ih hrest
    rw [Actors.weigh_append, List.length_cons]
    omega

/-- No more locations are known than peers have shards assigned. -/
theorem MemoryAddressed.card_knownSids (ha : S.MemoryAddressed p m) (v : Vid) :
    (m.knownSids v).card ≤ S.distribution.len := by
  have hsub : (m.knownSids v).image some ⊆ S.distribution.keys.image S.distribution.lookup := by
    intro o ho
    obtain ⟨s, hs, rfl⟩ := Finset.mem_image.1 ho
    obtain ⟨q, hq⟩ := Option.isSome_iff_exists.1 (InitializedDataMemory.mem_knownSids.1 hs)
    have hassigned : S.distribution.lookup q = some s := ha.located _ _ hq
    exact Finset.mem_image.2 ⟨q, Finmap.mem_keys_iff.2 ⟨s, hassigned⟩, hassigned⟩
  calc (m.knownSids v).card
      = ((m.knownSids v).image some).card :=
        (Finset.card_image_of_injective _ (Option.some_injective _)).symm
    _ ≤ (S.distribution.keys.image S.distribution.lookup).card := Finset.card_le_card hsub
    _ ≤ S.distribution.len := Finset.card_image_le

/-- **An event of the memory** pays for what the memory emits. -/
theorem handle_price (ha : S.MemoryAddressed p m) (hh : m.handle order e = .next m' out) :
    weigh S.memoryOutPrice out + 1 ≤ S.memoryInPrice e := by
  cases e with
  | initializeStorage distribution => cases hh; exact Nat.le_refl 1
  | prepareServiceRequest v d =>
    simp only [InitializedDataMemory.handle, InitializedDataMemory.handlePrepareServiceRequest] at hh
    split at hh <;> cases hh
    exact Nat.le_refl _
  | storageRequestTx v author =>
    simp only [InitializedDataMemory.handle, InitializedDataMemory.handleStorageRequestTx] at hh
    split at hh
    · cases hh
      simp [memoryInPrice]
    · split at hh
      · unfold InitializedDataMemory.handleServeShardResponse at hh
        split at hh <;> cases hh <;> simp [memoryInPrice, memoryOutPrice]
        omega
      · cases hh
        simp [memoryInPrice, memoryOutPrice]
  | serveShardResponse f shard =>
    simp only [InitializedDataMemory.handle, InitializedDataMemory.handleServeShardResponse] at hh
    split at hh <;> cases hh <;> simp [memoryInPrice, memoryOutPrice]
    omega
  | serveShardRequest f | assignedRequest f | listDistributed => cases hh; exact Nat.le_refl 2
  | storeConfirmed f location =>
    simp only [InitializedDataMemory.handle, InitializedDataMemory.handleStoreConfirmed] at hh
    split at hh
    · cases hh
      simp [memoryInPrice]
    · split at hh <;> cases hh
      all_goals split <;> simp [memoryInPrice, memoryOutPrice]
  | assignedResponse f shard =>
    have := handleAssignedResponse_price (S := S) hh
    simp only [memoryInPrice]
    omega
  | recollectRequest v =>
    simp only [InitializedDataMemory.handle, InitializedDataMemory.handleRecollectRequest] at hh
    split at hh
    · cases hh
      simp [memoryInPrice, memoryOutPrice]
    · rename_i known hknown
      split at hh
      · cases hh
        simp [memoryInPrice, memoryOutPrice]
      · split at hh
        · cases hh
          simp [memoryInPrice]
        · have hgather := gather_price (S := S) hh
          have hcard := ha.card_knownSids v
          rw [InitializedDataMemory.knownSids, Finmap.orDefault_some hknown] at hcard
          rw [Finmap.length_iter] at hgather
          have hlen : known.len ≤ S.distribution.len := hcard
          simp only [memoryInPrice]
          omega
  | peerShardsActualized peer ids =>
    simp only [InitializedDataMemory.handle, InitializedDataMemory.handlePeerShardsActualized] at hh
    split at hh <;> cases hh
    exact Nat.le_refl 1

/-! ## Reactions -/

/-- The reaction pays for itself with `credit` and what the node has. -/
def Pays (S : Setup) (p : PeerId) (n credit : Nat) (r : NodeReaction B) : Prop :=
  ∃ n', S.NodePays p r.node n' ∧ weigh S.fare r.sent + n' + 1 ≤ credit + n

variable {credit : Nat}

theorem NodePays.sends (h : S.NodePays p node n) {sends : List (Send B)}
    (hle : weigh S.sendPrice sends + 1 ≤ credit) :
    S.Pays p n credit (S.behave p c node (node.processedRequests, sends)) := by
  refine ⟨n, h, ?_⟩
  rw [weigh_sent]
  simp only
  omega

/-- The peers that waited have paid for their responses. -/
theorem NodePays.answer (h : S.NodePays p node n) (request : Request) (response : Response B) :
    S.Pays p n 1
      (S.behave p c node (Behaviour.answer node.processedRequests request response)) := by
  obtain ⟨responses, execution, rfl, hresponses, hexecution⟩ := h
  obtain ⟨others, rfl, hothers⟩ := hresponses.update request
  refine ⟨_, ⟨0 + others, execution, rfl, ?_, hexecution⟩, ?_⟩
  · convert hothers 0 using 1
    funext request'
    rw [waiting_answer, Function.update_apply]
    split
    · rw [List.length_nil, Nat.zero_mul]
    · rfl
  · have hsent : weigh S.sendPrice
        (Behaviour.answer node.processedRequests request response).2 =
        (waiting node request).length * S.responsePrice request :=
      Actors.weigh_map_const fun q _ => rfl
    rw [weigh_sent, hsent, behave_tile]
    omega

theorem NodePays.request (h : S.NodePays p node n) (origin : PeerId) (request : Request) :
    S.Pays p n (S.price (.request (B := B) origin request))
      (S.behave p c node
        (Behaviour.handleIncomingRequest node.processedRequests origin request)) := by
  obtain ⟨responses, execution, rfl, hresponses, hexecution⟩ := h
  obtain ⟨others, rfl, hothers⟩ := hresponses.update request
  refine ⟨_, ⟨((waiting node request).length + 1) * S.responsePrice request + others, execution,
    rfl, ?_, hexecution⟩, ?_⟩
  · convert hothers (((waiting node request).length + 1) * S.responsePrice request) using 1
    funext request'
    rw [waiting_request, Function.update_apply]
    split
    · rename_i hrequest
      rw [List.length_append, List.length_singleton, hrequest]
    · rfl
  · have hsent : weigh S.sendPrice
        (Behaviour.handleIncomingRequest (B := B) node.processedRequests origin request).2 = 2 := by
      cases request <;> rfl
    rw [weigh_sent, hsent, behave_tile, price, Nat.add_mul, Nat.one_mul]
    omega

theorem weigh_emit (out : List (TileOut B)) :
    weigh S.fare (out.map (emit p)) = weigh (fun o => S.price (emit p o).2) out := by
  simp only [weigh, List.map_map]
  rfl

/-- A tile pays for its moves, except for a program that it starts. -/
theorem NodePays.moves {t : Tile B} {a : TileStep B} {out : List (TileOut B)}
    (ha : S.NodeAddressed p node) (h : S.NodePays p node n) (hmove : node.tile.Moves S.add a t out)
    (hcredit : ∀ order e, a = .handle order e → credit = S.memoryInPrice e)
    (hstart : ∀ o o' program, a = .start o o' program →
      credit = S.price (B := B) (.processorIn program)) :
    S.Pays p n credit ⟨{ node with tile := t }, out.map (emit p), out.map emitted⟩ := by
  obtain ⟨responses, execution, rfl, hresponses, hexecution⟩ := h
  unfold Pays
  rw [weigh_emit]
  cases hmove with
  | @handled order e memory out running turn =>
    refine ⟨_, ⟨responses, execution, rfl, hresponses, hexecution⟩, ?_⟩
    have hprice := handle_price ha.memory turn
    have hout : weigh (fun o => S.price (emit p o).2) (out.map .memory) =
        weigh S.memoryOutPrice out := by
      simp only [weigh, List.map_map]
      rfl
    rw [hcredit _ _ rfl, hout]
    simp only
    omega
  | @ended order e running turn =>
    refine ⟨_, ⟨responses, execution, rfl, hresponses, hexecution⟩, ?_⟩
    rw [hcredit _ _ rfl, Actors.weigh_nil]
    have hpos : 1 ≤ S.memoryInPrice e := by cases e <;> simp [memoryInPrice]
    simp only
    omega
  | started ready code =>
    rw [ready] at hexecution
    obtain rfl : execution = 0 := hexecution
    refine ⟨_, ⟨responses, _, rfl, hresponses, ⟨_, rfl, code ▸ ShardProcessor.execute_costs ..⟩⟩, ?_⟩
    rw [hstart _ _ _ rfl, Actors.weigh_nil, price]
    simp only
    omega
  | answered running reading | readRefused ended reading =>
    rw [reading] at hexecution
    obtain ⟨_, rfl, m, rfl, hm⟩ := hexecution
    refine ⟨_, ⟨responses, _, rfl, hresponses, ⟨_, rfl, hm _⟩⟩, ?_⟩
    rw [Actors.weigh_nil]
    simp only
    omega
  | pushed running writing =>
    rw [writing] at hexecution
    obtain ⟨_, rfl, m, rfl, hm⟩ := hexecution
    refine ⟨_, ⟨responses, _, rfl, hresponses, ⟨_, rfl, hm _⟩⟩, ?_⟩
    rw [Actors.weigh_nil, List.length_append, List.length_singleton]
    omega
  | pushRefused ended writing =>
    rw [writing] at hexecution
    obtain ⟨_, rfl, m, rfl, hm⟩ := hexecution
    refine ⟨_, ⟨responses, _, rfl, hresponses, ⟨_, rfl, hm _⟩⟩, ?_⟩
    rw [Actors.weigh_nil]
    simp only
    omega
  | applied running head =>
    refine ⟨_, ⟨responses, execution, rfl, hresponses, hexecution⟩, ?_⟩
    rw [Actors.weigh_nil, head, List.length_cons]
    simp only
    omega
  | finished done =>
    rw [done] at hexecution
    obtain ⟨m, rfl, -⟩ := hexecution
    refine ⟨_, ⟨responses, 0, rfl, hresponses, rfl⟩, ?_⟩
    simp only [Actors.weigh_cons, Actors.weigh_nil, emit, price]
    omega

theorem instruction_price (order : KeyOrder Vid) (m : InstructionStorage.InstructionMemory)
    (e : InstructionStorage.InEvent) :
    weigh S.instructionOutPrice (m.handle order e).2 + 1 ≤ S.instructionInPrice e := by
  cases e with
  | finalizedProgram program => exact Nat.le_refl _
  | executedProgram peer id =>
    simp only [InstructionStorage.InstructionMemory.handle]
    split <;> split <;> simp [instructionInPrice, instructionOutPrice]

/-- **A reaction to a message** pays for itself. -/
theorem NodePays.receive {m : Message B} (ha : S.NodeAddressed p node) (h : S.NodePays p node n)
    (hr : S.receive p c node m = some r) : S.Pays p n (S.price m) r := by
  cases m with
  | memoryIn e =>
    obtain ⟨t, out, hmove, rfl⟩ := tileStep_moves hr
    exact h.moves ha hmove (fun _ _ he => by cases he; rfl) (fun _ _ _ he => by cases he)
  | processorIn program =>
    obtain ⟨t, out, hmove, rfl⟩ := tileStep_moves hr
    exact h.moves ha hmove (fun _ _ he => by cases he) (fun _ _ _ he => by cases he; rfl)
  | memoryOut e =>
    cases hr
    cases e with
    | serveShardResponse f x => exact h.answer _ _
    | assignedResponse f x => exact h.answer _ _
    | _ => exact h.sends (Nat.le_refl _)
  | instructionIn e =>
    cases hr
    refine ⟨n, h, ?_⟩
    have hprice := instruction_price (S := S) c.vids node.instructionMemory e
    have hsent : weigh S.fare (instructionStep p c node e).sent =
        weigh S.instructionOutPrice (node.instructionMemory.handle c.vids e).2 := by
      simp only [instructionStep, weigh, List.map_map]
      rfl
    rw [hsent, price]
    omega
  | instructionOut e =>
    simp only [Setup.receive] at hr
    split at hr
    · cases hr
      cases e <;> exact h.sends (Nat.le_refl _)
    · cases hr
  | processorOut id results => cases hr; exact h.sends (Nat.le_refl _)
  | recognized author tx eventHash =>
    cases hr
    cases tx <;> exact h.sends (Nat.le_refl _)
  | knownPeers peers => cases hr; exact h.sends (Nat.le_refl _)
  | request origin request => cases hr; exact h.request origin request
  | response request response =>
    cases hr
    refine h.sends ?_
    cases request <;> cases response <;>
      simp [Behaviour.handleResponse, sendPrice, memoryInPrice, price, responsePrice]

theorem NodePays.act {a : Act B} (ha : S.NodeAddressed p node) (h : S.NodePays p node n)
    (hr : S.act p c node a = some r) : S.Pays p n (S.actCost a) r := by
  unfold Setup.act at hr
  split at hr
  · cases a with
    | user e =>
      cases hr
      refine h.sends ?_
      cases e <;> exact Nat.le_refl _
    | _ =>
      obtain ⟨t, out, hmove, rfl⟩ := tileStep_moves hr
      exact h.moves ha hmove (fun _ _ he => by cases he) (fun _ _ _ he => by cases he)
  · cases hr

/-! ## Runs -/

/-- The action is a request of a user. -/
def Requests : Action B → Prop
  | .act _ _ (.user _) => True
  | _ => False

/-- The steps that the requests of a run can cause, themselves included. -/
def allowance (S : Setup) (as : List (Action B)) : Nat :=
  weigh (Actors.Action.brings S.actCost) as

theorem allowance_of_not_requests {as : List (Action B)} (h : ∀ a ∈ as, ¬ Requests a) :
    S.allowance as = 0 :=
  Actors.weigh_eq_zero fun a ha => by
    cases a with
    | deliver i c => rfl
    | act p c b =>
      cases b with
      | user e => exact absurd trivial (h _ ha)
      | _ => rfl

theorem credited_init : Credited S.fare S.NodePays 0 0 (S.init : State B) := by
  refine ⟨fun _ => 0, 0, fun p => ⟨0, 0, rfl, ?_, rfl⟩, SumLE.zero, Nat.le_refl _⟩
  have hnone : (fun request => (waiting (S.initialNode (B := B) p) request).length *
      S.responsePrice request) = fun _ => 0 :=
    funext fun request => Nat.zero_mul _
  show SumLE (fun request => (waiting (S.initialNode (B := B) p) request).length *
    S.responsePrice request) 0
  rw [hnone]
  exact SumLE.zero

/-- The requests of a run bound its steps. -/
theorem steps_le {as : List (Action B)} {s : State B} (run : S.Run as s) :
    as.length ≤ S.allowance as :=
  (Credited.run (I := S.Addressed) credited_init (fun h => addressed_run h)
    (fun _ p _ _ _ _ hI _ hr hn => hn.receive (hI.nodes p) hr)
    (fun _ p _ _ _ _ hI hr hn => hn.act (hI.nodes p) hr) run).used_le

/-- **Termination**: after any run, however the steps that no user requests are chosen, there are
at most as many as the requests so far allow, and they can be chosen until none is possible. -/
theorem comes_to_rest {as : List (Action B)} {s : State B} (run : S.Run as s) :
    (∀ bs t, Trace S.step s bs t → (∀ b ∈ bs, ¬ Requests b) →
      as.length + bs.length ≤ S.allowance as) ∧
    ∃ bs t, Trace S.step s bs t ∧ (∀ b ∈ bs, ¬ Requests b) ∧
      ∀ b, ¬ Requests b → S.step t b = none := by
  have hbound : ∀ {bs t}, Trace S.step s bs t → (∀ b ∈ bs, ¬ Requests b) →
      as.length + bs.length ≤ S.allowance as := by
    intro bs t run' hbs
    have hle := steps_le (run.append run')
    have hnone := allowance_of_not_requests (S := S) hbs
    rw [allowance, Actors.weigh_append, List.length_append] at hle
    rw [allowance] at hnone ⊢
    omega
  exact ⟨fun _ _ => hbound, Trace.exists_stuck fun run' hbs =>
    (Nat.le_add_left _ _).trans (hbound run' hbs)⟩

/-- A put and a program, both still in their queues. -/
def busySteps : List (Action 4) :=
  [sampleUser 0 (.put ⟨0⟩ ⟨fun _ => 1⟩), sampleUser 1 (.scheduleProgram [⟨.inv ⟨⟨0⟩⟩, ⟨1⟩⟩])]

theorem comes_to_rest_busy : ∃ s, runAll sample.step sample.init busySteps = some s ∧
    (∀ bs t, Trace sample.step s bs t → (∀ b ∈ bs, ¬ Requests b) → bs.length ≤ 158) ∧
      ∃ bs t, Trace sample.step s bs t ∧ (∀ b ∈ bs, ¬ Requests b) ∧
        ∀ b, ¬ Requests b → sample.step t b = none := by
  obtain ⟨s, run⟩ : ∃ s, runAll sample.step sample.init busySteps = some s := ⟨_, rfl⟩
  have h := comes_to_rest (Trace.of_runAll run)
  refine ⟨s, run, fun bs t run' hbs => ?_, h.2⟩
  have hle := h.1 bs t run' hbs
  have hallowance : sample.allowance busySteps = 160 := by decide
  rw [hallowance] at hle
  exact Nat.le_of_add_le_add_left (a := 2) hle

end Setup

end Swarm.Network
