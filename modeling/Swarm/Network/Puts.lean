import Swarm.Network.Addressing

/-!
# The data that were put

In a network without programs every shard that is stored, served, collected or
on its way is a shard of the data put at its address.
-/

namespace Swarm.Network

open Swarm.DataMemory Swarm.Processor Swarm.Consensus Swarm.Encoding Swarm.Node
open Swarm.Behaviour (Request Response ProcessedRequests Send)

variable {B : Nat}

namespace Setup

/-! ## Networks without programs -/

/-- No program runs at the node. -/
structure NodeIdle (_p : PeerId) (node : Node B) : Prop where
  running : node.tile.running = true
  ready : node.tile.processor = .ready
  writes : node.tile.writes = []

/-- The message is none of a program. -/
def MessageIdle : Message B → Prop
  | .memoryIn (.peerShardsActualized _ _) => False
  | .recognized _ (.execute _) _ | .recognized _ (.executed _) _ => False
  | .response (.getShard _) (.serveShard _) | .response (.serveShard _) (.getShard _) => False
  | .instructionIn _ | .instructionOut _ | .processorIn _ | .processorOut _ _ => False
  | _ => True

section Idle

variable {S : Setup} {C : MdsCode UInt8 dataShardsCount S.encoding.inner.totalShardCount}
  {p : PeerId} {c : Choice} {node : Node B} {m : Message B} {r : NodeReaction B}

/-- Events of the data memory go on being handled. -/
theorem MessageIdle.continues (hw : S.encoding.inner.Implements C) (hB : 0 < B)
    {memory : InitializedDataMemory B} {order : HashOrder} {e : DataMemory.InEvent B}
    (ha : S.MemoryAddressed p memory) (hm : MessageIdle (.memoryIn e)) :
    (memory.handle order e).Continues := by
  refine (InitializedDataMemory.turn_continues_iff (ha.encoding ▸ ⟨C, hw⟩) hB
    (.event order e)).2 ?_
  cases e with
  | peerShardsActualized peer ids => exact hm.elim
  | _ => trivial

/-- A reaction is an event of the memory, or does not touch it. -/
theorem MessageIdle.receive (hw : S.encoding.inner.Implements C) (hB : 0 < B)
    (hn : S.NodeAddressed p node) (hm : MessageIdle m) (hr : S.receive p c node m = some r) :
    (∃ e out, m = .memoryIn e ∧ node.tile.memory.handle c.order e = .next r.node.tile.memory out ∧
      r.sent = out.map (fun o => (p, .memoryOut o)) ∧ r.outputs = out.map .memory) ∨
    ((∀ e, m ≠ .memoryIn e) ∧ r.node.tile.memory = node.tile.memory ∧
      ∀ o, .memory o ∉ r.outputs) := by
  cases receive_reacts hr with
  | @handled e t out moves =>
    cases moves with
    | @handled _ _ memory out' running turn =>
      exact .inl ⟨e, out', rfl, turn, List.map_map .., List.map_map ..⟩
    | ended running turn => exact absurd (MessageIdle.continues hw hB hn.memory hm) turn
  | started | instructed => exact hm.elim
  | passed notMemory sent waits =>
    refine .inr ⟨notMemory, rfl, fun o ho => ?_⟩
    obtain ⟨e, he⟩ := mem_behave_outputs ho
    cases he

/-- Without programs a node acts only for its user. -/
theorem NodeIdle.act_user {a : Act B} (h : NodeIdle p node) (hr : S.act p c node a = some r) :
    p ∈ S.peers ∧ ∃ e, a = .user e ∧
      r = S.behave p c node (node.processedRequests, Behaviour.handleUser e) := by
  unfold Setup.act at hr
  split at hr
  · rename_i hp
    cases a with
    | user e => cases hr; exact ⟨hp, e, rfl, rfl⟩
    | applyWrite =>
      obtain ⟨t, out, hmove, rfl⟩ := tileStep_moves hr
      cases hmove with
      | applied running head => rw [h.writes] at head; cases head
    | read order =>
      obtain ⟨t, out, hmove, rfl⟩ := tileStep_moves hr
      cases hmove with
      | answered running reading => rw [h.ready] at reading; cases reading
      | readRefused ended reading => rw [h.ready] at reading; cases reading
    | push =>
      obtain ⟨t, out, hmove, rfl⟩ := tileStep_moves hr
      cases hmove with
      | pushed running writing => rw [h.ready] at writing; cases writing
      | pushRefused ended writing => rw [h.ready] at writing; cases writing
    | finish =>
      obtain ⟨t, out, hmove, rfl⟩ := tileStep_moves hr
      cases hmove with
      | finished done => rw [h.ready] at done; cases done
  · cases hr

end Idle

/-! ## Shards of what was put -/

variable (S : Setup) (C : MdsCode UInt8 dataShardsCount S.encoding.inner.totalShardCount)
  (D : Vid → Option (PeerId × Data B))

/-- `D` gives the author and the data of the put of each address. -/
def ShardOf (f : FullShardId) (x : Shard B) : Prop :=
  ∃ a d, D f.1 = some (a, d) ∧ (codeword C d).lookup f.2 = some x

structure MemoryHonest (m : InitializedDataMemory B) : Prop where
  stored : ∀ f x, m.getShard f = some x → S.ShardOf C D f x
  served : ∀ f x, m.serveShard f = some x → S.ShardOf C D f x
  assembled : m.Assembled (S.ShardOf C D)

/-- No program runs at the node. -/
structure NodeHonest (_p : PeerId) (node : Node B) : Prop where
  memory : S.MemoryHonest C D node.tile.memory
  running : node.tile.running = true
  ready : node.tile.processor = .ready
  writes : node.tile.writes = []

/-- Address `v` was put at peer `p`. -/
def PutAt (D : Vid → Option (PeerId × Data B)) (p : PeerId) (v : Vid) : Prop :=
  ∃ d, D v = some (p, d)

def MessageHonest (p : PeerId) : Message B → Prop
  | .memoryIn (.prepareServiceRequest v d) => D v = some (p, d)
  | .memoryIn (.storageRequestTx v author) => PutAt D author v
  | .memoryIn (.serveShardRequest f) => PutAt D p f.1 ∧ ∃ q, S.Assigned q f.2
  | .memoryIn (.serveShardResponse f x) => ∃ y, x = some y ∧ S.ShardOf C D f y
  | .memoryIn (.assignedResponse f x) => ∀ y, x = some y → S.ShardOf C D f y
  | .memoryIn (.storeConfirmed f _) => (D f.1).isSome
  | .memoryIn (.peerShardsActualized _ _) => False
  | .memoryOut (.preparedServiceResponse v) => PutAt D p v
  | .memoryOut (.serveShardRequest f author) => PutAt D author f.1
  | .memoryOut (.serveShardResponse f x) =>
    (PutAt D p f.1 ∧ ∃ q, S.Assigned q f.2) ∧ ∃ y, x = some y ∧ S.ShardOf C D f y
  | .memoryOut (.assignedStoreSuccess f) => (D f.1).isSome
  | .memoryOut (.assignedResponse f x) => ∀ y, x = some y → S.ShardOf C D f y
  | .recognized author (.storageRequest v) _ => PutAt D author v
  | .recognized _ (.stored v _) _ => (D v).isSome
  | .recognized _ (.execute _) _ | .recognized _ (.executed _) _ => False
  | .request _ (.serveShard f) => PutAt D p f.1
  | .response (.serveShard f) (.serveShard x) => ∃ y, x = some y ∧ S.ShardOf C D f y
  | .response (.getShard f) (.getShard x) => ∀ y, x = some y → S.ShardOf C D f y
  | .response _ _ => False
  | .instructionIn _ | .instructionOut _ | .processorIn _ | .processorOut _ _ => False
  | _ => True

/-- Recollected data are the data that were put. -/
def OutputHonest (_p : PeerId) : Output B → Prop
  | .memory (.recollectResponse (.ok (v, d))) => ∃ a, D v = some (a, d)
  | _ => True

abbrev Honest (s : State B) : Prop :=
  s.Everywhere (S.NodeHonest C D) (S.MessageHonest C D) (OutputHonest D)

variable {S C D} {p : PeerId} {c : Choice} {node : Node B} {m m' : InitializedDataMemory B}
  {order : HashOrder} {e : DataMemory.InEvent B} {out : List (DataMemory.OutEvent B)}

/-- Enough shards of what was put decode to it. -/
theorem decoded_put (hw : S.encoding.inner.Implements C) (hB : 0 < B)
    (hm : m.encoding = S.encoding) {v : Vid} {d : Data B}
    (h : m.DecodedFrom (S.ShardOf C D) v d) : ∃ a, D v = some (a, d) := by
  obtain ⟨shards, hdecode, hlen, hall⟩ := h
  have hlen' : dataShardsCount ≤ shards.len := by
    rw [InitializedDataMemory.sufficientShards, hm] at hlen
    exact hw.data ▸ hlen
  have hne : shards.keys.Nonempty :=
    Finset.card_pos.1 (Nat.lt_of_lt_of_le (by decide) hlen')
  obtain ⟨s, hs⟩ := hne
  obtain ⟨x, hx⟩ := Finmap.mem_keys_iff.1 hs
  obtain ⟨a, d', hD, -⟩ := hall s x hx
  have hsub : ∀ t y, shards.lookup t = some y → (codeword C d').lookup t = some y := by
    intro t y hy
    obtain ⟨a', d'', hD', hlookup⟩ := hall t y hy
    cases hD.symm.trans hD'
    exact hlookup
  rw [hm, decode_codeword hw hB hlen' hsub] at hdecode
  cases hdecode
  exact ⟨a, hD⟩

/-- What the memory must serve when asked: nothing that was put is missing. -/
def Serves (p : PeerId) (m : InitializedDataMemory B) : DataMemory.InEvent B → Prop
  | .serveShardRequest f => (m.serveShard f).isSome
  | .storageRequestTx v author => author = p →
    ∀ sid, m.assignedShardId = some sid → (m.serveShard (v, sid)).isSome
  | _ => True

theorem MemoryHonest.handle (hw : S.encoding.inner.Implements C) (hB : 0 < B)
    (ha : S.MemoryAddressed p m) (h : S.MemoryHonest C D m)
    (hm : S.MessageHonest C D p (.memoryIn e)) (hserve : Serves p m e)
    (hh : m.handle order e = .next m' out) :
    S.MemoryHonest C D m' ∧ ∀ o ∈ out, S.MessageHonest C D p (.memoryOut o) ∧
      OutputHonest D p (.memory o) := by
  have hassembled := InitializedDataMemory.assembled_handle h.assembled
    (fun f x he => by subst he; exact hm x rfl) (fun v s x _ _ hx => h.stored _ _ hx) hh
  refine ⟨⟨fun f x hx => ?_, fun f x hx => ?_, hassembled.1⟩, fun o ho => ⟨?_, ?_⟩⟩
  · rw [InitializedDataMemory.getShard_handle hh] at hx
    cases hs : m.stores e with
    | none =>
      rw [hs] at hx
      exact h.stored f x hx
    | some g =>
      obtain ⟨g, y⟩ := g
      rw [hs] at hx
      dsimp only at hx
      split at hx
      · rename_i hfg
        cases hx
        subst hfg
        rcases InitializedDataMemory.stores_cases hs with rfl | ⟨-, -, hy⟩
        · obtain ⟨z, hz, hput⟩ := hm
          cases hz
          exact hput
        · exact h.served _ _ hy
      · exact h.stored f x hx
  · rcases InitializedDataMemory.serveShard_handle hh hx with hx | ⟨d, shards, rfl, hencode, hl⟩
    · exact h.served f x hx
    · rw [ha.encoding, encode_eq hw hB] at hencode
      cases hencode
      exact ⟨p, d, hm, hl⟩
  · have hemit := InitializedDataMemory.handle_emits hh o ho
    cases o with
    | preparedServiceResponse v =>
      obtain ⟨d, rfl⟩ := hemit
      exact ⟨d, hm⟩
    | serveShardRequest f author =>
      obtain ⟨rfl, -⟩ := hemit
      exact hm
    | serveShardResponse f x =>
      obtain ⟨rfl, rfl⟩ := hemit
      obtain ⟨y, hy⟩ := Option.isSome_iff_exists.1 hserve
      exact ⟨hm, y, hy, h.served f y hy⟩
    | assignedStoreSuccess f =>
      obtain ⟨x, hx⟩ := hemit
      rcases InitializedDataMemory.stores_cases hx with rfl | ⟨rfl, -, -⟩
      · obtain ⟨z, -, a, d, hD, -⟩ := hm
        exact Option.isSome_iff_exists.2 ⟨_, hD⟩
      · obtain ⟨d, hD⟩ := hm
        exact Option.isSome_iff_exists.2 ⟨_, hD⟩
    | assignedResponse f x =>
      obtain ⟨rfl, rfl⟩ := hemit
      exact fun y hy => h.stored f y hy
    | _ => trivial
  · cases o with
    | recollectResponse response =>
      rcases response with _ | ⟨v, d⟩
      · trivial
      · exact decoded_put hw hB ha.encoding (hassembled.2 v d ho)
    | _ => trivial

theorem MessageHonest.idle {m : Message B} (hm : S.MessageHonest C D p m) : MessageIdle m := by
  cases m with
  | memoryIn e => cases e <;> first | exact hm.elim | trivial
  | recognized author tx eventHash => cases tx <;> first | exact hm.elim | trivial
  | response request response =>
    cases request <;> cases response <;> first | exact hm.elim | trivial
  | instructionIn e | instructionOut e | processorIn e => exact hm.elim
  | processorOut id results => exact hm.elim
  | _ => trivial

theorem NodeHonest.behave {x : ProcessedRequests × List (Send B)} (h : S.NodeHonest C D p node)
    (hsend : ∀ a ∈ x.2, ∀ q m, (q, m) ∈ S.dispatch p c a → S.MessageHonest C D q m) :
    Actors.Keeps (S.NodeHonest C D) (S.MessageHonest C D) (OutputHonest D) p
      (S.behave p c node x) :=
  keeps_behave ⟨h.memory, h.running, h.ready, h.writes⟩ hsend fun _ => trivial

theorem NodeHonest.receive (hw : S.encoding.inner.Implements C) (hB : 0 < B) {m : Message B}
    {r : NodeReaction B} (hn : S.NodeAddressed p node) (ha : S.MessageAddressed p m)
    (h : S.NodeHonest C D p node) (hm : S.MessageHonest C D p m)
    (hserve : ∀ e, m = .memoryIn e → Serves p node.tile.memory e)
    (hr : S.receive p c node m = some r) :
    Actors.Keeps (S.NodeHonest C D) (S.MessageHonest C D) (OutputHonest D) p r := by
  cases receive_reacts hr with
  | @handled e t out moves =>
    cases moves with
    | handled running turn =>
      obtain ⟨hmem, hout⟩ := h.memory.handle hw hB hn.memory hm (hserve e rfl) turn
      refine keeps_tile ⟨hmem, h.running, h.ready, h.writes⟩ (fun o ho => ?_) (by simp)
      obtain ⟨o', ho', he⟩ := List.mem_map.1 ho
      cases he
      exact hout o ho'
    | ended running turn => exact absurd (MessageIdle.continues hw hB hn.memory hm.idle) turn
  | started | instructed => exact hm.elim
  | passed notMemory sent waits =>
    refine h.behave fun a ha' q m' hqm => ?_
    cases sent a ha' q m' hqm with
    | served => exact hm.2
    | serve => exact ⟨hm, _, ha⟩
    | program | actualized | executed | executeTx | executedTx => exact hm.elim
    | serveRequest | got | stored | prepared => exact hm
    | storageRequestTx | storedTx | serveResponse | getResponse => exact hm
    | _ => trivial

/-- The user's request, in a network without programs. -/
def Allowed (D : Vid → Option (PeerId × Data B)) (p : PeerId) : Act B → Prop
  | .user (.put v d) => D v = some (p, d)
  | .user (.scheduleProgram _) => False
  | _ => True

theorem NodeHonest.idle (h : S.NodeHonest C D p node) : NodeIdle p node :=
  ⟨h.running, h.ready, h.writes⟩

theorem NodeHonest.act {a : Act B} {r : NodeReaction B} (h : S.NodeHonest C D p node)
    (ha : Allowed D p a) (hr : S.act p c node a = some r) :
    Actors.Keeps (S.NodeHonest C D) (S.MessageHonest C D) (OutputHonest D) p r := by
  obtain ⟨-, e, rfl, rfl⟩ := h.idle.act_user hr
  refine h.behave fun a ha' q m hqm => ?_
  cases e with
  | scheduleProgram program => exact ha.elim
  | _ =>
    obtain rfl := List.mem_singleton.1 ha'
    obtain ⟨rfl, rfl⟩ := Prod.mk.inj (List.mem_singleton.1 hqm)
    exact ha

end Setup

end Swarm.Network
