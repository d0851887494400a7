import Swarm.DataMemory.Events
import Swarm.Network.System

/-!
# Where shards go

A shard is stored, announced and located only at peers that the distribution
assigns its shard id to, in every run.
-/

namespace Swarm.Network

open Swarm.DataMemory Swarm.Processor Swarm.Consensus Swarm.Node
open Swarm.Behaviour (Request Response ProcessedRequests Send)

variable {B : Nat}

namespace Setup

variable (S : Setup)

/-- The distribution assigns shard id `s` to peer `p`. -/
def Assigned (p : PeerId) (s : Sid) : Prop := S.distribution.lookup p = some s

structure MemoryAddressed (p : PeerId) (m : InitializedDataMemory B) : Prop where
  distribution : m.distribution = S.distribution
  encoding : m.encoding = S.encoding
  localId : m.localId = p
  stored : ∀ f, (m.getShard f).isSome → S.Assigned p f.2
  located : ∀ f q, m.knownLocation f = some q → S.Assigned q f.2

structure NodeAddressed (p : PeerId) (node : Node B) : Prop where
  memory : S.MemoryAddressed p node.tile.memory
  waiting : ∀ f q, q ∈ waiting node (.serveShard f) → S.Assigned q f.2

def MessageAddressed (p : PeerId) : Message B → Prop
  | .memoryIn (.serveShardResponse f _) => S.Assigned p f.2
  | .memoryIn (.storeConfirmed f q) => S.Assigned q f.2
  | .memoryOut (.serveShardRequest f _) => S.Assigned p f.2
  | .memoryOut (.assignedStoreSuccess f) => S.Assigned p f.2
  | .recognized q (.stored _ s) _ => S.Assigned q s
  | .request q (.serveShard f) => S.Assigned q f.2
  | .response (.serveShard f) _ => S.Assigned p f.2
  | _ => True

/-- Every node and message keeps to the distribution. -/
abbrev Addressed (s : State B) : Prop :=
  s.Everywhere S.NodeAddressed S.MessageAddressed fun _ _ => True

variable {S} {p : PeerId} {c : Choice} {node : Node B} {m m' : InitializedDataMemory B}
  {order : HashOrder} {e : DataMemory.InEvent B} {out : List (DataMemory.OutEvent B)}

theorem MemoryAddressed.assignedShardId (h : S.MemoryAddressed p m) :
    m.assignedShardId = S.distribution.lookup p := by
  rw [InitializedDataMemory.assignedShardId, h.distribution, h.localId]

theorem MemoryAddressed.stores (h : S.MemoryAddressed p m)
    (hm : S.MessageAddressed p (.memoryIn e)) {f : FullShardId} {x : Shard B}
    (hs : m.stores e = some (f, x)) : S.Assigned p f.2 := by
  rcases InitializedDataMemory.stores_cases hs with rfl | ⟨-, hassigned, -⟩
  · exact hm
  · exact h.assignedShardId.symm.trans hassigned

theorem MemoryAddressed.learns (h : S.MemoryAddressed p m)
    (hm : S.MessageAddressed p (.memoryIn e)) {f : FullShardId} {q : PeerId}
    (hl : m.learns f e = some q) : S.Assigned q f.2 := by
  cases e with
  | storeConfirmed g location =>
    simp only [InitializedDataMemory.learns] at hl
    split at hl
    · rename_i hg
      cases hl
      exact hg ▸ hm
    · cases hl
  | peerShardsActualized peer ids =>
    simp only [InitializedDataMemory.learns] at hl
    split at hl
    · rename_i hp
      cases hl
      rw [Assigned, ← h.distribution]
      exact hp.2
    · cases hl
  | _ => cases hl

theorem MemoryAddressed.handle (h : S.MemoryAddressed p m)
    (hm : S.MessageAddressed p (.memoryIn e)) (hh : m.handle order e = .next m' out) :
    S.MemoryAddressed p m' := by
  obtain ⟨hd, he, hl⟩ := InitializedDataMemory.handle_fixed hh
  refine ⟨hd.trans h.distribution, he.trans h.encoding, hl.trans h.localId, ?_, ?_⟩
  · intro f hf
    rw [InitializedDataMemory.getShard_handle hh] at hf
    cases hs : m.stores e with
    | none =>
      rw [hs] at hf
      exact h.stored f hf
    | some g =>
      obtain ⟨g, x⟩ := g
      rw [hs] at hf
      dsimp only at hf
      split at hf
      · rename_i hfg
        exact hfg ▸ h.stores hm hs
      · exact h.stored f hf
  · intro f q hq
    rw [InitializedDataMemory.knownLocation_handle hh] at hq
    cases hlearn : m.learns f e with
    | none =>
      rw [hlearn, Option.none_or] at hq
      exact h.located f q hq
    | some q' =>
      rw [hlearn, Option.some_or] at hq
      cases hq
      exact h.learns hm hlearn

theorem MemoryAddressed.emits (h : S.MemoryAddressed p m)
    (hm : S.MessageAddressed p (.memoryIn e)) {o : DataMemory.OutEvent B} (ho : m.Emits e o) :
    S.MessageAddressed p (.memoryOut o) := by
  cases o with
  | serveShardRequest f location => exact h.assignedShardId.symm.trans ho.2.1
  | assignedStoreSuccess f =>
    obtain ⟨x, hx⟩ := ho
    exact h.stores hm hx
  | _ => exact trivial

theorem MemoryAddressed.busWrite (h : S.MemoryAddressed p m) (v : Vid) (x : Shard B) :
    S.MemoryAddressed p (m.busWrite v x) := by
  cases ha : m.assignedShardId with
  | none =>
    simp only [InitializedDataMemory.busWrite, ha]
    exact h
  | some sid =>
    have hstored : ∀ f, ((m.busWrite v x).getShard f).isSome → S.Assigned p f.2 := by
      intro f hf
      rw [InitializedDataMemory.getShard_busWrite ha] at hf
      split at hf
      · rename_i hfv
        rw [hfv, Assigned, ← h.assignedShardId, ha]
      · exact h.stored f hf
    have hbus : m.busWrite v x = m.storeShard (v, sid) x := by
      simp only [InitializedDataMemory.busWrite, ha]
    rw [hbus] at hstored ⊢
    exact ⟨h.distribution, h.encoding, h.localId, hstored, h.located⟩

/-- A step of the tile. -/
theorem MemoryAddressed.moves {t t' : Tile B} {a : TileStep B} {out : List (TileOut B)}
    (h : S.MemoryAddressed p t.memory)
    (hm : ∀ order e, a = .handle order e → S.MessageAddressed p (.memoryIn e))
    (hmove : t.Moves S.add a t' out) :
    S.MemoryAddressed p t'.memory ∧ ∀ o, .memory o ∈ out → S.MessageAddressed p (.memoryOut o) := by
  cases hmove with
  | handled running turn =>
    refine ⟨h.handle (hm _ _ rfl) turn, fun o ho => ?_⟩
    obtain ⟨o', ho', he⟩ := List.mem_map.1 ho
    cases he
    exact h.emits (hm _ _ rfl) (InitializedDataMemory.handle_emits turn o ho')
  | applied running head => exact ⟨h.busWrite _ _, by simp⟩
  | finished done => exact ⟨h, by simp⟩
  | _ => exact ⟨h, by simp⟩

/-! ## Reactions -/

theorem NodeAddressed.tile {t : Tile B} {a : TileStep B} {out : List (TileOut B)}
    (h : S.NodeAddressed p node)
    (hm : ∀ order e, a = .handle order e → S.MessageAddressed p (.memoryIn e))
    (hmove : node.tile.Moves S.add a t out) :
    Actors.Keeps S.NodeAddressed S.MessageAddressed (fun _ _ => True) p
      ⟨{ node with tile := t }, out.map (emit p), out.map emitted⟩ := by
  obtain ⟨hmem, hout⟩ := h.memory.moves hm hmove
  exact keeps_tile ⟨hmem, h.waiting⟩ (fun o ho => ⟨hout o ho, trivial⟩)
    fun _ _ _ => ⟨trivial, trivial⟩

theorem NodeAddressed.behave {x : ProcessedRequests × List (Send B)} (h : S.NodeAddressed p node)
    (hx : ∀ f q, q ∈ (x.1.lookup (.serveShard f)).getD [] → S.Assigned q f.2)
    (hsend : ∀ a ∈ x.2, ∀ q m, (q, m) ∈ S.dispatch p c a → S.MessageAddressed q m) :
    Actors.Keeps S.NodeAddressed S.MessageAddressed (fun _ _ => True) p (S.behave p c node x) :=
  keeps_behave ⟨h.memory, hx⟩ hsend fun _ => trivial

theorem NodeAddressed.receive {m : Message B} {r : NodeReaction B} (h : S.NodeAddressed p node)
    (hm : S.MessageAddressed p m) (hr : S.receive p c node m = some r) :
    Actors.Keeps S.NodeAddressed S.MessageAddressed (fun _ _ => True) p r := by
  cases receive_reacts hr with
  | handled moves => exact h.tile (fun _ _ he => by cases he; exact hm) moves
  | started moves => exact h.tile (fun _ _ he => by cases he) moves
  | instructed =>
    refine ⟨⟨h.memory, h.waiting⟩, fun q m hqm => ?_, fun _ _ => trivial⟩
    obtain ⟨o, -, he⟩ := List.mem_map.1 hqm
    cases he
    trivial
  | passed notMemory sent waits =>
    refine h.behave (fun f q hq => ?_) fun a ha q m' hqm => ?_
    · rcases waits _ q hq with hq | rfl
      · exact h.waiting f q hq
      · exact hm
    · cases sent a ha q m' hqm with
      | served hq => exact h.waiting _ q hq
      | serveRequest | stored | storedTx | serveResponse => exact hm
      | _ => trivial

theorem NodeAddressed.act {a : Act B} {r : NodeReaction B} (h : S.NodeAddressed p node)
    (hr : S.act p c node a = some r) :
    Actors.Keeps S.NodeAddressed S.MessageAddressed (fun _ _ => True) p r := by
  unfold Setup.act at hr
  split at hr
  · cases a with
    | user e =>
      cases hr
      refine h.behave h.waiting fun a ha q m hqm => ?_
      cases asks_of_mem ha hqm <;> trivial
    | _ =>
      obtain ⟨t, out, hmove, rfl⟩ := tileStep_moves hr
      exact h.tile (fun _ _ he => by cases he) hmove
  · cases hr

/-! ## Runs -/

theorem Addressed.step {s s' : State B} {a : Action B} (h : S.Addressed s)
    (hs : S.step s a = some s') : S.Addressed s' :=
  Actors.Config.Everywhere.step h
    (fun _ p _ m _ _ hi hr _ => (h.nodes p).receive (h.pool p m (List.mem_of_getElem? hi)) hr)
    (fun p _ _ _ _ hr _ => (h.nodes p).act hr) hs

theorem addressed_init : S.Addressed (S.init : State B) where
  nodes p :=
    ⟨⟨rfl, rfl, rfl, fun f h => (by cases h), fun f q h => (by cases h)⟩, fun f q h => (by cases h)⟩
  pool _ _ h := by cases h
  log _ _ _ := trivial

/-- **Addressing**: in every reachable state, shards are stored, announced and located only
where the distribution assigns them. -/
theorem addressed_run {as : List (Action B)} {s : State B} (run : S.Run as s) : S.Addressed s :=
  Trace.invariant (I := fun _ s => S.Addressed s) addressed_init
    (fun _ _ _ _ h hs => h.step hs) run

end Setup

end Swarm.Network
