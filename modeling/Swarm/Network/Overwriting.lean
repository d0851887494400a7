import Swarm.Network.Distribution

/-!
# Putting an address again

The storage messages carry no version of the put: what a peer stores last stays.
A put of `v` in order is prepared when no shard of an earlier one is on its way
and nobody else is asked for one, and serves every shard it is asked for. From
then on it is the current one: all shards of `v` on their way are its shards, and
each peer holds its shard or has it coming. `overwriting_puts_converge`: if all
puts of `v` go in order, a network at rest holds the shards of the current one.
-/

namespace Swarm.Network

open Swarm.DataMemory Swarm.Processor Swarm.Consensus Swarm.Encoding Swarm.Node
open Swarm.Behaviour (Request Response ProcessedRequests Send)

variable {B : Nat}

namespace Setup

variable (S : Setup)

/-! ## Messages of a put -/

/-- The peer that a message asks for a shard of `v`, or makes others ask. -/
def asks (v : Vid) : PeerId × Message B → Option PeerId
  | (p, .memoryOut (.preparedServiceResponse u)) => if u = v then some p else none
  | (_, .recognized author (.storageRequest u) _) => if u = v then some author else none
  | (_, .memoryIn (.storageRequestTx u author)) => if u = v then some author else none
  | (_, .memoryOut (.serveShardRequest f author)) => if f.1 = v then some author else none
  | (p, .request _ (.serveShard f)) => if f.1 = v then some p else none
  | (p, .memoryIn (.serveShardRequest f)) => if f.1 = v then some p else none
  | _ => none

/-- The shard of `v` that a message brings, if the author had it. -/
def brings (v : Vid) : Message B → Option (Sid × Option (Shard B))
  | .memoryOut (.serveShardResponse f x) => if f.1 = v then some (f.2, x) else none
  | .response (.serveShard f) (.serveShard x) => if f.1 = v then some (f.2, x) else none
  | .memoryIn (.serveShardResponse f x) => if f.1 = v then some (f.2, x) else none
  | _ => none

/-- The message makes its receiver prepare a put of `v`. -/
def prepares (v : Vid) : Message B → Bool
  | .memoryIn (.prepareServiceRequest u _) => u = v
  | _ => false

/-- The shard of `v` that the receiver has to serve, to another peer or to itself. -/
def wanted (v : Vid) : PeerId × Message B → Option FullShardId
  | (_, .memoryIn (.serveShardRequest f)) => if f.1 = v then some f else none
  | (p, .memoryIn (.storageRequestTx u author)) =>
    if u = v ∧ author = p then (S.distribution.lookup p).map fun sid => (u, sid) else none
  | _ => none

/-- A put of `v` is prepared when no shard of `v` is on its way and nobody else is asked for one.
A shard of `v` that is asked for is served. -/
def Orderly (v : Vid) (s : State B) : Action B → Prop
  | .deliver i _ => ∀ e ∈ s.pool[i]?,
    (prepares v e.2 → ∀ e' ∈ s.pool, (brings v e'.2).isNone ∧ ∀ a ∈ asks v e', a = e.1) ∧
    ∀ f ∈ S.wanted v e, ((s.nodes e.1).tile.memory.serveShard f).isSome
  | .act _ _ _ => True

instance (v : Vid) (s : State B) : (a : Action B) → Decidable (S.Orderly v s a)
  | .deliver i _ => inferInstanceAs (Decidable (∀ e ∈ s.pool[i]?,
    (prepares v e.2 → ∀ e' ∈ s.pool, (brings v e'.2).isNone ∧ ∀ a ∈ asks v e', a = e.1) ∧
    ∀ f ∈ S.wanted v e, ((s.nodes e.1).tile.memory.serveShard f).isSome))
  | .act _ _ _ => isTrue trivial

/-! ## The current put -/

variable (C : MdsCode UInt8 dataShardsCount S.encoding.inner.totalShardCount) (v : Vid)
  (P : PeerId → Data B → Prop) (cur : Option (PeerId × Data B))

/-- `cur` is the put of `v` that was prepared last; its author serves nothing else. -/
structure NodeCurrent (p : PeerId) (node : Node B) : Prop where
  idle : NodeIdle p node
  served : ∀ d, cur = some (p, d) → ∀ sid x, node.tile.memory.serveShard (v, sid) = some x →
    (codeword C d).lookup sid = some x

/-- The message asks only the author of the current put and brings only its shards; a put
that has yet to be prepared has property `P`. -/
structure MessageCurrent (p : PeerId) (m : Message B) : Prop where
  idle : MessageIdle m
  asked : ∀ a, asks v (p, m) = some a → ∃ d, cur = some (a, d)
  brought : ∀ sid x, brings v m = some (sid, x) → ∃ a d y, cur = some (a, d) ∧ x = some y ∧
    (codeword C d).lookup sid = some y
  unprepared : ∀ d, m = .memoryIn (.prepareServiceRequest v d) → P p d

abbrev AllCurrent (s : State B) : Prop :=
  s.Everywhere (S.NodeCurrent C v cur) (S.MessageCurrent C v P cur) fun _ _ => True

variable {S C v P cur} {p q : PeerId} {c : Choice} {node : Node B} {m m' : Message B}
  {memory memory' : InitializedDataMemory B} {order : HashOrder} {e : DataMemory.InEvent B}
  {out : List (DataMemory.OutEvent B)}

/-- A message that asks and brings no more than another one. -/
theorem MessageCurrent.transfer (h : S.MessageCurrent C v P cur p m) (idle : MessageIdle m')
    (asked : ∀ a, asks v (q, m') = some a → asks v (p, m) = some a)
    (brought : ∀ y, brings v m' = some y → brings v m = some y)
    (prepared : ∀ d, m' ≠ .memoryIn (.prepareServiceRequest v d)) :
    S.MessageCurrent C v P cur q m' :=
  ⟨idle, fun a ha => h.asked a (asked a ha), fun sid x hx => h.brought sid x (brought _ hx),
    fun d hd => absurd hd (prepared d)⟩

/-- A message that has nothing to do with a put of `v`. -/
theorem MessageCurrent.other (idle : MessageIdle m) (asked : asks v (p, m) = none)
    (brought : brings v m = none)
    (prepared : ∀ d, m ≠ .memoryIn (.prepareServiceRequest v d)) :
    S.MessageCurrent C v P cur p m := by
  refine ⟨idle, ?_, ?_, fun d hd => absurd hd (prepared d)⟩
  · intro a ha
    rw [asked] at ha
    cases ha
  · intro sid x hx
    rw [brought] at hx
    cases hx

/-- What the memory stores for `v` is a shard of the current put. -/
theorem stores_current (ha : S.MemoryAddressed p memory)
    (hserved : ∀ d, cur = some (p, d) → ∀ sid x, memory.serveShard (v, sid) = some x →
      (codeword C d).lookup sid = some x)
    (hm : S.MessageCurrent C v P cur p (.memoryIn e)) {sid : Sid} {x : Shard B}
    (hs : memory.stores e = some ((v, sid), x)) :
    ∃ a d, cur = some (a, d) ∧ (codeword C d).lookup sid = some x := by
  rcases InitializedDataMemory.stores_cases hs with rfl | ⟨rfl, -, hx⟩
  · obtain ⟨a, d, y, hcur, hy, hl⟩ := hm.brought sid _ (if_pos rfl)
    cases hy
    exact ⟨a, d, hcur, hl⟩
  · obtain ⟨d, hcur⟩ := hm.asked memory.localId (if_pos rfl)
    exact ⟨_, d, hcur, hserved d (hcur.trans (by rw [ha.localId])) sid x hx⟩

theorem NodeCurrent.handle
    (hserved : ∀ d, cur = some (p, d) → ∀ sid x, memory.serveShard (v, sid) = some x →
      (codeword C d).lookup sid = some x)
    (hm : S.MessageCurrent C v P cur p (.memoryIn e))
    (hserve : ∀ f, e = .serveShardRequest f → f.1 = v → (memory.serveShard f).isSome)
    (hprepare : ∀ d, e ≠ .prepareServiceRequest v d)
    (hh : memory.handle order e = .next memory' out) :
    (∀ d, cur = some (p, d) → ∀ sid x, memory'.serveShard (v, sid) = some x →
      (codeword C d).lookup sid = some x) ∧
    ∀ o ∈ out, S.MessageCurrent C v P cur p (.memoryOut o) := by
  refine ⟨fun d hcur sid x hx => ?_, fun o ho => ?_⟩
  · rcases InitializedDataMemory.serveShard_handle hh hx with hx | ⟨d', shards, he, -, -⟩
    · exact hserved d hcur sid x hx
    · exact absurd he (hprepare d')
  · have hemit := InitializedDataMemory.handle_emits hh o ho
    cases o with
    | preparedServiceResponse u =>
      obtain ⟨d, rfl⟩ := hemit
      have hne : u ≠ v := by
        rintro rfl
        exact hprepare d rfl
      exact .other trivial (if_neg hne) rfl (fun _ h => by cases h)
    | serveShardRequest f author =>
      obtain ⟨rfl, -⟩ := hemit
      exact hm.transfer trivial (fun _ h => h) (fun _ h => by cases h) (fun _ h => by cases h)
    | serveShardResponse f x =>
      obtain ⟨rfl, rfl⟩ := hemit
      refine ⟨trivial, fun _ h => (by cases h), ?_, fun _ h => (by cases h)⟩
      intro sid x hx
      simp only [brings] at hx
      split at hx
      · rename_i hf
        cases hx
        subst hf
        obtain ⟨d, hcur⟩ := hm.asked p (if_pos rfl)
        obtain ⟨y, hy⟩ := Option.isSome_iff_exists.1 (hserve _ rfl rfl)
        exact ⟨p, d, y, hcur, hy, hserved d hcur f.2 y hy⟩
      · cases hx
    | _ => exact .other trivial rfl rfl (fun _ h => by cases h)

theorem NodeCurrent.behave {x : ProcessedRequests × List (Send B)}
    (h : S.NodeCurrent C v cur p node)
    (hsend : ∀ a ∈ x.2, ∀ q m, (q, m) ∈ S.dispatch p c a → S.MessageCurrent C v P cur q m) :
    Actors.Keeps (S.NodeCurrent C v cur) (S.MessageCurrent C v P cur) (fun _ _ => True) p
      (S.behave p c node x) :=
  keeps_behave ⟨⟨h.idle.running, h.idle.ready, h.idle.writes⟩, h.served⟩ hsend fun _ => trivial

/-- **One reaction** to a message that prepares no put of `v`. -/
theorem NodeCurrent.receive (hw : S.encoding.inner.Implements C) (hB : 0 < B)
    {r : NodeReaction B} (hn : S.NodeAddressed p node) (h : S.NodeCurrent C v cur p node)
    (hm : S.MessageCurrent C v P cur p m)
    (hserve : ∀ f, m = .memoryIn (.serveShardRequest f) → f.1 = v →
      (node.tile.memory.serveShard f).isSome)
    (hprepare : ∀ d, m ≠ .memoryIn (.prepareServiceRequest v d))
    (hr : S.receive p c node m = some r) :
    Actors.Keeps (S.NodeCurrent C v cur) (S.MessageCurrent C v P cur) (fun _ _ => True) p r := by
  cases receive_reacts hr with
  | @handled e t out moves =>
    cases moves with
    | handled running turn =>
      obtain ⟨hserved, hout⟩ := NodeCurrent.handle h.served hm
        (fun f he => hserve f (by rw [he])) (fun d he => hprepare d (by rw [he])) turn
      refine keeps_tile ⟨⟨h.idle.running, h.idle.ready, h.idle.writes⟩, hserved⟩
        (fun o ho => ?_) (by simp)
      obtain ⟨o', ho', he⟩ := List.mem_map.1 ho
      cases he
      exact ⟨hout o ho', trivial⟩
    | ended running turn => exact absurd (MessageIdle.continues hw hB hn.memory hm.idle) turn
  | started | instructed => exact hm.idle.elim
  | passed notMemory sent waits =>
    refine h.behave fun a ha q m' hqm => ?_
    cases sent a ha q m' hqm with
    | serveRequest | prepared | storageRequestTx | serve =>
      exact hm.transfer trivial (fun _ h => h) (fun _ h => by cases h) (fun _ h => by cases h)
    | served | serveResponse =>
      exact hm.transfer trivial (fun _ h => by cases h) (fun _ h => h) (fun _ h => by cases h)
    | program | actualized | executed | executeTx | executedTx => exact hm.idle.elim
    | _ => exact .other trivial rfl rfl (fun _ h => by cases h)

/-! ## Shards on their way -/

/-- A message that brings shard `f` to peer `q`, or leads to one that does. -/
def Pulls (f : FullShardId) (q : PeerId) : PeerId × Message B → Prop
  | (_, .memoryOut (.preparedServiceResponse u)) => u = f.1
  | (p, .recognized _ (.storageRequest u) _) => p = q ∧ u = f.1
  | (p, .memoryIn (.storageRequestTx u _)) => p = q ∧ u = f.1
  | (_, .memoryOut (.serveShardRequest g _)) => g = f
  | (_, .request _ (.serveShard g)) => g = f
  | (_, .response (.serveShard g) _) => g = f
  | (_, .memoryIn (.serveShardResponse g _)) => g = f
  | _ => False

variable {f : FullShardId} {a : PeerId} {d : Data B} {sid : Sid} {r : NodeReaction B}

/-- Who waits for a shard has its request on its way through the memory. -/
theorem waiting_receive (hr : S.receive p c node m = some r) (hidle : MessageIdle m)
    (hcontinues : ∀ e, m = .memoryIn e → (node.tile.memory.handle c.order e).Continues)
    (h : waiting r.node (.serveShard f) ≠ []) :
    (∃ e ∈ r.sent, 0 < pending p f e) ∨
      (waiting node (.serveShard f) ≠ [] ∧ ¬ 0 < pending p f (p, m)) := by
  cases m with
  | memoryIn e =>
    obtain ⟨t, out, hmove, rfl⟩ := tileStep_moves hr
    cases hmove with
    | handled running turn =>
      by_cases hpos : 0 < pending p f (p, (.memoryIn e : Message B))
      · rw [← pending_handle p turn] at hpos
        obtain ⟨o, ho, hpos⟩ := Actors.exists_of_weigh_pos hpos
        refine .inl ⟨_, List.mem_map.2 ⟨_, List.mem_map.2 ⟨o, ho, rfl⟩, rfl⟩, hpos⟩
      · exact .inr ⟨h, hpos⟩
    | ended running turn => exact absurd (hcontinues e rfl) turn
  | memoryOut e =>
    cases hr
    cases e with
    | serveShardResponse g x =>
      rw [Behaviour.handleDataMemory, waiting_answer] at h
      split at h
      · exact absurd rfl h
      · rename_i hg
        refine .inr ⟨h, ?_⟩
        have hne : g ≠ f := fun hgf => hg (congrArg _ hgf.symm)
        simp [pending, hne]
    | assignedResponse g x =>
      rw [Behaviour.handleDataMemory, waiting_answer, if_neg (by simp)] at h
      exact .inr ⟨h, by simp [pending]⟩
    | _ => exact .inr ⟨h, by simp [pending]⟩
  | request origin request =>
    cases hr
    rw [waiting_request] at h
    cases request with
    | getShard g => exact .inr ⟨h, by simp [pending]⟩
    | serveShard g =>
      by_cases hg : g = f
      · subst hg
        exact .inl ⟨_, List.mem_singleton.2 rfl, by simp [pending]⟩
      · rw [if_neg fun he => hg (Request.serveShard.inj he).symm] at h
        exact .inr ⟨h, by simp [pending]⟩
  | instructionIn e | instructionOut e | processorIn e => exact hidle.elim
  | processorOut id results => exact hidle.elim
  | _ =>
    cases hr
    exact .inr ⟨h, by simp [pending]⟩

/-- A peer that waits for a shard goes on waiting, or the shard is sent to it. -/
theorem waits_receive (hr : S.receive p c node m = some r) (hidle : MessageIdle m)
    (h : waiting node (.serveShard f) ≠ []) :
    waiting r.node (.serveShard f) ≠ [] ∨ ∃ e ∈ r.sent, Pulls f q e := by
  cases m with
  | memoryIn e =>
    obtain ⟨t, out, hmove, rfl⟩ := tileStep_moves hr
    exact .inl h
  | memoryOut e =>
    cases hr
    cases e with
    | serveShardResponse g x =>
      rw [Behaviour.handleDataMemory, waiting_answer]
      by_cases hg : g = f
      · subst hg
        obtain ⟨q', hq'⟩ := List.exists_mem_of_ne_nil _ h
        refine .inr ⟨(q', .response (.serveShard g) (.serveShard x)), ?_, rfl⟩
        rw [behave_sent, List.mem_flatMap]
        exact ⟨_, List.mem_map.2 ⟨q', hq', rfl⟩, List.mem_singleton.2 rfl⟩
      · rw [if_neg fun he => hg (Request.serveShard.inj he).symm]
        exact .inl h
    | assignedResponse g x =>
      rw [Behaviour.handleDataMemory, waiting_answer, if_neg (by simp)]
      exact .inl h
    | _ => exact .inl h
  | request origin request =>
    cases hr
    rw [waiting_request]
    split
    · exact .inl (by simp)
    · exact .inl h
  | instructionIn e | instructionOut e | processorIn e => exact hidle.elim
  | processorOut id results => exact hidle.elim
  | _ =>
    cases hr
    exact .inl h

/-- A shard of the current put stays until another shard of it replaces it. -/
theorem getShard_current (hw : S.encoding.inner.Implements C) (hB : 0 < B)
    (hn : S.NodeAddressed p node) (h : S.NodeCurrent C v (some (a, d)) p node)
    (hm : S.MessageCurrent C v P (some (a, d)) p m) (hr : S.receive p c node m = some r)
    (hheld : node.tile.memory.getShard (v, sid) = (codeword C d).lookup sid) :
    r.node.tile.memory.getShard (v, sid) = (codeword C d).lookup sid := by
  rcases hm.idle.receive hw hB hn hr with ⟨e, out, rfl, hh, -⟩ | ⟨-, hsame, -⟩
  · rw [InitializedDataMemory.getShard_handle hh]
    rcases hs : node.tile.memory.stores e with _ | ⟨g, x⟩
    · exact hheld
    · dsimp only
      split
      · rename_i hg
        subst hg
        obtain ⟨a', d', hcur, hl⟩ := stores_current hn.memory h.served hm hs
        cases hcur
        exact hl.symm
      · exact hheld
  · rw [hsame]
    exact hheld

/-- **One reaction** to a message that pulls a shard of the current put to `q`: it is still pulled,
or its request waits at the author, or it is stored. -/
theorem pulls_receive (hw : S.encoding.inner.Implements C) (hB : 0 < B) (hb : S.Bijective)
    (hq : S.Assigned q sid) (hn : S.NodeAddressed p node) (haddressed : S.MessageAddressed p m)
    (h : S.NodeCurrent C v (some (a, d)) p node)
    (hm : S.MessageCurrent C v P (some (a, d)) p m) (hpulls : Pulls (v, sid) q (p, m))
    (hserve : ∀ f ∈ S.wanted v (p, m), (node.tile.memory.serveShard f).isSome)
    (hr : S.receive p c node m = some r) :
    (p = q ∧ r.node.tile.memory.getShard (v, sid) = (codeword C d).lookup sid) ∨
      (p = a ∧ waiting r.node (.serveShard (v, sid)) ≠ []) ∨
      ∃ e ∈ r.sent, Pulls (v, sid) q e := by
  have hstored : ∀ e out x, m = .memoryIn e → node.tile.memory.stores e = some ((v, sid), x) →
      node.tile.memory.handle c.order e = .next r.node.tile.memory out →
      r.node.tile.memory.getShard (v, sid) = (codeword C d).lookup sid := by
    rintro e out x rfl hs hh
    obtain ⟨a', d', hcur, hl⟩ := stores_current hn.memory h.served hm hs
    cases hcur
    rw [InitializedDataMemory.getShard_handle hh, hs, hl]
    exact if_pos rfl
  cases m with
  | memoryIn e =>
    rcases hm.idle.receive hw hB hn hr with ⟨e', out, he, hh, hsent, -⟩ | ⟨hne, -⟩
    · cases he
      cases e with
      | storageRequestTx u author =>
        obtain ⟨rfl, rfl⟩ := hpulls
        have hsid := hn.memory.assignedShardId.trans hq
        by_cases hauthor : author = p
        · have hwanted : S.wanted u (p, (.memoryIn (.storageRequestTx u author) : Message B)) =
              some (u, sid) := by
            simp only [wanted, hauthor, and_self, if_true]
            rw [show S.distribution.lookup p = some sid from hq]
            rfl
          obtain ⟨x, hx⟩ := Option.isSome_iff_exists.1 (hserve (u, sid) hwanted)
          refine .inl ⟨rfl, hstored _ out x rfl ?_ hh⟩
          simp only [InitializedDataMemory.stores, hsid, hn.memory.localId, if_pos hauthor, hx,
            Option.map_some]
        · refine .inr (.inr ?_)
          simp only [InitializedDataMemory.handle, InitializedDataMemory.handleStorageRequestTx,
            hsid, hn.memory.localId, if_neg hauthor] at hh
          rw [hsent, ← (Turn.next.inj hh).2]
          exact ⟨_, List.mem_singleton.2 rfl, rfl⟩
      | serveShardResponse g shard =>
        obtain rfl : g = (v, sid) := hpulls
        obtain ⟨a', d', x, -, rfl, -⟩ := hm.brought sid shard (if_pos rfl)
        exact .inl ⟨hb.injective _ _ _ haddressed hq, hstored _ out x rfl rfl hh⟩
      | _ => exact hpulls.elim
    · exact absurd rfl (hne e)
  | memoryOut e =>
    cases hr
    refine .inr (.inr ?_)
    cases e with
    | preparedServiceResponse u =>
      obtain rfl : u = v := hpulls
      refine ⟨(q, .recognized p (.storageRequest u) c.eventHash), ?_, rfl, rfl⟩
      rw [behave_sent, List.mem_flatMap]
      exact ⟨_, List.mem_singleton.2 rfl, List.mem_map.2 ⟨q, (hb.peers q).2 ⟨sid, hq⟩, rfl⟩⟩
    | serveShardRequest g author =>
      exact ⟨_, List.mem_singleton.2 rfl, hpulls⟩
    | _ => exact hpulls.elim
  | recognized author tx eventHash =>
    cases hr
    refine .inr (.inr ?_)
    cases tx with
    | storageRequest u => exact ⟨_, List.mem_singleton.2 rfl, hpulls⟩
    | _ => exact hpulls.elim
  | request origin request =>
    cases hr
    cases request with
    | getShard g => exact hpulls.elim
    | serveShard g =>
      obtain rfl : g = (v, sid) := hpulls
      obtain ⟨d', hcur⟩ := hm.asked p (if_pos rfl)
      cases hcur
      refine .inr (.inl ⟨rfl, ?_⟩)
      rw [waiting_request, if_pos rfl]
      simp
  | response request response =>
    cases hr
    refine .inr (.inr ?_)
    cases request with
    | getShard g => exact hpulls.elim
    | serveShard g =>
      cases response with
      | getShard x => exact hm.idle.elim
      | serveShard x => exact ⟨_, List.mem_singleton.2 rfl, hpulls⟩
  | _ => exact hpulls.elim

/-! ## The invariant -/

variable (S C v P cur) in
/-- The state of a network whose puts of `v` go in order. -/
structure Ordered (s : State B) : Prop where
  addressed : S.Addressed s
  current : S.AllCurrent C v P cur s
  waits : ∀ a f, waiting (s.nodes a) (.serveShard f) ≠ [] → ∃ e ∈ s.pool, 0 < pending a f e
  pulled : ∀ a d q sid, cur = some (a, d) → S.Assigned q sid →
    (s.nodes q).tile.memory.getShard (v, sid) = (codeword C d).lookup sid ∨
      waiting (s.nodes a) (.serveShard (v, sid)) ≠ [] ∨ ∃ e ∈ s.pool, Pulls (v, sid) q e

section Step

variable {s : State B} {i : Nat} {x : NodeReaction B}

theorem pending_of_ne {e : PeerId × Message B} (hne : e.1 ≠ a) : ¬ 0 < pending a f e := by
  obtain ⟨p, m⟩ := e
  unfold pending
  split
  · rename_i h
    cases h
    simp [hne]
  · rename_i h
    cases h
    simp [hne]
  · simp

/-- **One delivery** that prepares no put of `v` keeps the invariant. -/
theorem Ordered.deliver (hw : S.encoding.inner.Implements C) (hB : 0 < B) (hb : S.Bijective)
    (h : S.Ordered C v P cur s) (hi : s.pool[i]? = some (p, m))
    (orderly : S.Orderly v s (.deliver i c))
    (hprepare : ∀ d, m ≠ .memoryIn (.prepareServiceRequest v d))
    (hr : S.receive p c (s.nodes p) m = some x) :
    S.Ordered C v P cur (s.react p (s.pool.eraseIdx i) x) := by
  have hmem := List.mem_of_getElem? hi
  have hn := h.addressed.nodes p
  have haddressed := h.addressed.pool p m hmem
  have hm := h.current.pool p m hmem
  obtain ⟨-, hwanted⟩ := orderly (p, m) hi
  refine ⟨?_, ?_, ?_, ?_⟩
  · exact h.addressed.react (fun e he => List.mem_of_mem_eraseIdx he) (hn.receive haddressed hr)
  · refine h.current.react (fun e he => List.mem_of_mem_eraseIdx he)
      ((h.current.nodes p).receive hw hB hn hm ?_ hprepare hr)
    rintro f rfl hf
    exact hwanted f (if_pos hf)
  · intro a f hwaiting
    rw [Actors.react_nodes] at hwaiting
    by_cases ha : a = p
    · subst ha
      rw [if_pos rfl] at hwaiting
      rcases waiting_receive hr hm.idle
        (fun e he => MessageIdle.continues hw hB hn.memory (he ▸ hm.idle)) hwaiting with
        ⟨e, he, hpos⟩ | ⟨hbefore, hnot⟩
      · exact ⟨e, List.mem_append_right _ he, hpos⟩
      · exact (Actors.exists_deliver hi (h.waits a f hbefore)).resolve_left hnot
    · rw [if_neg ha] at hwaiting
      exact (Actors.exists_deliver hi (h.waits a f hwaiting)).resolve_left
        (pending_of_ne (Ne.symm ha))
  · rintro a d q sid rfl hq
    have hnode := h.current.nodes p
    rw [Actors.react_nodes, Actors.react_nodes]
    rcases h.pulled a d q sid rfl hq with hheld | hwaiting | hpulls
    · left
      split
      · rename_i hqp
        subst hqp
        exact getShard_current hw hB hn hnode hm hr hheld
      · exact hheld
    · right
      split
      · rename_i hap
        subst hap
        rcases waits_receive (q := q) hr hm.idle hwaiting with hafter | ⟨e, he, hpulls⟩
        · exact .inl hafter
        · exact .inr ⟨e, List.mem_append_right _ he, hpulls⟩
      · exact .inl hwaiting
    · rcases Actors.exists_deliver hi hpulls with hthis | hother
      · rcases pulls_receive hw hB hb hq hn haddressed hnode hm hthis
          hwanted hr with
          ⟨rfl, hheld⟩ | ⟨rfl, hwaiting⟩ | ⟨e, he, hpulls⟩
        · left
          rw [if_pos rfl]
          exact hheld
        · right
          rw [if_pos rfl]
          exact .inl hwaiting
        · exact .inr (.inr ⟨e, List.mem_append_right _ he, hpulls⟩)
      · exact .inr (.inr hother)

/-- **One prepared put** in order is the current one. -/
theorem Ordered.prepare (hw : S.encoding.inner.Implements C) (hB : 0 < B)
    (h : S.Ordered C v P cur s)
    (hi : s.pool[i]? = some (p, .memoryIn (.prepareServiceRequest v d)))
    (orderly : S.Orderly v s (.deliver i c))
    (hr : S.receive p c (s.nodes p) (.memoryIn (.prepareServiceRequest v d)) = some x) :
    S.Ordered C v P (some (p, d)) (s.react p (s.pool.eraseIdx i) x) := by
  have hmem := List.mem_of_getElem? hi
  have hn := h.addressed.nodes p
  have hm := h.current.pool p _ hmem
  have orderly := (orderly _ hi).1 (decide_eq_true rfl)
  have hnode := (h.current.nodes p).idle
  have haddressed : S.Addressed (s.react p (s.pool.eraseIdx i) x) :=
    h.addressed.react (fun e he => List.mem_of_mem_eraseIdx he)
      (hn.receive (h.addressed.pool p _ hmem) hr)
  obtain ⟨t, out, hmove, rfl⟩ := tileStep_moves hr
  cases hmove with
  | ended running turn => exact absurd (MessageIdle.continues hw hB hn.memory hm.idle) turn
  | @handled _ _ memory out' running turn =>
    simp only [InitializedDataMemory.handle, InitializedDataMemory.handlePrepareServiceRequest,
      hn.memory.encoding, encode_eq hw hB] at turn
    cases turn
    refine ⟨haddressed, ⟨fun q => ?_, fun q m hqm => ?_, fun _ _ _ => trivial⟩, ?_, ?_⟩
    · rw [Actors.react_nodes]
      split
      · rename_i hq
        refine ⟨⟨running, hnode.ready, hnode.writes⟩, fun d' hcur sid y hy => ?_⟩
        cases hcur
        simpa [InitializedDataMemory.serveShard, InitializedDataMemory.prepareToServeShards] using hy
      · rename_i hq
        refine ⟨(h.current.nodes q).idle, fun d' hcur => ?_⟩
        exact absurd (congrArg Prod.fst (Option.some.inj hcur)).symm hq
    · rcases List.mem_append.1 hqm with hqm | hqm
      · have hqm := List.mem_of_mem_eraseIdx hqm
        obtain ⟨hbrings, hasks⟩ := orderly _ hqm
        refine ⟨(h.current.pool q m hqm).idle, fun a ha => ⟨d, ?_⟩, fun sid y hy => ?_,
          (h.current.pool q m hqm).unprepared⟩
        · rw [hasks a ha]
        · rw [Option.isNone_iff_eq_none.1 hbrings] at hy
          cases hy
      · obtain ⟨rfl, rfl⟩ := Prod.mk.inj (List.mem_singleton.1 hqm)
        refine ⟨trivial, fun a ha => ⟨d, ?_⟩, fun sid y hy => (by cases hy),
          fun _ h => (by cases h)⟩
        rw [← Option.some.inj (ha.symm.trans (if_pos rfl))]
    · intro a f hwaiting
      have hbefore : waiting (s.nodes a) (.serveShard f) ≠ [] := by
        rw [Actors.react_nodes] at hwaiting
        split at hwaiting
        · rename_i ha
          rw [ha]
          exact hwaiting
        · exact hwaiting
      refine (Actors.exists_deliver hi (h.waits a f hbefore)).resolve_left ?_
      simp [pending]
    · rintro a d' q sid - -
      exact .inr (.inr ⟨_, List.mem_append_right _ (List.mem_singleton.2 rfl), rfl⟩)

/-- **One act** keeps the invariant. -/
theorem Ordered.act {b : Act B} (h : S.Ordered C v P cur s)
    (hprogram : ∀ program, b ≠ .user (.scheduleProgram program))
    (hput : ∀ d, b = .user (.put v d) → P p d) (hr : S.act p c (s.nodes p) b = some x) :
    S.Ordered C v P cur (s.react p s.pool x) := by
  have haddressed : S.Addressed (s.react p s.pool x) :=
    h.addressed.react (fun e he => he) ((h.addressed.nodes p).act hr)
  obtain ⟨hp, e, rfl, rfl⟩ := (h.current.nodes p).idle.act_user hr
  have hnodes : ∀ q, ((s.react p s.pool (S.behave p c (s.nodes p)
      ((s.nodes p).processedRequests, Behaviour.handleUser e))).nodes q) = s.nodes q := fun q => by
    rw [Actors.react_nodes]
    split
    · rename_i hq
      rw [hq]
      rfl
    · rfl
  refine ⟨haddressed, ?_, fun a f hwaiting => ?_, fun a d q sid hcur hq => ?_⟩
  · refine h.current.react (fun e he => he) ((h.current.nodes p).behave fun a ha q m hqm => ?_)
    cases e with
    | scheduleProgram program => exact absurd rfl (hprogram program)
    | put u d =>
      obtain rfl := List.mem_singleton.1 ha
      obtain ⟨rfl, rfl⟩ := Prod.mk.inj (List.mem_singleton.1 hqm)
      refine ⟨trivial, fun _ h => (by cases h), fun _ _ h => (by cases h), fun d' hd => ?_⟩
      cases hd
      exact hput d rfl
    | _ =>
      obtain rfl := List.mem_singleton.1 ha
      obtain ⟨rfl, rfl⟩ := Prod.mk.inj (List.mem_singleton.1 hqm)
      exact .other trivial rfl rfl (fun _ h => by cases h)
  · rw [hnodes] at hwaiting
    obtain ⟨e, he, hpos⟩ := h.waits a f hwaiting
    exact ⟨e, List.mem_append_left _ he, hpos⟩
  · rw [hnodes, hnodes]
    refine (h.pulled a d q sid hcur hq).imp_right fun h => h.imp_right ?_
    rintro ⟨e, he, hpulls⟩
    exact ⟨e, List.mem_append_left _ he, hpulls⟩

end Step

/-! ## Runs -/

theorem ordered_init : S.Ordered C v P none (S.init : State B) where
  addressed := addressed_init
  current := by
    refine ⟨fun p => ⟨⟨rfl, rfl, rfl⟩, fun d h => (by cases h)⟩, ?_, fun _ _ _ => trivial⟩
    rintro p m h
    cases h
  waits _ _ h := absurd rfl h
  pulled _ _ _ _ h := by cases h

/-- In a run whose puts of `v` go in order, one of them is the current one, or all have yet to be
prepared. -/
theorem ordered_run (hw : S.encoding.inner.Implements C) (hB : 0 < B) (hb : S.Bijective)
    {as : List (Action B)} {s : State B} (noProgram : scheduled as = ∅) (run : S.Run as s)
    (orderly : Along S.step (S.Orderly v) S.init as) :
    ∃ cur, S.Ordered C v (fun p d => (p, v, d) ∈ puts as) cur s ∧
      (∀ a d, cur = some (a, d) → (a, v, d) ∈ puts as) ∧
      (cur = none → ∀ a d, (a, v, d) ∈ puts as →
        (a, .memoryIn (.prepareServiceRequest v d)) ∈ s.pool) := by
  have key : ∀ bs : List (Action B), scheduled bs = ∅ → (∀ b ∈ as, b ∈ bs) →
      ∃ cur, S.Ordered C v (fun p d => (p, v, d) ∈ puts bs) cur s ∧
        (∀ a d, cur = some (a, d) → (a, v, d) ∈ puts bs) ∧
        (cur = none → ∀ a d, (a, v, d) ∈ puts as →
          (a, .memoryIn (.prepareServiceRequest v d)) ∈ s.pool) := by
    intro bs noProgram hsub
    refine Trace.invariant_along (I := fun as s => (∀ b ∈ as, b ∈ bs) →
      ∃ cur, S.Ordered C v (fun p d => (p, v, d) ∈ puts bs) cur s ∧
        (∀ a d, cur = some (a, d) → (a, v, d) ∈ puts bs) ∧
        (cur = none → ∀ a d, (a, v, d) ∈ puts as →
          (a, .memoryIn (.prepareServiceRequest v d)) ∈ s.pool))
      (fun _ => ⟨none, ordered_init, fun _ _ h => (by cases h), fun _ _ _ h => (by cases h)⟩) ?_
      run orderly hsub
    intro as s b t ih hordered hs hsub
    obtain ⟨cur, h, hcur, hnone⟩ := ih fun b hb => hsub b (List.mem_append_left _ hb)
    have hputs : puts (as ++ [b]) = puts as ++ puts [b] := List.filterMap_append ..
    cases Actors.step_moves hs with
    | @delivered i c p m r hi hr =>
      by_cases hprepare : ∃ d, m = .memoryIn (.prepareServiceRequest v d)
      · obtain ⟨d, rfl⟩ := hprepare
        refine ⟨some (p, d), h.prepare hw hB hi hordered hr, fun a d' he => ?_,
          fun he => (by cases he)⟩
        cases he
        exact (h.current.pool p _ (List.mem_of_getElem? hi)).unprepared d rfl
      · refine ⟨cur, h.deliver hw hB hb hi hordered (fun d hd => hprepare ⟨d, hd⟩) hr, hcur,
          fun he a d hput => ?_⟩
        rw [hputs] at hput
        have hput : (a, v, d) ∈ puts as := (List.mem_append.1 hput).resolve_right (by simp [puts, putOf])
        refine List.mem_append_left _ (Actors.mem_eraseIdx_of_ne hi (hnone he a d hput) ?_)
        rintro he
        exact hprepare ⟨d, (Prod.mk.inj he).2.symm⟩
    | @acted p c b r hr =>
      have hmem : (.act p c b : Action B) ∈ bs := hsub _ (by simp)
      refine ⟨cur, h.act ?_ ?_ hr, hcur, fun he a d hput => ?_⟩
      · rintro program rfl
        have hscheduled : program ∈ scheduled bs := ⟨p, c, hmem⟩
        rw [noProgram] at hscheduled
        exact hscheduled
      · rintro d rfl
        exact List.mem_filterMap.2 ⟨_, hmem, rfl⟩
      · rw [hputs] at hput
        rcases List.mem_append.1 hput with hput | hput
        · exact List.mem_append_left _ (hnone he a d hput)
        · obtain ⟨b', hb', hof⟩ := List.mem_filterMap.1 hput
          obtain rfl := List.mem_singleton.1 hb'
          unfold putOf at hof
          split at hof
          · rename_i he
            cases he
            cases hof
            have hr : S.act p c (s.nodes p) (.user (.put v d)) = some r := hr
            obtain ⟨-, e, he, rfl⟩ := (h.current.nodes p).idle.act_user hr
            cases he
            exact List.mem_append_right _ (List.mem_singleton.2 rfl)
          · cases hof
  exact key as noProgram fun _ h => h

/-- **Overwriting**: in a network whose distribution is a bijection, where no program runs, and all
puts of `v` go in order, a network at rest holds at every peer its shard of one of the puts. -/
theorem overwriting_puts_converge (hw : S.encoding.inner.Implements C) (hB : 0 < B)
    (hb : S.Bijective) {as : List (Action B)} {s : State B} (noProgram : scheduled as = ∅)
    (run : S.Run as s) (orderly : Along S.step (S.Orderly v) S.init as) (rest : s.pool = [])
    (isPut : v ∈ putVids as) :
    ∃ a d shards, (a, v, d) ∈ puts as ∧ S.encoding.encode d = .ok shards ∧
      ∀ q sid, S.Assigned q sid →
        ∃ x, (s.nodes q).tile.memory.getShard (v, sid) = some x ∧ shards.lookup sid = some x := by
  obtain ⟨cur, h, hcur, hnone⟩ := ordered_run hw hB hb noProgram run orderly
  rcases cur with _ | ⟨a, d⟩
  · obtain ⟨⟨a, u, d⟩, hput, rfl⟩ := List.mem_map.1 isPut
    have hmem := hnone rfl a d hput
    rw [rest] at hmem
    cases hmem
  · refine ⟨a, d, codeword C d, hcur a d rfl, encode_eq hw hB d, fun q sid hq => ?_⟩
    have hsome : ((codeword C d).lookup sid).isSome :=
      Finmap.lookup_isSome.2 ((codeword_keys d sid).2 ((hb.sids sid).1 ⟨q, hq⟩))
    obtain ⟨x, hx⟩ := Option.isSome_iff_exists.1 hsome
    rcases h.pulled a d q sid rfl hq with hheld | hwaiting | ⟨e, he, -⟩
    · exact ⟨x, hheld.trans hx, hx⟩
    · obtain ⟨e, he, -⟩ := h.waits a _ hwaiting
      rw [rest] at he
      cases he
    · rw [rest] at he
      cases he

open InitializedDataMemory (samplePeer)

/-- Peer 0 puts address 0; when all is handled, peer 1 puts it again, and the confirmations are
the last to be handled. -/
def putAgainSteps : List (Action 4) :=
  sampleUser 0 (.put ⟨0⟩ ⟨fun _ => 1⟩) :: List.replicate 47 (sampleDeliver 0) ++
    sampleUser 1 (.put ⟨0⟩ ⟨fun _ => 2⟩) :: List.replicate 9 (sampleDeliver 0) ++
    List.replicate 11 (sampleDeliver 1) ++ List.replicate 30 (sampleDeliver 0)

theorem overwriting_puts_converge_again :
    ∃ s, runAll sample.step sample.init putAgainSteps = some s ∧
      ∃ a d shards, (a, ⟨0⟩, d) ∈ puts putAgainSteps ∧ sample.encoding.encode d = .ok shards ∧
        ∀ q sid, sample.Assigned q sid → ∃ x,
          (s.nodes q).tile.memory.getShard (⟨0⟩, sid) = some x ∧ shards.lookup sid = some x := by
  obtain ⟨s, run, rest⟩ : ∃ s, runAll sample.step sample.init putAgainSteps = some s ∧
      s.pool = [] := ⟨_, rfl, rfl⟩
  exact ⟨s, run, overwriting_puts_converge OneParity.coder_implements (by decide) sample_bijective
    (by simp [putAgainSteps, scheduled, sampleUser, sampleDeliver]) (Trace.of_runAll run)
    (by decide +kernel) rest (by decide)⟩

/-- Peer 0 puts address 0; when all is handled, it puts it again. -/
def putTwiceSteps : List (Action 4) :=
  sampleUser 0 (.put ⟨0⟩ ⟨fun _ => 1⟩) :: List.replicate 47 (sampleDeliver 0) ++
    sampleUser 0 (.put ⟨0⟩ ⟨fun _ => 2⟩) :: List.replicate 30 (sampleDeliver 0)

/-- The first confirmation of the second put ends its distribution: all shards are located since
the first put. Peer 0 keeps a shard of the second put, peers 1 and 2 of the first. -/
theorem second_put_is_mixed :
    ∃ s, sample.Run putTwiceSteps s ∧ s.pool = [] ∧
      ¬ ∃ a d shards, (a, ⟨0⟩, d) ∈ puts putTwiceSteps ∧ sample.encoding.encode d = .ok shards ∧
        ∀ q sid, sample.Assigned q sid → ∃ x,
          (s.nodes q).tile.memory.getShard (⟨0⟩, sid) = some x ∧ shards.lookup sid = some x := by
  obtain ⟨s, run, rest, h0, h1⟩ : ∃ s, runAll sample.step sample.init putTwiceSteps = some s ∧
      s.pool = [] ∧
      (s.nodes (samplePeer 0)).tile.memory.getShard (⟨0⟩, ⟨0⟩) = some ⟨fun _ => 2⟩ ∧
      (s.nodes (samplePeer 1)).tile.memory.getShard (⟨0⟩, ⟨1⟩) = some ⟨fun _ => 1⟩ :=
    ⟨_, rfl, rfl, by decide +kernel, by decide +kernel⟩
  refine ⟨s, Trace.of_runAll run, rest, ?_⟩
  rintro ⟨a, d, shards, hput, hencode, h⟩
  obtain ⟨x, hx, hl⟩ := h (samplePeer 0) ⟨0⟩ (sample_assigned.2 (.inl ⟨rfl, rfl⟩))
  obtain ⟨y, hy, hl'⟩ := h (samplePeer 1) ⟨1⟩
    (sample_assigned.2 (.inr (.inl ⟨rfl, rfl⟩)))
  rw [h0] at hx
  rw [h1] at hy
  cases hx
  cases hy
  have hputs : d = ⟨fun _ => 1⟩ ∨ d = ⟨fun _ => 2⟩ := by
    have hmem : (a, (⟨0⟩ : Vid), d) ∈ [(samplePeer 0, (⟨0⟩ : Vid), (⟨fun _ => 1⟩ : Data 4)),
      (samplePeer 0, ⟨0⟩, ⟨fun _ => 2⟩)] := hput
    simp only [List.mem_cons, Prod.mk.injEq, List.not_mem_nil, or_false] at hmem
    exact hmem.imp (fun h => h.2.2) fun h => h.2.2
  have hcode : sample.encoding.encode d = .ok (codeword (w := sample.encoding) OneParity.code d) :=
    encode_eq OneParity.coder_implements (by decide) d
  rw [hcode] at hencode
  cases hencode
  rcases hputs with rfl | rfl
  · exact absurd hl (by decide +kernel)
  · exact absurd hl' (by decide +kernel)

end Setup

end Swarm.Network
