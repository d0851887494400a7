import Swarm.Network.Puts

/-!
# Distributing a put

Every put is one token for each shard and each peer: it travels as the request
to store the shard, as the shard itself and as its confirmation, and ends when
the peer knows where the shard is. Nothing creates or drops a token but a put,
so a network at rest has told every peer about every shard.
-/

namespace Swarm.Network

open Swarm.DataMemory Swarm.Processor Swarm.Consensus Swarm.Encoding Swarm.Node
open Swarm.Behaviour (Request Response ProcessedRequests Send)
open Actors (weigh tally)

variable {B : Nat}

namespace Setup

variable (S : Setup)

def dataShardsTotal : Nat := S.encoding.settings.dataShardsTotal

/-- The distribution is a bijection from the peers to the shard ids. -/
structure Bijective : Prop where
  nodup : S.peers.Nodup
  peers : ∀ p, p ∈ S.peers ↔ ∃ s, S.Assigned p s
  injective : ∀ p q s, S.Assigned p s → S.Assigned q s → p = q
  sids : ∀ s : Sid, (∃ p, S.Assigned p s) ↔ s.val < S.dataShardsTotal

/-! ## Tokens -/

/-- The tokens of shard `f`, assigned to peer `q`, that are on their way to peer `r`. -/
def weight (f : FullShardId) (q r : PeerId) : PeerId × Message B → Nat
  | (_, .memoryIn (.prepareServiceRequest v _)) => if v = f.1 then 1 else 0
  | (_, .memoryOut (.preparedServiceResponse v)) => if v = f.1 then 1 else 0
  | (p, .recognized _ (.storageRequest v) _) => if p = q ∧ v = f.1 then 1 else 0
  | (p, .memoryIn (.storageRequestTx v _)) => if p = q ∧ v = f.1 then 1 else 0
  | (_, .memoryOut (.serveShardRequest g _)) => if g = f then 1 else 0
  | (_, .request _ (.serveShard g)) => if g = f then 1 else 0
  | (_, .memoryIn (.serveShardRequest g)) => if g = f then 1 else 0
  | (_, .memoryOut (.serveShardResponse g _)) => if g = f then 1 else 0
  | (_, .response (.serveShard g) _) => if g = f then 1 else 0
  | (_, .memoryIn (.serveShardResponse g _)) => if g = f then 1 else 0
  | (_, .memoryOut (.assignedStoreSuccess g)) => if g = f then 1 else 0
  | (p, .recognized _ (.stored v s) _) => if p = r ∧ (v, s) = f then 1 else 0
  | (p, .memoryIn (.storeConfirmed g _)) => if p = r ∧ g = f then 1 else 0
  | _ => 0

/-- The tokens of shard `f` in a transaction on its way to every peer. -/
def txWeight (f : FullShardId) : Transaction → Nat
  | .storageRequest v => if v = f.1 then 1 else 0
  | .stored v s => if (v, s) = f then 1 else 0
  | _ => 0

/-- The tokens that end with event `e` at peer `p`. -/
def arrives (f : FullShardId) (r p : PeerId) : DataMemory.InEvent B → Nat
  | .storeConfirmed g _ => if p = r ∧ g = f then 1 else 0
  | _ => 0

/-- The token that has arrived. -/
def located (f : FullShardId) (m : InitializedDataMemory B) : Nat :=
  if f.2 ∈ m.knownSids f.1 then 1 else 0

variable {S} {C : MdsCode UInt8 dataShardsCount S.encoding.inner.totalShardCount}
  {D : Vid → Option (PeerId × Data B)} {f : FullShardId} {p q r : PeerId} {c : Choice}
  {node : Node B} {m m' : InitializedDataMemory B} {order : HashOrder} {e : DataMemory.InEvent B}
  {out : List (DataMemory.OutEvent B)}

theorem Bijective.assigned_iff (hb : S.Bijective) {s : Sid} (hq : S.Assigned q f.2)
    (hp : S.Assigned p s) : s = f.2 ↔ p = q := by
  constructor
  · rintro rfl
    exact hb.injective _ _ _ hp hq
  · rintro rfl
    exact Option.some.inj (hp.symm.trans hq)

/-- The memory passes the token of an event on, unless it has arrived. -/
theorem weigh_out (hb : S.Bijective) (ha : S.MemoryAddressed p m)
    (hm : S.MessageHonest C D p (.memoryIn e)) (hserve : Serves p m e) (hq : S.Assigned q f.2)
    (hh : m.handle order e = .next m' out) :
    weigh (fun o => weight f q r (p, .memoryOut o)) out + arrives f r p e =
      weight f q r (p, .memoryIn e) := by
  have hemits := InitializedDataMemory.handle_emits hh
  cases e with
  | prepareServiceRequest v d =>
    simp only [InitializedDataMemory.handle, InitializedDataMemory.handlePrepareServiceRequest] at hh
    split at hh <;> cases hh
    rfl
  | storageRequestTx v author =>
    simp only [InitializedDataMemory.handle, InitializedDataMemory.handleStorageRequestTx] at hh
    cases hs : m.assignedShardId with
    | none =>
      simp only [hs] at hh
      cases hh
      have hne : p ≠ q := by
        rintro rfl
        have hp := ha.assignedShardId.symm.trans hs
        rw [hq] at hp
        cases hp
      simp [weight, arrives, hne]
    | some s =>
      have hpair : ((v, s) = f) ↔ (p = q ∧ v = f.1) := by
        rw [← hb.assigned_iff hq (ha.assignedShardId.symm.trans hs), and_comm, Prod.ext_iff]
      simp only [hs] at hh
      split at hh
      · rename_i hauthor
        obtain ⟨x, hx⟩ := Option.isSome_iff_exists.1 (hserve (hauthor.trans ha.localId) s hs)
        rw [hx] at hh
        cases hh
        simp [weight, arrives, hpair]
      · cases hh
        simp [weight, arrives, hpair]
  | serveShardRequest g => cases hh; rfl
  | serveShardResponse g shard =>
    obtain ⟨x, rfl, -⟩ := hm
    cases hh
    rfl
  | _ =>
    rw [Actors.weigh_eq_zero fun o ho => ?_, Nat.zero_add]
    · rfl
    · have hemit := hemits o ho
      cases o with
      | preparedServiceResponse v => obtain ⟨d, hd⟩ := hemit; cases hd
      | serveShardRequest g x => cases hemit.1
      | serveShardResponse g x => cases hemit.1
      | assignedStoreSuccess g => obtain ⟨x, hx⟩ := hemit; cases hx
      | _ => rfl

theorem located_handle (hm : S.MessageHonest C D p (.memoryIn e))
    (hfresh : ∀ x, e = .storeConfirmed f x → f.2 ∉ m.knownSids f.1)
    (hh : m.handle order e = .next m' out) :
    located f m' = located f m + arrives f p p e := by
  have hknown := InitializedDataMemory.knownSids_turn (i := .event order e) hh f.1
  cases e with
  | peerShardsActualized peer ids => exact hm.elim
  | storeConfirmed g x =>
    by_cases hg : g = f
    · subst hg
      rw [located, located, if_neg (hfresh x rfl), hknown]
      simp [arrives, Input.reports]
    · have hne : g.1 = f.1 → f.2 ≠ g.2 := fun hv hs => hg (Prod.ext hv hs.symm)
      rw [located, located, hknown]
      by_cases hv : g.1 = f.1
      · simp [arrives, Input.reports, hg, hv, hne hv]
      · simp [arrives, Input.reports, hg, hv]
  | _ =>
    rw [located, located, hknown]
    simp [arrives, Input.reports]

/-- **One event of the memory** keeps the tokens of a shard. -/
theorem weight_handle (hb : S.Bijective) (ha : S.MemoryAddressed p m)
    (hm : S.MessageHonest C D p (.memoryIn e)) (hserve : Serves p m e) (hq : S.Assigned q f.2)
    (hfresh : ∀ x, e = .storeConfirmed f x → p = r → f.2 ∉ m.knownSids f.1)
    (hh : m.handle order e = .next m' out) :
    weigh (fun o => weight f q r (p, .memoryOut o)) out + (if p = r then located f m' else 0) =
      weight f q r (p, .memoryIn e) + (if p = r then located f m else 0) := by
  have hout := weigh_out (r := r) hb ha hm hserve hq hh
  by_cases hp : p = r
  · subst hp
    rw [if_pos rfl, if_pos rfl, located_handle hm (fun x hx => hfresh x hx rfl) hh]
    omega
  · have harrives : arrives f r p e = 0 := by
      cases e with
      | storeConfirmed g x => simp [arrives, hp]
      | _ => rfl
    rw [if_neg hp, if_neg hp]
    omega

/-! ## Tokens in the network -/

theorem weigh_scheduleTx (hb : S.Bijective) (hq : S.Assigned q f.2) (hr : r ∈ S.peers)
    (tx : Transaction) :
    weigh (weight f q r) (S.dispatch (B := B) p c (.scheduleTx tx)) = txWeight f tx := by
  cases tx with
  | storageRequest v =>
    refine Actors.weigh_broadcast hb.nodup ((hb.peers q).2 ⟨_, hq⟩) fun p' => ?_
    simp only [weight, txWeight, ite_and]
  | stored v s =>
    refine Actors.weigh_broadcast hb.nodup hr fun p' => ?_
    simp only [weight, txWeight, ite_and]
  | _ =>
    refine Actors.weigh_eq_zero fun e he => ?_
    obtain ⟨p', -, rfl⟩ := List.mem_map.1 he
    rfl

theorem weigh_behave (w : PeerId × Message B → Nat) (x : ProcessedRequests × List (Send B)) :
    weigh w (S.behave p c node x).sent = weigh (fun a => weigh w (S.dispatch p c a)) x.2 := by
  rw [behave_sent]
  induction x.2 with
  | nil => rfl
  | cons a as ih => rw [List.flatMap_cons, Actors.weigh_append, Actors.weigh_cons, ih]

theorem weight_memoryOut (hb : S.Bijective) (hq : S.Assigned q f.2) (hr : r ∈ S.peers)
    {e : DataMemory.OutEvent B}
    (hwait : ∀ x, e = .serveShardResponse f x → (waiting node (.serveShard f)).length = 1) :
    weigh (weight f q r)
      (S.behave p c node (Behaviour.handleDataMemory node.processedRequests e)).sent =
      weight f q r (p, .memoryOut e) := by
  rw [weigh_behave]
  cases e with
  | preparedServiceResponse v | assignedStoreSuccess g =>
    simp only [Behaviour.handleDataMemory, Actors.weigh_cons, Actors.weigh_nil,
      weigh_scheduleTx hb hq hr, Nat.add_zero]
    rfl
  | serveShardResponse g shard =>
    simp only [Behaviour.handleDataMemory, Behaviour.answer]
    rw [Actors.weigh_map_const (w := fun a => weigh (weight f q r) (S.dispatch p c a))
      (n := if g = f then 1 else 0) fun b _ => Nat.add_zero _]
    by_cases hg : g = f
    · subst hg
      have hlen := hwait shard rfl
      rw [waiting] at hlen
      rw [hlen, Nat.one_mul]
      rfl
    · simp [weight, hg]
  | assignedResponse g shard =>
    simp only [Behaviour.handleDataMemory, Behaviour.answer]
    exact Actors.weigh_map_const (n := 0) fun b _ => rfl
  | _ => rfl

/-- **One reaction** keeps the tokens of a shard. -/
theorem weight_receive (hw : S.encoding.inner.Implements C) (hB : 0 < B) (hb : S.Bijective)
    (hq : S.Assigned q f.2) (hr : r ∈ S.peers) {m : Message B} {x : NodeReaction B}
    (hn : S.NodeAddressed p node) (hm : S.MessageHonest C D p m)
    (hserve : ∀ e, m = .memoryIn e → Serves p node.tile.memory e)
    (hfresh : ∀ y, m = .memoryIn (.storeConfirmed f y) → p = r →
      f.2 ∉ node.tile.memory.knownSids f.1)
    (hwait : ∀ y, m = .memoryOut (.serveShardResponse f y) →
      (waiting node (.serveShard f)).length = 1)
    (reaction : S.receive p c node m = some x) :
    weigh (weight f q r) x.sent + (if p = r then located f x.node.tile.memory else 0) =
      weight f q r (p, m) + (if p = r then located f node.tile.memory else 0) := by
  cases m with
  | memoryIn e =>
    obtain ⟨t, out, hmove, rfl⟩ := tileStep_moves reaction
    cases hmove with
    | @handled _ _ m' out running turn =>
      rw [← weight_handle hb hn.memory hm (hserve e rfl) hq (fun y hy => hfresh y (by rw [hy])) turn]
      simp only [weigh, List.map_map]
      rfl
    | ended running turn => exact absurd (MessageIdle.continues hw hB hn.memory hm.idle) turn
  | memoryOut e =>
    cases reaction
    rw [weight_memoryOut hb hq hr fun y hy => hwait y (by rw [hy])]
    rfl
  | instructionIn e | instructionOut e | processorIn e => exact hm.elim
  | processorOut id results => exact hm.elim
  | recognized author tx eventHash =>
    cases reaction
    rw [weigh_behave]
    cases tx with
    | execute program => exact hm.elim
    | executed id => exact hm.elim
    | _ => rfl
  | knownPeers peers =>
    cases reaction
    rw [weigh_behave]
    simp only [Behaviour.handleKnownPeers, Actors.weigh_cons, Actors.weigh_nil,
      weigh_scheduleTx hb hq hr]
    rfl
  | request origin request =>
    cases reaction
    rw [weigh_behave]
    cases request <;> rfl
  | response request response =>
    cases reaction
    rw [weigh_behave]
    cases request with
    | getShard g => cases response <;> rfl
    | serveShard g =>
      cases response with
      | getShard y => exact hm.elim
      | serveShard y => rfl

/-- The requests for shard `f` that peer `a` has yet to answer, on their way through its memory. -/
def pending (a : PeerId) (f : FullShardId) : PeerId × Message B → Nat
  | (p, .memoryIn (.serveShardRequest g)) => if p = a ∧ g = f then 1 else 0
  | (p, .memoryOut (.serveShardResponse g _)) => if p = a ∧ g = f then 1 else 0
  | _ => 0

theorem pending_le_weight (a : PeerId) (e : PeerId × Message B) :
    pending a f e ≤ weight f q r e := by
  unfold pending
  split
  · rw [ite_and]
    split
    · exact le_rfl
    · exact Nat.zero_le _
  · rw [ite_and]
    split
    · exact le_rfl
    · exact Nat.zero_le _
  · exact Nat.zero_le _

theorem pending_handle (a : PeerId) (hh : m.handle order e = .next m' out) :
    weigh (fun o => pending a f (p, .memoryOut o)) out = pending a f (p, .memoryIn e) := by
  have hemits := InitializedDataMemory.handle_emits hh
  cases e with
  | serveShardRequest g => cases hh; rfl
  | _ =>
    refine Actors.weigh_eq_zero fun o ho => ?_
    have hemit := hemits o ho
    cases o with
    | serveShardResponse g x => cases hemit.1
    | _ => rfl

theorem pending_scheduleTx (a : PeerId) (tx : Transaction) :
    weigh (pending a f) (S.dispatch (B := B) p c (.scheduleTx tx)) = 0 := by
  refine Actors.weigh_eq_zero fun e he => ?_
  obtain ⟨p', -, rfl⟩ := List.mem_map.1 he
  rfl

theorem waiting_answer (request request' : Request) (response : Response B) :
    waiting (S.behave p c node (Behaviour.answer node.processedRequests request response)).node
      request' = if request' = request then [] else waiting node request' := by
  simp only [waiting, behave_processedRequests, Behaviour.answer, Finmap.lookup_erase_ite]
  split <;> rfl

theorem waiting_request (origin : PeerId) (request request' : Request) :
    waiting (S.behave (B := B) p c node
      (Behaviour.handleIncomingRequest node.processedRequests origin request)).node request' =
      if request' = request then waiting node request ++ [origin] else waiting node request' := by
  simp only [waiting, behave_processedRequests, Behaviour.handleIncomingRequest,
    Finmap.lookup_insert_ite]
  split <;> rfl

/-- One reaction of the peer `a` keeps its requests, unless it answers one. -/
theorem pending_receive (hw : S.encoding.inner.Implements C) (hB : 0 < B) {a : PeerId}
    {m : Message B} {x : NodeReaction B} (hn : S.NodeAddressed p node)
    (hm : S.MessageHonest C D p m)
    (hwait : ∀ y, m = .memoryOut (.serveShardResponse f y) →
      (waiting node (.serveShard f)).length = 1)
    (reaction : S.receive p c node m = some x) :
    weigh (pending a f) x.sent + (if p = a then (waiting node (.serveShard f)).length else 0) =
      pending a f (p, m) + (if p = a then (waiting x.node (.serveShard f)).length else 0) := by
  have hsame : ∀ {y : NodeReaction B}, weigh (pending a f) y.sent = pending a f (p, m) →
      waiting y.node (.serveShard f) = waiting node (.serveShard f) →
      weigh (pending a f) y.sent + (if p = a then (waiting node (.serveShard f)).length else 0) =
      pending a f (p, m) + (if p = a then (waiting y.node (.serveShard f)).length else 0) := by
    intro y hy hp
    rw [hy, hp]
  cases m with
  | memoryIn e =>
    obtain ⟨t, out, hmove, rfl⟩ := tileStep_moves reaction
    cases hmove with
    | handled running turn =>
      refine hsame ?_ rfl
      rw [← pending_handle a turn]
      simp only [weigh, List.map_map]
      rfl
    | ended running turn => exact absurd (MessageIdle.continues hw hB hn.memory hm.idle) turn
  | memoryOut e =>
    cases reaction
    cases e with
    | serveShardResponse g y =>
      have hsent : weigh (pending a f) (S.behave p c node (Behaviour.handleDataMemory
          node.processedRequests (.serveShardResponse g y))).sent = 0 := by
        rw [weigh_behave]
        refine Actors.weigh_eq_zero fun b hb => ?_
        obtain ⟨q', -, rfl⟩ := mem_answer hb
        rfl
      rw [hsent, Behaviour.handleDataMemory, waiting_answer]
      by_cases hg : g = f
      · subst hg
        rw [hwait y rfl]
        simp [pending]
      · rw [if_neg fun h => hg (Request.serveShard.inj h).symm]
        simp [pending, hg]
    | assignedResponse g y =>
      refine hsame ?_ (by rw [Behaviour.handleDataMemory, waiting_answer, if_neg (by simp)])
      rw [weigh_behave]
      refine Actors.weigh_eq_zero fun b hb => ?_
      obtain ⟨q', -, rfl⟩ := mem_answer hb
      rfl
    | preparedServiceResponse v | assignedStoreSuccess g =>
      refine hsame ?_ rfl
      simp only [weigh_behave, Behaviour.handleDataMemory, Actors.weigh_cons, pending_scheduleTx]
      rfl
    | _ => exact hsame rfl rfl
  | instructionIn e | instructionOut e | processorIn e => exact hm.elim
  | processorOut id results => exact hm.elim
  | recognized author tx eventHash =>
    cases reaction
    refine hsame ?_ rfl
    cases tx <;> rfl
  | knownPeers peers =>
    cases reaction
    refine hsame ?_ rfl
    simp only [weigh_behave, Behaviour.handleKnownPeers, Actors.weigh_cons, pending_scheduleTx]
    rfl
  | request origin request =>
    cases reaction
    rw [waiting_request]
    cases request with
    | getShard g => rfl
    | serveShard g =>
      by_cases hg : g = f
      · subst hg
        by_cases hp : p = a
        · simp [weigh_behave, Behaviour.handleIncomingRequest, dispatch, pending, hp]
          omega
        · simp [weigh_behave, Behaviour.handleIncomingRequest, dispatch, pending, hp]
      · have hne : Request.serveShard f ≠ .serveShard g :=
          fun h => hg (Request.serveShard.inj h).symm
        simp [weigh_behave, Behaviour.handleIncomingRequest, dispatch, pending, hg, hne]
  | response request response =>
    cases reaction
    refine hsame ?_ rfl
    cases request <;> cases response <;> rfl

/-! ## Full distributions -/

/-- Every shard of `v` is located at peer `p` exactly if there are as many as in total. -/
theorem Bijective.card_knownSids (hb : S.Bijective) (ha : S.MemoryAddressed p m) (v : Vid) :
    (m.knownSids v).card ≤ S.dataShardsTotal ∧
      ((m.knownSids v).card = S.dataShardsTotal ↔ ∀ q s, S.Assigned q s → s ∈ m.knownSids v) := by
  have hcard : ((Finset.range S.dataShardsTotal).image Sid.mk).card = S.dataShardsTotal := by
    rw [Finset.card_image_of_injective _ fun _ _ h => Sid.mk.inj h, Finset.card_range]
  have hmem : ∀ s : Sid, s ∈ (Finset.range S.dataShardsTotal).image Sid.mk ↔
      ∃ q, S.Assigned q s := fun s => by
    rw [hb.sids, Finset.mem_image]
    constructor
    · rintro ⟨n, hn, rfl⟩
      exact Finset.mem_range.1 hn
    · exact fun hs => ⟨s.val, Finset.mem_range.2 hs, rfl⟩
  have hsub : m.knownSids v ⊆ (Finset.range S.dataShardsTotal).image Sid.mk := by
    intro s hs
    obtain ⟨q, hq⟩ := Option.isSome_iff_exists.1 (InitializedDataMemory.mem_knownSids.1 hs)
    exact (hmem s).2 ⟨q, ha.located _ _ hq⟩
  refine ⟨hcard ▸ Finset.card_le_card hsub, fun h q s hs => ?_, fun h => ?_⟩
  · rw [Finset.eq_of_subset_of_card_le hsub (by rw [hcard, h])]
    exact (hmem s).2 ⟨q, hs⟩
  · rw [← hcard]
    refine congrArg Finset.card (hsub.antisymm fun s hs => ?_)
    obtain ⟨q, hq⟩ := (hmem s).1 hs
    exact h q s hq

theorem MemoryAddressed.totalShards (ha : S.MemoryAddressed p m) :
    m.totalShards = S.dataShardsTotal := by
  rw [InitializedDataMemory.totalShards, ha.encoding, dataShardsTotal]

/-- The shards of `v` are all located before an event, or it completes them. -/
theorem completes_iff (hb : S.Bijective) (ha : S.MemoryAddressed p m) (ha' : S.MemoryAddressed p m')
    (hm : S.MessageHonest C D p (.memoryIn e)) {v : Vid}
    (hfresh : ∀ s x, e = .storeConfirmed (v, s) x → s ∉ m.knownSids v)
    (hh : m.handle order e = .next m' out) :
    ((m.knownSids v).card = S.dataShardsTotal ∨ m.Completes v (.event order e) ↔
      (m'.knownSids v).card = S.dataShardsTotal) ∧
    ¬ ((m.knownSids v).card = S.dataShardsTotal ∧ m.Completes v (.event order e)) := by
  have hknown := InitializedDataMemory.knownSids_turn (i := .event order e) hh v
  have hle := (hb.card_knownSids ha' v).1
  by_cases hc : ∃ s x, e = .storeConfirmed (v, s) x
  · obtain ⟨s, x, rfl⟩ := hc
    have hnew := hfresh s x rfl
    have hcard : (insert s (m.knownSids v)).card = (m.knownSids v).card + 1 :=
      Finset.card_insert_of_notMem hnew
    have hinsert : m'.knownSids v = insert s (m.knownSids v) := by
      rw [hknown]
      simp [Input.reports]
    have hcompletes : m.Completes v (.event order (.storeConfirmed (v, s) x)) ↔
        (insert s (m.knownSids v)).card = S.dataShardsTotal := by
      simp [InitializedDataMemory.Completes, Input.confirms, ha.totalShards]
    rw [hinsert] at hle ⊢
    rw [hcompletes]
    omega
  · have hno : ¬ m.Completes v (.event order e) := by
      rintro ⟨s, hs, -⟩
      cases e with
      | storeConfirmed g x =>
        simp only [Input.confirms] at hs
        split at hs
        · rename_i hv
          exact hc ⟨g.2, x, by rw [← hv]⟩
        · cases hs
      | _ => cases hs
    have hnone : (Input.event order e).reports m.distribution v = none := by
      cases e with
      | storeConfirmed g x =>
        simp only [Input.reports]
        exact if_neg fun hv => hc ⟨g.2, x, by rw [← hv]⟩
      | peerShardsActualized peer ids => exact hm.elim
      | _ => rfl
    rw [hknown, hnone, Option.toFinset_none, Finset.union_empty]
    exact ⟨or_iff_left hno, fun h => hno h.2⟩

/-- An event reports the full distribution if it completes it. -/
theorem reported_handle (hb : S.Bijective) (ha : S.MemoryAddressed p m)
    (ha' : S.MemoryAddressed p m') (hm : S.MessageHonest C D p (.memoryIn e)) {v : Vid}
    (hfresh : ∀ s x, e = .storeConfirmed (v, s) x → s ∉ m.knownSids v)
    (hh : m.handle order e = .next m' out) :
    (if (m.knownSids v).card = S.dataShardsTotal then 1 else 0) + out.count (.distributionFull v) =
      if (m'.knownSids v).card = S.dataShardsTotal then 1 else 0 := by
  obtain ⟨hiff, hnot⟩ := completes_iff hb ha ha' hm hfresh hh
  rcases InitializedDataMemory.count_distributionFull hh v with ⟨hc, hcount⟩ | ⟨hc, hcount⟩
  · rw [hcount, if_neg fun hfull => hnot ⟨hfull, hc⟩, if_pos (hiff.1 (.inr hc))]
  · rw [hcount, Nat.add_zero, if_congr ((or_iff_left hc).symm.trans hiff) rfl rfl]

/-- The event that completes a distribution ends it. -/
theorem cleared_handle (hb : S.Bijective) (ha : S.MemoryAddressed p m)
    (ha' : S.MemoryAddressed p m') (hm : S.MessageHonest C D p (.memoryIn e)) {v : Vid}
    (hfresh : ∀ s x, e = .storeConfirmed (v, s) x → s ∉ m.knownSids v)
    (hput : ∀ d, e = .prepareServiceRequest v d → (m.knownSids v).card ≠ S.dataShardsTotal)
    (hcleared : (m.knownSids v).card = S.dataShardsTotal → m.toDistribute.lookup v = none)
    (hh : m.handle order e = .next m' out) (hfull : (m'.knownSids v).card = S.dataShardsTotal) :
    m'.toDistribute.lookup v = none := by
  rcases (completes_iff hb ha ha' hm hfresh hh).1.2 hfull with hbefore | hc
  · exact InitializedDataMemory.toDistribute_handle hh (hcleared hbefore)
      fun d hd => hput d hd hbefore
  · exact InitializedDataMemory.toDistribute_completes hh hc

/-- The author serves every shard that it does not know to be stored. -/
theorem serving_handle (hw : S.encoding.inner.Implements C) (hB : 0 < B) (hb : S.Bijective)
    (ha : S.MemoryAddressed p m) (ha' : S.MemoryAddressed p m')
    (hm : S.MessageHonest C D p (.memoryIn e)) {v : Vid}
    (hfresh : ∀ s x, e = .storeConfirmed (v, s) x → s ∉ m.knownSids v)
    (hserving : (∃ d, e = .prepareServiceRequest v d) ∨ ∀ q sid, S.Assigned q sid →
      sid ∈ m.knownSids v ∨ (m.serveShard (v, sid)).isSome)
    (hh : m.handle order e = .next m' out) {sid : Sid} (hq : S.Assigned q sid) :
    sid ∈ m'.knownSids v ∨ (m'.serveShard (v, sid)).isSome := by
  by_cases hp : ∃ d, e = .prepareServiceRequest v d
  · obtain ⟨d, rfl⟩ := hp
    simp only [InitializedDataMemory.handle, InitializedDataMemory.handlePrepareServiceRequest,
      ha.encoding, encode_eq hw hB] at hh
    cases hh
    have hlt : sid.val < S.dataShardsTotal := (hb.sids sid).1 ⟨q, hq⟩
    refine .inr (Option.isSome_iff_exists.2 ⟨shardOf C d ⟨sid.val, hlt⟩, ?_⟩)
    simp only [InitializedDataMemory.serveShard, InitializedDataMemory.prepareToServeShards,
      Finmap.lookup_insert, Option.bind_some, lookup_codeword]
    exact dif_pos hlt
  · by_cases hc : m.Completes v (.event order e)
    · have hfull := (completes_iff hb ha ha' hm hfresh hh).1.1 (.inr hc)
      exact .inl ((hb.card_knownSids ha' v).2.1 hfull q sid hq)
    · have hprepares : ¬ (Input.event order e).Prepares v := by
        cases e with
        | prepareServiceRequest u d =>
          rintro rfl
          exact hp ⟨d, rfl⟩
        | _ => exact id
      have hknown := InitializedDataMemory.knownSids_turn (i := .event order e) hh v
      have hserve :=
        InitializedDataMemory.serveShard_turn (i := .event order e) hh hprepares hc sid
      rcases (hserving.resolve_left hp) q sid hq with hsid | hsid
      · exact .inl (hknown ▸ Finset.mem_union_left _ hsid)
      · by_cases hconf : (Input.event order e).confirms v = some sid
        · refine .inl (hknown ▸ Finset.mem_union_right _ ?_)
          rw [Input.confirms_reports hconf]
          simp
        · rw [if_neg hconf] at hserve
          exact .inr (hserve ▸ hsid)

/-! ## The invariant -/

/-- The author, the address and the data of a put. -/
def putOf : Action B → Option (PeerId × Vid × Data B)
  | .act p _ (.user (.put v d)) => some (p, v, d)
  | _ => none

/-- The puts of a run. -/
def puts (as : List (Action B)) : List (PeerId × Vid × Data B) := as.filterMap putOf

def putVids (as : List (Action B)) : List Vid := (puts as).map fun x => x.2.1

variable (S C D) in
/-- The state of a network in which the addresses `vs` have been put. -/
structure Distributing (vs : List Vid) (s : State B) : Prop where
  addressed : S.Addressed s
  honest : S.Honest C D s
  tokens : ∀ f a d q r, D f.1 = some (a, d) → S.Assigned q f.2 → r ∈ S.peers →
    tally (weight f q r) r (fun node => located f node.tile.memory) s = vs.count f.1
  pending : ∀ f a d, D f.1 = some (a, d) →
    weigh (pending a f) s.pool = (waiting (s.nodes a) (.serveShard f)).length
  serving : ∀ v a d, D v = some (a, d) → vs.count v = 0 ∨
    (a, .memoryIn (.prepareServiceRequest v d)) ∈ s.pool ∨
    ∀ q sid, S.Assigned q sid → sid ∈ (s.nodes a).tile.memory.knownSids v ∨
      ((s.nodes a).tile.memory.serveShard (v, sid)).isSome
  reported : ∀ v a d r, D v = some (a, d) → r ∈ S.peers →
    s.log.count (r, .memory (.distributionFull v)) =
      if ((s.nodes r).tile.memory.knownSids v).card = S.dataShardsTotal then 1 else 0
  cleared : ∀ v a d, D v = some (a, d) →
    ((s.nodes a).tile.memory.knownSids v).card = S.dataShardsTotal →
    (s.nodes a).tile.memory.toDistribute.lookup v = none

section Step

variable {vs : List Vid} {s s' : State B} {i : Nat} {a : PeerId} {d : Data B} {m : Message B}

/-- A token on its way is the only one. -/
theorem Distributing.alone (h : S.Distributing C D vs s) (hle : vs.count f.1 ≤ 1)
    (hD : D f.1 = some (a, d)) (hq : S.Assigned q f.2) (hr : r ∈ S.peers)
    (hi : s.pool[i]? = some (p, m)) (hpos : 0 < weight f q r (p, m)) :
    vs.count f.1 = 1 ∧ f.2 ∉ (s.nodes r).tile.memory.knownSids f.1 ∧
      weigh (weight f q r) (s.pool.eraseIdx i) = 0 := by
  have htokens := h.tokens f a d q r hD hq hr
  have hpool := Actors.weigh_eraseIdx (w := weight f q r) hi
  simp only [tally, located] at htokens
  split at htokens
  · omega
  · rename_i hnew
    exact ⟨by omega, hnew, by omega⟩

/-- The author of a put serves a shard whose token is on its way, once the put is prepared. -/
theorem Distributing.served (h : S.Distributing C D vs s) (hle : vs.count f.1 ≤ 1)
    (hD : D f.1 = some (a, d)) (hq : S.Assigned q f.2) (ha : a ∈ S.peers)
    (hi : s.pool[i]? = some (p, m)) (hpos : 0 < weight f q a (p, m))
    (hne : m ≠ .memoryIn (.prepareServiceRequest f.1 d)) :
    ((s.nodes a).tile.memory.serveShard f).isSome := by
  obtain ⟨hcount, hnew, hrest⟩ := h.alone hle hD hq ha hi hpos
  rcases h.serving f.1 a d hD with hzero | hprepare | hserved
  · omega
  · have hmem := Actors.mem_eraseIdx_of_ne hi hprepare fun he => hne (Prod.mk.inj he).2.symm
    have := Actors.le_weigh (w := weight f q a) hmem
    simp [weight, hrest] at this
  · exact (hserved q f.2 hq).resolve_left hnew

theorem Distributing.serves (h : S.Distributing C D vs s) (hle : ∀ v, vs.count v ≤ 1)
    (hauthors : ∀ v a d, D v = some (a, d) → a ∈ S.peers) {e : DataMemory.InEvent B}
    (hi : s.pool[i]? = some (p, .memoryIn e)) : Serves p (s.nodes p).tile.memory e := by
  have hm := h.honest.pool p _ (List.mem_of_getElem? hi)
  cases e with
  | serveShardRequest g =>
    obtain ⟨⟨d, hD⟩, q, hq⟩ := hm
    exact h.served (hle _) hD hq (hauthors _ _ _ hD) hi (by simp [weight]) (by simp)
  | storageRequestTx v author =>
    rintro rfl sid hsid
    obtain ⟨d, hD⟩ := hm
    have hq : S.Assigned author sid :=
      (h.addressed.nodes author).memory.assignedShardId.symm.trans hsid
    exact h.served (f := (v, sid)) (hle _) hD hq (hauthors _ _ _ hD) hi (by simp [weight]) (by simp)
  | _ => trivial

/-- A confirmation tells its receiver of a new shard. -/
theorem Distributing.fresh (h : S.Distributing C D vs s) (hle : ∀ v, vs.count v ≤ 1)
    (hr : r ∈ S.peers) {x : PeerId} (hi : s.pool[i]? = some (r, .memoryIn (.storeConfirmed f x))) :
    f.2 ∉ (s.nodes r).tile.memory.knownSids f.1 := by
  have hmem := List.mem_of_getElem? hi
  obtain ⟨⟨a, d⟩, hD⟩ := Option.isSome_iff_exists.1 (h.honest.pool _ _ hmem)
  exact (h.alone (hle _) hD (h.addressed.pool _ _ hmem) hr hi (by simp [weight])).2.1

/-- A shard is served to the one peer that waits for it. -/
theorem Distributing.waits (h : S.Distributing C D vs s) (hle : ∀ v, vs.count v ≤ 1)
    (hauthors : ∀ v a d, D v = some (a, d) → a ∈ S.peers) {y : Option (Shard B)}
    (hi : s.pool[i]? = some (p, .memoryOut (.serveShardResponse f y))) :
    (waiting (s.nodes p) (.serveShard f)).length = 1 := by
  have hmem := List.mem_of_getElem? hi
  obtain ⟨⟨⟨d, hD⟩, q, hq⟩, -⟩ := h.honest.pool _ _ hmem
  have htokens := h.tokens f p d q p hD hq (hauthors _ _ _ hD)
  have hpending := h.pending f p d hD
  have hone := Actors.le_weigh (w := Setup.pending p f) hmem
  have hle' := Actors.weigh_mono (l := s.pool) fun e _ =>
    pending_le_weight (f := f) (q := q) (r := p) p e
  have hcount := hle f.1
  simp only [Setup.pending, and_self, if_true] at hone
  unfold tally at htokens
  omega

/-- A delivery is an event of the memory of peer `r`, or does not touch it. -/
theorem Distributing.memory_deliver (hw : S.encoding.inner.Implements C) (hB : 0 < B)
    (h : S.Distributing C D vs s) {x : NodeReaction B} (hi : s.pool[i]? = some (p, m))
    (reaction : S.receive p c (s.nodes p) m = some x) (r : PeerId) :
    (∃ e out, p = r ∧ m = .memoryIn e ∧ (s.nodes r).tile.memory.handle c.order e =
        .next ((s.react p (s.pool.eraseIdx i) x).nodes r).tile.memory out ∧
      ∀ v, (s.react p (s.pool.eraseIdx i) x).log.count (r, .memory (.distributionFull v)) =
        s.log.count (r, .memory (.distributionFull v)) + out.count (.distributionFull v)) ∨
    ((∀ e, (p, m) ≠ (r, .memoryIn e)) ∧
      ((s.react p (s.pool.eraseIdx i) x).nodes r).tile.memory = (s.nodes r).tile.memory ∧
      ∀ v, (s.react p (s.pool.eraseIdx i) x).log.count (r, .memory (.distributionFull v)) =
        s.log.count (r, .memory (.distributionFull v))) := by
  simp only [Actors.react_log, List.count_append]
  by_cases hr : p = r
  · subst hr
    rw [Actors.react_nodes_self]
    have hidle := (h.honest.pool p m (List.mem_of_getElem? hi)).idle
    rcases hidle.receive hw hB (h.addressed.nodes p) reaction with
      ⟨e, out, hm, hh, -, hout⟩ | ⟨hne, hmemory, hout⟩
    · refine .inl ⟨e, out, rfl, hm, hh, fun v => ?_⟩
      rw [hout, List.map_map]
      exact congrArg _ (List.count_map_of_injective out _
        (fun o o' ho => Output.memory.inj (Prod.mk.inj ho).2) (.distributionFull v))
    · refine .inr ⟨fun e he => hne e (Prod.mk.inj he).2, hmemory, fun v => ?_⟩
      refine Nat.add_eq_left.2 (List.count_eq_zero.2 fun ho => ?_)
      obtain ⟨o, ho, he⟩ := List.mem_map.1 ho
      exact hout _ ((Prod.mk.inj he).2 ▸ ho)
  · refine .inr ⟨fun e he => hr (Prod.mk.inj he).1,
      by rw [Actors.react_nodes_of_ne (Ne.symm hr)], fun v => ?_⟩
    refine Nat.add_eq_left.2 (List.count_eq_zero.2 fun ho => ?_)
    obtain ⟨o, -, he⟩ := List.mem_map.1 ho
    exact hr (Prod.mk.inj he).1

/-- **One delivery** keeps the invariant. -/
theorem Distributing.deliver (hw : S.encoding.inner.Implements C) (hB : 0 < B)
    (hb : S.Bijective) (h : S.Distributing C D vs s) (hle : ∀ v, vs.count v ≤ 1)
    (hauthors : ∀ v a d, D v = some (a, d) → a ∈ S.peers) {x : NodeReaction B}
    (hi : s.pool[i]? = some (p, m)) (reaction : S.receive p c (s.nodes p) m = some x) :
    S.Distributing C D vs (s.react p (s.pool.eraseIdx i) x) := by
  have hmem := List.mem_of_getElem? hi
  have hn := h.addressed.nodes p
  have hm := h.honest.pool p m hmem
  have hserve : ∀ e, m = .memoryIn e → Serves p (s.nodes p).tile.memory e := fun e he =>
    h.serves hle hauthors (by rw [hi, he])
  have hwait : ∀ f y, m = .memoryOut (.serveShardResponse f y) →
      (waiting (s.nodes p) (.serveShard f)).length = 1 := fun f y he =>
    h.waits hle hauthors (by rw [hi, he])
  have haddressed : S.Addressed (s.react p (s.pool.eraseIdx i) x) :=
    h.addressed.react (fun e he => List.mem_of_mem_eraseIdx he)
      (hn.receive (h.addressed.pool p m hmem) reaction)
  have hmemory := h.memory_deliver hw hB hi reaction
  have hfresh : ∀ v, p ∈ S.peers → ∀ e, m = .memoryIn e → ∀ s' x,
      e = .storeConfirmed (v, s') x → s' ∉ (s.nodes p).tile.memory.knownSids v := by
    rintro v hp e rfl s' x rfl
    exact h.fresh (f := (v, s')) hle hp hi
  refine ⟨haddressed, ?_, ?_, ?_, ?_, ?_, ?_⟩
  · exact h.honest.react (fun e he => List.mem_of_mem_eraseIdx he)
      ((h.honest.nodes p).receive hw hB hn (h.addressed.pool p m hmem) hm hserve reaction)
  · intro f a d q r hD hq hr
    rw [Actors.tally_deliver hi, h.tokens f a d q r hD hq hr]
    refine weight_receive hw hB hb hq hr hn hm hserve ?_ (hwait f) reaction
    rintro y rfl rfl
    exact h.fresh hle hr hi
  · intro f a d hD
    have hpool := Actors.weigh_eraseIdx (w := Setup.pending a f) hi
    have hsum := h.pending f a d hD
    have hlaw := pending_receive hw hB (a := a) hn hm (hwait f) reaction
    rw [Actors.react_pool, Actors.weigh_append, Actors.react_nodes]
    by_cases hp : a = p
    · subst hp
      simp only [if_true] at hlaw ⊢
      omega
    · rw [if_neg (Ne.symm hp), if_neg (Ne.symm hp)] at hlaw
      rw [if_neg hp]
      omega
  · intro v a d hD
    rcases hmemory a with ⟨e, out, rfl, rfl, hh, -⟩ | ⟨hne, hsame, -⟩
    · rcases h.serving v p d hD with hzero | hprepare | hserving
      · exact .inl hzero
      · by_cases he : e = .prepareServiceRequest v d
        · exact .inr (.inr fun q sid hq => serving_handle hw hB hb hn.memory
            (haddressed.nodes p).memory hm (hfresh v (hauthors v p d hD) e rfl) (.inl ⟨d, he⟩) hh hq)
        · refine .inr (.inl (List.mem_append_left _ (Actors.mem_eraseIdx_of_ne hi hprepare ?_)))
          exact fun h => he (Message.memoryIn.inj (Prod.mk.inj h).2).symm
      · exact .inr (.inr fun q sid hq => serving_handle hw hB hb hn.memory
          (haddressed.nodes p).memory hm (hfresh v (hauthors v p d hD) e rfl) (.inr hserving) hh hq)
    · rw [hsame]
      refine (h.serving v a d hD).imp_right fun hserving => hserving.imp_left fun hprepare => ?_
      exact List.mem_append_left _ (Actors.mem_eraseIdx_of_ne hi hprepare fun he => hne _ he.symm)
  · intro v a d r hD hr
    rcases hmemory r with ⟨e, out, rfl, rfl, hh, hcount⟩ | ⟨-, hsame, hcount⟩
    · rw [hcount, h.reported v a d p hD hr]
      exact reported_handle hb hn.memory (haddressed.nodes p).memory hm (hfresh v hr e rfl) hh
    · rw [hcount, hsame, h.reported v a d r hD hr]
  · intro v a d hD hfull
    rcases hmemory a with ⟨e, out, rfl, rfl, hh, -⟩ | ⟨-, hsame, -⟩
    · refine cleared_handle hb hn.memory (haddressed.nodes p).memory hm
        (hfresh v (hauthors v p d hD) e rfl) ?_ (h.cleared v p d hD) hh hfull
      rintro d' rfl hbefore
      obtain ⟨sid, hq⟩ := (hb.peers p).1 (hauthors v p d hD)
      exact (h.alone (f := (v, sid)) (hle v) hD hq (hauthors v p d hD) hi (by simp [weight])).2.1
        ((hb.card_knownSids hn.memory v).2.1 hbefore p sid hq)
    · rw [hsame] at hfull ⊢
      exact h.cleared v a d hD hfull

/-- The tokens of a request of the user are those of its put. -/
theorem weight_user (hb : S.Bijective) (hq : S.Assigned q f.2) (hr : r ∈ S.peers)
    (e : Behaviour.InEvent B) :
    weigh (weight f q r) (S.behave p c node (node.processedRequests, Behaviour.handleUser e)).sent =
      (putVids [.act p c (.user e)]).count f.1 := by
  rw [weigh_behave]
  cases e with
  | put v d =>
    simp only [Behaviour.handleUser, dispatch, Actors.weigh_cons, Actors.weigh_nil, weight, putVids,
      puts, putOf, List.filterMap_cons, List.filterMap_nil, List.map_cons, List.map_nil,
      List.count_singleton, beq_iff_eq, Nat.add_zero]
  | scheduleProgram program =>
    simp only [Behaviour.handleUser, Actors.weigh_cons, weigh_scheduleTx hb hq hr]
    rfl
  | _ => rfl

/-- **One act** keeps the invariant. -/
theorem Distributing.act (hb : S.Bijective) (h : S.Distributing C D vs s) {b : Act B}
    {x : NodeReaction B} (hallowed : Allowed D p b) (reaction : S.act p c (s.nodes p) b = some x) :
    S.Distributing C D (vs ++ putVids [.act p c b]) (s.react p s.pool x) := by
  have haddressed : S.Addressed (s.react p s.pool x) :=
    h.addressed.react (fun e he => he) ((h.addressed.nodes p).act reaction)
  have hhonest := h.honest.react (fun e he => he) ((h.honest.nodes p).act hallowed reaction)
  obtain ⟨hp, e, rfl, rfl⟩ := (h.honest.nodes p).idle.act_user reaction
  have hmemory : ∀ r, ((s.react p s.pool (S.behave p c (s.nodes p)
      ((s.nodes p).processedRequests, Behaviour.handleUser e))).nodes r).tile.memory =
      (s.nodes r).tile.memory := fun r => by
    rw [Actors.react_nodes]
    split
    · rename_i hr
      rw [hr]
      rfl
    · rfl
  have hwaiting : ∀ r request, waiting ((s.react p s.pool (S.behave p c (s.nodes p)
      ((s.nodes p).processedRequests, Behaviour.handleUser e))).nodes r) request =
      waiting (s.nodes r) request := fun r request => by
    rw [Actors.react_nodes]
    split
    · rename_i hr
      rw [hr]
      rfl
    · rfl
  refine ⟨haddressed, hhonest, ?_, ?_, ?_, ?_, ?_⟩
  · intro f a d q r hD hq hr
    rw [Actors.tally_act rfl, h.tokens f a d q r hD hq hr, weight_user hb hq hr, List.count_append]
  · intro f a d hD
    rw [hwaiting, ← h.pending f a d hD, Actors.react_pool, Actors.weigh_append, weigh_behave]
    refine Nat.add_eq_left.2 ?_
    cases e with
    | scheduleProgram program =>
      simp only [Behaviour.handleUser, Actors.weigh_cons, pending_scheduleTx]
      rfl
    | _ => rfl
  · intro v a d hD
    rw [hmemory, List.count_append]
    by_cases hput : ∃ d', e = .put v d'
    · obtain ⟨d', rfl⟩ := hput
      cases hD.symm.trans hallowed
      exact .inr (.inl (List.mem_append_right _ List.mem_cons_self))
    · have hnone : (putVids [(.act p c (.user e) : Action B)]).count v = 0 := by
        cases e with
        | put u d' =>
          refine List.count_eq_zero.2 fun hmem => hput ⟨d', ?_⟩
          rw [List.mem_singleton.1 hmem]
        | _ => rfl
      rw [hnone, Nat.add_zero]
      exact (h.serving v a d hD).imp_right fun hserving =>
        hserving.imp_left (List.mem_append_left _)
  · intro v a d r hD hr
    rw [hmemory, ← h.reported v a d r hD hr, Actors.react_log, List.count_append]
    refine Nat.add_eq_left.2 (List.count_eq_zero.2 fun ho => ?_)
    obtain ⟨o, ho, he⟩ := List.mem_map.1 ho
    obtain ⟨e', rfl⟩ := mem_behave_outputs ho
    cases he
  · intro v a d hD
    rw [hmemory]
    exact h.cleared v a d hD

end Step

/-! ## Runs -/

theorem distributing_init (hb : S.Bijective) : S.Distributing C D [] (S.init : State B) where
  addressed := addressed_init
  honest := by
    refine ⟨fun p => ⟨⟨?_, ?_, ?_⟩, rfl, rfl, rfl⟩, ?_, ?_⟩
    · rintro f x h; cases h
    · rintro f x h; cases h
    · rintro v shards h; cases h
    · rintro p m h; cases h
    · rintro p o h; cases h
  tokens _ _ _ _ _ _ _ _ := rfl
  pending _ _ _ _ := rfl
  serving _ _ _ _ := .inl rfl
  reported v a d r hD hr := by
    obtain ⟨sid, hsid⟩ := (hb.peers r).1 hr
    have hpos := (hb.sids sid).1 ⟨r, hsid⟩
    refine (if_neg fun h => ?_).symm
    have hzero : S.dataShardsTotal = 0 := h.symm.trans rfl
    omega
  cleared _ _ _ _ _ := rfl

/-- A run of puts of `D`, no address twice. -/
theorem distributing_run (hw : S.encoding.inner.Implements C) (hB : 0 < B) (hb : S.Bijective)
    (hauthors : ∀ v a d, D v = some (a, d) → a ∈ S.peers) {as : List (Action B)} {s : State B}
    (hallowed : ∀ p c b, .act p c b ∈ as → Allowed D p b) (distinct : (putVids as).Nodup)
    (run : S.Run as s) : S.Distributing C D (putVids as) s := by
  refine Trace.invariant (I := fun as s => (∀ p c b, .act p c b ∈ as → Allowed D p b) →
    (putVids as).Nodup → S.Distributing C D (putVids as) s) (fun _ _ => distributing_init hb) ?_
    run hallowed distinct
  intro as s a t ih hs hallowed distinct
  have hvids : putVids (as ++ [a]) = putVids as ++ putVids [a] := by
    simp [putVids, puts, List.filterMap_append]
  rw [hvids] at distinct ⊢
  have h := ih (fun p c b hmem => hallowed p c b (List.mem_append_left _ hmem))
    (List.Nodup.of_append_left distinct)
  have hle : ∀ v, (putVids as).count v ≤ 1 :=
    List.nodup_iff_count_le_one.1 (List.Nodup.of_append_left distinct)
  cases Actors.step_moves hs with
  | delivered pending reaction =>
    rw [show putVids [(.deliver _ _ : Action B)] = [] from rfl, List.append_nil]
    exact h.deliver hw hB hb hle hauthors pending reaction
  | @acted p c b r reaction => exact h.act hb (hallowed p c b (by simp)) reaction

/-- The author and the data of the put of an address. -/
def putFor (ps : List (PeerId × Vid × Data B)) (v : Vid) : Option (PeerId × Data B) :=
  (ps.find? fun x => x.2.1 = v).map fun x => (x.1, x.2.2)

theorem putFor_eq_some {ps : List (PeerId × Vid × Data B)}
    (distinct : (ps.map fun x => x.2.1).Nodup) {v : Vid} {a : PeerId} {d : Data B} :
    putFor ps v = some (a, d) ↔ (a, v, d) ∈ ps := by
  constructor
  · intro h
    obtain ⟨⟨a', u, d'⟩, hfind, he⟩ := Option.map_eq_some_iff.1 h
    cases he
    have hu : u = v := by simpa using List.find?_some hfind
    exact hu ▸ List.mem_of_find?_eq_some hfind
  · intro h
    have hsome : (ps.find? fun x => x.2.1 = v).isSome := List.find?_isSome.2 ⟨_, h, by simp⟩
    obtain ⟨x, hx⟩ := Option.isSome_iff_exists.1 hsome
    have hxv : x.2.1 = v := by simpa using List.find?_some hx
    have hxe := List.inj_on_of_nodup_map distinct (List.mem_of_find?_eq_some hx) h hxv
    rw [putFor, hx, hxe]
    rfl

/-- Only peers put. -/
theorem author_mem_peers {as : List (Action B)} {s : State B} (run : S.Run as s) {v : Vid}
    {a : PeerId} {d : Data B} (h : (a, v, d) ∈ puts as) : a ∈ S.peers := by
  refine Trace.invariant (I := fun as _ => ∀ a v d, (a, v, d) ∈ puts as → a ∈ S.peers)
    (fun _ _ _ h => by cases h) ?_ run a v d h
  intro as s b t ih hs a v d h
  rw [puts, List.filterMap_append, List.mem_append] at h
  rcases h with h | h
  · exact ih a v d h
  · obtain ⟨b', hb', hput⟩ := List.mem_filterMap.1 h
    obtain rfl := List.mem_singleton.1 hb'
    cases Actors.step_moves hs with
    | delivered pending reaction => cases hput
    | @acted p c e x reaction =>
      have hp : p ∈ S.peers := by
        by_contra hp
        have hnone : S.act p c (s.nodes p) e = none := if_neg hp
        rw [show S.actors.act p c (s.nodes p) e = S.act p c (s.nodes p) e from rfl, hnone]
          at reaction
        cases reaction
      unfold putOf at hput
      split at hput
      · rename_i he
        cases he
        cases hput
        exact hp
      · cases hput

/-- **Put and get**: in a network whose distribution is a bijection, where no address is put twice
and no program runs, stored shards belong to what was put, recollections return what was put, and
a network at rest has reported every put once at every peer and serves none. -/
theorem put_get_round_trip (hw : S.encoding.inner.Implements C) (hB : 0 < B) (hb : S.Bijective)
    {as : List (Action B)} {s : State B} (noProgram : scheduled as = ∅)
    (distinct : (putVids as).Nodup) (run : S.Run as s) :
    (∀ q f x, (s.nodes q).tile.memory.getShard f = some x →
      ∃ a d shards, (a, f.1, d) ∈ puts as ∧ S.encoding.encode d = .ok shards ∧
        S.Assigned q f.2 ∧ shards.lookup f.2 = some x) ∧
    (∀ r v x, (r, .memory (.recollectResponse (.ok (v, x)))) ∈ s.log →
      ∃ a, (a, v, x) ∈ puts as) ∧
    (s.pool = [] → ∀ a v d, (a, v, d) ∈ puts as →
      (∀ r ∈ S.peers, s.log.count (r, .memory (.distributionFull v)) = 1) ∧
        (s.nodes a).tile.memory.toDistribute.lookup v = none) := by
  have hput : ∀ {v a d}, putFor (puts as) v = some (a, d) ↔ (a, v, d) ∈ puts as :=
    putFor_eq_some distinct
  have hallowed : ∀ p c b, .act p c b ∈ as → Allowed (putFor (puts as)) p b := by
    intro p c b hmem
    cases b with
    | user e =>
      cases e with
      | put v d => exact hput.2 (List.mem_filterMap.2 ⟨_, hmem, rfl⟩)
      | scheduleProgram program =>
        have hprogram : program ∈ scheduled as := ⟨p, c, hmem⟩
        rw [noProgram] at hprogram
        exact hprogram.elim
      | _ => trivial
    | _ => trivial
  have h := distributing_run hw hB hb
    (fun v a d hD => author_mem_peers run (hput.1 hD)) hallowed distinct run
  refine ⟨fun q f x hx => ?_, fun r v x hx => ?_, fun hrest a v d hmem => ?_⟩
  · obtain ⟨a, d, hD, hl⟩ := (h.honest.nodes q).memory.stored f x hx
    exact ⟨a, d, codeword C d, hput.1 hD, encode_eq hw hB d,
      (h.addressed.nodes q).memory.stored f (Option.isSome_iff_exists.2 ⟨x, hx⟩), hl⟩
  · obtain ⟨a, hD⟩ := h.honest.log r _ hx
    exact ⟨a, hput.1 hD⟩
  · have hD := hput.2 hmem
    have hone : (putVids as).count v = 1 :=
      List.count_eq_one_of_mem distinct (List.mem_map.2 ⟨_, hmem, rfl⟩)
    have hfull : ∀ r ∈ S.peers,
        ((s.nodes r).tile.memory.knownSids v).card = S.dataShardsTotal := by
      intro r hr
      refine (hb.card_knownSids (h.addressed.nodes r).memory v).2.2 fun q sid hq => ?_
      have htokens := h.tokens (v, sid) a d q r hD hq hr
      simp only [tally, located, hrest, Actors.weigh_nil, hone] at htokens
      by_contra hsid
      rw [if_neg hsid] at htokens
      cases htokens
    refine ⟨fun r hr => ?_, h.cleared v a d hD (hfull a (author_mem_peers run hmem))⟩
    rw [h.reported v a d r hD hr, if_pos (hfull r hr)]

open InitializedDataMemory (samplePeer)

theorem sample_assigned {p : PeerId} {s : Sid} : sample.Assigned p s ↔
    (p = samplePeer 0 ∧ s = ⟨0⟩) ∨ (p = samplePeer 1 ∧ s = ⟨1⟩) ∨ p = samplePeer 2 ∧ s = ⟨2⟩ := by
  have h01 : samplePeer 0 ≠ samplePeer 1 := by decide
  have h02 : samplePeer 0 ≠ samplePeer 2 := by decide
  have h12 : samplePeer 1 ≠ samplePeer 2 := by decide
  have hlookup : sample.distribution.lookup p = if p = samplePeer 2 then some ⟨2⟩ else
      if p = samplePeer 1 then some ⟨1⟩ else if p = samplePeer 0 then some ⟨0⟩ else none := by
    change Finmap.lookup p (((∅ : HashMap PeerId Sid).insert _ _).insert _ _ |>.insert _ _) = _
    rw [Finmap.lookup_insert_ite, Finmap.lookup_insert_ite, Finmap.lookup_insert_ite,
      Finmap.lookup_empty]
  rw [Assigned, hlookup]
  by_cases h2 : p = samplePeer 2
  · simp [h2, h02.symm, h12.symm, eq_comm]
  · by_cases h1 : p = samplePeer 1
    · simp [h1, h01.symm, h12, eq_comm]
    · by_cases h0 : p = samplePeer 0
      · simp [h0, h01, h02, eq_comm]
      · simp [h0, h1, h2]

theorem sample_bijective : sample.Bijective where
  nodup := by decide
  peers p := by
    simp only [sample_assigned, exists_or, exists_and_left, exists_eq, and_true]
    simp [sample]
  injective p q s hp hq := by
    rw [sample_assigned] at hp hq
    rcases hp with ⟨rfl, rfl⟩ | ⟨rfl, rfl⟩ | ⟨rfl, rfl⟩ <;> simpa [eq_comm] using hq
  sids s := by
    have htotal : sample.dataShardsTotal = 3 := rfl
    simp only [sample_assigned, exists_or, exists_eq_left, htotal]
    obtain ⟨n⟩ := s
    simp only [Sid.mk.injEq]
    omega

/-- Peer 0 puts address 0 and every message is handled. Then peer 2 asks for it. -/
def roundTripSteps : List (Action 4) :=
  sampleUser 0 (.put ⟨0⟩ ⟨fun _ => 1⟩) :: List.replicate 47 (sampleDeliver 0) ++
    sampleUser 2 (.get ⟨0⟩) :: List.replicate 14 (sampleDeliver 0)

theorem put_get_round_trip_put :
    ∃ s, runAll sample.step sample.init roundTripSteps = some s ∧
      (∃ a d shards, (a, ⟨0⟩, d) ∈ puts roundTripSteps ∧ sample.encoding.encode d = .ok shards ∧
        sample.Assigned (samplePeer 1) ⟨1⟩ ∧ shards.lookup ⟨1⟩ = some ⟨fun _ => 1⟩) ∧
      (∃ x, (samplePeer 2, .memory (.recollectResponse (.ok (⟨0⟩, x)))) ∈ s.log ∧
        ∃ a, (a, ⟨0⟩, x) ∈ puts roundTripSteps) ∧
      s.log.count (samplePeer 1, .memory (.distributionFull ⟨0⟩)) = 1 ∧
        (s.nodes (samplePeer 0)).tile.memory.toDistribute.lookup ⟨0⟩ = none := by
  obtain ⟨s, run, hstored, ⟨x, hx⟩, hrest⟩ : ∃ s, runAll sample.step sample.init roundTripSteps =
      some s ∧ (s.nodes (samplePeer 1)).tile.memory.getShard (⟨0⟩, ⟨1⟩) = some ⟨fun _ => 1⟩ ∧
      (∃ x, s.log[21]? = some (samplePeer 2, .memory (.recollectResponse (.ok (⟨0⟩, x))))) ∧
      s.pool = [] := ⟨_, rfl, by decide +kernel, ⟨_, rfl⟩, rfl⟩
  have h := put_get_round_trip OneParity.coder_implements (by decide) sample_bijective
    (by simp [roundTripSteps, scheduled, sampleUser, sampleDeliver]) (by decide)
    (Trace.of_runAll run)
  have hfull := h.2.2 hrest (samplePeer 0) ⟨0⟩ ⟨fun _ => 1⟩ (by decide)
  exact ⟨s, run, h.1 (samplePeer 1) _ _ hstored, ⟨x, List.mem_of_getElem? hx,
    h.2.1 _ _ _ (List.mem_of_getElem? hx)⟩, hfull.1 (samplePeer 1) (by decide), hfull.2⟩

end Setup

end Swarm.Network
