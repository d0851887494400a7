import Swarm.DataMemory.Gathering
import Swarm.Network.Completion
import Swarm.Network.Recollection

/-!
# Gets complete

A node that collects data has what it received and what it has asked for, each
asked for in one message or at the peer that is to answer. Nothing is asked in
vain, because located shards are stored. So a state without further steps
collects nothing, and every get of an address with enough known locations has
been answered with what was put: `gets_complete`.
-/

namespace Swarm.Network

open Swarm.DataMemory Swarm.Processor Swarm.Consensus Swarm.Encoding Swarm.Node
open Swarm.Behaviour (Request Response ProcessedRequests Send)

variable {B : Nat}

namespace Setup

variable {S : Setup} {C : MdsCode UInt8 dataShardsCount S.encoding.inner.totalShardCount}
  {D : Vid → Option (PeerId × Data B)} {p q r : PeerId} {c : Choice} {node : Node B}
  {x : NodeReaction B} {v : Vid} {f : FullShardId} {s s' : State B} {as : List (Action B)}

/-! ## Nothing is asked in vain -/

/-- What the messages of a get say; `H q v` says that peer `q` holds its shard of `v`. -/
def MessageGets (S : Setup) (H : PeerId → Vid → Prop) (p : PeerId) : Message B → Prop
  | .memoryOut (.assignedRequest f q) => H q f.1 ∧ S.Assigned q f.2
  | .request _ (.getShard f) => H p f.1 ∧ S.Assigned p f.2
  | .memoryIn (.assignedRequest f) => H p f.1 ∧ S.Assigned p f.2
  | .memoryOut (.assignedResponse f y) => y.isSome ∧ ∃ q, S.Assigned q f.2
  | .response (.getShard f) (.getShard y) => y.isSome ∧ ∃ q, S.Assigned q f.2
  | .memoryIn (.assignedResponse f y) => y.isSome ∧ ∃ q, S.Assigned q f.2
  | _ => True

theorem MessageGets.mono {H H' : PeerId → Vid → Prop} (hH : ∀ q v, H q v → H' q v) {m : Message B}
    (h : S.MessageGets H p m) : S.MessageGets H' p m := by
  cases m with
  | memoryOut e =>
    cases e with
    | assignedRequest f q => exact h.imp_left (hH _ _)
    | assignedResponse f y => exact h
    | _ => trivial
  | memoryIn e =>
    cases e with
    | assignedRequest f => exact h.imp_left (hH _ _)
    | assignedResponse f y => exact h
    | _ => trivial
  | request origin request =>
    cases request with
    | getShard f => exact h.imp_left (hH _ _)
    | serveShard f => trivial
  | response request response =>
    cases request <;> cases response <;> exact h
  | _ => trivial

theorem gets_receive {H : PeerId → Vid → Prop} {m : Message B} (ha : S.NodeAddressed p node)
    (located : ∀ f q, node.tile.memory.knownLocation f = some q → H q f.1)
    (held : ∀ f, H p f.1 → S.Assigned p f.2 → (node.tile.memory.getShard f).isSome)
    (hm : S.MessageGets H p m) (hr : S.receive p c node m = some x) :
    Actors.Keeps (fun _ _ => True) (S.MessageGets H) (fun _ _ => True) p x := by
  refine ⟨trivial, fun q m' hm' => ?_, fun _ _ => trivial⟩
  cases receive_reacts hr with
  | handled moves =>
    cases moves with
    | ended => cases hm'
    | @handled _ e memory out running turn =>
      rw [List.map_map] at hm'
      obtain ⟨o, ho, he⟩ := List.mem_map.1 hm'
      cases he
      have hemit := InitializedDataMemory.handle_emits turn o ho
      cases o with
      | assignedRequest f q =>
        obtain ⟨-, hknown, -⟩ := hemit
        exact ⟨located _ _ hknown, ha.memory.located _ _ hknown⟩
      | assignedResponse f y =>
        obtain ⟨rfl, rfl⟩ := hemit
        exact ⟨held f hm.1 hm.2, _, hm.2⟩
      | _ => trivial
  | started moves => cases moves; cases hm'
  | instructed =>
    obtain ⟨o, -, he⟩ := List.mem_map.1 hm'
    cases he
    trivial
  | passed notMemory sent waits =>
    rw [behave_sent, List.mem_flatMap] at hm'
    obtain ⟨a, ha, hqm⟩ := hm'
    cases sent a ha q m' hqm with
    | getRequest | got | get | getResponse => exact hm
    | _ => trivial

/-! ## What is asked for -/

/-- The message carries a request of peer `r` for shard `f`, or its answer. -/
def Carries (r : PeerId) (f : FullShardId) : PeerId × Message B → Prop
  | (p, .memoryOut (.assignedRequest g _)) => p = r ∧ g = f
  | (_, .request origin (.getShard g)) => origin = r ∧ g = f
  | (p, .response (.getShard g) _) => p = r ∧ g = f
  | (p, .memoryIn (.assignedResponse g _)) => p = r ∧ g = f
  | _ => False

/-- Peer `r` has asked for shard `f` and the answer is still to come. -/
def Asked (r : PeerId) (f : FullShardId) (s : State B) : Prop :=
  (∃ e ∈ s.pool, Carries r f e) ∨ ∃ q, r ∈ waiting (s.nodes q) (.getShard f)

/-- The message makes peer `q` answer the requests for shard `f`. -/
def Answers (q : PeerId) (f : FullShardId) : PeerId × Message B → Prop
  | (p, .memoryIn (.assignedRequest g)) => p = q ∧ g = f
  | (p, .memoryOut (.assignedResponse g _)) => p = q ∧ g = f
  | _ => False

/-- A peer waits on until it is answered. -/
theorem waits_or_answered {m : Message B} {request : Request} (h : r ∈ waiting node request)
    (hr : S.receive p c node m = some x) :
    r ∈ waiting x.node request ∨ ∃ response, (r, .response request response) ∈ x.sent := by
  have hanswer : ∀ {request' : Request} {response : Response B},
      r ∈ waiting (S.behave p c node
        (Behaviour.answer node.processedRequests request' response)).node request ∨
      ∃ response', (r, .response request response') ∈ (S.behave p c node
        (Behaviour.answer node.processedRequests request' response)).sent := by
    intro request' response
    rw [waiting_answer]
    split
    · rename_i he
      subst he
      refine .inr ⟨response, ?_⟩
      rw [behave_sent, List.mem_flatMap]
      exact ⟨_, List.mem_map.2 ⟨r, h, rfl⟩, List.mem_singleton_self _⟩
    · exact .inl h
  cases m with
  | memoryIn e | processorIn program =>
    obtain ⟨t, out, -, rfl⟩ := tileStep_moves hr
    exact .inl h
  | memoryOut e =>
    cases hr
    cases e with
    | serveShardResponse g y => exact hanswer
    | assignedResponse g y => exact hanswer
    | _ => exact .inl h
  | instructionOut e =>
    simp only [Setup.receive] at hr
    split at hr <;> cases hr
    exact .inl h
  | request origin request' =>
    cases hr
    rw [waiting_request]
    split
    · rename_i he
      exact .inl (List.mem_append_left _ (he ▸ h))
    · exact .inl h
  | _ =>
    cases hr
    exact .inl h

section Deliver

variable {i : Nat} {m : Message B}

/-- What is asked for stays so until the answer arrives. -/
theorem Asked.deliver (h : Asked r f s) (hi : s.pool[i]? = some (p, m)) (hm : MessageIdle m)
    (hr : S.receive p c (s.nodes p) m = some x) :
    (p = r ∧ ∃ y, m = .memoryIn (.assignedResponse f y)) ∨
      Asked r f (s.react p (s.pool.eraseIdx i) x) := by
  have hsent : ∀ e ∈ x.sent, Carries r f e → Asked r f (s.react p (s.pool.eraseIdx i) x) :=
    fun e he hcarries => .inl ⟨e, List.mem_append_right _ he, hcarries⟩
  rcases h with hpool | ⟨q, hq⟩
  · rcases Actors.exists_deliver hi hpool with hcarries | hstays
    · cases m with
      | memoryIn e =>
        cases e with
        | assignedResponse g y =>
          obtain ⟨rfl, rfl⟩ := hcarries
          exact .inl ⟨rfl, y, rfl⟩
        | _ => exact hcarries.elim
      | memoryOut e =>
        cases e with
        | assignedRequest g q =>
          obtain ⟨rfl, rfl⟩ := hcarries
          cases hr
          exact .inr (hsent _ (List.mem_singleton_self _) ⟨rfl, rfl⟩)
        | _ => exact hcarries.elim
      | request origin request =>
        cases request with
        | getShard g =>
          obtain ⟨rfl, rfl⟩ := hcarries
          cases hr
          refine .inr (.inr ⟨p, ?_⟩)
          rw [Actors.react_nodes_self, waiting_request, if_pos rfl]
          exact List.mem_append_right _ (List.mem_singleton_self _)
        | serveShard g => exact hcarries.elim
      | response request response =>
        cases request with
        | getShard g =>
          obtain ⟨rfl, rfl⟩ := hcarries
          cases response with
          | getShard y =>
            cases hr
            exact .inr (hsent _ (List.mem_singleton_self _) ⟨rfl, rfl⟩)
          | serveShard y => exact hm.elim
        | serveShard g => exact hcarries.elim
      | _ => exact hcarries.elim
    · exact .inr (.inl hstays)
  · by_cases hqp : q = p
    · subst hqp
      rcases waits_or_answered hq hr with hwaits | ⟨response, hresponse⟩
      · refine .inr (.inr ⟨q, ?_⟩)
        rwa [Actors.react_nodes_self]
      · exact .inr (hsent _ hresponse ⟨rfl, rfl⟩)
    · refine .inr (.inr ⟨q, ?_⟩)
      rwa [Actors.react_nodes_of_ne hqp]

/-- Peers that wait for a shard are about to be answered. -/
def Answering (s : State B) : Prop :=
  ∀ q f, waiting (s.nodes q) (.getShard f) ≠ [] → ∃ e ∈ s.pool, Answers q f e

theorem Answering.deliver (h : Answering s) (hi : s.pool[i]? = some (p, m))
    (hr : S.receive p c (s.nodes p) m = some x) : Answering (s.react p (s.pool.eraseIdx i) x) := by
  intro q f hwaits
  have hstays : (∃ e ∈ s.pool, Answers q f e) → ¬ Answers q f (p, m) →
      ∃ e ∈ (s.react p (s.pool.eraseIdx i) x).pool, Answers q f e := fun he hne =>
    (Actors.exists_deliver hi he).resolve_left hne
  have hsent : ∀ e ∈ x.sent, Answers q f e →
      ∃ e ∈ (s.react p (s.pool.eraseIdx i) x).pool, Answers q f e :=
    fun e he hanswers => ⟨e, List.mem_append_right _ he, hanswers⟩
  by_cases hqp : q = p
  · subst hqp
    rw [Actors.react_nodes_self] at hwaits
    cases m with
    | memoryIn e =>
      obtain ⟨t, out, hmove, rfl⟩ := tileStep_moves hr
      have hold := h q f hwaits
      cases e with
      | assignedRequest g =>
        by_cases hg : g = f
        · subst hg
          cases hmove with
          | handled running turn =>
            cases turn
            exact hsent _ (List.mem_singleton_self _) ⟨rfl, rfl⟩
          | ended running turn => exact absurd trivial turn
        · exact hstays hold fun hne => hg hne.2
      | _ => exact hstays hold id
    | memoryOut e =>
      cases hr
      cases e with
      | assignedResponse g y =>
        rw [show (S.behave q c (s.nodes q) (Behaviour.handleDataMemory (s.nodes q).processedRequests
          (.assignedResponse g y))) = S.behave q c (s.nodes q) (Behaviour.answer
            (s.nodes q).processedRequests (.getShard g) (.getShard y)) from rfl,
          waiting_answer] at hwaits
        split at hwaits
        · exact absurd rfl hwaits
        · rename_i hne
          exact hstays (h q f hwaits) fun hanswers => hne (congrArg Request.getShard hanswers.2.symm)
      | serveShardResponse g y =>
        rw [show (S.behave q c (s.nodes q) (Behaviour.handleDataMemory (s.nodes q).processedRequests
          (.serveShardResponse g y))) = S.behave q c (s.nodes q) (Behaviour.answer
            (s.nodes q).processedRequests (.serveShard g) (.serveShard y)) from rfl,
          waiting_answer, if_neg fun he => by cases he] at hwaits
        exact hstays (h q f hwaits) id
      | _ => exact hstays (h q f hwaits) id
    | request origin request =>
      cases hr
      rw [waiting_request] at hwaits
      split at hwaits
      · rename_i he
        subst he
        exact hsent _ (List.mem_singleton_self _) ⟨rfl, rfl⟩
      · exact hstays (h q f hwaits) id
    | instructionOut e =>
      simp only [Setup.receive] at hr
      split at hr <;> cases hr
      exact hstays (h q f hwaits) id
    | processorIn program =>
      obtain ⟨t, out, hmove, rfl⟩ := tileStep_moves hr
      exact hstays (h q f hwaits) id
    | _ =>
      cases hr
      exact hstays (h q f hwaits) id
  · rw [Actors.react_nodes_of_ne hqp] at hwaits
    refine hstays (h q f hwaits) fun hanswers => hqp ?_
    cases m with
    | memoryIn e | memoryOut e =>
      cases e <;> first | exact hanswers.1.symm | exact hanswers.elim
    | _ => exact hanswers.elim

end Deliver

/-! ## Runs -/

/-- What the gets of a network have come to. -/
structure Fetching (S : Setup) (s : State B) : Prop where
  gets : s.Everywhere (fun _ _ => True) (S.MessageGets (S.Holds s)) fun _ _ => True
  answering : Answering s
  awaits : ∀ r v, ∃ K : Finset Sid, (s.nodes r).tile.memory.Awaits v K ∧
    ∀ sid ∈ K, Asked r (v, sid) s

/-- Peer `r` is to handle a get of `v`, is collecting it, or has answered it since output `n`. -/
def Due (r : PeerId) (v : Vid) (n : Nat) (s : State B) : Prop :=
  (r, .memoryIn (.recollectRequest v)) ∈ s.pool ∨
    v ∈ (s.nodes r).tile.memory.currentlyAssembled ∨
    ∃ y, (r, .memory (.recollectResponse (.ok (v, y)))) ∈ s.log.drop n

/-- Peer `r` knows enough locations of `v`: it lists `v` as stored. -/
def Listed (r : PeerId) (v : Vid) (s : State B) : Prop :=
  dataShardsCount ≤ ((s.nodes r).tile.memory.knownSids v).card

theorem Listed.step {a : Action B} (h : Listed r v s) (hs : S.step s a = some s') :
    Listed r v s' := by
  refine Nat.le_trans h (Finset.card_le_card fun sid hsid => ?_)
  rw [InitializedDataMemory.mem_knownSids] at hsid ⊢
  exact knownLocation_step hs hsid

theorem fetching_init : S.Fetching (S.init : State B) where
  gets := ⟨fun _ => trivial, fun _ _ h => (by cases h), fun _ _ _ => trivial⟩
  answering q f h := absurd rfl h
  awaits r v := ⟨∅, ⟨fun s hs => absurd hs (Finset.notMem_empty s), fun received hr => by cases hr⟩,
    fun sid hsid => absurd hsid (Finset.notMem_empty sid)⟩

/-- The memory of a node whose known shards are stored. -/
theorem held_of_located (honest : S.Honest C D s) (ha : S.Addressed s)
    (hsound : S.Sound ∅ (S.Holds s) s) {f : FullShardId}
    (h : (s.nodes p).tile.memory.knownLocation f = some p) :
    ((s.nodes p).tile.memory.getShard f).isSome := by
  have hheld := (hsound.nodes p).located f p h f.2 ((ha.nodes p).memory.located f p h)
  rw [show (s.nodes p).tile.writes = [] from (honest.nodes p).writes] at hheld
  exact hheld.resolve_right List.not_mem_nil

theorem Fetching.gets_step (ha : S.Addressed s) (honest : S.Honest C D s)
    (hsound : S.Sound ∅ (S.Holds s) s) (h : S.Fetching s) {a : Action B}
    (hs : S.step s a = some s') :
    s'.Everywhere (fun _ _ => True) (S.MessageGets (S.Holds s')) fun _ _ => True := by
  have hafter : s'.Everywhere (fun _ _ => True) (S.MessageGets (S.Holds s)) fun _ _ => True := by
    refine h.gets.step ?_ ?_ hs
    · rintro i p c m x rfl hi hr -
      refine gets_receive (ha.nodes p) (fun f q hq => (hsound.nodes p).located f q hq) ?_
        (h.gets.pool p m (List.mem_of_getElem? hi)) hr
      intro f hf hassigned
      have hheld := hf f.2 hassigned
      rw [show (s.nodes p).tile.writes = [] from (honest.nodes p).writes] at hheld
      exact hheld.resolve_right List.not_mem_nil
    · rintro p c b x rfl hr -
      obtain ⟨-, e, rfl, rfl⟩ := (honest.nodes p).idle.act_user hr
      refine ⟨trivial, fun q m hm => ?_, fun _ _ => trivial⟩
      rw [behave_sent, List.mem_flatMap] at hm
      obtain ⟨a, ha, hqm⟩ := hm
      cases asks_of_mem ha hqm <;> trivial
  exact hafter.mono (fun _ _ => id)
    (fun p m => MessageGets.mono fun q v => holds_step ha hs) fun _ _ => id

section Deliver

variable {i : Nat} {m : Message B}

/-- What is due stays so, unless the delivered message or the node's memory changes it. -/
theorem Due.stays {n : Nat} {pool : List (PeerId × Message B)} (h : Due r v n s)
    (hn : n ≤ s.log.length)
    (hpool : (r, .memoryIn (.recollectRequest v)) ∈ s.pool → Due r v n (s.react p pool x) ∨
      (r, .memoryIn (.recollectRequest v)) ∈ pool)
    (hmemory : v ∈ (s.nodes r).tile.memory.currentlyAssembled → Due r v n (s.react p pool x)) :
    Due r v n (s.react p pool x) := by
  rcases h with hrequest | hassembled | ⟨y, hy⟩
  · exact (hpool hrequest).elim id fun hmem => .inl (List.mem_append_left _ hmem)
  · exact hmemory hassembled
  · refine .inr (.inr ⟨y, ?_⟩)
    rw [Actors.react_log, List.drop_append_of_le_length hn]
    exact List.mem_append_left _ hy

/-- A delivery that is no event of a memory. -/
theorem Fetching.passed (h : S.Fetching s) (hidle : MessageIdle m) (hi : s.pool[i]? = some (p, m))
    (hr : S.receive p c (s.nodes p) m = some x) (hother : ∀ e, m ≠ .memoryIn e)
    (hmemory : x.node.tile.memory = (s.nodes p).tile.memory) :
    (∀ r v, ∃ K : Finset Sid,
      ((s.react p (s.pool.eraseIdx i) x).nodes r).tile.memory.Awaits v K ∧
        ∀ sid ∈ K, Asked r (v, sid) (s.react p (s.pool.eraseIdx i) x)) ∧
    ∀ r v n, n ≤ s.log.length → Due r v n s → Due r v n (s.react p (s.pool.eraseIdx i) x) := by
  have hsame : ∀ r, ((s.react p (s.pool.eraseIdx i) x).nodes r).tile.memory =
      (s.nodes r).tile.memory := fun r => by
    rw [Actors.react_nodes]
    split
    · rename_i hrp
      rw [hrp, hmemory]
    · rfl
  refine ⟨fun r v => ?_, fun r v n hn hdue => ?_⟩
  · obtain ⟨K, hK, hasked⟩ := h.awaits r v
    refine ⟨K, by rwa [hsame], fun sid hsid => ?_⟩
    exact ((hasked sid hsid).deliver hi hidle hr).resolve_left fun ⟨_, y, he⟩ => hother _ he
  · refine hdue.stays hn (fun hmem => .inr ?_) fun hassembled => .inr (.inl ?_)
    · exact Actors.mem_eraseIdx_of_ne hi hmem fun he => hother _ (Prod.mk.inj he).2.symm
    · rwa [hsame]

/-- The delivery of an event to a memory. -/
theorem Fetching.handled {C : MdsCode UInt8 dataShardsCount S.encoding.inner.totalShardCount}
    (hw : S.encoding.inner.Implements C) (hB : 0 < B) (hb : S.Bijective) (ha : S.Addressed s)
    (honest : S.Honest C D s) (hsound : S.Sound ∅ (S.Holds s) s) (h : S.Fetching s)
    {e : DataMemory.InEvent B} {out : List (DataMemory.OutEvent B)}
    (hi : s.pool[i]? = some (p, .memoryIn e)) (hr : S.receive p c (s.nodes p) (.memoryIn e) = some x)
    (turn : (s.nodes p).tile.memory.handle c.order e = .next x.node.tile.memory out)
    (hsent : x.sent = out.map fun o => (p, .memoryOut o))
    (houtputs : x.outputs = out.map .memory) :
    (∀ r v, ∃ K : Finset Sid,
      ((s.react p (s.pool.eraseIdx i) x).nodes r).tile.memory.Awaits v K ∧
        ∀ sid ∈ K, Asked r (v, sid) (s.react p (s.pool.eraseIdx i) x)) ∧
    ∀ r v n, Listed r v s → n ≤ s.log.length → Due r v n s →
      Due r v n (s.react p (s.pool.eraseIdx i) x) := by
  have hmem := List.mem_of_getElem? hi
  have hidle := (honest.pool p _ hmem).idle
  have haddressed := (ha.nodes p).memory
  have htotal := haddressed.totalShards
  obtain ⟨C', hw'⟩ : InitializedDataMemory.Works (s.nodes p).tile.memory.encoding :=
    haddressed.encoding ▸ ⟨C, hw⟩
  have hsids : ∀ q (f : FullShardId), S.Assigned q f.2 →
      f.2.val < (s.nodes p).tile.memory.totalShards := fun q f hq => by
    rw [htotal]
    exact (hb.sids f.2).1 ⟨q, hq⟩
  choose K hK hasked using h.awaits p
  obtain ⟨K', hcont⟩ := InitializedDataMemory.awaits_handle hw' hB hK
    (fun f q hq => hsids q f (haddressed.located f q hq))
    (fun f hf => held_of_located honest ha hsound
      (hf.trans (congrArg some haddressed.localId))) (fun f y he => by
      subst he
      obtain ⟨hy, q, hq⟩ := h.gets.pool p _ hmem
      exact ⟨hy, hsids q f hq⟩) turn
  have hgoes : ∀ {v n}, n ≤ s.log.length → InitializedDataMemory.Goes x.node.tile.memory out v →
      Due p v n (s.react p (s.pool.eraseIdx i) x) := by
    intro v n hn hgoes
    rcases hgoes with hassembled | ⟨y, hy⟩
    · refine .inr (.inl ?_)
      rwa [Actors.react_nodes_self]
    · refine .inr (.inr ⟨y, ?_⟩)
      rw [Actors.react_log, List.drop_append_of_le_length hn, houtputs, List.map_map]
      exact List.mem_append_right _ (List.mem_map.2 ⟨_, hy, rfl⟩)
  refine ⟨fun r v => ?_, fun r v n hlisted hn hdue => ?_⟩
  · by_cases hrp : r = p
    · subst hrp
      refine ⟨K' v, by rw [Actors.react_nodes_self]; exact hcont.awaits v, fun sid hsid => ?_⟩
      rcases hcont.asked v sid hsid with ⟨hold, hnot⟩ | ⟨q, hq⟩
      · exact ((hasked v sid hold).deliver hi hidle hr).resolve_left fun ⟨_, y, he⟩ =>
          hnot y (Message.memoryIn.inj he)
      · refine .inl ⟨(r, .memoryOut (.assignedRequest (v, sid) q)), ?_, rfl, rfl⟩
        rw [Actors.react_pool, hsent]
        exact List.mem_append_right _ (List.mem_map.2 ⟨_, hq, rfl⟩)
    · obtain ⟨L, hL, hL'⟩ := h.awaits r v
      refine ⟨L, by rwa [Actors.react_nodes_of_ne hrp], fun sid hsid => ?_⟩
      exact ((hL' sid hsid).deliver hi hidle hr).resolve_left fun ⟨he, _⟩ => hrp he.symm
  · refine hdue.stays hn (fun hrequest => ?_) fun hassembled => ?_
    · by_cases he : (r, (.memoryIn (.recollectRequest v) : Message B)) = (p, .memoryIn e)
      · cases he
        refine .inl (hgoes hn (hcont.starts v rfl ?_))
        rw [show (s.nodes p).tile.memory.sufficientShards = dataShardsCount from hw'.data]
        exact hlisted
      · exact .inr (Actors.mem_eraseIdx_of_ne hi hrequest he)
    · by_cases hrp : r = p
      · subst hrp
        exact hgoes hn (hcont.kept v hassembled)
      · refine .inr (.inl ?_)
        rwa [Actors.react_nodes_of_ne hrp]

end Deliver

/-- **One step**: the gets go on, and what is due stays so until it is answered. -/
theorem Fetching.step (hw : S.encoding.inner.Implements C) (hB : 0 < B) (hb : S.Bijective)
    (ha : S.Addressed s) (honest : S.Honest C D s) (hsound : S.Sound ∅ (S.Holds s) s)
    (h : S.Fetching s) {a : Action B} (hs : S.step s a = some s') :
    S.Fetching s' ∧ ∀ r v n, Listed r v s → n ≤ s.log.length → Due r v n s → Due r v n s' := by
  have hgets := h.gets_step ha honest hsound hs
  cases Actors.step_moves hs with
  | @delivered i c p m x hi hr =>
    have hidle := (honest.pool p m (List.mem_of_getElem? hi)).idle
    have hanswering := h.answering.deliver hi hr
    rcases MessageIdle.receive hw hB (ha.nodes p) hidle hr with
      ⟨e, out, rfl, turn, hsent, houtputs⟩ | ⟨hother, hmemory, -⟩
    · obtain ⟨hawaits, hdue⟩ := h.handled hw hB hb ha honest hsound hi hr turn hsent houtputs
      exact ⟨⟨hgets, hanswering, hawaits⟩, hdue⟩
    · obtain ⟨hawaits, hdue⟩ := h.passed hidle hi hr hother hmemory
      exact ⟨⟨hgets, hanswering, hawaits⟩, fun r v n _ => hdue r v n⟩
  | @acted p c b x hr =>
    obtain ⟨-, e, rfl, rfl⟩ := (honest.nodes p).idle.act_user hr
    have hnode : ∀ r, ((s.react p s.pool (S.behave p c (s.nodes p)
        ((s.nodes p).processedRequests, Behaviour.handleUser e))).nodes r) = s.nodes r := fun r => by
      rw [Actors.react_nodes]
      split
      · rename_i hrp
        rw [hrp]
        rfl
      · rfl
    refine ⟨⟨hgets, fun q f hwaits => ?_, fun r v => ?_⟩, fun r v n _ hn hdue => ?_⟩
    · rw [hnode] at hwaits
      obtain ⟨e', he', hanswers⟩ := h.answering q f hwaits
      exact ⟨e', List.mem_append_left _ he', hanswers⟩
    · obtain ⟨K, hK, hasked⟩ := h.awaits r v
      refine ⟨K, by rwa [hnode], fun sid hsid => ?_⟩
      rcases hasked sid hsid with ⟨e', he', hcarries⟩ | ⟨q, hq⟩
      · exact .inl ⟨e', List.mem_append_left _ he', hcarries⟩
      · exact .inr ⟨q, by rwa [hnode]⟩
    · refine hdue.stays hn .inr fun hassembled => .inr (.inl ?_)
      rwa [hnode]

theorem fetching_run (hw : S.encoding.inner.Implements C) (hB : 0 < B) (hb : S.Bijective)
    (hputs : PutsOnly as) (run : S.Run as s) : S.Fetching s := by
  induction run with
  | nil => exact fetching_init
  | @snoc s t as a run hs ih =>
    have hputs' := hputs.of_append
    have h := hputs'.distributing hw hB hb run
    exact ((ih hputs').step hw hB hb h.addressed h.honest (hputs'.confirming hw hB hb run).sound hs).1

/-- What is due stays due in every run that goes on. -/
theorem due_run (hw : S.encoding.inner.Implements C) (hB : 0 < B) (hb : S.Bijective) {n : Nat}
    {bs : List (Action B)} {t : State B} (hputs : PutsOnly (as ++ bs)) (run : S.Run as s)
    (run' : Trace S.step s bs t) (hlisted : Listed r v s) (hn : n ≤ s.log.length)
    (hdue : Due r v n s) : Listed r v t ∧ n ≤ t.log.length ∧ Due r v n t := by
  induction run' with
  | nil => exact ⟨hlisted, hn, hdue⟩
  | @snoc t u bs b run' hs ih =>
    rw [← List.append_assoc] at hputs
    have hputs' := hputs.of_append
    obtain ⟨hlisted', hn', hdue'⟩ := ih hputs'
    have h := hputs'.distributing hw hB hb (run.append run')
    have hstep := (fetching_run hw hB hb hputs' (run.append run')).step hw hB hb h.addressed
      h.honest (hputs'.confirming hw hB hb (run.append run')).sound hs
    refine ⟨hlisted'.step hs, ?_, hstep.2 r v n hlisted' hn' hdue'⟩
    obtain ⟨new, hnew⟩ := log_step hs
    rw [hnew, List.length_append]
    exact Nat.le_add_right_of_le hn'

/-- A state without messages collects nothing. -/
theorem Fetching.rest (h : S.Fetching s) (rest : s.pool = []) (r : PeerId) (v : Vid) :
    v ∉ (s.nodes r).tile.memory.currentlyAssembled := by
  have hnone : ∀ r f, ¬ Asked r f s := by
    rintro r f (⟨e, he, -⟩ | ⟨q, hq⟩)
    · rw [rest] at he
      cases he
    · obtain ⟨e, he, -⟩ := h.answering q f (List.ne_nil_of_mem hq)
      rw [rest] at he
      cases he
  obtain ⟨K, hK, hasked⟩ := h.awaits r v
  obtain rfl : K = ∅ := Finset.eq_empty_of_forall_notMem fun sid hsid => hnone _ _ (hasked sid hsid)
  exact hK.idle

/-- What is listed has been put. -/
theorem Listed.put (h : S.Distributing C D (putVids as) s)
    (hlisted : Listed r v s) (hr : r ∈ S.peers) {a : PeerId} {d : Data B}
    (hD : D v = some (a, d)) : v ∈ putVids as := by
  obtain ⟨sid, hsid⟩ := Finset.card_pos.1 (Nat.lt_of_lt_of_le Nat.two_pos hlisted)
  obtain ⟨q, hq⟩ := Option.isSome_iff_exists.1 (InitializedDataMemory.mem_knownSids.1 hsid)
  have htokens := h.tokens (v, sid) a d q r hD ((h.addressed.nodes r).memory.located _ _ hq) hr
  refine List.count_pos_iff.1 ?_
  rw [← htokens, Actors.tally, Setup.located, if_pos hsid]
  exact Nat.succ_pos _

theorem log_run {bs : List (Action B)} {t : State B} (run : Trace S.step s bs t) :
    ∃ new, t.log = s.log ++ new := by
  induction run with
  | nil => exact ⟨[], (List.append_nil _).symm⟩
  | snoc _ hs ih =>
    obtain ⟨new, hnew⟩ := ih
    obtain ⟨new', hnew'⟩ := log_step hs
    exact ⟨new ++ new', by rw [hnew', hnew, List.append_assoc]⟩

/-- A get is sent to the memory. -/
theorem get_step (hs : S.step s (.act r c (.user (.get v))) = some s') :
    r ∈ S.peers ∧ s'.log = s.log ∧ (r, .memoryIn (.recollectRequest v)) ∈ s'.pool := by
  obtain ⟨x, hx, rfl⟩ := Option.map_eq_some_iff.1 hs
  by_cases hr : r ∈ S.peers
  · have hact : S.act r c (s.nodes r) (.user (.get v)) = some (S.behave r c (s.nodes r)
        ((s.nodes r).processedRequests, Behaviour.handleUser (.get v))) := if_pos hr
    cases hx.symm.trans hact
    exact ⟨hr, List.append_nil _, List.mem_append_right _ (List.mem_singleton_self _)⟩
  · have hact : S.act r c (s.nodes r) (.user (.get v)) = none := if_neg hr
    cases hx.symm.trans hact

/-- **Gets complete**: in a network whose distribution is a bijection, where no address is put
twice and no program runs, a get of an address that the node lists has been answered in every
state without further steps, with what was put there before the get. A node whose sends are
refused does not answer: the network has none. -/
theorem gets_complete (hw : S.encoding.inner.Implements C) (hB : 0 < B) (hb : S.Bijective)
    {bs : List (Action B)} {t : State B}
    (hputs : PutsOnly (as ++ .act r c (.user (.get v)) :: bs)) (run : S.Run as s)
    (hlisted : Listed r v s) (hget : S.step s (.act r c (.user (.get v))) = some s')
    (run' : Trace S.step s' bs t) (stuck : S.Stuck t) :
    ∃ a d, (a, v, d) ∈ puts as ∧ s.log.count (r, .user (.getResponse (.ok (v, d)))) <
      t.log.count (r, .user (.getResponse (.ok (v, d)))) := by
  have hwhole : S.Run (as ++ .act r c (.user (.get v)) :: bs) t :=
    run.append ((Trace.single hget).append run')
  have hrun' := run.snoc hget
  have hputs' : PutsOnly ((as ++ [.act r c (.user (.get v))]) ++ bs) := by
    rwa [List.append_assoc]
  have hend := hputs.distributing hw hB hb hwhole
  have rest := ((stuck_iff (attended_run hw hB hb hwhole)).1 stuck).1
  -- the get is due, so it has been answered at the end
  obtain ⟨hpeer, hlog, hrequest⟩ := get_step hget
  obtain ⟨-, -, hdue⟩ := due_run (n := s.log.length) hw hB hb hputs' (run.snoc hget) run'
    (hlisted.step hget) (Nat.le_of_eq (congrArg List.length hlog.symm)) (.inl hrequest)
  obtain ⟨d, hd⟩ : ∃ d, (r, .memory (.recollectResponse (.ok (v, d)))) ∈
      t.log.drop s.log.length := by
    rcases hdue with hrequest | hassembled | hanswered
    · rw [rest] at hrequest
      cases hrequest
    · exact absurd hassembled ((fetching_run hw hB hb hputs hwhole).rest rest r v)
    · exact hanswered
  -- what was answered is what was put
  obtain ⟨a, hD⟩ := hend.honest.log r _ (List.mem_of_mem_drop hd)
  have hmore : ∀ y, y ∈ puts as → y ∈ puts (as ++ .act r c (.user (.get v)) :: bs) := fun y hy => by
    rw [puts, List.filterMap_append]
    exact List.mem_append_left _ hy
  have hstart := distributing_run hw hB hb (D := putFor (puts (as ++ .act r c (.user (.get v)) :: bs)))
    (fun _ _ _ hD => author_mem_peers hwhole ((putFor_eq_some hputs.distinct).1 hD))
    (fun p c b hmem => hputs.allowed p c b (List.mem_append_left _ hmem)) hputs.of_append.distinct run
  have hwas : (a, v, d) ∈ puts as := by
    obtain ⟨⟨a', v', d'⟩, hput, rfl⟩ := List.mem_map.1 (hlisted.put hstart hpeer hD)
    cases hD.symm.trans ((putFor_eq_some hputs.distinct).2 (hmore _ hput))
    exact hput
  refine ⟨a, d, hwas, ?_⟩
  have hbefore := told_exactly run (e := .getResponse (.ok (v, d))) rfl r
  have hafter := told_exactly hwhole (e := .getResponse (.ok (v, d))) rfl r
  rw [rest, Actors.weigh_nil] at hafter
  obtain ⟨new, hnew⟩ := log_run ((Trace.single hget).append run')
  rw [hnew, List.drop_left] at hd
  have hone := List.count_pos_iff.2 hd
  rw [hnew] at hafter ⊢
  simp only [List.count_append] at hafter ⊢
  omega

/-! ## A sample run -/

open InitializedDataMemory (samplePeer)

/-- Peer 0 puts address 0, then peer 2 gets it, and every message is handled. -/
def getSettled : List (Action 4) :=
  putSettled ++ sampleUser 2 (.get ⟨0⟩) :: List.replicate 14 (sampleDeliver 0)

theorem getSettled_putsOnly : PutsOnly getSettled where
  noProgram := by simp [getSettled, putSettled, scheduled, sampleUser, sampleDeliver]
  distinct := by decide

theorem gets_complete_put : ∃ s s' t, runAll sample.step sample.init putSettled = some s ∧
    sample.step s (sampleUser 2 (.get ⟨0⟩)) = some s' ∧
    runAll sample.step s' (List.replicate 14 (sampleDeliver 0)) = some t ∧
    ∃ a d, (a, ⟨0⟩, d) ∈ puts putSettled ∧
      s.log.count (samplePeer 2, .user (.getResponse (.ok (⟨0⟩, d)))) <
        t.log.count (samplePeer 2, .user (.getResponse (.ok (⟨0⟩, d)))) := by
  obtain ⟨s, s', t, run, hlisted, hget, run', rest⟩ : ∃ s s' t,
      runAll sample.step sample.init putSettled = some s ∧ Listed (samplePeer 2) ⟨0⟩ s ∧
      sample.step s (sampleUser 2 (.get ⟨0⟩)) = some s' ∧
      runAll sample.step s' (List.replicate 14 (sampleDeliver 0)) = some t ∧ t.pool = [] :=
    ⟨_, _, _, rfl, by unfold Listed; decide +kernel, rfl, rfl, rfl⟩
  have hwhole : sample.Run getSettled t :=
    (Trace.of_runAll run).append ((Trace.single hget).append (Trace.of_runAll run'))
  have stuck := getSettled_putsOnly.stuck hwhole rest
  exact ⟨s, s', t, run, hget, run', gets_complete OneParity.coder_implements (by decide)
    sample_bijective getSettled_putsOnly (Trace.of_runAll run) hlisted hget
    (Trace.of_runAll run') stuck⟩

end Setup

end Swarm.Network
