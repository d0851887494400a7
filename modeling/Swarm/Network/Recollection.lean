import Swarm.Network.Programs
import Swarm.Processor.Refinement

/-!
# Recollecting a result

Completion is declared when enough peers have reported a program, and a
recollection decodes the first answers of any peers with a known location. All
its answers are shards of the new value if these peers have reported the program
and stored their shard, and no older answer is on its way: then
`recollected_after_completion` holds, and `completion_mixes_shards` shows what
happens otherwise.
-/

namespace Swarm.Network

open Swarm.DataMemory Swarm.Processor Swarm.Consensus Swarm.Encoding Swarm.Node
open Swarm.Behaviour (Request Response ProcessedRequests Send)
open Actors (weigh)

variable {B : Nat}

namespace Setup

/-! ## The answers of a recollection -/

section Gathering

variable (S : Setup) (v : Vid) (r : PeerId) (K : Sid → Prop) (G : Sid → Shard B → Prop)

/-- Peer `r` asks for shards of `K` only, and the shards of `K` that may reach its recollection
of `v` have property `G`. -/
structure NodeGathers (p : PeerId) (node : Node B) : Prop where
  waits : ∀ sid, r ∈ waiting node (.getShard (v, sid)) → K sid
  stored : ∀ sid x, K sid → node.tile.memory.getShard (v, sid) = some x → G sid x
  assembled : p = r → node.tile.memory.Assembled fun f x => f.1 = v → K f.2 ∧ G f.2 x

def MessageGathers (p : PeerId) : Message B → Prop
  | .memoryOut (.assignedRequest f _) => p = r → f.1 = v → K f.2
  | .request origin (.getShard f) => origin = r → f.1 = v → K f.2
  | .memoryOut (.assignedResponse f x) => ∀ y, x = some y → f.1 = v → K f.2 → G f.2 y
  | .response (.getShard f) (.getShard x) => ∀ y, x = some y → p = r → f.1 = v → K f.2 ∧ G f.2 y
  | .memoryIn (.assignedResponse f x) => ∀ y, x = some y → p = r → f.1 = v → K f.2 ∧ G f.2 y
  | _ => True

/-- Recollected data of `v` are decoded from enough shards with the property. -/
def OutputGathers (p : PeerId) : Output B → Prop
  | .memory (.recollectResponse (.ok (u, d))) => p = r → u = v → ∃ shards : HashMap Sid (Shard B),
    S.encoding.decode shards = .ok d ∧ S.encoding.settings.dataShardsSufficient ≤ shards.len ∧
      ∀ sid x, shards.lookup sid = some x → G sid x
  | _ => True

abbrev Gathers (s : State B) : Prop :=
  s.Everywhere (NodeGathers v r K G) (MessageGathers v r K G) fun _ _ => True

variable {S v r K G} {p : PeerId} {c : Choice} {node : Node B} {m : Message B}
  {x : NodeReaction B}

theorem NodeGathers.handle {memory : InitializedDataMemory B} {order : HashOrder}
    {e : DataMemory.InEvent B} {out : List (DataMemory.OutEvent B)}
    (ha : S.MemoryAddressed p node.tile.memory) (h : NodeGathers v r K G p node)
    (hm : MessageGathers v r K G p (.memoryIn e))
    (hK : p = r → e = .recollectRequest v →
      ∀ sid, (node.tile.memory.knownLocation (v, sid)).isSome → K sid)
    (hh : node.tile.memory.handle order e = .next memory out) :
    (p = r → memory.Assembled fun f x => f.1 = v → K f.2 ∧ G f.2 x) ∧
    ∀ o ∈ out, MessageGathers v r K G p (.memoryOut o) ∧ S.OutputGathers v r G p (.memory o) := by
  have hassembled : p = r → _ := fun hp => InitializedDataMemory.assembled_handle (h.assembled hp)
    (fun f y he hf => by subst he; exact hm y rfl hp hf)
    (fun u sid y he hl hy hu => by
      subst hu
      have hin := hK hp he sid (by rw [hl]; rfl)
      exact ⟨hin, h.stored sid y hin hy⟩) hh
  refine ⟨fun hp => (hassembled hp).1, fun o ho => ⟨?_, ?_⟩⟩
  · have hemit := InitializedDataMemory.handle_emits hh o ho
    cases o with
    | assignedRequest f location =>
      obtain ⟨rfl, hl, -⟩ := hemit
      intro hp hf
      subst hf
      exact hK hp rfl f.2 (by rw [hl]; rfl)
    | assignedResponse f y =>
      obtain ⟨-, rfl⟩ := hemit
      intro z hz hf hin
      subst hf
      exact h.stored f.2 z hin hz
    | _ => trivial
  · cases o with
    | recollectResponse response =>
      rcases response with _ | ⟨u, d⟩
      · trivial
      · intro hp hu
        subst hu
        obtain ⟨shards, hdecode, hlen, hall⟩ := (hassembled hp).2 u d ho
        rw [InitializedDataMemory.sufficientShards, ha.encoding] at hlen
        exact ⟨shards, ha.encoding ▸ hdecode, hlen, fun sid y hy => (hall sid y hy rfl).2⟩
    | _ => trivial

/-- **One reaction** to a message. Whatever is stored afterwards has the property. -/
theorem NodeGathers.receive (ha : S.NodeAddressed p node) (h : NodeGathers v r K G p node)
    (hm : MessageGathers v r K G p m)
    (hK : p = r → m = .memoryIn (.recollectRequest v) →
      ∀ sid, (node.tile.memory.knownLocation (v, sid)).isSome → K sid)
    (hstored : ∀ sid y, K sid → x.node.tile.memory.getShard (v, sid) = some y → G sid y)
    (hr : S.receive p c node m = some x) :
    Actors.Keeps (NodeGathers v r K G) (MessageGathers v r K G) (S.OutputGathers v r G) p x := by
  cases receive_reacts hr with
  | handled moves =>
    cases moves with
    | handled running turn =>
      obtain ⟨hassembled, hout⟩ := h.handle ha.memory hm (fun hp he => hK hp (by rw [he])) turn
      refine keeps_tile ⟨h.waits, hstored, hassembled⟩ (fun o ho => ?_) (by simp)
      obtain ⟨o', ho', he⟩ := List.mem_map.1 ho
      cases he
      exact hout o ho'
    | ended running turn => exact keeps_tile ⟨h.waits, hstored, h.assembled⟩ (by simp) (by simp)
  | started moves =>
    cases moves
    exact keeps_tile ⟨h.waits, hstored, h.assembled⟩ (by simp) (by simp)
  | instructed =>
    refine ⟨⟨h.waits, hstored, h.assembled⟩, fun q m' hqm => ?_, fun o ho => ?_⟩
    · obtain ⟨o, -, he⟩ := List.mem_map.1 hqm
      cases he
      trivial
    · obtain ⟨o', -, rfl⟩ := List.mem_map.1 ho
      trivial
  | passed notMemory sent waits =>
    refine keeps_behave ⟨fun sid hw => ?_, hstored, h.assembled⟩ (fun a ha' q m' hqm => ?_)
      fun _ => trivial
    · rcases waits _ r hw with hw | rfl
      · exact h.waits sid hw
      · exact hm rfl rfl
    · cases sent a ha' q m' hqm with
      | getRequest | getResponse => exact hm
      | @got f y q hwaits =>
        intro z hz hq hf
        subst hf hq
        have hin := h.waits f.2 hwaits
        exact ⟨hin, hm z hz rfl hin⟩
      | _ => trivial

/-- Only events change what is collected. -/
theorem assembled_moves {add : UInt8 → UInt8 → UInt8} {t t' : Tile B} {a : TileStep B}
    {out : List (TileOut B)} (hmove : t.Moves add a t' out) (ha : ∀ order e, a ≠ .handle order e) :
    t'.memory.currentlyAssembled = t.memory.currentlyAssembled := by
  cases hmove with
  | handled running turn => exact absurd rfl (ha _ _)
  | ended running turn => exact absurd rfl (ha _ _)
  | @applied u x writes running head =>
    exact InitializedDataMemory.currentlyAssembled_busWrite u x
  | _ => rfl

theorem NodeGathers.act (h : NodeGathers v r K G p node) {b : Act B}
    (hstored : ∀ sid y, K sid → x.node.tile.memory.getShard (v, sid) = some y → G sid y)
    (hr : S.act p c node b = some x) :
    Actors.Keeps (NodeGathers v r K G) (MessageGathers v r K G) (S.OutputGathers v r G) p x := by
  unfold Setup.act at hr
  split at hr
  · cases b with
    | user e =>
      cases hr
      refine keeps_behave ⟨h.waits, hstored, h.assembled⟩ (fun a ha q m hqm => ?_) fun _ => trivial
      cases asks_of_mem ha hqm <;> trivial
    | _ =>
      obtain ⟨t, out, hmove, rfl⟩ := tileStep_moves hr
      have hsame := assembled_moves hmove (fun _ _ he => by cases he)
      have hassembled : p = r → t.memory.Assembled fun f x => f.1 = v → K f.2 ∧ G f.2 x :=
        fun hp u shards hu => h.assembled hp u shards (hsame ▸ hu)
      refine keeps_tile ⟨h.waits, hstored, hassembled⟩ (fun o ho => ?_) fun _ _ _ =>
        ⟨trivial, trivial⟩
      cases hmove <;> simp at ho
  · cases hr

/-- **One step**, if a recollection at peer `r` asks for shards of `K` only and whatever is stored
has the property. -/
theorem Gathers.step {s s' : State B} {a : Action B} (ha : S.Addressed s) (h : Gathers v r K G s)
    (hK : ∀ i c, a = .deliver i c → s.pool[i]? = some (r, .memoryIn (.recollectRequest v)) →
      ∀ sid, ((s.nodes r).tile.memory.knownLocation (v, sid)).isSome → K sid)
    (hstored : ∀ q sid y, K sid → (s'.nodes q).tile.memory.getShard (v, sid) = some y → G sid y)
    (hs : S.step s a = some s') :
    Gathers v r K G s' ∧ ∃ new, s'.log = s.log ++ new ∧
      ∀ p o, (p, o) ∈ new → S.OutputGathers v r G p o := by
  have hnew : ∀ {p : PeerId} {pool : List (PeerId × Message B)} {x : NodeReaction B},
      s' = s.react p pool x → (∀ e ∈ pool, e ∈ s.pool) →
      Actors.Keeps (NodeGathers v r K G) (MessageGathers v r K G) (S.OutputGathers v r G) p x →
      Gathers v r K G s' ∧ ∃ new, s'.log = s.log ++ new ∧
        ∀ p o, (p, o) ∈ new → S.OutputGathers v r G p o := by
    rintro p pool x rfl hpool hkeep
    refine ⟨h.react hpool (hkeep.mono (fun _ h => h) (fun _ _ h => h) fun _ _ => trivial), _, rfl,
      fun q o ho => ?_⟩
    obtain ⟨o', ho', he⟩ := List.mem_map.1 ho
    cases he
    exact hkeep.outputs o ho'
  cases Actors.step_moves hs with
  | @delivered i c p m x hi hr =>
    refine hnew rfl (fun e he => List.mem_of_mem_eraseIdx he)
      ((h.nodes p).receive (ha.nodes p) (h.pool p m (List.mem_of_getElem? hi)) ?_ ?_ hr)
    · rintro rfl rfl
      exact hK i c rfl hi
    · intro sid y hin hy
      exact hstored p sid y hin (by rwa [Actors.react_nodes_self])
  | @acted p c b x hr =>
    refine hnew rfl (fun e he => he) ((h.nodes p).act (fun sid y hin hy => ?_) hr)
    exact hstored p sid y hin (by rwa [Actors.react_nodes_self])

end Gathering

/-! ## Answers on their way -/

section Answers

/-- The shard of `v` in an answer that may reach the recollection at peer `r`. -/
def answers (v : Vid) (r : PeerId) : PeerId × Message B → Option (Sid × Shard B)
  | (_, .memoryOut (.assignedResponse f x)) => if f.1 = v then x.map fun y => (f.2, y) else none
  | (p, .response (.getShard f) (.getShard x)) =>
    if p = r ∧ f.1 = v then x.map fun y => (f.2, y) else none
  | (p, .memoryIn (.assignedResponse f x)) =>
    if p = r ∧ f.1 = v then x.map fun y => (f.2, y) else none
  | _ => none

/-- Every shard with this id that may reach the recollection of `v` at peer `r`, on its way or
collected, is `o`. -/
def Fresh (v : Vid) (r : PeerId) (sid : Sid) (o : Option (Shard B)) (s : State B) : Prop :=
  (∀ e ∈ s.pool, ∀ y ∈ answers v r e, y.1 = sid → o = some y.2) ∧
    ∀ shards ∈ (s.nodes r).tile.memory.currentlyAssembled.lookup v,
      ∀ y ∈ shards.lookup sid, o = some y

variable {v : Vid} {r : PeerId} {K K' : Sid → Prop} {G G' : Sid → Shard B → Prop} {s : State B}

theorem MessageGathers.upgrade {p : PeerId} {m : Message B} (h : MessageGathers v r K G p m)
    (hK : ∀ sid, K sid → K' sid)
    (hG : ∀ sid y, answers v r (p, m) = some (sid, y) → K' sid → G' sid y) :
    MessageGathers v r K' G' p m := by
  cases m with
  | memoryOut e =>
    cases e with
    | assignedRequest f location => exact fun hp hf => hK _ (h hp hf)
    | assignedResponse f x =>
      rintro y rfl hf hin
      exact hG f.2 y (by simp [answers, hf]) hin
    | _ => trivial
  | memoryIn e =>
    cases e with
    | assignedResponse f x =>
      rintro y rfl hp hf
      have hin := hK _ (h y rfl hp hf).1
      exact ⟨hin, hG f.2 y (by simp [answers, hp, hf]) hin⟩
    | _ => trivial
  | request origin request =>
    cases request with
    | getShard f => exact fun hp hf => hK _ (h hp hf)
    | serveShard f => trivial
  | response request response =>
    cases request with
    | serveShard f => cases response <;> trivial
    | getShard f =>
      cases response with
      | serveShard x => trivial
      | getShard x =>
        rintro y rfl hp hf
        have hin := hK _ (h y rfl hp hf).1
        exact ⟨hin, hG f.2 y (by simp [answers, hp, hf]) hin⟩
  | _ => trivial

/-- The same peers are asked; what is stored, on its way and collected has another property. -/
theorem Gathers.upgrade (h : Gathers v r K G s) (hK : ∀ sid, K sid → K' sid)
    (hstored : ∀ q sid y, K' sid → (s.nodes q).tile.memory.getShard (v, sid) = some y → G' sid y)
    (hanswers : ∀ e ∈ s.pool, ∀ y ∈ answers v r e, K' y.1 → G' y.1 y.2)
    (hcollected : ∀ shards ∈ (s.nodes r).tile.memory.currentlyAssembled.lookup v,
      ∀ sid, ∀ y ∈ shards.lookup sid, K' sid → G' sid y) :
    Gathers v r K' G' s where
  nodes p := by
    refine ⟨fun sid hw => hK sid ((h.nodes p).waits sid hw), hstored p, ?_⟩
    rintro rfl u shards hu sid y hy huv
    dsimp only at huv
    subst huv
    have hin := hK sid ((h.nodes p).assembled rfl u shards hu sid y hy rfl).1
    exact ⟨hin, hcollected shards hu sid y hy hin⟩
  pool p m hm := (h.pool p m hm).upgrade hK fun sid y hy => hanswers _ hm _ hy
  log _ _ _ := trivial

end Answers

/-! ## Peers with a known location -/

section Located

variable {S : Setup} {s s' : State B} {a : Action B} {v : Vid} {r : PeerId}

theorem knownLocation_moves {add : UInt8 → UInt8 → UInt8} {t t' : Tile B} {b : TileStep B}
    {out : List (TileOut B)} {f : FullShardId} (hmove : t.Moves add b t' out)
    (h : (t.memory.knownLocation f).isSome) : (t'.memory.knownLocation f).isSome := by
  cases hmove with
  | @handled order e m out running turn =>
    change (m.knownLocation f).isSome
    rw [InitializedDataMemory.knownLocation_handle turn]
    cases t.memory.learns f e with
    | none => exact h
    | some q => rfl
  | @applied u x writes running head =>
    change ((t.memory.busWrite u x).knownLocation f).isSome
    rwa [InitializedDataMemory.knownLocation_busWrite]
  | _ => exact h

/-- A location stays known. -/
theorem knownLocation_step (hs : S.step s a = some s') {f : FullShardId}
    (h : ((s.nodes r).tile.memory.knownLocation f).isSome) :
    ((s'.nodes r).tile.memory.knownLocation f).isSome := by
  rcases step_tile hs r with hsame | ⟨b, out, hmove⟩
  · rwa [hsame]
  · exact knownLocation_moves hmove h

/-- Peer `r` has a location for the shard. -/
abbrev Located (v : Vid) (r : PeerId) (s : State B) (sid : Sid) : Prop :=
  ((s.nodes r).tile.memory.knownLocation (v, sid)).isSome

/-- In every run a peer has asked only peers with a known location. -/
theorem gathers_run {as : List (Action B)} (run : S.Run as s) :
    Gathers v r (Located v r s) (fun _ _ => True) s := by
  refine (Trace.invariant (I := fun _ s => S.Addressed s ∧
    Gathers v r (Located v r s) (fun _ _ => True) s) ⟨addressed_init, ⟨?_, ?_, ?_⟩⟩ ?_ run).2
  · refine fun p => ⟨fun sid h => (by cases h), fun _ _ _ _ => trivial, ?_⟩
    intro hp u shards h
    cases h
  · intro p m h
    cases h
  · intro _ _ _
    trivial
  · rintro as s a t ⟨ha, h⟩ hs
    have hgrow : Gathers v r (Located v r t) (fun _ _ => True) s := h.upgrade
      (fun sid hsid => knownLocation_step hs hsid) (fun _ _ _ _ _ => trivial)
      (fun _ _ _ _ _ => trivial) fun _ _ _ _ _ _ => trivial
    exact ⟨ha.step hs, (hgrow.step ha (fun _ _ _ _ sid hsid => knownLocation_step hs hsid)
      (fun _ _ _ _ _ => trivial) hs).1⟩

end Located

/-! ## Recollections after completion -/

section Completion

variable (S : Setup) (program : Instructions) (v : Vid)

/-- The instruction memory of peer `r` has declared the program executed. -/
def HasFinished (r : PeerId) (s : State B) : Prop :=
  ∃ id, id.hash = S.calculateHash program ∧ (r, .instruction (.finishedExecution id)) ∈ s.log

/-- The program that an instruction memory declares executed. -/
def finishedId : Output B → Option ProgramIdentifier
  | .instruction (.finishedExecution id) => some id
  | _ => none

theorem finishedId_eq {o : Output B} {id : ProgramIdentifier} (h : finishedId o = some id) :
    o = .instruction (.finishedExecution id) := by
  unfold finishedId at h
  split at h
  · cases h
    rfl
  · cases h

instance (r : PeerId) (s : State B) : Decidable (S.HasFinished program r s) :=
  decidable_of_iff (∃ e ∈ s.log, ∃ id ∈ finishedId e.2, e.1 = r ∧ id.hash = S.calculateHash program)
    (by
      constructor
      · rintro ⟨⟨p, o⟩, hmem, id, hid, rfl, hhash⟩
        obtain rfl := finishedId_eq hid
        exact ⟨id, hhash, hmem⟩
      · rintro ⟨id, hhash, hmem⟩
        exact ⟨_, hmem, id, rfl, rfl, hhash⟩)

/-- The message asks its receiver to recollect `v`. -/
def recollects : Message B → Bool
  | .memoryIn (.recollectRequest u) => u = v
  | _ => false

theorem recollects_eq {m : Message B} (h : recollects v m) : m = .memoryIn (.recollectRequest v) := by
  unfold recollects at h
  split at h
  · rw [of_decide_eq_true h]
  · cases h

/-- A recollection of `v` that follows the completion of the program starts when every peer with
a known location has reported the program and stored its shard of `v`, and no other shard of that
peer may reach the recollection. -/
def Complete (s : State B) : Action B → Prop
  | .deliver i _ => ∀ e ∈ s.pool[i]?, recollects v e.2 → S.HasFinished program e.1 s →
    ∀ sid ∈ (s.nodes e.1).tile.memory.knownSids v,
      ∀ q ∈ (s.nodes e.1).tile.memory.knownLocation (v, sid),
        S.HasExecuted program q s ∧ v ∉ (s.nodes q).tile.writes.map Prod.fst ∧
          Fresh v e.1 sid ((s.nodes q).tile.memory.getShard (v, sid)) s
  | .act _ _ _ => True

instance (v : Vid) (r : PeerId) (sid : Sid) (o : Option (Shard B)) (s : State B) :
    Decidable (Fresh v r sid o s) :=
  inferInstanceAs (Decidable (_ ∧ _))

instance (s : State B) : (a : Action B) → Decidable (S.Complete program v s a)
  | .deliver i _ => inferInstanceAs (Decidable (∀ e ∈ s.pool[i]?, recollects v e.2 →
    S.HasFinished program e.1 s → ∀ sid ∈ (s.nodes e.1).tile.memory.knownSids v,
      ∀ q ∈ (s.nodes e.1).tile.memory.knownLocation (v, sid),
        S.HasExecuted program q s ∧ v ∉ (s.nodes q).tile.writes.map Prod.fst ∧
          Fresh v e.1 sid ((s.nodes q).tile.memory.getShard (v, sid)) s))
  | .act _ _ _ => isTrue trivial

variable (M : PeerId → Vid → Option (Shard B))

/-- The shard that the program computes for `v` at the peer with this shard id. -/
def Value (sid : Sid) (y : Shard B) : Prop :=
  ∃ q, S.Assigned q sid ∧
    naive (ShardProcessor.calculate S.add) (M q) program v = some y

/-- Peer `q` has reported the program and stored its shard of `v`. -/
def StoredAt (q : PeerId) (s : State B) : Prop :=
  S.HasExecuted program q s ∧ v ∉ (s.nodes q).tile.writes.map Prod.fst

/-- Since the log was `log` and the program was declared executed at peer `r`, the peer has asked
only peers that have stored their new shard of `v`, and recollected only such shards. -/
structure Recollecting (n : Nat) (r : PeerId) (log : List (PeerId × Output B)) (s : State B) :
    Prop where
  reachable : ∃ as, S.Run as s
  computing : S.Computing program M n s
  finished : S.HasFinished program r s
  gathers : ∃ K, Gathers v r K (S.Value program v M) s ∧
    ∀ sid q, K sid → S.Assigned q sid → S.StoredAt program v q s
  responses : ∃ new, s.log = log ++ new ∧
    ∀ p o, (p, o) ∈ new → S.OutputGathers v r (S.Value program v M) p o

variable {S program v M} {C : MdsCode UInt8 dataShardsCount S.encoding.inner.totalShardCount}
  {s s' : State B} {a : Action B} {r q : PeerId} {sid : Sid} {n : Nat}
  {log : List (PeerId × Output B)}

theorem log_step (hs : S.step s a = some s') : ∃ new, s'.log = s.log ++ new := by
  cases Actors.step_moves hs with
  | delivered => exact ⟨_, rfl⟩
  | acted => exact ⟨_, rfl⟩

theorem HasExecuted.step (h : S.HasExecuted program q s) (hs : S.step s a = some s') :
    S.HasExecuted program q s' := by
  obtain ⟨new, hlog⟩ := log_step hs
  obtain ⟨id, results, hid, hmem⟩ := h
  exact ⟨id, results, hid, hlog ▸ List.mem_append_left _ hmem⟩

theorem HasFinished.step (h : S.HasFinished program r s) (hs : S.step s a = some s') :
    S.HasFinished program r s' := by
  obtain ⟨new, hlog⟩ := log_step hs
  obtain ⟨id, hid, hmem⟩ := h
  exact ⟨id, hid, hlog ▸ List.mem_append_left _ hmem⟩

/-- At a peer that has reported the program the course of the program is finished. -/
theorem Computing.finished (h : S.Computing program M n s) (hq : S.Assigned q sid)
    (hexec : S.HasExecuted program q s) :
    S.CourseAt program M sid q (s.nodes q).tile .finished := by
  obtain ⟨-, stage, hc, -, hreported⟩ := h.course q sid hq
  exact hreported hexec ▸ hc

theorem Computing.stored (h : S.Computing program M n s) (hv : Mentions program v)
    (hq : S.Assigned q sid) (hstored : S.StoredAt program v q s) :
    (s.nodes q).tile.memory.getShard (v, sid) =
      naive (ShardProcessor.calculate S.add) (M q) program v :=
  (h.finished hq hstored.1).stored hv hstored.2

theorem StoredAt.step (hc : S.Computing program M n s) (hv : Mentions program v)
    (hq : S.Assigned q sid) (h : S.StoredAt program v q s) (hs : S.step s a = some s') :
    S.StoredAt program v q s' := by
  refine ⟨h.1.step hs, ?_⟩
  rcases step_tile hs q with hsame | ⟨b, out, hmove⟩
  · rw [hsame]
    exact h.2
  · exact (hc.finished hq h.1).unqueued hv hmove h.2

/-- Stored shards with the ids of peers that have stored their new shard are new. -/
theorem Computing.value {K : Sid → Prop} (h : S.Computing program M n s) (hv : Mentions program v)
    (hK : ∀ sid q, K sid → S.Assigned q sid → S.StoredAt program v q s) {y : Shard B}
    (hsid : K sid) (hy : (s.nodes q).tile.memory.getShard (v, sid) = some y) :
    S.Value program v M sid y := by
  have hq : S.Assigned q sid :=
    (h.addressed.nodes q).memory.stored _ (Option.isSome_iff_exists.2 ⟨y, hy⟩)
  exact ⟨q, hq, (h.stored hv hq (hK sid q hsid hq)).symm.trans hy⟩

/-- **One recollection** that starts when it may asks for new shards only. -/
theorem Complete.gathers (hb : S.Bijective) {as : List (Action B)} (run : S.Run as s)
    (h : S.Computing program M n s) (hv : Mentions program v) (hr : S.HasFinished program r s)
    {i : Nat} {c : Choice} (hi : s.pool[i]? = some (r, .memoryIn (.recollectRequest v)))
    (hcomplete : S.Complete program v s (.deliver i c)) :
    Gathers v r (Located v r s) (S.Value program v M) s ∧
      ∀ sid q, Located v r s sid → S.Assigned q sid → S.StoredAt program v q s := by
  have hcomplete := hcomplete _ hi (decide_eq_true rfl) hr
  have hlocated : ∀ sid, Located v r s sid → ∃ q, S.Assigned q sid ∧ S.StoredAt program v q s ∧
      Fresh v r sid ((s.nodes q).tile.memory.getShard (v, sid)) s := fun sid hsid => by
    obtain ⟨q, hq⟩ := Option.isSome_iff_exists.1 hsid
    obtain ⟨hexec, hqueue, hfresh⟩ :=
      hcomplete sid (InitializedDataMemory.mem_knownSids.2 hsid) q hq
    exact ⟨q, (h.addressed.nodes r).memory.located _ _ hq, ⟨hexec, hqueue⟩, hfresh⟩
  have hstored : ∀ sid q, Located v r s sid → S.Assigned q sid → S.StoredAt program v q s :=
    fun sid q hsid hq => by
      obtain ⟨q', hq', hstored, -⟩ := hlocated sid hsid
      exact hb.injective _ _ _ hq hq' ▸ hstored
  refine ⟨(gathers_run run).upgrade (fun _ h => h)
    (fun q sid y hsid hy => h.value hv hstored hsid hy) (fun e he y hy hsid => ?_)
    fun shards hu sid y hy hsid => ?_, hstored⟩
  · obtain ⟨q, hq, -, hfresh⟩ := hlocated y.1 hsid
    exact h.value hv hstored hsid (hfresh.1 e he y hy rfl)
  · obtain ⟨q, hq, -, hfresh⟩ := hlocated sid hsid
    exact h.value hv hstored hsid (hfresh.2 shards hu y hy)

/-- **One step** whose recollections start when they may. -/
theorem Recollecting.step (hw : S.encoding.inner.Implements C) (hB : 0 < B) (hb : S.Bijective)
    (hv : Mentions program v) (hn : n ≤ 1) (h : S.Recollecting program v M n r log s)
    (hspares : ∀ p c b, a = .act p c b → S.Spares program b)
    (hcomplete : S.Complete program v s a) (hs : S.step s a = some s') :
    S.Recollecting program v M (n + schedules program a) r log s' := by
  obtain ⟨as, run⟩ := h.reachable
  have hcomputing := h.computing.step hw hB hb hn hspares hs
  obtain ⟨K, hgathers, hstored, hasks⟩ : ∃ K, Gathers v r K (S.Value program v M) s ∧
      (∀ sid q, K sid → S.Assigned q sid → S.StoredAt program v q s) ∧
      ∀ i c, a = .deliver i c → s.pool[i]? = some (r, .memoryIn (.recollectRequest v)) →
        ∀ sid, Located v r s sid → K sid := by
    by_cases hrequest : ∃ i c, a = .deliver i c ∧
        s.pool[i]? = some (r, .memoryIn (.recollectRequest v))
    · obtain ⟨i, c, rfl, hi⟩ := hrequest
      obtain ⟨hgathers, hstored⟩ := hcomplete.gathers hb run h.computing hv h.finished hi
      exact ⟨_, hgathers, hstored, fun _ _ _ _ _ hsid => hsid⟩
    · obtain ⟨K, hgathers, hstored⟩ := h.gathers
      exact ⟨K, hgathers, hstored, fun i c he hi => absurd ⟨i, c, he, hi⟩ hrequest⟩
  have hstored' : ∀ sid q, K sid → S.Assigned q sid → S.StoredAt program v q s' :=
    fun sid q hsid hq => (hstored sid q hsid hq).step h.computing hv hq hs
  obtain ⟨hgathers', new, hlog, hnew⟩ := hgathers.step h.computing.addressed hasks
    (fun q sid y hsid hy => hcomputing.value hv hstored' hsid hy) hs
  obtain ⟨old, hold, hresponses⟩ := h.responses
  refine ⟨⟨_, run.snoc hs⟩, hcomputing, h.finished.step hs, ⟨K, hgathers', hstored'⟩,
    old ++ new, by rw [hlog, hold, List.append_assoc], fun p o ho => ?_⟩
  rcases List.mem_append.1 ho with ho | ho
  · exact hresponses p o ho
  · exact hnew p o ho

theorem Recollecting.run (hw : S.encoding.inner.Implements C) (hB : 0 < B) (hb : S.Bijective)
    (hv : Mentions program v) (h : S.Recollecting program v M n r log s) {as : List (Action B)}
    (hspares : ∀ p c b, .act p c b ∈ as → S.Spares program b)
    (once : n + weigh (schedules program) as ≤ 1) (run : Trace S.step s as s')
    (complete : Along S.step (S.Complete program v) s as) :
    S.Recollecting program v M (n + weigh (schedules program) as) r log s' := by
  refine Trace.invariant_along (I := fun as s' =>
    (∀ p c b, .act p c b ∈ as → S.Spares program b) → n + weigh (schedules program) as ≤ 1 →
    S.Recollecting program v M (n + weigh (schedules program) as) r log s') (fun _ _ => h) ?_ run
    complete hspares once
  intro as t a u ih hcomplete hs hspares once
  rw [Actors.weigh_append, Actors.weigh_cons, Actors.weigh_nil, Nat.add_zero] at once ⊢
  have ht := ih (fun p c b hmem => hspares p c b (List.mem_append_left _ hmem)) (by omega)
  rw [← Nat.add_assoc]
  exact ht.step hw hB hb hv (by omega) (fun p c b he => hspares p c b (by simp [he])) hcomplete hs

end Completion

/-! ## Runs -/

section Runs

variable (S : Setup)

/-- Every peer runs and holds its shards of the data store `D`, and no peer has reported the
program. Neither the program nor a shard of a Vid that it mentions is on its way: no message, no
execution and no queued write stores one. -/
structure Settled (D : HashMap Vid (Data B)) (program : Instructions) (s : State B) : Prop where
  running : ∀ q, (s.nodes q).tile.running = true
  held : ∀ q sid, S.Assigned q sid → HoldsShards S.encoding D sid.val (s.nodes q).tile.memory
  fresh : ∀ q, ¬ S.HasExecuted program q s
  unsent : ∀ q, ∀ e ∈ s.pool, carries program q e = 0
  apart : ∀ p m, (p, m) ∈ s.pool → S.MessageApart program p m
  foreign : ∀ q, Foreign (S.calculateHash program) program (s.nodes q).tile
  unqueued : ∀ q, ∀ w ∈ (s.nodes q).tile.writes, ¬ Mentions program w.1

/-- The program is scheduled once at most. The Vids it mentions are not put, and other programs,
with other hashes, do not mention them. -/
structure Alone (program : Instructions) (as : List (Action B)) : Prop where
  once : weigh (schedules program) as ≤ 1
  injective : (insert program (scheduled as)).InjOn S.calculateHash
  others : ∀ other ∈ scheduled as, other ≠ program → ∀ u, Mentions other u → ¬ Mentions program u
  noPut : ∀ u ∈ putVids as, ¬ Mentions program u

/-- The shards that the peers store in state `s`, each under its own shard id. -/
def shardsAt (s : State B) (q : PeerId) (v : Vid) : Option (Shard B) :=
  (S.distribution.lookup q).bind fun sid => (s.nodes q).tile.memory.getShard (v, sid)

variable {S} {C : MdsCode UInt8 dataShardsCount S.encoding.inner.totalShardCount}
  {D D' : HashMap Vid (Data B)} {program : Program} {v : Vid} {r q : PeerId} {sid : Sid}
  {s₀ s₁ s : State B}

theorem shardsAt_eq (hq : S.Assigned q sid) :
    S.shardsAt s q = fun v => (s.nodes q).tile.memory.getShard (v, sid) := by
  funext v
  rw [shardsAt, hq, Option.bind_some]

/-- A network at rest may be settled. -/
theorem Settled.of_rest {instructions : Instructions} (rest : s.pool = [])
    (idle : ∀ q, NodeIdle q (s.nodes q))
    (held : ∀ q sid, S.Assigned q sid → HoldsShards S.encoding D sid.val (s.nodes q).tile.memory)
    (fresh : ∀ q, ¬ S.HasExecuted instructions q s) : S.Settled D instructions s where
  running q := (idle q).running
  held := held
  fresh := fresh
  unsent q := by simp [rest]
  apart := by simp [rest]
  foreign q id code hr := by
    rw [(idle q).ready] at hr
    cases hr
  unqueued q := by simp [(idle q).writes]

theorem Settled.computing {as : List (Action B)} (run : S.Run as s)
    (h : S.Settled D program.instructions s) :
    S.Computing program.instructions (S.shardsAt s) 0 s where
  addressed := addressed_run run
  apart := h.apart
  course q sid hq := by
    refine ⟨h.running q, .before, .before (h.foreign q) ⟨fun v _ => ?_, h.unqueued q⟩, ?_,
      fun hexec => absurd hexec (h.fresh q)⟩
    · rw [shardsAt_eq hq]
    · rw [Actors.weigh_eq_zero (h.unsent q)]
      exact le_rfl

theorem Alone.spares {as : List (Action B)} (h : S.Alone program.instructions as) {p : PeerId}
    {c : Choice} {b : Act B} (hmem : .act p c b ∈ as) : S.Spares program.instructions b := by
  cases b with
  | user e =>
    cases e with
    | put u d => exact h.noPut u (List.mem_map.2 ⟨_, List.mem_filterMap.2 ⟨_, hmem, rfl⟩, rfl⟩)
    | scheduleProgram other =>
      have hother : other ∈ scheduled as := ⟨p, c, hmem⟩
      by_cases hown : other = program.instructions
      · exact .inl hown
      · refine .inr ⟨fun he => hown ?_, h.others other hother hown⟩
        exact h.injective (Set.mem_insert_of_mem _ hother) (Set.mem_insert _ _) he
    | _ => trivial
  | _ => trivial

/-- The new shards of a result are the shards of its local value. -/
theorem Settled.value (hw : S.encoding.inner.Implements C) (hlin : C.Commutes (· ^^^ ·))
    (hadd : ∀ a b, S.add a b = a ^^^ b) (hB : 0 < B) (hb : S.Bijective)
    (hprog : ∀ ins ∈ program.instructions, ins.operation.IsLinear)
    (hmock : Mock.executeOn S.add program D = .ok D') (h : S.Settled D program.instructions s)
    {d : Data B} (hd : D'.lookup v = some d) {y : Shard B}
    (hy : S.Value program.instructions v (S.shardsAt s) sid y) :
    (codeword C d).lookup sid = some y := by
  obtain ⟨q, hq, hy⟩ := hy
  have hlt : sid.val < S.encoding.inner.totalShardCount := (hb.sids sid).1 ⟨q, hq⟩
  rw [shardsAt_eq hq] at hy
  rw [lookup_codeword, dif_pos hlt, ← hy]
  exact ((h.held q sid hq).naive (i := ⟨sid.val, hlt⟩) hw hlin hadd hB hprog hmock hd).symm

/-- **Recollection after completion**: in a run in which one linear program executes and every
recollection of its result starts when it may, a peer that asks for the result after it has
declared the program executed recollects nothing but what the program computes. -/
theorem recollected_after_completion (hw : S.encoding.inner.Implements C)
    (hlin : C.Commutes (· ^^^ ·)) (hadd : ∀ a b, S.add a b = a ^^^ b) (hB : 0 < B)
    (hb : S.Bijective) (linear : ∀ ins ∈ program.instructions, ins.operation.IsLinear)
    (localRun : Mock.executeOn S.add program D = .ok D') {as₀ as cs : List (Action B)} {i : Nat}
    {c : Choice} (before : S.Run as₀ s₀) (settled : S.Settled D program.instructions s₀)
    (isResult : v ∈ resultIds program.instructions)
    (alone : S.Alone program.instructions (as ++ .deliver i c :: cs))
    (run : Trace S.step s₀ as s₁) (request : s₁.pool[i]? = some (r, .memoryIn (.recollectRequest v)))
    (finished : S.HasFinished program.instructions r s₁)
    (rest : Trace S.step s₁ (.deliver i c :: cs) s)
    (complete : Along S.step (S.Complete program.instructions v) s₀ (as ++ .deliver i c :: cs))
    {x : Data B}
    (response : (r, .memory (.recollectResponse (.ok (v, x)))) ∈ s.log.drop s₁.log.length) :
    D'.lookup v = some x := by
  have hv : Mentions program.instructions v := .inr isResult
  have honce := alone.once
  rw [Actors.weigh_append] at honce
  have hcomputing := (settled.computing before).run hw hB hb
    (fun p c b hmem => alone.spares (List.mem_append_left _ hmem)) (by omega) run
  obtain ⟨-, hcomplete⟩ := run.along_append complete
  have hstart : S.Recollecting program.instructions v (S.shardsAt s₀)
      (0 + weigh (schedules program.instructions) as) r s₁.log s₁ :=
    ⟨⟨_, before.append run⟩, hcomputing, finished,
      ⟨_, hcomplete.1.gathers hb (before.append run) hcomputing hv finished request⟩, [], by simp,
      by simp⟩
  have hrest := hstart.run hw hB hb hv
    (fun p c b hmem => alone.spares (List.mem_append_right _ hmem)) (by omega) rest hcomplete
  obtain ⟨new, hlog, hnew⟩ := hrest.responses
  rw [hlog, List.drop_left] at response
  obtain ⟨shards, hdecode, hlen, hvalue⟩ := hnew r _ response rfl rfl
  obtain ⟨d, hd⟩ := Option.isSome_iff_exists.1 (Mock.executeOn_isSome localRun isResult)
  rw [decode_codeword hw hB (hw.data ▸ hlen) fun sid y hy =>
    settled.value hw hlin hadd hB hb linear localRun hd (hvalue sid y hy)] at hdecode
  cases hdecode
  exact hd

open InitializedDataMemory (samplePeer)

/-- The data unit 0, 1, …, 7. -/
def ramp : Data 4 := ⟨fun b => UInt8.ofNat b⟩

/-- The unit at address 0. -/
def rampStore : HashMap Vid (Data 4) := Finmap.singleton ⟨0⟩ ramp

/-- Adds the unit at address 0 to itself. -/
def cancelling : Program := .new sample.calculateHash [⟨.plus ⟨⟨0⟩, ⟨0⟩⟩, ⟨0⟩⟩] default

/-- Peer 0 puts address 0 and every message is handled. -/
def storeSteps : List (Action 4) :=
  sampleUser 0 (.put ⟨0⟩ ramp) :: List.replicate 47 (sampleDeliver 0)

/-- Peer `i` executes the program it has taken. -/
def executeSteps (i : UInt8) : List (Action 4) :=
  [.read default, .push, .applyWrite, .finish].map (.act (samplePeer i) default)

/-- Nothing is on its way or was executed, and every peer holds its shard of the ramp. -/
abbrev Stored (s : State 4) : Prop :=
  s.pool.isEmpty ∧ (∀ e ∈ s.log, executedId e.2 = none) ∧
    ∀ i : Fin 3, (s.nodes (samplePeer (UInt8.ofNat i))).tile.memory.getShard (⟨0⟩, ⟨i⟩) =
      (codeword (w := OneParity.wrapper) OneParity.code ramp).lookup ⟨i⟩

/-- After the put the network is settled. -/
theorem settled_store {s : State 4} (run : sample.Run storeSteps s) (stored : Stored s) :
    sample.Settled rampStore cancelling.instructions s := by
  obtain ⟨rest, fresh, held⟩ := stored
  have haddressed := addressed_run run
  have hallowed : ∀ p c b, .act p c b ∈ storeSteps →
      Allowed (fun v => if v = ⟨0⟩ then some (samplePeer 0, ramp) else none) p b := by
    intro p c b hmem
    simp only [storeSteps, sampleUser, sampleDeliver, List.mem_cons, List.mem_replicate,
      reduceCtorEq, and_false, or_false, Actors.Action.act.injEq] at hmem
    obtain ⟨rfl, -, rfl⟩ := hmem
    rfl
  have hdistributing := distributing_run (S := sample) (C := OneParity.code)
    OneParity.coder_implements (by decide) sample_bijective (fun v a d hD => ?_) hallowed
    (by decide) run
  · refine .of_rest (List.isEmpty_iff.1 rest) (fun q => (hdistributing.honest.nodes q).idle)
      (fun q sid hq => ?_) ?_
    · refine ⟨(haddressed.nodes q).memory.assignedSid hq,
        fun v s hs => (haddressed.nodes q).memory.only hq hs, fun v d hd => ?_⟩
      rw [rampStore, Finmap.lookup_singleton_ite] at hd
      split at hd
      · rename_i hv
        cases hd
        subst hv
        refine ⟨_, encode_eq OneParity.coder_implements (by decide) ramp, ?_⟩
        rcases sample_assigned.1 hq with ⟨rfl, rfl⟩ | ⟨rfl, rfl⟩ | ⟨rfl, rfl⟩
        · exact held 0
        · exact held 1
        · exact held 2
      · cases hd
    · rintro q ⟨id, results, -, hmem⟩
      have hnone := fresh _ hmem
      cases hnone
  · split at hD
    · cases hD
      decide
    · cases hD

/-- Peer 0 schedules the program, every peer executes it, and when all is handled peer 0 asks for
the address. -/
def sumSteps : List (Action 4) :=
  sampleUser 0 (.scheduleProgram cancelling.instructions) :: List.replicate 12 (sampleDeliver 0) ++
    executeSteps 0 ++ executeSteps 1 ++ executeSteps 2 ++ List.replicate 42 (sampleDeliver 0) ++
    [sampleUser 0 (.get ⟨0⟩)]

theorem cancelling_alone {as : List (Action 4)}
    (once : weigh (schedules cancelling.instructions) as ≤ 1)
    (scheduled_eq : ∀ other ∈ scheduled as, other = cancelling.instructions)
    (noPut : putVids as = []) : sample.Alone cancelling.instructions as where
  once := once
  injective := by
    have hall : ∀ other ∈ insert cancelling.instructions (scheduled as),
        other = cancelling.instructions := fun other hother =>
      hother.elim id (scheduled_eq other)
    intro p hp q hq _
    rw [hall p hp, hall q hq]
  others other hother hne := absurd (scheduled_eq other hother) hne
  noPut u hu := by
    rw [noPut] at hu
    cases hu

/-- The message at index `i` asks peer `r` to recollect `v`. -/
def requested (v : Vid) (r : PeerId) (s : State B) (i : Nat) : Bool :=
  s.pool[i]?.any fun e => e.1 = r ∧ recollects v e.2

theorem requested_eq {i : Nat} (h : requested v r s i) :
    s.pool[i]? = some (r, .memoryIn (.recollectRequest v)) := by
  obtain ⟨⟨p, m⟩, hi, he⟩ := (Option.any_eq_true _ _).1 h
  obtain ⟨rfl, hm⟩ := of_decide_eq_true he
  obtain rfl : m = _ := recollects_eq _ hm
  exact hi

/-- The unit that a recollection returns. -/
def recollected : Output B → Option (Vid × Data B)
  | .memory (.recollectResponse (.ok y)) => some y
  | _ => none

theorem recollected_eq {o : Output B} {y : Vid × Data B} (h : recollected o = some y) :
    o = .memory (.recollectResponse (.ok y)) := by
  unfold recollected at h
  split at h
  · cases h
    rfl
  · cases h

theorem mem_of_recollected {log : List (PeerId × Output B)} {y : Vid × Data B}
    (h : ∃ e ∈ log, e.1 = r ∧ recollected e.2 = some y) :
    (r, .memory (.recollectResponse (.ok y))) ∈ log := by
  obtain ⟨⟨p, o⟩, hmem, rfl, ho⟩ := h
  obtain rfl : o = _ := recollected_eq ho
  exact hmem

theorem recollected_after_completion_sum :
    ∃ s₀ s₁ s D' x, runAll sample.step sample.init storeSteps = some s₀ ∧
      runAll sample.step s₀ sumSteps = some s₁ ∧
      runAll sample.step s₁ (List.replicate 12 (sampleDeliver 0)) = some s ∧
      (samplePeer 0, .memory (.recollectResponse (.ok (⟨0⟩, x)))) ∈ s.log.drop s₁.log.length ∧
      Mock.executeOn sample.add cancelling rampStore = .ok D' ∧ D'.lookup ⟨0⟩ = some x := by
  obtain ⟨s₀, run₀, s₁, run₁, s, run, stored, request, finished, complete, response⟩ :
      ∃ s₀ ∈ runAll sample.step sample.init storeSteps, ∃ s₁ ∈ runAll sample.step s₀ sumSteps,
        ∃ s ∈ runAll sample.step s₁ (List.replicate 12 (sampleDeliver 0)), Stored s₀ ∧
        requested ⟨0⟩ (samplePeer 0) s₁ 0 ∧
        sample.HasFinished cancelling.instructions (samplePeer 0) s₁ ∧
        Along sample.step (sample.Complete cancelling.instructions ⟨0⟩) s₀
          (sumSteps ++ List.replicate 12 (sampleDeliver 0)) ∧
        ∃ e ∈ s.log.drop s₁.log.length, e.1 = samplePeer 0 ∧
          recollected e.2 = some (⟨0⟩, ⟨fun _ => 0⟩) := by decide +kernel
  obtain ⟨D', localRun⟩ : ∃ D', Mock.executeOn sample.add cancelling rampStore = .ok D' := ⟨_, rfl⟩
  have response := mem_of_recollected response
  refine ⟨s₀, s₁, s, D', _, run₀, run₁, run, response, localRun, ?_⟩
  exact recollected_after_completion OneParity.coder_implements OneParity.code_commutes
    (fun _ _ => rfl) (by decide) sample_bijective
    (show ∀ ins ∈ cancelling.instructions, ins.operation.IsLinear by decide) localRun
    (Trace.of_runAll run₀)
    (settled_store (Trace.of_runAll run₀) stored) (by decide) (cancelling_alone (by decide)
      (by simp [scheduled, sumSteps, executeSteps, sampleUser, sampleDeliver]) (by decide))
    (Trace.of_runAll run₁) (requested_eq request) finished (Trace.of_runAll run) complete response

/-- Two of three peers execute the program and report it, and peer 0 asks for the address. -/
def mixedSteps : List (Action 4) :=
  sampleUser 0 (.scheduleProgram cancelling.instructions) :: List.replicate 2 (sampleDeliver 0) ++
    List.replicate 6 (sampleDeliver 1) ++ executeSteps 0 ++ executeSteps 1 ++
    List.replicate 4 (sampleDeliver 1) ++ List.replicate 2 (sampleDeliver 2) ++
    List.replicate 14 (sampleDeliver 3) ++ [sampleUser 0 (.get ⟨0⟩)]

/-- Two reports are enough for completion. The third peer has executed nothing, but its location
is known from the put, and its old shard comes before the new one of the second peer. -/
theorem completion_mixes_shards :
    ∃ s₀ s₁ s D' d x, runAll sample.step sample.init storeSteps = some s₀ ∧
      sample.Settled rampStore cancelling.instructions s₀ ∧
      sample.Alone cancelling.instructions
        (mixedSteps ++ sampleDeliver 3 :: List.replicate 6 (sampleDeliver 4)) ∧
      runAll sample.step s₀ mixedSteps = some s₁ ∧
      s₁.pool[3]? = some (samplePeer 0, .memoryIn (.recollectRequest ⟨0⟩)) ∧
      sample.HasFinished cancelling.instructions (samplePeer 0) s₁ ∧
      runAll sample.step s₁ (sampleDeliver 3 :: List.replicate 6 (sampleDeliver 4)) = some s ∧
      (samplePeer 0, .memory (.recollectResponse (.ok (⟨0⟩, x)))) ∈ s.log.drop s₁.log.length ∧
      Mock.executeOn sample.add cancelling rampStore = .ok D' ∧ D'.lookup ⟨0⟩ = some d ∧ x ≠ d := by
  obtain ⟨s₀, run₀, s₁, run₁, s, run, stored, request, finished, response⟩ :
      ∃ s₀ ∈ runAll sample.step sample.init storeSteps, ∃ s₁ ∈ runAll sample.step s₀ mixedSteps,
        ∃ s ∈ runAll sample.step s₁ (sampleDeliver 3 :: List.replicate 6 (sampleDeliver 4)),
        Stored s₀ ∧ requested ⟨0⟩ (samplePeer 0) s₁ 3 ∧
        sample.HasFinished cancelling.instructions (samplePeer 0) s₁ ∧
        ∃ e ∈ s.log.drop s₁.log.length, e.1 = samplePeer 0 ∧
          recollected e.2 = some (⟨0⟩, ⟨fun b => [0, 0, 0, 0, 4, 138, 5, 139].getD b 0⟩) := by
    decide +kernel
  obtain ⟨D', localRun⟩ : ∃ D', Mock.executeOn sample.add cancelling rampStore = .ok D' := ⟨_, rfl⟩
  refine ⟨s₀, s₁, s, D', ⟨fun _ => 0⟩, _, run₀,
    settled_store (Trace.of_runAll run₀) stored,
    cancelling_alone (by decide)
      (by simp [scheduled, mixedSteps, executeSteps, sampleUser, sampleDeliver]) (by decide),
    run₁, requested_eq request, finished, run, mem_of_recollected response, localRun, ?_, by decide⟩
  cases localRun
  decide

end Runs

end Setup

end Swarm.Network
