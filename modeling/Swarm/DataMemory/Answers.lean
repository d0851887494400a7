import Swarm.DataMemory.Arrivals
import Swarm.DataMemory.Events
import Swarm.DataMemory.Recollection

/-!
# Late answers

More shards are asked for than a recollection needs, so answers outlive it. An
answer is matched with its request by the request id, and the data memory gets
the id of the shard only: it takes the shard for whichever recollection of the
data is under way. `Recollector` is a data memory with the history of its
recollections. `recollected_from_own` gives the condition under which data are
decoded from shards of the recollection that reports them, `late_answer_mixes_puts`
a run without it.
-/

namespace Swarm.DataMemory

open Swarm.Encoding

variable {B : Nat}

/-- The inputs of a data memory whose answers come by request id. -/
inductive Action (B : Nat) where
  | recollect (order : HashOrder) (dataId : Vid)
  | answer (requestId : Nat) (shard : Option (Shard B))
  | other (i : Input B)

/-- An input that `Action` has another constructor for. -/
def Input.OfRecollection : Input B → Prop
  | .event _ (.recollectRequest _) | .event _ (.assignedResponse _ _) => True
  | _ => False

instance : DecidablePred (Input.OfRecollection (B := B))
  | .event _ e => by unfold Input.OfRecollection; cases e <;> infer_instance
  | .busRead _ | .busWrite _ _ => inferInstanceAs (Decidable False)

namespace InitializedDataMemory

instance (m : InitializedDataMemory B) (v : Vid) : Decidable (m.Collects v) :=
  match h : m.dataKnownLocations.lookup v with
  | none => .isFalse fun ⟨_, _, hl, _⟩ => by rw [h] at hl; cases hl
  | some locations =>
    decidable_of_iff (v ∉ m.currentlyAssembled ∧ m.sufficientShards ≤ locations.len)
      ⟨fun ⟨hv, hlen⟩ => ⟨hv, locations, h, hlen⟩, fun ⟨hv, locations', hl, hlen⟩ =>
        ⟨hv, by rw [h] at hl; cases hl; exact hlen⟩⟩

/-- The shards that a request for `v` reads from the local storage. -/
def reads (m : InitializedDataMemory B) (order : HashOrder) (v : Vid) :
    List (FullShardId × Shard B) :=
  if m.Collects v then
    ((m.dataKnownLocations.orDefault v).iter order.sids).filterMap fun p =>
      if p.2 = m.localId then (m.getShard (v, p.1)).map ((v, p.1), ·) else none
  else []

/-- `v` is being assembled and still lacks the shard. -/
def Lacks (m : InitializedDataMemory B) (f : FullShardId) : Prop :=
  f.1 ∈ m.currentlyAssembled ∧ f.2 ∉ m.currentlyAssembled.orDefault f.1

instance (m : InitializedDataMemory B) (f : FullShardId) : Decidable (m.Lacks f) :=
  inferInstanceAs (Decidable (_ ∧ _))

end InitializedDataMemory

open InitializedDataMemory

/-- A data memory with the history of its recollections, which are numbered by their
`RecollectRequest`s. -/
structure Recollector (B : Nat) where
  memory : InitializedDataMemory B
  /-- The number of `RecollectRequest`s so far. -/
  requests : Nat
  /-- The `AssignedRequest`s, each with the recollection that sent it. The position is the
  request id; the behaviour keeps all of them in `pending_response`. -/
  asked : List (Nat × FullShardId)
  /-- The recollection that started the assembly of the data, the present or the last one. -/
  collector : Vid → Nat
  /-- The shards a recollection has read locally or been answered. -/
  obtained : List (Nat × FullShardId × Shard B)
  /-- The successful responses, each with the recollection it concludes. -/
  concluded : List (Nat × Vid × Data B)

namespace Recollector

def start (memory : InitializedDataMemory B) : Recollector B := ⟨memory, 0, [], fun _ => 0, [], []⟩

/-- The request for a shard, sent by recollection `n`. -/
def asks (n : Nat) : OutEvent B → Option (Nat × FullShardId)
  | .assignedRequest fullShardId _ => some (n, fullShardId)
  | _ => none

/-- The successful response, with the recollection it concludes. -/
def concludes (collector : Vid → Nat) : OutEvent B → Option (Nat × Vid × Data B)
  | .recollectResponse (.ok (dataId, data)) => some (collector dataId, dataId, data)
  | _ => none

/-- The state after a turn of the memory. -/
def after (r : Recollector B) : Step B → Option (Recollector B)
  | .next memory out => some { r with
      memory := memory
      concluded := r.concluded ++ out.filterMap (concludes r.collector) }
  | .stop | .panic => none

def recollect (r : Recollector B) (order : HashOrder) (v : Vid) : Option (Recollector B) :=
  let turn := r.memory.handleRecollectRequest order v
  let out := match turn with
    | .next _ out => out
    | .stop | .panic => []
  after { r with
    requests := r.requests + 1
    asked := r.asked ++ out.filterMap (asks r.requests)
    collector := if r.memory.Collects v then Function.update r.collector v r.requests
      else r.collector
    obtained := r.obtained ++ (r.memory.reads order v).map (r.requests, ·) } turn

def answer (r : Recollector B) (requestId : Nat) (shard : Option (Shard B)) :
    Option (Recollector B) :=
  match r.asked[requestId]? with
  -- a response for an unknown request is ignored
  | none => some r
  | some (n, fullShardId) =>
    after { r with obtained := r.obtained ++ shard.toList.map (n, fullShardId, ·) }
      (r.memory.handleAssignedResponse fullShardId shard)

def step (r : Recollector B) : Action B → Option (Recollector B)
  | .recollect order v => r.recollect order v
  | .answer requestId shard => r.answer requestId shard
  | .other i => if i.OfRecollection then none else r.after (r.memory.turn i)

/-- The shard that an answer brings to an assembly that lacks it has been asked for by the
recollection that started this assembly. -/
def AnswersOwn (r : Recollector B) : Action B → Prop
  | .answer requestId (some _) =>
    match r.asked[requestId]? with
    | none => True
    | some (n, fullShardId) => r.memory.Lacks fullShardId → n = r.collector fullShardId.1
  | _ => True

instance (r : Recollector B) (a : Action B) : Decidable (r.AnswersOwn a) := by
  unfold AnswersOwn
  split
  · split <;> infer_instance
  · infer_instance

/-- Every reported data unit is decoded from enough shards that the recollection concluded by
the report has obtained. -/
def FromOwn (r : Recollector B) : Prop :=
  ∀ n v x, (n, v, x) ∈ r.concluded →
    r.memory.DecodedFrom (fun f y => (n, f, y) ∈ r.obtained) v x

/-! ## One action -/

end Recollector

namespace InitializedDataMemory

variable {m m' : InitializedDataMemory B} {order : HashOrder} {out : List (OutEvent B)} {v : Vid}
  {P Q : FullShardId → Shard B → Prop}

theorem Assembled.mono (h : m.Assembled P) (hPQ : ∀ f y, P f y → Q f y) : m.Assembled Q :=
  fun v shards hv s x hx => hPQ (v, s) x (h v shards hv s x hx)

theorem DecodedFrom.mono {d : Data B} (h : m.DecodedFrom P v d) (he : m'.encoding = m.encoding)
    (hPQ : ∀ f y, P f y → Q f y) : m'.DecodedFrom Q v d := by
  obtain ⟨shards, hdec, hlen, hall⟩ := h
  refine ⟨shards, he ▸ hdec, ?_, fun s x hx => hPQ (v, s) x (hall s x hx)⟩
  unfold sufficientShards at *
  rwa [he]

/-- An answer that no assembly lacks has no effect. -/
theorem handleAssignedResponse_skips {f : FullShardId} {x : Shard B} (h : ¬ m.Lacks f) :
    m.handleAssignedResponse f (some x) = .next m [] := by
  unfold handleAssignedResponse
  cases hr : m.currentlyAssembled.lookup f.1 with
  | none => rfl
  | some received =>
    have hmem : f.2 ∈ received := by
      by_contra hnot
      refine h ⟨Finmap.mem_of_lookup_eq_some hr, ?_⟩
      rwa [Finmap.orDefault_some hr]
    simp only [if_pos hmem]

/-- A request that starts no assembly reports no data. -/
theorem handleRecollectRequest_skips (h : ¬ m.Collects v) :
    ∃ out, m.handleRecollectRequest order v = .next m out ∧
      ∀ p, OutEvent.recollectResponse (.ok p) ∉ out := by
  unfold handleRecollectRequest
  cases hl : m.dataKnownLocations.lookup v with
  | none => exact ⟨_, rfl, by simp⟩
  | some locations =>
    by_cases hlen : locations.len < m.sufficientShards
    · exact ⟨_, if_pos hlen, by simp⟩
    · have hv : v ∈ m.currentlyAssembled := by
        by_contra hv
        exact h ⟨hv, locations, hl, Nat.le_of_not_lt hlen⟩
      simp only [if_neg hlen, if_pos hv]
      exact ⟨[], rfl, by simp⟩

theorem mem_reads {s : Sid} {x : Shard B} (hc : m.Collects v)
    (hl : m.knownLocation (v, s) = some m.localId) (hx : m.getShard (v, s) = some x) :
    ((v, s), x) ∈ m.reads order v := by
  unfold reads
  rw [if_pos hc]
  refine List.mem_filterMap.2 ⟨(s, m.localId), Finmap.mem_iter.2 hl, ?_⟩
  rw [if_pos rfl, hx]
  rfl

end InitializedDataMemory

namespace Recollector

variable {r r' : Recollector B}

/-! ## The memory of a recollector -/

def responseOf : OutEvent B → Option (Vid × Data B)
  | .recollectResponse (.ok p) => some p
  | _ => none

def requestOf : OutEvent B → Option FullShardId
  | .assignedRequest fullShardId _ => some fullShardId
  | _ => none

theorem snd_concludes (collector : Vid → Nat) (out : List (OutEvent B)) :
    (out.filterMap (concludes collector)).map Prod.snd = out.filterMap responseOf := by
  rw [List.map_filterMap]
  refine List.filterMap_congr fun o _ => ?_
  unfold concludes responseOf
  split <;> simp_all

theorem snd_asks (n : Nat) (out : List (OutEvent B)) :
    (out.filterMap (asks n)).map Prod.snd = out.filterMap requestOf := by
  rw [List.map_filterMap]
  refine List.filterMap_congr fun o _ => ?_
  unfold asks requestOf
  split <;> rfl

/-- The memory is in a run of the data memory with these requests and responses. -/
def Runs (m : InitializedDataMemory B) (r : Recollector B) : Prop :=
  ∃ is out, Turn.loop turn m is = .next r.memory out ∧
    r.asked.map Prod.snd = out.filterMap requestOf ∧
    r.concluded.map Prod.snd = out.filterMap responseOf

theorem Runs.turn {m m' : InitializedDataMemory B} {i : Input B} {out : List (OutEvent B)}
    (h : Runs m r) (hturn : r.memory.turn i = .next m' out) (hmemory : r'.memory = m')
    (hasked : r'.asked.map Prod.snd = r.asked.map Prod.snd ++ out.filterMap requestOf)
    (hconcluded : r'.concluded.map Prod.snd =
      r.concluded.map Prod.snd ++ out.filterMap responseOf) : Runs m r' := by
  obtain ⟨is, os, hloop, ha, hc⟩ := h
  refine ⟨is ++ [i], os ++ out, ?_, ?_, ?_⟩
  · rw [hmemory]
    exact Turn.loop_append_next.2 ⟨_, os, out, hloop, Turn.loop_singleton_next.2 hturn, rfl⟩
  · rw [hasked, ha, List.filterMap_append]
  · rw [hconcluded, hc, List.filterMap_append]

theorem after_eq_some {turn : Step B} (h : r.after turn = some r') : ∃ m' out,
    turn = .next m' out ∧ r' = { r with
      memory := m'
      concluded := r.concluded ++ out.filterMap (concludes r.collector) } := by
  cases turn with
  | next m' out => cases h; exact ⟨m', out, rfl, rfl⟩
  | stop => cases h
  | panic => cases h

theorem requestOf_eq_nil {out : List (OutEvent B)}
    (h : ∀ f owner, OutEvent.assignedRequest f owner ∉ out) : out.filterMap requestOf = [] := by
  refine List.filterMap_eq_nil_iff.2 fun o ho => ?_
  unfold requestOf
  split
  · exact absurd ho (h _ _)
  · rfl

theorem Runs.step {m : InitializedDataMemory B} (h : Runs m r) {a : Action B}
    (hs : r.step a = some r') : Runs m r' := by
  cases a with
  | recollect order v =>
    obtain ⟨m', out, hturn, rfl⟩ := after_eq_some hs
    refine h.turn (i := .event order (.recollectRequest v)) hturn rfl ?_ ?_
    · simp only [List.map_append, hturn, snd_asks]
    · simp only [List.map_append, snd_concludes]
  | answer requestId shard =>
    simp only [Recollector.step, Recollector.answer] at hs
    split at hs
    · cases hs; exact h
    · rename_i n f _
      obtain ⟨m', out, hturn, rfl⟩ := after_eq_some hs
      refine h.turn (i := .event default (.assignedResponse f shard)) hturn rfl ?_ ?_
      · rw [requestOf_eq_nil fun f owner ho => ?_, List.append_nil]
        obtain ⟨response, hresponse⟩ := handleAssignedResponse_emits hturn _ ho
        cases hresponse
      · simp only [List.map_append, snd_concludes]
  | other i =>
    simp only [Recollector.step] at hs
    split at hs
    · cases hs
    · rename_i hi
      obtain ⟨m', out, hturn, rfl⟩ := after_eq_some hs
      refine h.turn hturn rfl ?_ ?_
      · rw [requestOf_eq_nil fun f owner ho => ?_, List.append_nil]
        cases i with
        | busRead v => cases hturn; cases ho
        | busWrite v x => cases hturn; cases ho
        | event order e =>
          have hemit : r.memory.Emits e (.assignedRequest f owner) := handle_emits hturn _ ho
          exact hi (hemit.1 ▸ trivial)
      · simp only [List.map_append, snd_concludes]

/-- The runs of a recollector are runs of its memory, with the same requests and responses. -/
theorem trace_runs {m : InitializedDataMemory B} {as : List (Action B)}
    (run : Trace step (start m) as r) : Runs m r :=
  run.invariant (I := fun _ (r : Recollector B) => Runs m r) ⟨[], [], rfl, rfl, rfl⟩
    fun _ _ _ _ h hs => h.step hs

/-! ## Own shards -/

/-- What the memory collects has been obtained by the recollection it is collected for. -/
structure Sound (r : Recollector B) : Prop where
  collected : r.memory.Assembled fun f y => (r.collector f.1, f, y) ∈ r.obtained
  reported : r.FromOwn

/-- A turn that collects and decodes what has been obtained. -/
theorem Sound.after {turn : Step B} (h : r.after turn = some r')
    (hold : r.FromOwn) (hturn : ∀ m' out, turn = .next m' out → m'.encoding = r.memory.encoding ∧
      m'.Assembled (fun f y => (r.collector f.1, f, y) ∈ r.obtained) ∧
      ∀ v d, OutEvent.recollectResponse (.ok (v, d)) ∈ out →
        r.memory.DecodedFrom (fun f y => (r.collector f.1, f, y) ∈ r.obtained) v d) :
    r'.Sound := by
  obtain ⟨m', out, ht, rfl⟩ := after_eq_some h
  obtain ⟨he, hall, hok⟩ := hturn m' out ht
  refine ⟨hall, fun n v x hmem => ?_⟩
  rcases List.mem_append.1 hmem with hmem | hmem
  · exact (hold n v x hmem).mono he fun _ _ => id
  · obtain ⟨o, ho, hc⟩ := List.mem_filterMap.1 hmem
    unfold concludes at hc
    split at hc
    · cases hc
      obtain ⟨shards, hdec, hlen, hfrom⟩ := hok _ _ ho
      exact DecodedFrom.mono ⟨shards, hdec, hlen, hfrom⟩ he fun _ _ => id
    · cases hc

/-- What has been reported stays sound when more shards are obtained. -/
theorem FromOwn.grow (h : r.FromOwn) {obtained : List (Nat × FullShardId × Shard B)}
    (hsub : ∀ e ∈ r.obtained, e ∈ obtained) :
    ∀ n v x, (n, v, x) ∈ r.concluded →
      r.memory.DecodedFrom (fun f y => (n, f, y) ∈ obtained) v x :=
  fun n v x hmem => (h n v x hmem).mono rfl fun f y => hsub (n, f, y)

theorem Sound.recollect (h : r.Sound) {order : HashOrder} {v : Vid}
    (hr : r.recollect order v = some r') : r'.Sound := by
  have hgrow : ∀ e ∈ r.obtained,
      e ∈ r.obtained ++ (r.memory.reads order v).map (r.requests, ·) :=
    fun e he => List.mem_append_left _ he
  refine Sound.after hr (h.reported.grow hgrow) fun m' out hturn => ?_
  refine ⟨(handleRecollectRequest_next hturn).1.fixed.2.1, ?_⟩
  by_cases hc : r.memory.Collects v
  · simp only [if_pos hc]
    refine assembled_handle (e := .recollectRequest v) ?_ (by simp) ?_ hturn
    · intro u shards hu s x hx
      have hne : u ≠ v := by
        rintro rfl
        exact hc.1 (Finmap.mem_of_lookup_eq_some hu)
      rw [Function.update_of_ne hne]
      exact hgrow _ (h.collected u shards hu s x hx)
    · intro u s x he hl hx
      cases he
      rw [Function.update_self]
      exact List.mem_append_right _ (List.mem_map.2 ⟨_, mem_reads hc hl hx, rfl⟩)
  · simp only [if_neg hc]
    obtain ⟨out', hskip, hnone⟩ := handleRecollectRequest_skips hc
    rw [hskip] at hturn
    cases hturn
    exact ⟨h.collected.mono fun f y => hgrow _, fun u d hd => absurd hd (hnone _)⟩

theorem Sound.answer (h : r.Sound) {requestId : Nat} {shard : Option (Shard B)}
    (hown : r.AnswersOwn (.answer requestId shard)) (hr : r.answer requestId shard = some r') :
    r'.Sound := by
  unfold Recollector.answer at hr
  cases hq : r.asked[requestId]? with
  | none =>
    rw [hq] at hr
    cases hr
    exact h
  | some q =>
    obtain ⟨n, f⟩ := q
    rw [hq] at hr
    have hgrow : ∀ e ∈ r.obtained, e ∈ r.obtained ++ shard.toList.map (n, f, ·) :=
      fun e he => List.mem_append_left _ he
    refine Sound.after hr (h.reported.grow hgrow) fun m' out hturn => ?_
    refine ⟨(handleAssignedResponse_next hturn).1.fixed.2.1, ?_⟩
    have hskip : m' = r.memory → out = [] →
        m'.Assembled (fun g y => (r.collector g.1, g, y) ∈ r.obtained ++ shard.toList.map (n, f, ·)) ∧
        ∀ v d, OutEvent.recollectResponse (.ok (v, d)) ∈ out → r.memory.DecodedFrom
          (fun g y => (r.collector g.1, g, y) ∈ r.obtained ++ shard.toList.map (n, f, ·)) v d := by
      rintro rfl rfl
      exact ⟨h.collected.mono fun g y => hgrow _, by simp⟩
    cases shard with
    | none =>
      cases hturn
      exact hskip rfl rfl
    | some x =>
      by_cases hlacks : r.memory.Lacks f
      · -- the one answer that is taken
        have hn : n = r.collector f.1 := by
          simp only [AnswersOwn, hq] at hown
          exact hown hlacks
        refine handleAssignedResponse_assembled (h.collected.mono fun g y => hgrow _) ?_ hturn
        intro y hy
        cases hy
        rw [← hn]
        exact List.mem_append_right _ (List.mem_singleton_self _)
      · rw [handleAssignedResponse_skips hlacks] at hturn
        cases hturn
        exact hskip rfl rfl

theorem Sound.other (h : r.Sound) {i : Input B} (hi : ¬ i.OfRecollection)
    (hr : r.after (r.memory.turn i) = some r') : r'.Sound := by
  refine Sound.after hr h.reported fun m' out hturn => ⟨(turn_fixed hturn).2.1, ?_⟩
  cases i with
  | busRead v =>
    cases hturn
    exact ⟨h.collected, by simp⟩
  | busWrite v x =>
    cases hturn
    refine ⟨fun u shards hu => h.collected u shards ?_, by simp⟩
    rwa [currentlyAssembled_busWrite] at hu
  | event order e =>
    refine assembled_handle h.collected (fun f x he => ?_) (fun v s x he => ?_) hturn
    · exact absurd (he ▸ trivial) hi
    · exact absurd (he ▸ trivial) hi

theorem Sound.step (h : r.Sound) {a : Action B} (hown : r.AnswersOwn a)
    (hs : r.step a = some r') : r'.Sound := by
  cases a with
  | recollect order v => exact h.recollect hs
  | answer requestId shard => exact h.answer hown hs
  | other i =>
    simp only [Recollector.step] at hs
    split at hs
    · cases hs
    · rename_i hi
      exact h.other hi hs

/-- **A recollection uses its own shards** in every run in which each answer that brings an
assembly a shard it lacks has been asked for by the recollection that started the assembly:
all data reported are decoded from shards that the recollection they conclude has read
locally or been answered. -/
theorem recollected_from_own {m : InitializedDataMemory B} (idle : m.currentlyAssembled = ∅)
    {as : List (Action B)} (run : Trace step (start m) as r)
    (own : Along step AnswersOwn (start m) as) : r.FromOwn := by
  refine (run.invariant_along (I := fun _ (r : Recollector B) => r.Sound) ?_
    (fun _ _ _ _ h hown hs => ?_) own).reported
  · refine ⟨fun v shards hv => ?_, fun n v x hmem => by cases hmem⟩
    rw [show (start m).memory.currentlyAssembled = ∅ from idle] at hv
    cases hv
  · exact h.step hown hs

/-- The value that a program gives address 0, and its shards. -/
def newData : Data 4 := ⟨fun b => if b.val < 4 then 3 else 4⟩

def newShard (i : Fin 3) : Shard 4 := shardOf OneParity.code newData i

/-- Address 0 is kept by all three peers. Peer 0 recollects it from its own shard and the answer of
peer 1. Then a program changes its shard and peer 0 recollects it again, with `rest`. -/
def twoRecollections (own answered changed : Shard 4) (rest : List (Action 4)) : List (Action 4) :=
  [.other (.event default (.storeConfirmed (⟨0⟩, ⟨0⟩) (samplePeer 0))),
    .other (.event default (.storeConfirmed (⟨0⟩, ⟨1⟩) (samplePeer 1))),
    .other (.event default (.storeConfirmed (⟨0⟩, ⟨2⟩) (samplePeer 2))),
    .other (.busWrite ⟨0⟩ own),
    .recollect default ⟨0⟩,
    .answer 0 (some answered),
    .other (.busWrite ⟨0⟩ changed),
    .recollect default ⟨0⟩] ++ rest

/-- The answer of peer 2 to the second recollection. -/
theorem recollected_from_own_sample :
    ∃ r, Trace step (start sampleMemory) (twoRecollections (sampleShard 0) (sampleShard 1)
        (newShard 0) [.answer 3 (some (newShard 2))]) r ∧
      r.concluded = [(0, ⟨0⟩, sampleData), (1, ⟨0⟩, newData)] ∧ r.FromOwn := by
  have hc : (runAll step (start sampleMemory) (twoRecollections (sampleShard 0) (sampleShard 1)
      (newShard 0) [.answer 3 (some (newShard 2))])).map Recollector.concluded =
        some [(0, ⟨0⟩, sampleData), (1, ⟨0⟩, newData)] := by decide +kernel
  obtain ⟨r, hr, hconcluded⟩ := Option.map_eq_some_iff.1 hc
  have run := Trace.of_runAll hr
  exact ⟨r, run, hconcluded, recollected_from_own rfl run (by decide +kernel)⟩

/-- What shard 0 of the new value and shard 2 of the old one decode to. -/
def mixedData : Data 4 := ⟨fun b => if b.val < 4 then 3 else 1⟩

/-- The late answer of peer 2 to the first recollection completes the second one: the value it
reports address 0 never had. -/
theorem late_answer_mixes_puts :
    ∃ r, Trace step (start sampleMemory) (twoRecollections (sampleShard 0) (sampleShard 1)
        (newShard 0) [.answer 1 (some (sampleShard 2))]) r ∧
      r.concluded = [(0, ⟨0⟩, sampleData), (1, ⟨0⟩, mixedData)] ∧ ¬ r.FromOwn := by
  have hc : (runAll step (start sampleMemory) (twoRecollections (sampleShard 0) (sampleShard 1)
      (newShard 0) [.answer 1 (some (sampleShard 2))])).map
        (fun r => (r.concluded, r.obtained.filterMap fun e => if e.1 = 1 then some e.2.1 else none,
          r.memory.sufficientShards)) =
        some ([(0, ⟨0⟩, sampleData), (1, ⟨0⟩, mixedData)], [(⟨0⟩, ⟨0⟩)], 2) := by decide +kernel
  obtain ⟨r, hr, hall⟩ := Option.map_eq_some_iff.1 hc
  obtain ⟨hconcluded, hrest⟩ := Prod.mk.inj hall
  obtain ⟨hobtained, hcoder⟩ := Prod.mk.inj hrest
  refine ⟨r, Trace.of_runAll hr, hconcluded, fun hown => ?_⟩
  have hmem : (1, ⟨0⟩, mixedData) ∈ r.concluded := by rw [hconcluded]; simp
  obtain ⟨shards, -, hlen, hfrom⟩ := hown 1 ⟨0⟩ mixedData hmem
  -- recollection 1 has obtained its own shard only
  have hkeys : shards.keys ⊆ {⟨0⟩} := by
    intro s hs
    obtain ⟨x, hx⟩ := Finmap.mem_keys_iff.1 hs
    have hs0 : ((⟨0⟩, s) : FullShardId) ∈ r.obtained.filterMap fun e =>
        if e.1 = 1 then some e.2.1 else none :=
      List.mem_filterMap.2 ⟨_, hfrom s x hx, if_pos rfl⟩
    rw [hobtained, List.mem_singleton] at hs0
    exact Finset.mem_singleton.2 (Prod.mk.inj hs0).2
  have hsmall := Finset.card_le_card hkeys
  rw [hcoder] at hlen
  rw [Finset.card_singleton] at hsmall
  exact absurd (hlen.trans hsmall) (by decide)

end Recollector

end Swarm.DataMemory
