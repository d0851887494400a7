import Swarm.Lib.Threshold
import Swarm.DataMemory.Loop

/-!
# The course of a recollection

A recollection goes through the known locations of the data, takes the shards
kept here and asks for the others, and then takes what the answers bring.
`recollection_course`: whatever the order of the locations and of the answers, and
however often these repeat or bring nothing, the data are reported once, when as
many different shards are there as are needed.
-/

namespace Swarm.DataMemory

open Swarm.Encoding Threshold

variable {B : Nat}

/-- The report of `v = d`. -/
abbrev report (v : Vid) (d : Data B) : OutEvent B := .recollectResponse (.ok (v, d))

namespace InitializedDataMemory

variable {m m' : InitializedDataMemory B} {out : List (OutEvent B)} {v : Vid} {d : Data B}

/-- The script of one location: a shard kept here is there at once, another is asked for. -/
def requestStep (m : InitializedDataMemory B) (v : Vid) (p : Sid × PeerId) :
    List (Sid ⊕ OutEvent B) :=
  if p.2 = m.localId then
    if (m.getShard (v, p.1)).isSome then [.inl p.1] else []
  else [.inr (.assignedRequest (v, p.1) p.2)]

/-- The script of the loop over the locations. -/
def requestScript (m : InitializedDataMemory B) (v : Vid) (locations : List (Sid × PeerId)) :
    List (Sid ⊕ OutEvent B) :=
  locations.flatMap (m.requestStep v)

/-- An answer to one of the requests, at any time, for any shard. -/
structure Answer (B : Nat) where
  order : HashOrder
  shardId : Sid
  shard : Option (Shard B)

def Answer.input (v : Vid) (a : Answer B) : Input B :=
  .event a.order (.assignedResponse (v, a.shardId) a.shard)

/-- The script of the answers. -/
def answerScript (answers : List (Answer B)) : List (Sid ⊕ OutEvent B) :=
  answers.filterMap fun a => a.shard.map fun _ => .inl a.shardId

/-- After the shards `seen` of the data with the given encoding, the memory collects them as
long as they are too few. -/
inductive Collected (v : Vid) (shards : HashMap Sid (Shard B)) (seen : Finset Sid)
    (m : InitializedDataMemory B) : Prop where
  | collecting (few : seen.card < m.sufficientShards) (received : HashMap Sid (Shard B))
    (there : m.currentlyAssembled.lookup v = some received) (keys : received.keys = seen)
    (valid : ∀ s x, received.lookup s = some x → shards.lookup s = some x)
  | reported (many : m.sufficientShards ≤ seen.card) (gone : v ∉ m.currentlyAssembled)

/-! ## One shard -/

section Step

variable {C : MdsCode UInt8 dataShardsCount m.encoding.inner.totalShardCount}
  {shards : HashMap Sid (Shard B)} {seen : Finset Sid}

theorem sufficientShards_pos (hw : m.encoding.inner.Implements C) : 0 < m.sufficientShards := by
  have hk : m.sufficientShards = dataShardsCount := hw.data
  rw [hk]
  exact Nat.two_pos

theorem handleAssignedResponse_collected (hw : m.encoding.inner.Implements C) (hB : 0 < B)
    (hd : m.encoding.encode d = .ok shards) (hm : Collected v shards seen m) {s : Sid} {x : Shard B}
    (hx : shards.lookup s = some x) :
    ∃ m', m.handleAssignedResponse (v, s) (some x) =
        .next m' (signal (report v d) m.sufficientShards seen.card (insert s seen).card) ∧
      SameButAssembled m m' ∧ Collected v shards (insert s seen) m' := by
  unfold handleAssignedResponse
  cases hm with
  | collecting few received there keys valid =>
    subst keys
    simp only [there]
    by_cases hmem : s ∈ received
    · rw [if_pos hmem, Finset.insert_eq_of_mem (Finmap.mem_keys.2 hmem), signal_self]
      exact ⟨m, rfl, .refl m, .collecting few received there rfl valid⟩
    · have hvalid : ∀ t y, (received.insert s x).lookup t = some y → shards.lookup t = some y := by
        intro t y hy
        rw [Finmap.lookup_insert_ite] at hy
        split at hy
        · rename_i ht
          cases hy
          rw [ht, hx]
        · exact valid t y hy
      have hkeys : (received.insert s x).keys = insert s received.keys := Finmap.keys_insert _ _ _
      have hlen : (received.insert s x).len = (insert s received.keys).card := by
        rw [Finmap.len, hkeys]
      rw [if_neg hmem, hlen]
      by_cases hfull : m.sufficientShards ≤ (insert s received.keys).card
      · have hdec : m.encoding.decode (received.insert s x) = .ok d := by
          rw [encode_eq hw hB] at hd
          cases hd
          have hk : m.sufficientShards = dataShardsCount := hw.data
          exact decode_codeword hw hB (by omega) hvalid
        rw [if_pos hfull, hdec, signal, if_pos ⟨few, hfull⟩]
        refine ⟨_, rfl, ⟨_, rfl⟩, .reported hfull ?_⟩
        simp [← Finmap.lookup_isSome]
      · have hshort := Nat.lt_of_not_le hfull
        rw [if_neg hfull, signal_of_short hshort]
        exact ⟨_, rfl, ⟨_, rfl⟩,
          .collecting hshort _ (Finmap.lookup_insert _) hkeys hvalid⟩
  | reported many gone =>
    simp only [Finmap.lookup_eq_none.2 gone]
    rw [signal_of_reached many]
    exact ⟨m, rfl, .refl m,
      .reported (many.trans (Finset.card_le_card (Finset.subset_insert _ _))) gone⟩

/-! ## The request and the answers -/

theorem SameButAssembled.requestScript (h : SameButAssembled m m') :
    m'.requestScript v = m.requestScript v := by
  obtain ⟨a, rfl⟩ := h
  rfl

theorem gather_script (hw : m.encoding.inner.Implements C) (hB : 0 < B)
    (hd : m.encoding.encode d = .ok shards) (hm : Collected v shards seen m)
    {locations : List (Sid × PeerId)}
    (hlocal : ∀ s x, (s, m.localId) ∈ locations → m.getShard (v, s) = some x →
      shards.lookup s = some x) :
    ∃ m', gather m v locations = .next m'
        (announced (report v d) m.sufficientShards seen (m.requestScript v locations)) ∧
      SameButAssembled m m' ∧ Collected v shards (arrived seen (m.requestScript v locations)) m' := by
  induction locations generalizing m seen with
  | nil => exact ⟨m, rfl, .refl m, by simpa [requestScript] using hm⟩
  | cons p rest ih =>
    obtain ⟨s, owner⟩ := p
    -- the loop goes on in a memory that differs in the assemblies only
    have next : ∀ {t : InitializedDataMemory B} {seen' : Finset Sid}, SameButAssembled m t →
        Collected v shards seen' t → ∃ m', gather t v rest = .next m'
            (announced (report v d) m.sufficientShards seen' (m.requestScript v rest)) ∧
          SameButAssembled m m' ∧
          Collected v shards (arrived seen' (m.requestScript v rest)) m' := by
      intro t seen' ht hcollected
      obtain ⟨a, rfl⟩ := ht
      obtain ⟨m', hg, hsame, hend⟩ := ih (m := { m with currentlyAssembled := a }) hw hd hcollected
        fun s x hs => hlocal s x (List.mem_cons_of_mem _ hs)
      rw [SameButAssembled.requestScript (m := m) ⟨a, rfl⟩] at hg hend
      exact ⟨m', hg, SameButAssembled.trans ⟨a, rfl⟩ hsame, hend⟩
    by_cases ho : owner = m.localId
    · cases hx : m.getShard (v, s) with
      | none =>
        obtain ⟨m', hg, hsame, hend⟩ := next (.refl m) hm
        refine ⟨m', ?_, hsame, by simpa [requestScript, requestStep, ho, hx] using hend⟩
        simp [gather, requestScript, requestStep, ho, hx, handleAssignedResponse, hg]
      | some x =>
        obtain ⟨t, hturn, hsame, hstep⟩ := handleAssignedResponse_collected hw hB hd hm
          (hlocal s x (ho ▸ List.mem_cons_self) hx)
        obtain ⟨m', hg, hsame', hend⟩ := next hsame hstep
        refine ⟨m', ?_, hsame', by simpa [requestScript, requestStep, ho, hx] using hend⟩
        simp [gather, requestScript, requestStep, ho, hx, hturn, Turn.andThen, hg, announced]
    · obtain ⟨m', hg, hsame, hend⟩ := next (.refl m) hm
      refine ⟨m', ?_, hsame, by simpa [requestScript, requestStep, ho] using hend⟩
      simp [gather, requestScript, requestStep, ho, Turn.andThen, hg, announced]

theorem handleRecollectRequest_script (hw : m.encoding.inner.Implements C) (hB : 0 < B)
    (hd : m.encoding.encode d = .ok shards) {locations : HashMap Sid PeerId}
    (hl : m.dataKnownLocations.lookup v = some locations)
    (hmany : m.sufficientShards ≤ locations.len) (hidle : v ∉ m.currentlyAssembled)
    (hlocal : ∀ s x, locations.lookup s = some m.localId → m.getShard (v, s) = some x →
      shards.lookup s = some x) (order : HashOrder) :
    ∃ m', m.handleRecollectRequest order v = .next m' (announced (report v d) m.sufficientShards ∅
        (m.requestScript v (locations.iter order.sids))) ∧
      SameButAssembled m m' ∧
      Collected v shards (arrived ∅ (m.requestScript v (locations.iter order.sids))) m' := by
  simp only [handleRecollectRequest, hl, if_neg (Nat.not_lt.2 hmany), if_neg hidle]
  have hpos := sufficientShards_pos hw
  have hempty : SameButAssembled m
      { m with currentlyAssembled := m.currentlyAssembled.insert v ∅ } := ⟨_, rfl⟩
  have hstart : Collected v shards ∅
      { m with currentlyAssembled := m.currentlyAssembled.insert v ∅ } :=
    .collecting hpos ∅ (Finmap.lookup_insert _) Finmap.keys_empty fun s x hx => by simp at hx
  have hkept : ∀ s x, (s, m.localId) ∈ locations.iter order.sids → m.getShard (v, s) = some x →
      shards.lookup s = some x := fun s x hs => hlocal s x (Finmap.mem_iter.1 hs)
  obtain ⟨m', hg, hsame, hend⟩ := gather_script
    (m := { m with currentlyAssembled := m.currentlyAssembled.insert v ∅ }) hw hB hd hstart hkept
  rw [hempty.requestScript] at hg hend
  exact ⟨m', hg, hempty.trans hsame, hend⟩

theorem answers_script (hw : m.encoding.inner.Implements C) (hB : 0 < B)
    (hd : m.encoding.encode d = .ok shards) (hm : Collected v shards seen m)
    {answers : List (Answer B)}
    (hans : ∀ a ∈ answers, ∀ x, a.shard = some x → shards.lookup a.shardId = some x) :
    ∃ m', Turn.loop turn m (answers.map (Answer.input v)) = .next m'
      (announced (report v d) m.sufficientShards seen (answerScript answers)) := by
  induction answers generalizing m seen with
  | nil => exact ⟨m, rfl⟩
  | cons a answers ih =>
    obtain ⟨order, s, shard⟩ := a
    have hrest : ∀ a ∈ answers, ∀ x, a.shard = some x → shards.lookup a.shardId = some x :=
      fun a ha => hans a (List.mem_cons_of_mem _ ha)
    cases shard with
    | none =>
      obtain ⟨m', hl⟩ := ih hw hd hm hrest
      exact ⟨m', Turn.loop_cons_next.2 ⟨m, [], _, rfl, hl, rfl⟩⟩
    | some x =>
      obtain ⟨t, hturn, ⟨a, rfl⟩, hstep⟩ := handleAssignedResponse_collected hw hB hd hm
        (hans _ List.mem_cons_self x rfl)
      obtain ⟨m', hl⟩ := ih (m := { m with currentlyAssembled := a }) hw hd hstep hrest
      exact ⟨m', Turn.loop_cons_next.2 ⟨_, _, _, hturn, hl, rfl⟩⟩

end Step

def isResponse : OutEvent B → Bool
  | .recollectResponse _ => true
  | _ => false

theorem inl_mem_requestScript {locations : List (Sid × PeerId)} {s : Sid} :
    .inl s ∈ m.requestScript v locations ↔
      (s, m.localId) ∈ locations ∧ (m.getShard (v, s)).isSome := by
  have hstep : ∀ p, .inl s ∈ m.requestStep v p ↔
      p = (s, m.localId) ∧ (m.getShard (v, s)).isSome := by
    rintro ⟨t, owner⟩
    unfold requestStep
    by_cases ho : owner = m.localId
    · by_cases hx : (m.getShard (v, t)).isSome
      · simp only [ho, hx, ↓reduceIte, List.mem_singleton, Sum.inl.injEq, Prod.mk.injEq, and_true]
        exact ⟨fun h => ⟨h.symm, h ▸ hx⟩, fun h => h.1.symm⟩
      · simp only [ho, hx, ↓reduceIte, Prod.mk.injEq, and_true]
        exact iff_of_false List.not_mem_nil fun h => hx (h.1 ▸ h.2)
    · simp [ho]
  simp only [requestScript, List.mem_flatMap, hstep]
  exact ⟨fun ⟨p, hp, he, hs⟩ => ⟨he ▸ hp, hs⟩, fun ⟨hp, hs⟩ => ⟨_, hp, rfl, hs⟩⟩

theorem inr_mem_requestScript {locations : List (Sid × PeerId)} {o : OutEvent B}
    (h : .inr o ∈ m.requestScript v locations) : ∃ f owner, o = .assignedRequest f owner := by
  obtain ⟨p, -, hp⟩ := List.mem_flatMap.1 h
  unfold requestStep at hp
  split at hp
  · split at hp <;> simp at hp
  · exact ⟨_, _, Sum.inr.inj (List.mem_singleton.1 hp)⟩

theorem mem_answerScript {answers : List (Answer B)} {step : Sid ⊕ OutEvent B} :
    step ∈ answerScript answers ↔ ∃ a ∈ answers, step = .inl a.shardId ∧ a.shard.isSome := by
  simp only [answerScript, List.mem_filterMap, Option.map_eq_some_iff, Option.isSome_iff_exists]
  grind

/-- The Sids with a shard: kept here by the known locations, or brought by an answer. -/
theorem mem_arrived_course {locations : HashMap Sid PeerId} {order : HashOrder}
    {answers : List (Answer B)} {s : Sid} :
    s ∈ arrived ∅ (m.requestScript v (locations.iter order.sids) ++ answerScript answers) ↔
      (locations.lookup s = some m.localId ∧ (m.getShard (v, s)).isSome) ∨
        ∃ a ∈ answers, a.shardId = s ∧ a.shard.isSome := by
  rw [mem_arrived, List.mem_append, inl_mem_requestScript, mem_answerScript, Finmap.mem_iter]
  simp [eq_comm (a := s)]

/-- **The course of a recollection**: a request for data whose locations are known, and any
answers after it, in which every shard belongs to the encoding of `d`. What is sent out is
`d`, once, when the last of the different shards that are needed is there, and the requests
for the shards kept elsewhere. -/
theorem recollection_course
    {C : MdsCode UInt8 dataShardsCount m.encoding.inner.totalShardCount}
    (hw : m.encoding.inner.Implements C) (hB : 0 < B) {shards : HashMap Sid (Shard B)}
    (hd : m.encoding.encode d = .ok shards) {locations : HashMap Sid PeerId}
    (hl : m.dataKnownLocations.lookup v = some locations)
    (hmany : m.sufficientShards ≤ locations.len) (hidle : v ∉ m.currentlyAssembled)
    (hlocal : ∀ s x, locations.lookup s = some m.localId → m.getShard (v, s) = some x →
      shards.lookup s = some x)
    {answers : List (Answer B)}
    (hans : ∀ a ∈ answers, ∀ x, a.shard = some x → shards.lookup a.shardId = some x)
    (order : HashOrder) :
    ∃ m' out script,
      script = m.requestScript v (locations.iter order.sids) ++ answerScript answers ∧
      out = announced (report v d) m.sufficientShards ∅ script ∧
      Turn.loop turn m (.event order (.recollectRequest v) :: answers.map (Answer.input v)) =
        .next m' out ∧
      (out.filter isResponse =
        if m.sufficientShards ≤ (arrived ∅ script).card then [report v d] else []) ∧
      ∀ s, s ∈ arrived ∅ script ↔
        (locations.lookup s = some m.localId ∧ (m.getShard (v, s)).isSome) ∨
          ∃ a ∈ answers, a.shardId = s ∧ a.shard.isSome := by
  obtain ⟨m₀, hrequest, ⟨a, rfl⟩, hend⟩ :=
    handleRecollectRequest_script hw hB hd hl hmany hidle hlocal order
  obtain ⟨m', hanswers⟩ := answers_script
    (m := { m with currentlyAssembled := a }) hw hB hd hend hans
  have hpos := sufficientShards_pos hw
  refine ⟨m', _, _, rfl, rfl, ?_, ?_, fun s => mem_arrived_course⟩
  · rw [announced_append]
    exact Turn.loop_cons_next.2 ⟨_, _, _, hrequest, hanswers, rfl⟩
  · rw [filter_announced rfl fun o ho => ?_]
    · simp [signal, Reaches, hpos]
    · rcases List.mem_append.1 ho with ho | ho
      · obtain ⟨f, owner, rfl⟩ := inr_mem_requestScript ho
        rfl
      · obtain ⟨a, -, he, -⟩ := mem_answerScript.1 ho
        cases he

def sampleData : Data 4 := ⟨fun b => if b.val < 4 then 1 else 2⟩

def sampleShard (i : Fin 3) : Shard 4 := shardOf OneParity.code sampleData i

def sampleKeepers : HashMap Sid PeerId :=
  ((((∅ : HashMap Sid PeerId).insert ⟨0⟩ (samplePeer 0)).insert ⟨1⟩ (samplePeer 1)).insert
    ⟨2⟩ (samplePeer 2))

/-- Peer 0 keeps its shard of address 0 and knows the locations of all three. -/
def keepingMemory : InitializedDataMemory 4 :=
  { sampleMemory.storeShard (⟨0⟩, ⟨0⟩) (sampleShard 0) with
    dataKnownLocations := (∅ : HashMap Vid (HashMap Sid PeerId)).insert ⟨0⟩ sampleKeepers }

/-- Peer 1 has lost its shard, peer 2 answers twice. -/
def sampleAnswers : List (Answer 4) :=
  [⟨default, ⟨1⟩, none⟩, ⟨default, ⟨2⟩, some (sampleShard 2)⟩, ⟨default, ⟨2⟩, some (sampleShard 2)⟩]

theorem lookup_sampleShard (i : Fin 3) :
    (codeword (w := OneParity.wrapper) OneParity.code sampleData).lookup ⟨i⟩ =
      some (sampleShard i) :=
  (lookup_codeword _ _).trans (dif_pos i.isLt)

theorem recollection_course_sample : ∃ m',
    Turn.loop turn keepingMemory
        (.event default (.recollectRequest ⟨0⟩) :: sampleAnswers.map (Answer.input ⟨0⟩)) =
      .next m' [.assignedRequest (⟨0⟩, ⟨1⟩) (samplePeer 1),
        .assignedRequest (⟨0⟩, ⟨2⟩) (samplePeer 2), report ⟨0⟩ sampleData] := by
  have hlocal : ∀ s x, sampleKeepers.lookup s = some keepingMemory.localId →
      keepingMemory.getShard (⟨0⟩, s) = some x →
      (codeword (w := OneParity.wrapper) OneParity.code sampleData).lookup s = some x := by
    intro s x _ hx
    rw [show keepingMemory.getShard (⟨0⟩, s) = _ from getShard_storeShard (m := sampleMemory) _ _ _]
      at hx
    split at hx
    · rename_i hs
      cases hs
      exact (lookup_sampleShard 0).trans hx
    · cases hx
  have hans : ∀ a ∈ sampleAnswers, ∀ x, a.shard = some x →
      (codeword (w := OneParity.wrapper) OneParity.code sampleData).lookup a.shardId = some x := by
    intro a ha x hx
    simp only [sampleAnswers, List.mem_cons, List.not_mem_nil, or_false] at ha
    rcases ha with rfl | rfl | rfl
    · cases hx
    all_goals exact (lookup_sampleShard 2).trans hx
  obtain ⟨m', out, script, rfl, rfl, hrun, -⟩ := recollection_course (m := keepingMemory)
    OneParity.coder_implements (by decide) (encode_eq OneParity.coder_implements (by decide) _)
    (Finmap.lookup_insert _) (by decide +kernel) (by decide +kernel) hlocal hans default
  exact ⟨m', hrun.trans (congrArg (Turn.next m') (by decide +kernel))⟩

end InitializedDataMemory

end Swarm.DataMemory
