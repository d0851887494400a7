import Swarm.Consensus.Graph

/-!
# The loop of the graph consensus

`GraphWrapper::run` puts out the transactions of its streams and takes the
events of its input, one at a time. Syncs and the list of known peers are made
by the hashgraph crate. A call that fails is logged, except that the loop ends
when a sync cannot be generated. Its channels are open. `run_accounts` says what
a run puts out.
-/

namespace Swarm.Consensus

/-- What consensus tells the behaviour. -/
inductive OutEvent (Sync : Type) where
  | generateSyncResponse (peer : PeerId) (sync : Sync)
  | knownPeersResponse (peers : List PeerId)
  | finalizedTransaction (author : PeerId) (eventHash : Hash) (tx : Transaction)
  | recognizedTransaction (author : PeerId) (eventHash : Hash) (tx : Transaction)
  deriving DecidableEq

/-- What consensus is told. -/
inductive InEvent (Sync : Type) where
  | generateSyncRequest (peer : PeerId)
  | knownPeersRequest
  | applySync (origin : PeerId) (sync : Sync)
  | scheduleTx (tx : Transaction)
  | createStandalone
  deriving DecidableEq

/-- Whether consensus takes more input. -/
inductive ModuleState where
  | ready
  | busy
  deriving DecidableEq

/-- The crate's graph with the methods that only `run` calls. -/
structure RunCrate (G Job : Type) extends Crate G Job where
  generateSyncFor : Inner G → PeerId → Except String (List Job)
  peers : Inner G → List PeerId

/-- What wakes the loop up: the graph has one more event to yield, the stream is polled, or an
event of the input. -/
inductive Wake (Job : Type) where
  | arrive (k : Stream) (e : Event)
  | next
  | input (e : InEvent (List Job))

/-- What a turn of the loop leaves: events for the behaviour and own events in the graph. -/
inductive Ran (Job : Type) where
  | output (e : OutEvent (List Job))
  | created (payload : EventPayload)

variable {G Job : Type}

/-- A transaction of a stream, as it is put out. -/
def nextTxEvent : Stream × NextTxData → OutEvent (List Job)
  | (.recognized, (author, tx, eventHash)) => .recognizedTransaction author eventHash tx
  | (.finalized, (author, tx, eventHash)) => .finalizedTransaction author eventHash tx

namespace RunCrate

variable (crate : RunCrate G Job)

/-- The call that an input event makes on the wrapper, if any. -/
def call : InEvent (List Job) → Option (Call Job)
  | .applySync origin sync => some (.applySync origin sync)
  | .scheduleTx tx => some (.pushTx tx)
  | .createStandalone => some .createStandaloneEvent
  | .generateSyncRequest _ | .knownPeersRequest => none

def handle (g : GraphWrapper G) : InEvent (List Job) → Turn (GraphWrapper G) (Ran Job)
  | .generateSyncRequest peer =>
    match crate.generateSyncFor g.inner peer with
    | .ok sync => .next g [.output (.generateSyncResponse peer sync)]
    | .error _ => .stop
  | .knownPeersRequest => .next g [.output (.knownPeersResponse (crate.peers g.inner))]
  | .applySync origin sync =>
    let r := crate.applySync g origin sync
    .next r.wrapper (r.created.map .created)
  | .scheduleTx tx => .next (g.pushTx tx) []
  | .createStandalone =>
    let r := crate.createStandaloneEvent g
    match r.result with
    | .panic => .panic
    | _ => .next r.wrapper (r.created.map .created)

/-- `GraphWrapper::run`: one pass of its loop. -/
def run (g : GraphWrapper G) : Wake Job → Turn (GraphWrapper G) (Ran Job)
  | .arrive k e => .next (g.arrive k e) []
  | .next =>
    match g.pollNext with
    | (some tx, g) => .next g [.output (nextTxEvent tx)]
    | (none, g) => .next g []
  | .input e => crate.handle g e

end RunCrate

/-! ## What waits -/

namespace GraphWrapper

/-- What a stream has yet to put out. -/
def waiting (k : Stream) (g : GraphWrapper G) : List NextTxData :=
  (g.buffer k).pending ++ (g.ready k).flatMap (yielded (g.buffer k).hash)

/-- What polls put out: finalised transactions come first. -/
def due (g : GraphWrapper G) : List (Stream × NextTxData) :=
  (g.waiting .finalized).map (.finalized, ·) ++ (g.waiting .recognized).map (.recognized, ·)

theorem returned_map (k k' : Stream) (l : List NextTxData) :
    returned k (l.map (k', ·)) = if k' = k then l else [] := by
  by_cases h : k' = k <;> simp [returned, h]

theorem returned_append (k : Stream) (l l' : List (Stream × NextTxData)) :
    returned k (l ++ l') = returned k l ++ returned k l' := List.filterMap_append

theorem returned_due (k : Stream) (g : GraphWrapper G) : returned k g.due = g.waiting k := by
  rw [due, returned_append, returned_map, returned_map]
  cases k <;> simp

theorem waiting_congr {k : Stream} {g g' : GraphWrapper G} (hready : g'.ready k = g.ready k)
    (hbuffer : g'.buffer k = g.buffer k) : g'.waiting k = g.waiting k := by
  rw [waiting, waiting, hready, hbuffer]

/-- **One call** of a stream puts out the head of what waits there. -/
theorem waiting_next (k : Stream) (g : GraphWrapper G) :
    (g.next k).1.toList ++ (g.next k).2.waiting k = g.waiting k ∧
    ((g.next k).1 = none → (g.next k).2.waiting k = []) ∧
    ∀ k', ((g.next k).2.buffer k').hash = (g.buffer k').hash ∧
      (k' ≠ k → (g.next k).2.waiting k' = g.waiting k') := by
  obtain ⟨htx, hready, hbuffer, hother⟩ := next_eq k g
  obtain ⟨hhash, hsum, hnone⟩ := nextTx_spec (g.ready k) (g.buffer k)
  refine ⟨?_, fun h => ?_, fun k' => ⟨?_, fun hk => ?_⟩⟩
  · rw [waiting, waiting, htx, hready, hbuffer, hhash]
    exact hsum
  · rw [htx] at h
    obtain ⟨htxs, hevents⟩ := hnone h
    rw [waiting, hready, hbuffer, hevents, TxBuffer.pending, htxs]
    rfl
  · by_cases hk : k' = k
    · rw [hk, hbuffer, hhash]
    · rw [(hother k' hk).2]
  · exact waiting_congr (hother k' hk).1 (hother k' hk).2

theorem pollNext_of_some {g g' : GraphWrapper G} {tx : NextTxData}
    (h : g.next .finalized = (some tx, g')) : g.pollNext = (some (.finalized, tx), g') := by
  rw [pollNext, show g.nextFinalized = _ from h]

theorem pollNext_of_none {g g' : GraphWrapper G} (h : g.next .finalized = (none, g')) :
    g.pollNext = ((g'.next .recognized).1.map (.recognized, ·), (g'.next .recognized).2) := by
  rw [pollNext, show g.nextFinalized = _ from h]
  rfl

/-- **One poll** puts out the head of what is due, and nothing only when nothing is. -/
theorem due_pollNext (g : GraphWrapper G) :
    g.pollNext.1.toList ++ g.pollNext.2.due = g.due ∧
    (g.pollNext.1 = none → g.pollNext.2.due = []) ∧
    ∀ k, (g.pollNext.2.buffer k).hash = (g.buffer k).hash := by
  obtain ⟨hhead, hnone, hother⟩ := waiting_next .finalized g
  rcases hfin : g.next .finalized with ⟨_ | tx, g'⟩
  · rw [hfin] at hhead hnone hother
    obtain ⟨hhead', hnone', hother'⟩ := waiting_next .recognized g'
    rw [pollNext_of_none hfin]
    have hempty : g'.waiting .finalized = [] := hnone rfl
    have hempty' : (g'.next .recognized).2.waiting .finalized = [] := by
      rw [(hother' .finalized).2 (by decide), hempty]
    refine ⟨?_, fun h => ?_, fun k => (hother' k).1.trans (hother k).1⟩
    · rw [due, due, hempty', ← hhead, ← (hother .recognized).2 (by decide), ← hhead', hempty,
        List.map_append]
      cases (g'.next .recognized).1 <;> rfl
    · rw [due, hempty', hnone' (Option.map_eq_none_iff.1 h)]
      rfl
  · rw [hfin] at hhead hother
    rw [pollNext_of_some hfin]
    refine ⟨?_, fun h => (by cases h), fun k => (hother k).1⟩
    rw [due, due, ← hhead, (hother .recognized).2 (by decide)]
    rfl

theorem included_pollNext (g : GraphWrapper G) :
    g.pollNext.2.includedTransactionBuffer = g.includedTransactionBuffer := by
  have hnext : ∀ k (g : GraphWrapper G),
      (g.next k).2.includedTransactionBuffer = g.includedTransactionBuffer := by
    intro k g
    cases k <;> rfl
  have hkeeps := hnext .finalized g
  rcases hfin : g.next .finalized with ⟨_ | tx, g'⟩
  · rw [hfin] at hkeeps
    rw [pollNext_of_none hfin, hnext, hkeeps]
  · rw [hfin] at hkeeps
    rw [pollNext_of_some hfin, hkeeps]

end GraphWrapper

/-! ## Runs -/

/-- The graph has more events to yield, after the ones it had. -/
def Inner.Extends (inner inner' : Inner G) : Prop :=
  inner.finalized <+: inner'.finalized ∧ inner.recognized <+: inner'.recognized

theorem Inner.Extends.refl (inner : Inner G) : inner.Extends inner :=
  ⟨List.prefix_refl _, List.prefix_refl _⟩

theorem Inner.Extends.trans {inner inner' inner'' : Inner G} (h : inner.Extends inner')
    (h' : inner'.Extends inner'') : inner.Extends inner'' :=
  ⟨h.1.trans h'.1, h.2.trans h'.2⟩

/-- The crate takes back no event that it has not yielded. -/
structure Crate.Appends (crate : Crate G Job) : Prop where
  pushEvent : ∀ (inner : Inner G) job, inner.Extends (crate.pushEvent inner job).2
  createEvent : ∀ (inner : Inner G) payload parent,
    inner.Extends (crate.createEvent inner payload parent).2

namespace Crate

variable {crate : Crate G Job}

theorem pushEvents_extends (appends : crate.Appends) (inner : Inner G) (jobs : List Job) :
    inner.Extends (crate.pushEvents inner jobs).2 := by
  induction jobs generalizing inner with
  | nil => exact .refl inner
  | cons job jobs ih =>
    have hpush := appends.pushEvent inner job
    rw [pushEvents]
    split
    · rename_i inner' heq
      rw [heq] at hpush
      exact hpush.trans (ih inner')
    · rename_i inner' heq
      rw [heq] at hpush
      exact hpush.trans (ih inner')
    · rename_i e inner' _ heq
      rw [heq] at hpush
      exact hpush

/-- A call leaves what the streams are feeding. -/
theorem turn_extends (appends : crate.Appends) {g g' : GraphWrapper G} {c : Call Job}
    {created : List EventPayload} (h : c.turn crate g = .next g' created) :
    g.inner.Extends g'.inner ∧ ∀ k, g'.buffer k = g.buffer k := by
  have hbuffer : ∀ (inner : Inner G) txs k, GraphWrapper.buffer k
      { g with inner := inner, includedTransactionBuffer := txs } = g.buffer k := by
    intro inner txs k
    cases k <;> rfl
  cases c with
  | pushTx tx =>
    cases h
    exact ⟨.refl _, hbuffer _ _⟩
  | applySync peer syncJobs =>
    have hpush := pushEvents_extends appends g.inner syncJobs
    simp only [Call.turn, applySync] at h
    split at h
    · rename_i e inner heq
      cases h
      rw [heq] at hpush
      exact ⟨hpush, hbuffer _ _⟩
    · rename_i inner heq
      rw [heq] at hpush
      split at h
      · cases h
        exact ⟨hpush, hbuffer _ _⟩
      · rename_i parent _
        have hcreate := appends.createEvent inner ⟨g.includedTransactionBuffer⟩ parent
        split at h <;> rename_i heq' <;> cases h <;> rw [heq'] at hcreate
        · exact ⟨hpush.trans hcreate, hbuffer _ _⟩
        · exact ⟨hpush.trans hcreate, hbuffer _ _⟩
  | createStandaloneEvent =>
    simp only [Call.turn, createStandaloneEvent] at h
    cases hparent : crate.peerLatestEvent g.inner (crate.selfId g.inner) with
    | none => simp [hparent] at h
    | some parent =>
      have hcreate := appends.createEvent g.inner ⟨g.includedTransactionBuffer⟩ parent
      simp only [hparent] at h
      rcases heq : crate.createEvent g.inner ⟨g.includedTransactionBuffer⟩ parent with ⟨_ | _, inner⟩
      · simp only [heq] at h
        cases h
        rw [heq] at hcreate
        exact ⟨hcreate, hbuffer _ _⟩
      · simp only [heq] at h
        cases h
        rw [heq] at hcreate
        exact ⟨hcreate, hbuffer _ _⟩

end Crate

theorem waiting_of_extends {g g' : GraphWrapper G} (h : g.inner.Extends g'.inner) {k : Stream}
    (hbuffer : g'.buffer k = g.buffer k) :
    g'.waiting k = g.waiting k ++
      ((g'.ready k).drop (g.ready k).length).flatMap (yielded (g.buffer k).hash) := by
  have hready : g'.ready k = g.ready k ++ (g'.ready k).drop (g.ready k).length := by
    cases k with
    | finalized => exact (List.prefix_iff_eq_append.1 h.1).symm
    | recognized => exact (List.prefix_iff_eq_append.1 h.2).symm
  rw [GraphWrapper.waiting, GraphWrapper.waiting, hbuffer, List.append_assoc,
    ← List.flatMap_append, ← hready]

namespace Wake

/-- The events that become ready on a stream: the one that arrives, or what the call adds. -/
def readied (k : Stream) (g g' : GraphWrapper G) : Wake Job → List Event
  | .arrive k' e => if k' = k then [e] else []
  | .next => []
  | .input _ => (g'.ready k).drop (g.ready k).length

/-- A request of the input: for a sync with a peer, or for the known peers. -/
def request : Wake Job → Option (Option PeerId)
  | .input (.generateSyncRequest peer) => some (some peer)
  | .input .knownPeersRequest => some none
  | _ => none

/-- The call on the wrapper. -/
def call : Wake Job → Option (Call Job)
  | .input e => RunCrate.call e
  | _ => none

end Wake

namespace Ran

/-- A transaction that is put out. -/
def transaction : Ran Job → Option (Stream × NextTxData)
  | .output (.finalizedTransaction author eventHash tx) =>
    some (.finalized, (author, tx, eventHash))
  | .output (.recognizedTransaction author eventHash tx) =>
    some (.recognized, (author, tx, eventHash))
  | _ => none

/-- The request that is answered. -/
def response : Ran Job → Option (Option PeerId)
  | .output (.generateSyncResponse peer _) => some (some peer)
  | .output (.knownPeersResponse _) => some none
  | _ => none

/-- The payload of an own event. -/
def payload : Ran Job → Option EventPayload
  | .created payload => some payload
  | .output _ => none

/-- The transactions of an own event. -/
def included : Ran Job → List Transaction
  | .created payload => payload.transactions
  | .output _ => []

theorem flatMap_included (out : List (Ran Job)) :
    out.flatMap included = (out.filterMap payload).flatMap EventPayload.transactions := by
  induction out with
  | nil => rfl
  | cons r out ih =>
    rw [List.flatMap_cons, ih, List.filterMap_cons]
    cases r <;> rfl

end Ran

namespace RunCrate

variable {crate : RunCrate G Job} {g g' : GraphWrapper G} {w : Wake Job} {ws : List (Wake Job)}
  {o out : List (Ran Job)}

/-- **What a turn can do**: an event arrives, a poll, an answer, or a call on the wrapper. -/
theorem run_cases (h : crate.run g w = .next g' o) :
    (∃ k e, w = .arrive k e ∧ g' = g.arrive k e ∧ o = []) ∨
    (w = .next ∧ g' = g.pollNext.2 ∧
      o = g.pollNext.1.toList.map fun tx => .output (nextTxEvent tx)) ∨
    (∃ e, w = .input e ∧ call e = none ∧ g' = g ∧
      o.filterMap Ran.response = [w].filterMap Wake.request ∧ o.filterMap Ran.transaction = [] ∧
        o.flatMap Ran.included = []) ∨
    (∃ e c created, w = .input e ∧ call e = some c ∧
      c.turn crate.toCrate g = .next g' created ∧ o = created.map .created) := by
  cases w with
  | arrive k e =>
    cases h
    exact .inl ⟨k, e, rfl, rfl, rfl⟩
  | next =>
    refine .inr (.inl ⟨rfl, ?_⟩)
    rw [run] at h
    rcases hpoll : g.pollNext with ⟨_ | tx, t⟩ <;> rw [hpoll] at h <;> cases h
    · exact ⟨rfl, rfl⟩
    · exact ⟨rfl, rfl⟩
  | input e =>
    refine .inr (.inr ?_)
    rw [run] at h
    cases e with
    | generateSyncRequest peer =>
      rw [handle] at h
      split at h <;> cases h
      exact .inl ⟨_, rfl, rfl, rfl, rfl, rfl, rfl⟩
    | knownPeersRequest =>
      cases h
      exact .inl ⟨_, rfl, rfl, rfl, rfl, rfl, rfl⟩
    | applySync origin sync =>
      cases h
      exact .inr ⟨_, _, _, rfl, rfl, rfl, rfl⟩
    | scheduleTx tx =>
      cases h
      exact .inr ⟨_, _, [], rfl, rfl, rfl, rfl⟩
    | createStandalone =>
      refine .inr ⟨_, _, (crate.createStandaloneEvent g).created, rfl, rfl, ?_⟩
      rw [Call.turn]
      rw [handle] at h
      cases hresult : (crate.createStandaloneEvent g).result with
      | panic =>
        rw [hresult] at h
        cases h
      | ok | err =>
        rw [hresult] at h
        cases h
        exact ⟨rfl, rfl⟩

/-- The events that become ready on a stream in the course of a run. -/
def readied (crate : RunCrate G Job) (k : Stream) : GraphWrapper G → List (Wake Job) → List Event
  | _, [] => []
  | g, w :: ws =>
    match crate.run g w with
    | .next g' _ => w.readied k g g' ++ readied crate k g' ws
    | .stop | .panic => []

/-- Events that a turn makes ready wait behind the others; a transaction that is put out is the
head of what waited. -/
theorem run_waiting (appends : crate.Appends) (h : crate.run g w = .next g' o) (k : Stream) :
    (g'.buffer k).hash = (g.buffer k).hash ∧
      returned k (o.filterMap Ran.transaction) ++ g'.waiting k =
        g.waiting k ++ (w.readied k g g').flatMap (yielded (g.buffer k).hash) := by
  rcases run_cases h with ⟨k', e, rfl, rfl, rfl⟩ | ⟨rfl, rfl, rfl⟩ | ⟨e, rfl, hcall, rfl, -, ho, -⟩ |
    ⟨e, c, created, rfl, hcall, hturn, rfl⟩
  · obtain ⟨hbuffer, hready⟩ := arrive_eq k' e g
    refine ⟨by rw [hbuffer], ?_⟩
    rw [GraphWrapper.waiting, GraphWrapper.waiting, hbuffer, hready, List.flatMap_append,
      List.append_assoc]
    rfl
  · obtain ⟨hhead, -, hhash⟩ := g.due_pollNext
    refine ⟨hhash k, ?_⟩
    have hput : (g.pollNext.1.toList.map fun tx => (.output (nextTxEvent tx) : Ran Job)).filterMap
        Ran.transaction = g.pollNext.1.toList := by
      rcases g.pollNext.1 with _ | ⟨_ | _, _⟩ <;> rfl
    rw [hput, ← GraphWrapper.returned_due, ← GraphWrapper.returned_append, hhead,
      GraphWrapper.returned_due, Wake.readied, List.flatMap_nil, List.append_nil]
  · refine ⟨rfl, ?_⟩
    rw [ho, Wake.readied, List.drop_length, List.flatMap_nil, List.append_nil]
    rfl
  · obtain ⟨hextends, hbuffer⟩ := Crate.turn_extends appends hturn
    refine ⟨by rw [hbuffer], ?_⟩
    have hnone : created.filterMap (Ran.transaction ∘ (.created : EventPayload → Ran Job)) = [] :=
      List.filterMap_eq_nil_iff.2 fun _ _ => rfl
    rw [List.filterMap_map, hnone, waiting_of_extends hextends (hbuffer k)]
    rfl

/-- **What was waiting** and what becomes ready is put out in order, or still waits. -/
theorem loop_waiting (appends : crate.Appends) (h : Turn.loop crate.run g ws = .next g' out)
    (k : Stream) : returned k (out.filterMap Ran.transaction) ++ g'.waiting k =
      g.waiting k ++ (readied crate k g ws).flatMap (yielded (g.buffer k).hash) := by
  induction ws generalizing g out with
  | nil =>
    cases h
    exact (List.append_nil _).symm
  | cons w ws ih =>
    obtain ⟨t, o, o', hturn, hloop, rfl⟩ := Turn.loop_cons_next.1 h
    obtain ⟨hhash, hwaiting⟩ := run_waiting appends hturn k
    rw [readied, hturn, List.flatMap_append, ← List.append_assoc, ← hwaiting, List.filterMap_append,
      GraphWrapper.returned_append, List.append_assoc, ih hloop, hhash, List.append_assoc]

/-- The transactions that a turn loses: it takes the buffer and creates no event. -/
def lostIn (g g' : GraphWrapper G) (o : List (Ran Job)) : List Transaction :=
  if g'.includedTransactionBuffer = [] ∧ o.filterMap Ran.payload = [] then
    g.includedTransactionBuffer
  else []

/-- The transactions that are lost in the course of a run. -/
def lost (crate : RunCrate G Job) : GraphWrapper G → List (Wake Job) → List Transaction
  | _, [] => []
  | g, w :: ws =>
    match crate.run g w with
    | .next g' o => lostIn g g' o ++ lost crate g' ws
    | .stop | .panic => []

theorem lost_cons (h : crate.run g w = .next g' o) :
    lost crate g (w :: ws) = lostIn g g' o ++ lost crate g' ws := by
  rw [lost, h]

/-- A turn that moves transactions from the buffer loses none. -/
theorem lostIn_eq_nil {txs : List Transaction}
    (h : o.flatMap Ran.included ++ g'.includedTransactionBuffer =
      g.includedTransactionBuffer ++ txs) : lostIn g g' o = [] := by
  rw [lostIn]
  split
  · rename_i htaken
    rw [Ran.flatMap_included, htaken.1, htaken.2] at h
    exact (List.append_eq_nil_iff.1 h.symm).1
  · rfl

theorem included_polled (txs : List (Stream × NextTxData)) :
    (txs.map fun tx => (.output (nextTxEvent tx) : Ran Job)).flatMap Ran.included = [] := by
  rw [List.flatMap_map, List.flatMap_eq_nil_iff]
  rintro ⟨_ | _, _⟩ _ <;> rfl

theorem included_created (created : List EventPayload) :
    (created.map (.created : EventPayload → Ran Job)).flatMap Ran.included =
      created.flatMap EventPayload.transactions := List.flatMap_map ..

/-- **Scheduled transactions** are in the events a turn creates, lost or in the buffer. -/
theorem run_taken (h : crate.run g w = .next g' o) :
    o.flatMap Ran.included ++ (lostIn g g' o ++ g'.includedTransactionBuffer) =
      g.includedTransactionBuffer ++ pushed ([w].filterMap Wake.call) := by
  have moved : ∀ txs, o.flatMap Ran.included ++ g'.includedTransactionBuffer =
      g.includedTransactionBuffer ++ txs → o.flatMap Ran.included ++
        (lostIn g g' o ++ g'.includedTransactionBuffer) = g.includedTransactionBuffer ++ txs := by
    intro txs htxs
    rw [lostIn_eq_nil htxs, List.nil_append, htxs]
  rcases run_cases h with ⟨k, e, rfl, rfl, rfl⟩ | ⟨rfl, rfl, rfl⟩ | ⟨e, rfl, hcall, rfl, -, -, ho⟩ |
    ⟨e, c, created, rfl, hcall, hturn, rfl⟩
  · refine moved _ ?_
    cases k <;> exact (List.append_nil _).symm
  · refine moved _ ?_
    rw [included_polled, g.included_pollNext]
    exact (List.append_nil _).symm
  · refine moved _ ?_
    have hcalls : [Wake.input e].filterMap Wake.call = [] := by
      rw [List.filterMap_cons, Wake.call, hcall]
      rfl
    rw [ho, hcalls]
    exact (List.append_nil _).symm
  · have hcalls : [Wake.input e].filterMap Wake.call = [c] := by
      rw [List.filterMap_cons, Wake.call, hcall]
      rfl
    rw [hcalls]
    rcases turn_cases hturn with ⟨-, rfl, hbuffer, hpushed⟩ | ⟨-, hsum⟩
    · rw [lostIn, hbuffer, hpushed, if_pos ⟨rfl, rfl⟩, List.append_nil]
      exact List.nil_append _
    · exact moved _ (included_created created ▸ hsum)

/-- Only a call that fails after it took the buffer loses transactions. -/
theorem fails_of_lostIn (h : crate.run g w = .next g' o) (hlost : lostIn g g' o ≠ []) :
    ∃ c, w.call = some c ∧ crate.FailsAfterTake g c ∧ g.includedTransactionBuffer ≠ [] := by
  have hbuffer : g.includedTransactionBuffer ≠ [] := by
    intro hempty
    refine hlost ?_
    rw [lostIn, hempty]
    exact ite_self _
  have moved : ∀ txs, o.flatMap Ran.included ++ g'.includedTransactionBuffer ≠
      g.includedTransactionBuffer ++ txs := fun _ htxs => hlost (lostIn_eq_nil htxs)
  rcases run_cases h with ⟨k, e, rfl, rfl, rfl⟩ | ⟨rfl, rfl, rfl⟩ | ⟨e, rfl, hcall, rfl, -, -, ho⟩ |
    ⟨e, c, created, rfl, hcall, hturn, rfl⟩
  · refine absurd ?_ (moved [])
    cases k <;> exact (List.append_nil _).symm
  · refine absurd ?_ (moved [])
    rw [included_polled, g.included_pollNext]
    exact (List.append_nil _).symm
  · refine absurd ?_ (moved [])
    rw [ho]
    exact (List.append_nil _).symm
  · rcases turn_cases hturn with ⟨hfails, -⟩ | ⟨-, hsum⟩
    · exact ⟨c, hcall, hfails, hbuffer⟩
    · exact absurd (included_created created ▸ hsum) (moved _)

/-- Own events take scheduled transactions, each at most once. -/
theorem run_included (h : crate.run g w = .next g' o) :
    (o.flatMap Ran.included ++ g'.includedTransactionBuffer).Sublist
      (g.includedTransactionBuffer ++ pushed ([w].filterMap Wake.call)) := by
  rw [← run_taken h]
  exact (List.sublist_append_right _ _).append_left _

/-- Requests are answered at once. -/
theorem run_response (h : crate.run g w = .next g' o) :
    o.filterMap Ran.response = [w].filterMap Wake.request := by
  rcases run_cases h with ⟨k, e, rfl, rfl, rfl⟩ | ⟨rfl, rfl, rfl⟩ | ⟨e, rfl, hcall, rfl, ho, -, -⟩ |
    ⟨e, c, created, rfl, hcall, hturn, rfl⟩
  · rfl
  · rcases g.pollNext.1 with _ | ⟨_ | _, _⟩ <;> rfl
  · exact ho
  · rw [List.filterMap_map]
    have hrequest : [Wake.input e].filterMap Wake.request = [] := by
      cases e <;> cases hcall <;> rfl
    rw [hrequest]
    exact List.filterMap_eq_nil_iff.2 fun _ _ => rfl

theorem loop_taken (h : Turn.loop crate.run g ws = .next g' out) :
    (out.flatMap Ran.included ++ (lost crate g ws ++ g'.includedTransactionBuffer)).Perm
      (g.includedTransactionBuffer ++ pushed (ws.filterMap Wake.call)) := by
  induction ws generalizing g out with
  | nil =>
    cases h
    rw [lost, List.nil_append]
    exact .of_eq (List.append_nil _).symm
  | cons w ws ih =>
    obtain ⟨t, o, o', hturn, hloop, rfl⟩ := Turn.loop_cons_next.1 h
    have hpushed : pushed ((w :: ws).filterMap Wake.call) =
        pushed ([w].filterMap Wake.call) ++ pushed (ws.filterMap Wake.call) := by
      rw [← List.singleton_append, List.filterMap_append]
      exact List.filterMap_append
    rw [hpushed, lost_cons hturn, List.flatMap_append, ← List.append_assoc _ (pushed _), ← run_taken hturn]
    simp only [List.append_assoc]
    have hswap : (o'.flatMap Ran.included ++
        (lostIn g t o ++ (lost crate t ws ++ g'.includedTransactionBuffer))).Perm
          (lostIn g t o ++
            (o'.flatMap Ran.included ++ (lost crate t ws ++ g'.includedTransactionBuffer))) := by
      rw [← List.append_assoc, ← List.append_assoc (lostIn g t o)]
      exact List.perm_append_comm.append_right _
    exact (hswap.trans ((ih hloop).append_left _)).append_left _

/-- **Nothing is lost** if no call fails after it took transactions. -/
theorem lost_eq_nil (h : Turn.loop crate.run g ws = .next g' out)
    (keeps : ∀ us w vs t o c, ws = us ++ w :: vs → Turn.loop crate.run g us = .next t o →
      w.call = some c → crate.FailsAfterTake t c → t.includedTransactionBuffer = []) :
    lost crate g ws = [] := by
  induction ws generalizing g out with
  | nil => rfl
  | cons w ws ih =>
    obtain ⟨t, o, o', hturn, hloop, rfl⟩ := Turn.loop_cons_next.1 h
    have hhead : lostIn g t o = [] := by
      by_contra hne
      obtain ⟨c, hcall, hfails, hbuffer⟩ := fails_of_lostIn hturn hne
      exact hbuffer (keeps [] w ws g [] c rfl rfl hcall hfails)
    rw [lost_cons hturn, hhead, List.nil_append]
    refine ih hloop fun us w' vs t' p c hws hus => ?_
    exact keeps (w :: us) w' vs t' (o ++ p) c (by rw [hws]; rfl)
      (Turn.loop_cons_next.2 ⟨t, o, p, hturn, hus, rfl⟩)

/-- Polls put out all that is due, in order. -/
theorem polls_drain (g : GraphWrapper G) {n : Nat} (hn : g.due.length ≤ n) : ∃ g',
    Turn.loop crate.run g (List.replicate n .next) =
      .next g' (g.due.map fun tx => .output (nextTxEvent tx)) ∧ g'.due = [] := by
  induction n generalizing g with
  | zero =>
    have hdue : g.due = [] := List.eq_nil_of_length_eq_zero (Nat.le_zero.1 hn)
    refine ⟨g, ?_, hdue⟩
    rw [hdue]
    rfl
  | succ n ih =>
    obtain ⟨hhead, hnone, -⟩ := g.due_pollNext
    have hturn : crate.run g .next =
        .next g.pollNext.2 (g.pollNext.1.toList.map fun tx => .output (nextTxEvent tx)) := by
      rw [run]
      rcases g.pollNext with ⟨_ | tx, t⟩ <;> rfl
    have hless : g.pollNext.2.due.length ≤ n := by
      cases hpoll : g.pollNext.1 with
      | none =>
        rw [hnone hpoll]
        exact Nat.zero_le n
      | some tx =>
        rw [← hhead, hpoll] at hn
        exact Nat.le_of_succ_le_succ hn
    obtain ⟨g', hrest, hdue⟩ := ih g.pollNext.2 hless
    refine ⟨g', Turn.loop_cons_next.2 ⟨_, _, _, hturn, hrest, ?_⟩, hdue⟩
    rw [← List.map_append, hhead]

/-- **The loop of consensus**: in any run, what waited on a stream and the transactions of the
events that become ready there are put out, in this order, or still wait, and nothing else is;
requests are answered once and in order; own events take the scheduled transactions in order, each
at most once. As many polls as there are transactions due put them all out and leave nothing. -/
theorem run_accounts (appends : crate.Appends) (h : Turn.loop crate.run g ws = .next g' out) :
    (∀ k, returned k (out.filterMap Ran.transaction) ++ g'.waiting k =
      g.waiting k ++ (readied crate k g ws).flatMap (yielded (g.buffer k).hash)) ∧
    out.filterMap Ran.response = ws.filterMap Wake.request ∧
    (out.flatMap Ran.included ++ g'.includedTransactionBuffer).Sublist
      (g.includedTransactionBuffer ++ pushed (ws.filterMap Wake.call)) ∧
    ∃ g'', Turn.loop crate.run g' (List.replicate g'.due.length .next) =
      .next g'' (g'.due.map fun tx => .output (nextTxEvent tx)) ∧ g''.due = [] := by
  refine ⟨loop_waiting appends h, ?_, ?_, polls_drain g' (Nat.le_refl _)⟩
  · refine Turn.loop_invariant (I := fun ws out _ =>
      out.filterMap Ran.response = ws.filterMap Wake.request) rfl ?_ h
    intro ws out t w t' o ih hturn
    rw [List.filterMap_append, List.filterMap_append, ih, run_response hturn]
  · refine Turn.loop_invariant (I := fun ws out t =>
      (out.flatMap Ran.included ++ t.includedTransactionBuffer).Sublist
        (g.includedTransactionBuffer ++ pushed (ws.filterMap Wake.call))) ?_ ?_ h
    · exact List.sublist_append_left _ _
    · intro ws out t w t' o ih hturn
      have hpushed : pushed ((ws ++ [w]).filterMap Wake.call) =
          pushed (ws.filterMap Wake.call) ++ pushed ([w].filterMap Wake.call) := by
        rw [List.filterMap_append]
        exact List.filterMap_append
      rw [hpushed, List.flatMap_append, List.append_assoc]
      refine ((run_included hturn).append_left _).trans ?_
      rw [← List.append_assoc, ← List.append_assoc]
      exact ih.append_right _

/-- The graph of one peer, whose syncs are empty. -/
def sample : RunCrate Unit Unit where
  toCrate := sampleCrate
  generateSyncFor _ _ := .ok []
  peers _ := [⟨[0]⟩]

def sampleWakes : List (Wake Unit) :=
  [.arrive .recognized sampleEvent, .next, .input (.scheduleTx (.storageRequest ⟨0⟩)),
    .input .knownPeersRequest, .input .createStandalone]

theorem run_accounts_sample : ∃ g' out,
    Turn.loop sample.run sampleWrapper sampleWakes = .next g' out ∧
      (∀ k, returned k (out.filterMap Ran.transaction) ++ g'.waiting k =
        sampleWrapper.waiting k ++ (readied sample k sampleWrapper sampleWakes).flatMap
          (yielded (sampleWrapper.buffer k).hash)) ∧
      out.filterMap Ran.response = [none] :=
  have appends : sample.Appends := ⟨fun inner _ => .refl inner, fun inner _ _ => .refl inner⟩
  have run : Turn.loop sample.run sampleWrapper sampleWakes = .next _ _ := rfl
  have accounts := run_accounts appends run
  ⟨_, _, run, accounts.1, accounts.2.1⟩

end RunCrate

end Swarm.Consensus
