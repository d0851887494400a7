import Swarm.Lib.Machine
import Swarm.Processor.Instruction

/-!
# The graph consensus wrapper

`GraphWrapper` feeds the transactions of the hashgraph's events to the rest of
the node one by one, and collects scheduled transactions for the next event of
this node. The hashgraph crate is not part of the repository: `Crate` has the
methods the wrapper calls, with any results, and `Inner` shows of its graph the
events that are ready to be yielded.
-/

namespace Swarm.Consensus

open Swarm.Processor

inductive Transaction where
  | initializeStorage (distribution : List (PeerId × Sid))
  | storageRequest (dataId : Vid)
  | stored (dataId : Vid) (shardId : Sid)
  | execute (instructions : Instructions)
  | executed (programId : ProgramIdentifier)
  deriving DecidableEq

structure EventPayload where
  transactions : List Transaction
  deriving DecidableEq

structure Event where
  author : PeerId
  hash : Hash
  payload : EventPayload
  deriving DecidableEq

/-- The crate's graph: what it keeps, and the events it yields next. -/
structure Inner (G : Type) where
  core : G
  finalized : List Event
  recognized : List Event

inductive PushError where
  | eventAlreadyExists (hash : Hash)
  | other (message : String)

/-- The methods of the crate's graph. Events are referred to by their hash. -/
structure Crate (G Job : Type) where
  selfId : Inner G → PeerId
  peerLatestEvent : Inner G → PeerId → Option Hash
  pushEvent : Inner G → Job → Except PushError Unit × Inner G
  createEvent : Inner G → EventPayload → Hash → Except String Unit × Inner G

/-- Transactions of the event that is being fed: its author, what is left of it, a hash. -/
structure TxBuffer where
  peer : PeerId
  txs : List Transaction
  hash : Hash
  deriving DecidableEq

structure GraphWrapper (G : Type) where
  inner : Inner G
  includedTransactionBuffer : List Transaction
  finalizedTransactionBuffer : TxBuffer
  recognizedTransactionBuffer : TxBuffer

inductive ApplySyncError where
  | pushError (e : PushError)
  | unknownPeer (peer : PeerId)
  | createError (message : String)

variable {G Job : Type}

/-- `GraphWrapper::from_graph`; the peers are random ones. -/
def GraphWrapper.fromGraph (inner : Inner G) (peer peer' : PeerId) : GraphWrapper G where
  inner := inner
  includedTransactionBuffer := []
  finalizedTransactionBuffer := ⟨peer, [], Hash.fromArray fun _ => 0⟩
  recognizedTransactionBuffer := ⟨peer', [], Hash.fromArray fun _ => 0⟩

/-! ## The transaction stream -/

abbrev NextTxData := PeerId × Transaction × Hash

/-- `GraphWrapper::next_tx`, with the events that `get_next_event` yields before it returns
`None`: the transaction, the events left and the buffer. -/
def nextTx : List Event → TxBuffer → Option NextTxData × List Event × TxBuffer
  | events, ⟨peer, tx :: txs, hash⟩ => (some (peer, tx, hash), events, ⟨peer, txs, hash⟩)
  | [], ⟨peer, [], hash⟩ => (none, [], ⟨peer, [], hash⟩)
  | event :: events, ⟨_, [], hash⟩ =>
    match event.payload.transactions with
    | tx :: txs => (some (event.author, tx, event.hash), events, ⟨event.author, txs, hash⟩)
    -- more events might be available
    | [] => nextTx events ⟨event.author, [], hash⟩

namespace GraphWrapper

def nextFinalized (g : GraphWrapper G) : Option NextTxData × GraphWrapper G :=
  let (tx, events, buffer) := nextTx g.inner.finalized g.finalizedTransactionBuffer
  (tx, { g with
    inner := { g.inner with finalized := events }, finalizedTransactionBuffer := buffer })

def nextRecognized (g : GraphWrapper G) : Option NextTxData × GraphWrapper G :=
  let (tx, events, buffer) := nextTx g.inner.recognized g.recognizedTransactionBuffer
  (tx, { g with
    inner := { g.inner with recognized := events }, recognizedTransactionBuffer := buffer })

end GraphWrapper

/-- The two streams of a wrapper. -/
inductive Stream where
  | finalized
  | recognized
  deriving DecidableEq

namespace GraphWrapper

def next : Stream → GraphWrapper G → Option NextTxData × GraphWrapper G
  | .finalized => nextFinalized
  | .recognized => nextRecognized

/-- `GraphWrapper::poll_next`: `none` is `Poll::Pending`. -/
def pollNext (g : GraphWrapper G) : Option (Stream × NextTxData) × GraphWrapper G :=
  match g.nextFinalized with
  | (some tx, g) => (some (.finalized, tx), g)
  | (none, g) =>
    let (tx, g) := g.nextRecognized
    (tx.map (.recognized, ·), g)

def ready (k : Stream) (g : GraphWrapper G) : List Event :=
  match k with
  | .finalized => g.inner.finalized
  | .recognized => g.inner.recognized

def buffer (k : Stream) (g : GraphWrapper G) : TxBuffer :=
  match k with
  | .finalized => g.finalizedTransactionBuffer
  | .recognized => g.recognizedTransactionBuffer

/-- The graph has one more event to yield. -/
def arrive (k : Stream) (e : Event) (g : GraphWrapper G) : GraphWrapper G :=
  match k with
  | .finalized => { g with inner := { g.inner with finalized := g.inner.finalized ++ [e] } }
  | .recognized => { g with inner := { g.inner with recognized := g.inner.recognized ++ [e] } }

end GraphWrapper

/-- What happens to the streams: an event becomes available, or `next_tx` is called. -/
inductive Poll where
  | arrive (k : Stream) (e : Event)
  | next (k : Stream)

def Poll.turn (g : GraphWrapper G) : Poll → Turn (GraphWrapper G) (Stream × NextTxData)
  | .arrive k e => .next (g.arrive k e) []
  | .next k =>
    let (tx, g) := g.next k
    .next g (tx.toList.map (k, ·))

/-- The events that arrived on a stream. -/
def arrived (k : Stream) (polls : List Poll) : List Event :=
  polls.filterMap fun
    | .arrive k' e => if k' = k then some e else none
    | .next _ => none

/-- The triples returned on a stream. -/
def returned (k : Stream) (out : List (Stream × NextTxData)) : List NextTxData :=
  out.filterMap fun p => if p.1 = k then some p.2 else none

/-- What a stream should say about an event. -/
def faithful (e : Event) : List NextTxData :=
  e.payload.transactions.map fun tx => (e.author, tx, e.hash)

/-- What `next_tx` says about an event: from the second transaction on, the hash is the one the
buffer was created with. -/
def yielded (hash : Hash) (e : Event) : List NextTxData :=
  match e.payload.transactions with
  | [] => []
  | tx :: txs => (e.author, tx, e.hash) :: txs.map fun tx => (e.author, tx, hash)

def TxBuffer.pending (b : TxBuffer) : List NextTxData := b.txs.map fun tx => (b.peer, tx, b.hash)

/-- **One call**: it returns the head of what is pending, and `none` only when nothing is. -/
theorem nextTx_spec (events : List Event) (b : TxBuffer) :
    (nextTx events b).2.2.hash = b.hash ∧
    (nextTx events b).1.toList ++ ((nextTx events b).2.2.pending ++
      (nextTx events b).2.1.flatMap (yielded b.hash)) =
        b.pending ++ events.flatMap (yielded b.hash) ∧
    ((nextTx events b).1 = none →
      (nextTx events b).2.2.txs = [] ∧ (nextTx events b).2.1 = []) := by
  induction events, b using nextTx.induct with
  | case1 events peer tx txs hash => simp [nextTx, TxBuffer.pending]
  | case2 peer hash => simp [nextTx, TxBuffer.pending]
  | case3 event events peer hash tx txs h => simp [nextTx, TxBuffer.pending, yielded, h]
  | case4 event events peer hash h ih =>
    have hstep : nextTx (event :: events) ⟨peer, [], hash⟩ =
        nextTx events ⟨event.author, [], hash⟩ := by
      rw [nextTx]
      simp only [h]
    rw [hstep]
    obtain ⟨h1, h2, h3⟩ := ih
    refine ⟨h1, ?_, h3⟩
    simpa [TxBuffer.pending, yielded, h] using h2

/-- The call on the wrapper is the call on the stream's own events and buffer. -/
theorem next_eq (k : Stream) (g : GraphWrapper G) :
    (g.next k).1 = (nextTx (g.ready k) (g.buffer k)).1 ∧
    (g.next k).2.ready k = (nextTx (g.ready k) (g.buffer k)).2.1 ∧
    (g.next k).2.buffer k = (nextTx (g.ready k) (g.buffer k)).2.2 ∧
    ∀ k', k' ≠ k → (g.next k).2.ready k' = g.ready k' ∧ (g.next k).2.buffer k' = g.buffer k' := by
  cases k with
  | finalized =>
    refine ⟨rfl, rfl, rfl, fun k' hk => ?_⟩
    cases k' with
    | finalized => exact absurd rfl hk
    | recognized => exact ⟨rfl, rfl⟩
  | recognized =>
    refine ⟨rfl, rfl, rfl, fun k' hk => ?_⟩
    cases k' with
    | finalized => exact ⟨rfl, rfl⟩
    | recognized => exact absurd rfl hk

theorem arrive_eq (k : Stream) (e : Event) (g : GraphWrapper G) :
    (∀ k', (g.arrive k e).buffer k' = g.buffer k') ∧
    ∀ k', (g.arrive k e).ready k' = g.ready k' ++ if k = k' then [e] else [] := by
  constructor
  · intro k'
    cases k <;> cases k' <;> rfl
  · intro k'
    cases k <;> cases k' <;> simp [GraphWrapper.arrive, GraphWrapper.ready]

/-- A wrapper whose stream `k` has nothing left of an event. -/
def GraphWrapper.Drained (k : Stream) (g : GraphWrapper G) : Prop :=
  g.ready k = [] ∧ (g.buffer k).txs = []

/-- **Runs**: what was returned, what is pending and what is ready add up to what arrived. -/
theorem returned_run {k : Stream} {g g' : GraphWrapper G} {polls : List Poll}
    {out : List (Stream × NextTxData)} (hg : g.Drained k)
    (hrun : Turn.loop Poll.turn g polls = .next g' out) :
    (g'.buffer k).hash = (g.buffer k).hash ∧
    returned k out ++ ((g'.buffer k).pending ++
      (g'.ready k).flatMap (yielded (g.buffer k).hash)) =
        (arrived k polls).flatMap (yielded (g.buffer k).hash) := by
  refine Turn.loop_invariant (I := fun polls out t => (t.buffer k).hash = (g.buffer k).hash ∧
    returned k out ++ ((t.buffer k).pending ++ (t.ready k).flatMap (yielded (g.buffer k).hash)) =
      (arrived k polls).flatMap (yielded (g.buffer k).hash)) ?_ ?_ hrun
  · simp [TxBuffer.pending, hg.1, hg.2, returned, arrived]
  · rintro polls out t p t' o ⟨hhash, hinv⟩ hturn
    cases p with
    | arrive k' e =>
      cases hturn
      obtain ⟨hb, hr⟩ := arrive_eq k' e t
      rw [hb, hr, List.append_nil]
      refine ⟨hhash, ?_⟩
      have harr : arrived k (polls ++ [.arrive k' e]) =
          arrived k polls ++ if k' = k then [e] else [] := by
        by_cases h : k' = k <;> simp [arrived, h]
      rw [harr, List.flatMap_append, List.flatMap_append, ← hinv]
      simp only [List.append_assoc]
    | next k' =>
      have harr : arrived k (polls ++ [.next k']) = arrived k polls := by simp [arrived]
      simp only [Poll.turn, Turn.next.injEq] at hturn
      obtain ⟨rfl, rfl⟩ := hturn
      obtain ⟨h1, h2, h3, hother⟩ := next_eq k' t
      by_cases hk : k' = k
      · subst hk
        obtain ⟨hspec, hsum, -⟩ := nextTx_spec (t.ready k') (t.buffer k')
        have hret : returned k' (out ++ (t.next k').1.toList.map (k', ·)) =
            returned k' out ++ (nextTx (t.ready k') (t.buffer k')).1.toList := by
          rw [← h1]
          cases (t.next k').1 <;> simp [returned]
        rw [h2, h3, harr, hret, hspec]
        refine ⟨hhash, ?_⟩
        rw [hhash] at hsum
        rw [List.append_assoc, hsum, hinv]
      · obtain ⟨hr, hb⟩ := hother k (Ne.symm hk)
        have hret : returned k (out ++ (t.next k').1.toList.map (k', ·)) = returned k out := by
          cases (t.next k').1 <;> simp [returned, hk]
        rw [hr, hb, harr, hret]
        exact ⟨hhash, hinv⟩

theorem yielded_eq_faithful_iff (hash : Hash) (e : Event) :
    yielded hash e = faithful e ↔ (2 ≤ e.payload.transactions.length → e.hash = hash) := by
  unfold yielded faithful
  cases h : e.payload.transactions with
  | nil => simp
  | cons tx txs =>
    cases txs with
    | nil => simp
    | cons tx' txs =>
      simp only [List.map_cons, List.cons.injEq, Prod.mk.injEq, true_and, List.length_cons]
      constructor
      · exact fun h _ => h.1.symm
      · intro h
        have := h (by omega)
        simp [this]

/-- Lists of blocks of equal lengths are equal block by block. -/
theorem flatMap_eq_iff {α β : Type} {f g : α → List β} (hlen : ∀ a, (f a).length = (g a).length)
    (l : List α) : l.flatMap f = l.flatMap g ↔ ∀ a ∈ l, f a = g a := by
  induction l with
  | nil => simp
  | cons a l ih =>
    rw [List.flatMap_cons, List.flatMap_cons, List.forall_mem_cons, ← ih]
    constructor
    · exact fun h => List.append_inj h (hlen a)
    · rintro ⟨h, h'⟩
      rw [h, h']

/-- **The transaction stream**: when a stream is drained, after any events and calls in any
order, the triples returned are those of the events, exactly if each event with two or more
transactions has the hash that the buffer was created with. -/
theorem stream_faithful_iff {k : Stream} {g g' : GraphWrapper G} {polls : List Poll}
    {out : List (Stream × NextTxData)} (hg : g.Drained k)
    (hrun : Turn.loop Poll.turn g polls = .next g' out) (hnone : (g'.next k).1 = none) :
    returned k out = (arrived k polls).flatMap faithful ↔
      ∀ e ∈ arrived k polls, 2 ≤ e.payload.transactions.length →
        e.hash = (g.buffer k).hash := by
  obtain ⟨hhash, hinv⟩ := returned_run hg hrun
  have hempty : (g'.buffer k).pending ++ (g'.ready k).flatMap (yielded (g.buffer k).hash) = [] := by
    obtain ⟨-, hsum, hdone⟩ := nextTx_spec (g'.ready k) (g'.buffer k)
    rw [← (next_eq k g').1, hnone] at hsum
    obtain ⟨h1, h2⟩ := hdone ((next_eq k g').1 ▸ hnone)
    rw [← hhash, ← hsum, h2]
    simp [TxBuffer.pending, h1]
  rw [hempty, List.append_nil] at hinv
  rw [hinv, flatMap_eq_iff fun e => ?_]
  · simp only [yielded_eq_faithful_iff]
  · unfold yielded faithful
    cases e.payload.transactions <;> simp

/-- An event with two transactions. -/
def sampleEvent : Event where
  author := ⟨[1]⟩
  hash := ⟨fun _ => 1⟩
  payload := ⟨[.storageRequest ⟨0⟩, .stored ⟨0⟩ ⟨1⟩]⟩

/-- A new wrapper over a graph without events. -/
def sampleWrapper : GraphWrapper Unit := .fromGraph ⟨(), [], []⟩ ⟨[0]⟩ ⟨[0]⟩

def samplePolls : List Poll :=
  [.next .recognized, .arrive .recognized sampleEvent, .next .recognized, .next .recognized]

theorem stream_faithful_iff_sample :
    ∃ g' out, Turn.loop Poll.turn sampleWrapper samplePolls = .next g' out ∧
      (returned .recognized out = (arrived .recognized samplePolls).flatMap faithful ↔
        ∀ e ∈ arrived .recognized samplePolls, 2 ≤ e.payload.transactions.length →
          e.hash = (sampleWrapper.buffer .recognized).hash) :=
  ⟨_, _, rfl, stream_faithful_iff (k := .recognized) (g := sampleWrapper) ⟨rfl, rfl⟩ rfl rfl⟩

/-- The second transaction of an event comes with the hash of no event. -/
theorem second_transaction_misses_hash :
    ∃ g' out, Turn.loop Poll.turn sampleWrapper samplePolls = .next g' out ∧
      (g'.next .recognized).1 = none ∧
      returned .recognized out ≠ (arrived .recognized samplePolls).flatMap faithful :=
  ⟨_, _, rfl, rfl, by decide +kernel⟩

/-! ## Scheduled transactions -/

/-- A call on the wrapper: its result, the wrapper after it, and the payloads of the events it
created. -/
structure Called (G : Type) where
  result : Outcome ApplySyncError Unit
  wrapper : GraphWrapper G
  created : List EventPayload

namespace Crate

variable (crate : Crate G Job)

/-- The `push_event` loop of `apply_sync`. -/
def pushEvents (inner : Inner G) : List Job → Except PushError Unit × Inner G
  | [] => (.ok (), inner)
  | job :: jobs =>
    match crate.pushEvent inner job with
    | (.ok (), inner) | (.error (.eventAlreadyExists _), inner) => pushEvents inner jobs
    | (.error e, inner) => (.error e, inner)

def applySync (g : GraphWrapper G) (peer : PeerId) (syncJobs : List Job) : Called G :=
  match crate.pushEvents g.inner syncJobs with
  | (.error e, inner) => ⟨.err (.pushError e), { g with inner := inner }, []⟩
  | (.ok (), inner) =>
    let txs := g.includedTransactionBuffer
    let g := { g with inner := inner, includedTransactionBuffer := [] }
    let payload : EventPayload := ⟨txs⟩
    match crate.peerLatestEvent inner peer with
    | none => ⟨.err (.unknownPeer peer), g, []⟩
    | some otherParent =>
      match crate.createEvent inner payload otherParent with
      | (.error e, inner) => ⟨.err (.createError e), { g with inner := inner }, []⟩
      | (.ok (), inner) =>
        ⟨.ok (), { g with inner := inner, includedTransactionBuffer := [] }, [payload]⟩

def createStandaloneEvent (g : GraphWrapper G) : Called G :=
  let txs := g.includedTransactionBuffer
  let g := { g with includedTransactionBuffer := [] }
  let payload : EventPayload := ⟨txs⟩
  match crate.peerLatestEvent g.inner (crate.selfId g.inner) with
  -- `expect("Peer must know itself")`
  | none => ⟨.panic, g, []⟩
  | some selfParent =>
    match crate.createEvent g.inner payload selfParent with
    | (.error e, inner) => ⟨.err (.createError e), { g with inner := inner }, []⟩
    | (.ok (), inner) => ⟨.ok (), { g with inner := inner }, [payload]⟩

end Crate

def GraphWrapper.pushTx (g : GraphWrapper G) (tx : Transaction) : GraphWrapper G :=
  { g with includedTransactionBuffer := g.includedTransactionBuffer ++ [tx] }

inductive Call (Job : Type) where
  | pushTx (tx : Transaction)
  | applySync (peer : PeerId) (syncJobs : List Job)
  | createStandaloneEvent

/-- One call in `GraphWrapper::run`, which only logs an error; the outputs are the payloads of
the created events. -/
def Call.turn (crate : Crate G Job) (g : GraphWrapper G) :
    Call Job → Turn (GraphWrapper G) EventPayload
  | .pushTx tx => .next (g.pushTx tx) []
  | .applySync peer syncJobs =>
    let r := crate.applySync g peer syncJobs
    .next r.wrapper r.created
  | .createStandaloneEvent =>
    let r := crate.createStandaloneEvent g
    match r.result with
    | .panic => .panic
    | _ => .next r.wrapper r.created

def pushed (calls : List (Call Job)) : List Transaction :=
  calls.filterMap fun
    | .pushTx tx => some tx
    | _ => none

/-- Every pushed transaction is in one created event or in the buffer, in push order. -/
def Conserved (calls : List (Call Job)) (created : List EventPayload) (g : GraphWrapper G) : Prop :=
  pushed calls = created.flatMap EventPayload.transactions ++ g.includedTransactionBuffer

/-- The call takes the buffer and then fails. -/
def Crate.FailsAfterTake (crate : Crate G Job) (g : GraphWrapper G) : Call Job → Prop
  | .pushTx _ => False
  | .applySync peer syncJobs =>
    ∃ inner, crate.pushEvents g.inner syncJobs = (.ok (), inner) ∧
      (crate.peerLatestEvent inner peer = none ∨ ∃ otherParent e inner',
        crate.peerLatestEvent inner peer = some otherParent ∧
        crate.createEvent inner ⟨g.includedTransactionBuffer⟩ otherParent = (.error e, inner'))
  | .createStandaloneEvent =>
    ∃ selfParent e inner',
      crate.peerLatestEvent g.inner (crate.selfId g.inner) = some selfParent ∧
      crate.createEvent g.inner ⟨g.includedTransactionBuffer⟩ selfParent = (.error e, inner')

variable {crate : Crate G Job}

/-- **One call** either fails after the take and drops the buffer, or moves transactions from
the buffer to a created event, or adds the pushed one. -/
theorem turn_cases {g g' : GraphWrapper G} {c : Call Job} {created : List EventPayload}
    (h : c.turn crate g = .next g' created) :
    (crate.FailsAfterTake g c ∧ created = [] ∧ g'.includedTransactionBuffer = [] ∧
      pushed [c] = []) ∨
    (¬ crate.FailsAfterTake g c ∧
      created.flatMap EventPayload.transactions ++ g'.includedTransactionBuffer =
        g.includedTransactionBuffer ++ pushed [c]) := by
  cases c with
  | pushTx tx =>
    cases h
    exact .inr ⟨id, rfl⟩
  | applySync peer syncJobs =>
    simp only [Call.turn, Crate.applySync] at h
    split at h
    · rename_i e inner hpush
      cases h
      refine .inr ⟨?_, by simp [pushed]⟩
      rintro ⟨inner', hpush', -⟩
      rw [hpush] at hpush'
      cases hpush'
    · rename_i inner hpush
      split at h
      · rename_i hnone
        cases h
        exact .inl ⟨⟨inner, hpush, .inl hnone⟩, rfl, rfl, rfl⟩
      · rename_i otherParent hsome
        split at h
        · rename_i e inner' hcreate
          cases h
          exact .inl ⟨⟨inner, hpush, .inr ⟨_, _, _, hsome, hcreate⟩⟩, rfl, rfl, rfl⟩
        · rename_i inner' hcreate
          cases h
          refine .inr ⟨?_, by simp [pushed]⟩
          rintro ⟨i, hpush', hfail⟩
          rw [hpush] at hpush'
          cases hpush'
          rcases hfail with hnone | ⟨p, e, i', hp, he⟩
          · rw [hsome] at hnone
            cases hnone
          · rw [hsome] at hp
            cases hp
            rw [hcreate] at he
            cases he
  | createStandaloneEvent =>
    simp only [Call.turn, Crate.createStandaloneEvent] at h
    cases hparent : crate.peerLatestEvent g.inner (crate.selfId g.inner) with
    | none => simp [hparent] at h
    | some selfParent =>
      simp only [hparent] at h
      cases hcreate : crate.createEvent g.inner ⟨g.includedTransactionBuffer⟩ selfParent with
      | mk r inner' =>
        cases r with
        | error e =>
          simp only [hcreate] at h
          cases h
          exact .inl ⟨⟨_, _, _, hparent, hcreate⟩, rfl, rfl, rfl⟩
        | ok u =>
          simp only [hcreate] at h
          cases h
          refine .inr ⟨?_, by simp [pushed]⟩
          rintro ⟨p, e, i', hp, he⟩
          rw [hparent] at hp
          cases hp
          rw [hcreate] at he
          cases he

theorem pushed_append (calls : List (Call Job)) (c : Call Job) :
    pushed (calls ++ [c]) = pushed calls ++ pushed [c] := List.filterMap_append

/-- **Scheduled transactions**: from an empty buffer, at every point of a run all pushed
transactions are in created events or in the buffer, in push order and once, exactly when every
call that fails after the take finds an empty buffer. -/
theorem transactions_conserved_iff {g g' : GraphWrapper G} {calls : List (Call Job)}
    {created : List EventPayload} (hg : g.includedTransactionBuffer = [])
    (hrun : Turn.loop (Call.turn crate) g calls = .next g' created) :
    (∀ p gp cp, p <+: calls → Turn.loop (Call.turn crate) g p = .next gp cp →
      Conserved p cp gp) ↔
      ∀ p c gp cp, p ++ [c] <+: calls → Turn.loop (Call.turn crate) g p = .next gp cp →
        crate.FailsAfterTake gp c → gp.includedTransactionBuffer = [] := by
  constructor
  · intro h p c gp cp hp hlp hfail
    obtain ⟨r, hr⟩ := hp
    obtain ⟨t, o, o', hpc, -, -⟩ := Turn.loop_append_next.1 (hr ▸ hrun)
    obtain ⟨tp, op, oc, hlp', hlc, rfl⟩ := Turn.loop_append_next.1 hpc
    rw [hlp] at hlp'
    cases hlp'
    have hbefore := h p gp cp ((List.prefix_append _ _).trans ⟨r, hr⟩) hlp
    have hafter := h (p ++ [c]) t _ ⟨r, hr⟩ hpc
    rcases turn_cases (Turn.loop_singleton_next.1 hlc) with ⟨-, rfl, hbuf, hpush⟩ | ⟨hno, -⟩
    · unfold Conserved at hbefore hafter
      rw [pushed_append, hpush, hbuf, List.append_nil, List.append_nil, List.append_nil,
        hbefore] at hafter
      simpa using hafter
    · exact absurd hfail hno
  · intro h p gp cp hp hlp
    refine (Turn.loop_invariant (I := fun js created t => js <+: calls →
      Turn.loop (Call.turn crate) g js = .next t created ∧ Conserved js created t)
      (fun _ => ⟨rfl, by simp [Conserved, pushed, hg]⟩) ?_ hlp hp).2
    intro js created t c t' o ih hturn hpre
    obtain ⟨hl, hcons⟩ := ih ((List.prefix_append _ _).trans hpre)
    refine ⟨Turn.loop_append_next.2 ⟨t, created, o, hl, Turn.loop_singleton_next.2 hturn, rfl⟩, ?_⟩
    unfold Conserved at hcons ⊢
    rw [pushed_append, hcons, List.flatMap_append, List.append_assoc, List.append_assoc]
    rcases turn_cases hturn with ⟨hfail, rfl, hbuf, hpush⟩ | ⟨-, hsum⟩
    · rw [h js c t created hpre hl hfail, hbuf, hpush]
      rfl
    · rw [hsum]

/-- A graph that knows only its own peer and creates every event. -/
def sampleCrate : Crate Unit Unit where
  selfId _ := ⟨[0]⟩
  peerLatestEvent _ peer := if peer = ⟨[0]⟩ then some ⟨fun _ => 0⟩ else none
  pushEvent inner _ := (.ok (), inner)
  createEvent inner _ _ := (.ok (), inner)

theorem transactions_conserved_iff_sample :
    ∃ g' created, Turn.loop (Call.turn sampleCrate) sampleWrapper
        [.pushTx (.storageRequest ⟨0⟩), .createStandaloneEvent] = .next g' created ∧
      ((∀ p gp cp, p <+: [.pushTx (.storageRequest ⟨0⟩), .createStandaloneEvent] →
        Turn.loop (Call.turn sampleCrate) sampleWrapper p = .next gp cp → Conserved p cp gp) ↔
      ∀ p c gp cp, p ++ [c] <+: [.pushTx (.storageRequest ⟨0⟩), .createStandaloneEvent] →
        Turn.loop (Call.turn sampleCrate) sampleWrapper p = .next gp cp →
        sampleCrate.FailsAfterTake gp c → gp.includedTransactionBuffer = []) :=
  ⟨_, _, rfl, transactions_conserved_iff rfl rfl⟩

/-- A transaction is scheduled, and a sync without events comes from a peer of which no event
is known: the sync fails and the transaction is in no event and not in the buffer. -/
theorem failed_sync_drops_transactions :
    ∃ g', Turn.loop (Call.turn sampleCrate) sampleWrapper
        [.pushTx (.storageRequest ⟨0⟩), .applySync ⟨[1]⟩ []] = .next g' [] ∧
      (sampleCrate.applySync (sampleWrapper.pushTx (.storageRequest ⟨0⟩)) ⟨[1]⟩ []).result =
        .err (.unknownPeer ⟨[1]⟩) ∧
      ¬ Conserved [(.pushTx (.storageRequest ⟨0⟩) : Call Unit), .applySync ⟨[1]⟩ []] [] g' :=
  ⟨_, rfl, rfl, by simp [Conserved, pushed, sampleWrapper, GraphWrapper.fromGraph]; decide⟩

end Swarm.Consensus
