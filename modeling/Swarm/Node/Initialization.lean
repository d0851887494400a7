import Swarm.Behaviour.Requests
import Swarm.Consensus.Feed
import Swarm.Lib.Dag

/-!
# Initialising the storage

The data memory of a node takes the first valid distribution among the
transactions it recognises. `initialized_agree`: two nodes take the same one as
soon as the events with a valid distribution that come after no other such event
all bring the same. Events of one author come one after another; concurrent ones
of several authors may be recognised in different orders.
-/

namespace Swarm.Node

open Swarm.DataMemory Swarm.Consensus Swarm.Encoding Swarm.Processor
open Swarm.Behaviour (Send MemoryModule)

variable {G : Type} {B : Nat}

/-- The way of an `InitializeStorage` transaction to the data memory. -/
structure Initialization (G : Type) (B : Nat) where
  consensus : GraphWrapper G
  consensusOutput : List (Stream × NextTxData)
  memoryInput : List (DataMemory.InEvent B)
  memory : MemoryModule B

inductive InitializationStep (B : Nat) where
  /-- The graph has one more event to yield. -/
  | arrive (k : Stream) (e : Event)
  /-- Consensus puts out the next transaction. -/
  | pollNext
  /-- The behaviour takes a transaction from consensus. -/
  | handleTx
  /-- The behaviour sends the data memory another event. -/
  | send (e : DataMemory.InEvent B)
  /-- The data memory takes its oldest input event. -/
  | memory (order : HashOrder)
  /-- The data memory takes a write from the memory bus. -/
  | busWrite (dataId : Vid) (shard : Shard B)

namespace Initialization

def new (core : G) (peer peer' : PeerId) (u : UninitializedDataMemory) : Initialization G B where
  consensus := .fromGraph ⟨core, [], []⟩ peer peer'
  consensusOutput := []
  memoryInput := []
  memory := .uninitialized u

def toDataMemory : Send B → Option (DataMemory.InEvent B)
  | .dataMemory e => some e
  | _ => none

/-- The behaviour on a transaction from consensus; finalised ones are only logged. -/
def txEvents (calculateHash : Instructions → Hash) :
    Stream × NextTxData → List (DataMemory.InEvent B)
  | (.recognized, (author, tx, eventHash)) =>
    (Behaviour.handleTx calculateHash author eventHash tx).filterMap toDataMemory
  | (.finalized, _) => []

def step (calculateHash : Instructions → Hash) (s : Initialization G B) :
    InitializationStep B → Option (Initialization G B)
  | .arrive k e => some { s with consensus := s.consensus.arrive k e }
  | .pollNext =>
    match s.consensus.pollNext with
    | (some tx, g) => some { s with consensus := g, consensusOutput := s.consensusOutput ++ [tx] }
    | (none, g) => some { s with consensus := g }
  | .handleTx =>
    match s.consensusOutput with
    | [] => none
    | tx :: rest => some { s with
        consensusOutput := rest
        memoryInput := s.memoryInput ++ txEvents calculateHash tx }
  | .send e =>
    match e with
    -- sent for a transaction only
    | .initializeStorage _ => none
    | e => some { s with memoryInput := s.memoryInput ++ [e] }
  | .memory order =>
    match s.memoryInput with
    | [] => none
    | e :: rest => (s.memory.handle order e).map fun r =>
      { s with memoryInput := rest, memory := r.1 }
  | .busWrite dataId shard =>
    match s.memory with
    | .initialized m => some { s with memory := .initialized (m.busWrite dataId shard) }
    | _ => none

/-! ## Valid distributions -/

/-- The distribution map that an uninitialised memory makes of a transaction and accepts. -/
def validInit (encoding : ReedSolomonWrapper) : Transaction → Option (HashMap PeerId Sid)
  | .initializeStorage distribution =>
    let distribution : HashMap PeerId Sid :=
      distribution.foldl (fun m p => m.insert p.1 p.2) ∅
    if UninitializedDataMemory.verifyDistribution ⟨encoding, ⟨[]⟩⟩ distribution then
      some distribution
    else none
  | _ => none

/-- The events that the node has recognised. -/
def recognized (as : List (InitializationStep B)) : List Event :=
  as.filterMap fun
    | .arrive .recognized e => some e
    | _ => none

/-- The valid distributions among what a node has recognised, in order. -/
def inits (encoding : ReedSolomonWrapper) (as : List (InitializationStep B)) :
    List (HashMap PeerId Sid) :=
  (recognized as).flatMap (taken (validInit encoding))

def ofInput (encoding : ReedSolomonWrapper) :
    DataMemory.InEvent B → Option (HashMap PeerId Sid)
  | .initializeStorage distribution => validInit encoding (.initializeStorage distribution)
  | _ => none

/-- The valid distributions on their way to the data memory. -/
def flow (encoding : ReedSolomonWrapper) (s : Initialization G B) : List (HashMap PeerId Sid) :=
  s.memoryInput.filterMap (ofInput encoding) ++
    s.consensusOutput.filterMap (ofOutput (validInit encoding)) ++
    upcoming (validInit encoding) s.consensus

theorem ofInput_txEvents (encoding : ReedSolomonWrapper) (calculateHash : Instructions → Hash)
    (p : Stream × NextTxData) :
    (txEvents (B := B) calculateHash p).filterMap (ofInput encoding) =
      (ofOutput (validInit encoding) p).toList := by
  obtain ⟨k, author, tx, eventHash⟩ := p
  cases k with
  | finalized => rfl
  | recognized =>
    cases tx with
    | initializeStorage distribution =>
      show [DataMemory.InEvent.initializeStorage distribution].filterMap (ofInput encoding) =
        (validInit encoding (.initializeStorage distribution)).toList
      have hin : ofInput (B := B) encoding (.initializeStorage distribution) =
          validInit encoding (.initializeStorage distribution) := rfl
      rw [List.filterMap_cons, hin]
      rcases validInit encoding (.initializeStorage distribution) with _ | d <;> rfl
    | _ => rfl

/-- An uninitialised memory takes a valid distribution and ignores every other event. -/
theorem handle_uninitialized {u : UninitializedDataMemory} {order : HashOrder}
    {e : DataMemory.InEvent B} {memory : MemoryModule B} {out : List (DataMemory.OutEvent B)}
    (h : (MemoryModule.uninitialized u).handle order e = some (memory, out)) :
    memory = match ofInput u.encoding e with
      | some distribution => .initialized (u.initializeWith distribution)
      | none => .uninitialized u := by
  unfold MemoryModule.handle at h
  cases e with
  | initializeStorage distribution =>
    simp only [UninitializedDataMemory.handle] at h
    simp only [ofInput, validInit]
    by_cases hv : u.verifyDistribution (distribution.foldl (fun m p => m.insert p.1 p.2) ∅)
    · have hv' : UninitializedDataMemory.verifyDistribution ⟨u.encoding, ⟨[]⟩⟩
          (distribution.foldl (fun m p => m.insert p.1 p.2) ∅) = true := hv
      rw [if_pos hv] at h
      rw [if_pos hv']
      cases h
      rfl
    · have hv' : ¬ UninitializedDataMemory.verifyDistribution ⟨u.encoding, ⟨[]⟩⟩
          (distribution.foldl (fun m p => m.insert p.1 p.2) ∅) = true := hv
      rw [if_neg hv] at h
      rw [if_neg hv']
      cases h
      rfl
  | _ => cases h; rfl

/-! ## Runs -/

variable {encoding : ReedSolomonWrapper} {calculateHash : Instructions → Hash}
  {s s' : Initialization G B}

variable (encoding) in
/-- **One step** hands the memory the next of what is on its way, or moves it on and adds what
is new at the end. -/
theorem flow_step {a : InitializationStep B} (h : s.step calculateHash a = some s') :
    (∃ order e out, s.memory.handle order e = some (s'.memory, out) ∧
      flow encoding s = (ofInput encoding e).toList ++ flow encoding s' ∧
      inits encoding [a] = []) ∨
    (flow encoding s' = flow encoding s ++ inits encoding [a] ∧
      (s'.memory = s.memory ∨
        ∃ m v x, s.memory = .initialized m ∧ s'.memory = .initialized (m.busWrite v x))) := by
  cases a with
  | arrive k e =>
    right
    cases h
    refine ⟨?_, .inl rfl⟩
    unfold flow inits
    rw [upcoming_arrive, ← List.append_assoc]
    cases k <;> rfl
  | pollNext =>
    right
    have hpoll := upcoming_pollNext (validInit encoding) s.consensus
    simp only [step] at h
    split at h
    · rename_i tx g hg
      cases h
      refine ⟨?_, .inl rfl⟩
      rw [hg] at hpoll
      unfold flow
      rw [← hpoll, List.filterMap_append]
      simp [inits, recognized, List.append_assoc]
    · rename_i g hg
      cases h
      refine ⟨?_, .inl rfl⟩
      rw [hg] at hpoll
      unfold flow
      rw [← hpoll]
      simp [inits, recognized]
  | handleTx =>
    right
    simp only [step] at h
    split at h
    · cases h
    · rename_i tx rest hout
      cases h
      refine ⟨?_, .inl rfl⟩
      unfold flow
      rw [hout, List.filterMap_append, ofInput_txEvents, List.filterMap_cons]
      rcases ofOutput (validInit encoding) tx with _ | d <;>
        simp [inits, recognized, List.append_assoc]
  | send e =>
    right
    simp only [step] at h
    split at h
    · cases h
    · rename_i hne
      cases h
      have hnone : ofInput encoding e = none := by
        unfold ofInput
        split
        · rename_i distribution
          exact absurd rfl (hne distribution)
        · rfl
      refine ⟨?_, .inl rfl⟩
      unfold flow
      rw [List.filterMap_append]
      simp [inits, recognized, hnone]
  | memory order =>
    left
    simp only [step] at h
    split at h
    · cases h
    · rename_i e rest hin
      obtain ⟨⟨memory, out⟩, hh, rfl⟩ := Option.map_eq_some_iff.1 h
      refine ⟨order, e, out, hh, ?_, rfl⟩
      unfold flow
      rw [hin, List.filterMap_cons]
      rcases ofInput encoding e with _ | d <;> rfl
  | busWrite v x =>
    right
    simp only [step] at h
    split at h
    · rename_i m hm
      cases h
      refine ⟨?_, .inr ⟨m, v, x, hm, rfl⟩⟩
      simp [flow, inits, recognized]
    · cases h

/-- An initialised memory keeps its distribution. -/
theorem handle_initialized {m m' : InitializedDataMemory B} {order : HashOrder}
    {e : DataMemory.InEvent B} {out : List (DataMemory.OutEvent B)}
    (h : (MemoryModule.initialized m).handle order e = some (.initialized m', out)) :
    m'.distribution = m.distribution := by
  simp only [MemoryModule.handle] at h
  split at h
  · rename_i m₁ out₁ hm
    cases h
    exact (InitializedDataMemory.handle_fixed hm).1
  all_goals cases h

/-- Before it is initialised, the memory has met no valid distribution; its distribution is the
first one. -/
def Took (encoding : ReedSolomonWrapper) (ds : List (HashMap PeerId Sid))
    (s : Initialization G B) : Prop :=
  match s.memory with
  | .uninitialized u => u.encoding = encoding ∧ flow encoding s = ds
  | .initialized m => ds.head? = some m.distribution
  | .ended => True

theorem Took.step {ds : List (HashMap PeerId Sid)} {a : InitializationStep B}
    (h : Took encoding ds s) (hs : s.step calculateHash a = some s') :
    Took encoding (ds ++ inits encoding [a]) s' := by
  have grown : ∀ {d : HashMap PeerId Sid}, ds.head? = some d →
      (ds ++ inits encoding [a]).head? = some d := fun hd => by
    rw [List.head?_append, hd]
    rfl
  unfold Took at h ⊢
  rcases flow_step encoding hs with ⟨order, e, out, hh, hflow, hnone⟩ | ⟨hflow, hm⟩
  · rcases hmem : s.memory with u | m | _ <;> rw [hmem] at h hh
    · obtain ⟨rfl, rfl⟩ := h
      rw [handle_uninitialized hh, hnone, List.append_nil, hflow]
      rcases ofInput u.encoding e with _ | d
      · exact ⟨rfl, rfl⟩
      · rfl
    · rcases hmem' : s'.memory with u' | m' | _
      · rw [hmem'] at hh
        simp only [MemoryModule.handle] at hh
        split at hh <;> cases hh
      · rw [hmem'] at hh
        show (ds ++ inits encoding [a]).head? = some m'.distribution
        rw [handle_initialized hh]
        exact grown h
      · trivial
    · cases hh
  · rcases hm with hm | ⟨m, v, x, hm, hm'⟩
    · rw [hm]
      rcases hmem : s.memory with u | m | _ <;> rw [hmem] at h
      · exact ⟨h.1, hflow.trans (congrArg (· ++ inits encoding [a]) h.2)⟩
      · exact grown h
      · trivial
    · rw [hm] at h
      rw [hm']
      show (ds ++ inits encoding [a]).head? = some (m.busWrite v x).distribution
      rw [InitializedDataMemory.distribution_busWrite]
      exact grown h

theorem took {core : G} {peer peer' localId : PeerId} {as : List (InitializationStep B)}
    (run : Trace (step calculateHash) (new core peer peer' ⟨encoding, localId⟩) as s) :
    Took encoding (inits encoding as) s := by
  have start : Took (B := B) encoding (inits encoding ([] : List (InitializationStep B)))
      (new core peer peer' ⟨encoding, localId⟩) := ⟨rfl, rfl⟩
  refine Trace.invariant (I := fun as s => Took encoding (inits encoding as) s) start ?_ run
  intro as s a s' ih hs
  have hinits : inits encoding (as ++ [a]) = inits encoding as ++ inits encoding [a] := by
    unfold inits recognized
    rw [List.filterMap_append, List.flatMap_append]
  rw [hinits]
  exact ih.step hs

/-! ## Agreement -/

/-- An event with a valid distribution that comes after no other such event. -/
def IsFirst (encoding : ReedSolomonWrapper) (D : Dag Event) (e : Event) : Prop :=
  e ∈ D.nodes ∧ taken (validInit encoding) e ≠ [] ∧
    ∀ a ∈ D.nodes, D.ancestor a e → taken (validInit encoding) a = []

/-- All first events bring one distribution. -/
def Settled (encoding : ReedSolomonWrapper) (D : Dag Event) : Prop :=
  ∀ e e', IsFirst encoding D e → IsFirst encoding D e' →
    (taken (validInit encoding) e).head? = (taken (validInit encoding) e').head?

/-- The distributions of one author are settled by the first one. -/
theorem Settled.of_author {D : Dag Event} {author : PeerId}
    (single : ∀ e ∈ D.nodes, taken (validInit encoding) e ≠ [] → e.author = author)
    (chain : D.IsChain fun e => e.author = author) : Settled encoding D := by
  intro e e' ⟨he, hne, hfirst⟩ ⟨he', hne', hfirst'⟩
  rcases chain e he e' he' (single e he hne) (single e' he' hne') with rfl | h | h
  · rfl
  · exact absurd (hfirst' e he h) hne
  · exact absurd (hfirst e' he' h) hne'

/-- What an observer meets first is of a first event. -/
theorem exists_isFirst {D : Dag Event} {es : List Event} {d : HashMap PeerId Sid}
    (ordered : D.Lists es) (h : (es.flatMap (taken (validInit encoding))).head? = some d) :
    ∃ e, IsFirst encoding D e ∧ (taken (validInit encoding) e).head? = some d := by
  rw [List.head?_flatMap, List.findSome?_eq_some_iff] at h
  obtain ⟨l, e, r, rfl, he, hl⟩ := h
  refine ⟨e, ⟨ordered.nodes e (by simp), ?_, ?_⟩, he⟩
  · intro hnil
    rw [hnil] at he
    cases he
  · intro a ha hae
    exact List.head?_eq_none_iff.1 (hl a (ordered.ancestors l e r rfl a ha hae))

/-- **Agreement on the distribution**: if the events with a valid distribution that come after no
other such event all bring the same, any two initialised nodes hold one distribution. -/
theorem initialized_agree {D : Dag Event} (settled : Settled encoding D) {core core' : G}
    {p₁ p₂ p₃ p₄ localId localId' : PeerId} {as as' : List (InitializationStep B)}
    (run : Trace (step calculateHash) (new core p₁ p₂ ⟨encoding, localId⟩) as s)
    (run' : Trace (step calculateHash) (new core' p₃ p₄ ⟨encoding, localId'⟩) as' s')
    (ordered : D.Lists (recognized as)) (ordered' : D.Lists (recognized as'))
    {m m' : InitializedDataMemory B} (hm : s.memory = .initialized m)
    (hm' : s'.memory = .initialized m') : m.distribution = m'.distribution := by
  have h := took run
  have h' := took run'
  unfold Took at h h'
  rw [hm] at h
  rw [hm'] at h'
  obtain ⟨e, he, hd⟩ := exists_isFirst ordered h
  obtain ⟨e', he', hd'⟩ := exists_isFirst ordered' h'
  exact Option.some.inj (hd.symm.trans ((settled e e' he he').trans hd'))

/-- Three peers; `init` at peer `i` enumerates them from peer `i` on. -/
def initEvent (i : UInt8) : Event where
  author := ⟨[i]⟩
  hash := ⟨fun _ => i⟩
  payload := ⟨[.initializeStorage
    [(⟨[i]⟩, ⟨0⟩), (⟨[(i + 1) % 3]⟩, ⟨1⟩), (⟨[(i + 2) % 3]⟩, ⟨2⟩)]]⟩

/-- An event from the graph to the data memory. -/
def initSteps (i : UInt8) : List (InitializationStep 4) :=
  [.arrive .recognized (initEvent i), .pollNext, .handleTx, .memory default]

/-- An event of peer `i` with the distribution of peer 0. -/
def sharedInit (i : UInt8) : Event :=
  { initEvent 0 with author := ⟨[i]⟩, hash := ⟨fun _ => i⟩ }

def sharedSteps (i : UInt8) : List (InitializationStep 4) :=
  [.arrive .recognized (sharedInit i), .pollNext, .handleTx, .memory default]

/-- Two peers put one distribution into events at once; each node recognises its own first. -/
theorem initialized_agree_two :
    ∃ (s s' : Initialization Unit 4) (m m' : InitializedDataMemory 4),
      Trace (step fun _ => ⟨fun _ => 0⟩)
        (new () ⟨[0]⟩ ⟨[0]⟩ ⟨OneParity.wrapper, ⟨[0]⟩⟩) (sharedSteps 0 ++ sharedSteps 1) s ∧
      Trace (step fun _ => ⟨fun _ => 0⟩)
        (new () ⟨[1]⟩ ⟨[1]⟩ ⟨OneParity.wrapper, ⟨[1]⟩⟩) (sharedSteps 1 ++ sharedSteps 0) s' ∧
      s.memory = .initialized m ∧ s'.memory = .initialized m' ∧
      m.distribution = m'.distribution := by
  let D : Dag Event :=
    ⟨{sharedInit 0, sharedInit 1}, fun _ _ => False, fun _ => id, fun h _ => h⟩
  have hnodes : ∀ e, e = sharedInit 0 ∨ e = sharedInit 1 → e ∈ D.nodes := fun _ => id
  have lists : D.Lists (recognized (sharedSteps 0 ++ sharedSteps 1)) := by
    refine ⟨by decide, fun e he => hnodes e (by
      simpa [recognized, sharedSteps] using he), ?_⟩
    rintro l e r - a - ⟨⟩
  have lists' : D.Lists (recognized (sharedSteps 1 ++ sharedSteps 0)) := by
    refine ⟨by decide, fun e he => hnodes e (Or.symm (by
      simpa [recognized, sharedSteps] using he)), ?_⟩
    rintro l e r - a - ⟨⟩
  have settled : Settled OneParity.wrapper D := by
    have hhead : ∀ e ∈ D.nodes, (taken (validInit OneParity.wrapper) e).head? =
        (taken (validInit OneParity.wrapper) (sharedInit 0)).head? := by
      rintro e (rfl | rfl) <;> rfl
    rintro e e' ⟨he, -⟩ ⟨he', -⟩
    rw [hhead e he, hhead e' he']
  let run : Trace (step fun _ => ⟨fun _ => 0⟩)
    (new () ⟨[0]⟩ ⟨[0]⟩ ⟨OneParity.wrapper, ⟨[0]⟩⟩) (sharedSteps 0 ++ sharedSteps 1) _ :=
      Trace.of_runAll rfl
  let run' : Trace (step fun _ => ⟨fun _ => 0⟩)
    (new () ⟨[1]⟩ ⟨[1]⟩ ⟨OneParity.wrapper, ⟨[1]⟩⟩) (sharedSteps 1 ++ sharedSteps 0) _ :=
      Trace.of_runAll rfl
  exact ⟨_, _, _, _, run, run', rfl, rfl,
    initialized_agree settled run run' lists lists' rfl rfl⟩

/-- Two peers run `init` at once; each node recognises its own event first. -/
theorem concurrent_inits_disagree :
    ∃ (D : Dag Event) (as as' : List (InitializationStep 4)) (s s' : Initialization Unit 4)
      (m m' : InitializedDataMemory 4),
      D.Lists (recognized as) ∧ D.Lists (recognized as') ∧
      Trace (step fun _ => ⟨fun _ => 0⟩)
        (new () ⟨[0]⟩ ⟨[0]⟩ ⟨OneParity.wrapper, ⟨[0]⟩⟩) as s ∧
      Trace (step fun _ => ⟨fun _ => 0⟩)
        (new () ⟨[1]⟩ ⟨[1]⟩ ⟨OneParity.wrapper, ⟨[1]⟩⟩) as' s' ∧
      s.memory = .initialized m ∧ s'.memory = .initialized m' ∧
      m.distribution ≠ m'.distribution := by
  let D : Dag Event :=
    ⟨{initEvent 0, initEvent 1}, fun _ _ => False, fun _ => id, fun h _ => h⟩
  have hnodes : ∀ e, e = initEvent 0 ∨ e = initEvent 1 → e ∈ D.nodes := fun _ => id
  refine ⟨D, initSteps 0 ++ initSteps 1, initSteps 1 ++ initSteps 0, _, _, _, _, ?_, ?_,
    Trace.of_runAll rfl, Trace.of_runAll rfl, rfl, rfl, by decide +kernel⟩
  · refine ⟨by decide, fun e he => hnodes e (by
      simpa [recognized, initSteps] using he), ?_⟩
    rintro l e r - a - ⟨⟩
  · refine ⟨by decide, fun e he => hnodes e (Or.symm (by
      simpa [recognized, initSteps] using he)), ?_⟩
    rintro l e r - a - ⟨⟩

end Initialization

end Swarm.Node
