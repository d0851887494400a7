import Swarm.DataMemory.Loop
import Swarm.Node.Tile

/-!
# When results become visible

`finish` reports a program once its writes are queued; the data memory applies
them later. A `Watch` runs a tile and records where each stored shard comes from.
`results_visible_iff`: after the report, reads and requests for a result return
it, or something stored after it, exactly when its write has left the queue.
-/

namespace Swarm.Node

open Swarm.DataMemory Swarm.Processor
open Swarm.Encoding (OneParity.wrapper)

variable {B : Nat}

/-- Where a stored shard comes from: it is the `i`-th write of the bus, or an event stored it
when `k` writes of the bus were applied. -/
inductive Origin where
  | initial
  | bus (i : Nat)
  | event (k : Nat)
  deriving DecidableEq

/-- Stored by the `i`-th write of the bus or after it. -/
def Origin.NotBefore (i : Nat) : Origin → Prop
  | .initial => False
  | .bus j => i ≤ j
  | .event k => i < k

/-- A reported program; its writes are those from `first` up to `last`. -/
structure Finished where
  programId : ProgramIdentifier
  results : List (Except Error Vid)
  first : Nat
  last : Nat
  deriving DecidableEq

/-- A tile and the record of its run. -/
structure Watch (B : Nat) where
  tile : Tile B
  /-- Every write of the bus so far, oldest first. -/
  pushed : List (Vid × Shard B)
  /-- How many of them the data memory has taken. -/
  applied : Nat
  /-- The number of writes when the current program was started. -/
  started : Nat
  origin : FullShardId → Origin
  finished : List Finished

namespace Watch

def init (memory : InitializedDataMemory B) : Watch B :=
  ⟨⟨memory, true, .ready, []⟩, [], 0, 0, fun _ => .initial, []⟩

/-- The record after a step of the tile to `t` with the output `out`. -/
def record (w : Watch B) (t : Tile B) (out : List (TileOut B)) : TileStep B → Watch B
  | .handle _ e =>
    match w.tile.memory.stores e with
    | some (f, _) => { w with tile := t, origin := Function.update w.origin f (.event w.applied) }
    | none => { w with tile := t }
  | .start _ _ _ => { w with tile := t, started := w.pushed.length }
  | .read _ => { w with tile := t }
  | .push => { w with tile := t, pushed := w.pushed ++ t.writes.drop w.tile.writes.length }
  | .applyWrite =>
    match w.tile.writes, w.tile.memory.assignedShardId with
    | (v, _) :: _, some sid =>
      let origin := Function.update w.origin (v, sid) (.bus w.applied)
      { w with tile := t, origin := origin, applied := w.applied + 1 }
    | _, _ => { w with tile := t, applied := w.applied + 1 }
  | .finish =>
    let reports := out.filterMap fun
      | .finishedExecution id results => some ⟨id, results, w.started, w.pushed.length⟩
      | .memory _ => none
    { w with tile := t, finished := w.finished ++ reports }

def step (add : UInt8 → UInt8 → UInt8) (w : Watch B) (a : TileStep B) : Option (Watch B) :=
  (w.tile.step add a).map fun r => w.record r.1 r.2 a

/-- A read of `v` by the processor and a request for shard `sid` of `v` both return the `i`-th
write of the bus, or what was stored after it. -/
def Shows (w : Watch B) (v : Vid) (sid : Sid) (i : Nat) : Prop :=
  ∃ y, (∀ order, w.tile.memory.busRead order v = some y) ∧
    (∀ order, w.tile.memory.handle order (.assignedRequest (v, sid)) =
      .next w.tile.memory [.assignedResponse (v, sid) (some y)]) ∧
    (w.origin (v, sid)).NotBefore i ∧
    ∀ j, w.origin (v, sid) = .bus j → w.pushed[j]? = some (v, y)

/-! ## The record is sound -/

/-- Every result reported as a success is among the writes. -/
def Covers (writes : List (Vid × Shard B)) (results : List (Except Error Vid)) : Prop :=
  ∀ v, .ok v ∈ results → v ∈ writes.map Prod.fst

structure Sound (sid : Sid) (w : Watch B) : Prop where
  assigned : w.tile.memory.assignedShardId = some sid
  own : ∀ f, (w.tile.memory.getShard f).isSome → f.2 = sid
  applied_le : w.applied ≤ w.pushed.length
  queue : w.tile.writes = w.pushed.drop w.applied
  bus : ∀ v j, w.origin (v, sid) = .bus j → j < w.applied ∧
    ∃ x, w.pushed[j]? = some (v, x) ∧ w.tile.memory.getShard (v, sid) = some x
  event : ∀ v k, w.origin (v, sid) = .event k → k ≤ w.applied ∧
    (w.tile.memory.getShard (v, sid)).isSome
  latest : ∀ v x i, w.pushed[i]? = some (v, x) → i < w.applied →
    (w.origin (v, sid)).NotBefore i
  executing : ∀ id rest, w.tile.processor = .executing id rest → w.started ≤ w.pushed.length ∧
    rest.wp (Finds fun _ => False) fun ws results => Covers (w.pushed.drop w.started ++ ws) results
  reported : ∀ r ∈ w.finished, r.first ≤ r.last ∧ r.last ≤ w.pushed.length ∧
    Covers ((w.pushed.take r.last).drop r.first) r.results

theorem covers_execute (add : UInt8 → UInt8 → UInt8) (fetchOrder saveOrder : KeyOrder Vid)
    (program : Instructions) :
    (ShardProcessor.execute add fetchOrder saveOrder program).wp
      (Finds (B := B) fun _ => False) Covers :=
  Bus.wp_mono (execute_coverage (H := fun _ => False) fetchOrder saveOrder program)
    (fun _ _ h => h) fun _ _ h => h.1

variable {add : UInt8 → UInt8 → UInt8} {sid : Sid} {w : Watch B} {t : Tile B}

/-- An event stores only the assigned shard of this peer. -/
def StoresOwn (sid : Sid) : TileStep B → Prop
  | .handle _ (.serveShardResponse f _) => f.2 = sid
  | _ => True

theorem stores_own {order : HashOrder} {e : InEvent B} {f : FullShardId} {x : Shard B}
    {m : InitializedDataMemory B} (ha : m.assignedShardId = some sid)
    (ho : StoresOwn sid (.handle order e)) (h : m.stores e = some (f, x)) : f.2 = sid := by
  rcases InitializedDataMemory.stores_cases h with rfl | ⟨-, hassigned, -⟩
  · exact ho
  · exact Option.some.inj (hassigned.symm.trans ha)

/-- The memory keeps its shards, and the rest of the record does not change. -/
theorem Sound.keep (h : Sound sid w) (ha : t.memory.assignedShardId = some sid)
    (hg : ∀ f, t.memory.getShard f = w.tile.memory.getShard f) (hw : t.writes = w.tile.writes)
    (hp : t.processor = w.tile.processor) : Sound sid { w with tile := t } where
  assigned := ha
  own f hf := h.own f (hg f ▸ hf)
  applied_le := h.applied_le
  queue := hw.trans h.queue
  bus v j hj := by
    rw [hg]
    exact h.bus v j hj
  event v k hk := by
    rw [hg]
    exact h.event v k hk
  latest := h.latest
  executing id rest hr := h.executing id rest (hp ▸ hr)
  reported := h.reported

theorem Sound.handled (h : Sound sid w) {order : HashOrder} {e : InEvent B}
    {m : InitializedDataMemory B} {out : List (OutEvent B)}
    (ho : StoresOwn sid (.handle order e)) (hm : w.tile.memory.handle order e = .next m out)
    (o : List (TileOut B)) :
    Sound sid (w.record { w.tile with memory := m } o (.handle order e)) := by
  have hget := InitializedDataMemory.getShard_handle hm
  have ha : m.assignedShardId = some sid := by
    obtain ⟨hd, -, hl⟩ := InitializedDataMemory.handle_fixed hm
    rw [InitializedDataMemory.assignedShardId, hd, hl]
    exact h.assigned
  cases hs : w.tile.memory.stores e with
  | none =>
    simp only [hs] at hget
    simp only [record, hs]
    exact h.keep (t := { w.tile with memory := m }) ha hget rfl rfl
  | some p =>
    obtain ⟨f, x⟩ := p
    simp only [hs] at hget
    have hf : f.2 = sid := stores_own h.assigned ho hs
    simp only [record, hs]
    exact
      { assigned := ha
        own := fun g hg => by
          dsimp only at hg ⊢
          by_cases hgf : g = f
          · rw [hgf]; exact hf
          · rw [hget, if_neg hgf] at hg
            exact h.own g hg
        applied_le := h.applied_le
        queue := h.queue
        bus := fun v j hj => by
          dsimp only at hj ⊢
          by_cases hv : (v, sid) = f
          · rw [hv, Function.update_self] at hj
            cases hj
          · rw [Function.update_of_ne hv] at hj
            rw [hget, if_neg hv]
            exact h.bus v j hj
        event := fun v k hk => by
          dsimp only at hk ⊢
          rw [hget]
          by_cases hv : (v, sid) = f
          · rw [hv, Function.update_self] at hk
            cases hk
            exact ⟨le_rfl, by rw [if_pos hv]; rfl⟩
          · rw [Function.update_of_ne hv] at hk
            rw [if_neg hv]
            exact h.event v k hk
        latest := fun v x i hp hi => by
          dsimp only at hp hi ⊢
          by_cases hv : (v, sid) = f
          · rw [hv, Function.update_self]
            exact hi
          · rw [Function.update_of_ne hv]
            exact h.latest v x i hp hi
        executing := h.executing
        reported := h.reported }

theorem Sound.applied (h : Sound sid w) {v : Vid} {x : Shard B} {writes : List (Vid × Shard B)}
    (hw : w.tile.writes = (v, x) :: writes) (o : List (TileOut B)) :
    Sound sid (w.record { w.tile with memory := w.tile.memory.busWrite v x, writes := writes } o
      .applyWrite) := by
  have hdrop : w.pushed.drop w.applied = (v, x) :: writes := h.queue.symm.trans hw
  have hlt : w.applied < w.pushed.length := by
    by_contra hge
    rw [List.drop_eq_nil_of_le (Nat.le_of_not_lt hge)] at hdrop
    cases hdrop
  have hhead : w.pushed[w.applied]? = some (v, x) := by
    have hget : (w.pushed.drop w.applied)[0]? = w.pushed[w.applied + 0]? := List.getElem?_drop
    rw [hdrop] at hget
    exact hget.symm
  have hget := InitializedDataMemory.getShard_busWrite h.assigned v x
  simp only [record, hw, h.assigned]
  exact
    { assigned := (InitializedDataMemory.assignedShardId_busWrite v x).trans h.assigned
      own := fun g hg => by
        dsimp only at hg ⊢
        rw [hget] at hg
        by_cases hgv : g = (v, sid)
        · rw [hgv]
        · rw [if_neg hgv] at hg
          exact h.own g hg
      applied_le := hlt
      queue := by
        rw [← List.tail_drop, hdrop]
        rfl
      bus := fun u j hj => by
        dsimp only at hj ⊢
        rw [hget]
        by_cases hu : (u, sid) = (v, sid)
        · rw [hu, Function.update_self] at hj
          cases hj
          cases hu
          exact ⟨Nat.lt_succ_self _, x, hhead, by rw [if_pos rfl]⟩
        · rw [Function.update_of_ne hu] at hj
          obtain ⟨hja, y, hy⟩ := h.bus u j hj
          exact ⟨Nat.lt_succ_of_lt hja, y, by rwa [if_neg hu]⟩
      event := fun u k hk => by
        dsimp only at hk ⊢
        rw [hget]
        by_cases hu : (u, sid) = (v, sid)
        · rw [hu, Function.update_self] at hk
          cases hk
        · rw [Function.update_of_ne hu] at hk
          obtain ⟨hka, hs⟩ := h.event u k hk
          exact ⟨Nat.le_succ_of_le hka, by rwa [if_neg hu]⟩
      latest := fun u y i hp hi => by
        dsimp only at hp hi ⊢
        by_cases hu : (u, sid) = (v, sid)
        · rw [hu, Function.update_self]
          exact Nat.le_of_lt_succ hi
        · rw [Function.update_of_ne hu]
          refine h.latest u y i hp (Nat.lt_of_le_of_ne (Nat.le_of_lt_succ hi) ?_)
          rintro rfl
          rw [hhead] at hp
          cases hp
          exact hu rfl
      executing := h.executing
      reported := h.reported }

theorem Sound.pushed (h : Sound sid w) {id : ProgramIdentifier} {v : Vid} {x : Shard B}
    {next : Except Error Unit → MemoryBus B (List (Except Error Vid))}
    (hp : w.tile.processor = .executing id (.write v x next)) (o : List (TileOut B)) :
    Sound sid (w.record
      { w.tile with writes := w.tile.writes ++ [(v, x)], processor := .executing id (next (.ok ())) }
      o .push) := by
  have hnew : (w.tile.writes ++ [(v, x)]).drop w.tile.writes.length = [(v, x)] := by simp
  simp only [record, hnew]
  have hold : ∀ i y u, w.pushed[i]? = some (u, y) → (w.pushed ++ [(v, x)])[i]? = some (u, y) :=
    fun i y u hi => by
      obtain ⟨hlt, -⟩ := List.getElem?_eq_some_iff.1 hi
      rwa [List.getElem?_append_left hlt]
  exact
    { assigned := h.assigned
      own := h.own
      applied_le := by
        rw [List.length_append]
        exact Nat.le_add_right_of_le h.applied_le
      queue := by
        rw [List.drop_append_of_le_length h.applied_le, ← h.queue]
      bus := fun u j hj => by
        dsimp only at hj ⊢
        obtain ⟨hja, y, hy, hg⟩ := h.bus u j hj
        exact ⟨hja, y, hold j y u hy, hg⟩
      event := h.event
      latest := fun u y i hi hlt => by
        rw [List.getElem?_append_left (Nat.lt_of_lt_of_le hlt h.applied_le)] at hi
        exact h.latest u y i hi hlt
      executing := fun id' rest hr => by
        cases hr
        obtain ⟨hle, hwp⟩ := h.executing _ _ hp
        refine ⟨by rw [List.length_append]; exact Nat.le_add_right_of_le hle, ?_⟩
        rw [List.drop_append_of_le_length hle]
        refine Bus.wp_mono hwp (fun _ _ h => h) fun ws results hc => ?_
        simpa using hc
      reported := fun r hr => by
        obtain ⟨hfl, hlp, hc⟩ := h.reported r hr
        refine ⟨hfl, by rw [List.length_append]; exact Nat.le_add_right_of_le hlp, ?_⟩
        rwa [List.take_append_of_le_length hlp] }

theorem Sound.finish (h : Sound sid w) {id : ProgramIdentifier}
    {results : List (Except Error Vid)} (hp : w.tile.processor = .executing id (.ret results)) :
    Sound sid (w.record { w.tile with processor := .ready } [.finishedExecution id results]
      .finish) := by
  obtain ⟨hle, hwp⟩ := h.executing _ _ hp
  exact
    { assigned := h.assigned
      own := h.own
      applied_le := h.applied_le
      queue := h.queue
      bus := h.bus
      event := h.event
      latest := h.latest
      executing := fun _ _ hr => by cases hr
      reported := fun r hr => by
        rcases List.mem_append.1 hr with hr | hr
        · exact h.reported r hr
        · obtain rfl := List.mem_singleton.1 hr
          have hc : Covers (w.pushed.drop w.started ++ []) results := hwp
          refine ⟨hle, le_rfl, ?_⟩
          change Covers ((w.pushed.take w.pushed.length).drop w.started) results
          rwa [List.take_length, ← List.append_nil (w.pushed.drop w.started)] }

/-- The processor moves on; nothing is written. -/
theorem Sound.move (h : Sound sid w) {p : ProcessorState B} {started : Nat}
    (hp : ∀ id rest, p = .executing id rest → started ≤ w.pushed.length ∧
      rest.wp (Finds fun _ => False) fun ws results => Covers (w.pushed.drop started ++ ws) results) :
    Sound sid { w with tile := { w.tile with processor := p }, started := started } where
  assigned := h.assigned
  own := h.own
  applied_le := h.applied_le
  queue := h.queue
  bus := h.bus
  event := h.event
  latest := h.latest
  executing := hp
  reported := h.reported

/-- **One step** keeps the record sound, as long as the memory runs. -/
theorem Sound.step {a : TileStep B} {w' : Watch B} (h : w.tile.running = true → Sound sid w)
    (ho : StoresOwn sid a) (hs : w.step add a = some w') (hr : w'.tile.running = true) :
    Sound sid w' := by
  obtain ⟨⟨t, out⟩, ht, rfl⟩ := Option.map_eq_some_iff.1 hs
  cases Tile.step_moves ht with
  | handled running turn => exact (h running).handled ho turn _
  | ended running turn =>
    simp only [record] at hr
    split at hr <;> cases hr
  | started ready code =>
    have hw : w.tile.running = true := hr
    refine (h hw).move fun id rest hrest => ⟨le_rfl, ?_⟩
    cases hrest
    rw [code, List.drop_length]
    exact covers_execute add _ _ _
  | answered running reading =>
    refine (h running).move fun id rest hrest => ?_
    cases hrest
    obtain ⟨hle, hwp⟩ := (h running).executing _ _ reading
    exact ⟨hle, hwp _ fun hf => hf.elim⟩
  | readRefused ended reading => rw [show w.tile.running = true from hr] at ended; cases ended
  | pushed running writing => exact (h running).pushed writing _
  | pushRefused ended writing => rw [show w.tile.running = true from hr] at ended; cases ended
  | applied running head => exact (h running).applied head _
  | finished done =>
    have hw : w.tile.running = true := hr
    exact (h hw).finish done

theorem Sound.init {memory : InitializedDataMemory B} (ha : memory.assignedShardId = some sid)
    (hempty : ∀ f, memory.getShard f = none) : Sound sid (init memory) where
  assigned := ha
  own f hf := by
    change (memory.getShard f).isSome at hf
    rw [hempty] at hf
    cases hf
  applied_le := le_rfl
  queue := rfl
  bus _ _ h := by cases h
  event _ _ h := by cases h
  latest _ _ _ _ h := by cases h
  executing _ _ h := by cases h
  reported _ h := by cases h

theorem Sound.run {memory : InitializedDataMemory B} {as : List (TileStep B)}
    (ha : memory.assignedShardId = some sid) (hempty : ∀ f, memory.getShard f = none)
    (hown : ∀ a ∈ as, StoresOwn sid a) (run : Trace (Watch.step add) (Watch.init memory) as w)
    (hr : w.tile.running = true) : Sound sid w := by
  refine Trace.invariant
    (I := fun as w => (∀ a ∈ as, StoresOwn sid a) → w.tile.running = true → Sound sid w)
    (fun _ _ => .init ha hempty) ?_ run hown hr
  intro as w a w' ih hs hown hr
  rw [List.forall_mem_append] at hown
  exact Sound.step (ih hown.1) (hown.2 a (by simp)) hs hr

/-! ## Visibility -/

theorem Sound.shows_iff (h : Sound sid w) {v : Vid} {x : Shard B} {i : Nat}
    (hi : w.pushed[i]? = some (v, x)) : w.Shows v sid i ↔ i < w.applied := by
  constructor
  · rintro ⟨y, -, -, hn, -⟩
    cases ho : w.origin (v, sid) with
    | initial => rw [ho] at hn; exact hn.elim
    | bus j =>
      rw [ho] at hn
      exact Nat.lt_of_le_of_lt hn (h.bus v j ho).1
    | event k =>
      rw [ho] at hn
      exact Nat.lt_of_lt_of_le hn (h.event v k ho).1
  · intro hlt
    have hn := h.latest v x i hi hlt
    have hread := InitializedDataMemory.busRead_eq (v := v) fun s hs => h.own (v, s) hs
    have hsome : ∃ y, w.tile.memory.getShard (v, sid) = some y ∧
        ∀ j, w.origin (v, sid) = .bus j → w.pushed[j]? = some (v, y) := by
      cases ho : w.origin (v, sid) with
      | initial => rw [ho] at hn; exact hn.elim
      | bus j =>
        obtain ⟨-, y, hy, hg⟩ := h.bus v j ho
        refine ⟨y, hg, fun j' hj' => ?_⟩
        cases hj'
        exact hy
      | event k =>
        obtain ⟨y, hy⟩ := Option.isSome_iff_exists.1 (h.event v k ho).2
        exact ⟨y, hy, fun j' hj' => by cases hj'⟩
    obtain ⟨y, hy, hj⟩ := hsome
    refine ⟨y, fun order => (hread order).trans hy, fun order => ?_, hn, hj⟩
    rw [← hy]
    rfl

/-- **Visibility**: when a program has been reported, each result it reports as a success is
among its writes, and what a read or a request of it returns is that write or was stored after
it exactly when the data memory has taken the write from the queue. -/
theorem results_visible_iff {u : UninitializedDataMemory} {distribution : HashMap PeerId Sid}
    (assigned : distribution.lookup u.localId = some sid) {as : List (TileStep B)}
    (own : ∀ a ∈ as, StoresOwn sid a)
    (run : Trace (Watch.step add) (Watch.init (u.initializeWith distribution)) as w)
    (running : w.tile.running = true) {r : Finished} (reported : r ∈ w.finished) {v : Vid}
    (result : .ok v ∈ r.results) :
    (∃ i x, r.first ≤ i ∧ i < r.last ∧ w.pushed[i]? = some (v, x)) ∧
    ∀ i x, w.pushed[i]? = some (v, x) → (w.Shows v sid i ↔ i < w.applied) := by
  have ha : (u.initializeWith distribution : InitializedDataMemory B).assignedShardId = some sid :=
    assigned
  have hs : Sound sid w := .run ha (fun _ => rfl) own run running
  refine ⟨?_, fun i x hi => hs.shows_iff hi⟩
  obtain ⟨-, -, hc⟩ := hs.reported r reported
  obtain ⟨⟨u, x⟩, hmem, rfl⟩ := List.mem_map.1 (hc v result)
  obtain ⟨j, hj⟩ := List.getElem?_of_mem hmem
  rw [List.getElem?_drop, List.getElem?_take] at hj
  split at hj
  · rename_i hlt
    exact ⟨r.first + j, x, Nat.le_add_right .., hlt, hj⟩
  · cases hj

/-! ## A report before the write -/

/-- Address 0 is set to its sum with itself. -/
def zeroing : Program := .new (fun _ => ⟨fun _ => 0⟩) [⟨.plus ⟨⟨0⟩, ⟨0⟩⟩, ⟨0⟩⟩] ⟨fun _ => 0⟩

/-- Address 0 is stored, and the program is run up to its report. -/
def reportSteps : List (TileStep 4) :=
  [.handle default (.serveShardResponse (⟨0⟩, ⟨0⟩) (some ⟨fun _ => 1⟩)),
    .start default default zeroing, .read default, .push, .finish]

theorem results_visible_iff_zeroing :
    ∃ w, runAll (Watch.step (· ^^^ ·)) (Watch.init InitializedDataMemory.sampleMemory)
      (reportSteps ++ [.applyWrite]) = some w ∧ w.Shows ⟨0⟩ ⟨0⟩ 0 :=
  let run : Trace (Watch.step (· ^^^ ·)) (Watch.init InitializedDataMemory.sampleMemory)
    (reportSteps ++ [.applyWrite]) _ := Trace.of_runAll rfl
  ⟨_, rfl, ((results_visible_iff (u := ⟨OneParity.wrapper, InitializedDataMemory.samplePeer 0⟩)
    (r := ⟨zeroing.identifier, [.ok ⟨0⟩], 0, 1⟩) (v := ⟨0⟩) (by decide +kernel)
    (by simp [reportSteps, StoresOwn]) run rfl (by decide +kernel) (by decide +kernel)).2
    0 ⟨fun _ => 0⟩ (by decide +kernel)).2 (by decide +kernel)⟩

/-- The program of `reportSteps` is reported, and its write of address 0 is still queued: a read
and a request return the shard from before the program. -/
theorem reported_result_is_stale :
    ∃ w, Trace (Watch.step (· ^^^ ·)) (Watch.init InitializedDataMemory.sampleMemory)
        reportSteps w ∧
      w.tile.running = true ∧ w.finished = [⟨zeroing.identifier, [.ok ⟨0⟩], 0, 1⟩] ∧
      w.pushed = [(⟨0⟩, ⟨fun _ => 0⟩)] ∧ w.origin (⟨0⟩, ⟨0⟩) = .event 0 ∧
      w.tile.memory.busRead default ⟨0⟩ = some ⟨fun _ => 1⟩ ∧
      w.tile.memory.handle default (.assignedRequest (⟨0⟩, ⟨0⟩)) =
        .next w.tile.memory [.assignedResponse (⟨0⟩, ⟨0⟩) (some ⟨fun _ => 1⟩)] :=
  ⟨_, Trace.of_runAll rfl, rfl, by decide +kernel, by decide +kernel, by decide +kernel,
    by decide +kernel, congrArg (fun y => Turn.next _ [OutEvent.assignedResponse _ y])
      (show InitializedDataMemory.getShard _ (⟨0⟩, ⟨0⟩) = some ⟨fun _ => 1⟩ by decide +kernel)⟩

end Watch

end Swarm.Node
