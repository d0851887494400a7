import Swarm.DataMemory.Loop
import Swarm.Node.Tile

/-!
# What an execution leaves alone

`execute` copies its operands into the context and writes the whole context
back. A copy of an operand that the program does not assign is written back as
well, over whatever was stored for it in the meantime. An `Execution` is a tile
in the middle of one program with the copies that are still to be written back.
`non_results_kept`: as long as no event stores another shard for such an
operand, every Vid the program does not assign holds what was last stored for it.
-/

namespace Swarm.Node

open Swarm.DataMemory Swarm.Processor
open Swarm.Processor.ShardProcessor

variable {B : Nat}

/-- The Vids a program assigns. -/
def resultIds (program : Instructions) : List Vid := program.map (·.result)

/-- A tile that executes one program, and the record of the run. -/
structure Execution (B : Nat) where
  tile : Tile B
  /-- The shard that the last store event put there, or the initial one. -/
  stored : FullShardId → Option (Shard B)
  /-- The ids that are still to be prefetched. -/
  toFetch : List Vid
  /-- The prefetched shards whose write-back is still to come. -/
  copies : HashMap Vid (Shard B)

namespace Execution

/-- The processor has taken `program`; nothing is written. -/
def start (add : UInt8 → UInt8 → UInt8) (fetchOrder saveOrder : KeyOrder Vid) (program : Program)
    (memory : InitializedDataMemory B) : Execution B where
  tile := ⟨memory, true, .executing program.identifier
    (execute add fetchOrder saveOrder program.instructions), []⟩
  stored := memory.getShard
  toFetch := fetchOrder.list (neededIds program.instructions).toFinset
  copies := ∅

/-- The record after a step of the tile to `t`. -/
def record (w : Execution B) (t : Tile B) : TileStep B → Execution B
  | .handle _ e =>
    match w.tile.memory.stores e with
    | some (f, x) => { w with tile := t, stored := Function.update w.stored f (some x) }
    | none => { w with tile := t }
  | .read order =>
    match w.toFetch with
    | v :: rest =>
      let copies := match w.tile.memory.busRead order v with
        | some x => w.copies.insert v x
        | none => w.copies
      { w with tile := t, toFetch := rest, copies := copies }
    | [] => { w with tile := t }
  | .applyWrite =>
    match w.tile.writes with
    | (v, _) :: _ => { w with tile := t, copies := w.copies.erase v }
    | [] => { w with tile := t }
  | .start _ _ _ | .push | .finish => { w with tile := t }

/-- One step of the execution; no other program is started. -/
def step (add : UInt8 → UInt8 → UInt8) (w : Execution B) (a : TileStep B) :
    Option (Execution B) :=
  match a with
  | .start _ _ _ => none
  | a => (w.tile.step add a).map fun r => w.record r.1 a

theorem step_eq_some {add : UInt8 → UInt8 → UInt8} {w w' : Execution B} {a : TileStep B}
    (h : w.step add a = some w') :
    ∃ t out, w.tile.Moves add a t out ∧ w' = w.record t a ∧ ∀ o₁ o₂ p, a ≠ .start o₁ o₂ p := by
  have key : ∀ a : TileStep B, (w.tile.step add a).map (fun r => w.record r.1 a) = some w' →
      ∃ t out, w.tile.Moves add a t out ∧ w' = w.record t a := by
    intro a h
    obtain ⟨⟨t, out⟩, ht, rfl⟩ := Option.map_eq_some_iff.1 h
    exact ⟨t, out, Tile.step_moves ht, rfl⟩
  cases a with
  | start o₁ o₂ p => simp [step] at h
  | handle order e | read order | push | applyWrite | finish =>
    obtain ⟨t, out, hm, hw⟩ := key _ h
    exact ⟨t, out, hm, hw, by simp⟩

/-- No event stores another shard for an operand that is not assigned between its prefetch and
its write-back, and the prefetch of such an operand finds its assigned shard. -/
def Undisturbed (program : Instructions) (w : Execution B) : TileStep B → Prop
  | .handle _ e => ∀ f x y, w.tile.memory.stores e = some (f, x) → f.1 ∉ resultIds program →
      w.tile.memory.assignedShardId = some f.2 → w.copies.lookup f.1 = some y → x = y
  | .read order => ∀ v rest y sid, w.toFetch = v :: rest → v ∉ resultIds program →
      w.tile.memory.busRead order v = some y → w.tile.memory.assignedShardId = some sid →
      w.tile.memory.getShard (v, sid) = some y
  | _ => True

/-! ## The writes of an execution -/

/-- Of the Vids that are not assigned, only copies are written, each once. -/
def Owed (program : Instructions) (copies : HashMap Vid (Shard B))
    (writes : List (Vid × Shard B)) : Prop :=
  (writes.map Prod.fst).Nodup ∧
    ∀ p ∈ writes, p.1 ∉ resultIds program → copies.lookup p.1 = some p.2

theorem Owed.left {program : Instructions} {copies : HashMap Vid (Shard B)}
    {ws ws' : List (Vid × Shard B)} (h : Owed program copies (ws ++ ws')) :
    Owed program copies ws := by
  obtain ⟨hnd, hc⟩ := h
  rw [List.map_append] at hnd
  exact ⟨hnd.of_append_left, fun p hp => hc p (List.mem_append_left _ hp)⟩

theorem Owed.tail {program : Instructions} {copies : HashMap Vid (Shard B)} {v : Vid}
    {x : Shard B} {ws : List (Vid × Shard B)} (h : Owed program copies ((v, x) :: ws)) :
    Owed program (copies.erase v) ws := by
  obtain ⟨hnd, hc⟩ := h
  rw [List.map_cons, List.nodup_cons] at hnd
  refine ⟨hnd.2, fun p hp hr => ?_⟩
  have hne : p.1 ≠ v := by
    intro he
    have hmem : p.1 ∈ ws.map Prod.fst := List.mem_map_of_mem hp
    exact hnd.1 (he ▸ hmem)
  rw [Finmap.lookup_erase_ite, if_neg hne]
  exact hc p (List.mem_cons_of_mem _ hp) hr

/-- `execute` after the prefetch. -/
def executeWith (add : UInt8 → UInt8 → UInt8) (saveOrder : KeyOrder Vid) (program : Instructions)
    (context : HashMap Vid (Shard B)) : MemoryBus B (List (Except Error Vid)) := do
  let (context, results) ← executeInstructions add context [] program
  saveContext results (context.iter saveOrder)

variable {add : UInt8 → UInt8 → UInt8} {saveOrder : KeyOrder Vid}

/-- The instruction loop changes the context at the results only. -/
theorem wp_executeInstructions_keeps {program : Instructions} {context : HashMap Vid (Shard B)}
    {results : List (Except Error Vid)} :
    Bus.wp (Finds fun _ => False)
      (fun ws r => ws = [] ∧ ∀ v, v ∉ resultIds program → r.1.lookup v = context.lookup v)
      (executeInstructions add context results program) := by
  induction program generalizing context results with
  | nil => exact ⟨rfl, fun _ _ => rfl⟩
  | cons ins program ih =>
    obtain ⟨operation, resultId⟩ := ins
    refine Bus.wp_bind (Bus.wp_mono (wp_retrieveOperands_finds operation) (fun _ _ h => h) ?_)
    rintro _ r ⟨rfl, -⟩
    rcases r with e | op
    · refine Bus.wp_mono ih (fun _ _ h => h) ?_
      rintro ws r ⟨rfl, h⟩
      exact ⟨rfl, fun v hv => h v fun hm => hv (List.mem_cons_of_mem _ hm)⟩
    · refine Bus.wp_mono ih (fun _ _ h => h) ?_
      rintro ws r ⟨rfl, h⟩
      refine ⟨rfl, fun v hv => ?_⟩
      rw [h v fun hm => hv (List.mem_cons_of_mem _ hm), Finmap.lookup_insert_ite, if_neg]
      rintro rfl
      exact hv List.mem_cons_self

theorem wp_executeWith (program : Instructions) (context : HashMap Vid (Shard B)) :
    Bus.wp (Finds fun _ => False) (fun ws _ => Owed program context ws)
      (executeWith add saveOrder program context) := by
  refine Bus.wp_bind (Bus.wp_mono wp_executeInstructions_keeps (fun _ _ h => h) ?_)
  rintro _ ⟨cx, results⟩ ⟨rfl, hkeep⟩
  refine Bus.wp_mono wp_saveContext (fun _ _ h => h) ?_
  rintro _ _ ⟨rfl, -⟩
  refine ⟨Finmap.iter_nodup saveOrder cx, fun p hp hr => ?_⟩
  rw [← hkeep p.1 hr]
  exact Finmap.mem_iter.1 hp

/-! ## The copies -/

/-- What holds while the memory runs: the copies are what the memory holds, and what is written,
now or later, of the Vids that are not assigned is a copy. -/
structure Held (add : UInt8 → UInt8 → UInt8) (saveOrder : KeyOrder Vid) (program : Instructions)
    (w : Execution B) : Prop where
  held : ∀ v y sid, v ∉ resultIds program → w.copies.lookup v = some y →
    w.tile.memory.assignedShardId = some sid → w.tile.memory.getShard (v, sid) = some y
  owed : Owed program w.copies w.tile.writes
  fetching : w.toFetch ≠ [] → w.tile.writes = [] ∧ ∃ id, w.tile.processor = .executing id
    (prefetch w.copies w.toFetch >>= executeWith add saveOrder program)
  executing : w.toFetch = [] → ∀ id rest, w.tile.processor = .executing id rest →
    rest.wp (Finds fun _ => False) fun ws _ => Owed program w.copies (w.tile.writes ++ ws)

variable {program : Instructions} {w : Execution B}

/-- An event that stores a shard does not end the loop. -/
theorem stores_continues {m : InitializedDataMemory B} {order : HashOrder} {e : InEvent B}
    {p : FullShardId × Shard B} (h : m.stores e = some p) : (m.handle order e).Continues := by
  cases e with
  | serveShardResponse f shard => cases shard <;> trivial
  | storageRequestTx v author =>
    exact InitializedDataMemory.handleStorageRequestTx_continues v author
  | _ => cases h

/-- A processor that does not read is past the prefetch. -/
theorem Held.fetched (h : Held add saveOrder program w) {id : ProgramIdentifier}
    {rest : MemoryBus B (List (Except Error Vid))} (hp : w.tile.processor = .executing id rest)
    (hrest : ∀ v next, rest ≠ .read v next) : w.toFetch = [] := by
  by_contra hne
  obtain ⟨-, id', hfetch⟩ := h.fetching hne
  obtain ⟨u, ids, hf⟩ := List.exists_cons_of_ne_nil hne
  rw [hp, hf] at hfetch
  cases hfetch
  exact hrest _ _ rfl

theorem Held.handled (h : Held add saveOrder program w) {order : HashOrder} {e : InEvent B}
    {m : InitializedDataMemory B} {out : List (OutEvent B)}
    (hu : w.Undisturbed program (.handle order e))
    (hm : w.tile.memory.handle order e = .next m out) :
    Held add saveOrder program (w.record { w.tile with memory := m } (.handle order e)) := by
  have hget := InitializedDataMemory.getShard_handle hm
  have ha : m.assignedShardId = w.tile.memory.assignedShardId := by
    obtain ⟨hd, -, hl⟩ := InitializedDataMemory.handle_fixed hm
    unfold InitializedDataMemory.assignedShardId
    rw [hd, hl]
  have hheld : ∀ v y sid, v ∉ resultIds program → w.copies.lookup v = some y →
      m.assignedShardId = some sid → m.getShard (v, sid) = some y := by
    intro v y sid hv hy hs
    have hold := h.held v y sid hv hy (ha ▸ hs)
    rw [hget]
    cases hst : w.tile.memory.stores e with
    | none => exact hold
    | some p =>
      obtain ⟨f, x⟩ := p
      show (if (v, sid) = f then some x else w.tile.memory.getShard (v, sid)) = some y
      split
      · rename_i hf
        subst hf
        rw [hu _ x y hst hv (ha ▸ hs) hy]
      · exact hold
  cases hst : w.tile.memory.stores e with
  | none =>
    simp only [record, hst]
    exact ⟨hheld, h.owed, h.fetching, h.executing⟩
  | some p =>
    simp only [record, hst]
    exact ⟨hheld, h.owed, h.fetching, h.executing⟩

theorem Held.answered (h : Held add saveOrder program w) {order : HashOrder}
    {id : ProgramIdentifier} {v : Vid}
    {next : Except Error (Option (Shard B)) → MemoryBus B (List (Except Error Vid))}
    (hu : w.Undisturbed program (.read order))
    (hp : w.tile.processor = .executing id (.read v next)) :
    Held add saveOrder program (w.record
      { w.tile with processor := .executing id (next (.ok (w.tile.memory.busRead order v))) }
      (.read order)) := by
  cases hf : w.toFetch with
  | nil =>
    simp only [record, hf]
    refine ⟨h.held, h.owed, fun hne => absurd rfl hne, fun _ id' rest hr => ?_⟩
    cases hr
    exact h.executing hf _ _ hp _ fun hfalse => hfalse.elim
  | cons u ids =>
    have hne : w.toFetch ≠ [] := by rw [hf]; exact List.cons_ne_nil _ _
    obtain ⟨hw, id', hfetch⟩ := h.fetching hne
    rw [hp, hf] at hfetch
    -- the read is the next one of the prefetch
    obtain ⟨rfl, hread⟩ : id = id' ∧ Bus.read v next =
        (prefetch w.copies (u :: ids) >>= executeWith add saveOrder program) := by
      cases hfetch
      exact ⟨rfl, rfl⟩
    obtain ⟨rfl, rfl⟩ := Bus.read.inj hread
    have hgoal : ∀ copies : HashMap Vid (Shard B),
        (∀ v y sid, v ∉ resultIds program → copies.lookup v = some y →
          w.tile.memory.assignedShardId = some sid → w.tile.memory.getShard (v, sid) = some y) →
        Held add saveOrder program { w with
          tile := { w.tile with
            processor := .executing id (prefetch copies ids >>= executeWith add saveOrder program) }
          toFetch := ids
          copies := copies } := by
      intro copies hheld
      refine ⟨hheld, ?_, fun _ => ⟨hw, id, rfl⟩, fun hnil id' rest hr => ?_⟩
      · show Owed program copies w.tile.writes
        rw [hw]
        exact ⟨List.nodup_nil, fun _ hp => absurd hp List.not_mem_nil⟩
      · cases hr
        have hnil : ids = [] := hnil
        subst hnil
        show Bus.wp _ (fun ws _ => Owed program copies (w.tile.writes ++ ws)) _
        rw [hw]
        exact wp_executeWith program copies
    simp only [record, hf]
    cases hb : w.tile.memory.busRead order v with
    | none => exact hgoal w.copies h.held
    | some x =>
      refine hgoal (w.copies.insert v x) fun u y sid hur hy hs => ?_
      rw [Finmap.lookup_insert_ite] at hy
      split at hy
      · rename_i huv
        subst huv
        cases hy
        exact hu u ids x sid hf hur hb hs
      · exact h.held u y sid hur hy hs

theorem Held.pushed (h : Held add saveOrder program w) {id : ProgramIdentifier} {v : Vid}
    {x : Shard B} {next : Except Error Unit → MemoryBus B (List (Except Error Vid))}
    (hp : w.tile.processor = .executing id (.write v x next)) :
    Held add saveOrder program (w.record
      { w.tile with writes := w.tile.writes ++ [(v, x)], processor := .executing id (next (.ok ())) }
      .push) := by
  have hnil : w.toFetch = [] := h.fetched hp (by simp)
  have hold : (next (.ok ())).wp (Finds fun _ => False) fun ws _ =>
      Owed program w.copies (w.tile.writes ++ (v, x) :: ws) := h.executing hnil _ _ hp
  have hwp : (next (.ok ())).wp (Finds fun _ => False) fun ws _ =>
      Owed program w.copies ((w.tile.writes ++ [(v, x)]) ++ ws) := by
    refine Bus.wp_mono hold (fun _ _ h => h) fun ws _ ho => ?_
    rwa [List.append_assoc]
  have howed := (Bus.Runs.of_run (R := Finds fun _ => False) (M := fun _ => none)
    (fun _ hf => hf.elim) (next (.ok ()))).post hwp
  refine ⟨h.held, howed.left, fun hne => absurd hnil hne, fun _ id' rest hr => ?_⟩
  cases hr
  exact hwp

theorem Held.applied (h : Held add saveOrder program w) {v : Vid} {x : Shard B}
    {writes : List (Vid × Shard B)} (hw : w.tile.writes = (v, x) :: writes) :
    Held add saveOrder program (w.record
      { w.tile with memory := w.tile.memory.busWrite v x, writes := writes } .applyWrite) := by
  have hnil : w.toFetch = [] := by
    by_contra hne
    rw [(h.fetching hne).1] at hw
    cases hw
  have howed := h.owed
  rw [hw] at howed
  simp only [record, hw]
  refine ⟨fun u y sid hu hy hs => ?_, howed.tail, fun hne => absurd hnil hne,
    fun _ id rest hr => ?_⟩
  · have hs : w.tile.memory.assignedShardId = some sid :=
      (InitializedDataMemory.assignedShardId_busWrite v x).symm.trans hs
    dsimp only at hy ⊢
    rw [Finmap.lookup_erase_ite] at hy
    split at hy
    · cases hy
    · rename_i hne
      rw [InitializedDataMemory.getShard_busWrite hs, if_neg fun he => hne (congrArg Prod.fst he)]
      exact h.held u y sid hu hy hs
  · refine Bus.wp_mono (h.executing hnil id rest hr) (fun _ _ h => h) fun ws _ ho => ?_
    rw [hw] at ho
    exact ho.tail

/-- **One step** keeps the copies, as long as the memory runs. -/
theorem Held.step {a : TileStep B} {w' : Execution B}
    (h : w.tile.running = true → Held add saveOrder program w) (hu : w.Undisturbed program a)
    (hs : w.step add a = some w') (hr : w'.tile.running = true) :
    Held add saveOrder program w' := by
  obtain ⟨t, out, hm, rfl, hstart⟩ := step_eq_some hs
  cases hm with
  | handled running turn => exact (h running).handled hu turn
  | @ended order e running turn =>
    cases hst : w.tile.memory.stores e <;> simp [record, hst] at hr
  | started ready code => exact absurd rfl (hstart _ _ _)
  | answered running reading => exact (h running).answered hu reading
  | readRefused ended reading =>
    cases hf : w.toFetch <;> simp [record, hf, ended] at hr
  | pushed running writing => exact (h running).pushed writing
  | pushRefused ended writing => exact absurd (ended.symm.trans hr) (by simp)
  | applied running head => exact (h running).applied head
  | finished done =>
    have hw := h hr
    exact ⟨hw.held, hw.owed, fun hne => absurd (hw.fetched done (by simp)) hne,
      fun _ _ _ hp => by cases hp⟩

/-! ## The frame -/

/-- Every Vid that is not assigned holds what was last stored for it. -/
def Framed (program : Instructions) (w : Execution B) : Prop :=
  ∀ v, v ∉ resultIds program → ∀ s, w.tile.memory.getShard (v, s) = w.stored (v, s)

theorem Framed.step {a : TileStep B} {w' : Execution B} (h : w.Framed program)
    (hh : w.tile.running = true → Held add saveOrder program w)
    (hs : w.step add a = some w') : w'.Framed program := by
  obtain ⟨t, out, hm, rfl, -⟩ := step_eq_some hs
  intro v hv s
  cases hm with
  | @handled order e m o running turn =>
    have hget := InitializedDataMemory.getShard_handle turn (v, s)
    cases hst : w.tile.memory.stores e with
    | none =>
      simp only [record, hst] at hget ⊢
      rw [hget, h v hv s]
    | some p =>
      obtain ⟨f, x⟩ := p
      simp only [record, hst, Function.update_apply] at hget ⊢
      rw [hget, h v hv s]
  | @ended order e running turn =>
    have hst : w.tile.memory.stores e = none := by
      by_contra hne
      obtain ⟨p, hp⟩ := Option.ne_none_iff_exists'.1 hne
      exact turn (stores_continues hp)
    simp only [record, hst]
    exact h v hv s
  | started ready code => exact h v hv s
  | answered running reading | readRefused ended reading =>
    cases hf : w.toFetch <;> simp only [record, hf] <;> exact h v hv s
  | pushed running writing => exact h v hv s
  | pushRefused ended writing => exact h v hv s
  | @applied u x writes running head =>
    simp only [record, head]
    have howed := (hh running).owed
    rw [head] at howed
    cases hs : w.tile.memory.assignedShardId with
    | none =>
      simp only [InitializedDataMemory.busWrite, hs]
      exact h v hv s
    | some sid =>
      rw [InitializedDataMemory.getShard_busWrite hs, ← h v hv s]
      split
      · rename_i he
        cases he
        exact ((hh running).held _ x _ hv (howed.2 _ List.mem_cons_self hv) hs).symm
      · rfl
  | finished done => exact h v hv s

theorem Held.start (fetchOrder : KeyOrder Vid) (program : Program)
    (memory : InitializedDataMemory B) :
    Held add saveOrder program.instructions (start add fetchOrder saveOrder program memory) where
  held v y sid _ hy := by simp [Execution.start] at hy
  owed := ⟨List.nodup_nil, fun _ hp => absurd hp List.not_mem_nil⟩
  fetching _ := ⟨rfl, _, rfl⟩
  executing hnil id rest hr := by
    have hids : fetchOrder.list (neededIds program.instructions).toFinset = [] := hnil
    cases hr
    unfold execute prepareContext
    rw [hids]
    exact wp_executeWith program.instructions ∅

/-- **The frame of an execution**: from any storage, in every run in which no event stores
another shard for a copied operand before its write-back, every Vid that the program does not
assign holds the shard that was last stored for it, in every state reached. -/
theorem non_results_kept {memory : InitializedDataMemory B} {fetchOrder : KeyOrder Vid}
    {program : Program} {as : List (TileStep B)}
    (run : Trace (step add) (start add fetchOrder saveOrder program memory) as w)
    (undisturbed : Along (step add) (Undisturbed program.instructions)
      (start add fetchOrder saveOrder program memory) as)
    {v : Vid} (notAssigned : v ∉ resultIds program.instructions) (s : Sid) :
    w.tile.memory.getShard (v, s) = w.stored (v, s) := by
  refine (Trace.invariant_along
    (I := fun _ w => (w.tile.running = true → Held add saveOrder program.instructions w) ∧
      w.Framed program.instructions)
    ⟨fun _ => .start fetchOrder program memory, fun _ _ _ => rfl⟩ ?_ run undisturbed).2 v
      notAssigned s
  rintro as w a w' ⟨hheld, hframed⟩ hu hs
  exact ⟨Held.step hheld hu hs, hframed.step hheld hs⟩

/-- Address 1 is set to address 0. -/
def copying : Program := .new (fun _ => ⟨fun _ => 0⟩) [⟨.inv ⟨⟨0⟩⟩, ⟨1⟩⟩] ⟨fun _ => 0⟩

/-- The storage of peer 0 before `copying`. -/
def copyingMemory : InitializedDataMemory 4 :=
  InitializedDataMemory.sampleMemory.storeShard (⟨0⟩, ⟨0⟩) ⟨fun _ => 1⟩

/-- `copying` with a new shard of address `v` stored between the prefetch and the write-back. -/
def storeBetween (v : Vid) : List (TileStep 4) :=
  [.read default, .handle default (.serveShardResponse (v, ⟨0⟩) (some ⟨fun _ => 2⟩)), .push, .push,
    .applyWrite, .applyWrite, .finish]

theorem non_results_kept_copying :
    ∃ w, Trace (step (· ^^^ ·)) (start (· ^^^ ·) default default copying copyingMemory)
        (storeBetween ⟨2⟩) w ∧
      ⟨0⟩ ∉ resultIds copying.instructions ∧
      w.tile.memory.getShard (⟨0⟩, ⟨0⟩) = w.stored (⟨0⟩, ⟨0⟩) := by
  let run : Trace (step (· ^^^ ·)) (start (· ^^^ ·) default default copying copyingMemory)
    (storeBetween ⟨2⟩) _ := Trace.of_runAll rfl
  refine ⟨_, run, by decide, non_results_kept run ?_ (by decide) ⟨0⟩⟩
  refine ⟨?_, ?_, trivial, trivial, trivial, trivial, trivial, trivial⟩
  · intro v rest y sid hf _ hy hs
    cases hf
    cases hs
    exact hy
  · intro f x y hst _ _ hy
    cases hst
    cases hy

/-- A new shard of address 0 arrives while `copying` runs. The write-back, all of it applied,
puts the shard from before the program back, though the program does not assign address 0. -/
theorem operand_is_reverted :
    ∃ w, Trace (step (· ^^^ ·)) (start (· ^^^ ·) default default copying copyingMemory)
        (storeBetween ⟨0⟩) w ∧
      w.tile.processor = .ready ∧ w.tile.writes = [] ∧
      ⟨0⟩ ∉ resultIds copying.instructions ∧
      w.stored (⟨0⟩, ⟨0⟩) = some ⟨fun _ => 2⟩ ∧
      w.tile.memory.getShard (⟨0⟩, ⟨0⟩) = some ⟨fun _ => 1⟩ :=
  ⟨_, Trace.of_runAll rfl, rfl, rfl, by decide, by decide +kernel, by decide +kernel⟩

end Execution

end Swarm.Node
