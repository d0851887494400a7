import Swarm.Node.Frame

/-!
# One program in the life of a tile

Programs come one after the other to a tile, and the shards of a program may be
queued when the next one starts. A `Course` follows one of them, on a tile where
nothing else touches the Vids it mentions: before it starts the tile holds the
shards it will read, while it reads they stay, and with its last write queued
the tile holds, or will hold, what the program makes of them.
-/

namespace Swarm.Node

open Swarm.DataMemory Swarm.Processor
open Swarm.Processor.ShardProcessor

variable {B : Nat}

/-! ## What an execution touches -/

/-- The program reads or assigns `v`. No other Vid is written back. -/
def Mentions (program : Instructions) (v : Vid) : Prop :=
  v ∈ neededIds program ∨ v ∈ resultIds program

instance (program : Instructions) (v : Vid) : Decidable (Mentions program v) :=
  inferInstanceAs (Decidable (_ ∨ _))

section Execute

variable {add : UInt8 → UInt8 → UInt8} {context : HashMap Vid (Shard B)}

theorem wp_prefetch_keys (ids : List Vid) :
    Bus.wp (Finds fun _ => False) (fun ws cx => ws = [] ∧ ∀ v ∈ cx, v ∈ context ∨ v ∈ ids)
      (prefetch context ids) := by
  induction ids generalizing context with
  | nil => exact ⟨rfl, fun _ hv => .inl hv⟩
  | cons id ids ih =>
    refine Bus.wp_bind (Bus.wp_mono (wp_ask_finds id) (fun _ _ h => h) ?_)
    rintro _ _ ⟨rfl, o, rfl, -⟩
    cases o with
    | none =>
      refine Bus.wp_mono ih (fun _ _ h => h) fun ws cx hcx => ⟨hcx.1, fun v hv => ?_⟩
      exact (hcx.2 v hv).imp_right (List.mem_cons_of_mem _)
    | some x =>
      refine Bus.wp_mono ih (fun _ _ h => h) fun ws cx hcx => ⟨hcx.1, fun v hv => ?_⟩
      rcases hcx.2 v hv with hin | hin
      · rcases Finmap.mem_insert.1 hin with rfl | hin
        · exact .inr List.mem_cons_self
        · exact .inl hin
      · exact .inr (List.mem_cons_of_mem _ hin)

/-- An execution writes only Vids that its program mentions. -/
theorem execute_mentions (fetchOrder saveOrder : KeyOrder Vid) (program : Instructions) :
    Bus.wp (Finds fun _ => False) (fun ws _ => ∀ w ∈ ws, Mentions program w.1)
      (execute add fetchOrder saveOrder program : MemoryBus B (List (Except Error Vid))) := by
  refine Bus.wp_bind (Bus.wp_mono (wp_prefetch_keys _) (fun _ _ h => h) ?_)
  rintro _ cx ⟨rfl, hcx⟩
  refine Bus.wp_bind (Bus.wp_mono Execution.wp_executeInstructions_keeps (fun _ _ h => h) ?_)
  rintro _ ⟨cx', results⟩ ⟨rfl, hkeep⟩
  refine Bus.wp_mono wp_saveContext (fun _ _ h => h) ?_
  rintro _ _ ⟨rfl, -⟩ w hw
  by_cases hr : w.1 ∈ resultIds program
  · exact .inr hr
  · have hmem : w.1 ∈ cx := by
      rw [← Finmap.lookup_isSome, ← hkeep w.1 hr, Finmap.mem_iter.1 hw]
      rfl
    refine .inl ((hcx w.1 hmem).elim (fun h => absurd h Finmap.notMem_empty) fun h => ?_)
    exact List.mem_toFinset.1 ((fetchOrder.mem _ _).1 h)

theorem silent_saveContext (results : List (Except Error Vid)) (entries : List (Vid × Shard B)) :
    (saveContext results entries).Silent := by
  induction entries with
  | nil => trivial
  | cons entry rest ih => exact ih

/-- An execution reads only before its first write. -/
theorem execute_staged (fetchOrder saveOrder : KeyOrder Vid) (program : Instructions) :
    (execute add fetchOrder saveOrder program : MemoryBus B (List (Except Error Vid))).Staged := by
  have hR : ∀ v o, Finds (B := B) (fun _ => False) v o := fun _ _ hfalse => hfalse.elim
  refine Bus.staged_bind hR (wp_prefetch_finds _) fun cx => ?_
  refine Bus.staged_bind hR ?_ fun r => (silent_saveContext r.2 _).staged
  exact Bus.wp_mono Execution.wp_executeInstructions_keeps (fun _ _ h => h) fun _ _ h => h.1

end Execute

/-! ## The queue of writes -/

theorem applyWrites_append (M : Vid → Option (Shard B)) (ws : List (Vid × Shard B)) (v : Vid)
    (x : Shard B) :
    applyWrites M (ws ++ [(v, x)]) = Function.update (applyWrites M ws) v (some x) := by
  simp [applyWrites]

theorem applyWrites_congr {M N : Vid → Option (Shard B)} {v : Vid} (h : M v = N v)
    (ws : List (Vid × Shard B)) : applyWrites M ws v = applyWrites N ws v := by
  induction ws generalizing M N with
  | nil => exact h
  | cons w ws ih =>
    refine ih ?_
    simp only [Function.update_apply, h]

/-- The shard of `v` with all queued writes applied. -/
def Tile.shardOf (t : Tile B) (sid : Sid) (v : Vid) : Option (Shard B) :=
  applyWrites (fun v => t.memory.getShard (v, sid)) t.writes v

theorem Tile.shardOf_eq {t : Tile B} {sid : Sid} {v : Vid} (h : v ∉ t.writes.map Prod.fst) :
    t.shardOf sid v = t.memory.getShard (v, sid) := applyWrites_notMem h

/-! ## The course of a program -/

inductive Stage where
  | before
  | executing
  | finished
  deriving DecidableEq

/-- How often the program was started. -/
def Stage.begun : Stage → Nat
  | .before => 0
  | .executing | .finished => 1

section Course

variable (add : UInt8 → UInt8 → UInt8) (hash : Hash) (program : Instructions) (sid : Sid)
  (M : Vid → Option (Shard B))

/-- The processor executes, if anything, another program, which mentions other Vids. -/
def Foreign (t : Tile B) : Prop :=
  ∀ id rest, t.processor = .executing id rest → id.hash ≠ hash ∧
    rest.wp (Finds fun _ => False) fun ws _ => ∀ w ∈ ws, ¬ Mentions program w.1

/-- The shards that the program mentions are those of `M`, and none of them is queued. -/
structure Untouched (t : Tile B) : Prop where
  held : ∀ v, Mentions program v → t.memory.getShard (v, sid) = M v
  queue : ∀ w ∈ t.writes, ¬ Mentions program w.1

/-- With the writes `ws` the program has turned `M` into its meaning on `M`. -/
def Computed (ws : List (Vid × Shard B)) : Prop :=
  applyWrites M ws = naive (calculate add) M program

/-- Where the tile is in the course of the program with this hash. -/
inductive Course (t : Tile B) : Stage → Prop where
  | before (foreign : Foreign hash program t) (untouched : Untouched program sid M t) :
      Course t .before
  | reading {id : ProgramIdentifier} {rest : MemoryBus B (List (Except Error Vid))}
      (own : id.hash = hash) (code : t.processor = .executing id rest) (staged : rest.Staged)
      (untouched : Untouched program sid M t)
      (spec : rest.wp (Bus.Sees (Reads program) M) fun ws _ => Computed add program M ws) :
      Course t .executing
  | writing {id : ProgramIdentifier} {rest : MemoryBus B (List (Except Error Vid))}
      {pushed : List (Vid × Shard B)}
      (own : id.hash = hash) (code : t.processor = .executing id rest) (silent : rest.Silent)
      (seen : ∀ v, Mentions program v → t.shardOf sid v = applyWrites M pushed v)
      (spec : rest.wp (Bus.Sees (Reads program) M) fun ws _ =>
        Computed add program M (pushed ++ ws)) :
      Course t .executing
  | finished (foreign : Foreign hash program t)
      (seen : ∀ v, Mentions program v → t.shardOf sid v = naive (calculate add) M program v) :
      Course t .finished

/-- The step starts the program. -/
def begins : TileStep B → Nat
  | .start _ _ p => if p.instructions = program then 1 else 0
  | _ => 0

end Course

variable {add : UInt8 → UInt8 → UInt8} {hash : Hash} {program : Instructions} {sid : Sid}
  {M : Vid → Option (Shard B)} {t t' : Tile B} {stage : Stage}

theorem Untouched.shardOf (h : Untouched program sid M t) {v : Vid} (hv : Mentions program v) :
    t.shardOf sid v = M v := by
  rw [Tile.shardOf_eq, h.held v hv]
  intro hmem
  obtain ⟨w, hw, rfl⟩ := List.mem_map.1 hmem
  exact h.queue w hw hv

theorem Foreign.write (h : Foreign hash program t) {id : ProgramIdentifier} {v : Vid} {x : Shard B}
    {next : Except Error Unit → MemoryBus B (List (Except Error Vid))}
    (code : t.processor = .executing id (.write v x next)) :
    ¬ Mentions program v ∧ id.hash ≠ hash ∧
      (next (.ok ())).wp (Finds fun _ => False) fun ws _ => ∀ w ∈ ws, ¬ Mentions program w.1 := by
  obtain ⟨hid, hwp⟩ := h id _ code
  obtain ⟨hv, hrest⟩ := Bus.wp_write_all (P := fun w => ¬ Mentions program w.1)
    (fun _ _ hfalse => hfalse.elim) hwp
  exact ⟨hv, hid, hrest⟩

/-! ## Moves -/

/-- What does not touch the queue, or the shards that the program mentions. -/
theorem Untouched.keep (h : Untouched program sid M t) (hw : t'.writes = t.writes)
    (hg : ∀ v, Mentions program v → t'.memory.getShard (v, sid) = t.memory.getShard (v, sid)) :
    Untouched program sid M t' :=
  ⟨fun v hv => (hg v hv).trans (h.held v hv), by rw [hw]; exact h.queue⟩

/-- The course depends on the processor, the queue and the shards that the program mentions. -/
theorem Course.keep (h : Course add hash program sid M t stage)
    (hp : t'.processor = t.processor) (hw : t'.writes = t.writes)
    (hg : ∀ v, Mentions program v → t'.memory.getShard (v, sid) = t.memory.getShard (v, sid)) :
    Course add hash program sid M t' stage := by
  have hshard : ∀ v, Mentions program v → t'.shardOf sid v = t.shardOf sid v := fun v hv => by
    unfold Tile.shardOf
    rw [hw]
    exact applyWrites_congr (hg v hv) _
  cases h with
  | before foreign untouched =>
    exact .before (fun id rest hr => foreign id rest (hp ▸ hr)) (untouched.keep hw hg)
  | reading own code staged untouched spec =>
    exact .reading own (hp.trans code) staged (untouched.keep hw hg) spec
  | writing own code silent seen spec =>
    exact .writing own (hp.trans code) silent (fun v hv => (hshard v hv).trans (seen v hv)) spec
  | finished foreign seen =>
    exact .finished (fun id rest hr => foreign id rest (hp ▸ hr))
      fun v hv => (hshard v hv).trans (seen v hv)

theorem Course.applied (h : Course add hash program sid M t stage)
    (assigned : t.memory.assignedShardId = some sid) {v : Vid} {x : Shard B}
    {writes : List (Vid × Shard B)} (head : t.writes = (v, x) :: writes) :
    Course add hash program sid M
      { t with memory := t.memory.busWrite v x, writes := writes } stage := by
  have hget := InitializedDataMemory.getShard_busWrite assigned v x
  have hshard : ∀ u, ({ t with memory := t.memory.busWrite v x, writes := writes } : Tile B).shardOf
      sid u = t.shardOf sid u := fun u => by
    unfold Tile.shardOf
    rw [head]
    refine applyWrites_congr ?_ _
    simp [hget, Function.update_apply]
  have huntouched : Untouched program sid M t → Untouched program sid M
      { t with memory := t.memory.busWrite v x, writes := writes } := fun h => by
    refine ⟨fun u hu => ?_, fun w hw => h.queue w (by rw [head]; exact List.mem_cons_of_mem _ hw)⟩
    have hne : (u, sid) ≠ (v, sid) := fun he => h.queue (v, x) (by rw [head]; exact List.mem_cons_self)
      ((Prod.mk.inj he).1 ▸ hu)
    change (t.memory.busWrite v x).getShard (u, sid) = M u
    rw [hget, if_neg hne, h.held u hu]
  cases h with
  | before foreign untouched => exact .before foreign (huntouched untouched)
  | reading own code staged untouched spec =>
    exact .reading own code staged (huntouched untouched) spec
  | writing own code silent seen spec =>
    exact .writing own code silent (fun u hu => (hshard u).trans (seen u hu)) spec
  | finished foreign seen => exact .finished foreign fun u hu => (hshard u).trans (seen u hu)

theorem Course.pushed (h : Course add hash program sid M t stage) {id : ProgramIdentifier} {v : Vid}
    {x : Shard B} {next : Except Error Unit → MemoryBus B (List (Except Error Vid))}
    (code : t.processor = .executing id (.write v x next)) :
    Course add hash program sid M
      { t with writes := t.writes ++ [(v, x)], processor := .executing id (next (.ok ())) }
      stage := by
  have hshard : ∀ u, ({ t with
      writes := t.writes ++ [(v, x)]
      processor := .executing id (next (.ok ())) } : Tile B).shardOf sid u =
        if u = v then some x else t.shardOf sid u := fun u => by
    unfold Tile.shardOf
    rw [applyWrites_append, Function.update_apply]
  have hseen : ∀ ws, (∀ u, Mentions program u → t.shardOf sid u = applyWrites M ws u) →
      ∀ u, Mentions program u → ({ t with
        writes := t.writes ++ [(v, x)]
        processor := .executing id (next (.ok ())) } : Tile B).shardOf sid u =
          applyWrites M (ws ++ [(v, x)]) u := fun ws hws u hu => by
    rw [hshard, applyWrites_append, Function.update_apply, hws u hu]
  cases h with
  | before foreign untouched =>
    obtain ⟨hv, hid, hrest⟩ := foreign.write code
    refine .before (fun id' rest hr => ?_) ⟨untouched.held, fun w hw => ?_⟩
    · cases hr
      exact ⟨hid, hrest⟩
    · rcases List.mem_append.1 hw with hw | hw
      · exact untouched.queue w hw
      · rw [List.mem_singleton.1 hw]
        exact hv
  | @reading id' rest own code' staged untouched spec =>
    cases code.symm.trans code'
    exact .writing own rfl staged (hseen [] fun u hu => untouched.shardOf hu) spec
  | @writing id' rest pushed own code' silent seen spec =>
    cases code.symm.trans code'
    refine .writing own rfl silent (hseen pushed seen) ?_
    refine Bus.wp_mono spec (fun _ _ h => h) fun ws _ hws => ?_
    rwa [List.append_assoc]
  | finished foreign seen =>
    obtain ⟨hv, hid, hrest⟩ := foreign.write code
    refine .finished (fun id' rest hr => ?_) fun u hu => ?_
    · cases hr
      exact ⟨hid, hrest⟩
    · rw [hshard, if_neg fun he => hv (by rwa [← he]), seen u hu]

theorem Course.answered (h : Course add hash program sid M t stage)
    (only : ∀ f, (t.memory.getShard f).isSome → f.2 = sid) {order : HashOrder}
    {id : ProgramIdentifier} {v : Vid}
    {next : Except Error (Option (Shard B)) → MemoryBus B (List (Except Error Vid))}
    (code : t.processor = .executing id (.read v next)) :
    Course add hash program sid M
      { t with processor := .executing id (next (.ok (t.memory.busRead order v))) } stage := by
  have hforeign : Foreign hash program t → Foreign hash program
      { t with processor := .executing id (next (.ok (t.memory.busRead order v))) } :=
    fun h id' rest hr => by
      cases hr
      exact ⟨(h id _ code).1, (h id _ code).2 _ fun hfalse => hfalse.elim⟩
  cases h with
  | before foreign untouched => exact .before (hforeign foreign) ⟨untouched.held, untouched.queue⟩
  | @reading id' rest own code' staged untouched spec =>
    cases code.symm.trans code'
    refine .reading own rfl (staged _) ⟨untouched.held, untouched.queue⟩ (spec _ fun hv => ?_)
    rw [InitializedDataMemory.busRead_eq (fun s hs => only (v, s) hs) order]
    exact untouched.held v (.inl hv)
  | @writing id' rest pushed own code' silent seen spec =>
    cases code.symm.trans code'
    exact silent.elim
  | finished foreign seen => exact .finished (hforeign foreign) seen

/-- The processor takes a program: this one, for the first time, or one that mentions other
Vids. -/
theorem Course.started (h : Course add hash program sid M t stage) {fetchOrder saveOrder : KeyOrder Vid}
    {p : Program} (ready : t.processor = .ready)
    (hp : p.instructions = program ∧ p.identifier.hash = hash ∧ stage = .before ∨
      p.instructions ≠ program ∧ p.identifier.hash ≠ hash ∧
        ∀ v, Mentions p.instructions v → ¬ Mentions program v) :
    ∃ stage', Course add hash program sid M { t with
      processor := .executing p.identifier (execute add fetchOrder saveOrder p.instructions) }
      stage' ∧
      stage'.begun = stage.begun + begins program (.start fetchOrder saveOrder p : TileStep B) ∧
      (stage = .finished → stage' = .finished) := by
  rcases hp with ⟨rfl, own, rfl⟩ | ⟨hne, hid, hapart⟩
  · refine ⟨.executing, ?_, by simp [begins, Stage.begun], fun he => by cases he⟩
    cases h with
    | before foreign untouched =>
      refine .reading own rfl (execute_staged _ _ _) ⟨untouched.held, untouched.queue⟩ ?_
      exact Bus.wp_mono (execute_spec fetchOrder saveOrder p.instructions M) (fun _ _ h => h)
        fun _ _ h => h.2.1
  · have hforeign : Foreign hash program { t with
        processor := .executing p.identifier (execute add fetchOrder saveOrder p.instructions) } := by
      intro id rest hr
      cases hr
      refine ⟨hid, Bus.wp_mono (execute_mentions fetchOrder saveOrder p.instructions)
        (fun _ _ h => h) fun ws _ hws w hw => hapart _ (hws w hw)⟩
    refine ⟨stage, ?_, by simp [begins, hne], id⟩
    cases h with
    | before foreign untouched => exact .before hforeign ⟨untouched.held, untouched.queue⟩
    | finished foreign seen => exact .finished hforeign seen
    | reading own code => rw [ready] at code; cases code
    | writing own code => rw [ready] at code; cases code

/-- The processor reports a program: this one is finished then. -/
theorem Course.reported (h : Course add hash program sid M t stage) {id : ProgramIdentifier}
    {results : List (Except Error Vid)} (code : t.processor = .executing id (.ret results)) :
    ∃ stage', Course add hash program sid M { t with processor := .ready } stage' ∧
      stage'.begun = stage.begun ∧ (stage = .finished → stage' = .finished) ∧
      (id.hash = hash → stage' = .finished) := by
  have hforeign : Foreign hash program { t with processor := .ready } := fun _ _ hr => by cases hr
  cases h with
  | before foreign untouched =>
    exact ⟨_, .before hforeign ⟨untouched.held, untouched.queue⟩, rfl, fun he => (by cases he),
      fun hid => absurd hid (foreign id _ code).1⟩
  | @reading id' rest own code' staged untouched spec =>
    cases code.symm.trans code'
    refine ⟨_, .finished hforeign fun v hv => ?_, rfl, fun _ => rfl, fun _ => rfl⟩
    have hspec : Computed add program M [] := spec
    exact (untouched.shardOf hv).trans (congrFun hspec v)
  | @writing id' rest pushed own code' silent seen spec =>
    cases code.symm.trans code'
    refine ⟨_, .finished hforeign fun v hv => ?_, rfl, fun _ => rfl, fun _ => rfl⟩
    have hspec : Computed add program M (pushed ++ []) := spec
    rw [List.append_nil] at hspec
    exact (seen v hv).trans (congrFun hspec v)
  | finished foreign seen => exact ⟨_, .finished hforeign seen, rfl, fun _ => rfl, fun _ => rfl⟩

/-- **One move**: the course goes on, as long as events store other shards, and the programs that
start are this one, once, and others that mention other Vids. -/
theorem Course.moves {a : TileStep B} {out : List (TileOut B)}
    (h : Course add hash program sid M t stage) (running : t.running = true)
    (assigned : t.memory.assignedShardId = some sid)
    (only : ∀ f, (t.memory.getShard f).isSome → f.2 = sid)
    (hhandle : ∀ order e, a = .handle order e → (t.memory.handle order e).Continues ∧
      ∀ f x, t.memory.stores e = some (f, x) → ¬ Mentions program f.1)
    (hstart : ∀ f g p, a = .start f g p →
      p.instructions = program ∧ p.identifier.hash = hash ∧ stage = .before ∨
        p.instructions ≠ program ∧ p.identifier.hash ≠ hash ∧
          ∀ v, Mentions p.instructions v → ¬ Mentions program v)
    (hmove : t.Moves add a t' out) :
    t'.running = true ∧ ∃ stage', Course add hash program sid M t' stage' ∧
      stage'.begun = stage.begun + begins program a ∧ (stage = .finished → stage' = .finished) ∧
      ∀ id results, .finishedExecution id results ∈ out → id.hash = hash → stage' = .finished := by
  cases hmove with
  | @handled order e m out running' turn =>
    have hstores := (hhandle _ _ rfl).2
    refine ⟨running, stage, h.keep rfl rfl fun v hv => ?_, rfl, id, by simp⟩
    change m.getShard (v, sid) = _
    rw [InitializedDataMemory.getShard_handle turn]
    cases hs : t.memory.stores e with
    | none => rfl
    | some p =>
      obtain ⟨f, x⟩ := p
      refine if_neg ?_
      rintro rfl
      exact hstores _ x hs hv
  | ended running' turn => exact absurd (hhandle _ _ rfl).1 turn
  | started ready code =>
    rw [code]
    obtain ⟨stage', hc, hbegun, hfinished⟩ := h.started ready (hstart _ _ _ rfl)
    exact ⟨running, stage', hc, hbegun, hfinished, by simp⟩
  | answered running' reading => exact ⟨running, stage, h.answered only reading, rfl, id, by simp⟩
  | pushed running' writing => exact ⟨running, stage, h.pushed writing, rfl, id, by simp⟩
  | applied running' head => exact ⟨running, stage, h.applied assigned head, rfl, id, by simp⟩
  | finished done =>
    obtain ⟨stage', hc, hbegun, hfinished, hown⟩ := h.reported done
    refine ⟨running, stage', hc, hbegun, hfinished, fun id results hout hid => ?_⟩
    cases List.mem_singleton.1 hout
    exact hown hid
  | readRefused ended reading => rw [running] at ended; cases ended
  | pushRefused ended writing => rw [running] at ended; cases ended

/-- After the program nothing it mentions is queued again. -/
theorem Course.unqueued {a : TileStep B} {out : List (TileOut B)} {v : Vid}
    (h : Course add hash program sid M t .finished) (hv : Mentions program v)
    (hmove : t.Moves add a t' out) (hq : v ∉ t.writes.map Prod.fst) :
    v ∉ t'.writes.map Prod.fst := by
  cases h with
  | finished foreign seen =>
    cases hmove with
    | @pushed id u x next running writing =>
      rw [List.map_append, List.mem_append, not_or]
      refine ⟨hq, fun hmem => (foreign.write writing).1 ?_⟩
      obtain rfl : v = u := List.mem_singleton.1 hmem
      exact hv
    | applied running head =>
      rw [head] at hq
      exact fun hmem => hq (List.mem_cons_of_mem _ hmem)
    | _ => exact hq

/-- A finished tile without a queued write of `v` stores what the program computes for it. -/
theorem Course.stored {v : Vid} (h : Course add hash program sid M t .finished)
    (hv : Mentions program v) (hq : v ∉ t.writes.map Prod.fst) :
    t.memory.getShard (v, sid) = naive (calculate add) M program v := by
  cases h with
  | finished foreign seen => rw [← seen v hv, Tile.shardOf_eq hq]

end Swarm.Node
