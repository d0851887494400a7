import Swarm.DataMemory.Loop
import Swarm.Processor.SingleThreaded

/-!
# The data memory and the processor on one memory bus

The processor asks for shards and waits for the answer; it hands writes to a
queue that the data memory takes from when it gets to it. A read is answered
from the memory as it is then. The memory chooses freely between its input, a
read and the write queue.
-/

namespace Swarm.Node

open Swarm.DataMemory Swarm.Processor

variable {B : Nat}

/-- `ShardProcessor::run`: waiting for a program, or in the middle of `execute`. -/
inductive ProcessorState (B : Nat) where
  | ready
  | executing (programId : ProgramIdentifier) (rest : MemoryBus B (List (Except Error Vid)))

structure Tile (B : Nat) where
  memory : InitializedDataMemory B
  /-- The loop of the data memory has not ended. -/
  running : Bool
  processor : ProcessorState B
  /-- The write queue of the memory bus, oldest first. -/
  writes : List (Vid × Shard B)

inductive TileStep (B : Nat) where
  /-- The data memory takes an input event. -/
  | handle (order : HashOrder) (e : InEvent B)
  /-- The processor takes a program. -/
  | start (fetchOrder saveOrder : KeyOrder Vid) (program : Program)
  /-- The data memory answers the read the processor waits for. -/
  | read (order : HashOrder)
  /-- The processor queues a write. -/
  | push
  /-- The data memory takes the oldest write. -/
  | applyWrite
  /-- The processor reports the end of a program. -/
  | finish

inductive TileOut (B : Nat) where
  | memory (e : OutEvent B)
  | finishedExecution (programId : ProgramIdentifier) (results : List (Except Error Vid))

namespace Tile

/-- One step; `none` where the step is not possible. Once the memory has ended, its end of the
bus is closed. -/
def step (add : UInt8 → UInt8 → UInt8) (t : Tile B) : TileStep B → Option (Tile B × List (TileOut B))
  | .handle order e =>
    if t.running then
      match t.memory.handle order e with
      | .next memory out => some ({ t with memory := memory }, out.map .memory)
      | .stop | .panic => some ({ t with running := false }, [])
    else none
  | .start fetchOrder saveOrder program =>
    match t.processor with
    | .ready =>
      let rest := ShardProcessor.execute add fetchOrder saveOrder program.instructions
      some ({ t with processor := .executing program.identifier rest }, [])
    | .executing _ _ => none
  | .read order =>
    match t.processor with
    | .executing programId (.read dataId next) =>
      let answer := if t.running then .ok (t.memory.busRead order dataId)
        else .error .dataRequestChannelClosed
      some ({ t with processor := .executing programId (next answer) }, [])
    | _ => none
  | .push =>
    match t.processor with
    | .executing programId (.write dataId shard next) =>
      if t.running then
        some ({ t with
          writes := t.writes ++ [(dataId, shard)]
          processor := .executing programId (next (.ok ())) }, [])
      else
        some ({ t with processor := .executing programId (next (.error .dataWriteChannelClosed)) }, [])
    | _ => none
  | .applyWrite =>
    match t.running, t.writes with
    | true, (dataId, shard) :: writes =>
      some ({ t with memory := t.memory.busWrite dataId shard, writes := writes }, [])
    | _, _ => none
  | .finish =>
    match t.processor with
    | .executing programId (.ret results) =>
      some ({ t with processor := .ready }, [.finishedExecution programId results])
    | _ => none

/-! ## The moves of a tile -/

/-- Everything a step can do, one constructor for each case. -/
inductive Moves (add : UInt8 → UInt8 → UInt8) (t : Tile B) :
    TileStep B → Tile B → List (TileOut B) → Prop where
  | handled {order : HashOrder} {e : InEvent B} {memory : InitializedDataMemory B}
      {out : List (OutEvent B)} (running : t.running = true)
      (turn : t.memory.handle order e = .next memory out) :
      Moves add t (.handle order e) { t with memory := memory } (out.map .memory)
  | ended {order : HashOrder} {e : InEvent B} (running : t.running = true)
      (turn : ¬ (t.memory.handle order e).Continues) :
      Moves add t (.handle order e) { t with running := false } []
  | started {fetchOrder saveOrder : KeyOrder Vid} {program : Program}
      {rest : MemoryBus B (List (Except Error Vid))} (ready : t.processor = .ready)
      (code : rest = ShardProcessor.execute add fetchOrder saveOrder program.instructions) :
      Moves add t (.start fetchOrder saveOrder program)
        { t with processor := .executing program.identifier rest } []
  | answered {order : HashOrder} {id : ProgramIdentifier} {v : Vid}
      {next : Except Error (Option (Shard B)) → MemoryBus B (List (Except Error Vid))}
      (running : t.running = true) (reading : t.processor = .executing id (.read v next)) :
      Moves add t (.read order)
        { t with processor := .executing id (next (.ok (t.memory.busRead order v))) } []
  | readRefused {order : HashOrder} {id : ProgramIdentifier} {v : Vid}
      {next : Except Error (Option (Shard B)) → MemoryBus B (List (Except Error Vid))}
      (ended : t.running = false) (reading : t.processor = .executing id (.read v next)) :
      Moves add t (.read order)
        { t with processor := .executing id (next (.error .dataRequestChannelClosed)) } []
  | pushed {id : ProgramIdentifier} {v : Vid} {x : Shard B}
      {next : Except Error Unit → MemoryBus B (List (Except Error Vid))}
      (running : t.running = true) (writing : t.processor = .executing id (.write v x next)) :
      Moves add t .push
        { t with writes := t.writes ++ [(v, x)], processor := .executing id (next (.ok ())) } []
  | pushRefused {id : ProgramIdentifier} {v : Vid} {x : Shard B}
      {next : Except Error Unit → MemoryBus B (List (Except Error Vid))}
      (ended : t.running = false) (writing : t.processor = .executing id (.write v x next)) :
      Moves add t .push
        { t with processor := .executing id (next (.error .dataWriteChannelClosed)) } []
  | applied {v : Vid} {x : Shard B} {writes : List (Vid × Shard B)} (running : t.running = true)
      (head : t.writes = (v, x) :: writes) :
      Moves add t .applyWrite { t with memory := t.memory.busWrite v x, writes := writes } []
  | finished {id : ProgramIdentifier} {results : List (Except Error Vid)}
      (done : t.processor = .executing id (.ret results)) :
      Moves add t .finish { t with processor := .ready } [.finishedExecution id results]

theorem step_moves {add : UInt8 → UInt8 → UInt8} {t t' : Tile B} {a : TileStep B}
    {out : List (TileOut B)} (h : t.step add a = some (t', out)) : t.Moves add a t' out := by
  obtain ⟨memory, running, processor, writes⟩ := t
  cases a with
  | handle order e =>
    cases running with
    | false => simp [step] at h
    | true =>
      simp only [step, if_true] at h
      cases hh : memory.handle order e with
      | next m o =>
        rw [hh] at h
        cases h
        exact .handled rfl hh
      | stop | panic =>
        rw [hh] at h
        cases h
        exact .ended rfl (by rw [hh]; exact id)
  | start fetchOrder saveOrder program =>
    cases processor with
    | ready => cases h; exact .started rfl rfl
    | executing id rest => cases h
  | read order =>
    cases processor with
    | ready => cases h
    | executing id rest =>
      cases rest with
      | ret a => cases h
      | write v x next => cases h
      | read v next =>
        cases running with
        | true => cases h; exact .answered rfl rfl
        | false => cases h; exact .readRefused rfl rfl
  | push =>
    cases processor with
    | ready => cases h
    | executing id rest =>
      cases rest with
      | ret a => cases h
      | read v next => cases h
      | write v x next =>
        cases running with
        | true => cases h; exact .pushed rfl rfl
        | false => cases h; exact .pushRefused rfl rfl
  | applyWrite =>
    cases running with
    | false => cases h
    | true =>
      cases writes with
      | nil => cases h
      | cons p writes =>
        obtain ⟨v, x⟩ := p
        cases h
        exact .applied rfl rfl
  | finish =>
    cases processor with
    | ready => cases h
    | executing id rest =>
      cases rest with
      | ret a => cases h; exact .finished rfl
      | read v next => cases h
      | write v x next => cases h

end Tile

end Swarm.Node
