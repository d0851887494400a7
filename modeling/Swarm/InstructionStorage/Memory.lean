import Swarm.Lib.Finmap
import Swarm.Processor.Instruction

/-!
# The instruction memory

`InstructionMemory` passes finalised programs on to the processor, counts the
peers that report their execution, and tells the data memory whose shards a
report actualises.
-/

namespace Swarm.InstructionStorage

open Swarm.Processor

inductive OutEvent where
  | nextProgram (program : Program)
  | finishedExecution (programId : ProgramIdentifier)
  | peerShardsActualized (programId : ProgramIdentifier) (peer : PeerId)
      (updatedDataIds : List Vid)
  deriving DecidableEq

inductive InEvent where
  | finalizedProgram (program : Program)
  | executedProgram (peer : PeerId) (programId : ProgramIdentifier)

inductive ExecutionState where
  | executing (peersFinished : Finset PeerId)
  | finished
  deriving DecidableEq

structure ProgramMetadata where
  state : ExecutionState
  affectedDataIds : List Vid

/-- The results of the program, without repetition, in the set's iteration order. -/
def ProgramMetadata.computeAffectedDataIds (order : KeyOrder Vid) (instructions : Instructions) :
    List Vid :=
  order.list (instructions.map Instruction.result).toFinset

def ProgramMetadata.newStartedExecuting (order : KeyOrder Vid) (instructions : Instructions) :
    ProgramMetadata where
  state := .executing ∅
  affectedDataIds := computeAffectedDataIds order instructions

structure InstructionMemory where
  currentlyExecuted : HashMap ProgramIdentifier ProgramMetadata
  acceptThreshold : Nat

def InstructionMemory.new (executionConfirmationsThreshold : Nat) : InstructionMemory :=
  ⟨∅, executionConfirmationsThreshold⟩

namespace InstructionMemory

/-- `true` if the notification made the program finished. -/
def notifyExecuted (m : InstructionMemory) (who : PeerId) (program : ProgramIdentifier) :
    Bool × InstructionMemory :=
  match m.currentlyExecuted.lookup program with
  | none => (false, m)
  | some metadata =>
    match metadata.state with
    | .executing peersFinished =>
      let peersFinished := insert who peersFinished
      let done := decide (m.acceptThreshold ≤ peersFinished.card)
      let state := if done then ExecutionState.finished else .executing peersFinished
      (done, { m with
        currentlyExecuted := m.currentlyExecuted.insert program { metadata with state := state } })
    -- just ignore, we already decided it
    | .finished => (false, m)

def notifyFinalized (order : KeyOrder Vid) (m : InstructionMemory) (program : ProgramIdentifier)
    (instructions : Instructions) : InstructionMemory :=
  if program ∈ m.currentlyExecuted then m
  else { m with currentlyExecuted :=
    m.currentlyExecuted.insert program (.newStartedExecuting order instructions) }

/-- One event of `InstructionMemory::run`. -/
def handle (order : KeyOrder Vid) (m : InstructionMemory) :
    InEvent → InstructionMemory × List OutEvent
  | .finalizedProgram program =>
    (m.notifyFinalized order program.identifier program.instructions, [.nextProgram program])
  | .executedProgram peer programId =>
    let (done, m) := m.notifyExecuted peer programId
    let finished := if done then [OutEvent.finishedExecution programId] else []
    match m.currentlyExecuted.lookup programId with
    | some metadata =>
      (m, finished ++ [.peerShardsActualized programId peer metadata.affectedDataIds])
    | none => (m, finished)

/-! ## What an event changes -/

section Spec

variable {order : KeyOrder Vid} {m : InstructionMemory}

/-- The affected ids kept for a program: those from before, or the results of the program that
has just been finalised. -/
theorem affected_handle {e : InEvent} {id : ProgramIdentifier} {metadata : ProgramMetadata}
    (h : (m.handle order e).1.currentlyExecuted.lookup id = some metadata) :
    (∃ metadata', m.currentlyExecuted.lookup id = some metadata' ∧
      metadata.affectedDataIds = metadata'.affectedDataIds) ∨
    ∃ program, e = .finalizedProgram program ∧ id = program.identifier ∧
      metadata.affectedDataIds =
        ProgramMetadata.computeAffectedDataIds order program.instructions := by
  cases e with
  | finalizedProgram program =>
    simp only [handle, notifyFinalized] at h
    split at h
    · exact .inl ⟨metadata, h, rfl⟩
    · rw [Finmap.lookup_insert_ite] at h
      split at h
      · rename_i hid
        cases h
        exact .inr ⟨program, rfl, hid, rfl⟩
      · exact .inl ⟨metadata, h, rfl⟩
  | executedProgram peer programId =>
    have hfst : (m.handle order (.executedProgram peer programId)).1 =
        (m.notifyExecuted peer programId).2 := by
      simp only [handle]
      split <;> rfl
    rw [hfst] at h
    refine .inl ?_
    unfold notifyExecuted at h
    split at h
    · exact ⟨metadata, h, rfl⟩
    · rename_i old hold
      split at h
      · rw [Finmap.lookup_insert_ite] at h
        split at h
        · rename_i hid
          cases h
          exact ⟨old, hid ▸ hold, rfl⟩
        · exact ⟨metadata, h, rfl⟩
      · exact ⟨metadata, h, rfl⟩

/-- Which event makes the memory emit an event, and with what content. -/
def Emits (order : KeyOrder Vid) (m : InstructionMemory) (e : InEvent) : OutEvent → Prop
  | .nextProgram program => e = .finalizedProgram program
  | .finishedExecution programId => ∃ peer, e = .executedProgram peer programId
  | .peerShardsActualized programId peer updatedDataIds =>
    e = .executedProgram peer programId ∧
      ∃ metadata, (m.handle order e).1.currentlyExecuted.lookup programId = some metadata ∧
        updatedDataIds = metadata.affectedDataIds

theorem handle_emits (e : InEvent) : ∀ o ∈ (m.handle order e).2, Emits order m e o := by
  cases e with
  | finalizedProgram program =>
    intro o ho
    obtain rfl := List.mem_singleton.1 ho
    rfl
  | executedProgram peer programId =>
    have hfinished : ∀ o ∈ (if (m.notifyExecuted peer programId).1 then
        [OutEvent.finishedExecution programId] else []), o = .finishedExecution programId :=
      fun o ho => by split at ho <;> simp_all
    cases hl : (m.notifyExecuted peer programId).2.currentlyExecuted.lookup programId with
    | none =>
      have hout : (m.handle order (.executedProgram peer programId)).2 =
          if (m.notifyExecuted peer programId).1 then [OutEvent.finishedExecution programId]
          else [] := by simp only [handle, hl]
      intro o ho
      rw [hout] at ho
      rw [hfinished o ho]
      exact ⟨peer, rfl⟩
    | some metadata =>
      have hhandle : m.handle order (.executedProgram peer programId) =
          ((m.notifyExecuted peer programId).2,
            (if (m.notifyExecuted peer programId).1 then [OutEvent.finishedExecution programId]
              else []) ++ [.peerShardsActualized programId peer metadata.affectedDataIds]) := by
        simp only [handle, hl]
      intro o ho
      rw [hhandle] at ho
      rcases List.mem_append.1 ho with ho | ho
      · rw [hfinished o ho]
        exact ⟨peer, rfl⟩
      · obtain rfl := List.mem_singleton.1 ho
        exact ⟨rfl, metadata, by rw [hhandle]; exact hl, rfl⟩

end Spec

end InstructionMemory

end Swarm.InstructionStorage
