import Swarm.Processor.Refinement

/-!
# Execution against the interpreters

`prefetch_refines_naive`: on a memory that nothing else changes, prefetching,
the context map and the write-back are invisible. `data_shards_agree`: on data
shards the shard processor computes, chunk by chunk, what `MockProcessor`
computes, for the whole instruction set.
-/

namespace Swarm.Processor

open Swarm.Encoding Swarm.DataMemory

variable {B : Nat} {add : UInt8 → UInt8 → UInt8}

theorem run_execute (add : UInt8 → UInt8 → UInt8) (fetchOrder saveOrder : KeyOrder Vid)
    (program : Instructions) (M : Vid → Option (Shard B)) :
    applyWrites M (Bus.run M (ShardProcessor.execute add fetchOrder saveOrder program)).1 =
        naive (ShardProcessor.calculate add) M program ∧
      (Bus.run M (ShardProcessor.execute add fetchOrder saveOrder program)).2 =
        (naiveResults (ShardProcessor.calculate add) M program).map resultOf := by
  have hrun := Bus.Runs.of_run (R := Bus.Sees (Reads program) M) (M := M) (fun _ _ => rfl)
    (ShardProcessor.execute add fetchOrder saveOrder program)
  obtain ⟨-, hwrites, hresults⟩ := hrun.post (execute_spec fetchOrder saveOrder program M)
  exact ⟨hwrites, hresults⟩

/-- **Prefetching execution is direct execution**: the writes turn `M` into what the naive
interpreter makes of it, and the results say which instructions it executed. -/
theorem prefetch_refines_naive (add : UInt8 → UInt8 → UInt8) (fetchOrder saveOrder : KeyOrder Vid)
    (program : Instructions) (M : Vid → Option (Shard B)) :
    let r := Bus.run M (ShardProcessor.execute add fetchOrder saveOrder program)
    applyWrites M r.1 = naive (ShardProcessor.calculate add) M program ∧
      r.2 = (naiveResults (ShardProcessor.calculate add) M program).map resultOf :=
  run_execute add fetchOrder saveOrder program M

/-! ## Chunks -/

/-- Chunking commutes with every operation. -/
theorem calculate_chunk (op : Operation (Data B)) (j : Fin dataShardsCount) :
    ShardProcessor.calculate add (op.mapOperands fun d => chunk d j) =
      chunk (Mock.calculate add op) j := by
  cases op with
  | sub o | plus o | inv o => rfl
  | nand o =>
    simp only [Operation.mapOperands, calculate_nand]
    rfl
  | nor o =>
    simp only [Operation.mapOperands, calculate_nor]
    rfl

theorem chunks_getElem (d : Data B) (j : Fin dataShardsCount) :
    (chunks d)[j]? = some (chunk d j) := by
  change (chunks d)[j.val]? = _
  rw [chunks, List.getElem?_ofFn, dif_pos j.isLt]

/-- **The two interpreters agree on the data shards**: where the local run of a program
succeeds, execution turns a memory with the `j`-th chunks of the data store into one with the
`j`-th chunks of the result. -/
theorem data_shards_agree {D D' : HashMap Vid (Data B)} {program : Program}
    (hmock : Mock.executeOn add program D = .ok D') (j : Fin dataShardsCount)
    {M : Vid → Option (Shard B)} (hchunks : ∀ v d, D.lookup v = some d → M v = (chunks d)[j]?)
    (fetchOrder saveOrder : KeyOrder Vid) {v : Vid} {d : Data B} (hv : D'.lookup v = some d) :
    applyWrites M (Bus.run M (ShardProcessor.execute add fetchOrder saveOrder
      program.instructions)).1 v = (chunks d)[j]? := by
  obtain ⟨hpresent, hnaive⟩ := Mock.executeInstructions_ok hmock
  have hφ : ∀ ins ∈ program.instructions, ∀ op : Operation (Data B),
      (op.IsLinear ↔ ins.operation.IsLinear) → ShardProcessor.calculate add
        (op.mapOperands fun d => chunk d j) = chunk (Mock.calculate add op) j :=
    fun _ _ op _ => calculate_chunk op j
  rw [(run_execute add fetchOrder saveOrder program.instructions M).1, chunks_getElem]
  apply naive_extend (M := fun v => (D.lookup v).map fun d => chunk d j) _ (hpresent.map hφ)
  · rw [naive_map hφ, hnaive]
    simp only [hv, Option.map_some]
  · intro u x hx
    obtain ⟨d', hd', rfl⟩ := Option.map_eq_some_iff.1 hx
    rw [hchunks u d' hd', chunks_getElem]

/-- The first chunk of `unit`, at address 0. -/
def unitChunks : Vid → Option (Shard 4) :=
  (Finmap.singleton ⟨0⟩ ⟨![1, 0, 0, 0]⟩ : HashMap Vid (Shard 4)).lookup

theorem data_shards_agree_doubling :
    applyWrites unitChunks (Bus.run unitChunks (ShardProcessor.execute (· ^^^ ·) default default
      doubling.instructions)).1 ⟨0⟩ = (chunks unit)[(0 : Fin dataShardsCount)]? := by
  have hchunks : ∀ v d, unitStore.lookup v = some d →
      unitChunks v = (chunks d)[(0 : Fin dataShardsCount)]? := by
    intro v d hv
    rw [unitStore, Finmap.lookup_singleton_ite] at hv
    split at hv
    · rename_i h
      cases hv
      rw [h]
      decide +kernel
    · cases hv
  exact data_shards_agree (show Mock.executeOn (· ^^^ ·) doubling unitStore = .ok _ from rfl) 0
    hchunks default default (by decide +kernel)

end Swarm.Processor
