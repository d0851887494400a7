import Swarm.DataMemory.Memory
import Swarm.Encoding.OneParity
import Swarm.Processor.Mock
import Swarm.Processor.SingleThreaded

/-!
# Distributed execution against local execution

Every peer holds its shard of each data unit, runs `ShardProcessor::execute`
and applies the writes. `distributed_refines_local`: for linear programs any
two shards decode to what `MockProcessor` computes. Nand and Nor act on parity
bytes as on data bytes; `quorums_agree_iff` says when the shards still form a
codeword.
-/

namespace Swarm.Processor

open Swarm.Encoding Swarm.DataMemory

variable {B : Nat} {w : ReedSolomonWrapper}
  {C : MdsCode UInt8 dataShardsCount w.inner.totalShardCount} {add : UInt8 → UInt8 → UInt8}

/-! ## Peers that hold the shards of a data store -/

/-- Shard `i` of the code, for every data unit that `M` has. -/
def shardStore {n : Nat} (C : MdsCode UInt8 dataShardsCount n) (i : Fin n)
    (M : Vid → Option (Data B)) : Vid → Option (Shard B) :=
  fun v => (M v).map fun d => shardOf C d i

/-- The peer is assigned the `Sid` `i`, stores nothing else, and has the shard that `encode`
gives it of every data unit in `D`. -/
structure HoldsShards (w : ReedSolomonWrapper) (D : HashMap Vid (Data B)) (i : Nat)
    (m : InitializedDataMemory B) : Prop where
  assigned : m.assignedShardId = some ⟨i⟩
  only : ∀ v s, (m.getShard (v, s)).isSome → s = ⟨i⟩
  shard : ∀ v d, D.lookup v = some d → ∃ shards,
    w.encode d = .ok shards ∧ m.getShard (v, ⟨i⟩) = shards.lookup ⟨i⟩

/-- The peer holds no shard of anything else. -/
structure HoldsExactly (w : ReedSolomonWrapper) (D : HashMap Vid (Data B)) (i : Nat)
    (m : InitializedDataMemory B) : Prop extends HoldsShards w D i m where
  absent : ∀ v s, D.lookup v = none → m.getShard (v, s) = none

/-- `m'` is what a run of `execute` makes of the data memory `m`: the reads are answered by
`m`, in any iteration order, and all writes are applied. -/
def Executed (add : UInt8 → UInt8 → UInt8) (program : Instructions)
    (m m' : InitializedDataMemory B) : Prop :=
  ∃ (fetchOrder saveOrder : KeyOrder Vid) (ws : List (Vid × Shard B))
    (results : List (Except Error Vid)),
    Bus.Runs (fun v o => ∃ order, m.busRead order v = o)
      (ShardProcessor.execute add fetchOrder saveOrder program) ws results ∧
    m' = ws.foldl (fun m w => m.busWrite w.1 w.2) m

/-- The shards of `v` that the peers of `S` hold. -/
def collect {n : Nat} (peers : Fin n → InitializedDataMemory B) (v : Vid) (S : Finset Sid) :
    HashMap Sid (Shard B) :=
  Finmap.ofFinset S fun s => if h : s.val < n then (peers ⟨s.val, h⟩).getShard (v, s) else none

theorem getShard_writes {sid : Sid} (ws : List (Vid × Shard B)) {m : InitializedDataMemory B}
    (h : m.assignedShardId = some sid) (v : Vid) :
    (ws.foldl (fun m w => m.busWrite w.1 w.2) m).getShard (v, sid) =
      applyWrites (fun v => m.getShard (v, sid)) ws v := by
  induction ws generalizing m with
  | nil => rfl
  | cons w ws ih =>
    rw [List.foldl_cons, ih (by rw [InitializedDataMemory.assignedShardId_busWrite, h])]
    change _ = applyWrites (Function.update _ w.1 (some w.2)) ws v
    congr 1
    funext u
    rw [InitializedDataMemory.getShard_busWrite h, Function.update_apply]
    simp

/-- **One peer**: the run turns its shards into the meaning of the program on them. -/
theorem Executed.getShard {program : Instructions} {m m' : InitializedDataMemory B} {sid : Sid}
    (hassigned : m.assignedShardId = some sid)
    (honly : ∀ v s, (m.getShard (v, s)).isSome → s = sid) (h : Executed add program m m') (v : Vid) :
    m'.getShard (v, sid) =
      naive (ShardProcessor.calculate add) (fun v => m.getShard (v, sid)) program v := by
  obtain ⟨fetchOrder, saveOrder, ws, results, hr, rfl⟩ := h
  have hsees : ∀ k o, (∃ order, m.busRead order k = o) →
      Bus.Sees (Reads program) (fun v => m.getShard (v, sid)) k o := by
    rintro k o ⟨order, rfl⟩ -
    exact InitializedDataMemory.busRead_eq (honly k) order
  obtain ⟨-, happly, -⟩ := hr.post
    (Bus.wp_mono (execute_spec fetchOrder saveOrder program _) hsees fun _ _ h => h)
  rw [getShard_writes ws hassigned, happly]

/-- A peer that stores its shards of `D` and nothing else. -/
def holder (C : MdsCode UInt8 dataShardsCount w.inner.totalShardCount) (D : HashMap Vid (Data B))
    (i : Fin w.inner.totalShardCount) : InitializedDataMemory B where
  localStorage := Finmap.ofFinset D.keys fun v =>
    (shardStore C i D.lookup v).map fun x => Finmap.singleton ⟨i⟩ x
  toDistribute := ∅
  currentlyAssembled := ∅
  distribution := Finmap.singleton ⟨[]⟩ ⟨i⟩
  dataKnownLocations := ∅
  localId := ⟨[]⟩
  encoding := w

theorem getShard_holder (D : HashMap Vid (Data B)) (i : Fin w.inner.totalShardCount) (v : Vid)
    (s : Sid) :
    (holder C D i).getShard (v, s) = if s = ⟨i⟩ then shardStore C i D.lookup v else none := by
  simp only [InitializedDataMemory.getShard, holder, Finmap.lookup_ofFinset]
  cases hd : D.lookup v with
  | none => simp [shardStore, hd]
  | some d =>
    rw [if_pos (Finmap.mem_keys_iff.2 ⟨d, hd⟩)]
    simp [shardStore, hd, Finmap.lookup_singleton_ite]

theorem holder_holdsExactly (hw : w.inner.Implements C) (hB : 0 < B) (D : HashMap Vid (Data B))
    (i : Fin w.inner.totalShardCount) : HoldsExactly w D i (holder C D i) where
  assigned := Finmap.lookup_singleton_eq
  only v s h := by
    rw [getShard_holder] at h
    by_contra hs
    simp [hs] at h
  shard v d hd := by
    refine ⟨_, encode_eq hw hB d, ?_⟩
    rw [getShard_holder, if_pos rfl, lookup_codeword, dif_pos i.isLt]
    simp [shardStore, hd]
  absent v s hd := by
    rw [getShard_holder]
    simp [shardStore, hd]

/-- The run that visits the ids and the context by index. -/
def executed (add : UInt8 → UInt8 → UInt8) (program : Instructions)
    (m : InitializedDataMemory B) : InitializedDataMemory B :=
  (Bus.run (m.busRead default) (ShardProcessor.execute add default default program)).1.foldl
    (fun m w => m.busWrite w.1 w.2) m

theorem executed_spec (add : UInt8 → UInt8 → UInt8) (program : Instructions)
    (m : InitializedDataMemory B) : Executed add program m (executed add program m) :=
  ⟨default, default, _, _, .of_run (fun _ => ⟨default, rfl⟩) _, rfl⟩

/-! ## Linear operations act on shards as on data units -/

theorem calculate_shardOf (hlin : C.Commutes (· ^^^ ·)) (hadd : ∀ a b, add a b = a ^^^ b)
    {op : Operation (Data B)} (hop : op.IsLinear) (i : Fin w.inner.totalShardCount) :
    ShardProcessor.calculate add (op.mapOperands fun d => shardOf C d i) =
      shardOf C (Mock.calculate add op) i := by
  cases op with
  | plus o | sub o =>
    refine Shard.ext fun b => ?_
    have h := hlin (fun j => (chunk o.first j).bytes b) (fun j => (chunk o.second j).bytes b) i
    simp only [Operation.mapOperands, ShardProcessor.calculate, Mock.calculate, mapZip, shardOf,
      hadd, chunk] at h ⊢
    exact h.symm
  | inv o => rfl
  | nand o | nor o => exact absurd hop id

/-- The map `shardOf` for one position commutes with the operations of a linear program. -/
theorem calculate_shardOf_of_mem (hlin : C.Commutes (· ^^^ ·)) (hadd : ∀ a b, add a b = a ^^^ b)
    {program : Instructions} (hprog : ∀ ins ∈ program, ins.operation.IsLinear)
    (i : Fin w.inner.totalShardCount) : ∀ ins ∈ program, ∀ op : Operation (Data B),
      (op.IsLinear ↔ ins.operation.IsLinear) →
      ShardProcessor.calculate add (op.mapOperands fun d => shardOf C d i) =
        shardOf C (Mock.calculate add op) i :=
  fun ins hins _ hop => calculate_shardOf hlin hadd (hop.2 (hprog ins hins)) i

theorem HoldsShards.getShard (hw : w.inner.Implements C) (hB : 0 < B)
    {D : HashMap Vid (Data B)} {i : Fin w.inner.totalShardCount} {m : InitializedDataMemory B}
    (h : HoldsShards w D i m) {v : Vid} {x : Shard B} (hx : shardStore C i D.lookup v = some x) :
    m.getShard (v, ⟨i⟩) = some x := by
  obtain ⟨d, hd, rfl⟩ := Option.map_eq_some_iff.1 hx
  obtain ⟨shards, he, hs⟩ := h.shard v d hd
  rw [encode_eq hw hB] at he
  cases he
  rw [hs, lookup_codeword, dif_pos i.isLt]

/-- Where the local run of a linear program succeeds, its meaning on the shards of the data store
is the shards of the local result. -/
theorem HoldsShards.naive (hw : w.inner.Implements C) (hlin : C.Commutes (· ^^^ ·))
    (hadd : ∀ a b, add a b = a ^^^ b) (hB : 0 < B) {D D' : HashMap Vid (Data B)}
    {program : Program} (hprog : ∀ ins ∈ program.instructions, ins.operation.IsLinear)
    (hmock : Mock.executeOn add program D = .ok D') {i : Fin w.inner.totalShardCount}
    {m : InitializedDataMemory B} (h : HoldsShards w D i m) {v : Vid} {d : Data B}
    (hv : D'.lookup v = some d) :
    Processor.naive (ShardProcessor.calculate add) (fun v => m.getShard (v, ⟨i⟩))
      program.instructions v = some (shardOf C d i) := by
  obtain ⟨hpresent, hnaive⟩ := Mock.executeInstructions_ok hmock
  have hφ := calculate_shardOf_of_mem (B := B) hlin hadd hprog i
  refine naive_extend (fun v x hx => h.getShard hw hB hx) (hpresent.map hφ) v _ ?_
  change Processor.naive _ (fun v => (D.lookup v).map fun d => shardOf C d i) _ _ = _
  rw [naive_map hφ, hnaive]
  simp only [hv, Option.map_some]

/-- Peers that hold the shards of `d` decode to `d`, whichever two or more answer. -/
theorem decode_collect (hw : w.inner.Implements C) (hB : 0 < B)
    {peers : Fin w.inner.totalShardCount → InitializedDataMemory B} {v : Vid} {d : Data B}
    (h : ∀ i, (peers i).getShard (v, ⟨i⟩) = some (shardOf C d i)) {S : Finset Sid}
    (hcard : dataShardsCount ≤ S.card) (hS : ∀ s ∈ S, s.val < w.inner.totalShardCount) :
    w.decode (collect peers v S) = .ok d := by
  have hlookup : ∀ s ∈ S, (collect peers v S).lookup s = (codeword C d).lookup s := by
    intro s hs
    rw [collect, Finmap.lookup_ofFinset, if_pos hs, dif_pos (hS s hs), h, lookup_codeword,
      dif_pos (hS s hs)]
  refine decode_codeword hw hB ?_ fun s x hx => ?_
  · refine hcard.trans (Finset.card_le_card fun s hs =>
      Finmap.mem_keys_iff.2 ⟨shardOf C d ⟨s.val, hS s hs⟩, ?_⟩)
    rw [hlookup s hs, lookup_codeword, dif_pos (hS s hs)]
  · by_cases hs : s ∈ S
    · rw [← hlookup s hs, hx]
    · rw [collect, Finmap.lookup_ofFinset, if_neg hs] at hx
      cases hx

/-- **Refinement**: where the local run of a linear program succeeds, the peers that start
with the shards of its data store end with shards of its result, and any two or more of them
decode to it. -/
theorem distributed_refines_local (hw : w.inner.Implements C) (hlin : C.Commutes (· ^^^ ·))
    (hadd : ∀ a b, add a b = a ^^^ b) (hB : 0 < B) {D D' : HashMap Vid (Data B)}
    {program : Program} (hprog : ∀ ins ∈ program.instructions, ins.operation.IsLinear)
    (hmock : Mock.executeOn add program D = .ok D')
    {peers peers' : Fin w.inner.totalShardCount → InitializedDataMemory B}
    (hpeers : ∀ i : Fin w.inner.totalShardCount, HoldsShards w D i (peers i))
    (hrun : ∀ i, Executed add program.instructions (peers i) (peers' i)) {v : Vid} {d : Data B}
    (hv : D'.lookup v = some d) {S : Finset Sid} (hcard : 2 ≤ S.card)
    (hS : ∀ s ∈ S, s.val < w.inner.totalShardCount) :
    w.decode (collect peers' v S) = .ok d := by
  refine decode_collect hw hB (fun i => ?_) hcard hS
  rw [(hrun i).getShard (hpeers i).assigned (hpeers i).only]
  exact (hpeers i).naive hw hlin hadd hB hprog hmock hv

section Sample

open OneParity

/-- One data unit, `1` in the first byte. -/
def unit : Data 4 := ⟨![1, 0, 0, 0, 0, 0, 0, 0]⟩

/-- The unit at address 0. -/
def unitStore : HashMap Vid (Data 4) := Finmap.singleton ⟨0⟩ unit

/-- Overwrites address 0 and fills address 1. -/
def doubling : Program :=
  ⟨[⟨.plus ⟨⟨0⟩, ⟨0⟩⟩, ⟨1⟩⟩, ⟨.sub ⟨⟨1⟩, ⟨0⟩⟩, ⟨0⟩⟩], ⟨⟨fun _ => 0⟩, ⟨fun _ => 0⟩⟩⟩

theorem distributed_refines_local_doubling :
    wrapper.decode (collect (n := wrapper.inner.totalShardCount)
      (fun i => executed (· ^^^ ·) doubling.instructions (holder (w := wrapper) code unitStore i))
      ⟨0⟩ {⟨0⟩, ⟨2⟩}) = .ok unit :=
  distributed_refines_local coder_implements code_commutes (fun _ _ => rfl) (by decide)
    (show ∀ ins ∈ doubling.instructions, ins.operation.IsLinear by decide)
    (show Mock.executeOn (· ^^^ ·) doubling unitStore = .ok _ from rfl)
    (fun i => (holder_holdsExactly coder_implements (by decide) unitStore i).toHoldsShards)
    (fun i => executed_spec _ _ _) (by decide +kernel) (by decide) (by decide)

end Sample

/-! ## Quorums under the whole instruction set -/

/-- Each `Vid` is either held by no peer or decoded to the same data unit by every two or more. -/
def QuorumsAgree (w : ReedSolomonWrapper)
    (peers : Fin w.inner.totalShardCount → InitializedDataMemory B) : Prop :=
  ∀ v, (∀ i, (peers i).getShard (v, ⟨i⟩) = none) ∨
    ∃ d, ∀ S : Finset Sid, 2 ≤ S.card → (∀ s ∈ S, s.val < w.inner.totalShardCount) →
      w.decode (collect peers v S) = .ok d

def nandByte (a b : UInt8) : UInt8 := if a == 0 || b == 0 then 1 else 0

def norByte (a b : UInt8) : UInt8 := if a == 0 && b == 0 then 1 else 0

/-- At every byte, the gate on the parity bytes is the parity of the gate on the data bytes. -/
def GateAligned (C : MdsCode UInt8 dataShardsCount w.inner.totalShardCount)
    (gate : UInt8 → UInt8 → UInt8) (o : BinaryOp (Data B)) : Prop :=
  ∀ (i : Fin w.inner.totalShardCount) (b : Fin B), dataShardsCount ≤ i.val →
    gate (C.encode (fun j => (chunk o.first j).bytes b) i)
        (C.encode (fun j => (chunk o.second j).bytes b) i) =
      C.encode (fun j => gate ((chunk o.first j).bytes b) ((chunk o.second j).bytes b)) i

/-- Every Nand and Nor of the program, on the values the local run has for its operands, is
aligned. -/
def GatesAligned (C : MdsCode UInt8 dataShardsCount w.inner.totalShardCount)
    (add : UInt8 → UInt8 → UInt8) : (Vid → Option (Data B)) → Instructions → Prop
  | _, [] => True
  | M, ins :: program =>
    (∀ op, ins.operation.fetch M = some op → match op with
      | .nand o => GateAligned C nandByte o
      | .nor o => GateAligned C norByte o
      | _ => True) ∧
    GatesAligned C add (naiveStep (Mock.calculate add) M ins) program

/-- A gate on the shards of one position, against the shards of the gate on the data units. -/
theorem gate_shardOf_iff {gate : UInt8 → UInt8 → UInt8} {o : BinaryOp (Data B)} :
    (∀ i : Fin w.inner.totalShardCount,
      (⟨mapZip (shardOf C o.first i).bytes (shardOf C o.second i).bytes gate⟩ : Shard B) =
        shardOf C ⟨mapZip o.first.bytes o.second.bytes gate⟩ i) ↔
      GateAligned C gate o := by
  constructor
  · intro h i b _
    exact congrFun (congrArg Shard.bytes (h i)) b
  · intro h i
    refine Shard.ext fun b => ?_
    change gate _ _ = C.encode (fun j => gate _ _) i
    by_cases hi : dataShardsCount ≤ i.val
    · exact h i b hi
    · obtain ⟨j, rfl⟩ : ∃ j : Fin dataShardsCount, i = j.castLE C.le := ⟨⟨i, by omega⟩, rfl⟩
      simp only [shardOf, C.systematic]
      rfl

theorem calculate_nand (o : BinaryOp (Shard B)) :
    ShardProcessor.calculate add (.nand o) = ⟨mapZip o.first.bytes o.second.bytes nandByte⟩ := by
  refine Shard.ext fun b => ?_
  simp only [ShardProcessor.calculate, mapZip, nandByte]
  by_cases h₁ : o.first.bytes b = 0 <;> by_cases h₂ : o.second.bytes b = 0 <;>
    simp [h₁, h₂, Bool.toUInt8]

theorem calculate_nor (o : BinaryOp (Shard B)) :
    ShardProcessor.calculate add (.nor o) = ⟨mapZip o.first.bytes o.second.bytes norByte⟩ := by
  refine Shard.ext fun b => ?_
  simp only [ShardProcessor.calculate, mapZip, norByte]
  by_cases h₁ : o.first.bytes b = 0 <;> by_cases h₂ : o.second.bytes b = 0 <;>
    simp [h₁, h₂, Bool.toUInt8]

/-- An instruction that the code respects: on shards it gives the shard of what it gives on
data units. -/
def Respects (C : MdsCode UInt8 dataShardsCount w.inner.totalShardCount)
    (add : UInt8 → UInt8 → UInt8) (op : Operation (Data B)) : Prop :=
  ∀ i : Fin w.inner.totalShardCount,
    ShardProcessor.calculate add (op.mapOperands fun d => shardOf C d i) =
      shardOf C (Mock.calculate add op) i

theorem respects_iff (hlin : C.Commutes (· ^^^ ·)) (hadd : ∀ a b, add a b = a ^^^ b)
    (op : Operation (Data B)) : Respects C add op ↔ match op with
      | .nand o => GateAligned C nandByte o
      | .nor o => GateAligned C norByte o
      | _ => True := by
  cases op with
  | nand o =>
    simp only [Respects, Operation.mapOperands, calculate_nand]
    exact gate_shardOf_iff
  | nor o =>
    simp only [Respects, Operation.mapOperands, calculate_nor]
    exact gate_shardOf_iff
  | sub o | plus o | inv o => exact iff_true_intro fun i => calculate_shardOf hlin hadd (by trivial) i

/-- The step of a respected instruction, on the shards. -/
theorem naiveStep_shardStore {M : Vid → Option (Data B)} {ins : Instruction Vid Vid}
    (h : ∀ op, ins.operation.fetch M = some op → Respects C add op)
    (i : Fin w.inner.totalShardCount) :
    naiveStep (ShardProcessor.calculate add) (shardStore C i M) ins =
      shardStore C i (naiveStep (Mock.calculate add) M ins) := by
  unfold naiveStep shardStore
  rw [Operation.fetch_map]
  cases hop : ins.operation.fetch M with
  | none => rfl
  | some op =>
    funext v
    simp only [Option.map_some, Function.update_apply, h op hop i]
    split <;> rfl

theorem HoldsExactly.getShard_eq (hw : w.inner.Implements C) (hB : 0 < B)
    {D : HashMap Vid (Data B)} {i : Fin w.inner.totalShardCount} {m : InitializedDataMemory B}
    (h : HoldsExactly w D i m) : (fun v => m.getShard (v, ⟨i⟩)) = shardStore C i D.lookup := by
  funext v
  cases hd : D.lookup v with
  | none => simp [shardStore, hd, h.absent v ⟨i⟩ hd]
  | some d => simp [shardStore, hd, h.getShard hw hB (v := v) (x := shardOf C d i) (by simp [shardStore, hd])]

/-- At the data positions every operation gives the shard of its result. -/
theorem calculate_data (hlin : C.Commutes (· ^^^ ·)) (hadd : ∀ a b, add a b = a ^^^ b)
    (op : Operation (Data B)) (j : Fin dataShardsCount) :
    ShardProcessor.calculate add (op.mapOperands fun d => shardOf C d (j.castLE C.le)) =
      shardOf C (Mock.calculate add op) (j.castLE C.le) := by
  cases op with
  | sub o | plus o | inv o => exact calculate_shardOf hlin hadd (by trivial) _
  | nand o =>
    simp only [Operation.mapOperands, calculate_nand, shardOf, C.systematic]
    rfl
  | nor o =>
    simp only [Operation.mapOperands, calculate_nor, shardOf, C.systematic]
    rfl

theorem shardOf_data (d : Data B) (j : Fin dataShardsCount) :
    shardOf C d (j.castLE C.le) = chunk d j := by
  refine Shard.ext fun b => ?_
  simp only [shardOf, C.systematic]

/-- An operation whose results form a codeword is respected. -/
theorem respects_of_codeword (hlin : C.Commutes (· ^^^ ·)) (hadd : ∀ a b, add a b = a ^^^ b)
    {op : Operation (Data B)} {d : Data B}
    (h : ∀ i, ShardProcessor.calculate add (op.mapOperands fun d => shardOf C d i) =
      shardOf C d i) : Respects C add op := by
  have hd : d = Mock.calculate add op := chunk_injective fun j => by
    rw [← shardOf_data (C := C), ← h, calculate_data hlin hadd, shardOf_data]
  exact fun i => by rw [h, hd]

/-- Each `Vid` has no shard in the family, or one codeword. -/
def Agree (C : MdsCode UInt8 dataShardsCount w.inner.totalShardCount)
    (F : Fin w.inner.totalShardCount → Vid → Option (Shard B)) : Prop :=
  ∀ v, (∀ i, F i v = none) ∨ ∃ d, ∀ i, F i v = some (shardOf C d i)

theorem agree_shardStore (M : Vid → Option (Data B)) : Agree C fun i => shardStore C i M := by
  intro v
  cases h : M v with
  | none => exact .inl fun i => by simp [shardStore, h]
  | some d => exact .inr ⟨d, fun i => by simp [shardStore, h]⟩

/-- The family of shards agrees after each prefix of the program exactly when every gate is
aligned. -/
theorem agree_iff (hlin : C.Commutes (· ^^^ ·)) (hadd : ∀ a b, add a b = a ^^^ b)
    (M : Vid → Option (Data B)) (program : Instructions) :
    (∀ q, q <+: program →
      Agree C fun i => naive (ShardProcessor.calculate add) (shardStore C i M) q) ↔
      GatesAligned C add M program := by
  induction program generalizing M with
  | nil =>
    refine iff_of_true (fun q hq => ?_) trivial
    rw [List.prefix_nil.1 hq]
    exact agree_shardStore M
  | cons ins program ih =>
    simp only [GatesAligned, ← respects_iff hlin hadd]
    constructor
    · intro h
      have hop : ∀ op, ins.operation.fetch M = some op → Respects C add op := by
        intro op hop
        have hfetch : ∀ i, ins.operation.fetch (shardStore C i M) =
            some (op.mapOperands fun d => shardOf C d i) := fun i =>
          (Operation.fetch_map _ M _).trans (by rw [hop]; rfl)
        have h1 := h [ins] (List.prefix_append [ins] program) ins.result
        simp only [naive_cons, naive_nil, naiveStep_result (hfetch _)] at h1
        rcases h1 with h1 | ⟨d, hd⟩
        · cases h1 ⟨0, lt_of_lt_of_le (by decide) C.le⟩
        · exact respects_of_codeword hlin hadd fun i => Option.some.inj (hd i)
      refine ⟨hop, (ih _).1 fun q hq => ?_⟩
      have hrest := h (ins :: q) (List.cons_prefix_cons.2 ⟨rfl, hq⟩)
      simpa only [naive_cons, naiveStep_shardStore hop] using hrest
    · rintro ⟨hop, hrest⟩ q hq
      rcases List.prefix_cons_iff.1 hq with rfl | ⟨t, rfl, ht⟩
      · exact agree_shardStore M
      · simpa only [naive_cons, naiveStep_shardStore hop] using (ih _).2 hrest t ht

/-! ## Quorums and codewords -/

theorem mem_collect {n : Nat} {peers : Fin n → InitializedDataMemory B} {v : Vid} {S : Finset Sid}
    {s : Sid} (h : s ∈ (collect peers v S).keys) : s ∈ S ∧ s.val < n := by
  obtain ⟨x, hx⟩ := Finmap.mem_keys_iff.1 h
  rw [collect, Finmap.lookup_ofFinset] at hx
  by_cases hs : s ∈ S
  · rw [if_pos hs] at hx
    by_cases hn : s.val < n
    · exact ⟨hs, hn⟩
    · rw [dif_neg hn] at hx
      cases hx
  · rw [if_neg hs] at hx
    cases hx

/-- If every two or more shards decode to `d`, each peer holds its shard of `d`. -/
theorem getShard_of_decode (hw : w.inner.Implements C) (hB : 0 < B)
    {peers : Fin w.inner.totalShardCount → InitializedDataMemory B} {v : Vid} {d : Data B}
    (h : ∀ S : Finset Sid, 2 ≤ S.card → (∀ s ∈ S, s.val < w.inner.totalShardCount) →
      w.decode (collect peers v S) = .ok d) (i : Fin w.inner.totalShardCount) :
    (peers i).getShard (v, ⟨i⟩) = some (shardOf C d i) := by
  have h2 : 2 ≤ w.inner.totalShardCount := C.le
  obtain ⟨j, hj⟩ : ∃ j : Fin w.inner.totalShardCount, j ≠ i := by
    by_cases hi : i.val = 0
    · exact ⟨⟨1, by omega⟩, fun e => by rw [← e] at hi; cases hi⟩
    · exact ⟨⟨0, by omega⟩, fun e => hi (by rw [← e])⟩
  have hne : (⟨j⟩ : Sid) ≠ ⟨i⟩ := fun e => hj (Fin.ext (Sid.mk.inj e))
  let S : Finset Sid := {⟨j⟩, ⟨i⟩}
  have hS : S.card = 2 := Finset.card_pair hne
  have hdec := h S hS.ge (by
    intro s hs
    rcases Finset.mem_insert.1 hs with rfl | hs
    · exact j.isLt
    · rw [Finset.mem_singleton.1 hs]; exact i.isLt)
  have hkeys : ∀ s ∈ (collect peers v S).keys, s.val < w.inner.totalShardCount :=
    fun s hs => (mem_collect hs).2
  have hsub : (collect peers v S).keys ⊆ S := fun s hs => (mem_collect hs).1
  have hlen : (collect peers v S).len = dataShardsCount := by
    refine le_antisymm ((Finset.card_le_card hsub).trans hS.le) (not_lt.1 fun hlt => ?_)
    obtain ⟨e, he⟩ := decode_tooFew hw hkeys hlt
    rw [hdec] at he
    cases he
  obtain ⟨d', hd', hword⟩ := decode_two hw hB hkeys hlen
  rw [hdec] at hd'
  cases hd'
  have hall : (collect peers v S).keys = S := Finset.eq_of_subset_of_card_le hsub
    (by rw [hS]; exact hlen.ge)
  obtain ⟨x, hx⟩ := Finmap.mem_keys_iff.1
    (show (⟨i⟩ : Sid) ∈ (collect peers v S).keys by rw [hall]; simp [S])
  have hcw := hword _ _ hx
  rw [lookup_codeword, dif_pos i.isLt] at hcw
  rw [collect, Finmap.lookup_ofFinset, if_pos (by simp [S]), dif_pos i.isLt] at hx
  rw [hx, ← hcw]

theorem quorumsAgree_iff_agree (hw : w.inner.Implements C) (hB : 0 < B)
    (peers : Fin w.inner.totalShardCount → InitializedDataMemory B) :
    QuorumsAgree w peers ↔ Agree C fun i v => (peers i).getShard (v, ⟨i⟩) := by
  constructor
  · intro h v
    rcases h v with h | ⟨d, hd⟩
    · exact .inl h
    · exact .inr ⟨d, getShard_of_decode hw hB hd⟩
  · intro h v
    rcases h v with h | ⟨d, hd⟩
    · exact .inl h
    · exact .inr ⟨d, fun S hcard hS => decode_collect hw hB hd hcard hS⟩

/-- **Quorums**: after every prefix of the program any two or more shards of a `Vid` decode to
the same data unit, exactly when the gates of the program are aligned with the parity. -/
theorem quorums_agree_iff (hw : w.inner.Implements C) (hlin : C.Commutes (· ^^^ ·))
    (hadd : ∀ a b, add a b = a ^^^ b) (hB : 0 < B) {D : HashMap Vid (Data B)}
    {peers : Fin w.inner.totalShardCount → InitializedDataMemory B}
    (hpeers : ∀ i : Fin w.inner.totalShardCount, HoldsExactly w D i (peers i))
    (program : Instructions) :
    (∀ q, q <+: program → ∀ peers' : Fin w.inner.totalShardCount → InitializedDataMemory B,
      (∀ i, Executed add q (peers i) (peers' i)) → QuorumsAgree w peers') ↔
      GatesAligned C add D.lookup program := by
  have hfinal : ∀ q (peers' : Fin w.inner.totalShardCount → InitializedDataMemory B),
      (∀ i, Executed add q (peers i) (peers' i)) →
      (fun (i : Fin w.inner.totalShardCount) v => (peers' i).getShard (v, ⟨i⟩)) =
        fun i => naive (ShardProcessor.calculate add) (shardStore C i D.lookup) q := by
    intro q peers' hrun
    funext i v
    rw [(hrun i).getShard (hpeers i).assigned (hpeers i).only, (hpeers i).getShard_eq hw hB]
  rw [← agree_iff hlin hadd]
  constructor
  · intro h q hq
    have hrun := fun i => executed_spec add q (peers i)
    rw [← hfinal q _ hrun]
    exact (quorumsAgree_iff_agree hw hB _).1 (h q hq _ hrun)
  · intro h q hq peers' hrun
    rw [quorumsAgree_iff_agree hw hB, hfinal q peers' hrun]
    exact h q hq

theorem quorums_agree_iff_nand :
    (∀ q, q <+: [⟨.nand ⟨⟨0⟩, ⟨0⟩⟩, ⟨1⟩⟩] →
      ∀ peers' : Fin OneParity.wrapper.inner.totalShardCount → InitializedDataMemory 4,
      (∀ i, Executed (· ^^^ ·) q (holder (w := OneParity.wrapper) OneParity.code unitStore i)
        (peers' i)) → QuorumsAgree OneParity.wrapper peers') ↔
      GatesAligned (w := OneParity.wrapper) OneParity.code (· ^^^ ·) unitStore.lookup
        [⟨.nand ⟨⟨0⟩, ⟨0⟩⟩, ⟨1⟩⟩] :=
  quorums_agree_iff OneParity.coder_implements OneParity.code_commutes (fun _ _ => rfl) (by decide)
    (fun i => holder_holdsExactly OneParity.coder_implements (by decide) unitStore i) _

/-- Three peers hold the unit and run `Nand 0 0 => 1`: the data shards and a data shard with
the parity shard decode to different results. -/
theorem nand_splits_quorums :
    (∀ i, HoldsExactly OneParity.wrapper unitStore i.val
      (holder (w := OneParity.wrapper) OneParity.code unitStore i)) ∧
    AllPresent (Mock.calculate (· ^^^ ·)) unitStore.lookup [⟨.nand ⟨⟨0⟩, ⟨0⟩⟩, ⟨1⟩⟩] ∧
    ∃ peers' : Fin OneParity.wrapper.inner.totalShardCount → InitializedDataMemory 4,
      (∀ i, Executed (· ^^^ ·) [⟨.nand ⟨⟨0⟩, ⟨0⟩⟩, ⟨1⟩⟩]
        (holder (w := OneParity.wrapper) OneParity.code unitStore i) (peers' i)) ∧
      OneParity.wrapper.decode (collect peers' ⟨1⟩ {⟨0⟩, ⟨1⟩}) ≠
        OneParity.wrapper.decode (collect peers' ⟨1⟩ {⟨0⟩, ⟨2⟩}) :=
  ⟨fun i => holder_holdsExactly OneParity.coder_implements (by decide) unitStore i,
    ⟨rfl, trivial⟩, _, fun i => executed_spec _ _ _, by decide +kernel⟩

end Swarm.Processor
