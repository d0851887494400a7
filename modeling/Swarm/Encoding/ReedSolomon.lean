import Mathlib.Data.List.OfFn
import Mathlib.Algebra.BigOperators.Fin
import Swarm.Lib.Machine
import Swarm.Lib.Mds
import Swarm.Types

/-!
# The Reed-Solomon wrapper

`ReedSolomonWrapper` splits a data unit into two shards, has the
`reed-solomon-erasure` crate add the parity shards, and rebuilds a data unit
from any two shards. The crate is not part of the repository: `ReedSolomon` is
its coder object with the two methods the wrapper calls, and
`ReedSolomon.Implements` is what its documentation promises, for a systematic
MDS code `C` on bytes.
-/

namespace Swarm.Encoding

/-- The coder of `reed_solomon_erasure::galois_8`. Both methods update their
argument in place; errors are their messages. -/
structure ReedSolomon where
  dataShardCount : Nat
  parityShardCount : Nat
  encode : {B : Nat} → List (Fin B → UInt8) → Except String (List (Fin B → UInt8))
  reconstruct : List (Option (List UInt8)) → Except String (List (Option (List UInt8)))

def ReedSolomon.totalShardCount (rs : ReedSolomon) : Nat :=
  rs.dataShardCount + rs.parityShardCount

structure ReedSolomonWrapper where
  inner : ReedSolomon

structure Settings where
  dataShardsTotal : Nat
  dataShardsSufficient : Nat

inductive Error where
  | reedSolomon (message : String)
  | wrongShardId
  deriving DecidableEq

/-! ## The data unit as shards -/

variable {B : Nat}

/-- The `j`-th chunk of `B` bytes. -/
def chunk (d : Data B) (j : Fin dataShardsCount) : Shard B :=
  ⟨fun b => d.bytes ⟨j * B + b, by
    calc j * B + b < j * B + B := by omega
      _ = (j + 1) * B := by rw [Nat.add_mul, Nat.one_mul]
      _ ≤ dataShardsCount * B := Nat.mul_le_mul_right B j.isLt⟩⟩

/-- `data.0.chunks(SHARD_BYTES_NUMBER)`. -/
def chunks (d : Data B) : List (Shard B) := List.ofFn (chunk d)

/-- `Data(bytes.try_into().unwrap())`. -/
def dataOfBytes (bytes : List UInt8) : Outcome Error (Data B) :=
  if h : bytes.length = dataShardsCount * B then
    .ok ⟨fun b => bytes.get (b.cast h.symm)⟩
  else .panic

/-- `into_iter().enumerate()`, collected into a map from `Sid`s. -/
def enumerate (shards : List (Shard B)) : HashMap Sid (Shard B) :=
  (shards.zipIdx.map fun p => (⟨⟨p.2⟩, p.1⟩ : Sigma fun _ : Sid => Shard B)).toFinmap

namespace ReedSolomonWrapper

variable (w : ReedSolomonWrapper)

def settings : Settings where
  dataShardsTotal := w.inner.totalShardCount
  dataShardsSufficient := w.inner.dataShardCount

def encode (data : Data B) : Outcome Error (HashMap Sid (Shard B)) :=
  -- `chunks(0)` panics
  if B = 0 then .panic
  else
    let shards := chunks data
    if shards.length ≠ dataShardsCount then .panic
    else
      let parityShard : Shard B := ⟨fun _ => 0⟩
      let shards := shards ++ List.replicate w.inner.parityShardCount parityShard
      match w.inner.encode (shards.map Shard.bytes) with
      | .error e => .err (.reedSolomon e)
      | .ok shards => .ok (enumerate (shards.map Shard.mk))

/-- The shards at their positions, or `none` if a `Sid` is not a position. The
source fills the positions in the map's iteration order; each entry has its own
position, so the order does not show. -/
def place (shards : HashMap Sid (Shard B)) : Option (List (Option (List UInt8))) :=
  if ∀ s ∈ shards.keys, s.val < w.inner.totalShardCount then
    some (List.ofFn fun i : Fin w.inner.totalShardCount =>
      (shards.lookup ⟨i⟩).map fun shard => List.ofFn shard.bytes)
  else none

def decode (shards : HashMap Sid (Shard B)) : Outcome Error (Data B) :=
  match w.place shards with
  | none => .err .wrongShardId
  | some shardsVec =>
    match w.inner.reconstruct shardsVec with
    | .error e => .err (.reedSolomon e)
    | .ok shardsVec =>
      -- `option.unwrap()`, on the shards that `take` lets through
      match (shardsVec.take dataShardsCount).mapM id with
      | none => .panic
      | some data => dataOfBytes data.flatten

end ReedSolomonWrapper

/-! ## The crate's contract -/

section Contract

variable {n : Nat}

/-- Shard `i` of the data unit `d` in the code `C`, byte by byte. -/
def shardOf (C : MdsCode UInt8 dataShardsCount n) (d : Data B) (i : Fin n) : Shard B :=
  ⟨fun b => C.encode (fun j => (chunk d j).bytes b) i⟩

/-- The coder works on two data shards and realises the code `C` on every byte position. -/
structure ReedSolomon.Implements (rs : ReedSolomon)
    (C : MdsCode UInt8 dataShardsCount rs.totalShardCount) : Prop where
  data : rs.dataShardCount = dataShardsCount
  /-- Shards of one positive length are encoded; what the parity shards held is overwritten. -/
  encode : ∀ {B : Nat}, 0 < B → ∀ (data : Fin dataShardsCount → Fin B → UInt8)
    (parity : List (Fin B → UInt8)), parity.length = rs.parityShardCount →
    rs.encode (List.ofFn data ++ parity) =
      .ok (List.ofFn fun i b => C.encode (fun j => data j b) i)
  /-- Two or more shards of a codeword bring back the codeword. -/
  reconstruct : ∀ {B : Nat}, 0 < B → ∀ (msg : Fin B → Fin dataShardsCount → UInt8)
    (shards : Fin rs.totalShardCount → Option (List UInt8)),
    (∀ i x, shards i = some x → x = List.ofFn fun b => C.encode (msg b) i) →
    dataShardsCount ≤ (Finset.univ.filter fun i => (shards i).isSome).card →
    rs.reconstruct (List.ofFn shards) =
      .ok (List.ofFn fun i => some (List.ofFn fun b => C.encode (msg b) i))
  /-- Fewer than two shards are an error. -/
  tooFew : ∀ shards : Fin rs.totalShardCount → Option (List UInt8),
    (Finset.univ.filter fun i => (shards i).isSome).card < dataShardsCount →
    ∃ e, rs.reconstruct (List.ofFn shards) = .error e
  /-- A successful reconstruction leaves every position filled with a shard of the common size. -/
  filled : ∀ {B : Nat}, 0 < B → ∀ (shards : Fin rs.totalShardCount → Option (List UInt8))
    (r : List (Option (List UInt8))), (∀ i x, shards i = some x → x.length = B) →
    rs.reconstruct (List.ofFn shards) = .ok r →
    ∃ full : Fin rs.totalShardCount → List UInt8, (∀ i, (full i).length = B) ∧
      r = List.ofFn fun i => some (full i)

end Contract

/-! ## Chunks and bytes -/

theorem flatten_chunks (d : Data B) :
    (List.ofFn fun j => List.ofFn (chunk d j).bytes).flatten = List.ofFn d.bytes := by
  rw [List.ofFn_mul]
  rfl

theorem dataOfBytes_ofFn (d : Data B) : dataOfBytes (List.ofFn d.bytes) = .ok d := by
  unfold dataOfBytes
  rw [dif_pos (List.length_ofFn ..)]
  congr 1
  ext b
  simp

theorem dataOfBytes_length {bytes : List UInt8} (h : bytes.length = dataShardsCount * B) :
    ∃ d : Data B, dataOfBytes bytes = .ok d := by
  unfold dataOfBytes
  rw [dif_pos h]
  exact ⟨_, rfl⟩

theorem chunk_injective {d d' : Data B} (h : ∀ j, chunk d j = chunk d' j) : d = d' := by
  have e : List.ofFn d.bytes = List.ofFn d'.bytes := by
    rw [← flatten_chunks, ← flatten_chunks]
    simp only [h]
  exact Data.ext fun b => congrFun (List.ofFn_injective e) b

theorem mapM_some (l : List (List UInt8)) : (l.map some).mapM id = some l := by
  induction l with
  | nil => rfl
  | cons x l ih => rw [List.map_cons, List.mapM_cons, ih]; rfl

/-- The shards that `take` lets through, unwrapped. -/
theorem take_ofFn_some {k n : Nat} (h : k ≤ n) (full : Fin n → List UInt8) :
    (List.ofFn fun i => some (full i)).take k =
      (List.ofFn fun j : Fin k => full (j.castLE h)).map some := by
  rw [List.map_ofFn]
  refine List.ext_getElem? fun i => ?_
  rw [List.getElem?_take]
  by_cases hi : i < k
  · simp only [hi, ↓reduceIte, List.getElem?_ofFn, lt_of_lt_of_le hi h, ↓reduceDIte]
    rfl
  · simp [hi]

/-- The data unit with the given chunks. -/
def ofChunks (hB : 0 < B) (f : Fin dataShardsCount → Fin B → UInt8) : Data B :=
  ⟨fun i => f ⟨i / B, Nat.div_lt_of_lt_mul (i.isLt.trans_eq (Nat.mul_comm _ _))⟩
    ⟨i % B, Nat.mod_lt _ hB⟩⟩

@[simp] theorem chunk_ofChunks (hB : 0 < B) (f : Fin dataShardsCount → Fin B → UInt8)
    (j : Fin dataShardsCount) (b : Fin B) : (chunk (ofChunks hB f) j).bytes b = f j b := by
  have hdiv : (j * B + b) / B = (j : Nat) := by
    rw [Nat.mul_comm, Nat.mul_add_div hB, Nat.div_eq_of_lt b.isLt, Nat.add_zero]
  have hmod : (j * B + b) % B = (b : Nat) := by
    rw [Nat.mul_comm, Nat.mul_add_mod, Nat.mod_eq_of_lt b.isLt]
  simp only [chunk, ofChunks, hdiv, hmod]

theorem lookup_enumerate (shards : List (Shard B)) (s : Sid) :
    (enumerate shards).lookup s = shards[s.val]? := by
  have key : ∀ (l : List (Shard B)) (k : Nat),
      ((l.zipIdx k).map fun p => (⟨⟨p.2⟩, p.1⟩ : Sigma fun _ : Sid => Shard B)).dlookup s =
        if k ≤ s.val then l[s.val - k]? else none := by
    intro l
    induction l with
    | nil => intro k; simp
    | cons x l ih =>
      intro k
      rw [List.zipIdx_cons, List.map_cons]
      by_cases hk : s.val = k
      · obtain ⟨v⟩ := s
        simp only at hk
        subst hk
        simp
      · rw [List.dlookup_cons_ne _ _ (fun e => hk (by rw [e])), ih]
        by_cases hlt : k ≤ s.val
        · rw [if_pos hlt, if_pos (by omega)]
          obtain ⟨j, hj⟩ : ∃ j, s.val - k = j + 1 := ⟨s.val - k - 1, by omega⟩
          rw [hj, List.getElem?_cons_succ, show s.val - (k + 1) = j by omega]
        · rw [if_neg hlt, if_neg (by omega)]
  rw [enumerate, Finmap.dlookup_list_toFinmap, key shards 0]
  simp

/-! ## Encoding and decoding -/

section Spec

variable {w : ReedSolomonWrapper} {C : MdsCode UInt8 dataShardsCount w.inner.totalShardCount}

/-- The codeword of `d`, as the map that `encode` returns. -/
def codeword (C : MdsCode UInt8 dataShardsCount w.inner.totalShardCount) (d : Data B) :
    HashMap Sid (Shard B) :=
  enumerate (List.ofFn (shardOf C d))

theorem lookup_codeword (d : Data B) (s : Sid) :
    (codeword C d).lookup s =
      if h : s.val < w.inner.totalShardCount then some (shardOf C d ⟨s.val, h⟩) else none := by
  rw [codeword, lookup_enumerate, List.getElem?_ofFn]

theorem codeword_keys (d : Data B) (s : Sid) :
    s ∈ codeword C d ↔ s.val < w.inner.totalShardCount := by
  rw [← Finmap.lookup_isSome, lookup_codeword]
  split <;> simp_all

theorem encode_eq (hw : w.inner.Implements C) (hB : 0 < B) (d : Data B) :
    w.encode d = .ok (codeword C d) := by
  unfold ReedSolomonWrapper.encode
  have hlen : (chunks d).length = dataShardsCount := List.length_ofFn ..
  have henc := hw.encode hB (fun j => (chunk d j).bytes)
    ((List.replicate w.inner.parityShardCount (⟨fun _ => 0⟩ : Shard B)).map Shard.bytes) (by simp)
  have hmap : (chunks d ++ List.replicate w.inner.parityShardCount (⟨fun _ => 0⟩ : Shard B)).map
      Shard.bytes =
      (List.ofFn fun j => (chunk d j).bytes) ++
        (List.replicate w.inner.parityShardCount (⟨fun _ => 0⟩ : Shard B)).map Shard.bytes := by
    rw [List.map_append, chunks, List.map_ofFn]
    rfl
  simp only [Nat.pos_iff_ne_zero.1 hB, hlen, ne_eq, not_true_eq_false, ↓reduceIte, hmap, henc]
  rw [List.map_ofFn]
  rfl

/-- The positions of a map whose keys are all below the shard count. -/
theorem card_positions {shards : HashMap Sid (Shard B)} {n : Nat}
    (h : ∀ s ∈ shards.keys, s.val < n) :
    (Finset.univ.filter fun i : Fin n =>
      ((shards.lookup ⟨i⟩).map fun x => List.ofFn x.bytes).isSome).card = shards.len := by
  unfold Finmap.len
  refine Finset.card_bij (fun i _ => (⟨i⟩ : Sid)) ?_ ?_ ?_
  · intro i hi
    simp only [Finset.mem_filter, Finset.mem_univ, true_and, Option.isSome_map,
      Finmap.lookup_isSome] at hi
    exact Finmap.mem_keys.2 hi
  · intro i _ j _ e
    exact Fin.ext (Sid.mk.inj e)
  · intro s hs
    refine ⟨⟨s.val, h s hs⟩, ?_, rfl⟩
    simp only [Finset.mem_filter, Finset.mem_univ, true_and, Option.isSome_map,
      Finmap.lookup_isSome]
    exact Finmap.mem_keys.1 hs

theorem place_eq {shards : HashMap Sid (Shard B)}
    (h : ∀ s ∈ shards.keys, s.val < w.inner.totalShardCount) :
    w.place shards = some (List.ofFn fun i : Fin w.inner.totalShardCount =>
      (shards.lookup ⟨i⟩).map fun shard => List.ofFn shard.bytes) := if_pos h

/-- **Decoding**: any part of a codeword with two or more shards gives the data back. -/
theorem decode_codeword (hw : w.inner.Implements C) (hB : 0 < B) {d : Data B}
    {shards : HashMap Sid (Shard B)} (hlen : dataShardsCount ≤ shards.len)
    (hsub : ∀ s x, shards.lookup s = some x → (codeword C d).lookup s = some x) :
    w.decode shards = .ok d := by
  have hkeys : ∀ s ∈ shards.keys, s.val < w.inner.totalShardCount := by
    intro s hs
    obtain ⟨x, hx⟩ := Finmap.mem_keys_iff.1 hs
    exact (codeword_keys (C := C) d s).1 (Finmap.mem_of_lookup_eq_some (hsub s x hx))
  have hrec := hw.reconstruct hB (fun b j => (chunk d j).bytes b)
    (fun i => (shards.lookup ⟨i⟩).map fun x => List.ofFn x.bytes)
    (by
      intro i x hx
      obtain ⟨y, hy, rfl⟩ := Option.map_eq_some_iff.1 hx
      have := hsub _ _ hy
      rw [lookup_codeword, dif_pos i.isLt] at this
      cases this
      rfl)
    (by rw [card_positions hkeys]; exact hlen)
  unfold ReedSolomonWrapper.decode
  simp only [place_eq hkeys, hrec]
  have hsys : (fun j : Fin dataShardsCount => List.ofFn fun b =>
      C.encode (fun j => (chunk d j).bytes b) (j.castLE C.le)) =
      fun j => List.ofFn (chunk d j).bytes := by
    funext j
    congr 1
    funext b
    exact C.systematic (fun j => (chunk d j).bytes b) j
  rw [take_ofFn_some C.le, hsys]
  simp only [mapM_some]
  rw [flatten_chunks, dataOfBytes_ofFn]

/-- Two shards with distinct `Sid`s below the shard count belong to one codeword. -/
theorem exists_codeword (hB : 0 < B) {shards : HashMap Sid (Shard B)}
    (hkeys : ∀ s ∈ shards.keys, s.val < w.inner.totalShardCount)
    (hlen : shards.len = dataShardsCount) :
    ∃ d : Data B, ∀ s x, shards.lookup s = some x → (codeword C d).lookup s = some x := by
  let byteAt : Fin w.inner.totalShardCount → Fin B → UInt8 := fun i b =>
    ((shards.lookup ⟨i⟩).map fun x => x.bytes b).getD 0
  have hword : ∀ b, ∃ m, ∀ i ∈ Finset.univ.filter fun i : Fin w.inner.totalShardCount =>
      ((shards.lookup ⟨i⟩).map fun x => List.ofFn x.bytes).isSome, C.encode m i = byteAt i b :=
    fun b => C.exists_word (by rw [card_positions hkeys, hlen]) fun i => byteAt i b
  choose m hm using hword
  refine ⟨ofChunks hB fun j b => m b j, fun s x hx => ?_⟩
  have hs : s.val < w.inner.totalShardCount :=
    hkeys s (Finmap.mem_keys_iff.2 ⟨x, hx⟩)
  rw [lookup_codeword, dif_pos hs]
  congr 1
  refine Shard.ext fun b => ?_
  have := hm b ⟨s.val, hs⟩ (by simp [hx])
  simp only [shardOf, chunk_ofChunks, this, byteAt, hx, Option.map_some, Option.getD_some]

/-- Two shards decode to the data unit whose codeword they belong to. -/
theorem decode_two (hw : w.inner.Implements C) (hB : 0 < B) {shards : HashMap Sid (Shard B)}
    (hkeys : ∀ s ∈ shards.keys, s.val < w.inner.totalShardCount)
    (hlen : shards.len = dataShardsCount) :
    ∃ d : Data B, w.decode shards = .ok d ∧
      ∀ s x, shards.lookup s = some x → (codeword C d).lookup s = some x := by
  obtain ⟨d, hd⟩ := exists_codeword (C := C) hB hkeys hlen
  exact ⟨d, decode_codeword hw hB hlen.ge hd, hd⟩

theorem decode_tooFew (hw : w.inner.Implements C) {shards : HashMap Sid (Shard B)}
    (hkeys : ∀ s ∈ shards.keys, s.val < w.inner.totalShardCount)
    (hlen : shards.len < dataShardsCount) : ∃ e, w.decode shards = .err e := by
  obtain ⟨e, he⟩ := hw.tooFew (fun i => (shards.lookup ⟨i⟩).map fun x => List.ofFn x.bytes)
    (by rw [card_positions hkeys]; exact hlen)
  unfold ReedSolomonWrapper.decode
  simp only [place_eq hkeys, he]
  exact ⟨_, rfl⟩

/-- Decoding never panics, whatever the shards. -/
theorem decode_ne_panic (hw : w.inner.Implements C) (hB : 0 < B)
    (shards : HashMap Sid (Shard B)) : w.decode shards ≠ .panic := by
  unfold ReedSolomonWrapper.decode
  by_cases hkeys : ∀ s ∈ shards.keys, s.val < w.inner.totalShardCount
  · simp only [place_eq hkeys]
    split
    · simp
    · rename_i r hr
      obtain ⟨full, hfull, rfl⟩ := hw.filled hB _ r (by
        intro i x hx
        obtain ⟨y, -, rfl⟩ := Option.map_eq_some_iff.1 hx
        simp) hr
      have hlen : (List.ofFn fun j : Fin dataShardsCount => full (j.castLE C.le)).flatten.length =
          dataShardsCount * B := by
        rw [List.length_flatten, List.map_ofFn, List.sum_ofFn]
        simp only [Function.comp, hfull, Finset.sum_const, Finset.card_univ, Fintype.card_fin,
          smul_eq_mul]
      obtain ⟨d, hd⟩ := dataOfBytes_length hlen
      simp only [take_ofFn_some C.le, mapM_some, hd]
      simp
  · rw [ReedSolomonWrapper.place, if_neg hkeys]
    simp

end Spec

end Swarm.Encoding
