import Mathlib.Data.Fintype.Pi
import Mathlib.Data.Fintype.Basic
import Mathlib.Data.List.Lex
import Swarm.Lib.Finmap

/-!
# Identifiers and units of data

`Vid` and `Sid` wrap a `u64` that the program only compares and uses as an
index; they are natural numbers here. An array `[u8; n]` is a function on
`Fin n`. `B` is `SHARD_BYTES_NUMBER`, which the build features set to 4, 64 or
2^14.
-/

namespace Swarm

/-- Identifier of a whole data unit, such as a memory address. -/
structure Vid where
  val : Nat
  deriving DecidableEq

/-- Identifier of a shard: its index among the shards of a data unit. -/
structure Sid where
  val : Nat
  deriving DecidableEq

theorem Vid.mk_val (v : Vid) : Vid.mk v.val = v := rfl

theorem Sid.mk_val (s : Sid) : Sid.mk s.val = s := rfl

instance : Inhabited (KeyOrder Vid) := ⟨.ofEquiv ⟨Vid.val, Vid.mk, Vid.mk_val, fun _ => rfl⟩⟩

instance : Inhabited (KeyOrder Sid) := ⟨.ofEquiv ⟨Sid.val, Sid.mk, Sid.mk_val, fun _ => rfl⟩⟩

/-- A peer: the bytes of its multihash. -/
structure PeerId where
  bytes : List UInt8
  deriving DecidableEq

theorem PeerId.toNat_injective :
    Function.Injective fun p : PeerId => p.bytes.map UInt8.toNat := by
  intro p q h
  cases p; cases q
  exact congrArg PeerId.mk (List.map_injective_iff.2 (fun _ _ => UInt8.toNat_inj.1) h)

instance : Inhabited (KeyOrder PeerId) := ⟨.ofRank _ PeerId.toNat_injective⟩

/-- A Blake2b digest or an event hash. -/
structure Hash where
  inner : Fin 64 → UInt8
  deriving Inhabited

instance : DecidableEq Hash := fun x y =>
  decidable_of_iff (∀ b, x.inner b = y.inner b)
    ⟨fun h => congrArg Hash.mk (funext h), fun h _ => h ▸ rfl⟩

def Hash.fromArray (inner : Fin 64 → UInt8) : Hash := ⟨inner⟩

abbrev dataShardsCount : Nat := 2

structure Shard (B : Nat) where
  bytes : Fin B → UInt8

structure Data (B : Nat) where
  bytes : Fin (dataShardsCount * B) → UInt8

abbrev FullShardId := Vid × Sid

@[ext] theorem Shard.ext {B : Nat} {x y : Shard B} (h : ∀ b, x.bytes b = y.bytes b) : x = y := by
  cases x; cases y
  simpa [funext_iff] using h

@[ext] theorem Data.ext {B : Nat} {x y : Data B} (h : ∀ b, x.bytes b = y.bytes b) : x = y := by
  cases x; cases y
  simpa [funext_iff] using h

instance {B : Nat} : DecidableEq (Shard B) := fun x y =>
  decidable_of_iff (∀ b, x.bytes b = y.bytes b) ⟨Shard.ext, fun h _ => h ▸ rfl⟩

instance {B : Nat} : DecidableEq (Data B) := fun x y =>
  decidable_of_iff (∀ b, x.bytes b = y.bytes b) ⟨Data.ext, fun h _ => h ▸ rfl⟩

/-- `map_zip`: apply `f` to two arrays, element by element. -/
def mapZip {T : Type} {n : Nat} (a b : Fin n → T) (f : T → T → T) : Fin n → T :=
  fun i => f (a i) (b i)

end Swarm
