import Mathlib.Algebra.Group.Nat.Defs
import Mathlib.Data.List.Defs

/-!
# Ed25519

The curve `-x² + y² = 1 + d x² y²` over the integers modulo `p = 2^255 - 19`, the
encoding of its points in 32 bytes, and the equation that a signature has to meet.
The digest of the signed text is a parameter. The neutral point is a key like any
other: under it, one signature meets the equation for every text.
-/

namespace Ed25519

/-- `b ^ e` modulo `m`, for `e` below `2 ^ bits`. -/
def powMod (m : Nat) : (bits b e : Nat) → Nat
  | 0, _, _ => 1 % m
  | bits + 1, b, e =>
    let r := powMod m bits (b * b % m) (e / 2)
    if e % 2 = 1 then b * r % m else r

def p : Nat := 2 ^ 255 - 19

/-- `-121665 / 121666`. -/
def d : Nat := 37095705934669439343138083508754565189542113879843219016388785533085940283555

def sqrtMinusOne : Nat :=
  19681161376707505956807079304988542015446066515923890162744021073123829784752

/-- The order of the base point. -/
def order : Nat := 2 ^ 252 + 27742317777372353535851937790883648493

def inv (a : Nat) : Nat := powMod p 256 a (p - 2)

/-! ## Points -/

structure Point where
  x : Nat
  y : Nat
  deriving DecidableEq

def Point.neutral : Point := ⟨0, 1⟩

def basePoint : Point where
  x := 15112221349535400772501151409588531511454012693041857206046113283949847762202
  y := 46316835694926478169428394003475163141307993866256225615783033603165251855960

def neg (P : Point) : Point := ⟨(p - P.x) % p, P.y⟩

def add (P Q : Point) : Point :=
  let t := d * (P.x * Q.x % p) * (P.y * Q.y % p) % p
  { x := (P.x * Q.y + P.y * Q.x) * inv (1 + t) % p
    y := (P.y * Q.y + P.x * Q.x) * inv (1 + (p - t)) % p }

/-- `n` times `P`, for `n` below `2 ^ bits`. -/
def mul : (bits n : Nat) → Point → Point
  | 0, _, _ => .neutral
  | bits + 1, n, P =>
    let r := mul bits (n / 2) (add P P)
    if n % 2 = 1 then add P r else r

/-! ## Bytes -/

def fromBytes (bytes : List UInt8) : Nat := bytes.foldr (fun b n => b.toNat + 256 * n) 0

def toBytes (n : Nat) : List UInt8 := (List.range 32).map fun i => UInt8.ofNat (n / 256 ^ i)

def compress (P : Point) : List UInt8 := toBytes (P.y + 2 ^ 255 * (P.x % 2))

/-- The point with the encoded `y` and the sign of `x` in the top bit, if there is one. -/
def decompress (bytes : List UInt8) : Option Point :=
  let n := fromBytes bytes
  let y := n % 2 ^ 255 % p
  let xx := (y * y + (p - 1)) * inv (d * (y * y % p) + 1) % p
  let r := powMod p 256 xx ((p + 3) / 8)
  let r := if r * r % p = xx then r else r * sqrtMinusOne % p
  if r * r % p = xx then
    let x := if r % 2 = 0 then r else p - r
    some ⟨if n / 2 ^ 255 = 0 then x else (p - x) % p, y⟩
  else none

/-! ## Signatures -/

/-- The check of a signature `R ++ s`: the encoding of `s B - k A` is `R`, where `k` is the
digest of `R`, the key and the text. -/
def verify (digest : List UInt8 → List UInt8) (key : List UInt8) (A : Point)
    (text signature : List UInt8) : Bool :=
  let R := signature.take 32
  let s := fromBytes (signature.drop 32)
  let k := fromBytes (digest (R ++ key ++ text)) % order
  decide (s < order) && compress (add (mul 256 s basePoint) (mul 256 k (neg A))) = R

theorem add_neutral : add .neutral .neutral = .neutral := by decide +kernel

theorem mul_neutral (bits n : Nat) : mul bits n .neutral = .neutral := by
  induction bits generalizing n with
  | zero => rfl
  | succ bits ih =>
    rw [mul, add_neutral, ih]
    split
    · exact add_neutral
    · rfl

theorem mul_zero (bits : Nat) (P : Point) : mul bits 0 P = .neutral := by
  induction bits generalizing P with
  | zero => rfl
  | succ bits ih =>
    rw [mul, Nat.zero_div, ih, Nat.zero_mod, if_neg (by decide)]

/-- The neutral point, followed by zero. -/
def neutralSignature : List UInt8 := compress .neutral ++ List.replicate 32 0

/-- **A signature for every text**: nothing of the digest is left in the equation of the neutral
key. -/
theorem verify_neutral (digest : List UInt8 → List UInt8) (key text : List UInt8) :
    verify digest key .neutral text neutralSignature = true := by
  have hs : fromBytes (neutralSignature.drop 32) = 0 := by decide +kernel
  have hR : compress .neutral = neutralSignature.take 32 := by decide +kernel
  have hneg : neg .neutral = .neutral := by decide +kernel
  simp only [verify, hs, hneg, mul_neutral, mul_zero, add_neutral, ← hR]
  decide +kernel

end Ed25519
