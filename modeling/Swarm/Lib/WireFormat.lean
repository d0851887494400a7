import Mathlib.Data.List.Basic
import Mathlib.Data.UInt

/-!
# Binary formats

A `WireFormat α` writes values of `α` as bytes and reads them back: what it
writes, followed by anything, is read as the same value, and the rest is left.
A value may be too large to be written. The combinators build formats of
records, lists and enumerations from formats of their parts.
-/

structure WireFormat (α : Type) where
  put : α → Option (List UInt8)
  get : List UInt8 → Option (α × List UInt8)
  get_put : ∀ {a : α} {bytes : List UInt8} (rest : List UInt8), put a = some bytes →
    get (bytes ++ rest) = some (a, rest)

namespace WireFormat

variable {α β : Type}

/-! ## Numbers -/

/-- The `w` lowest bytes of a number, lowest first. -/
def bytesOf : Nat → Nat → List UInt8
  | 0, _ => []
  | w + 1, n => UInt8.ofNat (n % 256) :: bytesOf w (n / 256)

def readBytes : Nat → List UInt8 → Option (Nat × List UInt8)
  | 0, bytes => some (0, bytes)
  | _ + 1, [] => none
  | w + 1, b :: bytes => (readBytes w bytes).map fun r => (b.toNat + 256 * r.1, r.2)

@[simp] theorem length_bytesOf (w n : Nat) : (bytesOf w n).length = w := by
  induction w generalizing n with
  | zero => rfl
  | succ w ih => rw [bytesOf, List.length_cons, ih]

theorem readBytes_bytesOf {w n : Nat} (h : n < 256 ^ w) (rest : List UInt8) :
    readBytes w (bytesOf w n ++ rest) = some (n, rest) := by
  induction w generalizing n with
  | zero =>
    have hn : n = 0 := by simpa using h
    rw [hn]
    rfl
  | succ w ih =>
    have hdiv : n / 256 < 256 ^ w := by
      rw [Nat.div_lt_iff_lt_mul (by omega), ← Nat.pow_succ]
      exact h
    have hbyte : (UInt8.ofNat (n % 256)).toNat = n % 256 := by
      rw [UInt8.toNat_ofNat']
      omega
    simp only [bytesOf, List.cons_append, readBytes, ih hdiv, Option.map_some, hbyte,
      Nat.mod_add_div]

/-- A number in `w` bytes. -/
def nat (w : Nat) : WireFormat Nat where
  put n := if n < 256 ^ w then some (bytesOf w n) else none
  get := readBytes w
  get_put rest h := by
    split at h
    · rename_i hn
      cases h
      exact readBytes_bytesOf hn rest
    · cases h

theorem put_nat {w n : Nat} (h : n < 256 ^ w) : (nat w).put n = some (bytesOf w n) := if_pos h

theorem length_put_nat {w n : Nat} {x : List UInt8} (h : (nat w).put n = some x) :
    x.length = w := by
  simp only [nat] at h
  split at h <;> cases h
  exact length_bytesOf w n

/-- At most `k` groups of seven bits, lowest first; all but the last have the top bit set. -/
def varintOf : Nat → Nat → List UInt8
  | 0, _ => []
  | k + 1, n =>
    if n < 128 then [UInt8.ofNat n] else UInt8.ofNat (128 + n % 128) :: varintOf k (n / 128)

def readVarint : Nat → List UInt8 → Option (Nat × List UInt8)
  | 0, _ => none
  | _ + 1, [] => none
  | k + 1, b :: bytes =>
    if b.toNat < 128 then some (b.toNat, bytes)
    else (readVarint k bytes).map fun r => (b.toNat - 128 + 128 * r.1, r.2)

theorem readVarint_varintOf {k n : Nat} (h : n < 128 ^ (k + 1)) (rest : List UInt8) :
    readVarint (k + 1) (varintOf (k + 1) n ++ rest) = some (n, rest) := by
  induction k generalizing n with
  | zero =>
    have hn : n < 128 := by simpa using h
    have hbyte : (UInt8.ofNat n).toNat = n := by
      rw [UInt8.toNat_ofNat']
      omega
    simp only [varintOf, if_pos hn, List.cons_append, readVarint, hbyte, List.nil_append]
  | succ k ih =>
    unfold varintOf
    by_cases hn : n < 128
    · have hbyte : (UInt8.ofNat n).toNat = n := by
        rw [UInt8.toNat_ofNat']
        omega
      simp only [if_pos hn, List.cons_append, readVarint, hbyte, List.nil_append]
    · have hdiv : n / 128 < 128 ^ (k + 1) := by
        rw [Nat.div_lt_iff_lt_mul (by omega), ← Nat.pow_succ]
        exact h
      have hbyte : (UInt8.ofNat (128 + n % 128)).toNat = 128 + n % 128 := by
        rw [UInt8.toNat_ofNat']
        omega
      have hrec := ih hdiv
      unfold readVarint
      rw [if_neg hn, List.cons_append]
      simp only [hbyte, hrec, Option.map_some]
      rw [if_neg (by omega)]
      congr 2
      omega

/-- A number in at most `k + 1` groups of seven bits. -/
def varint (k : Nat) : WireFormat Nat where
  put n := if n < 128 ^ (k + 1) then some (varintOf (k + 1) n) else none
  get := readVarint (k + 1)
  get_put rest h := by
    split at h
    · rename_i hn
      cases h
      exact readVarint_varintOf hn rest
    · cases h

/-! ## Records -/

/-- The same bytes for another type. -/
def map (f : WireFormat α) (make : α → β) (open' : β → α) (h : ∀ b, make (open' b) = b) :
    WireFormat β where
  put b := f.put (open' b)
  get bytes := (f.get bytes).map fun r => (make r.1, r.2)
  get_put rest hp := by
    rw [f.get_put rest hp, Option.map_some, h]

@[simp] theorem put_map (f : WireFormat α) (make : α → β) (open' : β → α)
    (h : ∀ b, make (open' b) = b) (b : β) : (f.map make open' h).put b = f.put (open' b) := rfl

/-- One value after another. -/
def pair (f : WireFormat α) (g : WireFormat β) : WireFormat (α × β) where
  put p := (f.put p.1).bind fun x => (g.put p.2).map fun y => x ++ y
  get bytes := (f.get bytes).bind fun r => (g.get r.2).map fun r' => ((r.1, r'.1), r'.2)
  get_put := by
    rintro ⟨a, b⟩ bytes rest h
    obtain ⟨x, hx, hxy⟩ := Option.bind_eq_some_iff.1 h
    obtain ⟨y, hy, rfl⟩ := Option.map_eq_some_iff.1 hxy
    rw [List.append_assoc, f.get_put _ hx, Option.bind_some, g.get_put _ hy]
    rfl

theorem put_pair {f : WireFormat α} {g : WireFormat β} {a : α} {b : β} {x y : List UInt8}
    (hx : f.put a = some x) (hy : g.put b = some y) : (f.pair g).put (a, b) = some (x ++ y) := by
  show (f.put a).bind (fun x => (g.put b).map fun y => x ++ y) = _
  rw [hx, hy]
  rfl

theorem put_pair_eq_some {f : WireFormat α} {g : WireFormat β} {p : α × β} {z : List UInt8}
    (h : (f.pair g).put p = some z) : ∃ x y, f.put p.1 = some x ∧ g.put p.2 = some y ∧
      z = x ++ y := by
  obtain ⟨x, hx, hxy⟩ := Option.bind_eq_some_iff.1 h
  obtain ⟨y, hy, rfl⟩ := Option.map_eq_some_iff.1 hxy
  exact ⟨x, y, hx, hy, rfl⟩

/-- An array of `n` bytes. -/
def array (n : Nat) : WireFormat (Fin n → UInt8) where
  put a := some (List.ofFn a)
  get bytes := if h : n ≤ bytes.length then
      some (fun i => bytes.get (i.castLE h), bytes.drop n)
    else none
  get_put := by
    intro a bytes rest h
    cases h
    have hlen : n ≤ (List.ofFn a ++ rest).length := by simp
    rw [dif_pos hlen]
    congr 2
    · funext i
      have hi : (i : Nat) < (List.ofFn a).length := by simp
      simp [List.getElem_append_left hi]
    · rw [List.drop_append_of_le_length (by simp)]
      simp

/-! ## Lists and options -/

def putAll (f : WireFormat α) : List α → Option (List UInt8)
  | [] => some []
  | a :: as => (f.put a).bind fun x => (putAll f as).map fun y => x ++ y

def getAll (f : WireFormat α) : Nat → List UInt8 → Option (List α × List UInt8)
  | 0, bytes => some ([], bytes)
  | n + 1, bytes =>
    (f.get bytes).bind fun r => (getAll f n r.2).map fun r' => (r.1 :: r'.1, r'.2)

theorem getAll_putAll (f : WireFormat α) {as : List α} {bytes : List UInt8} (rest : List UInt8)
    (h : f.putAll as = some bytes) : f.getAll as.length (bytes ++ rest) = some (as, rest) := by
  induction as generalizing bytes with
  | nil => cases h; rfl
  | cons a as ih =>
    obtain ⟨x, hx, hxy⟩ := Option.bind_eq_some_iff.1 h
    obtain ⟨y, hy, rfl⟩ := Option.map_eq_some_iff.1 hxy
    rw [List.length_cons, getAll, List.append_assoc, f.get_put _ hx, Option.bind_some, ih hy]
    rfl

/-- The number of elements in eight bytes, then the elements. -/
def list (f : WireFormat α) : WireFormat (List α) where
  put as := ((nat 8).put as.length).bind fun x => (f.putAll as).map fun y => x ++ y
  get bytes := ((nat 8).get bytes).bind fun r => f.getAll r.1 r.2
  get_put := by
    intro as bytes rest h
    obtain ⟨x, hx, hxy⟩ := Option.bind_eq_some_iff.1 h
    obtain ⟨y, hy, rfl⟩ := Option.map_eq_some_iff.1 hxy
    rw [List.append_assoc, (nat 8).get_put _ hx, Option.bind_some, f.getAll_putAll _ hy]

/-- A list of `n` copies takes `n` times the bytes of one, and eight for the number. -/
theorem put_replicate {f : WireFormat α} {a : α} {x : List UInt8} (hx : f.put a = some x) {n : Nat}
    (hn : n < 256 ^ 8) :
    ∃ bytes, f.list.put (List.replicate n a) = some bytes ∧ bytes.length = 8 + n * x.length := by
  have hall : ∀ n, ∃ y, f.putAll (List.replicate n a) = some y ∧ y.length = n * x.length := by
    intro n
    induction n with
    | zero => exact ⟨[], rfl, by simp⟩
    | succ n ih =>
      obtain ⟨y, hy, hlen⟩ := ih
      refine ⟨x ++ y, ?_, ?_⟩
      · rw [List.replicate_succ, putAll, hx, hy]
        rfl
      · rw [List.length_append, hlen, Nat.succ_mul, Nat.add_comm]
  obtain ⟨y, hy, hlen⟩ := hall n
  refine ⟨bytesOf 8 n ++ y, ?_, by rw [List.length_append, length_bytesOf, hlen]⟩
  show ((nat 8).put _).bind (fun x => (f.putAll _).map fun y => x ++ y) = _
  rw [List.length_replicate, put_nat hn, hy]
  rfl

/-- A byte 0 for the absence of a value, a byte 1 before the value. -/
def option (f : WireFormat α) : WireFormat (Option α) where
  put
    | none => some [0]
    | some a => (f.put a).map fun x => 1 :: x
  get
    | 0 :: bytes => some (none, bytes)
    | 1 :: bytes => (f.get bytes).map fun r => (some r.1, r.2)
    | _ => none
  get_put := by
    intro a bytes rest h
    cases a with
    | none => cases h; rfl
    | some a =>
      obtain ⟨x, hx, rfl⟩ := Option.map_eq_some_iff.1 h
      show (f.get (x ++ rest)).map (fun r => (some r.1, r.2)) = _
      rw [f.get_put _ hx]
      rfl

/-! ## Enumerations -/

/-- One variant of an enumeration with the format of its fields. -/
structure Variant (α : Type) where
  Fields : Type
  format : WireFormat Fields
  make : Fields → α
  fields : α → Option Fields
  make_fields : ∀ a x, fields a = some x → make x = a

/-- The first variant that `a` is, with its number in four bytes. -/
def putVariant (a : α) : Nat → List (Variant α) → Option (List UInt8)
  | _, [] => none
  | i, v :: vs =>
    match v.fields a with
    | some x => (v.format.put x).map fun bytes => bytesOf 4 i ++ bytes
    | none => putVariant a (i + 1) vs

theorem putVariant_eq_some {a : α} {i : Nat} {vs : List (Variant α)} {bytes : List UInt8}
    (h : putVariant a i vs = some bytes) :
    ∃ j v x y, vs[j]? = some v ∧ v.fields a = some x ∧ v.format.put x = some y ∧
      bytes = bytesOf 4 (i + j) ++ y := by
  induction vs generalizing i with
  | nil => cases h
  | cons v vs ih =>
    unfold putVariant at h
    split at h
    · rename_i x hx
      obtain ⟨y, hy, rfl⟩ := Option.map_eq_some_iff.1 h
      exact ⟨0, v, x, y, rfl, hx, hy, rfl⟩
    · obtain ⟨j, v', x, y, hj, hx, hy, rfl⟩ := ih h
      exact ⟨j + 1, v', x, y, hj, hx, hy, by rw [Nat.add_right_comm, Nat.add_assoc]⟩

/-- The number of the variant in four bytes, then its fields. -/
def enum (vs : List (Variant α)) (h : vs.length < 256 ^ 4) : WireFormat α where
  put a := putVariant a 0 vs
  get bytes := ((nat 4).get bytes).bind fun r =>
    (vs[r.1]?).bind fun v => (v.format.get r.2).map fun r' => (v.make r'.1, r'.2)
  get_put := by
    intro a bytes rest hp
    obtain ⟨j, v, x, y, hj, hx, hy, rfl⟩ := putVariant_eq_some hp
    obtain ⟨hlt, -⟩ := List.getElem?_eq_some_iff.1 hj
    have hread := readBytes_bytesOf (w := 4) (n := 0 + j) (by omega) (y ++ rest)
    rw [List.append_assoc]
    show (readBytes 4 _).bind _ = _
    rw [hread, Option.bind_some]
    simp only [Nat.zero_add, hj, Option.bind_some, v.format.get_put _ hy, Option.map_some,
      v.make_fields a x hx]

end WireFormat
