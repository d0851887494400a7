import Mathlib.Tactic.FinCases
import Swarm.Encoding.ReedSolomon

/-!
# The coder with one parity shard

What `reed-solomon-erasure` computes for two data shards and one parity shard:
over GF(2^8) modulo `0x11d` the parity shard is three times the first data
shard plus twice the second. `coder_implements`: it keeps the contract, so the
assumptions of the other modules can be met and their runs evaluated.
-/

namespace Swarm.Encoding.OneParity

/-! ## Arithmetic of the field -/

def carry (x : UInt8) : UInt8 := if x.toBitVec.msb then 0x1d else 0

def double (x : UInt8) : UInt8 := (x <<< 1) ^^^ carry x

def triple (x : UInt8) : UInt8 := double x ^^^ x

def half (x : UInt8) : UInt8 := (x >>> 1) ^^^ (if x.toBitVec.getLsbD 0 then 0x8e else 0)

/-- Multiplication by `0xf4`, the inverse of three. -/
def third (x : UInt8) : UInt8 :=
  let x4 := double (double x)
  let x16 := double (double x4)
  let x32 := double x16
  let x64 := double x32
  double x64 ^^^ x64 ^^^ x32 ^^^ x16 ^^^ x4

theorem carry_xor (x y : UInt8) : carry (x ^^^ y) = carry x ^^^ carry y := by
  simp only [carry, UInt8.toBitVec_xor, BitVec.msb_xor]
  cases x.toBitVec.msb <;> cases y.toBitVec.msb <;> rfl

theorem double_xor (x y : UInt8) : double (x ^^^ y) = double x ^^^ double y := by
  simp only [double, carry_xor, UInt8.shiftLeft_xor]
  ac_rfl

theorem triple_xor (x y : UInt8) : triple (x ^^^ y) = triple x ^^^ triple y := by
  simp only [triple, double_xor]
  ac_rfl

/-- A statement about one byte is checked on all of them. -/
theorem forall_byte {P : UInt8 → Prop} (h : ∀ b : Fin 256, P (UInt8.ofFin b)) (x : UInt8) : P x :=
  h x.toFin

theorem half_double (x : UInt8) : half (double x) = x :=
  forall_byte (P := fun x => half (double x) = x) (by decide +kernel) x

theorem double_half (x : UInt8) : double (half x) = x :=
  forall_byte (P := fun x => double (half x) = x) (by decide +kernel) x

theorem third_triple (x : UInt8) : third (triple x) = x :=
  forall_byte (P := fun x => third (triple x) = x) (by decide +kernel) x

theorem triple_third (x : UInt8) : triple (third x) = x :=
  forall_byte (P := fun x => triple (third x) = x) (by decide +kernel) x

/-! ## The code -/

def parity (x y : UInt8) : UInt8 := triple x ^^^ double y

/-- The second data byte from the first and the parity byte. -/
def secondOf (x p : UInt8) : UInt8 := half (p ^^^ triple x)

/-- The first data byte from the second and the parity byte. -/
def firstOf (y p : UInt8) : UInt8 := third (p ^^^ double y)

theorem parity_secondOf (x p : UInt8) : parity x (secondOf x p) = p := by
  rw [parity, secondOf, double_half, UInt8.xor_comm, UInt8.xor_assoc, UInt8.xor_self,
    UInt8.xor_zero]

theorem parity_firstOf (y p : UInt8) : parity (firstOf y p) y = p := by
  rw [parity, firstOf, triple_third, UInt8.xor_assoc, UInt8.xor_self, UInt8.xor_zero]

theorem secondOf_parity (x y : UInt8) : secondOf x (parity x y) = y := by
  rw [secondOf, parity, UInt8.xor_comm (triple x), UInt8.xor_assoc, UInt8.xor_self,
    UInt8.xor_zero, half_double]

theorem firstOf_parity (x y : UInt8) : firstOf y (parity x y) = x := by
  rw [firstOf, parity, UInt8.xor_assoc, UInt8.xor_self, UInt8.xor_zero, third_triple]

def encodeBytes (m : Fin dataShardsCount → UInt8) : Fin 3 → UInt8
  | 0 => m 0
  | 1 => m 1
  | 2 => parity (m 0) (m 1)

/-- The message with the bytes `a` and `b` at the positions `i` and `j`. -/
def solve (i j : Fin 3) (a b : UInt8) : Fin dataShardsCount → UInt8 :=
  match i, j with
  | 0, 1 => ![a, b]
  | 1, 0 => ![b, a]
  | 0, 2 => ![a, secondOf a b]
  | 2, 0 => ![b, secondOf b a]
  | 1, 2 => ![firstOf a b, a]
  | 2, 1 => ![firstOf b a, b]
  | _, _ => ![0, 0]

theorem encodeBytes_solve {i j : Fin 3} (h : i ≠ j) (a b : UInt8) :
    encodeBytes (solve i j a b) i = a ∧ encodeBytes (solve i j a b) j = b := by
  fin_cases i <;> fin_cases j <;>
    first
      | exact absurd rfl h
      | simp [encodeBytes, solve, parity_secondOf, parity_firstOf]

theorem solve_encodeBytes {i j : Fin 3} (h : i ≠ j) (m : Fin dataShardsCount → UInt8) :
    solve i j (encodeBytes m i) (encodeBytes m j) = m := by
  have hm : ![m 0, m 1] = m := by
    funext k
    fin_cases k <;> rfl
  fin_cases i <;> fin_cases j <;>
    first
      | exact absurd rfl h
      | simpa [encodeBytes, solve, secondOf_parity, firstOf_parity] using hm

def code : MdsCode UInt8 dataShardsCount 3 :=
  .ofPairs encodeBytes (by decide) (fun m i => by fin_cases i <;> rfl) solve
    (fun h => encodeBytes_solve h) (fun h => solve_encodeBytes h)

theorem code_commutes : code.Commutes (· ^^^ ·) := by
  intro m m' i
  fin_cases i
  · rfl
  · rfl
  · change parity (m 0 ^^^ m' 0) (m 1 ^^^ m' 1) = parity (m 0) (m 1) ^^^ parity (m' 0) (m' 1)
    simp only [parity, triple_xor, double_xor]
    ac_rfl

/-! ## The coder -/

/-- The lengths of the present shards: positive and equal. -/
def checkLengths : Option Nat → List (Option (List UInt8)) → Except String Unit
  | _, [] => .ok ()
  | len, none :: shards => checkLengths len shards
  | len, some shard :: shards =>
    if shard.length = 0 then .error "EmptyShard"
    else if len.any (· ≠ shard.length) then .error "IncorrectShardSize"
    else checkLengths (some shard.length) shards

def fill : List (Option (List UInt8)) → Except String (List (Option (List UInt8)))
  | [some x, some y, some p] => .ok [some x, some y, some p]
  | [some x, some y, none] => .ok [some x, some y, some (x.zipWith parity y)]
  | [some x, none, some p] => .ok [some x, some (x.zipWith secondOf p), some p]
  | [none, some y, some p] => .ok [some (y.zipWith firstOf p), some y, some p]
  | _ => .error "TooFewShardsPresent"

def coder : ReedSolomon where
  dataShardCount := dataShardsCount
  parityShardCount := 1
  encode {B} shards :=
    match shards with
    | [x, y, _] => if B = 0 then .error "EmptyShard" else .ok [x, y, mapZip x y parity]
    | [] | [_] | [_, _] => .error "TooFewShards"
    | _ => .error "TooManyShards"
  reconstruct shards :=
    if shards.length < 3 then .error "TooFewShards"
    else if 3 < shards.length then .error "TooManyShards"
    else do
      checkLengths none shards
      fill shards

def wrapper : ReedSolomonWrapper := ⟨coder⟩

theorem checkLengths_ok {B : Nat} (hB : 0 < B) {shards : List (Option (List UInt8))}
    (h : ∀ x, some x ∈ shards → x.length = B) {len : Option Nat} (hlen : ∀ n ∈ len, n = B) :
    checkLengths len shards = .ok () := by
  induction shards generalizing len with
  | nil => rfl
  | cons s shards ih =>
    have hrest : ∀ x, some x ∈ shards → x.length = B := fun x hx => h x (List.mem_cons_of_mem _ hx)
    cases s with
    | none => exact ih hrest hlen
    | some x =>
      have hx : x.length = B := h x List.mem_cons_self
      have hany : ¬ len.any (· ≠ x.length) = true := by
        cases len with
        | none => simp
        | some n => simp [hx, hlen n rfl]
      rw [checkLengths, if_neg (by omega), if_neg hany]
      exact ih hrest (by simp [hx])

theorem ofFn_three {α : Type} (f : Fin 3 → α) : List.ofFn f = [f 0, f 1, f 2] := by
  simp [List.ofFn_succ]

theorem zipWith_ofFn {n : Nat} (f : UInt8 → UInt8 → UInt8) (x y : Fin n → UInt8) :
    List.zipWith f (List.ofFn x) (List.ofFn y) = List.ofFn fun b => f (x b) (y b) := by
  refine List.ext_getElem (by simp) fun i h₁ h₂ => ?_
  simp

theorem reconstruct_eq (s : Fin 3 → Option (List UInt8)) :
    coder.reconstruct (List.ofFn s) = (do
      checkLengths none (List.ofFn s)
      fill (List.ofFn s)) := by
  simp [coder]

theorem card_present (s : Fin 3 → Option (List UInt8)) :
    (Finset.univ.filter fun i => (s i).isSome).card =
      (s 0).isSome.toNat + (s 1).isSome.toNat + (s 2).isSome.toNat := by
  rw [Finset.card_filter, Fin.sum_univ_three]
  cases s 0 <;> cases s 1 <;> cases s 2 <;> rfl

theorem coder_encode {B : Nat} (hB : 0 < B) (data : Fin dataShardsCount → Fin B → UInt8)
    (rest : List (Fin B → UInt8)) (hrest : rest.length = 1) :
    coder.encode (List.ofFn data ++ rest) =
      .ok (List.ofFn fun (i : Fin 3) b => encodeBytes (fun j => data j b) i) := by
  obtain ⟨p, rfl⟩ := List.length_eq_one_iff.1 hrest
  have hdata : List.ofFn data = [data 0, data 1] := by simp [List.ofFn_succ]
  rw [hdata, ofFn_three]
  change (if B = 0 then Except.error "EmptyShard"
    else .ok [data 0, data 1, mapZip (data 0) (data 1) parity]) = _
  rw [if_neg (by omega)]
  rfl

theorem coder_reconstruct {B : Nat} (hB : 0 < B) (m : Fin B → Fin dataShardsCount → UInt8)
    (s : Fin 3 → Option (List UInt8))
    (hs : ∀ i x, s i = some x → x = List.ofFn fun b => encodeBytes (m b) i)
    (hcard : dataShardsCount ≤ (Finset.univ.filter fun i => (s i).isSome).card) :
    coder.reconstruct (List.ofFn s) =
      .ok (List.ofFn fun i => some (List.ofFn fun b => encodeBytes (m b) i)) := by
  have hlen : checkLengths none (List.ofFn s) = .ok () := by
    refine checkLengths_ok hB (fun x hx => ?_) (by simp)
    obtain ⟨i, hi⟩ := (List.mem_ofFn' _ _).1 hx
    rw [hs i x hi, List.length_ofFn]
  rw [reconstruct_eq, hlen, ofFn_three, ofFn_three]
  rw [card_present] at hcard
  change fill _ = _
  cases h0 : s 0 with
  | none =>
    cases h1 : s 1 with
    | none => cases h2 : s 2 <;> simp [h0, h1, h2, dataShardsCount] at hcard
    | some y =>
      cases h2 : s 2 with
      | none => simp [h0, h1, h2, dataShardsCount] at hcard
      | some p =>
        rw [hs 1 y h1, hs 2 p h2]
        simp only [fill, zipWith_ofFn, encodeBytes, firstOf_parity]
  | some x =>
    cases h1 : s 1 with
    | none =>
      cases h2 : s 2 with
      | none => simp [h0, h1, h2, dataShardsCount] at hcard
      | some p =>
        rw [hs 0 x h0, hs 2 p h2]
        simp only [fill, zipWith_ofFn, encodeBytes, secondOf_parity]
    | some y =>
      cases h2 : s 2 with
      | none =>
        rw [hs 0 x h0, hs 1 y h1]
        simp only [fill, zipWith_ofFn, encodeBytes]
      | some p =>
        rw [hs 0 x h0, hs 1 y h1, hs 2 p h2]
        rfl

theorem fill_tooFew {s : Fin 3 → Option (List UInt8)}
    (h : (Finset.univ.filter fun i => (s i).isSome).card < dataShardsCount) :
    fill (List.ofFn s) = .error "TooFewShardsPresent" := by
  rw [card_present] at h
  rw [ofFn_three]
  cases h0 : s 0 <;> cases h1 : s 1 <;> cases h2 : s 2 <;>
    first
      | rfl
      | simp [h0, h1, h2, dataShardsCount] at h

theorem coder_tooFew (s : Fin 3 → Option (List UInt8))
    (h : (Finset.univ.filter fun i => (s i).isSome).card < dataShardsCount) :
    ∃ e, coder.reconstruct (List.ofFn s) = .error e := by
  rw [reconstruct_eq, fill_tooFew h]
  cases checkLengths none (List.ofFn s) with
  | error e => exact ⟨e, rfl⟩
  | ok _ => exact ⟨_, rfl⟩

/-- A filled list keeps the present shards and adds one of the common length. -/
theorem fill_ok {B : Nat} {s : Fin 3 → Option (List UInt8)} {r : List (Option (List UInt8))}
    (hs : ∀ i x, s i = some x → x.length = B) (h : fill (List.ofFn s) = .ok r) :
    ∃ full : Fin 3 → List UInt8, (∀ i, (full i).length = B) ∧
      r = List.ofFn fun i => some (full i) := by
  have key : ∀ x y p : List UInt8, x.length = B → y.length = B → p.length = B →
      r = [some x, some y, some p] → ∃ full : Fin 3 → List UInt8, (∀ i, (full i).length = B) ∧
        r = List.ofFn fun i => some (full i) := by
    intro x y p hx hy hp hr
    refine ⟨![x, y, p], fun i => ?_, by rw [hr, ofFn_three]; rfl⟩
    fin_cases i <;> assumption
  rw [ofFn_three] at h
  cases h0 : s 0 with
  | none =>
    cases h1 : s 1 with
    | none => rw [h0, h1] at h; cases h
    | some y =>
      cases h2 : s 2 with
      | none => rw [h0, h1, h2] at h; cases h
      | some p =>
        rw [h0, h1, h2] at h; cases h
        exact key _ _ _ (by simp [hs 1 y h1, hs 2 p h2]) (hs 1 y h1) (hs 2 p h2) rfl
  | some x =>
    cases h1 : s 1 with
    | none =>
      cases h2 : s 2 with
      | none => rw [h0, h1, h2] at h; cases h
      | some p =>
        rw [h0, h1, h2] at h; cases h
        exact key _ _ _ (hs 0 x h0) (by simp [hs 0 x h0, hs 2 p h2]) (hs 2 p h2) rfl
    | some y =>
      cases h2 : s 2 with
      | none =>
        rw [h0, h1, h2] at h; cases h
        exact key _ _ _ (hs 0 x h0) (hs 1 y h1) (by simp [hs 0 x h0, hs 1 y h1]) rfl
      | some p =>
        rw [h0, h1, h2] at h; cases h
        exact key _ _ _ (hs 0 x h0) (hs 1 y h1) (hs 2 p h2) rfl

theorem coder_filled {B : Nat} {s : Fin 3 → Option (List UInt8)} {r : List (Option (List UInt8))}
    (hs : ∀ i x, s i = some x → x.length = B) (h : coder.reconstruct (List.ofFn s) = .ok r) :
    ∃ full : Fin 3 → List UInt8, (∀ i, (full i).length = B) ∧
      r = List.ofFn fun i => some (full i) := by
  rw [reconstruct_eq] at h
  cases hc : checkLengths none (List.ofFn s) with
  | error e => rw [hc] at h; cases h
  | ok _ => rw [hc] at h; exact fill_ok hs h

/-- **The coder keeps the contract of the crate.** -/
theorem coder_implements : coder.Implements code where
  data := rfl
  encode := coder_encode
  reconstruct := coder_reconstruct
  tooFew := coder_tooFew
  filled _ _ _ := coder_filled

end Swarm.Encoding.OneParity
