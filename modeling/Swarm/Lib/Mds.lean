import Mathlib.Data.Finset.Card
import Mathlib.Data.Fintype.Card

/-!
# Systematic MDS codes

A code encodes `k` message symbols into `n`. It is systematic when the first
`k` symbols of a word are the message, and MDS when any `k` positions of a word
determine the message and can carry any symbols. No arithmetic is assumed of
the symbols; that a code is linear enters as `Commutes op`: encoding commutes
with an operation applied symbol by symbol.
-/

structure MdsCode (F : Type) (k n : Nat) where
  encode : (Fin k → F) → Fin n → F
  le : k ≤ n
  systematic : ∀ m (i : Fin k), encode m (i.castLE le) = m i
  mds : ∀ S : Finset (Fin n), S.card = k →
    Function.Bijective fun (m : Fin k → F) (i : S) => encode m i

namespace MdsCode

variable {F : Type} {k n : Nat} (C : MdsCode F k n)

/-- Any symbols in `k` positions extend to a word. -/
theorem exists_word {S : Finset (Fin n)} (hS : S.card = k) (f : Fin n → F) :
    ∃ m, ∀ i ∈ S, C.encode m i = f i := by
  obtain ⟨m, hm⟩ := (C.mds S hS).2 fun i => f i
  exact ⟨m, fun i hi => congrFun hm ⟨i, hi⟩⟩

/-- Encoding commutes with `op`, applied symbol by symbol. -/
def Commutes (op : F → F → F) : Prop :=
  ∀ m m' i, C.encode (fun j => op (m j) (m' j)) i = op (C.encode m i) (C.encode m' i)

/-- A code with two message symbols, from a solver for each pair of positions. -/
def ofPairs (encode : (Fin 2 → F) → Fin n → F) (le : 2 ≤ n)
    (systematic : ∀ m (i : Fin 2), encode m (i.castLE le) = m i)
    (solve : Fin n → Fin n → F → F → Fin 2 → F)
    (encode_solve : ∀ {i j : Fin n}, i ≠ j → ∀ a b,
      encode (solve i j a b) i = a ∧ encode (solve i j a b) j = b)
    (solve_encode : ∀ {i j : Fin n}, i ≠ j → ∀ m, solve i j (encode m i) (encode m j) = m) :
    MdsCode F 2 n where
  encode := encode
  le := le
  systematic := systematic
  mds S hS := by
    obtain ⟨i, j, hij, rfl⟩ := Finset.card_eq_two.1 hS
    constructor
    · intro m m' h
      have hi := congrFun h ⟨i, by simp⟩
      have hj := congrFun h ⟨j, by simp⟩
      rw [← solve_encode hij m, ← solve_encode hij m']
      simp only [hi, hj]
    · intro f
      obtain ⟨hi, hj⟩ := encode_solve hij (f ⟨i, by simp⟩) (f ⟨j, by simp⟩)
      refine ⟨solve i j (f ⟨i, by simp⟩) (f ⟨j, by simp⟩), ?_⟩
      funext ⟨p, hp⟩
      rcases Finset.mem_insert.1 hp with rfl | hp
      · exact hi
      · obtain rfl := Finset.mem_singleton.1 hp
        exact hj

end MdsCode
