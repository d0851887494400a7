import Mathlib.Data.Finset.Card

/-!
# Thresholds

A quantity that never decreases passes a threshold at most once. `signal x k a b`
is what a component says that emits `x` when the quantity, going from `a` to `b`,
reaches `k`; over consecutive moves the signals add up to that of the whole way.
A script is what happens to a collector: something arrives, or something else is
said in between; `announced` is all that is said when `k` different things are wanted.
-/

namespace Threshold

variable {ω : Type}

/-- Going from `a` to `b` reaches `k`. -/
def Reaches (k a b : Nat) : Prop := a < k ∧ k ≤ b

instance (k a b : Nat) : Decidable (Reaches k a b) := inferInstanceAs (Decidable (_ ∧ _))

/-- `x`, said at the move that reaches the threshold. -/
def signal (x : ω) (k a b : Nat) : List ω := if Reaches k a b then [x] else []

@[simp] theorem not_reaches_self (k a : Nat) : ¬ Reaches k a a := fun h => absurd h.1 (not_lt.2 h.2)

@[simp] theorem signal_self (x : ω) (k a : Nat) : signal x k a a = [] :=
  if_neg (not_reaches_self k a)

theorem signal_of_reached {x : ω} {k a b : Nat} (h : k ≤ a) : signal x k a b = [] :=
  if_neg fun hr => absurd hr.1 (not_lt.2 h)

theorem signal_of_short {x : ω} {k a b : Nat} (h : b < k) : signal x k a b = [] :=
  if_neg fun hr => absurd hr.2 (not_le.2 h)

/-- **Signals add up.** -/
theorem signal_append {x : ω} {k a b c : Nat} (hab : a ≤ b) (hbc : b ≤ c) :
    signal x k a b ++ signal x k b c = signal x k a c := by
  rcases lt_or_ge b k with hb | hb
  · rw [signal_of_short hb, List.nil_append]
    have : Reaches k b c ↔ Reaches k a c := by unfold Reaches; omega
    simp only [signal, this]
  · rw [signal_of_reached hb, List.append_nil]
    have : Reaches k a b ↔ Reaches k a c := by unfold Reaches; omega
    simp only [signal, this]

theorem mem_signal {x y : ω} {k a b : Nat} : y ∈ signal x k a b ↔ Reaches k a b ∧ y = x := by
  unfold signal
  split <;> simp_all

/-! ## Scripts -/

variable {α : Type} [DecidableEq α]

/-- What is said in the course of a script, with `x` at the arrival of the `k`-th different
thing. -/
def announced (x : ω) (k : Nat) : Finset α → List (α ⊕ ω) → List ω
  | _, [] => []
  | seen, .inl a :: script =>
    signal x k seen.card (insert a seen).card ++ announced x k (insert a seen) script
  | seen, .inr o :: script => o :: announced x k seen script

/-- Everything there after a script. -/
def arrived (seen : Finset α) (script : List (α ⊕ ω)) : Finset α :=
  seen ∪ (script.filterMap Sum.getLeft?).toFinset

theorem mem_arrived {seen : Finset α} {script : List (α ⊕ ω)} {a : α} :
    a ∈ arrived seen script ↔ a ∈ seen ∨ .inl a ∈ script := by
  simp [arrived]

@[simp] theorem arrived_nil (seen : Finset α) : arrived seen ([] : List (α ⊕ ω)) = seen := by
  simp [arrived]

@[simp] theorem arrived_inl (seen : Finset α) (a : α) (script : List (α ⊕ ω)) :
    arrived seen (.inl a :: script) = arrived (insert a seen) script := by
  simp [arrived]

@[simp] theorem arrived_inr (seen : Finset α) (o : ω) (script : List (α ⊕ ω)) :
    arrived seen (.inr o :: script) = arrived seen script := by
  simp [arrived, List.filterMap_cons]

theorem subset_arrived (seen : Finset α) (script : List (α ⊕ ω)) : seen ⊆ arrived seen script :=
  Finset.subset_union_left

theorem announced_append {x : ω} {k : Nat} {seen : Finset α} {script script' : List (α ⊕ ω)} :
    announced x k seen (script ++ script') =
      announced x k seen script ++ announced x k (arrived seen script) script' := by
  induction script generalizing seen with
  | nil => simp [announced]
  | cons step script ih => cases step <;> simp [announced, ih]

/-- **At most once**: of all that is said, `x` is said exactly if enough arrives, if nothing
that is said in between passes for it. -/
theorem filter_announced {p : ω → Bool} {x : ω} (hx : p x) {k : Nat} {seen : Finset α}
    {script : List (α ⊕ ω)} (hp : ∀ o, .inr o ∈ script → p o = false) :
    (announced x k seen script).filter p = signal x k seen.card (arrived seen script).card := by
  induction script generalizing seen with
  | nil => simp [announced]
  | cons step script ih =>
    have hrest : ∀ o, Sum.inr o ∈ script → p o = false := fun o ho =>
      hp o (List.mem_cons_of_mem _ ho)
    cases step with
    | inl a =>
      have hfilter : (signal x k seen.card (insert a seen).card).filter p =
          signal x k seen.card (insert a seen).card := by
        refine List.filter_eq_self.2 fun y hy => ?_
        rw [(mem_signal.1 hy).2, hx]
      rw [announced, List.filter_append, ih hrest, hfilter, arrived_inl]
      exact signal_append (Finset.card_le_card (Finset.subset_insert _ _))
        (Finset.card_le_card (subset_arrived _ _))
    | inr o =>
      rw [announced, List.filter_cons_of_neg (by simp [hp o List.mem_cons_self]), ih hrest,
        arrived_inr]

end Threshold
