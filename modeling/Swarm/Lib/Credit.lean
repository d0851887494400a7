import Mathlib.Algebra.BigOperators.Group.Finset.Basic
import Mathlib.Algebra.Order.BigOperators.Group.Finset
import Swarm.Lib.Actors

/-!
# Amortised accounting

Messages and nodes of an actor network hold credits, and an own action brings
some. If every reaction can pay one credit for itself, out of those of the node
and the message, then a run has at most as many steps as its actions brought
credits: `Credited.run`.
-/

/-- Finitely many values of `f` sum up to at most `n`. -/
def SumLE {ι : Type} (f : ι → Nat) (n : Nat) : Prop := ∀ N : Finset ι, ∑ i ∈ N, f i ≤ n

namespace SumLE

variable {ι : Type} {f : ι → Nat} {n : Nat}

theorem zero : SumLE (fun _ : ι => 0) 0 := fun N => by simp

/-- A value may be exchanged for another. -/
theorem update [DecidableEq ι] (h : SumLE f n) (i : ι) :
    ∃ m, n = f i + m ∧ ∀ x, SumLE (Function.update f i x) (x + m) := by
  have hi : f i ≤ n := by simpa using h {i}
  refine ⟨n - f i, by omega, fun x N => ?_⟩
  have hinsert := h (insert i N)
  rw [← Finset.insert_erase (Finset.mem_insert_self i N), Finset.erase_insert_eq_erase,
    Finset.sum_insert (Finset.notMem_erase i N)] at hinsert
  have herase : ∑ j ∈ N.erase i, Function.update f i x j = ∑ j ∈ N.erase i, f j :=
    Finset.sum_congr rfl fun j hj => Function.update_of_ne (Finset.ne_of_mem_erase hj) _ _
  have hN : ∑ j ∈ N, Function.update f i x j ≤ x + ∑ j ∈ N.erase i, f j := by
    rw [← herase]
    by_cases hmem : i ∈ N
    · rw [← Finset.add_sum_erase N _ hmem, Function.update_self]
    · rw [Finset.erase_eq_of_notMem hmem]
      exact Nat.le_add_left ..
  omega

end SumLE

namespace Actors

variable {Id σ μ ω γ α : Type} [DecidableEq Id] {A : Actors Id σ μ ω γ α}
  {w : Id × μ → Nat} {P : Id → σ → Nat → Prop} {cost : α → Nat}

/-- What an action brings. -/
def Action.brings (cost : α → Nat) : Action Id γ α → Nat
  | .deliver _ _ => 0
  | .act _ _ a => cost a

/-- After `used` steps the messages, by their price `w`, and the nodes, by `P`, hold no more than
is left of `total` credits. -/
def Credited (w : Id × μ → Nat) (P : Id → σ → Nat → Prop) (used total : Nat)
    (s : Config Id σ μ ω) : Prop :=
  ∃ (credit : Id → Nat) (rest : Nat), (∀ p, P p (s.nodes p) (credit p)) ∧ SumLE credit rest ∧
    used + weigh w s.pool + rest ≤ total

variable {s s' : Config Id σ μ ω} {used total : Nat}

theorem Credited.react {p : Id} {pool : List (Id × μ)} {r : Reaction Id σ μ ω} {freed : Nat}
    (h : Credited w P used total s) (hpool : weigh w pool + freed = weigh w s.pool) {brought : Nat}
    (hr : ∀ n, P p (s.nodes p) n →
      ∃ n', P p r.node n' ∧ weigh w r.sent + n' + 1 ≤ brought + freed + n) :
    Credited w P (used + 1) (total + brought) (s.react p pool r) := by
  obtain ⟨credit, rest, holds, hsum, hle⟩ := h
  obtain ⟨n', hn', hpays⟩ := hr _ (holds p)
  obtain ⟨others, rfl, hupdate⟩ := hsum.update p
  refine ⟨Function.update credit p n', n' + others, fun q => ?_, hupdate n', ?_⟩
  · rw [react_nodes]
    split
    · rename_i hq
      subst hq
      rwa [Function.update_self]
    · rename_i hq
      rw [Function.update_of_ne hq]
      exact holds q
  · rw [react_pool, weigh_append]
    omega

/-- **One step**: it suffices that every reaction pays for itself. -/
theorem Credited.step {a : Action Id γ α} (h : Credited w P used total s)
    (hreceive : ∀ i p c m r n, a = .deliver i c → s.pool[i]? = some (p, m) →
      A.receive p c (s.nodes p) m = some r → P p (s.nodes p) n →
        ∃ n', P p r.node n' ∧ weigh w r.sent + n' + 1 ≤ w (p, m) + n)
    (hact : ∀ p c b r n, a = .act p c b → A.act p c (s.nodes p) b = some r →
      P p (s.nodes p) n → ∃ n', P p r.node n' ∧ weigh w r.sent + n' + 1 ≤ cost b + n)
    (hs : A.step s a = some s') : Credited w P (used + 1) (total + a.brings cost) s' := by
  cases step_moves hs with
  | delivered pending reaction =>
    refine h.react (by rw [Nat.add_comm, weigh_eraseIdx pending]) fun n hn => ?_
    obtain ⟨n', hn', hle⟩ := hreceive _ _ _ _ _ _ rfl pending reaction hn
    exact ⟨n', hn', by rwa [Action.brings, Nat.zero_add]⟩
  | acted reaction =>
    exact h.react (show weigh w s.pool + 0 = _ from rfl) fun n hn => hact _ _ _ _ _ rfl reaction hn

/-- **A whole run**: the steps are at most as many as the credits its actions brought. -/
theorem Credited.run {I : Config Id σ μ ω → Prop} {s₀ : Config Id σ μ ω}
    {as : List (Action Id γ α)} (init : Credited w P 0 0 s₀)
    (inv : ∀ {bs t}, Trace A.step s₀ bs t → I t)
    (hreceive : ∀ s p c m r n, I s → (p, m) ∈ s.pool → A.receive p c (s.nodes p) m = some r →
      P p (s.nodes p) n → ∃ n', P p r.node n' ∧ weigh w r.sent + n' + 1 ≤ w (p, m) + n)
    (hact : ∀ s p c b r n, I s → A.act p c (s.nodes p) b = some r →
      P p (s.nodes p) n → ∃ n', P p r.node n' ∧ weigh w r.sent + n' + 1 ≤ cost b + n)
    (run : Trace A.step s₀ as s) :
    Credited w P as.length (weigh (Action.brings cost) as) s := by
  induction run with
  | nil => exact init
  | @snoc t u as a htrace ha ih =>
    rw [List.length_append, List.length_singleton, weigh_append, weigh_cons, weigh_nil,
      Nat.add_zero]
    exact ih.step (fun _ _ _ _ _ _ _ hi => hreceive _ _ _ _ _ _ (inv htrace)
      (List.mem_of_getElem? hi)) (fun _ _ _ _ _ _ => hact _ _ _ _ _ _ (inv htrace)) ha

omit [DecidableEq Id] in
theorem Credited.used_le (h : Credited w P used total s) : used ≤ total := by
  obtain ⟨credit, rest, -, -, hle⟩ := h
  omega

end Actors
