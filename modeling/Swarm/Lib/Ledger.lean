import Mathlib.Algebra.BigOperators.Group.Finset.Basic
import Mathlib.Algebra.Order.BigOperators.Group.Finset
import Swarm.Lib.Actors

/-!
# Ledgers of a network

Tokens are in flight, held by one node, or used up, where the log says so; they come
into being by the log or by what an action brings. If every reaction balances, then
so does the ledger of a whole run. `tokens` counts those in flight and those held by
any of several nodes.
-/

namespace Actors

variable {Id σ μ ω γ α : Type} [DecidableEq Id] {A : Actors Id σ μ ω γ α}

/-- Tokens in flight by `w`, held by node `r` by `k` and used up by `d` are those earned by `e` and
`n` others. -/
def InBalance (w : Id × μ → Nat) (r : Id) (k : σ → Nat) (d e : Id × ω → Nat) (n : Nat)
    (s : Config Id σ μ ω) : Prop :=
  weigh w s.pool + k (s.nodes r) + weigh d s.log = weigh e s.log + n

/-- What the reaction of node `p` sends, holds and uses up is what the node had, is given and
earns. -/
def Balances (w : Id × μ → Nat) (r : Id) (k : σ → Nat) (d e : Id × ω → Nat) (p : Id) (node : σ)
    (given : Nat) (x : Reaction Id σ μ ω) : Prop :=
  weigh w x.sent + (if p = r then k x.node else 0) + weigh d (x.outputs.map (p, ·)) =
    given + (if p = r then k node else 0) + weigh e (x.outputs.map (p, ·))

variable {w : Id × μ → Nat} {r p : Id} {k : σ → Nat} {d e : Id × ω → Nat} {n : Nat}
  {s s' : Config Id σ μ ω}

theorem InBalance.react {pool : List (Id × μ)} {x : Reaction Id σ μ ω} {freed brought : Nat}
    (h : InBalance w r k d e n s) (hpool : weigh w pool + freed = weigh w s.pool)
    (hx : Balances w r k d e p (s.nodes p) (freed + brought) x) :
    InBalance w r k d e (n + brought) (s.react p pool x) := by
  unfold InBalance Balances at *
  rw [react_pool, react_log, weigh_append, weigh_append, weigh_append, react_nodes]
  by_cases hr : r = p
  · subst hr
    simp only [if_true] at hx ⊢
    omega
  · rw [if_neg hr]
    rw [if_neg (Ne.symm hr), if_neg (Ne.symm hr)] at hx
    omega

/-- **One step**: it suffices that every reaction balances. -/
theorem InBalance.step {a : Action Id γ α} {brought : Nat} (h : InBalance w r k d e n s)
    (hreceive : ∀ i p c m x, a = .deliver i c → s.pool[i]? = some (p, m) →
      A.receive p c (s.nodes p) m = some x →
        Balances w r k d e p (s.nodes p) (w (p, m) + brought) x)
    (hact : ∀ p c b x, a = .act p c b → A.act p c (s.nodes p) b = some x →
      Balances w r k d e p (s.nodes p) brought x)
    (hs : A.step s a = some s') : InBalance w r k d e (n + brought) s' := by
  cases step_moves hs with
  | delivered pending reaction =>
    exact h.react (by rw [Nat.add_comm, weigh_eraseIdx pending])
      (hreceive _ _ _ _ _ rfl pending reaction)
  | acted reaction =>
    exact h.react (Nat.add_zero _) (by rw [Nat.zero_add]; exact hact _ _ _ _ rfl reaction)

/-! ## Tokens held by several nodes -/

/-- Tokens in flight by `w` and held by the nodes of `N` by `k`. -/
def tokens (w : Id × μ → Nat) (k : Id → σ → Nat) (N : Finset Id) (s : Config Id σ μ ω) : Nat :=
  weigh w s.pool + ∑ q ∈ N, k q (s.nodes q)

/-- A reaction of a node of `N` that keeps, passes on and spends no more than it is given and
gets. -/
theorem tokens_react {k : Id → σ → Nat} {N : Finset Id} {pool : List (Id × μ)}
    {x : Reaction Id σ μ ω} {freed brought spent : Nat} (hp : p ∈ N)
    (hpool : weigh w pool + freed = weigh w s.pool)
    (hx : weigh w x.sent + k p x.node + spent ≤ freed + k p (s.nodes p) + brought) :
    tokens w k N (s.react p pool x) + spent ≤ tokens w k N s + brought := by
  have hothers : ∑ q ∈ N.erase p, k q ((s.react p pool x).nodes q) =
      ∑ q ∈ N.erase p, k q (s.nodes q) :=
    Finset.sum_congr rfl fun q hq => by rw [react_nodes_of_ne (Finset.ne_of_mem_erase hq)]
  unfold tokens
  rw [react_pool, weigh_append, ← Finset.add_sum_erase N _ hp, ← Finset.add_sum_erase N _ hp,
    hothers, react_nodes_self]
  omega

end Actors
