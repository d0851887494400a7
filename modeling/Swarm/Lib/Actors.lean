import Mathlib.Algebra.BigOperators.Group.List.Basic
import Mathlib.Logic.Function.Basic
import Mathlib.Tactic.Ring
import Swarm.Lib.Machine

/-!
# Actor networks

Nodes with a state each, and a pool of addressed messages in flight. A step
delivers any message of the pool, in any order, or lets a node act on its own.
A reaction of a node changes its own state, sends messages and logs outputs.

Two rules for runs: `Config.Everywhere.step` for properties of single nodes, messages
and outputs, and `tally_deliver` for quantities that every reaction conserves.
-/

/-- What a node does at once. -/
structure Reaction (Id σ μ ω : Type) where
  node : σ
  sent : List (Id × μ)
  outputs : List ω

/-- The nodes' code: reactions to messages and to own actions. `γ` resolves what the code
leaves open. -/
structure Actors (Id σ μ ω γ α : Type) where
  receive : Id → γ → σ → μ → Option (Reaction Id σ μ ω)
  act : Id → γ → σ → α → Option (Reaction Id σ μ ω)

namespace Actors

structure Config (Id σ μ ω : Type) where
  nodes : Id → σ
  pool : List (Id × μ)
  /-- Every output so far, oldest first, with the node it comes from. -/
  log : List (Id × ω)

inductive Action (Id γ α : Type) where
  /-- Deliver message `i` of the pool. -/
  | deliver (i : Nat) (c : γ)
  | act (p : Id) (c : γ) (a : α)

variable {Id σ μ ω γ α : Type} [DecidableEq Id] {A : Actors Id σ μ ω γ α}

/-- The reaction `r` of node `p`, with `pool` left of the messages in flight. -/
def Config.react (s : Config Id σ μ ω) (p : Id) (pool : List (Id × μ)) (r : Reaction Id σ μ ω) :
    Config Id σ μ ω :=
  ⟨Function.update s.nodes p r.node, pool ++ r.sent, s.log ++ r.outputs.map (p, ·)⟩

def step (A : Actors Id σ μ ω γ α) (s : Config Id σ μ ω) : Action Id γ α → Option (Config Id σ μ ω)
  | .deliver i c =>
    s.pool[i]?.bind fun e =>
      (A.receive e.1 c (s.nodes e.1) e.2).map (s.react e.1 (s.pool.eraseIdx i))
  | .act p c a => (A.act p c (s.nodes p) a).map (s.react p s.pool)

/-- Everything a step can do. -/
inductive Moves (A : Actors Id σ μ ω γ α) (s : Config Id σ μ ω) :
    Action Id γ α → Config Id σ μ ω → Prop where
  | delivered {i : Nat} {c : γ} {p : Id} {m : μ} {r : Reaction Id σ μ ω}
      (pending : s.pool[i]? = some (p, m)) (reaction : A.receive p c (s.nodes p) m = some r) :
      Moves A s (.deliver i c) (s.react p (s.pool.eraseIdx i) r)
  | acted {p : Id} {c : γ} {a : α} {r : Reaction Id σ μ ω}
      (reaction : A.act p c (s.nodes p) a = some r) :
      Moves A s (.act p c a) (s.react p s.pool r)

theorem step_moves {s s' : Config Id σ μ ω} {a : Action Id γ α} (h : A.step s a = some s') :
    A.Moves s a s' := by
  cases a with
  | deliver i c =>
    obtain ⟨⟨p, m⟩, hp, hm⟩ := Option.bind_eq_some_iff.1 h
    obtain ⟨r, hr, rfl⟩ := Option.map_eq_some_iff.1 hm
    exact .delivered hp hr
  | act p c a =>
    obtain ⟨r, hr, rfl⟩ := Option.map_eq_some_iff.1 h
    exact .acted hr

section React

variable {s : Config Id σ μ ω} {p : Id} {pool : List (Id × μ)} {r : Reaction Id σ μ ω}

@[simp] theorem react_pool : (s.react p pool r).pool = pool ++ r.sent := rfl

@[simp] theorem react_log : (s.react p pool r).log = s.log ++ r.outputs.map (p, ·) := rfl

@[simp] theorem react_nodes_self : (s.react p pool r).nodes p = r.node := by
  simp [Config.react]

theorem react_nodes_of_ne {q : Id} (h : q ≠ p) : (s.react p pool r).nodes q = s.nodes q := by
  simp [Config.react, h]

theorem react_nodes (q : Id) :
    (s.react p pool r).nodes q = if q = p then r.node else s.nodes q := by
  simp [Config.react, Function.update_apply]

end React

/-! ## Properties of single nodes, messages and outputs -/

/-- Every node, every message in flight and every output so far has its property. -/
structure Config.Everywhere (N : Id → σ → Prop) (M : Id → μ → Prop) (O : Id → ω → Prop)
    (s : Config Id σ μ ω) : Prop where
  nodes : ∀ p, N p (s.nodes p)
  pool : ∀ p m, (p, m) ∈ s.pool → M p m
  log : ∀ p o, (p, o) ∈ s.log → O p o

/-- A reaction of node `p` keeps the properties. -/
structure Keeps (N : Id → σ → Prop) (M : Id → μ → Prop) (O : Id → ω → Prop) (p : Id)
    (r : Reaction Id σ μ ω) : Prop where
  node : N p r.node
  sent : ∀ q m, (q, m) ∈ r.sent → M q m
  outputs : ∀ o ∈ r.outputs, O p o

variable {N N' : Id → σ → Prop} {M M' : Id → μ → Prop} {O O' : Id → ω → Prop}
  {s s' : Config Id σ μ ω}

omit [DecidableEq Id] in
theorem Config.Everywhere.mono (h : s.Everywhere N M O) (hN : ∀ p x, N p x → N' p x)
    (hM : ∀ p m, M p m → M' p m) (hO : ∀ p o, O p o → O' p o) : s.Everywhere N' M' O' :=
  ⟨fun p => hN p _ (h.nodes p), fun p m hm => hM p m (h.pool p m hm),
    fun p o ho => hO p o (h.log p o ho)⟩

omit [DecidableEq Id] in
theorem Keeps.mono {p : Id} {r : Reaction Id σ μ ω} (h : Keeps N M O p r)
    (hN : ∀ x, N p x → N' p x) (hM : ∀ q m, M q m → M' q m) (hO : ∀ o, O p o → O' p o) :
    Keeps N' M' O' p r :=
  ⟨hN _ h.node, fun q m hm => hM q m (h.sent q m hm), fun o ho => hO o (h.outputs o ho)⟩

theorem Config.Everywhere.react {p : Id} {pool : List (Id × μ)} {r : Reaction Id σ μ ω}
    (h : s.Everywhere N M O) (hpool : ∀ e ∈ pool, e ∈ s.pool) (hr : Keeps N M O p r) :
    (s.react p pool r).Everywhere N M O where
  nodes q := by
    rw [react_nodes]
    split
    · rename_i hq
      exact hq ▸ hr.node
    · exact h.nodes q
  pool q m hm := by
    rcases List.mem_append.1 hm with hm | hm
    · exact h.pool q m (hpool _ hm)
    · exact hr.sent q m hm
  log q o ho := by
    rcases List.mem_append.1 ho with ho | ho
    · exact h.log q o ho
    · obtain ⟨o', ho', he⟩ := List.mem_map.1 ho
      cases he
      exact hr.outputs o ho'

/-- **The rule for single nodes and messages**: it suffices that every reaction keeps the
properties. -/
theorem Config.Everywhere.step {a : Action Id γ α} (h : s.Everywhere N M O)
    (hreceive : ∀ i p c m r, a = .deliver i c → s.pool[i]? = some (p, m) →
      A.receive p c (s.nodes p) m = some r → s'.nodes p = r.node → Keeps N M O p r)
    (hact : ∀ p c b r, a = .act p c b → A.act p c (s.nodes p) b = some r → s'.nodes p = r.node →
      Keeps N M O p r)
    (hs : A.step s a = some s') : s'.Everywhere N M O := by
  cases step_moves hs with
  | delivered pending reaction =>
    exact h.react (fun e he => List.mem_of_mem_eraseIdx he)
      (hreceive _ _ _ _ _ rfl pending reaction react_nodes_self)
  | acted reaction => exact h.react (fun e he => he) (hact _ _ _ _ rfl reaction react_nodes_self)

/-! ## Conserved quantities -/

/-- The sum of a weight over a list. -/
def weigh {β : Type} (w : β → Nat) (l : List β) : Nat := (l.map w).sum

section Weigh

variable {β : Type} {w : β → Nat}

@[simp] theorem weigh_nil : weigh w [] = 0 := rfl

@[simp] theorem weigh_cons (b : β) (l : List β) : weigh w (b :: l) = w b + weigh w l := by
  simp [weigh]

@[simp] theorem weigh_append (l l' : List β) : weigh w (l ++ l') = weigh w l + weigh w l' := by
  simp [weigh]

theorem weigh_eraseIdx {l : List β} {i : Nat} {b : β} (h : l[i]? = some b) :
    w b + weigh w (l.eraseIdx i) = weigh w l := by
  induction l generalizing i with
  | nil => cases h
  | cons a l ih =>
    cases i with
    | zero =>
      cases h
      simp
    | succ i =>
      have hl : l[i]? = some b := h
      rw [List.eraseIdx_cons_succ, weigh_cons, weigh_cons, ← ih hl]
      omega

theorem weigh_eq_zero {l : List β} (h : ∀ b ∈ l, w b = 0) : weigh w l = 0 := by
  induction l with
  | nil => rfl
  | cons b l ih =>
    rw [weigh_cons, h b List.mem_cons_self, ih fun c hc => h c (List.mem_cons_of_mem _ hc)]

theorem le_weigh {l : List β} {b : β} (h : b ∈ l) : w b ≤ weigh w l := by
  induction l with
  | nil => cases h
  | cons a l ih =>
    rw [weigh_cons]
    rcases List.mem_cons.1 h with rfl | h
    · exact Nat.le_add_right ..
    · exact Nat.le_add_left_of_le (ih h)

theorem weigh_mono {w' : β → Nat} {l : List β} (h : ∀ b ∈ l, w b ≤ w' b) :
    weigh w l ≤ weigh w' l := by
  induction l with
  | nil => exact le_rfl
  | cons b l ih =>
    rw [weigh_cons, weigh_cons]
    exact Nat.add_le_add (h b List.mem_cons_self) (ih fun c hc => h c (List.mem_cons_of_mem _ hc))

theorem weigh_sublist {l l' : List β} (h : l.Sublist l') : weigh w l ≤ weigh w l' := by
  induction h with
  | slnil => exact le_rfl
  | cons b _ ih =>
    rw [weigh_cons]
    exact Nat.le_add_left_of_le ih
  | cons_cons b _ ih =>
    rw [weigh_cons, weigh_cons]
    exact Nat.add_le_add_left ih _

theorem weigh_map_const {δ : Type} {f : δ → β} {n : Nat} {l : List δ} (h : ∀ b ∈ l, w (f b) = n) :
    weigh w (l.map f) = l.length * n := by
  induction l with
  | nil => simp
  | cons b l ih =>
    rw [List.map_cons, weigh_cons, h b List.mem_cons_self,
      ih fun c hc => h c (List.mem_cons_of_mem _ hc), List.length_cons]
    ring

theorem mem_eraseIdx_of_ne {l : List β} {i : Nat} {b e : β} (hi : l[i]? = some b) (he : e ∈ l)
    (hne : e ≠ b) : e ∈ l.eraseIdx i := by
  obtain ⟨j, hj⟩ := List.getElem?_of_mem he
  refine List.mem_eraseIdx_iff_getElem?.2 ⟨j, fun hji => hne ?_, hj⟩
  rw [hji, hi] at hj
  exact (Option.some.inj hj).symm

theorem exists_of_weigh_pos {l : List β} (h : 0 < weigh w l) : ∃ b ∈ l, 0 < w b := by
  by_contra hno
  have hzero : weigh w l = 0 := weigh_eq_zero fun b hb =>
    Nat.eq_zero_of_not_pos fun hpos => hno ⟨b, hb, hpos⟩
  omega

/-- A broadcast weighs what the message to `r` weighs, if no other one weighs anything. -/
theorem weigh_broadcast {m : μ} {w : Id × μ → Nat} {peers : List Id} {r : Id} {n : Nat}
    (hnd : peers.Nodup) (hr : r ∈ peers) (hw : ∀ p, w (p, m) = if p = r then n else 0) :
    weigh w (peers.map (·, m)) = n := by
  induction peers with
  | nil => cases hr
  | cons p peers ih =>
    rw [List.nodup_cons] at hnd
    rw [List.map_cons, weigh_cons, hw]
    by_cases hp : p = r
    · subst hp
      rw [if_pos rfl, weigh_eq_zero, Nat.add_zero]
      intro e he
      obtain ⟨q, hq, rfl⟩ := List.mem_map.1 he
      rw [hw, if_neg]
      rintro rfl
      exact hnd.1 hq
    · rw [if_neg hp, Nat.zero_add]
      exact ih hnd.2 ((List.mem_cons.1 hr).resolve_left (Ne.symm hp))

end Weigh

/-- A message stays in flight until it is delivered. -/
theorem exists_deliver {T : Id × μ → Prop} {i : Nat} {p : Id} {m : μ} {r : Reaction Id σ μ ω}
    (hi : s.pool[i]? = some (p, m)) (h : ∃ e ∈ s.pool, T e) :
    T (p, m) ∨ ∃ e ∈ (s.react p (s.pool.eraseIdx i) r).pool, T e := by
  obtain ⟨e, he, hT⟩ := h
  by_cases hm : e = (p, m)
  · exact .inl (hm ▸ hT)
  · exact .inr ⟨e, List.mem_append_left _ (mem_eraseIdx_of_ne hi he hm), hT⟩

/-- The weight of the messages in flight and of node `r`. -/
def tally (w : Id × μ → Nat) (r : Id) (k : σ → Nat) (s : Config Id σ μ ω) : Nat :=
  weigh w s.pool + k (s.nodes r)

/-- A reaction that sends what the message weighed, up to what node `r` gains, conserves the
tally. -/
theorem tally_deliver {w : Id × μ → Nat} {r : Id} {k : σ → Nat} {i : Nat} {p : Id} {m : μ}
    {x : Reaction Id σ μ ω} (hi : s.pool[i]? = some (p, m))
    (law : weigh w x.sent + (if p = r then k x.node else 0) =
      w (p, m) + (if p = r then k (s.nodes p) else 0)) :
    tally w r k (s.react p (s.pool.eraseIdx i) x) = tally w r k s := by
  have hpool := weigh_eraseIdx (w := w) hi
  unfold tally
  rw [react_pool, weigh_append, react_nodes]
  by_cases hp : p = r
  · subst hp
    simp only [if_true] at law ⊢
    omega
  · rw [if_neg hp, if_neg hp] at law
    rw [if_neg (Ne.symm hp)]
    omega

theorem tally_act {w : Id × μ → Nat} {r : Id} {k : σ → Nat} {p : Id} {x : Reaction Id σ μ ω}
    (hk : k x.node = k (s.nodes p)) :
    tally w r k (s.react p s.pool x) = tally w r k s + weigh w x.sent := by
  unfold tally
  rw [react_pool, weigh_append, react_nodes]
  by_cases hp : r = p
  · subst hp
    rw [if_pos rfl, hk]
    omega
  · rw [if_neg hp]
    omega

end Actors
