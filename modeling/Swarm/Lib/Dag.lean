import Mathlib.Data.List.Induction
import Mathlib.Data.List.Nodup
import Mathlib.Data.Set.Defs

/-!
# Orders of a DAG

A `Dag` is a set of nodes with a strict ancestry. An observer learns of the
nodes one by one, a node after all its ancestors (`Dag.Lists`). Nodes that are
pairwise related form a chain; every observer learns of a beginning of it, in
its order, so of two observers one is ahead of the other.
-/

structure Dag (E : Type) where
  nodes : Set E
  ancestor : E → E → Prop
  irrefl : ∀ e, ¬ ancestor e e
  trans : ∀ {a b c}, ancestor a b → ancestor b c → ancestor a c

namespace Dag

variable {E : Type} (D : Dag E)

/-- Each node once, and after all its ancestors. -/
structure Lists (es : List E) : Prop where
  nodup : es.Nodup
  nodes : ∀ e ∈ es, e ∈ D.nodes
  ancestors : ∀ l e r, es = l ++ e :: r → ∀ a ∈ D.nodes, D.ancestor a e → a ∈ l

/-- The nodes with `p` are pairwise related. -/
def IsChain (p : E → Prop) : Prop :=
  ∀ a ∈ D.nodes, ∀ b ∈ D.nodes, p a → p b → a = b ∨ D.ancestor a b ∨ D.ancestor b a

/-- A beginning of the chain of the nodes with `p`, in its order. -/
structure Beginning (p : E → Prop) (cs : List E) : Prop where
  sorted : cs.Pairwise D.ancestor
  nodes : ∀ e ∈ cs, e ∈ D.nodes ∧ p e
  closed : ∀ e ∈ cs, ∀ a ∈ D.nodes, p a → D.ancestor a e → a ∈ cs

variable {D} {p : E → Prop} {es : List E}

theorem Lists.left {l r : List E} (h : D.Lists (l ++ r)) : D.Lists l where
  nodup := h.nodup.of_append_left
  nodes e he := h.nodes e (List.mem_append_left r he)
  ancestors l' e r' hl := h.ancestors l' e (r' ++ r) (by rw [hl]; simp)

/-- Of two nodes of a chain, the later one in the list is the descendant. -/
theorem Lists.sorted (h : D.Lists es) {a b : E} {l m r : List E}
    (hes : es = l ++ a :: (m ++ b :: r)) (hab : a = b ∨ D.ancestor a b ∨ D.ancestor b a) :
    D.ancestor a b := by
  have hb : b ∈ es := by simp [hes]
  have hnd := h.nodup
  rw [hes, List.nodup_append] at hnd
  obtain ⟨-, hnd, hdisj⟩ := hnd
  rcases hab with rfl | hab | hba
  · simp at hnd
  · exact hab
  · have hbl : b ∈ l := h.ancestors l a _ hes b (h.nodes b hb) hba
    exact absurd rfl (hdisj b hbl b (by simp))

/-- **An observer's part of a chain** is a beginning of it. -/
theorem Lists.beginning [DecidablePred p] (h : D.Lists es) (hp : D.IsChain p) :
    D.Beginning p (es.filter p) where
  sorted := by
    induction es using List.reverseRecOn with
    | nil => exact List.Pairwise.nil
    | append_singleton es b ih =>
      rw [List.filter_append, List.pairwise_append]
      refine ⟨ih h.left, ?_, ?_⟩
      · by_cases hb : p b <;> simp [hb]
      · intro a ha b' hb'
        obtain ⟨hb'mem, hpb⟩ := List.mem_filter.1 hb'
        obtain rfl := List.mem_singleton.1 hb'mem
        obtain ⟨hmem, hpa⟩ := List.mem_filter.1 ha
        obtain ⟨l, m, rfl⟩ := List.append_of_mem hmem
        have hab := hp a (h.nodes a (by simp)) b' (h.nodes b' (by simp))
          (of_decide_eq_true hpa) (of_decide_eq_true hpb)
        exact h.sorted (l := l) (m := m) (r := []) (by simp) hab
  nodes e he := by
    obtain ⟨hmem, hpe⟩ := List.mem_filter.1 he
    exact ⟨h.nodes e hmem, of_decide_eq_true hpe⟩
  closed e he a ha hpa hae := by
    obtain ⟨l, r, hes⟩ := List.append_of_mem (List.mem_filter.1 he).1
    have hal := h.ancestors l e r hes a ha hae
    exact List.mem_filter.2 ⟨by simp [hes, hal], decide_eq_true hpa⟩

/-- What is left of a beginning without its first node. -/
theorem Beginning.tail {c : E} {cs : List E} (h : D.Beginning p (c :: cs)) :
    D.Beginning (fun e => p e ∧ e ≠ c) cs where
  sorted := (List.pairwise_cons.1 h.sorted).2
  nodes e he := by
    obtain ⟨hmem, hpe⟩ := h.nodes e (List.mem_cons_of_mem _ he)
    refine ⟨hmem, hpe, ?_⟩
    rintro rfl
    exact D.irrefl e ((List.pairwise_cons.1 h.sorted).1 e he)
  closed e he a ha hpa hae := by
    have hmem := h.closed e (List.mem_cons_of_mem _ he) a ha hpa.1 hae
    exact (List.mem_cons.1 hmem).resolve_left hpa.2

/-- Two beginnings of a chain start with one node. -/
theorem Beginning.head_eq {c d : E} {cs ds : List E} (hp : D.IsChain p)
    (hc : D.Beginning p (c :: cs)) (hd : D.Beginning p (d :: ds)) : c = d := by
  have first : ∀ {c d : E} {ds : List E}, D.Beginning p (d :: ds) → c ∈ D.nodes → p c →
      ¬ D.ancestor c d := by
    intro c d ds hd hcn hpc hcd
    rcases List.mem_cons.1 (hd.closed d List.mem_cons_self c hcn hpc hcd) with rfl | hmem
    · exact D.irrefl _ hcd
    · exact D.irrefl d (D.trans ((List.pairwise_cons.1 hd.sorted).1 c hmem) hcd)
  obtain ⟨hcn, hpc⟩ := hc.nodes c List.mem_cons_self
  obtain ⟨hdn, hpd⟩ := hd.nodes d List.mem_cons_self
  rcases hp c hcn d hdn hpc hpd with h | h | h
  · exact h
  · exact absurd h (first hd hcn hpc)
  · exact absurd h (first hc hdn hpd)

/-- **Agreement**: of two beginnings of a chain, one is a beginning of the other. -/
theorem Beginning.comparable {cs ds : List E} (hp : D.IsChain p) (hc : D.Beginning p cs)
    (hd : D.Beginning p ds) : cs <+: ds ∨ ds <+: cs := by
  induction cs generalizing ds p with
  | nil => exact .inl (List.nil_prefix)
  | cons c cs ih =>
    rcases ds with _ | ⟨d, ds⟩
    · exact .inr List.nil_prefix
    · obtain rfl := hc.head_eq hp hd
      have hp' : D.IsChain fun e => p e ∧ e ≠ c := fun a ha b hb hpa hpb =>
        hp a ha b hb hpa.1 hpb.1
      exact (ih hp' hc.tail hd.tail).imp (fun h => List.cons_prefix_cons.2 ⟨rfl, h⟩)
        fun h => List.cons_prefix_cons.2 ⟨rfl, h⟩

end Dag
