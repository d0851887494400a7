import Mathlib.Data.List.Basic

/-!
# Programs over a key-value bus

A `Bus K V ε α` is a sequential program that talks to a key-value store it
does not own: it asks for the value of a key and waits for the answer, or
hands over a key and a value. Every exchange may fail with an `ε`. The store
may change between two exchanges, so the program is a tree that branches on
the answers.

`Runs R p ws a`: with every read of `k` answered by some `o` with `R k o`, the
program can end with the result `a` and the list `ws` of its writes.
`wp R Q p` is the weakest precondition for `Q`, and `run M p` executes against
a store that answers every read from `M`.
-/

inductive Bus (K V ε α : Type) where
  | ret (a : α)
  | read (k : K) (next : Except ε (Option V) → Bus K V ε α)
  | write (k : K) (v : V) (next : Except ε Unit → Bus K V ε α)

namespace Bus

variable {K V ε α β γ : Type}

def bind : Bus K V ε α → (α → Bus K V ε β) → Bus K V ε β
  | ret a, f => f a
  | read k next, f => read k fun o => (next o).bind f
  | write k v next, f => write k v fun r => (next r).bind f

instance : Monad (Bus K V ε) where
  pure := ret
  bind := bind

@[simp] theorem pure_eq (a : α) : (pure a : Bus K V ε α) = ret a := rfl

@[simp] theorem ret_bind (a : α) (f : α → Bus K V ε β) : (ret a >>= f) = f a := rfl

@[simp] theorem read_bind (k : K) (next : Except ε (Option V) → Bus K V ε α)
    (f : α → Bus K V ε β) : (read k next >>= f) = read k fun o => next o >>= f := rfl

@[simp] theorem write_bind (k : K) (v : V) (next : Except ε Unit → Bus K V ε α)
    (f : α → Bus K V ε β) : (write k v next >>= f) = write k v fun r => next r >>= f := rfl

/-- Ask the store for the value at `k`. -/
def ask (k : K) : Bus K V ε (Except ε (Option V)) := read k ret

/-- Hand `v` to the store for `k`. -/
def tell (k : K) (v : V) : Bus K V ε (Except ε Unit) := write k v ret

/-- `p.await?`, followed by the rest: an error ends the enclosing function. -/
def bindOk (p : Bus K V ε (Except ε α)) (f : α → Bus K V ε (Except ε β)) :
    Bus K V ε (Except ε β) :=
  p >>= fun
    | .ok a => f a
    | .error e => ret (.error e)

/-! ## Weakest preconditions -/

def wp (R : K → Option V → Prop) (Q : List (K × V) → α → Prop) : Bus K V ε α → Prop
  | ret a => Q [] a
  | read k next => ∀ o, R k o → wp R Q (next (.ok o))
  | write k v next => wp R (fun ws a => Q ((k, v) :: ws) a) (next (.ok ()))

variable {R R' : K → Option V → Prop} {Q Q' : List (K × V) → α → Prop}

@[simp] theorem wp_ret (a : α) : wp (ε := ε) R Q (ret a) ↔ Q [] a := Iff.rfl

@[simp] theorem wp_read (k : K) (next : Except ε (Option V) → Bus K V ε α) :
    wp R Q (read k next) ↔ ∀ o, R k o → wp R Q (next (.ok o)) := Iff.rfl

@[simp] theorem wp_write (k : K) (v : V) (next : Except ε Unit → Bus K V ε α) :
    wp R Q (write k v next) ↔ wp R (fun ws a => Q ((k, v) :: ws) a) (next (.ok ())) := Iff.rfl

theorem wp_mono {p : Bus K V ε α} (h : wp R Q p) (hR : ∀ k o, R' k o → R k o)
    (hQ : ∀ ws a, Q ws a → Q' ws a) : wp R' Q' p := by
  induction p generalizing Q Q' with
  | ret a => exact hQ _ _ h
  | read k next ih => exact fun o ho => ih _ (h o (hR k o ho)) hQ
  | write k v next ih => exact ih _ h fun ws a => hQ _ a

/-- Sequencing: the writes of the second part follow those of the first. -/
theorem wp_bind {Q : List (K × V) → β → Prop} {p : Bus K V ε α} {f : α → Bus K V ε β}
    (h : wp R (fun ws a => wp R (fun ws' b => Q (ws ++ ws') b) (f a)) p) :
    wp R Q (p >>= f) := by
  induction p generalizing Q with
  | ret a => exact h
  | read k next ih => exact fun o ho => ih _ (h o ho)
  | write k v next ih =>
    refine ih _ (Q := fun ws b => Q ((k, v) :: ws) b) ?_
    exact h

theorem wp_bindOk {Q : List (K × V) → Except ε β → Prop} {p : Bus K V ε (Except ε α)}
    {f : α → Bus K V ε (Except ε β)}
    (h : wp R (fun ws r => ∃ a, r = .ok a ∧ wp R (fun ws' b => Q (ws ++ ws') b) (f a)) p) :
    wp R Q (p.bindOk f) := by
  refine wp_bind (wp_mono h (fun _ _ h => h) ?_)
  rintro ws _ ⟨a, rfl, hf⟩
  exact hf

/-- The store answers as `M` does, on the keys of `S`. -/
def Sees (S : K → Prop) (M : K → Option V) (k : K) (o : Option V) : Prop := S k → o = M k

/-! ## Runs -/

inductive Runs (R : K → Option V → Prop) : Bus K V ε α → List (K × V) → α → Prop where
  | ret (a : α) : Runs R (ret a) [] a
  | read {k : K} {o : Option V} {next : Except ε (Option V) → Bus K V ε α} {ws : List (K × V)}
      {a : α} : R k o → Runs R (next (.ok o)) ws a → Runs R (read k next) ws a
  | write {k : K} {v : V} {next : Except ε Unit → Bus K V ε α} {ws : List (K × V)} {a : α} :
      Runs R (next (.ok ())) ws a → Runs R (write k v next) ((k, v) :: ws) a

/-- Every run meets a postcondition whose weakest precondition holds. -/
theorem Runs.post {p : Bus K V ε α} {ws : List (K × V)} {a : α} (hr : Runs R p ws a)
    (h : wp R Q p) : Q ws a := by
  induction hr generalizing Q with
  | ret a => exact h
  | read ho _ ih => exact ih (h _ ho)
  | write _ ih => exact ih (Q := fun ws a => Q (_ :: ws) a) h

/-- The writes and the result against a store that answers every read from `M`. -/
def run (M : K → Option V) : Bus K V ε α → List (K × V) × α
  | ret a => ([], a)
  | read k next => run M (next (.ok (M k)))
  | write k v next =>
    let r := run M (next (.ok ()))
    ((k, v) :: r.1, r.2)

theorem Runs.of_run {M : K → Option V} (hM : ∀ k, R k (M k)) (p : Bus K V ε α) :
    Runs R p (run M p).1 (run M p).2 := by
  induction p with
  | ret a => exact .ret a
  | read k next ih => exact .read (hM k) (ih _)
  | write k v next ih => exact .write (ih _)

/-! ## Programs in two stages -/

/-- The program does not read. -/
def Silent : Bus K V ε α → Prop
  | ret _ => True
  | read _ _ => False
  | write _ _ next => Silent (next (.ok ()))

/-- The program reads only before its first write. -/
def Staged : Bus K V ε α → Prop
  | ret _ => True
  | read _ next => ∀ o, Staged (next (.ok o))
  | write _ _ next => Silent (next (.ok ()))

theorem Silent.staged {p : Bus K V ε α} (h : p.Silent) : p.Staged := by
  cases p with
  | ret a => trivial
  | read k next => exact h.elim
  | write k v next => exact h

/-- A part that writes nothing may come before a staged program. -/
theorem staged_bind {p : Bus K V ε α} {f : α → Bus K V ε β} (hR : ∀ k o, R k o)
    (hp : wp R (fun ws _ => ws = []) p) (hf : ∀ a, (f a).Staged) : (p >>= f).Staged := by
  induction p with
  | ret a => exact hf a
  | read k next ih => exact fun o => ih _ (hp o (hR k o))
  | write k v next ih =>
    have hnil := (Runs.of_run (M := fun _ => none) (fun k => hR k none) (next (.ok ()))).post hp
    cases hnil

/-- If all writes of a program have a property, its first one and the later ones do. -/
theorem wp_write_all {P : K × V → Prop} {k : K} {v : V} {next : Except ε Unit → Bus K V ε α}
    (hR : ∀ k o, R k o) (h : wp R (fun ws _ => ∀ w ∈ ws, P w) (write k v next)) :
    P (k, v) ∧ wp R (fun ws _ => ∀ w ∈ ws, P w) (next (.ok ())) := by
  have hall : wp R (fun ws _ => ∀ w ∈ (k, v) :: ws, P w) (next (.ok ())) := h
  refine ⟨?_, wp_mono hall (fun _ _ h => h) fun ws _ hw w hm => hw w (List.mem_cons_of_mem _ hm)⟩
  have hrun := (Runs.of_run (M := fun _ => none) (fun k => hR k none) (next (.ok ()))).post hall
  exact hrun _ List.mem_cons_self

/-! ## Costs -/

/-- However the store answers, the program ends with a result in `Q` after reads, at `r` each, and
writes, at `w` each, that cost at most `n`. -/
def Costs (r w : Nat) (Q : α → Prop) : Bus K V ε α → Nat → Prop
  | ret a, _ => Q a
  | read _ next, n => ∃ m, n = r + m ∧ ∀ o, Costs r w Q (next o) m
  | write _ _ next, n => ∃ m, n = w + m ∧ ∀ o, Costs r w Q (next o) m

section Costs

variable {r w n n' : Nat} {Q Q' : α → Prop}

theorem Costs.mono {p : Bus K V ε α} (h : p.Costs r w Q n) (hQ : ∀ a, Q a → Q' a)
    (hn : n ≤ n') : p.Costs r w Q' n' := by
  induction p generalizing n n' with
  | ret a => exact hQ a h
  | read k next ih | write k v next ih =>
    obtain ⟨m, rfl, hm⟩ := h
    obtain ⟨d, rfl⟩ := Nat.exists_eq_add_of_le hn
    exact ⟨m + d, by omega, fun o => ih o (hm o) (Nat.le_add_right _ _)⟩

/-- Sequencing adds the costs. -/
theorem Costs.bind {k : Nat} {R : β → Prop} {p : Bus K V ε α} {f : α → Bus K V ε β}
    (h : p.Costs r w Q n) (hf : ∀ a, Q a → (f a).Costs r w R k) :
    (p >>= f).Costs r w R (n + k) := by
  induction p generalizing n with
  | ret a => exact (hf a h).mono (fun _ h => h) (Nat.le_add_left _ _)
  | read key next ih | write key v next ih =>
    obtain ⟨m, rfl, hm⟩ := h
    exact ⟨m + k, by omega, fun o => ih o (hm o)⟩

end Costs

end Bus
