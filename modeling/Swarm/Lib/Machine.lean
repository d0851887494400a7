import Mathlib.Data.List.Induction

/-!
# Event loops and transition systems

`Outcome` is the result of a call that may fail or abort the thread. A `Turn`
is one pass of an event loop: the loop goes on in a new state with some
outputs, or it returns, or it panics. `Turn.loop turn s is` runs the loop body
`turn` over the inputs `is`.

A transition system is a partial step function `step : σ → ι → Option σ`;
`Trace step s as t` says that the actions `as` lead from `s` to `t`. The
invariant rules take what one step preserves to what every run preserves.
-/

inductive Outcome (ε α : Type) where
  | ok (a : α)
  | err (e : ε)
  | panic
  deriving DecidableEq

/-- One pass of an event loop. -/
inductive Turn (σ ω : Type) where
  | next (s : σ) (out : List ω)
  | stop
  | panic
  deriving DecidableEq

namespace Turn

variable {σ ι ω : Type}

/-- Run a second part in the state the first leaves; outputs are concatenated. -/
def andThen : Turn σ ω → (σ → Turn σ ω) → Turn σ ω
  | next s out, f =>
    match f s with
    | next s' out' => next s' (out ++ out')
    | stop => stop
    | panic => panic
  | stop, _ => stop
  | panic, _ => panic

theorem andThen_eq_next {t : Turn σ ω} {f : σ → Turn σ ω} {s' : σ} {out : List ω} :
    t.andThen f = next s' out ↔
      ∃ s o o', t = next s o ∧ f s = next s' o' ∧ out = o ++ o' := by
  cases t with
  | next s o =>
    simp only [andThen, next.injEq]
    constructor
    · intro h
      cases hf : f s with
      | next s'' o' =>
        rw [hf] at h
        cases h
        exact ⟨s, o, o', ⟨rfl, rfl⟩, hf, rfl⟩
      | stop => rw [hf] at h; cases h
      | panic => rw [hf] at h; cases h
    · rintro ⟨_, _, o', ⟨rfl, rfl⟩, hf, rfl⟩
      rw [hf]
  | stop => simp [andThen]
  | panic => simp [andThen]

@[simp] theorem next_nil_andThen (s : σ) (f : σ → Turn σ ω) : (next s []).andThen f = f s := by
  simp only [andThen]
  cases f s <;> rfl

/-- The loop goes on. -/
def Continues : Turn σ ω → Prop
  | next _ _ => True
  | _ => False

instance : (t : Turn σ ω) → Decidable t.Continues
  | next _ _ => .isTrue trivial
  | stop | panic => .isFalse id

@[simp] theorem continues_next (s : σ) (out : List ω) : (next s out).Continues := trivial

@[simp] theorem not_continues_stop : ¬ (stop : Turn σ ω).Continues := id

@[simp] theorem not_continues_panic : ¬ (panic : Turn σ ω).Continues := id

theorem continues_iff {t : Turn σ ω} : t.Continues ↔ ∃ s out, t = next s out := by
  cases t <;> simp

/-! ## Loops -/

variable {turn : σ → ι → Turn σ ω}

/-- The loop over a list of inputs, up to the first turn that does not go on. -/
def loop (turn : σ → ι → Turn σ ω) : σ → List ι → Turn σ ω
  | s, [] => next s []
  | s, i :: is => (turn s i).andThen fun s' => loop turn s' is

@[simp] theorem loop_nil (s : σ) : loop turn s [] = next s [] := rfl

theorem loop_cons (s : σ) (i : ι) (is : List ι) :
    loop turn s (i :: is) = (turn s i).andThen fun s' => loop turn s' is := rfl

theorem loop_cons_next {s s' : σ} {i : ι} {is : List ι} {out : List ω} :
    loop turn s (i :: is) = next s' out ↔
      ∃ t o o', turn s i = next t o ∧ loop turn t is = next s' o' ∧ out = o ++ o' :=
  andThen_eq_next

theorem loop_append_next {s s' : σ} {is js : List ι} {out : List ω} :
    loop turn s (is ++ js) = next s' out ↔
      ∃ t o o', loop turn s is = next t o ∧ loop turn t js = next s' o' ∧ out = o ++ o' := by
  induction is generalizing s out with
  | nil => simp
  | cons i is ih =>
    rw [List.cons_append, loop_cons_next]
    constructor
    · rintro ⟨t, o, o', ht, hl, rfl⟩
      obtain ⟨t', p, p', h1, h2, rfl⟩ := ih.1 hl
      exact ⟨t', o ++ p, p', loop_cons_next.2 ⟨t, o, p, ht, h1, rfl⟩, h2, by simp⟩
    · rintro ⟨t', o, o', hl, h2, rfl⟩
      obtain ⟨t, p, p', ht, h1, rfl⟩ := loop_cons_next.1 hl
      exact ⟨t, p, p' ++ o', ht, ih.2 ⟨t', p', o', h1, h2, rfl⟩, by simp⟩

theorem loop_singleton_next {s s' : σ} {i : ι} {out : List ω} :
    loop turn s [i] = next s' out ↔ turn s i = next s' out := by
  rw [loop_cons_next]
  constructor
  · rintro ⟨t, o, o', ht, hl, rfl⟩
    cases hl
    simpa using ht
  · intro h
    exact ⟨s', out, [], h, rfl, by simp⟩

/-- **The invariant rule for loops**: `I` may speak about the inputs and the outputs so far. -/
theorem loop_invariant {I : List ι → List ω → σ → Prop} {s s' : σ} {is : List ι} {out : List ω}
    (init : I [] [] s)
    (step : ∀ js os t i t' o, I js os t → turn t i = next t' o → I (js ++ [i]) (os ++ o) t')
    (h : loop turn s is = next s' out) : I is out s' := by
  induction is using List.reverseRecOn generalizing s' out with
  | nil => cases h; exact init
  | append_singleton is i ih =>
    obtain ⟨t, o, o', hl, ht, rfl⟩ := loop_append_next.1 h
    exact step _ _ _ _ _ _ (ih hl) (loop_singleton_next.1 ht)

/-- A loop goes on exactly when each of its turns does, whenever the turns that go
on are the ones whose input passes `ok`, in every state with the invariant. -/
theorem loop_continues_iff {I : σ → Prop} {ok : ι → Prop}
    (step : ∀ s i s' out, I s → turn s i = next s' out → I s')
    (hok : ∀ s i, I s → ((turn s i).Continues ↔ ok i)) {s : σ} {is : List ι} (hs : I s) :
    (loop turn s is).Continues ↔ ∀ i ∈ is, ok i := by
  induction is generalizing s with
  | nil => simp
  | cons i is ih =>
    rw [List.forall_mem_cons, ← hok s i hs, loop_cons]
    cases ht : turn s i with
    | next t o =>
      rw [continues_iff]
      simp only [andThen_eq_next, next.injEq, continues_next, true_and]
      rw [← ih (step s i t o hs ht), continues_iff]
      constructor
      · rintro ⟨s', _, _, _, _, ⟨rfl, rfl⟩, hl, rfl⟩
        exact ⟨s', _, hl⟩
      · rintro ⟨s', out, hl⟩
        exact ⟨s', _, t, o, out, ⟨rfl, rfl⟩, hl, rfl⟩
    | stop => simp [andThen]
    | panic => simp [andThen]

end Turn

/-! ## Transition systems -/

section Trace

variable {σ ι : Type} {step : σ → ι → Option σ}

/-- The actions of the list lead from the first state to the second. -/
inductive Trace (step : σ → ι → Option σ) : σ → List ι → σ → Prop where
  | nil (s : σ) : Trace step s [] s
  | snoc {s t u : σ} {as : List ι} {a : ι} : Trace step s as t → step t a = some u →
      Trace step s (as ++ [a]) u

theorem Trace.single {s t : σ} {a : ι} (h : step s a = some t) : Trace step s [a] t :=
  Trace.snoc (Trace.nil s) h

theorem Trace.append {s t u : σ} {as bs : List ι} (h : Trace step s as t)
    (h' : Trace step t bs u) : Trace step s (as ++ bs) u := by
  induction h' with
  | nil => simpa using h
  | snoc _ hstep ih => rw [← List.append_assoc]; exact .snoc ih hstep

theorem Trace.eq_of_nil {s t : σ} (h : Trace step s [] t) : s = t := by
  generalize hn : ([] : List ι) = as at h
  cases h with
  | nil => rfl
  | snoc => simp at hn

theorem Trace.uncons {s t : σ} {a : ι} {as : List ι} (h : Trace step s (a :: as) t) :
    ∃ u, step s a = some u ∧ Trace step u as t := by
  generalize hn : a :: as = bs at h
  induction h generalizing a as with
  | nil => cases hn
  | @snoc t u bs b htrace hb ih =>
    rcases bs with _ | ⟨b', bs⟩
    · cases hn
      cases htrace.eq_of_nil
      exact ⟨u, hb, .nil u⟩
    · cases hn
      obtain ⟨w, hw, hwt⟩ := ih rfl
      exact ⟨w, hw, hwt.snoc hb⟩

/-- **The invariant rule for runs**: `I` may speak about the actions so far. -/
theorem Trace.invariant {I : List ι → σ → Prop} {s₀ : σ} (init : I [] s₀)
    (hstep : ∀ as s a t, I as s → step s a = some t → I (as ++ [a]) t)
    {as : List ι} {t : σ} (h : Trace step s₀ as t) : I as t := by
  induction h with
  | nil => exact init
  | snoc _ ha ih => exact hstep _ _ _ _ ih ha

/-- Every step of the actions from `s` meets a condition, in the state it is taken in. -/
def Along (step : σ → ι → Option σ) (P : σ → ι → Prop) : σ → List ι → Prop
  | _, [] => True
  | s, a :: as => P s a ∧
    match step s a with
    | some t => Along step P t as
    | none => True

instance Along.decidable {step : σ → ι → Option σ} {P : σ → ι → Prop}
    [∀ s a, Decidable (P s a)] : ∀ s as, Decidable (Along step P s as)
  | _, [] => isTrue trivial
  | s, a :: as =>
    have : Decidable (match step s a with
        | some t => Along step P t as
        | none => True) :=
      match step s a with
      | some t => Along.decidable t as
      | none => isTrue trivial
    inferInstanceAs (Decidable (_ ∧ _))

theorem Along.mono {P Q : σ → ι → Prop} (h : ∀ s a, P s a → Q s a) {s : σ} {as : List ι}
    (hP : Along step P s as) : Along step Q s as := by
  induction as generalizing s with
  | nil => trivial
  | cons a as ih =>
    obtain ⟨ha, hrest⟩ := hP
    refine ⟨h s a ha, ?_⟩
    cases hs : step s a with
    | none => trivial
    | some t =>
      rw [hs] at hrest
      exact ih hrest

theorem Trace.along_append {P : σ → ι → Prop} {s t : σ} {as bs : List ι} (h : Trace step s as t)
    (hP : Along step P s (as ++ bs)) : Along step P s as ∧ Along step P t bs := by
  induction as generalizing s with
  | nil => exact ⟨trivial, h.eq_of_nil ▸ hP⟩
  | cons a as ih =>
    rw [List.cons_append] at hP
    obtain ⟨ha, hrest⟩ := hP
    obtain ⟨u, hu, hut⟩ := h.uncons
    rw [hu] at hrest
    obtain ⟨hpre, hpost⟩ := ih hut hrest
    refine ⟨⟨ha, ?_⟩, hpost⟩
    rw [hu]
    exact hpre

theorem Trace.along_snoc {P : σ → ι → Prop} {s t : σ} {as : List ι} {a : ι}
    (h : Trace step s as t) (hP : Along step P s (as ++ [a])) : Along step P s as ∧ P t a := by
  obtain ⟨hpre, hlast⟩ := h.along_append hP
  exact ⟨hpre, hlast.1⟩

/-- The invariant rule for runs whose steps all meet a condition. -/
theorem Trace.invariant_along {P : σ → ι → Prop} {I : List ι → σ → Prop} {s₀ : σ}
    (init : I [] s₀) (hstep : ∀ as s a t, I as s → P s a → step s a = some t → I (as ++ [a]) t)
    {as : List ι} {t : σ} (h : Trace step s₀ as t) (hP : Along step P s₀ as) : I as t := by
  induction h with
  | nil => exact init
  | snoc htrace ha ih =>
    obtain ⟨hpre, hlast⟩ := htrace.along_snoc hP
    exact hstep _ _ _ _ (ih hpre) hlast ha

/-- The sum of what the steps of the actions from `s` weigh, each in the state it is taken in. -/
def countAlong (step : σ → ι → Option σ) (w : σ → ι → Nat) : σ → List ι → Nat
  | _, [] => 0
  | s, a :: as => w s a +
    match step s a with
    | some t => countAlong step w t as
    | none => 0

theorem Trace.countAlong_snoc {w : σ → ι → Nat} {s t : σ} {as : List ι} (h : Trace step s as t)
    (a : ι) : countAlong step w s (as ++ [a]) = countAlong step w s as + w t a := by
  induction as generalizing s with
  | nil =>
    obtain rfl := h.eq_of_nil
    rw [List.nil_append, countAlong, countAlong, Nat.zero_add]
    cases step s a <;> rfl
  | cons b as ih =>
    obtain ⟨u, hu, hut⟩ := h.uncons
    rw [List.cons_append, countAlong, countAlong, hu]
    show w s b + countAlong step w u (as ++ [a]) = w s b + countAlong step w u as + w t a
    rw [ih hut, Nat.add_assoc]

/-- A run by evaluation. -/
def runAll (step : σ → ι → Option σ) : σ → List ι → Option σ
  | s, [] => some s
  | s, a :: as => (step s a).bind fun t => runAll step t as

theorem Trace.of_runAll {s t : σ} {as : List ι} (h : runAll step s as = some t) :
    Trace step s as t := by
  induction as generalizing s with
  | nil => cases h; exact .nil _
  | cons a as ih =>
    obtain ⟨u, hu, h'⟩ := Option.bind_eq_some_iff.1 h
    exact Trace.append (.single hu) (ih h')

/-- If the runs by actions with a property are bounded, then one of them cannot go on. -/
theorem Trace.exists_stuck {P : ι → Prop} {n : Nat} {s : σ}
    (bound : ∀ {as t}, Trace step s as t → (∀ a ∈ as, P a) → as.length ≤ n) :
    ∃ as t, Trace step s as t ∧ (∀ a ∈ as, P a) ∧ ∀ a, P a → step t a = none := by
  by_contra hgoes
  push Not at hgoes
  have hlong : ∀ k, ∃ as t, Trace step s as t ∧ (∀ a ∈ as, P a) ∧ as.length = k := by
    intro k
    induction k with
    | zero => exact ⟨[], s, .nil s, by simp, rfl⟩
    | succ k ih =>
      obtain ⟨as, t, run, has, hlen⟩ := ih
      obtain ⟨a, ha, hstep⟩ := hgoes as t run has
      obtain ⟨u, hu⟩ := Option.ne_none_iff_exists'.1 hstep
      refine ⟨as ++ [a], u, run.snoc hu, fun b hb => ?_, by rw [List.length_append, hlen]; rfl⟩
      rcases List.mem_append.1 hb with hb | hb
      · exact has b hb
      · rwa [List.mem_singleton.1 hb]
  obtain ⟨as, t, run, has, hlen⟩ := hlong (n + 1)
  have := bound run has
  omega

end Trace
