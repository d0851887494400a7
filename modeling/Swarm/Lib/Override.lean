import Mathlib.Data.List.Perm.Basic

/-!
# Overriding partial functions

A report is a partial function `r : K → Option V`; applied to a table `M : K → Option V`
it overrides the entries it speaks about. A collection of reports may be applied
in every order with the same result exactly when no two of them speak differently
about one key.
-/

namespace Override

variable {K V α : Type}

/-- The table after a report. -/
def override (M r : K → Option V) : K → Option V := fun k => (r k).or (M k)

/-- No key has different values in the two reports. -/
def Agree (r r' : K → Option V) : Prop := ∀ k x y, r k = some x → r' k = some y → x = y

theorem override_comm {M r r' : K → Option V} (h : Agree r r') :
    override (override M r) r' = override (override M r') r := by
  funext k
  unfold override
  cases hr : r k with
  | none => simp
  | some x =>
    cases hr' : r' k with
    | none => simp
    | some y => simp [h k x y hr hr']

/-- The table after the reports `r a`, for the `a` of a list in order. -/
def overrideAll (r : α → K → Option V) (M : K → Option V) (as : List α) : K → Option V :=
  as.foldl (fun M a => override M (r a)) M

variable {r : α → K → Option V} {M : K → Option V}

theorem overrideAll_append (as bs : List α) :
    overrideAll r M (as ++ bs) = overrideAll r (overrideAll r M as) bs :=
  List.foldl_append

/-- The last report has its say. -/
theorem overrideAll_last {as : List α} {a : α} {k : K} {x : V} (h : r a k = some x) :
    overrideAll r M (as ++ [a]) k = some x := by
  rw [overrideAll_append]
  simp [overrideAll, override, h]

theorem overrideAll_perm {as bs : List α} (h : as.Perm bs)
    (hagree : ∀ a ∈ as, ∀ b ∈ as, Agree (r a) (r b)) :
    overrideAll r M as = overrideAll r M bs :=
  h.foldl_eq' (fun a ha b hb _ => override_comm (hagree a ha b hb)) M

/-- **Convergence**: all orders of the reports give one table iff the reports agree. -/
theorem overrideAll_converges_iff {as : List α} :
    (∀ bs cs : List α, bs.Perm as → cs.Perm as → overrideAll r M bs = overrideAll r M cs) ↔
      ∀ a ∈ as, ∀ b ∈ as, Agree (r a) (r b) := by
  constructor
  · intro h a ha b hb k x y hx hy
    have last : ∀ c ∈ as, ∃ cs, (cs ++ [c]).Perm as := by
      intro c hc
      obtain ⟨s, t, rfl⟩ := List.append_of_mem hc
      have hswap : (t ++ [c]).Perm ([c] ++ t) := List.perm_append_comm
      exact ⟨s ++ t, by simpa using hswap.append_left s⟩
    obtain ⟨as', has⟩ := last a ha
    obtain ⟨bs', hbs⟩ := last b hb
    have heq := congrFun (h _ _ has hbs) k
    rw [overrideAll_last hx, overrideAll_last hy] at heq
    exact Option.some.inj heq
  · intro h bs cs hbs hcs
    exact overrideAll_perm (hbs.trans hcs.symm) fun a ha b hb =>
      h a (hbs.mem_iff.1 ha) b (hbs.mem_iff.1 hb)

end Override
