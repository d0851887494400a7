import Mathlib.Data.Finmap
import Mathlib.Data.Finset.Card
import Mathlib.Data.Finset.Sort

/-!
# Finite maps read as hash maps

A hash map is a `Finmap`: extensional, with no order on its entries. Where a
program iterates over one, the order is a `KeyOrder`, any enumeration of a
finite set of keys; results that hold for every `KeyOrder` hold for every
iteration order.
-/

/-- A hash map from `K` to `V`. -/
abbrev HashMap (K V : Type) := Finmap fun _ : K => V

/-- An iteration order: a repetition-free enumeration of every finite key set. -/
structure KeyOrder (K : Type) [DecidableEq K] where
  list : Finset K → List K
  nodup : ∀ s, (list s).Nodup
  mem : ∀ s k, k ∈ list s ↔ k ∈ s

namespace KeyOrder

variable {K : Type} [DecidableEq K]

attribute [simp] mem

theorem length_list (ord : KeyOrder K) (s : Finset K) : (ord.list s).length = s.card := by
  rw [← List.toFinset_card_of_nodup (ord.nodup s)]
  exact congrArg Finset.card (Finset.ext fun k => by simp)

/-- Filter a list that covers the key set. -/
def ofCover (cover : Finset K → List K) (hnd : ∀ s, (cover s).Nodup)
    (hc : ∀ s, ∀ k ∈ s, k ∈ cover s) : KeyOrder K where
  list s := (cover s).filter (· ∈ s)
  nodup s := (hnd s).filter _
  mem s k := by
    simp only [List.mem_filter, decide_eq_true_eq]
    exact ⟨And.right, fun h => ⟨hc s k h, h⟩⟩

/-- By index, smallest first. -/
def ofEquiv (e : K ≃ Nat) : KeyOrder K :=
  ofCover (fun s => (List.range (s.fold max 0 e + 1)).map e.symm)
    (fun _ => List.Nodup.map e.symm.injective List.nodup_range)
    (fun s k hk => List.mem_map.2 ⟨e k, List.mem_range.2
      (Nat.lt_succ_of_le ((Finset.le_fold_max _).2 (.inr ⟨k, hk, le_rfl⟩))), by simp⟩)

/-- By rank, smallest first. -/
def ofRank {α : Type} [LinearOrder α] (rank : K → α) (h : Function.Injective rank) : KeyOrder K :=
  letI := LinearOrder.lift' rank h
  { list := fun s => s.sort, nodup := fun s => s.sort_nodup _, mem := fun _ _ => Finset.mem_sort _ }

/-- Any list without repetitions is the order of its elements in some iteration order. -/
theorem exists_list (ord : KeyOrder K) {l : List K} (nodup : l.Nodup) :
    ∃ ord' : KeyOrder K, ord'.list l.toFinset = l := by
  refine ⟨⟨fun s => if s = l.toFinset then l else ord.list s, fun s => ?_, fun s k => ?_⟩,
    if_pos rfl⟩
  · split
    · exact nodup
    · exact ord.nodup s
  · split
    · rename_i hs
      rw [hs, List.mem_toFinset]
    · exact ord.mem s k

end KeyOrder

namespace Finmap

variable {K V : Type} [DecidableEq K]

/-- The number of entries. -/
def len (m : HashMap K V) : Nat := m.keys.card

theorem lookup_insert_ite (m : HashMap K V) (a b : K) (v : V) :
    (m.insert b v).lookup a = if a = b then some v else m.lookup a := by
  by_cases h : a = b
  · subst h; simp
  · rw [lookup_insert_of_ne _ h, if_neg h]

theorem lookup_erase_ite (m : HashMap K V) (a b : K) :
    (m.erase b).lookup a = if a = b then none else m.lookup a := by
  by_cases h : a = b
  · subst h; simp
  · rw [lookup_erase_ne h, if_neg h]

theorem lookup_singleton_ite (a b : K) (v : V) :
    (singleton b v : HashMap K V).lookup a = if a = b then some v else none := by
  by_cases h : a = b
  · subst h; simp
  · rw [if_neg h, lookup_eq_none, mem_singleton]; exact h

/-- Entries with different keys, inserted one after another. -/
theorem lookup_foldl_insert {l : List (K × V)} {m : HashMap K V} {k : K} {v : V}
    (nodup : (l.map Prod.fst).Nodup) :
    (l.foldl (fun m e => m.insert e.1 e.2) m).lookup k = some v ↔
      (k, v) ∈ l ∨ (k ∉ l.map Prod.fst ∧ m.lookup k = some v) := by
  induction l generalizing m with
  | nil => simp
  | cons e l ih =>
    obtain ⟨a, w⟩ := e
    obtain ⟨hnew, hnodup⟩ := List.nodup_cons.1 nodup
    rw [List.foldl_cons, ih hnodup, lookup_insert_ite]
    by_cases hk : k = a
    · subst hk
      have hno : ∀ x, (k, x) ∉ l := fun x hx => hnew (List.mem_map.2 ⟨_, hx, rfl⟩)
      simp [hno, eq_comm, List.mem_map]
    · simp [hk, List.mem_map]

theorem mem_keys_iff {m : HashMap K V} {k : K} : k ∈ m.keys ↔ ∃ v, m.lookup k = some v := by
  rw [mem_keys, mem_iff]

@[simp] theorem keys_insert (m : HashMap K V) (k : K) (v : V) :
    (m.insert k v).keys = Insert.insert k m.keys := by
  ext a; simp [mem_keys]

omit [DecidableEq K] in
@[simp] theorem len_empty : (∅ : HashMap K V).len = 0 := by simp [len]

theorem len_insert_new {m : HashMap K V} {k : K} (v : V) (h : k ∉ m) :
    (m.insert k v).len = m.len + 1 := by
  rw [len, keys_insert, Finset.card_insert_of_notMem (by rwa [mem_keys]), len]

theorem len_insert_le (m : HashMap K V) (k : K) (v : V) : (m.insert k v).len ≤ m.len + 1 := by
  rw [len, keys_insert]
  exact Finset.card_insert_le ..

/-- The value at `k`, or the empty map: `entry(k).or_default()`. -/
def orDefault {L W : Type} (m : HashMap K (HashMap L W)) (k : K) : HashMap L W :=
  (m.lookup k).getD ∅

@[simp] theorem orDefault_some {L W : Type} {m : HashMap K (HashMap L W)} {k : K}
    {v : HashMap L W} (h : m.lookup k = some v) : m.orDefault k = v := by simp [orDefault, h]

@[simp] theorem orDefault_none {L W : Type} {m : HashMap K (HashMap L W)} {k : K}
    (h : m.lookup k = none) : m.orDefault k = ∅ := by simp [orDefault, h]

theorem orDefault_insert {L W : Type} (m : HashMap K (HashMap L W)) (a b : K) (x : HashMap L W) :
    (m.insert b x).orDefault a = if a = b then x else m.orDefault a := by
  unfold orDefault
  rw [lookup_insert_ite]
  split <;> rfl

/-- A map of maps is given by its keys and by the entries of the inner maps. -/
theorem ext_orDefault {L W : Type} [DecidableEq L] {m m' : HashMap K (HashMap L W)}
    (hkeys : ∀ k, k ∈ m ↔ k ∈ m')
    (hentries : ∀ k l, (m.orDefault k).lookup l = (m'.orDefault k).lookup l) : m = m' := by
  refine ext_lookup fun k => ?_
  have hinner : m.orDefault k = m'.orDefault k := ext_lookup (hentries k)
  by_cases hk : k ∈ m
  · obtain ⟨x, hx⟩ := mem_iff.1 hk
    obtain ⟨y, hy⟩ := mem_iff.1 ((hkeys k).1 hk)
    rw [orDefault_some hx, orDefault_some hy] at hinner
    rw [hx, hy, hinner]
  · rw [lookup_eq_none.2 hk, lookup_eq_none.2 fun h => hk ((hkeys k).2 h)]

/-! ## Iteration -/

/-- The entries, in the order `ord` visits the keys. -/
def iter (ord : KeyOrder K) (m : HashMap K V) : List (K × V) :=
  (ord.list m.keys).filterMap fun k => (m.lookup k).map (k, ·)

theorem mem_iter {ord : KeyOrder K} {m : HashMap K V} {k : K} {v : V} :
    (k, v) ∈ m.iter ord ↔ m.lookup k = some v := by
  simp only [iter, List.mem_filterMap, KeyOrder.mem, Option.map_eq_some_iff, Prod.mk.injEq]
  constructor
  · rintro ⟨_, -, _, h, rfl, rfl⟩; exact h
  · intro h
    exact ⟨k, mem_keys.2 (mem_of_lookup_eq_some h), v, h, rfl, rfl⟩

theorem lookup_of_iter_nil {ord : KeyOrder K} {m : HashMap K V} (h : m.iter ord = []) (k : K) :
    m.lookup k = none := by
  cases hv : m.lookup k with
  | none => rfl
  | some v =>
    have hmem : (k, v) ∈ m.iter ord := mem_iter.2 hv
    rw [h] at hmem
    cases hmem

theorem iter_keys (ord : KeyOrder K) (m : HashMap K V) :
    (m.iter ord).map Prod.fst = ord.list m.keys := by
  have h : ∀ l : List K, (∀ k ∈ l, k ∈ m.keys) →
      (l.filterMap fun k => (m.lookup k).map (k, ·)).map Prod.fst = l := by
    intro l
    induction l with
    | nil => intro _; rfl
    | cons k l ih =>
      intro hl
      obtain ⟨v, hv⟩ := mem_keys_iff.1 (hl k List.mem_cons_self)
      simp only [List.filterMap_cons, hv, Option.map_some, List.map_cons]
      rw [ih fun a ha => hl a (List.mem_cons_of_mem _ ha)]
  exact h _ fun k hk => (ord.mem _ k).1 hk

theorem iter_nodup (ord : KeyOrder K) (m : HashMap K V) : ((m.iter ord).map Prod.fst).Nodup := by
  rw [iter_keys]; exact ord.nodup _

theorem length_iter (ord : KeyOrder K) (m : HashMap K V) : (m.iter ord).length = m.len := by
  rw [← List.length_map (f := Prod.fst), iter_keys, KeyOrder.length_list, len]

/-! ## Maps from key sets -/

/-- The map with the entries `f k`, for the keys `k` of `s` where `f` has a value. -/
def ofFinset (s : Finset K) (f : K → Option V) : HashMap K V where
  entries := s.val.filterMap fun k => (f k).map (Sigma.mk k)
  nodupKeys := by
    rw [← Multiset.nodup_keys, Multiset.keys, Multiset.map_filterMap]
    have h : (s.val.filterMap fun k => ((f k).map (Sigma.mk (β := fun _ => V) k)).map Sigma.fst) =
        s.val.filter fun k => (f k).isSome := by
      rw [← Multiset.filterMap_eq_filter]
      congr 1
      funext k
      cases hk : f k <;> simp [Option.guard, hk]
    rw [h]
    exact s.nodup.filter _

theorem lookup_ofFinset (s : Finset K) (f : K → Option V) (k : K) :
    (ofFinset s f).lookup k = if k ∈ s then f k else none := by
  have key : ∀ v, (ofFinset s f).lookup k = some v ↔ k ∈ s ∧ f k = some v := by
    intro v
    rw [lookup_eq_some_iff]
    simp only [ofFinset, Multiset.mem_filterMap, Option.map_eq_some_iff]
    constructor
    · rintro ⟨a, ha, w, hw, he⟩
      cases he
      exact ⟨ha, hw⟩
    · rintro ⟨hk, hv⟩
      exact ⟨k, hk, v, hv, rfl⟩
  by_cases hk : k ∈ s
  · rw [if_pos hk]
    cases hf : f k with
    | none =>
      cases hl : (ofFinset s f).lookup k with
      | none => rfl
      | some v => exact absurd ((key v).1 hl).2 (by simp [hf])
    | some v => exact (key v).2 ⟨hk, hf⟩
  · rw [if_neg hk]
    cases hl : (ofFinset s f).lookup k with
    | none => rfl
    | some v => exact absurd ((key v).1 hl).1 hk

/-- The map with `f` applied to every value. -/
def mapValues {W : Type} (f : V → W) (m : HashMap K V) : HashMap K W :=
  ofFinset m.keys fun k => (m.lookup k).map f

@[simp] theorem lookup_mapValues {W : Type} (f : V → W) (m : HashMap K V) (k : K) :
    (m.mapValues f).lookup k = (m.lookup k).map f := by
  rw [mapValues, lookup_ofFinset]
  split
  · rfl
  · rename_i hk
    rw [lookup_eq_none.2 fun h => hk (mem_keys.2 h)]
    rfl

theorem mapValues_insert {W : Type} (f : V → W) (m : HashMap K V) (k : K) (v : V) :
    (m.insert k v).mapValues f = (m.mapValues f).insert k (f v) := by
  refine ext_lookup fun a => ?_
  rw [lookup_mapValues, lookup_insert_ite, lookup_insert_ite, lookup_mapValues]
  split <;> rfl

theorem mapValues_erase {W : Type} (f : V → W) (m : HashMap K V) (k : K) :
    (m.erase k).mapValues f = (m.mapValues f).erase k := by
  refine ext_lookup fun a => ?_
  rw [lookup_mapValues, lookup_erase_ite, lookup_erase_ite, lookup_mapValues]
  split <;> rfl

end Finmap
