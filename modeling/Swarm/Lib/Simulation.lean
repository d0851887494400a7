import Mathlib.Data.List.Perm.Subperm
import Mathlib.Data.List.Nodup
import Swarm.Lib.Actors

/-!
# Simulation between actor networks

A network whose nodes have queues inside is shown as a network of plain nodes:
the entries of a queue are messages in flight. `Below` compares two states of
the plain network up to the order of the messages; the larger one may have
further messages, which stand for lost ones, and further outputs.

`Locally` is what one plain node can do with messages that it has. If every
reaction of a node with queues is such a local run, every run of the network
with queues is below a run of the plain one: `Shown.simulation`.
-/

namespace Actors

variable {Id σ μ ω γ α : Type} [DecidableEq Id] {A : Actors Id σ μ ω γ α}

/-- The own actions of the nodes in a run. -/
def acts (as : List (Action Id γ α)) : List (Id × α) :=
  as.filterMap fun
    | .act p _ a => some (p, a)
    | .deliver _ _ => none

omit [DecidableEq Id] in
@[simp] theorem acts_append (as bs : List (Action Id γ α)) : acts (as ++ bs) = acts as ++ acts bs :=
  List.filterMap_append

theorem append_shuffle {β : Type} (a b c d : List β) :
    (a ++ b ++ (c ++ d)).Perm (a ++ c ++ (b ++ d)) := by
  rw [List.append_assoc, List.append_assoc, ← List.append_assoc b, ← List.append_assoc c]
  exact (List.perm_append_comm.append_right d).append_left a

/-! ## More messages and outputs -/

/-- The nodes are the same; `s` has at least the messages and the outputs of `v`. -/
structure Config.Below (v s : Config Id σ μ ω) : Prop where
  nodes : v.nodes = s.nodes
  pool : v.pool.Subperm s.pool
  log : v.log.Sublist s.log

variable {v v' s s' t : Config Id σ μ ω}

omit [DecidableEq Id] in
theorem Config.Below.refl (s : Config Id σ μ ω) : s.Below s :=
  ⟨rfl, List.Subperm.refl _, List.Sublist.refl _⟩

omit [DecidableEq Id] in
theorem Config.Below.trans (h : v.Below s) (h' : s.Below t) : v.Below t :=
  ⟨h.nodes.trans h'.nodes, h.pool.trans h'.pool, h.log.trans h'.log⟩

theorem Config.Below.react {p : Id} {pool pool' : List (Id × μ)} (h : v.Below s)
    (hpool : pool.Subperm pool') (r : Reaction Id σ μ ω) :
    (v.react p pool r).Below (s.react p pool' r) where
  nodes := by rw [Config.react, Config.react, h.nodes]
  pool := hpool.append (List.Subperm.refl _)
  log := h.log.append (List.Sublist.refl _)

omit [DecidableEq Id] in
/-- A message can be taken out of a larger pool as well. -/
theorem exists_eraseIdx {e : Id × μ} {rest pool : List (Id × μ)}
    (h : (e :: rest).Subperm pool) :
    ∃ i, pool[i]? = some e ∧ rest.Subperm (pool.eraseIdx i) := by
  obtain ⟨i, hi⟩ := List.getElem?_of_mem (h.subset List.mem_cons_self)
  obtain ⟨hlt, hget⟩ := List.getElem?_eq_some_iff.1 hi
  have hperm : (e :: pool.eraseIdx i).Perm pool := hget ▸ List.getElem_cons_eraseIdx_perm hlt
  exact ⟨i, hi, (List.subperm_cons e).1 (hperm.symm.subperm_left.1 h)⟩

omit [DecidableEq Id] in
theorem cons_eraseIdx_perm {e : Id × μ} {pool : List (Id × μ)} {i : Nat} (h : pool[i]? = some e) :
    (e :: pool.eraseIdx i).Perm pool := by
  obtain ⟨hlt, hget⟩ := List.getElem?_eq_some_iff.1 h
  exact hget ▸ List.getElem_cons_eraseIdx_perm hlt

/-- The delivery of a message, wherever it is in the pool. -/
theorem exists_deliver_step {p : Id} {m : μ} {rest : List (Id × μ)} {c : γ}
    {r : Reaction Id σ μ ω} (hpool : ((p, m) :: rest).Subperm s.pool)
    (hr : A.receive p c (s.nodes p) m = some r) :
    ∃ i pool, A.step s (.deliver i c) = some (s.react p pool r) ∧ rest.Subperm pool := by
  obtain ⟨i, hi, hrest⟩ := exists_eraseIdx hpool
  refine ⟨i, _, ?_, hrest⟩
  simp only [step, hi, Option.bind_some, hr, Option.map_some]

/-- **A step** that a state can make, a larger one can make as well. -/
theorem Config.Below.step {a : Action Id γ α} (h : v.Below s) (hs : A.step v a = some v') :
    ∃ a' s', A.step s a' = some s' ∧ v'.Below s' ∧ acts [a'] = acts [a] := by
  cases step_moves hs with
  | @delivered i c p m r pending reaction =>
    rw [h.nodes] at reaction
    obtain ⟨j, pool, hstep, hrest⟩ :=
      exists_deliver_step ((cons_eraseIdx_perm pending).subperm.trans h.pool) reaction
    exact ⟨_, _, hstep, h.react hrest r, rfl⟩
  | @acted p c a r reaction =>
    rw [h.nodes] at reaction
    refine ⟨.act p c a, _, ?_, h.react h.pool r, rfl⟩
    simp only [Actors.step, reaction, Option.map_some]

theorem Config.Below.run {as : List (Action Id γ α)} (h : v.Below s)
    (run : Trace A.step v as v') :
    ∃ bs s', Trace A.step s bs s' ∧ v'.Below s' ∧ acts bs = acts as := by
  induction run with
  | nil => exact ⟨[], s, .nil s, h, rfl⟩
  | snoc _ hs ih =>
    obtain ⟨bs, s', run', h', hacts⟩ := ih
    obtain ⟨b, s'', hb, h'', hact⟩ := h'.step hs
    exact ⟨bs ++ [b], s'', run'.snoc hb, h'', by rw [acts_append, acts_append, hacts, hact]⟩

/-- **The simulation rule**: it suffices that every step is matched by a run of the plain
network, from the state that the network is shown as. `I` may speak about the steps so far and
the own actions of the plain nodes. -/
theorem simulation {τ ι : Type} {step' : τ → ι → Option τ} {f : τ → Config Id σ μ ω}
    {I : List ι → τ → List (Id × α) → Prop} {t₀ : τ} (hbelow : (f t₀).Below s) (init : I [] t₀ [])
    (hstep : ∀ bs t b t' us, I bs t us → step' t b = some t' → ∃ as v,
      Trace A.step (f t) as v ∧ (f t').Below v ∧ I (bs ++ [b]) t' (us ++ acts as))
    {bs : List ι} {t : τ} (run : Trace step' t₀ bs t) :
    ∃ as s', Trace A.step s as s' ∧ (f t).Below s' ∧ I bs t (acts as) := by
  induction run with
  | nil => exact ⟨[], s, .nil s, hbelow, init⟩
  | snoc _ hs ih =>
    obtain ⟨as, s', run, h, hI⟩ := ih
    obtain ⟨as', v, run', hv, hI'⟩ := hstep _ _ _ _ _ hI hs
    obtain ⟨as'', s'', run'', h'', hacts⟩ := h.run run'
    refine ⟨as ++ as'', s'', run.append run'', hv.trans h'', ?_⟩
    rw [acts_append, hacts]
    exact hI'

/-! ## Local runs -/

/-- Node `p` comes from state `n` and messages `ms` to state `n'` and messages `ms'`, with the
own actions `us` and the outputs `out`. -/
inductive Locally (A : Actors Id σ μ ω γ α) (p : Id) :
    σ → List (Id × μ) → List α → σ → List (Id × μ) → List ω → Prop where
  | nil (n : σ) (ms : List (Id × μ)) : Locally A p n ms [] n ms []
  | deliver {n n' : σ} {ms ms' left : List (Id × μ)} {m : μ} {c : γ} {us : List α} {out : List ω}
      {r : Reaction Id σ μ ω} (has : ms.Perm ((p, m) :: left))
      (reaction : A.receive p c n m = some r) (rest : Locally A p r.node (left ++ r.sent) us n' ms' out) :
      Locally A p n ms us n' ms' (r.outputs ++ out)
  | act {n n' : σ} {ms ms' : List (Id × μ)} {a : α} {c : γ} {us : List α} {out : List ω}
      {r : Reaction Id σ μ ω} (reaction : A.act p c n a = some r)
      (rest : Locally A p r.node (ms ++ r.sent) us n' ms' out) :
      Locally A p n ms (a :: us) n' ms' (r.outputs ++ out)

omit [DecidableEq Id] in
/-- A local run of one delivery. -/
theorem Locally.delivered {p : Id} {n : σ} {ms left : List (Id × μ)} {m : μ} {c : γ}
    {r : Reaction Id σ μ ω} (has : ms.Perm ((p, m) :: left))
    (reaction : A.receive p c n m = some r) :
    Locally A p n ms [] r.node (left ++ r.sent) r.outputs := by
  have h := Locally.deliver has reaction (.nil _ _)
  rwa [List.append_nil] at h

omit [DecidableEq Id] in
/-- A local run of one action. -/
theorem Locally.acted {p : Id} {n : σ} {ms : List (Id × μ)} {a : α} {c : γ}
    {r : Reaction Id σ μ ω} (reaction : A.act p c n a = some r) :
    Locally A p n ms [a] r.node (ms ++ r.sent) r.outputs := by
  have h : Locally A p n ms [a] r.node (ms ++ r.sent) (r.outputs ++ []) :=
    .act reaction (.nil _ _)
  rwa [List.append_nil] at h

/-- A local run is a run of the network; other nodes and messages do not change. -/
theorem Locally.run {p : Id} {n n' : σ} {ms ms' others : List (Id × μ)} {us : List α}
    {out : List ω} (h : Locally A p n ms us n' ms' out) (hnode : s.nodes p = n)
    (hpool : s.pool.Perm (ms ++ others)) :
    ∃ as v, Trace A.step s as v ∧ v.nodes = Function.update s.nodes p n' ∧
      v.pool.Perm (ms' ++ others) ∧ v.log = s.log ++ out.map (p, ·) ∧ acts as = us.map (p, ·) := by
  induction h generalizing s with
  | nil n ms =>
    refine ⟨[], s, .nil s, ?_, hpool, by simp, rfl⟩
    rw [← hnode, Function.update_eq_self]
  | @deliver n n' ms ms' left m c us out r has reaction rest ih =>
    have hmem : ((p, m) :: (left ++ others)).Perm s.pool :=
      (hpool.trans (has.append_right others)).symm
    obtain ⟨i, hi, -⟩ := exists_eraseIdx hmem.subperm
    have hleft : (s.pool.eraseIdx i).Perm (left ++ others) :=
      (List.perm_cons _).1 ((cons_eraseIdx_perm hi).trans hmem.symm)
    have hstep : A.step s (.deliver i c) = some (s.react p (s.pool.eraseIdx i) r) := by
      simp only [step, hi, Option.bind_some, hnode, reaction, Option.map_some]
    have hpool' : (s.react p (s.pool.eraseIdx i) r).pool.Perm (left ++ r.sent ++ others) := by
      refine (hleft.append_right r.sent).trans ?_
      rw [List.append_assoc, List.append_assoc]
      exact List.perm_append_comm.append_left left
    obtain ⟨as, v, run, hnodes, hv, hlog, hacts⟩ := ih react_nodes_self hpool'
    refine ⟨.deliver i c :: as, v, (Trace.single hstep).append run, ?_, hv, ?_, hacts⟩
    · rw [hnodes, Config.react, Function.update_idem]
    · rw [hlog, react_log, List.append_assoc, ← List.map_append]
  | @act n n' ms ms' a c us out r reaction rest ih =>
    have hstep : A.step s (.act p c a) = some (s.react p s.pool r) := by
      simp only [step, hnode, reaction, Option.map_some]
    have hpool' : (s.react p s.pool r).pool.Perm (ms ++ r.sent ++ others) := by
      refine (hpool.append_right r.sent).trans ?_
      rw [List.append_assoc, List.append_assoc]
      exact List.perm_append_comm.append_left ms
    obtain ⟨as, v, run, hnodes, hv, hlog, hacts⟩ := ih react_nodes_self hpool'
    refine ⟨.act p c a :: as, v, (Trace.single hstep).append run, ?_, hv, ?_, ?_⟩
    · rw [hnodes, Config.react, Function.update_idem]
    · rw [hlog, react_log, List.append_assoc, ← List.map_append]
    · show acts ([.act p c a] ++ as) = _
      rw [acts_append, hacts]
      rfl

/-! ## Networks with queues inside the nodes -/

variable {σ' μ' γ' α' : Type} {A' : Actors Id σ' μ' ω γ' α'}

/-- How a network with queues inside its nodes is shown as a plain one: the state of a node,
the messages in its queues, and the messages of a packet between nodes. -/
structure Shown (Id σ μ σ' μ' : Type) where
  node : σ' → σ
  inside : Id → σ' → List (Id × μ)
  packet : Id × μ' → List (Id × μ)

namespace Shown

variable (V : Shown Id σ μ σ' μ') (peers : List Id)

/-- The plain state, if the nodes `peers` have queues. -/
def config (t : Config Id σ' μ' ω) : Config Id σ μ ω where
  nodes p := V.node (t.nodes p)
  pool := t.pool.flatMap V.packet ++ peers.flatMap fun p => V.inside p (t.nodes p)
  log := t.log

/-- The reaction `r` of node `p` in state `n`, to the messages `ms` from outside, is a local run
of the plain node. -/
def Matches (A : Actors Id σ μ ω γ α) (p : Id) (n : σ') (ms : List (Id × μ)) (us : List α)
    (r : Reaction Id σ' μ' ω) : Prop :=
  ∃ ms' out, Locally A p (V.node n) (ms ++ V.inside p n) us (V.node r.node) ms' out ∧
    (r.sent.flatMap V.packet ++ V.inside p r.node).Subperm ms' ∧ r.outputs.Sublist out

variable {V peers} {t t' : Config Id σ' μ' ω} {p : Id}

/-- The queues of one node and those of all others. -/
theorem inside_perm (hnd : peers.Nodup) (hp : p ∈ peers) (nodes : Id → σ') :
    ∃ others, ∀ n, (peers.flatMap fun q => V.inside q (Function.update nodes p n q)).Perm
      (V.inside p n ++ others) := by
  induction peers with
  | nil => cases hp
  | cons q peers ih =>
    rw [List.nodup_cons] at hnd
    by_cases hq : q = p
    · subst hq
      refine ⟨peers.flatMap fun q => V.inside q (nodes q), fun n => ?_⟩
      rw [List.flatMap_cons, Function.update_self]
      refine List.Perm.append_left _ (List.Perm.of_eq (List.flatMap_congr fun r hr => ?_))
      rw [Function.update_of_ne]
      rintro rfl
      exact hnd.1 hr
    · obtain ⟨others, h⟩ := ih hnd.2 ((List.mem_cons.1 hp).resolve_left (Ne.symm hq))
      refine ⟨V.inside q (nodes q) ++ others, fun n => ?_⟩
      rw [List.flatMap_cons, Function.update_of_ne hq]
      refine ((h n).append_left _).trans ?_
      rw [← List.append_assoc, ← List.append_assoc]
      exact List.Perm.append_right _ List.perm_append_comm

/-- **One reaction** that is matched by a local run, with `ms` the messages of the packet that
is taken. -/
theorem matched {pool : List (Id × μ')} {ms : List (Id × μ)} {us : List α}
    {r : Reaction Id σ' μ' ω} (hnd : peers.Nodup) (hp : p ∈ peers)
    (hpool : (t.pool.flatMap V.packet).Perm (ms ++ pool.flatMap V.packet))
    (hr : V.Matches A p (t.nodes p) ms us r) :
    ∃ as v, Trace A.step (V.config peers t) as v ∧ (V.config peers (t.react p pool r)).Below v ∧
      acts as = us.map (p, ·) := by
  obtain ⟨ms', out, hlocal, hsent, hout⟩ := hr
  obtain ⟨others, hinside⟩ := inside_perm (V := V) hnd hp t.nodes
  have hhere := hinside (t.nodes p)
  rw [Function.update_eq_self] at hhere
  have hstart : (V.config peers t).pool.Perm
      (ms ++ V.inside p (t.nodes p) ++ (pool.flatMap V.packet ++ others)) :=
    (hpool.append hhere).trans (append_shuffle ..)
  obtain ⟨as, v, run, hnodes, hv, hlog, hacts⟩ := hlocal.run (s := V.config peers t) rfl hstart
  refine ⟨as, v, run, ⟨?_, ?_, ?_⟩, hacts⟩
  · rw [hnodes]
    funext q
    by_cases hq : q = p
    · subst hq
      simp [config]
    · simp [config, react_nodes_of_ne hq, hq]
  · refine List.Subperm.trans ?_ hv.symm.subperm
    have hend : ((t.react p pool r).pool.flatMap V.packet ++
        peers.flatMap fun q => V.inside q ((t.react p pool r).nodes q)).Perm
        (r.sent.flatMap V.packet ++ V.inside p r.node ++ (pool.flatMap V.packet ++ others)) := by
      rw [react_pool, List.flatMap_append]
      exact (List.perm_append_comm.append (hinside r.node)).trans (append_shuffle ..)
    exact hend.subperm.trans (hsent.append (List.Subperm.refl _))
  · rw [hlog]
    exact (List.Sublist.refl _).append (hout.map _)

/-- **Simulation by local runs**: every run of a network with queues is below a run of the plain
network. `I` is an invariant of the network with queues. -/
theorem simulation {I : List (Action Id γ' α') → Config Id σ' μ' ω → List (Id × α) → Prop}
    {t₀ : Config Id σ' μ' ω} {s₀ : Config Id σ μ ω} (hnd : peers.Nodup)
    (hbelow : (V.config peers t₀).Below s₀) (init : I [] t₀ [])
    (hreceive : ∀ bs t us i p c m r, I bs t us → t.pool[i]? = some (p, m) →
      A'.receive p c (t.nodes p) m = some r → p ∈ peers ∧
        ∃ us', V.Matches A p (t.nodes p) (V.packet (p, m)) us' r ∧
          I (bs ++ [.deliver i c]) (t.react p (t.pool.eraseIdx i) r) (us ++ us'.map (p, ·)))
    (hact : ∀ bs t us p c a r, I bs t us → A'.act p c (t.nodes p) a = some r → p ∈ peers ∧
      ∃ us', V.Matches A p (t.nodes p) [] us' r ∧
        I (bs ++ [.act p c a]) (t.react p t.pool r) (us ++ us'.map (p, ·)))
    {bs : List (Action Id γ' α')} {t : Config Id σ' μ' ω} (run : Trace A'.step t₀ bs t) :
    ∃ as s, Trace A.step s₀ as s ∧ (V.config peers t).Below s ∧ I bs t (acts as) := by
  refine Actors.simulation (f := V.config peers) hbelow init ?_ run
  intro bs t b t' us hI hs
  cases step_moves hs with
  | @delivered i c p m r pending reaction =>
    obtain ⟨hp, us', hm, hI'⟩ := hreceive bs t us i p c m r hI pending reaction
    have hpool : (t.pool.flatMap V.packet).Perm
        (V.packet (p, m) ++ (t.pool.eraseIdx i).flatMap V.packet) := by
      rw [← List.flatMap_cons]
      exact (cons_eraseIdx_perm pending).symm.flatMap_right _
    obtain ⟨as, v, run', hv, hacts⟩ := matched hnd hp hpool hm
    exact ⟨as, v, run', hv, hacts ▸ hI'⟩
  | @acted p c a r reaction =>
    obtain ⟨hp, us', hm, hI'⟩ := hact bs t us p c a r hI reaction
    obtain ⟨as, v, run', hv, hacts⟩ := matched hnd hp (List.Perm.refl _) hm
    exact ⟨as, v, run', hv, hacts ▸ hI'⟩

end Shown

end Actors
