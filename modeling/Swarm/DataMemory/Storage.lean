import Swarm.DataMemory.Events

/-!
# The local storage

Three paths write the local storage: shards served by the author of a put, the
node's own puts, and programs over the memory bus. All of them keep to the Sid
assigned to this peer, so that a bus read returns what was stored last.
-/

namespace Swarm.DataMemory

variable {B : Nat}

namespace InitializedDataMemory

variable {m m' m₀ : InitializedDataMemory B} {out : List (OutEvent B)}

/-- The shard that an input stores for `v`, by whichever path and under whichever Sid. -/
def storedFor (m : InitializedDataMemory B) (v : Vid) : Input B → Option (Shard B)
  | .event _ e => (m.stores e).bind fun p => if p.1.1 = v then some p.2 else none
  | .busWrite dataId shard =>
    if dataId = v then m.assignedShardId.map fun _ => shard else none
  | .busRead _ => none

/-- The shard stored last for `v` in a run. -/
def lastStored (v : Vid) : InitializedDataMemory B → List (Input B) → Option (Shard B)
  | _, [] => none
  | m, i :: is =>
    match m.turn i with
    | .next m' _ => (lastStored v m' is).or (m.storedFor v i)
    | _ => none

/-- Each answer to a `ServeShardRequest` names the shard of a request that the run has emitted
before. -/
def AnswersRequests (m₀ : InitializedDataMemory B) (is : List (Input B)) : Prop :=
  ∀ js order f shard ks, is = js ++ .event order (.serveShardResponse f shard) :: ks →
    ∃ m out location, Turn.loop turn m₀ js = .next m out ∧
      OutEvent.serveShardRequest f location ∈ out

theorem AnswersRequests.prefix {is js : List (Input B)} (h : AnswersRequests m₀ (is ++ js)) :
    AnswersRequests m₀ is :=
  fun ks order f shard ls he => h ks order f shard (ls ++ js) (by simp [he])

theorem AnswersRequests.snoc {is : List (Input B)} {i : Input B} (h : AnswersRequests m₀ is)
    (hi : ∀ order f shard, i = .event order (.serveShardResponse f shard) →
      ∃ m out location, Turn.loop turn m₀ is = .next m out ∧
        OutEvent.serveShardRequest f location ∈ out) : AnswersRequests m₀ (is ++ [i]) := by
  intro js order f shard ks he
  rcases List.eq_nil_or_concat ks with rfl | ⟨ls, k, rfl⟩
  · obtain ⟨rfl, hlast⟩ := List.append_inj' he rfl
    exact hi order f shard (List.singleton_inj.1 hlast)
  · have hlast : is ++ [i] = (js ++ .event order (.serveShardResponse f shard) :: ls) ++ [k] := by
      simpa using he
    exact h js order f shard ls (List.append_inj' hlast rfl).1

theorem lastStored_append {v : Vid} {is : List (Input B)} {i : Input B}
    (h : Turn.loop turn m is = .next m' out) (hi : (m'.turn i).Continues) :
    lastStored v m (is ++ [i]) = (m'.storedFor v i).or (lastStored v m is) := by
  induction is generalizing m out with
  | nil =>
    cases h
    obtain ⟨t, o, ht⟩ := Turn.continues_iff.1 hi
    simp [lastStored, ht]
  | cons j is ih =>
    obtain ⟨t, o, o', ht, hl, -⟩ := Turn.loop_cons_next.1 h
    rw [List.cons_append, lastStored, lastStored, ht]
    change (lastStored v t (is ++ [i])).or _ = (m'.storedFor v i).or ((lastStored v t is).or _)
    rw [ih hl, Option.or_assoc]

/-! ## One turn -/

/-- The shard an event stores is the assigned one, if answers name the assigned shard. -/
theorem stores_assigned {e : InEvent B} {f : FullShardId} {x : Shard B}
    (hans : ∀ g shard, e = .serveShardResponse g shard → m.assignedShardId = some g.2)
    (h : m.stores e = some (f, x)) : m.assignedShardId = some f.2 := by
  rcases stores_cases h with rfl | ⟨-, hassigned, -⟩
  · exact hans f _ rfl
  · exact hassigned

theorem storedFor_assigned {i : Input B} {v : Vid}
    (hans : ∀ order g shard, i = .event order (.serveShardResponse g shard) →
      m.assignedShardId = some g.2) (h : (m.storedFor v i).isSome) : m.assignedShardId.isSome := by
  cases i with
  | busRead u => cases h
  | busWrite u x =>
    simp only [storedFor] at h
    split at h
    · simpa using h
    · cases h
  | event order e =>
    simp only [storedFor] at h
    cases hst : m.stores e with
    | none => simp [hst] at h
    | some p => simp [stores_assigned (fun g shard he => hans order g shard (he ▸ rfl)) hst]

theorem getShard_turn {i : Input B} (h : m.turn i = .next m' out)
    (hans : ∀ order g shard, i = .event order (.serveShardResponse g shard) →
      m.assignedShardId = some g.2) (f : FullShardId) :
    m'.getShard f =
      if m.assignedShardId = some f.2 then (m.storedFor f.1 i).or (m.getShard f)
      else m.getShard f := by
  cases i with
  | busRead u =>
    cases h
    simp [storedFor]
  | busWrite u x =>
    cases h
    cases hs : m.assignedShardId with
    | none => simp [busWrite, hs]
    | some sid =>
      rw [getShard_busWrite hs]
      obtain ⟨v, s⟩ := f
      by_cases hv : u = v <;> by_cases hsid : sid = s <;>
        simp [storedFor, hs, hv, hsid, eq_comm (a := v), eq_comm (a := s)]
  | event order e =>
    rw [getShard_handle h f]
    cases hst : m.stores e with
    | none => simp [storedFor, hst]
    | some p =>
      obtain ⟨g, x⟩ := p
      have hg := stores_assigned (fun g shard he => hans order g shard (he ▸ rfl)) hst
      obtain ⟨v, s⟩ := f
      obtain ⟨u, t⟩ := g
      rw [hg]
      by_cases hv : u = v <;> by_cases hsid : t = s <;>
        simp [storedFor, hst, hv, hsid, eq_comm (a := v), eq_comm (a := s)]

/-! ## A whole run -/

/-- The storage after a run: only assigned shards, and of those the one stored last. -/
structure StoredLast (m₀ : InitializedDataMemory B) (is : List (Input B)) (out : List (OutEvent B))
    (m : InitializedDataMemory B) : Prop where
  assigned : m.assignedShardId = m₀.assignedShardId
  requested : ∀ f location, OutEvent.serveShardRequest f location ∈ out →
    m₀.assignedShardId = some f.2
  shard : ∀ f, m.getShard f =
    if m₀.assignedShardId = some f.2 then lastStored f.1 m₀ is else none
  stored : ∀ v, (lastStored v m₀ is).isSome → m₀.assignedShardId.isSome

theorem StoredLast.start (hempty : ∀ f, m₀.getShard f = none) : StoredLast m₀ [] [] m₀ :=
  ⟨rfl, by simp, fun f => by simp [hempty, lastStored], by simp [lastStored]⟩

theorem StoredLast.next {is : List (Input B)} {i : Input B} {o : List (OutEvent B)}
    (hm : StoredLast m₀ is out m) (hans : AnswersRequests m₀ (is ++ [i]))
    (hloop : Turn.loop turn m₀ is = .next m out) (hturn : m.turn i = .next m' o) :
    StoredLast m₀ (is ++ [i]) (out ++ o) m' := by
  have hi : ∀ order f shard, i = .event order (.serveShardResponse f shard) →
      m.assignedShardId = some f.2 := by
    rintro order f shard rfl
    obtain ⟨t, out', location, hl, hmem⟩ := hans is order f shard [] rfl
    rw [hloop] at hl
    cases hl
    rw [hm.assigned]
    exact hm.requested f location hmem
  have hcont : (m.turn i).Continues := Turn.continues_iff.2 ⟨m', o, hturn⟩
  refine ⟨?_, fun f location hmem => ?_, fun f => ?_, fun v hv => ?_⟩
  · obtain ⟨hd, -, hid⟩ := turn_fixed hturn
    rw [← hm.assigned, assignedShardId, hd, hid, assignedShardId]
  · rcases List.mem_append.1 hmem with hmem | hmem
    · exact hm.requested f location hmem
    · cases i with
      | event order e =>
        have hemit : m.Emits e (.serveShardRequest f location) := handle_emits hturn _ hmem
        rw [← hm.assigned]
        exact hemit.2.1
      | busRead u => cases hturn; cases hmem
      | busWrite u x => cases hturn; cases hmem
  · rw [getShard_turn hturn hi f, hm.shard f, hm.assigned, lastStored_append hloop hcont]
    split <;> rfl
  · rw [lastStored_append hloop hcont, Option.isSome_or, Bool.or_eq_true] at hv
    rcases hv with hv | hv
    · exact hm.assigned ▸ storedFor_assigned hi hv
    · exact hm.stored v hv

theorem loop_storedLast {is : List (Input B)} (hempty : ∀ f, m₀.getShard f = none)
    (hans : AnswersRequests m₀ is) (h : Turn.loop turn m₀ is = .next m out) :
    StoredLast m₀ is out m := by
  refine (Turn.loop_invariant
    (I := fun js os t => Turn.loop turn m₀ js = .next t os ∧
      (AnswersRequests m₀ js → StoredLast m₀ js os t)) ⟨rfl, fun _ => .start hempty⟩ ?_ h).2 hans
  rintro js os t i t' o ⟨hloop, ih⟩ hturn
  exact ⟨Turn.loop_append_next.2 ⟨t, os, o, hloop, Turn.loop_singleton_next.2 hturn, rfl⟩,
    fun hans => (ih hans.prefix).next hans hloop hturn⟩

/-- **One shard for each address.** In a run from an initialised memory whose `ServeShardResponse`s
answer requests it has emitted, the local storage has no Sid but the assigned one, and a bus
read returns what was stored last for the address, which is what an `AssignedRequest` gets. -/
theorem busRead_eq_lastStored (u : UninitializedDataMemory) (distribution : HashMap PeerId Sid)
    {is : List (Input B)} (hans : AnswersRequests (u.initializeWith distribution) is)
    (h : Turn.loop turn (u.initializeWith distribution) is = .next m out) :
    (∀ v shards s, m.localStorage.lookup v = some shards → s ∈ shards →
      distribution.lookup u.localId = some s) ∧
    ∀ v order, m.busRead order v = lastStored v (u.initializeWith distribution) is ∧
      ∀ s, distribution.lookup u.localId = some s → m.busRead order v = m.getShard (v, s) := by
  have hm := loop_storedLast (fun _ => rfl) hans h
  have honly : ∀ f, (m.getShard f).isSome → distribution.lookup u.localId = some f.2 := by
    intro f hf
    rw [hm.shard f] at hf
    split at hf
    · assumption
    · cases hf
  refine ⟨fun v shards s hv hs => honly (v, s) ?_, fun v order => ?_⟩
  · simpa [getShard, hv, Finmap.lookup_isSome] using hs
  · cases hsid : distribution.lookup u.localId with
    | none =>
      have hread : m.busRead order v = none := by
        rw [← Option.not_isSome_iff_eq_none, busRead_isSome]
        rintro ⟨s, hs⟩
        have := honly (v, s) hs
        rw [hsid] at this
        cases this
      have hlast : lastStored v (u.initializeWith distribution) is = none := by
        rw [← Option.not_isSome_iff_eq_none]
        intro hv
        have hassigned : (distribution.lookup u.localId).isSome := hm.stored v hv
        rw [hsid] at hassigned
        cases hassigned
      exact ⟨hread.trans hlast.symm, by simp⟩
    | some sid =>
      have hread := busRead_eq (v := v) (fun s hs => by
        have := honly (v, s) hs
        rw [hsid] at this
        exact (Option.some.inj this).symm) order
      refine ⟨?_, fun s hs => Option.some.inj hs ▸ hread⟩
      rw [hread, hm.shard (v, sid)]
      exact if_pos hsid

/-- Peer 0 pulls the shard of a put of peer 1; a program overwrites it. -/
def sampleStores : List (Input 4) :=
  [.event default (.storageRequestTx ⟨0⟩ (samplePeer 1)),
    .event default (.serveShardResponse (⟨0⟩, ⟨0⟩) (some ⟨fun _ => 1⟩)),
    .busWrite ⟨0⟩ ⟨fun _ => 2⟩]

theorem answersRequests_sample : AnswersRequests sampleMemory sampleStores := by
  have hnone : AnswersRequests (sampleMemory (B := 4)) [] := fun js _ _ _ _ he => by simp at he
  refine ((hnone.snoc (fun _ _ _ he => ?_)).snoc (fun order f shard he => ?_)).snoc
    (fun _ _ _ he => ?_)
  · cases he
  · cases he
    exact ⟨_, _, samplePeer 1, rfl, List.mem_singleton_self _⟩
  · cases he

theorem busRead_eq_lastStored_sample :
    ∃ (m : InitializedDataMemory 4) (out : List (OutEvent 4)),
      Turn.loop turn sampleMemory sampleStores = .next m out ∧
      m.busRead default ⟨0⟩ = some ⟨fun _ => 2⟩ := by
  refine ⟨_, _, rfl, ?_⟩
  exact ((busRead_eq_lastStored _ _ answersRequests_sample rfl).2 ⟨0⟩ default).1.trans rfl

end InitializedDataMemory

end Swarm.DataMemory
