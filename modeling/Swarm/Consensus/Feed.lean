import Swarm.Consensus.Graph

/-!
# What the recognised events feed to a node

A module takes the transactions of one kind. `taken f` are those of an event
that `f` selects; `upcoming f` are those that consensus has yet to put out. The
stream of recognised transactions brings them in the order of the events and,
within an event, of the payload. The hash that comes with a transaction is not
looked at.
-/

namespace Swarm.Consensus

variable {G α : Type} (f : Transaction → Option α)

/-- What `f` selects of an event, in payload order. -/
def taken (e : Event) : List α := e.payload.transactions.filterMap f

def ofTx (d : NextTxData) : Option α := f d.2.1

/-- What `f` selects of an output of consensus: recognised transactions only. -/
def ofOutput (p : Stream × NextTxData) : Option α := if p.1 = .recognized then ofTx f p.2 else none

/-- What consensus has yet to put out. -/
def upcoming (g : GraphWrapper G) : List α :=
  (g.buffer .recognized).pending.filterMap (ofTx f) ++ (g.ready .recognized).flatMap (taken f)

theorem ofTx_yielded (hash : Hash) (e : Event) : (yielded hash e).filterMap (ofTx f) = taken f e := by
  unfold yielded taken
  cases e.payload.transactions with
  | nil => rfl
  | cons tx txs =>
    show ((e.author, tx, e.hash) :: txs.map fun tx => (e.author, tx, hash)).filterMap (ofTx f) = _
    rw [List.filterMap_cons, List.filterMap_cons, List.filterMap_map]
    rfl

theorem ofTx_flatMap_yielded (hash : Hash) (es : List Event) :
    (es.flatMap (yielded hash)).filterMap (ofTx f) = es.flatMap (taken f) := by
  induction es with
  | nil => rfl
  | cons e es ih =>
    rw [List.flatMap_cons, List.filterMap_append, ih, ofTx_yielded, List.flatMap_cons]

theorem upcoming_nextRecognized (g : GraphWrapper G) :
    (g.nextRecognized.1.toList.filterMap (ofTx f)) ++ upcoming f g.nextRecognized.2 =
      upcoming f g := by
  obtain ⟨htx, hready, hbuffer, -⟩ := next_eq .recognized g
  obtain ⟨-, hsum, -⟩ := nextTx_spec (g.ready .recognized) (g.buffer .recognized)
  have h := congrArg (List.filterMap (ofTx f)) hsum
  simp only [List.filterMap_append, ofTx_flatMap_yielded] at h
  unfold upcoming
  rw [← h]
  rw [← htx, ← hready, ← hbuffer]
  rfl

theorem upcoming_nextFinalized (g : GraphWrapper G) :
    upcoming f g.nextFinalized.2 = upcoming f g := by
  obtain ⟨-, -, -, hother⟩ := next_eq .finalized g
  obtain ⟨hready, hbuffer⟩ := hother .recognized (by decide)
  unfold upcoming
  rw [← hready, ← hbuffer]
  rfl

/-- **One poll** puts out the next of what is upcoming, if it puts out any of it. -/
theorem upcoming_pollNext (g : GraphWrapper G) :
    g.pollNext.1.toList.filterMap (ofOutput f) ++ upcoming f g.pollNext.2 = upcoming f g := by
  rw [← upcoming_nextFinalized f g]
  unfold GraphWrapper.pollNext
  rcases g.nextFinalized with ⟨_ | tx, g'⟩
  · show _ = upcoming f g'
    rw [← upcoming_nextRecognized f g']
    dsimp only
    rcases g'.nextRecognized with ⟨_ | tx, g''⟩ <;> rfl
  · rfl

theorem upcoming_arrive (k : Stream) (e : Event) (g : GraphWrapper G) :
    upcoming f (g.arrive k e) =
      upcoming f g ++ (if k = .recognized then [e] else []).flatMap (taken f) := by
  obtain ⟨hbuffer, hready⟩ := arrive_eq k e g
  unfold upcoming
  rw [hbuffer, hready, List.flatMap_append, List.append_assoc]

/-- Events of which `f` selects nothing do not matter. -/
theorem taken_filter {p : Event → Prop} [DecidablePred p] {es : List Event}
    (h : ∀ e ∈ es, taken f e ≠ [] → p e) :
    es.flatMap (taken f) = (es.filter p).flatMap (taken f) := by
  induction es with
  | nil => rfl
  | cons e es ih =>
    rw [List.forall_mem_cons] at h
    rw [List.flatMap_cons, ih h.2, List.filter_cons]
    by_cases hp : p e
    · simp [hp]
    · have hnone : taken f e = [] := by
        by_contra hne
        exact hp (h.1 hne)
      simp [hp, hnone]

end Swarm.Consensus
