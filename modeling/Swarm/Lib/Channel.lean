import Mathlib.Data.List.Basic

/-!
# Bounded channels

A queue between two tasks with room for `limit` entries, oldest first. Either
end may be dropped: a send then fails, and a receive fails once the queue is
empty. The bound is a field, so no channel holds more than its limit.

Tasks take turns: a task has a budget of channel operations, and once that is
used up every poll answers as if it had to wait, until the task yields. `send`
and `recv` are what a task that waits comes to; `pollSend` and `pollRecv` are
one poll with what is left of the budget.
-/

/-- A channel with room for `limit` entries. -/
structure Channel (limit : Nat) (α : Type) where
  queue : List α
  fits : queue.length ≤ limit
  /-- The receiver has not been dropped. -/
  receiving : Bool
  /-- A sender has not been dropped. -/
  sending : Bool

inductive SendError where
  | closed
  /-- The sender would have to wait. -/
  | full
  deriving DecidableEq

/-- The result of one poll of a receiver. -/
inductive Received (limit : Nat) (α : Type) where
  | item (a : α) (rest : Channel limit α)
  | closed
  | pending

namespace Channel

variable {limit : Nat} {α : Type}

@[ext] theorem ext {c c' : Channel limit α} (hqueue : c.queue = c'.queue)
    (hreceiving : c.receiving = c'.receiving) (hsending : c.sending = c'.sending) : c = c' := by
  cases c; cases c'
  subst hqueue hreceiving hsending
  rfl

/-- A new channel, with both ends. -/
def new : Channel limit α := ⟨[], Nat.zero_le _, true, true⟩

/-- `send`, without waiting for room. -/
def send (c : Channel limit α) (a : α) : Except SendError (Channel limit α) :=
  if c.receiving then
    if h : c.queue.length < limit then
      .ok { c with queue := c.queue ++ [a], fits := by rw [List.length_append]; exact h }
    else .error .full
  else .error .closed

/-- `recv`, without waiting for an entry. -/
def recv (c : Channel limit α) : Received limit α :=
  match h : c.queue with
  | a :: rest =>
    have fits : (a :: rest).length ≤ limit := h ▸ c.fits
    .item a { c with queue := rest, fits := Nat.le_of_succ_le fits }
  | [] => if c.sending then .pending else .closed

/-- One poll of `send`. -/
def pollSend (budget : Nat) (c : Channel limit α) (a : α) : Except SendError (Channel limit α) :=
  if budget = 0 then .error .full else c.send a

/-- One poll of `recv`. -/
def pollRecv (budget : Nat) (c : Channel limit α) : Received limit α :=
  if budget = 0 then .pending else c.recv

/-- The receiver is dropped. -/
def dropReceiver (c : Channel limit α) : Channel limit α := { c with receiving := false }

/-- The last sender is dropped. -/
def dropSender (c : Channel limit α) : Channel limit α := { c with sending := false }

/-- How many more entries fit. -/
def room (c : Channel limit α) : Nat := limit - c.queue.length

@[simp] theorem queue_new : (new : Channel limit α).queue = [] := rfl

@[simp] theorem queue_dropReceiver (c : Channel limit α) : c.dropReceiver.queue = c.queue := rfl

@[simp] theorem queue_dropSender (c : Channel limit α) : c.dropSender.queue = c.queue := rfl

variable {c c' : Channel limit α} {a : α} {budget : Nat}

theorem send_eq_ok : c.send a = .ok c' ↔ c.receiving = true ∧ c.queue.length < limit ∧
    c'.queue = c.queue ++ [a] ∧ c'.receiving = true ∧ c'.sending = c.sending := by
  unfold send
  constructor
  · intro h
    split at h
    · rename_i hr
      split at h
      · rename_i hl
        cases h
        exact ⟨hr, hl, rfl, hr, rfl⟩
      · cases h
    · cases h
  · rintro ⟨hr, hl, hqueue, hr', hs⟩
    rw [if_pos hr, dif_pos hl]
    congr 1
    exact Channel.ext hqueue.symm (hr.trans hr'.symm) hs.symm

theorem recv_eq_item {rest : Channel limit α} (h : c.recv = .item a rest) :
    c.queue = a :: rest.queue ∧ rest.receiving = c.receiving ∧ rest.sending = c.sending := by
  unfold recv at h
  split at h
  · rename_i b rest' hq
    cases h
    exact ⟨hq, rfl, rfl⟩
  · split at h <;> cases h

theorem recv_eq_pending : c.recv = .pending ↔ c.queue = [] ∧ c.sending = true := by
  unfold recv
  split
  · rename_i b rest' hq
    simp [hq]
  · rename_i hq
    split <;> simp [*]

theorem recv_eq_closed : c.recv = .closed ↔ c.queue = [] ∧ c.sending = false := by
  unfold recv
  split
  · rename_i b rest' hq
    simp [hq]
  · rename_i hq
    split <;> simp [*]

theorem pollSend_eq_ok : c.pollSend budget a = .ok c' ↔ 0 < budget ∧ c.send a = .ok c' := by
  unfold pollSend
  split
  · rename_i h
    simp [h]
  · rename_i h
    rw [and_iff_right (Nat.pos_of_ne_zero h)]

theorem pollRecv_eq_item {rest : Channel limit α} :
    c.pollRecv budget = .item a rest ↔ 0 < budget ∧ c.recv = .item a rest := by
  unfold pollRecv
  split
  · rename_i h
    simp [h]
  · rename_i h
    rw [and_iff_right (Nat.pos_of_ne_zero h)]

theorem pollRecv_of_pos (h : 0 < budget) : c.pollRecv budget = c.recv := if_neg (Nat.ne_of_gt h)

theorem queue_of_pollRecv (hbudget : 0 < budget)
    (h : ∀ a rest, c.pollRecv budget ≠ .item a rest) : c.queue = [] := by
  rw [pollRecv_of_pos hbudget] at h
  cases hr : c.recv with
  | item a rest => exact absurd hr (h a rest)
  | closed => exact (recv_eq_closed.1 hr).1
  | pending => exact (recv_eq_pending.1 hr).1

theorem pollSend_queue (h : c.pollSend budget a = .ok c') : c'.queue = c.queue ++ [a] := by
  obtain ⟨-, -, hqueue, -, -⟩ := send_eq_ok.1 (pollSend_eq_ok.1 h).2
  exact hqueue

theorem pollRecv_queue {rest : Channel limit α} (h : c.pollRecv budget = .item a rest) :
    c.queue = a :: rest.queue :=
  (recv_eq_item (pollRecv_eq_item.1 h).2).1

end Channel
