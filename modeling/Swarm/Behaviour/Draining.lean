import Mathlib.Algebra.BigOperators.Group.List.Basic
import Swarm.Behaviour.Poll

/-!
# A poll drains its sources

What `poll` reads, it does not write: the sends of a handler go to other
queues. So a poll that nothing interrupts takes one entry or goes to the next
phase in each step, and returns. It returns `Pending` only when every source is
empty, except a channel that it looks at with its budget used up and that of the
instruction memory while the processor does not accept input: `poll_drains`.
-/

namespace Swarm.Behaviour

open Swarm.Processor Swarm.Consensus

variable {limit B : Nat} {Id Chan Sync : Type}

/-! ## Sources -/

/-- What `poll` reads. -/
structure Sources (limit : Nat) (Id Chan Sync : Type) (B : Nat) where
  shutdown : Bool
  discoveredPeers : List PeerId
  oneshotMessages : List (PeerId × Sync)
  dataMemory : Channel limit (DataMemory.OutEvent B)
  user : Channel limit (Command B)
  processor : Channel limit FinishedExecution
  instructionMemory : Channel limit InstructionStorage.OutEvent
  consensus : Channel limit (Consensus.OutEvent Sync)
  requestResponse : Channel limit (RequestResponseOut Id Chan B)
  processorState : Option Node.ModuleState

def sources (b : Behaviour limit Id Chan Sync B) : Sources limit Id Chan Sync B where
  shutdown := b.shutdown
  discoveredPeers := b.discoveredPeers
  oneshotMessages := b.oneshotMessages
  dataMemory := b.dataMemory.output
  user := b.userInteraction.input
  processor := b.processor.output
  instructionMemory := b.instructionMemory.output
  consensus := b.consensus.output
  requestResponse := b.requestResponse.output
  processorState := b.processor.state

/-- The source of a phase without its oldest entry. -/
def taken {α σ : Type} (r : Received limit α) (set : Channel limit α → σ) : Option σ :=
  match r with
  | .item _ rest => some (set rest)
  | .closed | .pending => none

theorem taken_item {α σ : Type} {c rest : Channel limit α} {set : Channel limit α → σ} {a : α}
    {budget : Nat} (h : c.pollRecv budget = .item a rest) :
    taken c.recv set = some (set rest) := by
  rw [(Channel.pollRecv_eq_item.1 h).2]
  rfl

/-- Whether the phase looks at a channel. -/
def Phase.isChannel : Phase → Bool
  | .dataMemory | .user | .processor | .instructionMemory | .consensus | .requestResponse => true
  | .shutdown | .discoveredPeers | .oneshotMessages | .gossip => false

namespace Sources

variable (s : Sources limit Id Chan Sync B)

/-- How many entries the phase has to take. -/
def waiting : Phase → Nat
  | .discoveredPeers => s.discoveredPeers.length
  | .oneshotMessages => s.oneshotMessages.length
  | .dataMemory => s.dataMemory.queue.length
  | .user => s.user.queue.length
  | .processor => s.processor.queue.length
  | .instructionMemory => s.instructionMemory.queue.length
  | .consensus => s.consensus.queue.length
  | .requestResponse => s.requestResponse.queue.length
  | .shutdown | .gossip => 0

/-- The phase takes its oldest entry. -/
def pop : Phase → Option (Sources limit Id Chan Sync B)
  | .discoveredPeers =>
    match s.discoveredPeers with
    | _ :: rest => some { s with discoveredPeers := rest }
    | [] => none
  | .oneshotMessages =>
    match s.oneshotMessages with
    | _ :: rest => some { s with oneshotMessages := rest }
    | [] => none
  | .dataMemory => taken s.dataMemory.recv fun c => { s with dataMemory := c }
  | .user => taken s.user.recv fun c => { s with user := c }
  | .processor => taken s.processor.recv fun c => { s with processor := c }
  | .instructionMemory =>
    taken s.instructionMemory.recv fun c => { s with instructionMemory := c }
  | .consensus => taken s.consensus.recv fun c => { s with consensus := c }
  | .requestResponse => taken s.requestResponse.recv fun c => { s with requestResponse := c }
  | .shutdown | .gossip => none

/-- Whether the processor accepts input. -/
def accepts (locked : Bool) : Bool :=
  match s.processorState with
  | none => true
  | some x => !locked && State.acceptsInput x

/-- Whether the phase gets to see its source. -/
def looks (c : PollChoice) (phase : Phase) : Bool :=
  (!phase.isChannel || decide (0 < c.budget)) &&
    (decide (phase ≠ .instructionMemory) || s.accepts c.processorLocked)

variable {s} {s' : Sources limit Id Chan Sync B} {phase : Phase}

theorem recv_none {α σ : Type} {c : Channel limit α} {set : Channel limit α → σ}
    (h : taken c.recv set = none) : c.queue = [] := by
  cases hr : c.recv with
  | item a rest => rw [hr] at h; cases h
  | closed => exact (Channel.recv_eq_closed.1 hr).1
  | pending => exact (Channel.recv_eq_pending.1 hr).1

theorem recv_some {α σ : Type} {c : Channel limit α} {set : Channel limit α → σ} {x : σ}
    (h : taken c.recv set = some x) :
    ∃ rest, x = set rest ∧ rest.queue.length + 1 = c.queue.length := by
  cases hr : c.recv with
  | item a rest =>
    rw [hr] at h
    cases h
    exact ⟨rest, rfl, by rw [(Channel.recv_eq_item hr).1, List.length_cons]⟩
  | closed | pending => rw [hr] at h; cases h

theorem waiting_of_pop_none (h : s.pop phase = none) : s.waiting phase = 0 := by
  cases phase with
  | shutdown | gossip => rfl
  | discoveredPeers =>
    simp only [pop] at h
    split at h
    · cases h
    · rename_i he
      rw [waiting, he, List.length_nil]
  | oneshotMessages =>
    simp only [pop] at h
    split at h
    · cases h
    · rename_i he
      rw [waiting, he, List.length_nil]
  | _ => rw [waiting, recv_none h, List.length_nil]

/-- One entry less, and the other sources as they were. -/
theorem waiting_of_pop (h : s.pop phase = some s') (phase' : Phase) :
    s.waiting phase' = s'.waiting phase' + if phase' = phase then 1 else 0 := by
  cases phase with
  | shutdown | gossip => cases h
  | discoveredPeers =>
    simp only [pop] at h
    split at h
    · rename_i p rest he
      cases h
      cases phase' <;> simp [waiting, he]
    · cases h
  | oneshotMessages =>
    simp only [pop] at h
    split at h
    · rename_i p rest he
      cases h
      cases phase' <;> simp [waiting, he]
    · cases h
  | _ =>
    obtain ⟨rest, rfl, hlength⟩ := recv_some h
    cases phase' <;> simp [waiting, hlength]

/-- How many entries there are to take. -/
def total : Nat :=
  s.waiting .discoveredPeers + s.waiting .oneshotMessages + s.waiting .dataMemory +
    s.waiting .user + s.waiting .processor + s.waiting .instructionMemory +
    s.waiting .consensus + s.waiting .requestResponse

theorem total_of_pop (h : s.pop phase = some s') : s.total = s'.total + 1 := by
  simp only [total, waiting_of_pop h]
  cases phase with
  | shutdown | gossip => cases h
  | _ => simp only [reduceCtorEq, if_true, if_false]; omega

theorem looks_of_pop (h : s.pop phase = some s') (c : PollChoice) (phase' : Phase) :
    s'.looks c phase' = s.looks c phase' := by
  have hstate : s'.processorState = s.processorState := by
    cases phase with
    | shutdown | gossip => cases h
    | discoveredPeers | oneshotMessages =>
      simp only [pop] at h
      split at h
      · cases h
        rfl
      · cases h
    | _ =>
      obtain ⟨rest, rfl, -⟩ := recv_some h
      rfl
  rw [looks, looks, accepts, accepts, hstate]

theorem budget_of_looks {c : PollChoice} (h : s.looks c phase = true)
    (hchannel : phase.isChannel = true) : 0 < c.budget := by
  simp only [looks, hchannel, Bool.not_true, Bool.false_or, Bool.and_eq_true,
    decide_eq_true_eq] at h
  exact h.1

theorem looks_eq_false {c : PollChoice} (h : s.looks c phase = false) :
    (phase.isChannel = true ∧ c.budget = 0) ∨
      (phase = .instructionMemory ∧ s.accepts c.processorLocked = false) := by
  rw [looks, Bool.and_eq_false_iff] at h
  rcases h with hbudget | haccepts
  · rw [Bool.or_eq_false_iff, Bool.not_eq_false', decide_eq_false_iff_not] at hbudget
    exact .inl (hbudget.imp_right Nat.eq_zero_of_not_pos)
  · rw [Bool.or_eq_false_iff, decide_eq_false_iff_not, not_not] at haccepts
    exact .inr haccepts

end Sources

/-! ## What a step reads -/

section

variable {b b' : Behaviour limit Id Chan Sync B} {now : Instant} {budget : Nat}
  {c : PollChoice} {phase : Phase}

theorem sent_sources {α : Type} (r : Except SendError α)
    {set : α → Behaviour limit Id Chan Sync B} (h : ∀ a, (set a).sources = b.sources) :
    (sent r set b).2.sources = b.sources := by
  cases r with
  | ok a => exact h a
  | error => rfl

/-- A send changes no source. -/
@[simp] theorem send_sources (e : Emission Id Chan Sync B) :
    (b.send now budget e).2.sources = b.sources := by
  cases e <;> exact sent_sources _ fun _ => rfl

@[simp] theorem sendAll_sources (es : List (Emission Id Chan Sync B)) :
    (sendAll now budget b es).2.sources = b.sources := by
  induction es generalizing b budget with
  | nil => rfl
  | cons e es ih =>
    have hsend : (b.send now budget e).2.sources = b.sources := send_sources e
    rw [sendAll]
    split
    · rename_i b₁ h₁
      rw [ih, ← hsend, h₁]
    · rename_i b₁ h₁
      rw [← hsend, h₁]

theorem sendGossip_sources (e : Consensus.InEvent Sync) :
    (b.sendGossip budget e).2.sources = b.sources := by
  unfold sendGossip
  split <;> rfl

theorem gossip_sources (peer : PeerId) : (b.gossip c peer).2.sources = b.sources := by
  have hgossip : (b.sendGossip c.budget .createStandalone).2.sources = b.sources :=
    sendGossip_sources _
  unfold gossip
  split
  · rename_i b₁ h₁
    rw [← hgossip, h₁]
  · rename_i b₁ h₁
    have hgossip' : (b₁.sendGossip (c.budget - 1) (.generateSyncRequest peer)).2.sources =
        b₁.sources := sendGossip_sources _
    rw [h₁] at hgossip
    split
    · rename_i b₂ h₂
      rw [← hgossip, ← hgossip', h₂]
    · rename_i b₂ h₂
      rw [h₂] at hgossip'
      exact hgossip'.trans hgossip

theorem onRequestResponse_sources [DecidableEq Id] (e : RequestResponseOut Id Chan B) :
    (b.onRequestResponse now budget e).2.sources = b.sources := by
  cases e with
  | assignedRequestId requestId request => rfl
  | response requestId response =>
    rw [onRequestResponse]
    split
    · exact sendAll_sources _
    · rfl
  | incomingRequest requestId request channel =>
    have hsend : (b.send now budget (.dataMemory (forwarded request))).2.sources = b.sources :=
      send_sources _
    rw [onRequestResponse]
    split
    · rename_i b₁ h₁
      rw [h₁] at hsend
      exact hsend
    · rename_i b₁ h₁
      rw [h₁] at hsend
      exact hsend

theorem onDataMemory_sources (e : DataMemory.OutEvent B) :
    (b.onDataMemory e).1.sources = b.sources := by
  unfold onDataMemory
  split <;> rfl

theorem accepts_sources (locked : Bool) :
    b.sources.accepts locked = b.processor.acceptsInput locked := by
  unfold Sources.accepts sources ModuleChannel.acceptsInput
  cases b.processor.state <;> rfl

/-- The phase after another. -/
def Phase.next : Phase → Phase
  | .shutdown => .discoveredPeers
  | .discoveredPeers => .oneshotMessages
  | .oneshotMessages => .dataMemory
  | .dataMemory => .user
  | .user => .processor
  | .processor => .instructionMemory
  | .instructionMemory => .consensus
  | .consensus => .gossip
  | .gossip | .requestResponse => .requestResponse

/-- How many phases are left after this one. -/
def Phase.left : Phase → Nat
  | .shutdown => 9
  | .discoveredPeers => 8
  | .oneshotMessages => 7
  | .dataMemory => 6
  | .user => 5
  | .processor => 4
  | .instructionMemory => 3
  | .consensus => 2
  | .gossip => 1
  | .requestResponse => 0

theorem Phase.left_next (h : phase ≠ .requestResponse) : phase.next.left + 1 = phase.left := by
  cases phase with
  | requestResponse => exact absurd rfl h
  | _ => rfl

theorem Phase.left_injective : Function.Injective left := by
  intro phase phase' h
  cases phase <;> cases phase' <;> first | rfl | exact absurd h (by decide)

/-- Everything a step does to the sources. -/
inductive Reads (s : Sources limit Id Chan Sync B) (c : PollChoice) (phase : Phase) :
    Micro limit Id Chan Sync B → Prop where
  | took {b' : Behaviour limit Id Chan Sync B} (pop : s.pop phase = some b'.sources) :
      Reads s c phase (.goto phase b')
  | left {b' : Behaviour limit Id Chan Sync B} (same : b'.sources = s)
      (drained : s.looks c phase = true → s.pop phase = none)
      (before : phase ≠ .requestResponse) : Reads s c phase (.goto phase.next b')
  | ended {b' : Behaviour limit Id Chan Sync B} (same : b'.sources = s)
      (drained : s.looks c phase = true → s.pop phase = none) (last : phase = .requestResponse) :
      Reads s c phase (.pending b')
  | told {e : ToSwarm Sync} {b' : Behaviour limit Id Chan Sync B}
      (pop : s.pop phase = some b'.sources) : Reads s c phase (.ready e b')
  | failed {e : Error} {b' : Behaviour limit Id Chan Sync B} :
      Reads s c phase (.ready (.error e) b')

theorem stay_reads {s : Sources limit Id Chan Sync B}
    {x : HandleResult × Behaviour limit Id Chan Sync B} (h : s.pop phase = some x.2.sources) :
    Reads s c phase (stay phase x) := by
  obtain ⟨r, b⟩ := x
  cases r with
  | ok => exact .took h
  | abort => exact .failed

theorem look_reads {α : Type} {q : Channel limit α}
    {handle : α → Channel limit α → Micro limit Id Chan Sync B}
    {set : Channel limit α → Sources limit Id Chan Sync B}
    (hpop : b.sources.pop phase = taken q.recv set) (before : phase ≠ .requestResponse)
    (hchannel : phase.isChannel = true)
    (h : ∀ a rest, q.pollRecv c.budget = .item a rest → Reads b.sources c phase (handle a rest)) :
    Reads b.sources c phase (b.look (q.pollRecv c.budget) phase.next handle) := by
  cases hr : q.pollRecv c.budget with
  | item a rest => exact h a rest hr
  | closed => exact .failed
  | pending =>
    refine .left rfl (fun hlooks => ?_) before
    rw [Channel.pollRecv_of_pos (Sources.budget_of_looks hlooks hchannel)] at hr
    rw [hpop, hr]
    rfl

variable [DecidableEq Id]

/-- **One step of the poll.** -/
theorem micro_reads (calculateHash : Instructions → Hash) :
    Reads b.sources c phase (b.micro calculateHash c phase) := by
  cases phase with
  | shutdown =>
    rw [micro]
    split
    · exact .failed
    · exact .left rfl (fun _ => rfl) (by decide)
  | discoveredPeers =>
    rw [micro]
    split
    · rename_i peer rest h
      exact .told (by simp only [Sources.pop, sources, h])
    · rename_i h
      exact .left rfl (fun _ => by simp only [Sources.pop, sources, h]) (by decide)
  | oneshotMessages =>
    rw [micro]
    split
    · rename_i peer sync rest h
      refine stay_reads ?_
      rw [send_sources]
      simp only [Sources.pop, sources, h]
    · rename_i h
      exact .left rfl (fun _ => by simp only [Sources.pop, sources, h]) (by decide)
  | dataMemory =>
    refine look_reads rfl (by decide) rfl fun e rest hr => stay_reads ?_
    have hsame := onDataMemory_sources
      (b := { b with dataMemory := { b.dataMemory with output := rest } }) e
    refine Eq.trans ?_ (congrArg some ((sendAll_sources _).trans hsame)).symm
    exact taken_item hr
  | user =>
    refine look_reads rfl (by decide) rfl fun e rest hr => stay_reads ?_
    rw [sendAll_sources]
    exact taken_item hr
  | processor =>
    refine look_reads rfl (by decide) rfl fun e rest hr => stay_reads ?_
    rw [sendAll_sources]
    exact taken_item hr
  | instructionMemory =>
    rw [micro]
    split
    · refine look_reads rfl (by decide) rfl fun e rest hr => stay_reads ?_
      rw [sendAll_sources]
      exact taken_item hr
    · rename_i h
      refine .left rfl (fun hlooks => absurd ?_ h) (by decide)
      rw [← accepts_sources]
      exact (Bool.and_eq_true_iff.1 hlooks).2
  | consensus =>
    refine look_reads rfl (by decide) rfl fun e rest hr => ?_
    have hpop : b.sources.pop .consensus =
        some ({ b with consensus := { b.consensus with output := rest } }).sources := by
      exact taken_item hr
    cases e with
    | generateSyncResponse peer sync => exact .told hpop
    | finalizedTransaction author eventHash tx => exact .took hpop
    | knownPeersResponse peers =>
      refine stay_reads ?_
      rw [sendAll_sources]
      exact hpop
    | recognizedTransaction author eventHash tx =>
      refine stay_reads ?_
      rw [sendAll_sources]
      exact hpop
  | gossip =>
    rw [micro]
    split
    · split
      · rename_i peer hpeer
        have hsame := gossip_sources (b := b) (c := c) peer
        generalize b.gossip c peer = x at hsame
        obtain ⟨r, b'⟩ := x
        cases r with
        | ok => exact .left hsame (fun _ => rfl) (by decide)
        | abort => exact .failed
      · exact .left rfl (fun _ => rfl) (by decide)
    · exact .left rfl (fun _ => rfl) (by decide)
  | requestResponse =>
    rw [micro]
    split
    · rename_i e rest hr
      refine stay_reads ?_
      rw [onRequestResponse_sources]
      exact taken_item hr
    · exact .failed
    · rename_i hr
      refine .ended rfl (fun hlooks => ?_) rfl
      rw [Channel.pollRecv_of_pos (Sources.budget_of_looks hlooks rfl)] at hr
      simp only [Sources.pop, sources, hr, taken]

/-! ## A whole poll -/

/-- What a poll that started in the phase did to the sources. -/
structure Polls (cs : List PollChoice) (phase : Phase) (s : Sources limit Id Chan Sync B)
    (r : Option (ToSwarm Sync)) (s' : Sources limit Id Chan Sync B) : Prop where
  earlier : r = none → ∀ phase', phase.left < phase'.left → s'.waiting phase' = s.waiting phase'
  drained : r = none → ∀ phase', phase'.left ≤ phase.left →
    s'.waiting phase' = 0 ∨ ∃ c ∈ cs, s.looks c phase' = false
  told : ∀ e, r = some e → (∃ x, e = .error x) ∨ s'.total < s.total

/-- **A poll with enough steps returns.** -/
theorem poll_polls (calculateHash : Instructions → Hash) {cs : List PollChoice}
    (henough : b.sources.total + phase.left < cs.length) :
    ∃ r b', b.poll calculateHash cs phase = some (r, b') ∧
      Polls cs phase b.sources r b'.sources := by
  induction cs generalizing b phase with
  | nil => exact absurd henough (Nat.not_lt_zero _)
  | cons c cs ih =>
    rw [List.length_cons] at henough
    rw [poll]
    have hreads : Reads b.sources c phase (b.micro calculateHash c phase) :=
      micro_reads calculateHash
    generalize b.micro calculateHash c phase = m at hreads ⊢
    cases hreads with
    | @took b₁ pop =>
      have htotal := Sources.total_of_pop pop
      obtain ⟨r, b', hpoll, h⟩ := ih
        (show b₁.sources.total + phase.left < cs.length by omega)
      refine ⟨r, b', hpoll, ⟨fun hr phase' hlt => ?_, fun hr phase' hle => ?_, fun e he => ?_⟩⟩
      · rw [h.earlier hr phase' hlt, Sources.waiting_of_pop pop phase', if_neg, Nat.add_zero]
        rintro rfl
        exact absurd hlt (Nat.lt_irrefl _)
      · obtain hzero | ⟨c', hc', hlooks⟩ := h.drained hr phase' hle
        · exact .inl hzero
        · rw [Sources.looks_of_pop pop] at hlooks
          exact .inr ⟨c', List.mem_cons_of_mem _ hc', hlooks⟩
      · exact (h.told e he).imp_right fun hlt => by omega
    | @left b₁ same drained before =>
      have hnext := Phase.left_next before
      obtain ⟨r, b', hpoll, h⟩ := ih
        (show b₁.sources.total + phase.next.left < cs.length by rw [same]; omega)
      rw [same] at h
      refine ⟨r, b', hpoll, ⟨fun hr phase' hlt => ?_, fun hr phase' hle => ?_, h.told⟩⟩
      · exact h.earlier hr phase' (by omega)
      · obtain hlater | heq : phase'.left ≤ phase.next.left ∨ phase'.left = phase.left := by omega
        · obtain hzero | ⟨c', hc', hlooks⟩ := h.drained hr phase' hlater
          · exact .inl hzero
          · exact .inr ⟨c', List.mem_cons_of_mem _ hc', hlooks⟩
        · -- the phase just left: nothing reads its source again
          have hsame := Phase.left_injective heq
          subst hsame
          rw [h.earlier hr phase' (by omega)]
          cases hl : b.sources.looks c phase' with
          | true => exact .inl (Sources.waiting_of_pop_none (drained hl))
          | false => exact .inr ⟨c, List.mem_cons_self, hl⟩
    | @ended b' same drained last =>
      refine ⟨none, b', rfl, ⟨fun _ phase' _ => by rw [same], fun _ phase' hle => ?_, ?_⟩⟩
      · have heq : phase'.left = phase.left := by rw [last] at hle ⊢; exact Nat.le_zero.1 hle
        cases Phase.left_injective heq
        rw [same]
        cases hl : b.sources.looks c phase with
        | true => exact .inl (Sources.waiting_of_pop_none (drained hl))
        | false => exact .inr ⟨c, List.mem_cons_self, hl⟩
      · intro e he
        cases he
    | @told e b' pop =>
      have htotal := Sources.total_of_pop pop
      refine ⟨some e, b', rfl, ⟨fun hr => ?_, fun hr => ?_, fun e' _ => .inr (by omega)⟩⟩
      · cases hr
      · cases hr
    | @failed e b' =>
      refine ⟨_, b', rfl, ⟨fun hr => ?_, fun hr => ?_, fun e' he => .inl ⟨e, ?_⟩⟩⟩
      · cases hr
      · cases hr
      · cases he
        rfl

/-- **A poll that nothing interrupts returns**, after at most one step for each entry and phase.
If it returns `Pending` then nothing is left to take, except from a channel if the budget is used
up and from the instruction memory if the processor does not accept input. If it tells the swarm
something else than an error then there is less to take than before. -/
theorem poll_drains (calculateHash : Instructions → Hash) (b : Behaviour limit Id Chan Sync B)
    {cs : List PollChoice} (henough : b.sources.total + 10 ≤ cs.length) :
    ∃ r b', b.poll calculateHash cs .shutdown = some (r, b') ∧
      (r = none → ∀ phase, b'.sources.waiting phase = 0 ∨
        (phase.isChannel = true ∧ ∃ c ∈ cs, c.budget = 0) ∨
        (phase = .instructionMemory ∧
          ∃ c ∈ cs, b.processor.acceptsInput c.processorLocked = false)) ∧
      ∀ e, r = some e → (∃ x, e = .error x) ∨ b'.sources.total < b.sources.total := by
  obtain ⟨r, b', hpoll, h⟩ := poll_polls calculateHash
    (show b.sources.total + Phase.shutdown.left < cs.length from henough)
  refine ⟨r, b', hpoll, fun hr phase => ?_, h.told⟩
  have hleft : phase.left ≤ Phase.shutdown.left := by cases phase <;> decide
  obtain hzero | ⟨c, hc, hlooks⟩ := h.drained hr phase hleft
  · exact .inl hzero
  · rcases Sources.looks_eq_false hlooks with ⟨hchannel, hbudget⟩ | ⟨hphase, haccepts⟩
    · exact .inr (.inl ⟨hchannel, c, hc, hbudget⟩)
    · exact .inr (.inr ⟨hphase, c, hc, accepts_sources _ ▸ haccepts⟩)

end

/-- Two simple messages wait. -/
def sampleMessages : Behaviour 2 Unit Unit Nat 4 :=
  (new.onConnectionHandlerEvent ⟨[0]⟩ 3).onConnectionHandlerEvent ⟨[1]⟩ 5

theorem poll_drains_messages :
    ∃ r b', sampleMessages.poll (fun _ => .fromArray fun _ => 0)
        (List.replicate 12 ⟨0, 128, false, 0, default, false, false⟩) .shutdown = some (r, b') ∧
      (r = none → ∀ phase, b'.sources.waiting phase = 0 ∨
        (phase.isChannel = true ∧ ∃ c ∈ List.replicate 12
          (⟨0, 128, false, 0, default, false, false⟩ : PollChoice), c.budget = 0) ∨
        (phase = .instructionMemory ∧ ∃ c ∈ List.replicate 12
          (⟨0, 128, false, 0, default, false, false⟩ : PollChoice),
          sampleMessages.processor.acceptsInput c.processorLocked = false)) ∧
      ∀ e, r = some e → (∃ x, e = .error x) ∨ b'.sources.total < 2 :=
  poll_drains _ sampleMessages (by decide)

/-- A command waits. -/
def sampleCommand : Behaviour 2 Unit Unit Nat 4 :=
  { new with userInteraction := ⟨⟨[.getMetrics], by decide, true, true⟩, .new, none⟩ }

-- without a budget the command stays
example : ∃ b', sampleCommand.poll (fun _ => .fromArray fun _ => 0)
    (List.replicate 10 ⟨0, 0, false, 0, default, false, false⟩) .shutdown = some (none, b') ∧
      b'.sources.waiting .user = 1 :=
  ⟨_, rfl, rfl⟩

end Swarm.Behaviour
