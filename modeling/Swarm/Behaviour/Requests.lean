import Swarm.Behaviour.Handlers
import Swarm.DataMemory.Events

/-!
# Requests of other nodes

An incoming request waits under its key in `processed_requests` while the event
it is forwarded as goes through the queues of the data memory. An answer for a
key is sent to all requests that wait under it, so the answers that follow may
find none. `requests_answered_once`: in every run, each request waits once or
has been responded to once; once the queues of an initialised data memory are
empty, no request waits.
-/

namespace Swarm.Behaviour

open Swarm.DataMemory

variable {B : Nat} {Id : Type}

/-- The data memory as the behaviour sees it: before initialisation, running, or returned. -/
inductive MemoryModule (B : Nat) where
  | uninitialized (u : UninitializedDataMemory)
  | initialized (m : InitializedDataMemory B)
  | ended

/-- The module takes one input event. -/
def MemoryModule.handle (order : HashOrder) (e : DataMemory.InEvent B) :
    MemoryModule B → Option (MemoryModule B × List (DataMemory.OutEvent B))
  | .uninitialized u =>
    match u.handle e with
    | some (m, out) => some (.initialized m, out)
    | none => some (.uninitialized u, [])
  | .initialized m =>
    match m.handle order e with
    | .next m out => some (.initialized m, out)
    | .stop | .panic => some (.ended, [])
  | .ended => none

/-- The event that a request is forwarded as. -/
def forwarded : Request → DataMemory.InEvent B
  | .getShard fullShardId => .assignedRequest fullShardId
  | .serveShard fullShardId => .serveShardRequest fullShardId

/-- The key and the response that an event of the data memory is for. -/
def answered : DataMemory.OutEvent B → Option (Request × Response B)
  | .serveShardResponse fullShardId shard => some (.serveShard fullShardId, .serveShard shard)
  | .assignedResponse fullShardId shard => some (.getShard fullShardId, .getShard shard)
  | _ => none

/-- What a data memory answers to a request. -/
def respond (m : InitializedDataMemory B) : Request → Response B
  | .getShard fullShardId => .getShard (m.getShard fullShardId)
  | .serveShard fullShardId => .serveShard (m.serveShard fullShardId)

/-- `entry(request).or_default().push(..)`. -/
def pushRequest (processed : HashMap Request (List Id)) (request : Request) (requestId : Id) :
    HashMap Request (List Id) :=
  processed.insert request ((processed.lookup request).getD [] ++ [requestId])

/-- The part of a node that answers requests: the data memory with its queues, oldest event
first, and the behaviour. A request id stands for the id and its response channel. -/
structure Server (Id : Type) (B : Nat) where
  memory : MemoryModule B
  input : List (DataMemory.InEvent B)
  output : List (DataMemory.OutEvent B)
  processedRequests : HashMap Request (List Id)
  /-- Every `Respond` sent so far, oldest first. -/
  responses : List (Id × Response B)

inductive ServerStep (Id : Type) (B : Nat) where
  | incomingRequest (requestId : Id) (request : Request)
  /-- The behaviour sends the data memory an event of another kind. -/
  | enqueue (e : DataMemory.InEvent B)
  /-- The data memory takes its oldest input event. -/
  | memory (order : HashOrder)
  /-- The data memory takes a write from the memory bus. -/
  | busWrite (dataId : Vid) (shard : Shard B)
  /-- The behaviour takes the oldest event of the data memory. -/
  | behaviour

namespace Server

def start (memory : MemoryModule B) : Server Id B := ⟨memory, [], [], ∅, []⟩

/-- The requests that wait for the answer to `request`. -/
def waiting (s : Server Id B) (request : Request) : List Id :=
  (s.processedRequests.lookup request).getD []

def step (s : Server Id B) : ServerStep Id B → Option (Server Id B)
  | .incomingRequest requestId request =>
    some { s with
      input := s.input ++ [forwarded request]
      processedRequests := pushRequest s.processedRequests request requestId }
  | .enqueue e => some { s with input := s.input ++ [e] }
  | .memory order =>
    match s.input with
    | [] => none
    | e :: input => (s.memory.handle order e).map fun r =>
      { s with memory := r.1, input := input, output := s.output ++ r.2 }
  | .busWrite dataId shard =>
    match s.memory with
    | .initialized m => some { s with memory := .initialized (m.busWrite dataId shard) }
    | _ => none
  | .behaviour =>
    match s.output with
    | [] => none
    | e :: output =>
      match answered e with
      | some (request, response) =>
        some { s with
          output := output
          processedRequests := s.processedRequests.erase request
          responses := s.responses ++ (s.waiting request).map (·, response) }
      | none => some { s with output := output }

/-! ## The handlers of the behaviour -/

/-- With the asking peers as ids, the server takes requests as the behaviour's handler does. -/
theorem handleIncomingRequest_eq (processed : ProcessedRequests) (origin : PeerId)
    (request : Request) : handleIncomingRequest (B := B) processed origin request =
      (pushRequest processed request origin, [.dataMemory (forwarded request)]) := by
  cases request <;> rfl

theorem handleDataMemory_eq (s : Server PeerId B) (e : DataMemory.OutEvent B) {request : Request}
    {response : Response B} (h : answered e = some (request, response)) :
    handleDataMemory s.processedRequests e = (s.processedRequests.erase request,
      (s.waiting request).map (.respond · request response)) := by
  cases e with
  | serveShardResponse f shard | assignedResponse f shard => cases h; rfl
  | _ => cases h

/-- An event that is no answer leaves the waiting requests alone. -/
theorem handleDataMemory_keeps (processed : ProcessedRequests) (e : DataMemory.OutEvent B)
    (h : answered e = none) : (handleDataMemory processed e).1 = processed := by
  cases e with
  | serveShardResponse f shard | assignedResponse f shard => cases h
  | _ => rfl

/-! ## The moves of a server -/

/-- Everything a step can do, one constructor for each case. -/
inductive Moves (s : Server Id B) : ServerStep Id B → Server Id B → Prop where
  | arrived (requestId : Id) (request : Request) :
      Moves s (.incomingRequest requestId request)
        { s with
          input := s.input ++ [forwarded request]
          processedRequests := pushRequest s.processedRequests request requestId }
  | enqueued (e : DataMemory.InEvent B) :
      Moves s (.enqueue e) { s with input := s.input ++ [e] }
  | handled {order : HashOrder} {e : DataMemory.InEvent B} {input : List (DataMemory.InEvent B)}
      {memory : MemoryModule B} {out : List (DataMemory.OutEvent B)} (head : s.input = e :: input)
      (turn : s.memory.handle order e = some (memory, out)) :
      Moves s (.memory order)
        { s with memory := memory, input := input, output := s.output ++ out }
  | written {v : Vid} {x : Shard B} {m : InitializedDataMemory B}
      (running : s.memory = .initialized m) :
      Moves s (.busWrite v x) { s with memory := .initialized (m.busWrite v x) }
  | flushed {e : DataMemory.OutEvent B} {output : List (DataMemory.OutEvent B)} {request : Request}
      {response : Response B} (head : s.output = e :: output)
      (answer : answered e = some (request, response)) :
      Moves s .behaviour
        { s with
          output := output
          processedRequests := s.processedRequests.erase request
          responses := s.responses ++ (s.waiting request).map (·, response) }
  | passed {e : DataMemory.OutEvent B} {output : List (DataMemory.OutEvent B)}
      (head : s.output = e :: output) (other : answered e = none) :
      Moves s .behaviour { s with output := output }

theorem step_moves {s s' : Server Id B} {a : ServerStep Id B} (h : s.step a = some s') :
    s.Moves a s' := by
  cases a with
  | incomingRequest requestId request => cases h; exact .arrived requestId request
  | enqueue e => cases h; exact .enqueued e
  | memory order =>
    simp only [step] at h
    split at h
    · cases h
    · rename_i e input head
      obtain ⟨⟨memory, out⟩, turn, rfl⟩ := Option.map_eq_some_iff.1 h
      exact .handled head turn
  | busWrite v x =>
    simp only [step] at h
    split at h
    · rename_i m running
      cases h
      exact .written running
    · cases h
  | behaviour =>
    simp only [step] at h
    split at h
    · cases h
    · rename_i e output head
      split at h
      · rename_i request response answer
        cases h
        exact .flushed head answer
      · rename_i other
        cases h
        exact .passed head other

/-! ## Answers of the data memory -/

theorem handle_forwarded (m : InitializedDataMemory B) (order : HashOrder) (request : Request) :
    ∃ o, m.handle order (forwarded request) = .next m [o] ∧
      answered o = some (request, respond m request) := by
  cases request <;> exact ⟨_, rfl, rfl⟩

/-- Every answer is for the shard it names, as the memory has it. -/
theorem answered_eq {m m' : InitializedDataMemory B} {order : HashOrder}
    {e : DataMemory.InEvent B} {out : List (DataMemory.OutEvent B)}
    (h : m.handle order e = .next m' out) {o : DataMemory.OutEvent B} (ho : o ∈ out)
    {request : Request} {response : Response B} (ha : answered o = some (request, response)) :
    response = respond m request := by
  have hemit := InitializedDataMemory.handle_emits h o ho
  cases o with
  | serveShardResponse f shard =>
    cases ha
    obtain ⟨-, rfl⟩ := hemit
    rfl
  | assignedResponse f shard =>
    cases ha
    obtain ⟨-, rfl⟩ := hemit
    rfl
  | _ => cases ha

/-- Only an initialised module answers. -/
theorem answered_of_turn {memory memory' : MemoryModule B} {order : HashOrder}
    {e : DataMemory.InEvent B} {out : List (DataMemory.OutEvent B)}
    (h : memory.handle order e = some (memory', out)) {o : DataMemory.OutEvent B} (ho : o ∈ out)
    {request : Request} {response : Response B} (ha : answered o = some (request, response)) :
    ∃ m, memory = .initialized m ∧ response = respond m request := by
  cases memory with
  | uninitialized u =>
    have hout : out = [.initialized] ∨ out = [] := by
      unfold MemoryModule.handle UninitializedDataMemory.handle at h
      grind
    rcases hout with rfl | rfl
    · rw [List.mem_singleton.1 ho] at ha
      cases ha
    · cases ho
  | initialized m =>
    simp only [MemoryModule.handle] at h
    split at h
    · rename_i hh
      cases h
      exact ⟨m, rfl, answered_eq hh ho ha⟩
    all_goals
      cases h
      cases ho
  | ended => cases h

/-! ## The requests of a run -/

/-- The requests that arrived, with their ids. -/
def arrivals (as : List (ServerStep Id B)) : List (Id × Request) :=
  as.filterMap fun
    | .incomingRequest requestId request => some (requestId, request)
    | _ => none

/-- The response was computed for the key during the run. -/
def Computed (memory : MemoryModule B) (as : List (ServerStep Id B)) (request : Request)
    (response : Response B) : Prop :=
  ∃ (bs cs : List (ServerStep Id B)) (t : Server Id B) (m : InitializedDataMemory B),
    as = bs ++ cs ∧ Trace step (start memory) bs t ∧
      t.memory = .initialized m ∧ response = respond m request

variable [DecidableEq Id]

/-- The id waits once, under the key of its request, and has got no response. -/
def Waits (s : Server Id B) (requestId : Id) (request : Request) : Prop :=
  (∀ r, (s.waiting r).count requestId = if r = request then 1 else 0) ∧
    ∀ response, (requestId, response) ∉ s.responses

/-- The id does not wait and has got one response, computed for its key. -/
def Responded (memory : MemoryModule B) (as : List (ServerStep Id B)) (s : Server Id B)
    (requestId : Id) (request : Request) : Prop :=
  (∀ r, requestId ∉ s.waiting r) ∧
    ∃ response, (s.responses.filter fun p => p.1 = requestId) = [(requestId, response)] ∧
      Computed memory as request response

variable {memory : MemoryModule B} {as : List (ServerStep Id B)} {s : Server Id B}

omit [DecidableEq Id] in
theorem Computed.snoc {request : Request} {response : Response B} (a : ServerStep Id B)
    (h : Computed memory as request response) : Computed memory (as ++ [a]) request response := by
  obtain ⟨bs, cs, t, m, rfl, run, hm, hr⟩ := h
  exact ⟨bs, cs ++ [a], t, m, List.append_assoc .., run, hm, hr⟩

omit [DecidableEq Id] in
theorem waiting_push (processed : HashMap Request (List Id)) (request r : Request) (id : Id) :
    ((pushRequest processed request id).lookup r).getD [] =
      if r = request then (processed.lookup r).getD [] ++ [id] else (processed.lookup r).getD [] := by
  unfold pushRequest
  rw [Finmap.lookup_insert_ite]
  split
  · rename_i h
    rw [h]
    rfl
  · rfl

omit [DecidableEq Id] in
theorem waiting_erase (processed : HashMap Request (List Id)) (request r : Request) :
    ((processed.erase request).lookup r).getD [] =
      if r = request then [] else (processed.lookup r).getD [] := by
  rw [Finmap.lookup_erase_ite]
  split <;> rfl

/-- Where every request of a run is. -/
structure Accounted (memory : MemoryModule B) (as : List (ServerStep Id B)) (s : Server Id B) :
    Prop where
  run : Trace step (start memory) as s
  arrived : ∀ p ∈ arrivals as, Waits s p.1 p.2 ∨ Responded memory as s p.1 p.2
  fresh : ∀ id, id ∉ (arrivals as).map Prod.fst →
    (∀ r, id ∉ s.waiting r) ∧ ∀ response, (id, response) ∉ s.responses
  outputs : ∀ e ∈ s.output, ∀ r response, answered e = some (r, response) →
    Computed memory as r response

/-- Requests and responses are not touched. -/
theorem Accounted.keep {a : ServerStep Id B} {s' : Server Id B} (h : Accounted memory as s)
    (hs : s.step a = some s') (ha : arrivals (as ++ [a]) = arrivals as)
    (hp : s'.processedRequests = s.processedRequests) (hr : s'.responses = s.responses)
    (ho : ∀ e ∈ s'.output, ∀ r response, answered e = some (r, response) →
      Computed memory (as ++ [a]) r response) : Accounted memory (as ++ [a]) s' where
  run := h.run.snoc hs
  arrived p hmem := by
    have hw : ∀ r, s'.waiting r = s.waiting r := fun r => by unfold waiting; rw [hp]
    rw [ha] at hmem
    rcases h.arrived p hmem with hwait | ⟨hnot, response, hresp, hc⟩
    · left
      unfold Waits
      simp only [hw, hr]
      exact hwait
    · right
      unfold Responded
      simp only [hw, hr]
      exact ⟨hnot, response, hresp, hc.snoc a⟩
  fresh id hid := by
    have hw : ∀ r, s'.waiting r = s.waiting r := fun r => by unfold waiting; rw [hp]
    rw [ha] at hid
    simp only [hw, hr]
    exact h.fresh id hid
  outputs := ho

theorem Accounted.arrive {id : Id} {request : Request} (h : Accounted memory as s)
    (hnew : id ∉ (arrivals as).map Prod.fst) :
    Accounted memory (as ++ [.incomingRequest id request])
      { s with
        input := s.input ++ [forwarded request]
        processedRequests := pushRequest s.processedRequests request id } := by
  have harr : arrivals (as ++ [.incomingRequest id request]) = arrivals as ++ [(id, request)] := by
    unfold arrivals
    rw [List.filterMap_append]
    rfl
  obtain ⟨hwait, hresp⟩ := h.fresh id hnew
  have hmem : ∀ {id' : Id} {r : Request}, id' ≠ id →
      ((if r = request then s.waiting r ++ [id] else s.waiting r).count id' =
        (s.waiting r).count id') := by
    intro id' r hne
    split
    · rw [List.count_append, List.count_singleton]
      simp [Ne.symm hne]
    · rfl
  refine ⟨h.run.snoc rfl, fun p hp => ?_, fun id' hid => ?_, fun e he r response ha =>
    (h.outputs e he r response ha).snoc _⟩
  · rw [harr] at hp
    rcases List.mem_append.1 hp with hp | hp
    · have hne : p.1 ≠ id := by
        intro he
        have hmem : p.1 ∈ (arrivals as).map Prod.fst := List.mem_map_of_mem hp
        exact hnew (he ▸ hmem)
      rcases h.arrived p hp with ⟨hcount, hnone⟩ | ⟨hnot, response, hone, hc⟩
      · refine .inl ⟨fun r => ?_, hnone⟩
        unfold waiting
        rw [waiting_push, ← hcount r]
        exact hmem hne
      · refine .inr ⟨fun r => ?_, response, hone, hc.snoc _⟩
        unfold waiting
        rw [waiting_push, ← List.count_eq_zero]
        exact (hmem hne).trans (List.count_eq_zero.2 (hnot r))
    · obtain rfl := List.mem_singleton.1 hp
      refine .inl ⟨fun r => ?_, hresp⟩
      have hzero : (s.waiting r).count id = 0 := List.count_eq_zero.2 (hwait r)
      unfold waiting at hzero ⊢
      rw [waiting_push]
      split
      · rw [List.count_append, hzero, List.count_singleton_self]
      · exact hzero
  · rw [harr, List.map_append, List.mem_append, not_or] at hid
    have hne : id' ≠ id := fun he => hid.2 (he ▸ List.mem_singleton.2 rfl)
    obtain ⟨hw, hr⟩ := h.fresh id' hid.1
    refine ⟨fun r => ?_, hr⟩
    unfold waiting
    rw [waiting_push, ← List.count_eq_zero]
    exact (hmem hne).trans (List.count_eq_zero.2 (hw r))

omit [DecidableEq Id] in
theorem mem_flush {l : List (Id × Response B)} {ids : List Id} {id : Id}
    {response response' : Response B} (h : (id, response') ∈ l ++ ids.map (·, response)) :
    (id, response') ∈ l ∨ id ∈ ids := by
  rcases List.mem_append.1 h with h | h
  · exact .inl h
  · obtain ⟨i, hi, he⟩ := List.mem_map.1 h
    cases he
    exact .inr hi

/-- The responses to `id` when the waiting requests `ids` are flushed. -/
theorem filter_flush (l : List (Id × Response B)) (ids : List Id) (id : Id)
    (response : Response B) :
    ((l ++ ids.map (·, response)).filter fun p => p.1 = id) =
      (l.filter fun p => p.1 = id) ++ List.replicate (ids.count id) (id, response) := by
  rw [List.filter_append, List.filter_map]
  congr 1
  have hids : ids.filter ((fun p : Id × Response B => decide (p.1 = id)) ∘ (·, response)) =
      List.replicate (ids.count id) id := by
    rw [← List.filter_eq]
    exact List.filter_congr fun i _ => by simp [eq_comm]
  rw [hids, List.map_replicate]

theorem Accounted.flush {e : DataMemory.OutEvent B} {output : List (DataMemory.OutEvent B)}
    {request : Request} {response : Response B} (h : Accounted memory as s)
    (head : s.output = e :: output) (answer : answered e = some (request, response)) :
    Accounted memory (as ++ [.behaviour])
      { s with
        output := output
        processedRequests := s.processedRequests.erase request
        responses := s.responses ++ (s.waiting request).map (·, response) } := by
  have harr : arrivals (as ++ [ServerStep.behaviour]) = arrivals as := by
    unfold arrivals
    rw [List.filterMap_append]
    exact List.append_nil _
  have hcomputed := h.outputs e (head ▸ List.mem_cons_self) request response answer
  have hstep : s.step .behaviour = some { s with
      output := output
      processedRequests := s.processedRequests.erase request
      responses := s.responses ++ (s.waiting request).map (·, response) } := by
    simp only [step, head, answer]
  have hgone : ∀ {id : Id}, (∀ r, id ∉ s.waiting r) → ∀ r,
      id ∉ ((s.processedRequests.erase request).lookup r).getD [] := by
    intro id hnot r
    rw [waiting_erase]
    split
    · exact List.not_mem_nil
    · exact hnot r
  refine ⟨h.run.snoc hstep, fun p hp => ?_, fun id hid => ?_, fun o ho r resp ha => ?_⟩
  · rw [harr] at hp
    obtain ⟨id, key⟩ := p
    rcases h.arrived (id, key) hp with ⟨hcount, hnone⟩ | ⟨hnot, response', hone, hc⟩
    · by_cases hkey : request = key
      · -- its key is answered: the one place where it waits is flushed
        subst hkey
        have hwaits : (s.waiting request).count id = 1 := by rw [hcount, if_pos rfl]
        refine .inr ⟨fun r => ?_, response, ?_, hcomputed.snoc _⟩
        · unfold waiting
          rw [waiting_erase]
          split
          · exact List.not_mem_nil
          · rename_i hne
            rw [← List.count_eq_zero]
            exact (hcount r).trans (if_neg hne)
        · have hold : (s.responses.filter fun p => p.1 = id) = [] := by
            rw [List.filter_eq_nil_iff]
            rintro ⟨i, resp⟩ hi he
            obtain rfl : i = id := by simpa using he
            exact hnone resp hi
          rw [filter_flush, hold, hwaits]
          rfl
      · have hnotin : id ∉ s.waiting request := by
          rw [← List.count_eq_zero]
          exact (hcount request).trans (if_neg hkey)
        refine .inl ⟨fun r => ?_, fun resp hr => ?_⟩
        · unfold waiting
          rw [waiting_erase]
          split
          · rename_i hr
            rw [hr, if_neg hkey]
            rfl
          · exact hcount r
        · rcases mem_flush hr with hr | hr
          · exact hnone resp hr
          · exact hnotin hr
    · refine .inr ⟨hgone hnot, response', ?_, hc.snoc _⟩
      rw [filter_flush, hone, List.count_eq_zero.2 (hnot request)]
      rfl
  · rw [harr] at hid
    obtain ⟨hnot, hnone⟩ := h.fresh id hid
    refine ⟨hgone hnot, fun resp hr => ?_⟩
    rcases mem_flush hr with hr | hr
    · exact hnone resp hr
    · exact hnot request hr
  · exact (h.outputs o (head ▸ List.mem_cons_of_mem _ ho) r resp ha).snoc _

/-- **One step** accounts for every request, if no id arrives twice. -/
theorem Accounted.step {a : ServerStep Id B} {s' : Server Id B} (h : Accounted memory as s)
    (hnd : ((arrivals (as ++ [a])).map Prod.fst).Nodup) (hs : s.step a = some s') :
    Accounted memory (as ++ [a]) s' := by
  have hsame : arrivals [a] = [] → arrivals (as ++ [a]) = arrivals as := fun ha => by
    unfold arrivals at *
    rw [List.filterMap_append, ha, List.append_nil]
  cases step_moves hs with
  | arrived id request =>
    refine h.arrive fun hmem => ?_
    have harr : arrivals (as ++ [.incomingRequest id request]) =
        arrivals as ++ [(id, request)] := by
      unfold arrivals
      rw [List.filterMap_append]
      rfl
    rw [harr, List.map_append, List.nodup_append] at hnd
    exact hnd.2.2 id hmem id (List.mem_singleton.2 rfl) rfl
  | enqueued e =>
    exact h.keep hs (hsame rfl) rfl rfl fun o ho r resp ha => (h.outputs o ho r resp ha).snoc _
  | @handled order e input m out head turn =>
    refine h.keep hs (hsame rfl) rfl rfl fun o ho r resp ha => ?_
    rcases List.mem_append.1 ho with ho | ho
    · exact (h.outputs o ho r resp ha).snoc _
    · -- the answer is computed by this turn
      obtain ⟨m', hm, hresp⟩ := answered_of_turn turn ho ha
      exact ⟨as, _, s, m', rfl, h.run, hm, hresp⟩
  | written running =>
    exact h.keep hs (hsame rfl) rfl rfl fun o ho r resp ha => (h.outputs o ho r resp ha).snoc _
  | flushed head answer => exact h.flush head answer
  | passed head other =>
    exact h.keep hs (hsame rfl) rfl rfl fun o ho r resp ha =>
      (h.outputs o (head ▸ List.mem_cons_of_mem _ ho) r resp ha).snoc _

omit [DecidableEq Id] in
theorem arrivals_left {as bs : List (ServerStep Id B)}
    (h : ((arrivals (as ++ bs)).map Prod.fst).Nodup) : ((arrivals as).map Prod.fst).Nodup := by
  unfold arrivals at *
  rw [List.filterMap_append, List.map_append] at h
  exact h.of_append_left

theorem Accounted.of_run (hnd : ((arrivals as).map Prod.fst).Nodup)
    (run : Trace Server.step (start memory) as s) : Accounted memory as s := by
  induction run with
  | nil =>
    exact
      { run := .nil _
        arrived := fun _ hp => absurd hp List.not_mem_nil
        fresh := fun _ _ => ⟨fun _ => List.not_mem_nil, fun _ => List.not_mem_nil⟩
        outputs := fun _ ho => absurd ho List.not_mem_nil }
  | snoc _ hs ih => exact (ih (arrivals_left hnd)).step hnd hs

/-! ## Drained queues -/

/-- An event of the request is in a queue, on its way to the data memory or back. -/
def Queued (s : Server Id B) (request : Request) : Prop :=
  forwarded request ∈ s.input ∨
    ∃ e ∈ s.output, ∃ response, answered e = some (request, response)

/-- The data memory is initialised, and every key with waiting requests is in a queue; or the
data memory has returned. -/
def Served (s : Server Id B) : Prop :=
  (∃ m, s.memory = .initialized m ∧ ∀ r ∈ s.processedRequests, s.Queued r) ∨ s.memory = .ended

omit [DecidableEq Id] in
theorem Served.step {a : ServerStep Id B} {s' : Server Id B} (h : s.Served)
    (hs : s.step a = some s') : s'.Served := by
  rcases h with ⟨m, hm, hq⟩ | hended
  · cases step_moves hs with
    | arrived id request =>
      refine .inl ⟨m, hm, fun r hr => ?_⟩
      rcases Finmap.mem_insert.1 hr with rfl | hr
      · exact .inl (List.mem_append_right _ (List.mem_singleton.2 rfl))
      · exact (hq r hr).imp_left (List.mem_append_left _)
    | enqueued e =>
      exact .inl ⟨m, hm, fun r hr => (hq r hr).imp_left (List.mem_append_left _)⟩
    | @handled order e input m' out head turn =>
      rw [hm] at turn
      simp only [MemoryModule.handle] at turn
      split at turn
      · rename_i m'' out' hh
        cases turn
        refine .inl ⟨m'', rfl, fun r hr => ?_⟩
        rcases hq r hr with hin | ⟨o, ho, hans⟩
        · rw [head] at hin
          rcases List.mem_cons.1 hin with rfl | hin
          · -- the event of this key is answered now
            obtain ⟨o, hanswer, ha⟩ := handle_forwarded m order r
            rw [hanswer] at hh
            cases hh
            exact .inr ⟨o, List.mem_append_right _ (List.mem_singleton.2 rfl), _, ha⟩
          · exact .inl hin
        · exact .inr ⟨o, List.mem_append_left _ ho, hans⟩
      all_goals
        cases turn
        exact .inr rfl
    | @written v x m' running => exact .inl ⟨_, rfl, hq⟩
    | @flushed e output request response head answer =>
      refine .inl ⟨m, hm, fun r hr => ?_⟩
      have hne : r ≠ request := by
        rintro rfl
        exact Finmap.notMem_erase_self hr
      rcases hq r (Finmap.mem_erase.1 hr).2 with hin | ⟨o, ho, resp, hans⟩
      · exact .inl hin
      · rw [head] at ho
        rcases List.mem_cons.1 ho with rfl | ho
        · rw [answer] at hans
          cases hans
          exact absurd rfl hne
        · exact .inr ⟨o, ho, resp, hans⟩
    | @passed e output head other =>
      refine .inl ⟨m, hm, fun r hr => ?_⟩
      rcases hq r hr with hin | ⟨o, ho, resp, hans⟩
      · exact .inl hin
      · rw [head] at ho
        rcases List.mem_cons.1 ho with rfl | ho
        · rw [other] at hans
          cases hans
        · exact .inr ⟨o, ho, resp, hans⟩
  · right
    cases step_moves hs with
    | handled head turn => rw [hended] at turn; cases turn
    | written running => rw [hended] at running; cases running
    | _ => exact hended

/-- **Requests are answered once**: in every run in which no id arrives twice, each request
waits once, under its own key, or has got exactly one response, computed for its own key; and
if the data memory is initialised from the start to the end and both queues are empty, no
request waits. -/
theorem requests_answered_once (distinct : ((arrivals as).map Prod.fst).Nodup)
    (run : Trace Server.step (start memory) as s) :
    (∀ p ∈ arrivals as, Waits s p.1 p.2 ∨ Responded memory as s p.1 p.2) ∧
    ((∃ m, memory = .initialized m) → (∃ m, s.memory = .initialized m) → s.input = [] →
      s.output = [] → s.processedRequests = ∅) := by
  refine ⟨(Accounted.of_run distinct run).arrived, ?_⟩
  rintro ⟨m₀, rfl⟩ ⟨m, hm⟩ hin hout
  have hserved : s.Served := Trace.invariant (I := fun _ s => s.Served)
    (.inl ⟨m₀, rfl, fun r hr => absurd hr Finmap.notMem_empty⟩) (fun _ _ _ _ h hs => h.step hs) run
  rcases hserved with ⟨-, -, hq⟩ | hended
  · refine Finmap.ext_lookup fun r => ?_
    rw [Finmap.lookup_empty, Finmap.lookup_eq_none]
    intro hr
    rcases hq r hr with hr | ⟨o, ho, -⟩
    · rw [hin] at hr
      cases hr
    · rw [hout] at ho
      cases ho
  · rw [hm] at hended
    cases hended

/-- Two requests for one shard; the first answer flushes both, the second finds none. -/
def batchSteps : List (ServerStep Nat 4) :=
  [.incomingRequest 0 (.getShard (⟨0⟩, ⟨0⟩)), .incomingRequest 1 (.getShard (⟨0⟩, ⟨0⟩)),
    .memory default, .memory default, .behaviour, .behaviour]

theorem requests_answered_once_batch :
    ∃ s, Trace step (start (.initialized InitializedDataMemory.sampleMemory)) batchSteps s ∧
      (∀ p ∈ arrivals batchSteps, Waits s p.1 p.2 ∨
        Responded (.initialized InitializedDataMemory.sampleMemory) batchSteps s p.1 p.2) ∧
      s.processedRequests = ∅ := by
  let run : Trace step (start (.initialized InitializedDataMemory.sampleMemory)) batchSteps _ :=
    Trace.of_runAll rfl
  have h := requests_answered_once (by decide) run
  exact ⟨_, run, h.1, h.2 ⟨_, rfl⟩ ⟨_, rfl⟩ rfl rfl⟩

end Server

end Swarm.Behaviour
