import Swarm.Network.Polling

/-!
# The network of machines refines the network of nodes

Whatever the modules, the behaviour, `main` and the packets do, the state of the
machines, with all their queues, is at most a state that the plain network
reaches: the nodes are the same, and every message and output of the machines is
there. Channels that are full or closed, lost packets and nodes that stop only
leave messages out.
-/

namespace Swarm.Network

open Swarm.DataMemory Swarm.Processor Swarm.Consensus Swarm.Node Swarm.Behaviour

variable {limit B : Nat} {Sync : Type}

namespace Deployment

/-- The behaviour names the requests of ids, and shows the processor as executing if it is. -/
structure Inv (m : Machine limit Sync B) : Prop where
  sound : Sound m.behaviour
  state : m.behaviour.processor.state ≠ none
  idle : m.processorLoop ≠ .executing → m.tile.processor = .ready
  busy : m.processorLoop = .executing → m.behaviour.processor.state = some .executing

variable (D : Deployment) (p : PeerId)

/-- The reaction of machine `m`, to messages from outside and commands, is one of the node. -/
structure Matched (m : Machine limit Sync B) (ms : List (PeerId × Message B))
    (commands : List (Behaviour.InEvent B)) (r : MachineReaction limit Sync B) : Prop where
  inv : Inv r.node
  matched : ∃ us, D.shown.Matches D.toSetup.actors p m ms us r ∧
    requestsOf us ++ commandsOf r.node.behaviour = commandsOf m.behaviour ++ commands

variable {D p} {m : Machine limit Sync B} {ms : List (PeerId × Message B)}
  {commands : List (Behaviour.InEvent B)} {r : MachineReaction limit Sync B}

theorem Inv.ready (h : Inv m) (hstate : m.behaviour.processor.state ≠ some .executing) :
    m.tile.processor = .ready :=
  h.idle fun hloop => hstate (h.busy hloop)

/-- Nothing that the node sees, up to lost messages. -/
theorem Matched.stutter (inv : Inv r.node) (node : D.shown.node r.node = D.shown.node m)
    (pool : (r.sent.flatMap carried ++ D.shown.inside p r.node).Subperm
      (ms ++ D.shown.inside p m)) (outputs : r.outputs = [])
    (commandsEq : commandsOf r.node.behaviour = commandsOf m.behaviour ++ commands) :
    Matched D p m ms commands r where
  inv := inv
  matched := ⟨[], ⟨_, [], node ▸ .nil _ _, pool, outputs ▸ List.Sublist.refl _⟩, commandsEq⟩

/-- The node takes the message `y`. -/
theorem Matched.delivered {y : Message B} {l : List (PeerId × Message B)} {c : Choice}
    {x : NodeReaction B} (inv : Inv r.node)
    (has : (ms ++ D.shown.inside p m).Perm ((p, y) :: l))
    (reaction : D.toSetup.receive p c (D.shown.node m) y = some x)
    (node : D.shown.node r.node = x.node)
    (pool : (r.sent.flatMap carried ++ D.shown.inside p r.node).Subperm (l ++ x.sent))
    (outputs : r.outputs = x.outputs)
    (commandsEq : commandsOf r.node.behaviour = commandsOf m.behaviour ++ commands) :
    Matched D p m ms commands r where
  inv := inv
  matched := ⟨[], ⟨_, _, node ▸ Actors.Locally.delivered (A := D.toSetup.actors) has reaction, pool,
    outputs ▸ List.Sublist.refl _⟩, commandsEq⟩

/-- The node acts, but not for its user. -/
theorem Matched.acted {a : Act B} {c : Choice} {x : NodeReaction B} (inv : Inv r.node)
    (reaction : D.toSetup.act p c (D.shown.node m) a = some x) (user : requestsOf [a] = [])
    (node : D.shown.node r.node = x.node)
    (pool : (r.sent.flatMap carried ++ D.shown.inside p r.node).Subperm
      (ms ++ D.shown.inside p m ++ x.sent)) (outputs : r.outputs = x.outputs)
    (commandsEq : commandsOf r.node.behaviour = commandsOf m.behaviour ++ commands) :
    Matched D p m ms commands r where
  inv := inv
  matched := ⟨[a], ⟨_, _, node ▸ Actors.Locally.acted (A := D.toSetup.actors) reaction, pool,
    outputs ▸ List.Sublist.refl _⟩, by rw [user]; exact commandsEq⟩

/-- A reaction after which the behaviour is as after a poll step. -/
theorem Polled.machine {b : NodeBehaviour limit Sync B} {m' : Machine limit Sync B}
    {sent : List (PeerId × Packet Sync B)} (h : Polled D p m b) (inv : Inv m)
    (behaviour : m'.behaviour = { b with shutdown := m'.behaviour.shutdown })
    (others : m' = { m with behaviour := m'.behaviour, phase := m'.phase, main := m'.main })
    (hsent : sent.flatMap carried = []) :
    Matched D p m [] [] ⟨m', sent, Machine.told m.behaviour b⟩ := by
  obtain ⟨us, ms, out, hlocal, hsub, htold, hcommands⟩ := h.matched
  have hsound := h.sound
  have hstate := h.state
  rw [others, behaviour]
  refine ⟨⟨hsound.of_events rfl rfl fun _ h => h, fun hnone => inv.state (hstate.symm.trans hnone),
    inv.idle, fun hloop => hstate.trans (inv.busy hloop)⟩, us, ⟨ms, out, hlocal, ?_, htold⟩, ?_⟩
  · show (sent.flatMap carried ++ _).Subperm ms
    rw [hsent]
    exact hsub
  · rw [List.append_nil]
    exact hcommands

theorem pollStep_matched {c : PollChoice} (hp : p ∈ D.peers) (h : Inv m) :
    Matched D p m [] [] (m.pollStep D.calculateHash p c) := by
  have hpolled : Polled D p m (after (m.behaviour.micro D.calculateHash c m.phase)) :=
    micro_polled hp h.sound h.ready
  unfold Machine.pollStep
  split
  all_goals
    rename_i hmicro
    rw [hmicro] at hpolled
    exact hpolled.machine h rfl rfl rfl

/-! ## Steps of the modules -/

variable (p) in
/-- A step of the data memory and the processor. -/
theorem tileAct_moves {a : TileStep B} {x : Machine limit Sync B × List (TileOut B)}
    (h : m.tileAct D.add a = some x) : ∃ t out b, x = ({ m with tile := t, behaviour := b }, out) ∧
      m.tile.Moves D.add a t out ∧ Unseen D p m.behaviour b ∧
      D.tileStep p (D.shown.node m) a = some ⟨{ D.shown.node m with tile := t },
        out.map (Setup.emit p), out.map Setup.emitted⟩ := by
  obtain ⟨⟨t, out⟩, ht, rfl⟩ := Option.map_eq_some_iff.1 h
  refine ⟨t, out, _, rfl, Tile.step_moves ht, ?_, congrArg (Option.map _) ht⟩
  split
  · exact ⟨.refl _, fun _ => rfl, rfl⟩
  · exact ⟨⟨rfl, rfl, rfl, rfl, rfl⟩, fun _ => rfl, rfl⟩

/-- Only the start of a program makes the processor execute. -/
theorem ready_of_moves {add : UInt8 → UInt8 → UInt8} {t t' : Tile B} {a : TileStep B}
    {out : List (TileOut B)} (h : t.Moves add a t' out)
    (ha : ∀ f s program, a ≠ .start f s program) (hready : t.processor = .ready) :
    t'.processor = .ready := by
  cases h with
  | started => exact absurd rfl (ha _ _ _)
  | answered running reading | readRefused ended reading => rw [hready] at reading; cases reading
  | pushed running writing | pushRefused ended writing => rw [hready] at writing; cases writing
  | finished done => rfl
  | _ => exact hready

/-- A machine with another tile. -/
theorem Inv.tile {t : Tile B} {b : NodeBehaviour limit Sync B} (inv : Inv m)
    (unseen : Unseen D p m.behaviour b) (ready : m.tile.processor = .ready → t.processor = .ready) :
    Inv { m with tile := t, behaviour := b } where
  sound := inv.sound.kept unseen.kept
  state hnone := inv.state (unseen.kept.processor.symm.trans hnone)
  idle hloop := ready (inv.idle hloop)
  busy hloop := unseen.kept.processor.trans (inv.busy hloop)

theorem Unseen.node {t : Tile B} {b : NodeBehaviour limit Sync B} (h : Unseen D p m.behaviour b) :
    D.shown.node { m with tile := t, behaviour := b } = { D.shown.node m with tile := t } := by
  simp only [shown, h.kept.processed]

theorem Unseen.inside {t : Tile B} {b : NodeBehaviour limit Sync B}
    (h : Unseen D p m.behaviour b) :
    D.shown.inside p { m with tile := t, behaviour := b } = D.shown.inside p m := by
  simp only [shown, h.queues]
  rfl

theorem Unseen.commands_eq {b : NodeBehaviour limit Sync B} (h : Unseen D p m.behaviour b) :
    commandsOf b = commandsOf m.behaviour := by
  rw [commandsOf, h.kept.commands]
  rfl

/-- A step on the memory bus. -/
theorem busStep_matched {a : TileStep B} {b : Act B} (inv : Inv m)
    (hact : D.toSetup.act p default (D.shown.node m) b = D.tileStep p (D.shown.node m) a)
    (user : requestsOf [b] = [])
    (bus : ∀ t out, m.tile.Moves D.add a t out → out = [])
    (ha : ∀ f s program, a ≠ .start f s program) (h : m.busStep D.add a = some r) :
    Matched D p m [] [] r := by
  obtain ⟨x, hx, hr⟩ := Option.bind_eq_some_iff.1 h
  cases hr
  obtain ⟨t, out, b', rfl, moves, unseen, hstep⟩ := tileAct_moves p hx
  obtain rfl := bus t out moves
  refine .acted (inv.tile unseen (ready_of_moves moves ha)) (hact.trans hstep) user unseen.node ?_ rfl
    ((List.append_nil _).symm ▸ unseen.commands_eq)
  show ([] ++ D.shown.inside p _).Subperm (_ ++ [])
  rw [unseen.inside, List.append_nil]

theorem finish_matched (hp : p ∈ D.peers) (inv : Inv m) (h : m.finish D.add = some r) :
    Matched D p m [] [] r := by
  classical
  obtain ⟨x, hx, hr⟩ := Option.bind_eq_some_iff.1 h
  obtain ⟨t, out, b', rfl, moves, unseen, hstep⟩ := tileAct_moves p hx
  cases moves with
  | @finished id results done =>
    cases hr
    have hloop : m.processorLoop = .executing := by
      by_contra hne
      rw [inv.idle hne] at done
      cases done
    refine .acted (a := .finish) (c := default) ⟨inv.sound.kept unseen.kept, fun hnone => inv.state
      (unseen.kept.processor.symm.trans hnone), fun _ => rfl, fun h => by cases h⟩
      ((if_pos hp).trans hstep) rfl unseen.node ?_ rfl
      ((List.append_nil _).symm ▸ unseen.commands_eq)
    refine List.Perm.subperm (List.perm_iff_count.2 fun x => ?_)
    simp only [shown, unseen.queues, held, hloop, loopHolds, List.flatMap_nil, List.map_cons,
      List.map_nil, Setup.emit, List.nil_append, List.append_nil, List.append_assoc]

theorem startProgram_matched {fetchOrder saveOrder : KeyOrder Vid} (inv : Inv m)
    (h : m.startProgram D.add fetchOrder saveOrder = some r) : Matched D p m [] [] r := by
  classical
  unfold Machine.startProgram at h
  split at h
  · rename_i program hloop
    obtain ⟨x, hx, hr⟩ := Option.bind_eq_some_iff.1 h
    obtain ⟨t, out, b', rfl, moves, unseen, hstep⟩ := tileAct_moves p hx
    have hstate : (b'.processor.setState .executing).state = some .executing := by
      rw [ModuleChannel.setState, unseen.kept.processor]
      cases hs : m.behaviour.processor.state with
      | none => exact absurd hs inv.state
      | some s => rfl
    cases moves with
    | @started _ _ _ rest ready code =>
      cases hr
      refine .delivered (y := .processorIn program) (l := D.queued p m.scheduled m.behaviour ++
        held p { m with processorLoop := .executing })
        (c := { (default : Choice) with fetchOrder := fetchOrder, saveOrder := saveOrder })
        ⟨(inv.sound.kept unseen.kept).of_events rfl rfl fun _ h => h, fun hnone => ?_,
          fun hne => absurd rfl hne, fun _ => hstate⟩
        (List.perm_iff_count.2 fun z => ?_) hstep unseen.node (List.Perm.subperm ?_) rfl
        ((List.append_nil _).symm ▸ unseen.commands_eq)
      · cases hstate.symm.trans hnone
      · simp only [shown, held, hloop, loopHolds, List.nil_append, List.append_nil,
          List.count_append, List.count_cons, List.count_nil]
        omega
      · rw [List.map_nil, List.append_nil]
        exact List.Perm.of_eq (congrArg (· ++ _) (unseen.queues m.scheduled))
  · cases h

/-- The events of a tile that handles an event are all the memory's. -/
theorem memoryEvents {t : Tile B} {order : HashOrder} {e : DataMemory.InEvent B}
    {out : List (TileOut B)} (h : m.tile.Moves D.add (.handle order e) t out) :
    (out.filterMap Machine.memoryEvent).map (fun e => (p, Message.memoryOut e)) =
      out.map (Setup.emit p) := by
  cases h with
  | ended => rfl
  | @handled _ _ memory o running turn =>
    rw [List.filterMap_map, List.map_map]
    exact congrArg (List.map _) (List.filterMap_some (l := o))

/-- The data memory takes an event. -/
def takeMemoryEvent (m : Machine limit Sync B) (rest : Channel limit (DataMemory.InEvent B)) :
    Machine limit Sync B :=
  { m with behaviour := { m.behaviour with
    dataMemory := { m.behaviour.dataMemory with input := rest } } }

theorem dataMemoryStep_matched {order : HashOrder} (inv : Inv m)
    (h : m.dataMemoryStep D.add order = some r) : Matched D p m [] [] r := by
  classical
  unfold Machine.dataMemoryStep at h
  split at h
  · rename_i e rest houtbox hrecv
    obtain ⟨x, hx, rfl⟩ := Option.map_eq_some_iff.1 h
    change (takeMemoryEvent m rest).tileAct D.add (.handle order e) = some x at hx
    obtain ⟨t, out, b', rfl, moves, unseen, hstep⟩ := tileAct_moves p hx
    have inv' : Inv (takeMemoryEvent m rest) :=
      ⟨inv.sound.of_events rfl rfl fun _ h => h, inv.state, inv.idle, inv.busy⟩
    have inv'' := inv'.tile unseen (ready_of_moves moves fun f s program h => by cases h)
    refine .delivered (y := .memoryIn e)
      (c := { (default : Choice) with order := order })
      (l := D.queued p m.scheduled (takeMemoryEvent m rest).behaviour ++ held p m)
      ⟨inv''.sound, inv''.state, inv''.idle, inv''.busy⟩
      (List.perm_iff_count.2 fun y => ?_) hstep unseen.node
      (List.Perm.subperm (List.perm_iff_count.2 fun y => ?_)) rfl
      ((List.append_nil _).symm ▸ unseen.commands_eq)
    · simp only [shown, queued, takeMemoryEvent, (Channel.recv_eq_item hrecv).1, List.map_cons,
        List.count_append, List.count_cons, List.nil_append]
      omega
    · simp only [shown, unseen.queues, held, takeMemoryEvent, memoryEvents moves, houtbox,
        List.flatMap_nil, List.map_nil, List.count_append, List.nil_append]
      omega
  · cases h

theorem instructionsStep_matched {order : KeyOrder Vid} (inv : Inv m)
    (h : m.instructionsStep order = some r) : Matched D p m [] [] r := by
  classical
  unfold Machine.instructionsStep at h
  split at h
  · rename_i e rest houtbox hrecv
    cases h
    refine .delivered (y := .instructionIn e) (c := { (default : Choice) with vids := order })
      (l := D.queued p m.scheduled { m.behaviour with
        instructionMemory := { m.behaviour.instructionMemory with input := rest } } ++ held p m)
      ⟨inv.sound.of_events rfl rfl fun _ h => h, inv.state, inv.idle, inv.busy⟩
      (List.perm_iff_count.2 fun y => ?_) rfl rfl
      (List.Perm.subperm (List.perm_iff_count.2 fun y => ?_)) rfl (List.append_nil _).symm
    · simp only [shown, queued, (Channel.recv_eq_item hrecv).1, List.map_cons,
        List.count_append, List.count_cons, List.nil_append]
      omega
    · simp only [shown, held, houtbox, Setup.instructionStep, List.flatMap_nil, List.map_nil,
        List.count_append, List.count_nil, List.nil_append]
      omega
  · cases h

/-! ## Steps that the node does not see -/

/-- `main` sends to the behaviour, or waits, or ends. -/
theorem tell_matched {e : RequestResponseOut RequestId ResponseChannel B}
    {packets : List (PeerId × Packet Sync B)} {m' : Machine limit Sync B} (inv : Inv m')
    (h : m'.tell e packets = some r) (node : D.shown.node m' = D.shown.node m)
    (commandsEq : commandsOf m'.behaviour = commandsOf m.behaviour)
    (pool : (packets.flatMap carried ++ arrived p e ++ D.shown.inside p m').Subperm
      (ms ++ D.shown.inside p m))
    (assigned : ∀ id request, e = .assignedRequestId id request → request = id.request)
    (incoming : ∀ id request channel, e = .incomingRequest id request channel →
      channel.requestId.request = request) : Matched D p m ms [] r := by
  classical
  have hless : (D.shown.inside p m').Subperm (ms ++ D.shown.inside p m) :=
    (List.sublist_append_right ..).subperm.trans pool
  unfold Machine.tell at h
  split at h
  · rename_i c hsend
    obtain ⟨-, -, hqueue, -, -⟩ := Channel.send_eq_ok.1 hsend
    cases h
    refine .stutter ⟨⟨inv.sound.pending, fun id request hmem => ?_, inv.sound.waits,
      fun id request channel hmem => ?_⟩, inv.state, inv.idle, inv.busy⟩ node
      (List.Subperm.trans (List.Perm.subperm (List.perm_iff_count.2 fun y => ?_)) pool) rfl
      (commandsEq.trans (List.append_nil _).symm)
    · rcases List.mem_append.1 (hqueue ▸ hmem) with hmem | hmem
      · exact inv.sound.assigned id request hmem
      · exact assigned id request (List.mem_singleton.1 hmem).symm
    · rcases List.mem_append.1 (hqueue ▸ hmem) with hmem | hmem
      · exact inv.sound.incoming id request channel hmem
      · exact incoming id request channel (List.mem_singleton.1 hmem).symm
    · simp only [shown, queued, held, hqueue, List.flatMap_append, List.flatMap_cons,
        List.flatMap_nil, List.append_nil, List.count_append]
      omega
  · cases h
    exact .stutter ⟨inv.sound, inv.state, inv.idle, inv.busy⟩ node hless rfl
      (commandsEq.trans (List.append_nil _).symm)
  · cases h
    exact .stutter ⟨inv.sound, inv.state, inv.idle, inv.busy⟩ node hless rfl
      (commandsEq.trans (List.append_nil _).symm)

theorem takeRequest_matched (inv : Inv m) (h : m.takeRequest p = some r) :
    Matched D p m [] [] r := by
  classical
  unfold Machine.takeRequest at h
  split at h
  · rename_i e rest hrecv
    have hqueue := (Channel.recv_eq_item hrecv).1
    have hsound := inv.sound
    cases e with
    | makeRequest request location =>
      simp only at h
      refine tell_matched ?_ h rfl rfl (List.Perm.subperm (List.perm_iff_count.2 fun y => ?_))
        (fun id request h => by cases h; rfl) fun id request channel h => by cases h
      · exact ⟨hsound.of_events rfl rfl fun _ h => h, inv.state, inv.idle, inv.busy⟩
      · simp only [shown, queued, held, hqueue, carried, arrived, asked, List.flatMap_cons,
          List.flatMap_nil, List.map_cons, List.append_nil, List.nil_append, List.count_append,
          List.count_cons, List.count_nil]
        omega
    | respond id channel response =>
      cases h
      refine .stutter ⟨hsound.of_events rfl rfl fun _ h => h, inv.state, inv.idle, inv.busy⟩ rfl
        (List.Perm.subperm (List.perm_iff_count.2 fun y => ?_)) rfl (List.append_nil _).symm
      simp only [shown, queued, held, hqueue, carried, asked, List.flatMap_cons,
        List.flatMap_nil, List.map_cons, List.append_nil, List.nil_append, List.count_append,
        List.count_cons, List.count_nil]
      omega
  · cases h

theorem sendDataMemory_matched (inv : Inv m) (h : m.sendDataMemory = some r) :
    Matched D p m [] [] r := by
  classical
  unfold Machine.sendDataMemory at h
  split at h
  · rename_i e rest houtbox
    split at h
    · rename_i c hsend
      obtain ⟨-, -, hqueue, -, -⟩ := Channel.send_eq_ok.1 hsend
      cases h
      refine .stutter ⟨inv.sound.of_events rfl rfl fun _ h => h, inv.state, inv.idle, inv.busy⟩ rfl
        (List.Perm.subperm (List.perm_iff_count.2 fun y => ?_)) rfl (List.append_nil _).symm
      simp only [shown, queued, held, houtbox, hqueue, List.flatMap_nil, List.map_cons,
        List.map_nil, List.map_append, List.count_append, List.count_cons, List.count_nil,
        List.nil_append]
      omega
    · cases h
  · cases h

theorem sendInstructions_matched (inv : Inv m) (h : m.sendInstructions = some r) :
    Matched D p m [] [] r := by
  classical
  unfold Machine.sendInstructions at h
  split at h
  · rename_i e rest houtbox
    split at h
    · rename_i c hsend
      obtain ⟨-, -, hqueue, -, -⟩ := Channel.send_eq_ok.1 hsend
      cases h
      refine .stutter ⟨inv.sound.of_events rfl rfl fun _ h => h, inv.state, inv.idle, inv.busy⟩ rfl
        (List.Perm.subperm (List.perm_iff_count.2 fun y => ?_)) rfl (List.append_nil _).symm
      simp only [shown, queued, held, houtbox, hqueue, List.flatMap_nil, List.map_cons,
        List.map_nil, List.map_append, List.count_append, List.count_cons, List.count_nil,
        List.nil_append]
      omega
    · cases h
  · cases h

theorem sendConsensus_matched (inv : Inv m) (h : m.sendConsensus = some r) :
    Matched D p m [] [] r := by
  classical
  unfold Machine.sendConsensus at h
  split at h
  · rename_i e rest houtbox
    split at h
    · rename_i c hsend
      obtain ⟨-, -, hqueue, -, -⟩ := Channel.send_eq_ok.1 hsend
      cases h
      refine .stutter ⟨inv.sound.of_events rfl rfl fun _ h => h, inv.state, inv.idle, inv.busy⟩ rfl
        (List.Perm.subperm (List.perm_iff_count.2 fun y => ?_)) rfl (List.append_nil _).symm
      simp only [shown, queued, held, houtbox, hqueue, List.flatMap_nil, List.flatMap_cons,
        List.flatMap_append, List.count_append, List.append_nil, List.nil_append]
      omega
    · cases h
  · cases h

theorem receiveProgram_matched (inv : Inv m) (h : m.receiveProgram = some r) :
    Matched D p m [] [] r := by
  classical
  unfold Machine.receiveProgram at h
  split at h
  · rename_i program rest hloop hrecv
    cases h
    refine .stutter ⟨inv.sound.of_events rfl rfl fun _ h => h, inv.state,
      fun _ => inv.idle (hloop ▸ fun h => by cases h), fun h => by cases h⟩ rfl
      (List.Perm.subperm (List.perm_iff_count.2 fun y => ?_)) rfl (List.append_nil _).symm
    simp only [shown, queued, held, hloop, loopHolds, (Channel.recv_eq_item hrecv).1,
      List.flatMap_nil, List.map_cons, List.count_append, List.count_cons, List.count_nil,
      List.nil_append]
    omega
  · cases h

theorem report_matched (inv : Inv m) (h : m.report = some r) : Matched D p m [] [] r := by
  classical
  unfold Machine.report at h
  split at h
  · rename_i e hloop
    split at h
    · rename_i c hsend
      obtain ⟨-, -, hqueue, -, -⟩ := Channel.send_eq_ok.1 hsend
      cases h
      refine .stutter ⟨inv.sound.of_events rfl rfl fun _ h => h, inv.state,
        fun _ => inv.idle (hloop ▸ fun h => by cases h), fun h => by cases h⟩ rfl
        (List.Perm.subperm (List.perm_iff_count.2 fun y => ?_)) rfl (List.append_nil _).symm
      simp only [shown, queued, held, hloop, loopHolds, hqueue, List.flatMap_nil, List.map_cons,
        List.map_nil, List.map_append, List.count_append, List.count_cons, List.count_nil,
        List.nil_append]
      omega
    · cases h
  · cases h

theorem setReady_matched (inv : Inv m) (h : m.setReady = some r) : Matched D p m [] [] r := by
  unfold Machine.setReady at h
  split at h
  · rename_i hloop
    cases h
    refine .stutter ⟨inv.sound.of_events rfl rfl fun _ h => h, fun hnone => ?_,
      fun _ => inv.idle (hloop ▸ fun h => by cases h), fun h => by cases h⟩ rfl
      (List.Perm.of_eq ?_).subperm rfl (List.append_nil _).symm
    · exact inv.state (Option.map_eq_none_iff.1 hnone)
    · simp only [shown, held, hloop, loopHolds, List.flatMap_nil, List.nil_append]
      rfl
  · cases h

/-- Consensus gets something to say. -/
theorem putOut_matched {e : Consensus.OutEvent Sync} (inv : Inv m) (h : m.putOut e = some r)
    (hms : recognizedBy p e = ms) : Matched D p m ms [] r := by
  classical
  unfold Machine.putOut at h
  split at h
  · rename_i houtbox hreceiving
    cases h
    refine .stutter ⟨inv.sound, inv.state, inv.idle, inv.busy⟩ rfl
      (List.Perm.subperm (List.perm_iff_count.2 fun y => ?_)) rfl (List.append_nil _).symm
    simp only [shown, held, houtbox, hms, List.flatMap_nil, List.flatMap_cons, List.count_append,
      List.nil_append, List.append_nil]
    omega
  · cases h

/-- Consensus takes an event that is no transaction. -/
theorem taken_matched {e : Consensus.InEvent Sync} {i : Channel limit (Consensus.InEvent Sync)}
    {o : Channel limit (Consensus.OutEvent Sync)} {out : List (Consensus.OutEvent Sync)}
    (inv : Inv m) (hin : m.behaviour.consensus.input.queue = e :: i.queue) (he : txOf e = none)
    (ho : o.queue = m.behaviour.consensus.output.queue) (houtbox : m.consensusOutbox = [])
    (hout : out.flatMap (recognizedBy (B := B) p) = []) :
    Matched D p m [] [] ⟨{ m with
      consensusOutbox := out
      behaviour := { m.behaviour with
        consensus := { m.behaviour.consensus with input := i, output := o } } }, [], []⟩ := by
  refine .stutter ⟨inv.sound.of_events rfl rfl fun _ h => h, inv.state, inv.idle, inv.busy⟩ rfl
    (List.Perm.of_eq ?_).subperm rfl (List.append_nil _).symm
  simp only [shown, queued, held, hin, ho, houtbox, hout, List.filterMap_cons, he, List.flatMap_nil]

theorem consensusStep_matched {c : ConsensusChoice Sync} (inv : Inv m)
    (h : m.consensusStep D.peers D.eventHash p c = some r) : Matched D p m [] [] r := by
  classical
  unfold Machine.consensusStep at h
  split at h
  · rename_i e rest houtbox hrecv
    have hqueue := (Channel.recv_eq_item hrecv).1
    cases e with
    | generateSyncRequest peer =>
      simp only at h
      split at h
      · cases h
        exact taken_matched inv hqueue rfl rfl houtbox rfl
      · cases h
        exact taken_matched (i := rest.dropReceiver) inv hqueue rfl rfl houtbox (houtbox ▸ rfl)
    | knownPeersRequest =>
      cases h
      exact taken_matched inv hqueue rfl rfl houtbox rfl
    | applySync origin sync =>
      cases h
      exact taken_matched inv hqueue rfl rfl houtbox (houtbox ▸ rfl)
    | createStandalone =>
      simp only at h
      split at h
      · cases h
        exact taken_matched (i := rest.dropReceiver) inv hqueue rfl rfl houtbox (houtbox ▸ rfl)
      · cases h
        exact taken_matched inv hqueue rfl rfl houtbox (houtbox ▸ rfl)
    | scheduleTx tx =>
      cases h
      refine .stutter ⟨inv.sound.of_events rfl rfl fun _ h => h, inv.state, inv.idle, inv.busy⟩ rfl
        (List.Perm.subperm (List.perm_iff_count.2 fun y => ?_)) rfl (List.append_nil _).symm
      have hcarried : (D.peers.map (·, (.recognized p tx (D.eventHash p m.scheduled) :
          Packet Sync B))).flatMap carried =
          D.peers.map (·, .recognized p tx (D.eventHash p m.scheduled)) := by
        rw [List.flatMap_map]
        exact List.flatMap_pure_eq_map ..
      simp only [shown, queued, hqueue, hcarried, held, List.filterMap_cons, txOf, broadcasts,
        List.count_append, List.nil_append]
      omega
  · cases h

/-! ## Steps of a machine -/

/-- The request in a step, if it is a command. -/
def requestIn : MachineAct Sync B → List (Behaviour.InEvent B)
  | .command e => (commandOf e).toList
  | _ => []

theorem receive_matched {lost : Bool} {packet : Packet Sync B} (inv : Inv m)
    (h : D.receive p lost m packet = some r) :
    p ∈ D.peers ∧ Matched D p m (carried (p, packet)) [] r := by
  unfold receive at h
  split at h
  · rename_i hp
    refine ⟨hp, ?_⟩
    have hlost : Matched D p m (carried (p, packet)) [] ⟨m, [], []⟩ :=
      .stutter inv rfl (List.sublist_append_right ..).subperm rfl (List.append_nil _).symm
    split at h
    · cases h
      exact hlost
    · cases packet with
      | request requestId origin =>
        simp only at h
        split at h
        · refine tell_matched ?_ h rfl rfl (List.Subperm.refl _) (fun id request h => by cases h)
            fun id request channel h => by cases h; rfl
          exact ⟨inv.sound, inv.state, inv.idle, inv.busy⟩
        · cases h
      | response requestId response =>
        simp only at h
        split at h
        · exact tell_matched inv h rfl rfl (List.Subperm.refl _) (fun id request h => by cases h)
            fun id request channel h => by cases h
        · cases h
      | recognized author tx eventHash => exact putOut_matched inv h rfl
      | simple origin sync =>
        simp only at h
        split at h
        · cases h
          exact .stutter ⟨inv.sound.of_events rfl rfl fun _ h => h, inv.state, inv.idle, inv.busy⟩
            rfl (List.Subperm.refl _) rfl (List.append_nil _).symm
        · cases h
  · cases h

/-- Only what the node does not see of the behaviour changes. -/
theorem Unseen.matched {b : NodeBehaviour limit Sync B} (h : Unseen D p m.behaviour b)
    (inv : Inv m) : Matched D p m [] [] ⟨{ m with behaviour := b }, [], []⟩ :=
  .stutter (inv.tile h id) (h.node (t := m.tile)) (h.inside (t := m.tile) ▸ List.Subperm.refl _)
    rfl (h.commands_eq.trans (List.append_nil _).symm)

theorem act_matched {c : Bool} {a : MachineAct Sync B} (inv : Inv m)
    (h : D.act p c m a = some r) : p ∈ D.peers ∧ Matched D p m [] (requestIn a) r := by
  unfold act at h
  split at h
  · rename_i hp
    refine ⟨hp, ?_⟩
    cases a with
    | poll c =>
      simp only [machineAct] at h
      split at h
      · cases h
        exact pollStep_matched hp inv
      · cases h
    | connectionEstablished peer otherEstablished =>
      simp only [machineAct] at h
      split at h
      · cases h
        refine Unseen.matched ?_ inv
        unfold connectionEstablished
        split
        · exact ⟨.refl _, fun _ => rfl, rfl⟩
        · exact ⟨⟨rfl, rfl, rfl, rfl, rfl⟩, fun _ => rfl, rfl⟩
      · cases h
    | connectionClosed peer remainingEstablished =>
      simp only [machineAct] at h
      split at h
      · cases h
        refine Unseen.matched ?_ inv
        unfold connectionClosed
        split
        · exact ⟨.refl _, fun _ => rfl, rfl⟩
        · exact ⟨⟨rfl, rfl, rfl, rfl, rfl⟩, fun _ => rfl, rfl⟩
      · cases h
    | discovered peer =>
      simp only [machineAct] at h
      split at h
      · cases h
        exact Unseen.matched ⟨⟨rfl, rfl, rfl, rfl, rfl⟩, fun _ => rfl, rfl⟩ inv
      · cases h
    | takeRequest =>
      simp only [machineAct] at h
      split at h
      · exact takeRequest_matched inv h
      · cases h
    | command e =>
      simp only [machineAct] at h
      split at h
      · rename_i c hsend
        obtain ⟨-, -, hqueue, -, -⟩ := Channel.send_eq_ok.1 hsend
        cases h
        refine .stutter ⟨inv.sound.of_events rfl rfl fun _ h => h, inv.state, inv.idle, inv.busy⟩
          rfl (List.Subperm.refl _) rfl ?_
        simp only [commandsOf, requestIn, hqueue, List.filterMap_append]
        cases hc : commandOf e <;> simp [hc]
      · cases h
    | readReply =>
      simp only [machineAct] at h
      split at h
      · cases h
        exact .stutter ⟨inv.sound.of_events rfl rfl fun _ h => h, inv.state, inv.idle, inv.busy⟩
          rfl (List.Subperm.refl _) rfl (List.append_nil _).symm
      · cases h
    | shutdown =>
      cases h
      exact Unseen.matched ⟨⟨rfl, rfl, rfl, rfl, rfl⟩, fun _ => rfl, rfl⟩ inv
    | dataMemory order => exact dataMemoryStep_matched inv h
    | sendDataMemory => exact sendDataMemory_matched inv h
    | instructions order => exact instructionsStep_matched inv h
    | sendInstructions => exact sendInstructions_matched inv h
    | receiveProgram => exact receiveProgram_matched inv h
    | startProgram fetchOrder saveOrder => exact startProgram_matched inv h
    | read order =>
      simp only [machineAct] at h
      split at h
      · exact busStep_matched (b := .read order) inv (if_pos hp) rfl
          (fun t out moves => by cases moves <;> rfl) (fun f s program h => by cases h) h
      · cases h
    | push =>
      simp only [machineAct] at h
      split at h
      · exact busStep_matched (b := .push) inv (if_pos hp) rfl
          (fun t out moves => by cases moves <;> rfl) (fun f s program h => by cases h) h
      · cases h
    | applyWrite =>
      simp only [machineAct] at h
      split at h
      · exact busStep_matched (b := .applyWrite) inv (if_pos hp) rfl
          (fun t out moves => by cases moves; rfl) (fun f s program h => by cases h) h
      · cases h
    | finish => exact finish_matched hp inv h
    | report => exact report_matched inv h
    | setReady => exact setReady_matched inv h
    | consensus c => exact consensusStep_matched inv h
    | finalize author eventHash tx => exact putOut_matched inv h rfl
    | sendConsensus => exact sendConsensus_matched inv h
  · cases h

/-! ## Runs -/

/-- The requests of the user at node `p` in a run of the machines. -/
def commanded (p : PeerId) (bs : List (Action Sync B)) : List (Behaviour.InEvent B) :=
  bs.flatMap fun
    | .act q _ a => if q = p then requestIn a else []
    | .deliver _ _ => []

/-- The requests of the user among the own actions of the nodes. -/
def requested (p : PeerId) (us : List (PeerId × Act B)) : List (Behaviour.InEvent B) :=
  requestsOf ((us.filter (·.1 = p)).map Prod.snd)

theorem requested_append (us vs : List (PeerId × Act B)) :
    requested p (us ++ vs) = requested p us ++ requested p vs := by
  simp [requested, requestsOf]

theorem requested_map (q : PeerId) (us : List (Act B)) :
    requested p (us.map (q, ·)) = if q = p then requestsOf us else [] := by
  unfold requested
  split
  · rename_i hq
    subst hq
    simp [List.filter_map, Function.comp_def]
  · rename_i hq
    simp [List.filter_map, Function.comp_def, hq, requestsOf]

/-- The requests that were taken and those that wait are those of the user. -/
structure Accounted (bs : List (Action Sync B)) (t : State limit Sync B)
    (us : List (PeerId × Act B)) : Prop where
  inv : ∀ p, Inv (t.nodes p)
  requests : ∀ p, requested p us ++ commandsOf (t.nodes p).behaviour = commanded p bs

theorem Accounted.react {bs : List (Action Sync B)} {b : Action Sync B} {t : State limit Sync B}
    {us : List (PeerId × Act B)} {pool : List (PeerId × Packet Sync B)}
    (h : Accounted bs t us) (hr : Matched D p (t.nodes p) ms commands r)
    (hb : ∀ q, commanded q [b] = if q = p then commands else []) :
    ∃ us', D.shown.Matches D.toSetup.actors p (t.nodes p) ms us' r ∧
      Accounted (bs ++ [b]) (t.react p pool r) (us ++ us'.map (p, ·)) := by
  obtain ⟨us', hmatches, hrequests⟩ := hr.matched
  refine ⟨us', hmatches, fun q => ?_, fun q => ?_⟩
  · rw [Actors.react_nodes]
    split
    · exact hr.inv
    · exact h.inv q
  · have hcommanded : commanded q (bs ++ [b]) = commanded q bs ++ commanded q [b] :=
      List.flatMap_append
    rw [Actors.react_nodes, requested_append, requested_map, hcommanded, hb, ← h.requests q]
    by_cases hq : q = p
    · subst hq
      rw [if_pos rfl, if_pos rfl, if_pos rfl, List.append_assoc, hrequests, List.append_assoc]
    · rw [if_neg hq, if_neg hq, if_neg (Ne.symm hq), List.append_nil, List.append_nil]

theorem init_inv (p : PeerId) : Inv (D.initialMachine p : Machine limit Sync B) where
  sound := by
    refine ⟨?_, ?_, ?_, ?_⟩
    · rintro id request h; cases h
    · rintro id request h; cases h
    · rintro request w h; cases h
    · rintro id request channel h; cases h
  state h := by cases h
  idle _ := rfl
  busy h := by cases h

theorem peersOf_empty : peersOf ∅ = ∅ :=
  Finmap.ext_lookup fun _ => by rw [peersOf, Finmap.lookup_mapValues]; rfl

/-- The initialised machines are shown as the initialised nodes. -/
theorem shown_init :
    (D.shown.config D.peers (D.init : State limit Sync B)).Below D.toSetup.init where
  nodes := by
    funext p
    show (⟨_, _, peersOf ∅⟩ : Node B) = _
    rw [peersOf_empty]
    rfl
  pool := by
    have hnone : (D.peers.flatMap fun q => D.shown.inside q
        (D.initialMachine q : Machine limit Sync B)) = [] :=
      List.flatMap_eq_nil_iff.2 fun q _ => rfl
    show (D.peers.flatMap fun q => D.shown.inside q (D.initialMachine q)).Subperm []
    rw [hnone]
  log := List.Sublist.refl _

/-- **Refinement**: whatever happens to the machines and the packets, the machines' state, with
every queue, is at most the state after a run of the plain network, in which the users ask for
what has been taken from the queues of their commands. -/
theorem deployment_refines (hnd : D.peers.Nodup) {bs : List (Action Sync B)}
    {t : State limit Sync B} (run : D.Run bs t) :
    ∃ as s, D.toSetup.Run as s ∧ (D.shown.config D.peers t).Below s ∧
      ∀ p, requested p (Actors.acts as) ++ commandsOf (t.nodes p).behaviour = commanded p bs := by
  have hsim : ∃ as s, Trace D.toSetup.actors.step D.toSetup.init as s ∧
      (D.shown.config D.peers t).Below s ∧ Accounted bs t (Actors.acts as) := by
    refine Actors.Shown.simulation hnd shown_init ⟨fun p => init_inv p, fun p => rfl⟩ ?_ ?_
      (show Trace D.actors.step _ bs t from run)
    · intro bs t us i p c m r hI pending reaction
      obtain ⟨hp, hr⟩ := receive_matched (hI.inv p) reaction
      exact ⟨hp, hI.react hr fun q => by rw [ite_self]; rfl⟩
    · intro bs t us p c a r hI reaction
      obtain ⟨hp, hr⟩ := act_matched (c := c) (hI.inv p) reaction
      refine ⟨hp, hI.react hr fun q => ?_⟩
      simp only [commanded, List.flatMap_cons, List.flatMap_nil, List.append_nil, eq_comm]
  obtain ⟨as, s, run', h, accounted⟩ := hsim
  exact ⟨as, s, run', h, accounted.requests⟩

/-! ## A sample deployment -/

open InitializedDataMemory (samplePeer)

/-- The sample network with channels for two events; every transaction has the same hash. -/
def sample : Deployment := { Setup.sample with eventHash := fun _ _ => .fromArray fun _ => 0 }

def samplePoll : MachineAct Unit 4 := .poll ⟨0, 128, false, 0, default, false, false⟩

/-- A put at peer 0 up to the broadcast of its transaction. -/
def samplePut : List (Action Unit 4) :=
  (MachineAct.command (.event (.put ⟨0⟩ ⟨fun _ => 1⟩)) ::
    (List.replicate 5 samplePoll ++ [.dataMemory default, .sendDataMemory] ++
      List.replicate 13 samplePoll ++ [.consensus ⟨none, [], false⟩])).map
    (.act (samplePeer 0) false)

theorem deployment_refines_put : ∃ t : State 2 Unit 4,
    runAll sample.step sample.init samplePut = some t ∧ t.pool.length = 3 ∧
      ∃ as s, sample.toSetup.Run as s ∧ (sample.shown.config sample.peers t).Below s ∧
        ∀ p, requested p (Actors.acts as) ++ commandsOf (t.nodes p).behaviour =
          commanded p samplePut := by
  obtain ⟨t, run, hpool⟩ : ∃ t : State 2 Unit 4,
      runAll sample.step sample.init samplePut = some t ∧ t.pool.length = 3 := ⟨_, rfl, rfl⟩
  exact ⟨t, run, hpool, deployment_refines (by decide) (Trace.of_runAll run)⟩

end Deployment

end Swarm.Network
