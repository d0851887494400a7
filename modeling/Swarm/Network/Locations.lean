import Swarm.Network.Addressing

/-!
# Known locations

A node learns where a shard is from `Stored` transactions and from reports that
a program was executed. `locations_sound`: a known location is right, as long as
programs are started where their operands are stored.
-/

namespace Swarm.Network

open Swarm.DataMemory Swarm.Processor Swarm.Consensus Swarm.Encoding Swarm.Node
open Swarm.Behaviour (Request Response ProcessedRequests Send)
open Swarm.InstructionStorage (InstructionMemory ProgramMetadata)

variable {B : Nat}

namespace Setup

variable (S : Setup)

/-- Peer `q` holds its shard of `v`: stored, or queued for storing. Nothing is asked of a peer
without a shard. -/
def TileHolds (q : PeerId) (t : Tile B) (v : Vid) : Prop :=
  ∀ sid, S.Assigned q sid → (t.memory.getShard (v, sid)).isSome ∨ v ∈ t.writes.map Prod.fst

def Holds (s : State B) (q : PeerId) (v : Vid) : Prop := S.TileHolds q (s.nodes q).tile v

/-- The Vids of which a shard is stored. -/
def storedVids (m : InitializedDataMemory B) (v : Vid) : Option Unit :=
  (m.busRead default v).map fun _ => ()

/-- A program is started at a peer that holds each of its results already or stores what is
needed to compute it. Reports of executions come from peers with a shard. -/
def Grounded (s : State B) : Action B → Prop
  | .deliver i _ =>
    match s.pool[i]? with
    | some (q, .processorIn program) =>
      ∀ ins ∈ program.instructions, S.Holds s q ins.result ∨
        (presence (storedVids (s.nodes q).tile.memory) program.instructions ins.result).isSome
    | some (_, .memoryIn (.peerShardsActualized peer _)) => peer ∈ S.distribution
    | _ => True
  | .act _ _ _ => True

/-! ## What a tile keeps -/

section Tile

variable {S} {p : PeerId} {t t' : Tile B} {a : TileStep B} {out : List (TileOut B)} {v : Vid}

/-- What is stored stays stored. -/
theorem getShard_moves {f : FullShardId} (hmove : t.Moves S.add a t' out)
    (hf : (t.memory.getShard f).isSome) : (t'.memory.getShard f).isSome := by
  cases hmove with
  | handled running turn =>
    rw [InitializedDataMemory.getShard_handle turn]
    cases hs : t.memory.stores _ with
    | none => exact hf
    | some g =>
      dsimp only
      split
      · rfl
      · exact hf
  | applied running head =>
    cases ha : t.memory.assignedShardId with
    | none => simpa only [InitializedDataMemory.busWrite, ha] using hf
    | some sid =>
      change ((t.memory.busWrite _ _).getShard f).isSome
      rw [InitializedDataMemory.getShard_busWrite ha]
      split
      · rfl
      · exact hf
  | _ => exact hf

/-- What is held stays held. -/
theorem TileHolds.moves (hm : S.MemoryAddressed p t.memory) (h : S.TileHolds p t v)
    (hmove : t.Moves S.add a t' out) : S.TileHolds p t' v := by
  intro sid hsid
  rcases h sid hsid with hstored | hqueued
  · exact .inl (getShard_moves hmove hstored)
  · cases hmove with
    | pushed running writing =>
      refine .inr ?_
      rw [List.map_append]
      exact List.mem_append_left _ hqueued
    | @applied u x writes running head =>
      rw [head, List.map_cons, List.mem_cons] at hqueued
      rcases hqueued with rfl | hqueued
      · refine .inl ?_
        change ((t.memory.busWrite _ _).getShard _).isSome
        rw [InitializedDataMemory.getShard_busWrite (hm.assignedShardId.trans hsid), if_pos rfl]
        rfl
      · exact .inr hqueued
    | _ => exact .inr hqueued

end Tile

/-! ## Nodes and messages -/

variable (programs : Set Instructions) (K : PeerId → Vid → Prop)

/-- Peer `q` holds every result of the scheduled program with this identifier. -/
def Done (q : PeerId) (id : ProgramIdentifier) : Prop :=
  ∃ program ∈ programs, S.calculateHash program = id.hash ∧
    ∀ v ∈ program.map Instruction.result, K q v

/-- The program is a scheduled one, under its own hash. -/
def Known (program : Program) : Prop :=
  program.instructions ∈ programs ∧
    S.calculateHash program.instructions = program.identifier.hash

/-- `K q v` says that peer `q` holds its shard of `v`. -/
structure NodeSound (p : PeerId) (node : Node B) : Prop where
  running : node.tile.running = true
  located : ∀ f q, node.tile.memory.knownLocation f = some q → K q f.1
  affected : ∀ id metadata, node.instructionMemory.currentlyExecuted.lookup id = some metadata →
    ∃ program ∈ programs, S.calculateHash program = id.hash ∧
      ∀ v ∈ metadata.affectedDataIds, v ∈ program.map Instruction.result
  executing : ∀ id rest, node.tile.processor = .executing id rest →
    ∃ program ∈ programs, S.calculateHash program = id.hash ∧ ∃ H : Vid → Prop,
      (∀ v, H v → ∃ sid, (node.tile.memory.getShard (v, sid)).isSome) ∧
      rest.wp (Finds H) fun ws _ =>
        ∀ v ∈ program.map Instruction.result, K p v ∨ v ∈ ws.map Prod.fst

def MessageSound (p : PeerId) : Message B → Prop
  | .memoryIn (.storeConfirmed f q) => K q f.1
  | .memoryIn (.peerShardsActualized q ids) => ∀ v ∈ ids, K q v
  | .memoryOut (.assignedStoreSuccess f) => K p f.1
  | .instructionIn (.finalizedProgram program) => S.Known programs program
  | .instructionIn (.executedProgram q id) => S.Done programs K q id
  | .instructionOut (.nextProgram program) => S.Known programs program
  | .instructionOut (.peerShardsActualized _ q ids) => ∀ v ∈ ids, K q v
  | .processorIn program => S.Known programs program
  | .processorOut id _ => S.Done programs K p id
  | .recognized q (.stored v _) _ => K q v
  | .recognized q (.executed id) _ => S.Done programs K q id
  | .recognized _ (.execute program) _ => program ∈ programs
  | _ => True

abbrev Sound (s : State B) : Prop :=
  s.Everywhere (S.NodeSound programs K) (S.MessageSound programs K) fun _ _ => True

variable {S programs K} {K' : PeerId → Vid → Prop} {p : PeerId} {c : Choice} {node : Node B}

theorem Done.mono (hK : ∀ q v, K q v → K' q v) {q : PeerId} {id : ProgramIdentifier}
    (h : S.Done programs K q id) : S.Done programs K' q id := by
  obtain ⟨program, hp, hh, hv⟩ := h
  exact ⟨program, hp, hh, fun v hm => hK q v (hv v hm)⟩

theorem NodeSound.mono (hK : ∀ q v, K q v → K' q v) (h : S.NodeSound programs K p node) :
    S.NodeSound programs K' p node where
  running := h.running
  located f q hq := hK q _ (h.located f q hq)
  affected := h.affected
  executing id rest hr := by
    obtain ⟨program, hp, hh, H, hH, hwp⟩ := h.executing id rest hr
    exact ⟨program, hp, hh, H, hH, Bus.wp_mono hwp (fun _ _ h => h) fun ws _ hq v hv =>
      (hq v hv).imp_left (hK p v)⟩

theorem MessageSound.mono (hK : ∀ q v, K q v → K' q v) {m : Message B}
    (h : S.MessageSound programs K p m) : S.MessageSound programs K' p m := by
  cases m with
  | memoryIn e =>
    cases e with
    | storeConfirmed f q => exact hK q _ h
    | peerShardsActualized q ids => exact fun v hv => hK q v (h v hv)
    | _ => trivial
  | memoryOut e =>
    cases e with
    | assignedStoreSuccess f => exact hK p _ h
    | _ => trivial
  | instructionIn e =>
    cases e with
    | finalizedProgram program => exact h
    | executedProgram q id => exact Done.mono hK h
  | instructionOut e =>
    cases e with
    | nextProgram program => exact h
    | finishedExecution id => trivial
    | peerShardsActualized id q ids => exact fun v hv => hK q v (h v hv)
  | processorIn program => exact h
  | processorOut id results => exact Done.mono hK h
  | recognized q tx eventHash =>
    cases tx with
    | stored v s => exact hK q v h
    | executed id => exact Done.mono hK h
    | execute program => exact h
    | _ => trivial
  | _ => trivial

/-! ## Reactions -/

/-- A location that an event teaches is right. -/
theorem learns_sound {m : InitializedDataMemory B} {e : DataMemory.InEvent B} {f : FullShardId}
    {q : PeerId} (hm : S.MessageSound programs K p (.memoryIn e)) (hl : m.learns f e = some q) :
    K q f.1 := by
  cases e with
  | storeConfirmed g location =>
    simp only [InitializedDataMemory.learns] at hl
    split at hl
    · rename_i hg
      cases hl
      exact hg ▸ hm
    · cases hl
  | peerShardsActualized peer ids =>
    simp only [InitializedDataMemory.learns] at hl
    split at hl
    · rename_i hp
      cases hl
      exact hm _ hp.1
    · cases hl
  | _ => cases hl

/-- An announced shard is stored. -/
theorem announced_sound {t : Tile B} {order : HashOrder} {e : DataMemory.InEvent B}
    {m : InitializedDataMemory B} {out : List (DataMemory.OutEvent B)}
    (hn : S.MemoryAddressed p t.memory) (ha : S.MessageAddressed p (.memoryIn e))
    (turn : t.memory.handle order e = .next m out) {f : FullShardId}
    (hf : .assignedStoreSuccess f ∈ out) : S.TileHolds p { t with memory := m } f.1 := by
  obtain ⟨x, hx⟩ := InitializedDataMemory.handle_emits turn _ hf
  intro sid hsid
  have hassigned : S.Assigned p f.2 := hn.stores ha hx
  obtain rfl : f.2 = sid := Option.some.inj (hassigned.symm.trans hsid)
  refine .inl ?_
  change (m.getShard f).isSome
  rw [InitializedDataMemory.getShard_handle turn, hx]
  simp

/-- An execution leaves no result unwritten that is neither stored nor known to be. -/
theorem execute_covers {memory : InitializedDataMemory B} (hn : S.MemoryAddressed p memory)
    (hK : ∀ v, (∀ sid, S.Assigned p sid → (memory.getShard (v, sid)).isSome) → K p v)
    {program : Instructions}
    (hcover : ∀ v ∈ program.map Instruction.result,
      K p v ∨ (presence (storedVids memory) program v).isSome)
    (fetchOrder saveOrder : KeyOrder Vid) :
    (ShardProcessor.execute S.add fetchOrder saveOrder program :
      MemoryBus B (List (Except Processor.Error Vid))).wp
      (Finds fun v => (memory.busRead default v).isSome) fun ws _ =>
        ∀ v ∈ program.map Instruction.result, K p v ∨ v ∈ ws.map Prod.fst := by
  refine Bus.wp_mono (execute_coverage fetchOrder saveOrder program) (fun _ _ h => h)
    fun ws results hq v hv => ?_
  rcases hcover v hv with hk | hpresent
  · exact .inl hk
  · have hM : storedVids memory = fun v =>
        if (memory.busRead default v).isSome then some () else none := by
      funext u
      unfold storedVids
      cases memory.busRead default u <;> rfl
    rw [hM] at hpresent
    refine (hq.2 v hpresent).imp_left fun hstored => hK v fun sid hsid => ?_
    obtain ⟨sid', hsid'⟩ := InitializedDataMemory.busRead_isSome.1 hstored
    have : sid' = sid := Option.some.inj ((hn.stored _ hsid').symm.trans hsid)
    exact this ▸ hsid'

/-- A step of the tile of node `p` to `t`. -/
theorem NodeSound.tile {t : Tile B} {a : TileStep B} {out : List (TileOut B)}
    (hn : S.NodeAddressed p node) (h : S.NodeSound programs K p node)
    (hK : ∀ v, S.TileHolds p t v → K p v)
    (hhandle : ∀ order e, a = .handle order e → S.MessageAddressed p (.memoryIn e) ∧
      S.MessageSound programs K p (.memoryIn e) ∧ (node.tile.memory.handle order e).Continues)
    (hstart : ∀ f g program, a = .start f g program → S.Known programs program ∧
      ∀ v ∈ program.instructions.map Instruction.result, K p v ∨
        (presence (storedVids node.tile.memory) program.instructions v).isSome)
    (hmove : node.tile.Moves S.add a t out) :
    Actors.Keeps (S.NodeSound programs K) (S.MessageSound programs K) (fun _ _ => True) p
      ⟨{ node with tile := t }, out.map (emit p), out.map emitted⟩ := by
  have hstay : ∀ {H : Vid → Prop},
      (∀ v, H v → ∃ sid, (node.tile.memory.getShard (v, sid)).isSome) →
      ∀ v, H v → ∃ sid, (t.memory.getShard (v, sid)).isSome := fun hH v hv => by
    obtain ⟨sid, hsid⟩ := hH v hv
    exact ⟨sid, getShard_moves hmove hsid⟩
  cases hmove with
  | @handled order e m out running turn =>
    obtain ⟨ha, hm, -⟩ := hhandle _ _ rfl
    refine keeps_tile ⟨h.running, fun f q hq => ?_, h.affected, fun id rest hr => ?_⟩
      (fun o ho => ⟨?_, trivial⟩) (by simp)
    · change m.knownLocation f = some q at hq
      rw [InitializedDataMemory.knownLocation_handle turn] at hq
      cases hl : node.tile.memory.learns f e with
      | none =>
        rw [hl, Option.none_or] at hq
        exact h.located f q hq
      | some q' =>
        rw [hl, Option.some_or] at hq
        cases hq
        exact learns_sound hm hl
    · obtain ⟨program, hp, hh, H, hH, hwp⟩ := h.executing id rest hr
      exact ⟨program, hp, hh, H, hstay hH, hwp⟩
    · obtain ⟨o', ho', he⟩ := List.mem_map.1 ho
      cases he
      cases o with
      | assignedStoreSuccess f => exact hK f.1 (announced_sound hn.memory ha turn ho')
      | _ => trivial
  | ended running turn => exact absurd (hhandle _ _ rfl).2.2 turn
  | @started fetchOrder saveOrder program rest ready code =>
    obtain ⟨⟨hp, hh⟩, hcover⟩ := hstart _ _ _ rfl
    refine keeps_tile ⟨h.running, h.located, h.affected, fun id rest' hr => ?_⟩ (by simp) (by simp)
    cases hr
    refine ⟨program.instructions, hp, hh,
      fun v => (node.tile.memory.busRead default v).isSome,
      fun v hv => InitializedDataMemory.busRead_isSome.1 hv, ?_⟩
    rw [code]
    exact execute_covers hn.memory (fun v hv => hK v fun sid hsid => .inl (hv sid hsid)) hcover
      fetchOrder saveOrder
  | @answered order id v next running reading =>
    refine keeps_tile ⟨h.running, h.located, h.affected, fun id' rest' hr => ?_⟩ (by simp) (by simp)
    cases hr
    obtain ⟨program, hp, hh, H, hH, hwp⟩ := h.executing _ _ reading
    exact ⟨program, hp, hh, H, hH,
      hwp _ fun hv => InitializedDataMemory.busRead_isSome.2 (hH v hv)⟩
  | @pushed id v x next running writing =>
    refine keeps_tile ⟨h.running, h.located, h.affected, fun id' rest' hr => ?_⟩ (by simp) (by simp)
    cases hr
    obtain ⟨program, hp, hh, H, hH, hwp⟩ := h.executing _ _ writing
    refine ⟨program, hp, hh, H, hH, Bus.wp_mono hwp (fun _ _ h => h) fun ws _ hq u hu => ?_⟩
    rcases hq u hu with hk | hmem
    · exact .inl hk
    · rcases List.mem_cons.1 hmem with rfl | hmem
      · exact .inl (hK u fun sid _ => .inr (by simp))
      · exact .inr hmem
  | applied running head =>
    refine keeps_tile ⟨h.running, fun f q hq => h.located f q ?_, h.affected, fun id rest hr => ?_⟩
      (by simp) (by simp)
    · rwa [InitializedDataMemory.knownLocation_busWrite] at hq
    · obtain ⟨program, hp, hh, H, hH, hwp⟩ := h.executing id rest hr
      exact ⟨program, hp, hh, H, hstay hH, hwp⟩
  | @finished id results done =>
    refine keeps_tile ⟨h.running, h.located, h.affected, fun id' rest' hr => by cases hr⟩ (by simp)
      fun id' results' hout => ⟨?_, trivial⟩
    cases List.mem_singleton.1 hout
    obtain ⟨program, hp, hh, H, hH, hwp⟩ := h.executing _ _ done
    exact ⟨program, hp, hh, fun v hv => (hwp v hv).resolve_right (by simp)⟩
  | readRefused ended reading => rw [h.running] at ended; cases ended
  | pushRefused ended writing => rw [h.running] at ended; cases ended

theorem NodeSound.behave {x : ProcessedRequests × List (Send B)}
    (h : S.NodeSound programs K p node)
    (hsend : ∀ a ∈ x.2, ∀ q m, (q, m) ∈ S.dispatch p c a → S.MessageSound programs K q m) :
    Actors.Keeps (S.NodeSound programs K) (S.MessageSound programs K) (fun _ _ => True) p
      (S.behave p c node x) :=
  keeps_behave ⟨h.running, h.located, h.affected, h.executing⟩ hsend fun _ => trivial

theorem NodeSound.instructionIn (inj : programs.InjOn S.calculateHash)
    {e : InstructionStorage.InEvent} (h : S.NodeSound programs K p node)
    (hm : S.MessageSound programs K p (.instructionIn e : Message B)) :
    Actors.Keeps (S.NodeSound programs K) (S.MessageSound programs K) (fun _ _ => True) p
      (instructionStep p c node e) := by
  have haffected : ∀ id metadata,
      (node.instructionMemory.handle c.vids e).1.currentlyExecuted.lookup id = some metadata →
      ∃ program ∈ programs, S.calculateHash program = id.hash ∧
        ∀ v ∈ metadata.affectedDataIds, v ∈ program.map Instruction.result := by
    intro id metadata hl
    rcases InstructionMemory.affected_handle hl with ⟨old, hold, he⟩ | ⟨program, rfl, rfl, he⟩
    · rw [he]
      exact h.affected id old hold
    · refine ⟨program.instructions, hm.1, hm.2, fun v hv => ?_⟩
      rw [he, ProgramMetadata.computeAffectedDataIds, KeyOrder.mem, List.mem_toFinset] at hv
      exact hv
  refine ⟨⟨h.running, h.located, haffected, h.executing⟩, fun q m hqm => ?_, fun _ _ => trivial⟩
  obtain ⟨o, ho, he⟩ := List.mem_map.1 hqm
  cases he
  have hemit := InstructionMemory.handle_emits e o ho
  cases o with
  | nextProgram program => cases hemit; exact hm
  | finishedExecution id => trivial
  | peerShardsActualized id q ids =>
    obtain ⟨rfl, metadata, hl, rfl⟩ := hemit
    obtain ⟨program, hp, hh, hv⟩ := hm
    obtain ⟨program', hp', hh', hv'⟩ := haffected id metadata hl
    obtain rfl := inj hp' hp (hh'.trans hh.symm)
    exact fun v hmem => hv v (hv' v hmem)

/-- The reaction to a message, at a node whose tile it leaves with `K`. -/
theorem NodeSound.receive (inj : programs.InjOn S.calculateHash) {m : Message B}
    {r : NodeReaction B} (hn : S.NodeAddressed p node) (ha : S.MessageAddressed p m)
    (h : S.NodeSound programs K p node) (hm : S.MessageSound programs K p m)
    (hK : ∀ v, S.TileHolds p r.node.tile v → K p v)
    (hhandle : ∀ e, m = .memoryIn e → (node.tile.memory.handle c.order e).Continues)
    (hstart : ∀ program, m = .processorIn program →
      ∀ v ∈ program.instructions.map Instruction.result, K p v ∨
        (presence (storedVids node.tile.memory) program.instructions v).isSome)
    (hr : S.receive p c node m = some r) :
    Actors.Keeps (S.NodeSound programs K) (S.MessageSound programs K) (fun _ _ => True) p r := by
  cases receive_reacts hr with
  | @handled e t out moves =>
    exact h.tile hn hK (fun _ _ he => by cases he; exact ⟨ha, hm, hhandle e rfl⟩)
      (fun _ _ _ he => by cases he) moves
  | @started program t out moves =>
    exact h.tile hn hK (fun _ _ he => by cases he)
      (fun _ _ _ he => by cases he; exact ⟨hm, hstart program rfl⟩) moves
  | instructed => exact h.instructionIn inj hm
  | passed notMemory sent waits =>
    refine h.behave fun a ha q m' hqm => ?_
    cases sent a ha q m' hqm with
    | stored | program | actualized | executed | storedTx | executedTx => exact hm
    | executeTx => exact ⟨hm, rfl⟩
    | _ => trivial

theorem NodeSound.act {a : Act B} {r : NodeReaction B} (hn : S.NodeAddressed p node)
    (h : S.NodeSound programs K p node) (hK : ∀ v, S.TileHolds p r.node.tile v → K p v)
    (hsched : ∀ program, a = .user (.scheduleProgram program) → program ∈ programs)
    (hr : S.act p c node a = some r) :
    Actors.Keeps (S.NodeSound programs K) (S.MessageSound programs K) (fun _ _ => True) p r := by
  unfold Setup.act at hr
  split at hr
  · cases a with
    | user e =>
      cases hr
      refine h.behave fun a ha q m hqm => ?_
      cases asks_of_mem ha hqm with
      | scheduleProgram _ => exact hsched _ rfl
      | _ => trivial
    | _ =>
      obtain ⟨t, out, hmove, rfl⟩ := tileStep_moves hr
      exact h.tile hn hK (fun _ _ he => by cases he) (fun _ _ _ he => by cases he) hmove
  · cases hr

/-! ## Runs -/

theorem holds_step {s s' : State B} {a : Action B} (ha : S.Addressed s)
    (hs : S.step s a = some s') {q : PeerId} {v : Vid} (h : S.Holds s q v) : S.Holds s' q v := by
  unfold Holds
  rcases step_tile hs q with he | ⟨_, _, hmove⟩
  · rw [he]
    exact h
  · exact TileHolds.moves (ha.nodes q).memory h hmove

/-- **One step** keeps the locations right, if it is grounded. -/
theorem Sound.step {s s' : State B} {a : Action B} (hw : InitializedDataMemory.Works S.encoding) (hB : 0 < B)
    (inj : programs.InjOn S.calculateHash) (ha : S.Addressed s)
    (h : S.Sound programs (S.Holds s) s) (hg : S.Grounded s a)
    (hsched : ∀ p c program, a = .act p c (.user (.scheduleProgram program)) → program ∈ programs)
    (hs : S.step s a = some s') : S.Sound programs (S.Holds s') s' := by
  have hmono : ∀ q v, S.Holds s q v → S.Holds s' q v := fun q v => holds_step ha hs
  have h' : S.Sound programs (S.Holds s') s :=
    Actors.Config.Everywhere.mono h (fun _ _ => NodeSound.mono hmono)
      (fun _ _ => MessageSound.mono hmono) fun _ _ => id
  refine Actors.Config.Everywhere.step h' ?_ ?_ hs
  · rintro i p c m r rfl hi hr hnode
    have hpool := List.mem_of_getElem? hi
    refine (h'.nodes p).receive inj (ha.nodes p) (ha.pool p m hpool) (h'.pool p m hpool) ?_ ?_ ?_ hr
    · intro v hv
      rw [Holds, hnode]
      exact hv
    · rintro e rfl
      have hmem := (ha.nodes p).memory
      refine (InitializedDataMemory.turn_continues_iff (hmem.encoding ▸ hw) hB
        (.event c.order e)).2 ?_
      cases e with
      | peerShardsActualized peer ids =>
        simp only [Grounded, hi] at hg
        rw [hmem.distribution]
        exact hg
      | _ => trivial
    · rintro program rfl v hv
      obtain ⟨ins, hins, rfl⟩ := List.mem_map.1 hv
      simp only [Grounded, hi] at hg
      exact (hg ins hins).imp_left (hmono p _)
  · rintro p c b r rfl hr hnode
    refine (h'.nodes p).act (ha.nodes p) ?_ ?_ hr
    · intro v hv
      rw [Holds, hnode]
      exact hv
    · rintro program rfl
      exact hsched p c program rfl

theorem sound_init : S.Sound programs (S.Holds (S.init : State B)) (S.init : State B) where
  nodes p :=
    ⟨rfl, fun f q h => (by cases h), fun id metadata h => (by cases h), fun id rest h => (by cases h)⟩
  pool _ _ h := by cases h
  log _ _ _ := trivial

/-- **Location soundness**: in every run whose steps are all grounded, a known location of a
shard is the peer it is assigned to, and that peer stores it or has it in its write queue. -/
theorem locations_sound {S : Setup}
    {C : MdsCode UInt8 dataShardsCount S.encoding.inner.totalShardCount}
    (hw : S.encoding.inner.Implements C) (hB : 0 < B) {as : List (Action B)} {s : State B}
    (inj : (scheduled as).InjOn S.calculateHash) (run : S.Run as s)
    (grounded : Along S.step S.Grounded S.init as) {r q : PeerId} {v : Vid} {sid : Sid}
    (known : (s.nodes r).tile.memory.knownLocation (v, sid) = some q) :
    S.Assigned q sid ∧ (((s.nodes q).tile.memory.getShard (v, sid)).isSome ∨
      v ∈ (s.nodes q).tile.writes.map Prod.fst) := by
  have hinv : ∀ programs : Set Instructions, programs.InjOn S.calculateHash →
      scheduled as ⊆ programs → S.Addressed s ∧ S.Sound programs (S.Holds s) s := by
    intro programs inj hsub
    refine Trace.invariant_along (I := fun as s => scheduled as ⊆ programs →
      S.Addressed s ∧ S.Sound programs (S.Holds s) s) (fun _ => ⟨addressed_init, sound_init⟩) ?_
      run grounded hsub
    intro as s a t ih hg hs hsub
    obtain ⟨ha, hsound⟩ := ih fun program ⟨p, c, hmem⟩ =>
      hsub ⟨p, c, List.mem_append_left _ hmem⟩
    refine ⟨ha.step hs, hsound.step ⟨C, hw⟩ hB inj ha hg ?_ hs⟩
    rintro p c program rfl
    exact hsub ⟨p, c, by simp⟩
  obtain ⟨ha, hsound⟩ := hinv (scheduled as) inj subset_rfl
  have hassigned := (ha.nodes r).memory.located _ _ known
  exact ⟨hassigned, (hsound.nodes r).located _ _ known sid hassigned⟩

open InitializedDataMemory (samplePeer)

/-- A step that is grounded because programs find their operands. -/
def startable (S : Setup) (s : State B) : Action B → Bool
  | .deliver i _ =>
    match s.pool[i]? with
    | some (q, .processorIn program) => program.instructions.all fun ins =>
        (presence (storedVids (s.nodes q).tile.memory) program.instructions ins.result).isSome
    | some (_, .memoryIn (.peerShardsActualized peer _)) => decide (peer ∈ S.distribution)
    | _ => true
  | .act _ _ _ => true

theorem Grounded.of_startable {s : State B} {a : Action B} (h : S.startable s a = true) :
    S.Grounded s a := by
  cases a with
  | act p c b => trivial
  | deliver i c =>
    unfold startable at h
    unfold Grounded
    dsimp only at h ⊢
    split
    · rename_i q program hi
      rw [hi] at h
      exact fun ins hins => .inr (List.all_eq_true.1 h ins hins)
    · rename_i q peer ids hi
      rw [hi] at h
      exact of_decide_eq_true h
    · trivial

/-- Peer `i` executes a program with one operand and one result. -/
def computeSteps (i : UInt8) : List (Action 4) :=
  [.read default, .push, .push, .applyWrite, .applyWrite, .finish].map (.act (samplePeer i) default)

/-- Peer 0 puts address 0 and schedules a program that doubles it into address 1; every peer
executes the program, and all reports are handled. -/
def doublingSteps : List (Action 4) :=
  sampleUser 0 (.put ⟨0⟩ ⟨fun _ => 1⟩) :: List.replicate 47 (sampleDeliver 0) ++
    sampleUser 0 (.scheduleProgram [⟨.plus ⟨⟨0⟩, ⟨0⟩⟩, ⟨1⟩⟩]) :: List.replicate 12 (sampleDeliver 0) ++
    computeSteps 0 ++ computeSteps 1 ++ computeSteps 2 ++ List.replicate 42 (sampleDeliver 0)

/-- Peer 1 has learnt from the report of peer 0 where its shard of the result is. -/
theorem locations_sound_doubling :
    ∃ s, runAll sample.step sample.init doublingSteps = some s ∧
      (s.nodes (samplePeer 1)).tile.memory.knownLocation (⟨1⟩, ⟨0⟩) = some (samplePeer 0) ∧
      sample.Assigned (samplePeer 0) ⟨0⟩ ∧
      (((s.nodes (samplePeer 0)).tile.memory.getShard (⟨1⟩, ⟨0⟩)).isSome ∨
        ⟨1⟩ ∈ (s.nodes (samplePeer 0)).tile.writes.map Prod.fst) := by
  have grounded : Along sample.step sample.Grounded sample.init doublingSteps :=
    Along.mono (P := fun s a => sample.startable s a = true) (fun _ _ => Grounded.of_startable)
      (by decide +kernel)
  have inj : (scheduled doublingSteps).InjOn sample.calculateHash := by
    have hone : ∀ program ∈ scheduled doublingSteps,
        program = [⟨.plus ⟨⟨0⟩, ⟨0⟩⟩, ⟨1⟩⟩] := by
      rintro program ⟨p, c, hmem⟩
      have hact : p = samplePeer 0 ∧ c = default ∧ program = [⟨.plus ⟨⟨0⟩, ⟨0⟩⟩, ⟨1⟩⟩] := by
        simpa [doublingSteps, computeSteps, sampleUser, sampleDeliver] using hmem
      exact hact.2.2
    intro program hprogram other hother _
    rw [hone program hprogram, hone other hother]
  obtain ⟨s, run, known⟩ : ∃ s ∈ runAll sample.step sample.init doublingSteps,
      (s.nodes (samplePeer 1)).tile.memory.knownLocation (⟨1⟩, ⟨0⟩) = some (samplePeer 0) := by
    decide +kernel
  exact ⟨s, run, known, locations_sound OneParity.coder_implements (by decide) inj
    (Trace.of_runAll run) grounded known⟩

/-- Peer 0 executes a program on addresses that nobody stored, and learns of its own report. -/
def absentSteps : List (Action 4) :=
  [sampleUser 0 (.scheduleProgram [⟨.plus ⟨⟨0⟩, ⟨1⟩⟩, ⟨2⟩⟩]), sampleDeliver 0, sampleDeliver 2,
    sampleDeliver 2, sampleDeliver 2] ++
  List.replicate 4 (.act (samplePeer 0) default (.read default)) ++
  [.act (samplePeer 0) default .finish, sampleDeliver 2, sampleDeliver 2, sampleDeliver 4,
    sampleDeliver 4, sampleDeliver 4]

/-- The program computes nothing, and peer 0 is located as the keeper of its result. -/
theorem absent_result_is_located :
    ∃ s, sample.Run absentSteps s ∧
      (s.nodes (samplePeer 0)).tile.memory.knownLocation (⟨2⟩, ⟨0⟩) = some (samplePeer 0) ∧
      (s.nodes (samplePeer 0)).tile.memory.getShard (⟨2⟩, ⟨0⟩) = none ∧
      (s.nodes (samplePeer 0)).tile.writes = [] :=
  ⟨_, Trace.of_runAll rfl, by decide +kernel, by decide +kernel, rfl⟩

end Setup

end Swarm.Network
