import Swarm.Behaviour.Handlers
import Swarm.Consensus.Feed
import Swarm.Lib.Dag

/-!
# From recognised events to started programs

The transactions of the recognised events go one by one through the queues of
consensus, the instruction memory and the processor; the behaviour polls the
instruction memory only while the processor accepts input. No queue overflows.
`commander_programs_agree`: if one peer is the author of all programs, any two
nodes start them in one order, whatever orders they recognise the events in.
-/

namespace Swarm.Node

open Swarm.Consensus Swarm.Processor Swarm.InstructionStorage
open Swarm.Behaviour (Send)

variable {G : Type}

/-- Whether the processor accepts input. -/
inductive ModuleState where
  | ready
  | executing
  deriving DecidableEq

/-- A node's way of a program, with the queues between the modules, oldest entry first. -/
structure Pipeline (G : Type) where
  consensus : GraphWrapper G
  consensusOutput : List (Stream × NextTxData)
  instructionInput : List InstructionStorage.InEvent
  instructionMemory : InstructionMemory
  instructionOutput : List InstructionStorage.OutEvent
  processorInput : List Program
  processor : ModuleState
  /-- The instruction lists the processor has started to execute, oldest first. -/
  started : List Instructions

inductive PipelineStep where
  /-- The graph has one more event to yield. -/
  | arrive (k : Stream) (e : Event)
  /-- Consensus puts out the next transaction. -/
  | pollNext
  /-- The behaviour takes a transaction from consensus. -/
  | handleTx
  /-- The instruction memory takes an event. -/
  | instructions (order : KeyOrder Vid)
  /-- The behaviour takes an event of the instruction memory. -/
  | handleInstructions
  /-- The processor takes a program. -/
  | start
  /-- The processor is done with a program. -/
  | finish

namespace Pipeline

/-- The node starts with no events and no programs; the peers are random ones. -/
def new (core : G) (peer peer' : PeerId) (executionConfirmationsThreshold : Nat) : Pipeline G where
  consensus := .fromGraph ⟨core, [], []⟩ peer peer'
  consensusOutput := []
  instructionInput := []
  instructionMemory := .new executionConfirmationsThreshold
  instructionOutput := []
  processorInput := []
  processor := .ready
  started := []

/-- What of the behaviour's sends goes to the instruction memory. -/
def toInstructionMemory {B : Nat} : Send B → Option InstructionStorage.InEvent
  | .instructionMemory e => some e
  | _ => none

def toProcessor {B : Nat} : Send B → Option Program
  | .processor program => some program
  | _ => none

/-- The behaviour on a transaction from consensus; finalised ones are only logged. -/
def txEvents (B : Nat) (calculateHash : Instructions → Hash) :
    Stream × NextTxData → List InstructionStorage.InEvent
  | (.recognized, (author, tx, eventHash)) =>
    (Behaviour.handleTx (B := B) calculateHash author eventHash tx).filterMap toInstructionMemory
  | (.finalized, _) => []

def step (B : Nat) (calculateHash : Instructions → Hash) (s : Pipeline G) :
    PipelineStep → Option (Pipeline G)
  | .arrive k e => some { s with consensus := s.consensus.arrive k e }
  | .pollNext =>
    match s.consensus.pollNext with
    | (some tx, g) => some { s with consensus := g, consensusOutput := s.consensusOutput ++ [tx] }
    | (none, g) => some { s with consensus := g }
  | .handleTx =>
    match s.consensusOutput with
    | [] => none
    | tx :: rest => some { s with
        consensusOutput := rest
        instructionInput := s.instructionInput ++ txEvents B calculateHash tx }
  | .instructions order =>
    match s.instructionInput with
    | [] => none
    | e :: rest =>
      let r := s.instructionMemory.handle order e
      some { s with
        instructionInput := rest
        instructionMemory := r.1
        instructionOutput := s.instructionOutput ++ r.2 }
  | .handleInstructions =>
    match s.processor, s.instructionOutput with
    | .ready, e :: rest => some { s with
        instructionOutput := rest
        processorInput := s.processorInput ++
          (Behaviour.handleInstructionMemory (B := B) e).filterMap toProcessor }
    | _, _ => none
  | .start =>
    match s.processor, s.processorInput with
    | .ready, program :: rest => some { s with
        processorInput := rest
        processor := .executing
        started := s.started ++ [program.instructions] }
    | _, _ => none
  | .finish =>
    match s.processor with
    | .executing => some { s with processor := .ready }
    | .ready => none

/-! ## The programs on their way -/

/-- The program that a transaction schedules. -/
def executed : Transaction → Option Instructions
  | .execute instructions => some instructions
  | _ => none

/-- The programs of an event, in payload order. -/
abbrev executes (e : Event) : List Instructions := taken executed e

def ofInput : InstructionStorage.InEvent → Option Instructions
  | .finalizedProgram program => some program.instructions
  | .executedProgram _ _ => none

def ofInstructionOutput : InstructionStorage.OutEvent → Option Instructions
  | .nextProgram program => some program.instructions
  | _ => none

/-- The started programs and those on their way, in order. -/
def flow (s : Pipeline G) : List Instructions :=
  s.started ++ s.processorInput.map Program.instructions ++
    s.instructionOutput.filterMap ofInstructionOutput ++ s.instructionInput.filterMap ofInput ++
    s.consensusOutput.filterMap (ofOutput executed) ++ upcoming executed s.consensus

/-- The events that the node has recognised. -/
def recognized (as : List PipelineStep) : List Event :=
  as.filterMap fun
    | .arrive .recognized e => some e
    | _ => none

/-! ## The other modules -/

theorem ofInput_txEvents (B : Nat) (calculateHash : Instructions → Hash)
    (p : Stream × NextTxData) :
    (txEvents B calculateHash p).filterMap ofInput = (ofOutput executed p).toList := by
  obtain ⟨k, author, tx, eventHash⟩ := p
  cases k with
  | finalized => rfl
  | recognized => cases tx <;> rfl

/-- A program is passed on whether it is known or not; a report brings no program. -/
theorem ofInstructionOutput_handle (order : KeyOrder Vid) (m : InstructionMemory)
    (e : InstructionStorage.InEvent) :
    (m.handle order e).2.filterMap ofInstructionOutput = (ofInput e).toList := by
  cases e with
  | finalizedProgram program => rfl
  | executedProgram peer programId =>
    rw [show (ofInput (.executedProgram peer programId)).toList = [] from rfl,
      List.filterMap_eq_nil_iff]
    intro o ho
    have hemit := InstructionMemory.handle_emits _ o ho
    cases o with
    | nextProgram program => cases hemit
    | _ => rfl

theorem ofProcessor_handle (B : Nat) (e : InstructionStorage.OutEvent) :
    ((Behaviour.handleInstructionMemory (B := B) e).filterMap toProcessor).map
      Program.instructions = (ofInstructionOutput e).toList := by
  cases e <;> rfl

/-! ## Runs -/

variable {B : Nat} {calculateHash : Instructions → Hash} {s s' : Pipeline G}

/-- **One step** moves the programs on and keeps their order; new ones come in at the end. -/
theorem flow_step {a : PipelineStep} (h : s.step B calculateHash a = some s') :
    s'.flow = s.flow ++ (recognized [a]).flatMap executes := by
  cases a with
  | arrive k e =>
    cases h
    unfold flow
    rw [upcoming_arrive, ← List.append_assoc]
    cases k <;> rfl
  | pollNext =>
    have hpoll := upcoming_pollNext executed s.consensus
    simp only [step] at h
    split at h
    · rename_i tx g hg
      cases h
      rw [hg] at hpoll
      unfold flow
      rw [← hpoll, List.filterMap_append]
      simp [recognized, List.append_assoc]
    · rename_i g hg
      cases h
      rw [hg] at hpoll
      unfold flow
      rw [← hpoll]
      simp [recognized]
  | handleTx =>
    simp only [step] at h
    split at h
    · cases h
    · rename_i tx rest hout
      cases h
      unfold flow
      rw [hout, List.filterMap_append, ofInput_txEvents, List.filterMap_cons]
      cases ofOutput executed tx <;> simp [recognized, List.append_assoc]
  | instructions order =>
    simp only [step] at h
    split at h
    · cases h
    · rename_i e rest hin
      cases h
      unfold flow
      rw [hin, List.filterMap_append, ofInstructionOutput_handle, List.filterMap_cons]
      cases ofInput e <;> simp [recognized, List.append_assoc]
  | handleInstructions =>
    simp only [step] at h
    split at h
    · rename_i e rest _ hout
      cases h
      unfold flow
      rw [hout, List.map_append, ofProcessor_handle, List.filterMap_cons]
      cases ofInstructionOutput e <;> simp [recognized, List.append_assoc]
    · cases h
  | start =>
    simp only [step] at h
    split at h
    · rename_i program rest _ hin
      cases h
      unfold flow
      rw [hin]
      simp [recognized, List.append_assoc]
    · cases h
  | finish =>
    simp only [step] at h
    split at h <;> cases h
    simp [flow, recognized]

/-- What was started and what is on its way are the programs of the recognised events, in
order. -/
theorem flow_run {core : G} {peer peer' : PeerId} {threshold : Nat} {as : List PipelineStep}
    (run : Trace (step B calculateHash) (new core peer peer' threshold) as s) :
    s.flow = (recognized as).flatMap executes := by
  refine Trace.invariant (I := fun as s => s.flow = (recognized as).flatMap executes) rfl ?_ run
  intro as s a s' ih hs
  have hrec : recognized (as ++ [a]) = recognized as ++ recognized [a] := List.filterMap_append ..
  rw [flow_step hs, ih, hrec, List.flatMap_append]

theorem started_prefix {core : G} {peer peer' : PeerId} {threshold : Nat}
    {as : List PipelineStep}
    (run : Trace (step B calculateHash) (new core peer peer' threshold) as s) :
    s.started <+: (recognized as).flatMap executes := by
  rw [← flow_run run]
  unfold flow
  simp only [List.append_assoc]
  exact List.prefix_append _ _

/-- **Agreement on programs**: if all programs are of one author, whose events form a chain, any
two nodes that recognise events after their ancestors have started, at any moment, beginnings of
one sequence of programs: those of the author's events, in chain order and payload order. -/
theorem commander_programs_agree {D : Dag Event} {commander : PeerId}
    (single : ∀ e ∈ D.nodes, executes e ≠ [] → e.author = commander)
    (chain : D.IsChain fun e => e.author = commander)
    {core core' : G} {p₁ p₂ p₃ p₄ : PeerId} {threshold threshold' : Nat}
    {as as' : List PipelineStep}
    (run : Trace (step B calculateHash) (new core p₁ p₂ threshold) as s)
    (run' : Trace (step B calculateHash) (new core' p₃ p₄ threshold') as' s')
    (ordered : D.Lists (recognized as)) (ordered' : D.Lists (recognized as')) :
    ∃ es, D.Beginning (fun e => e.author = commander) es ∧
      s.started <+: es.flatMap executes ∧ s'.started <+: es.flatMap executes := by
  have hstarted := started_prefix run
  have hstarted' := started_prefix run'
  rw [taken_filter executed (p := fun e => e.author = commander)
    fun e he => single e (ordered.nodes e he)] at hstarted
  rw [taken_filter executed (p := fun e => e.author = commander)
    fun e he => single e (ordered'.nodes e he)] at hstarted'
  have hb := ordered.beginning chain
  have hb' := ordered'.beginning chain
  have hmono : ∀ {cs ds : List Event}, cs <+: ds → cs.flatMap executes <+: ds.flatMap executes := by
    rintro cs _ ⟨r, rfl⟩
    rw [List.flatMap_append]
    exact List.prefix_append _ _
  rcases hb.comparable chain hb' with h | h
  · exact ⟨_, hb', hstarted.trans (hmono h), hstarted'⟩
  · exact ⟨_, hb, hstarted, hstarted'.trans (hmono h)⟩

/-- The `i`-th event of peer 0, with a program of `i` instructions. -/
def programEvent (i : UInt8) : Event where
  author := ⟨[0]⟩
  hash := ⟨fun _ => i⟩
  payload := ⟨[.execute (List.replicate i.toNat ⟨.inv ⟨⟨0⟩⟩, ⟨1⟩⟩)]⟩

/-- Two events of peer 0. -/
def twoEvents : Dag Event where
  nodes := {programEvent 1, programEvent 2}
  ancestor a b := a = programEvent 1 ∧ b = programEvent 2
  irrefl := by
    rintro e ⟨rfl, h⟩
    exact absurd h (by decide)
  trans := by
    rintro a b c ⟨rfl, rfl⟩ ⟨h, rfl⟩
    exact absurd h (by decide)

theorem twoEvents_lists : twoEvents.Lists [programEvent 1, programEvent 2] where
  nodup := by decide
  nodes e he := by
    have hnodes : e = programEvent 1 ∨ e = programEvent 2 := by simpa using he
    exact hnodes
  ancestors l e r hl a _ := by
    rintro ⟨rfl, rfl⟩
    rcases l with _ | ⟨x, l⟩
    · exact absurd (List.cons.inj hl).1 (by decide)
    · rw [(List.cons.inj hl).1]
      exact List.mem_cons_self

/-- A program from the graph to the processor. -/
def passSteps : List PipelineStep :=
  [.pollNext, .handleTx, .instructions default, .handleInstructions, .start]

theorem commander_programs_agree_two :
    ∃ (s s' : Pipeline Unit) (es : List Event),
      s.started = [executes (programEvent 1)].flatten ∧
      s'.started = [executes (programEvent 1), executes (programEvent 2)].flatten ∧
      s.started <+: es.flatMap executes ∧ s'.started <+: es.flatMap executes := by
  let run : Trace (step 4 fun _ => ⟨fun _ => 0⟩) (new () ⟨[0]⟩ ⟨[0]⟩ 2)
    (.arrive .recognized (programEvent 1) :: passSteps) _ := Trace.of_runAll rfl
  let run' : Trace (step 4 fun _ => ⟨fun _ => 0⟩) (new () ⟨[1]⟩ ⟨[1]⟩ 2)
    (.arrive .recognized (programEvent 1) :: .arrive .recognized (programEvent 2) ::
      (passSteps ++ .finish :: passSteps)) _ := Trace.of_runAll rfl
  have h := commander_programs_agree (D := twoEvents)
    (by rintro e (rfl | rfl) _ <;> rfl)
    (by
      rintro a (rfl | rfl) b (rfl | rfl) - -
      · exact .inl rfl
      · exact .inr (.inl ⟨rfl, rfl⟩)
      · exact .inr (.inr ⟨rfl, rfl⟩)
      · exact .inl rfl)
    run run' (Dag.Lists.left (r := [programEvent 2]) twoEvents_lists) twoEvents_lists
  obtain ⟨es, -, h₁, h₂⟩ := h
  exact ⟨_, _, es, rfl, rfl, h₁, h₂⟩

end Pipeline

end Swarm.Node
