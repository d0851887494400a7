import Swarm.Lib.Machine
import Swarm.Lib.Threshold
import Swarm.InstructionStorage.Memory

/-!
# Completion tracking over whole runs

What the instruction memory says is determined by the inputs it has had: the
program first registered under an id, and the peers that reported the id since.
-/

namespace Swarm.InstructionStorage

open Swarm.Processor Threshold

abbrev Input := KeyOrder Vid × InEvent

/-- One pass of `InstructionMemory::run`. -/
def InstructionMemory.turn (m : InstructionMemory) (i : Input) :
    Turn InstructionMemory OutEvent :=
  .next (m.handle i.1 i.2).1 (m.handle i.1 i.2).2

theorem InstructionMemory.loop_turn (m : InstructionMemory) (is : List Input) :
    ∃ m' out, Turn.loop InstructionMemory.turn m is = .next m' out := by
  induction is generalizing m with
  | nil => exact ⟨m, [], rfl⟩
  | cons i is ih =>
    obtain ⟨m', out, h⟩ := ih (m.handle i.1 i.2).1
    exact ⟨m', _, Turn.loop_cons_next.2 ⟨_, _, out, rfl, h, rfl⟩⟩

/-! ## What the inputs say -/

def Input.program : Input → Option Program
  | (_, .finalizedProgram program) => some program
  | (_, .executedProgram _ _) => none

def Input.report (id : ProgramIdentifier) : Input → Option PeerId
  | (_, .executedProgram peer programId) => if programId = id then some peer else none
  | (_, .finalizedProgram _) => none

/-- The program the input registers under an id, with the iteration order of that moment. -/
def Input.registration (id : ProgramIdentifier) : Input → Option (KeyOrder Vid × Program)
  | (order, .finalizedProgram program) =>
    if program.identifier = id then some (order, program) else none
  | (_, .executedProgram _ _) => none

/-- The program first registered under an id. -/
def registered (id : ProgramIdentifier) (before : List Input) : Option (KeyOrder Vid × Program) :=
  before.findSome? (Input.registration id)

/-- The peers that reported an id since its first registration. -/
def reporters (id : ProgramIdentifier) : List Input → Finset PeerId
  | [] => ∅
  | i :: is =>
    if (i.registration id).isSome then (is.filterMap (Input.report id)).toFinset
    else reporters id is

/-- What an input is answered with, after the inputs `before`. -/
def response (t : Nat) (before : List Input) : Input → List OutEvent
  | (_, .finalizedProgram program) => [.nextProgram program]
  | (_, .executedProgram peer id) =>
    match registered id before with
    | none => []
    | some (order, program) =>
      signal (.finishedExecution id) t (reporters id before).card
          (insert peer (reporters id before)).card ++
        [.peerShardsActualized id peer
          (ProgramMetadata.computeAffectedDataIds order program.instructions)]

/-- The answers to a list of inputs, after the inputs `before`. -/
def responses (t : Nat) (before : List Input) : List Input → List OutEvent
  | [] => []
  | i :: is => response t before i ++ responses t (before ++ [i]) is

theorem responses_append {t : Nat} {before is js : List Input} :
    responses t before (is ++ js) = responses t before is ++ responses t (before ++ is) js := by
  induction is generalizing before with
  | nil => simp [responses]
  | cons i is ih => simp [responses, ih]

section History

variable {id : ProgramIdentifier} {before : List Input}

@[simp] theorem registered_nil : registered id [] = none := rfl

@[simp] theorem registered_cons {i : Input} {is : List Input} :
    registered id (i :: is) = (i.registration id).or (registered id is) := by
  unfold registered
  rw [List.findSome?_cons]
  cases i.registration id <;> rfl

theorem registered_append {is : List Input} :
    registered id (before ++ is) = (registered id before).or (registered id is) :=
  List.findSome?_append

theorem reporters_append {is : List Input} :
    reporters id (before ++ is) =
      if (registered id before).isSome then
        reporters id before ∪ (is.filterMap (Input.report id)).toFinset
      else reporters id is := by
  induction before with
  | nil => simp
  | cons i before ih =>
    cases hi : i.registration id with
    | some r => simp [reporters, hi, List.toFinset_append]
    | none => simpa [reporters, hi] using ih

theorem reporters_of_unregistered (h : registered id before = none) : reporters id before = ∅ := by
  have hnil : reporters id (before ++ []) = _ := reporters_append
  simpa [h, reporters] using hnil

theorem reporters_subset {is : List Input} (h : (registered id before).isSome) :
    reporters id before ⊆ reporters id (before ++ is) := by
  rw [reporters_append, if_pos h]
  exact Finset.subset_union_left

/-- A report about a registered id adds its peer. -/
theorem reporters_report {order : KeyOrder Vid} {peer : PeerId} {programId : ProgramIdentifier} :
    reporters id (before ++ [(order, .executedProgram peer programId)]) =
      if (registered id before).isSome ∧ programId = id then insert peer (reporters id before)
      else reporters id before := by
  rw [reporters_append]
  cases hr : registered id before with
  | none => simp [reporters, Input.registration, reporters_of_unregistered hr]
  | some r =>
    by_cases hid : programId = id
    · simp [hid, Input.report, Finset.union_comm]
    · simp [hid, Input.report]

theorem reporters_finalized {order : KeyOrder Vid} {program : Program} :
    reporters id (before ++ [(order, .finalizedProgram program)]) = reporters id before := by
  rw [reporters_append]
  cases hr : registered id before with
  | none => simp [reporters, reporters_of_unregistered hr]
  | some r => simp [List.filterMap_cons, Input.report]

end History

/-! ## The memory after a history -/

/-- What is kept for a program that `reported` have reported. -/
def metadataOf (t : Nat) (reported : Finset PeerId) (r : KeyOrder Vid × Program) :
    ProgramMetadata where
  state := if t ≤ reported.card then .finished else .executing reported
  affectedDataIds := ProgramMetadata.computeAffectedDataIds r.1 r.2.instructions

def metadataAfter (t : Nat) (before : List Input) (id : ProgramIdentifier) :
    Option ProgramMetadata :=
  (registered id before).map (metadataOf t (reporters id before))

/-- Once the threshold is reached the reporters are not kept. -/
theorem metadataOf_of_reached {t : Nat} {reported reported' : Finset PeerId}
    {r : KeyOrder Vid × Program} (h : t ≤ reported.card) (h' : t ≤ reported'.card) :
    metadataOf t reported r = metadataOf t reported' r := by
  simp only [metadataOf, if_pos h, if_pos h']

/-- The memory has exactly what a history of inputs says. -/
structure Tracks (t : Nat) (before : List Input) (m : InstructionMemory) : Prop where
  threshold : m.acceptThreshold = t
  lookup : ∀ id, m.currentlyExecuted.lookup id = metadataAfter t before id

namespace Tracks

variable {t : Nat} {before : List Input} {m : InstructionMemory}

theorem new (t : Nat) : Tracks t [] (.new t) := ⟨rfl, fun _ => rfl⟩

theorem metadataAfter_finalized (order : KeyOrder Vid) (program : Program)
    (id : ProgramIdentifier) :
    metadataAfter t (before ++ [(order, .finalizedProgram program)]) id =
      if registered id before = none ∧ program.identifier = id then
        some (metadataOf t ∅ (order, program))
      else metadataAfter t before id := by
  unfold metadataAfter
  rw [registered_append, reporters_finalized]
  cases hr : registered id before with
  | none =>
    by_cases hid : program.identifier = id <;>
      simp [Input.registration, hid, reporters_of_unregistered hr]
  | some r => simp

theorem finalized (h : Tracks t before m) (ht : 1 ≤ t) (order : KeyOrder Vid)
    (program : Program) :
    Tracks t (before ++ [(order, .finalizedProgram program)])
      (m.notifyFinalized order program.identifier program.instructions) := by
  have hmem : program.identifier ∈ m.currentlyExecuted ↔
      registered program.identifier before ≠ none := by
    rw [← Finmap.lookup_isSome, h.lookup, metadataAfter, Option.isSome_map,
      Option.isSome_iff_ne_none]
  unfold InstructionMemory.notifyFinalized
  refine ⟨by split <;> exact h.threshold, fun id => ?_⟩
  rw [metadataAfter_finalized]
  split
  · rename_i hknown
    have hold : ¬ (registered id before = none ∧ program.identifier = id) := by
      rintro ⟨hr, rfl⟩
      exact hmem.1 hknown hr
    rw [if_neg hold, h.lookup]
  · rename_i hunknown
    have hreg : registered program.identifier before = none := by
      by_contra hr
      exact hunknown (hmem.2 hr)
    rw [Finmap.lookup_insert_ite]
    by_cases hid : id = program.identifier
    · subst hid
      simp [hreg, metadataOf, ProgramMetadata.newStartedExecuting, Nat.not_le.2 ht]
    · rw [if_neg hid, if_neg fun hnew => hid hnew.2.symm, h.lookup]

theorem metadataAfter_report (order : KeyOrder Vid) (peer : PeerId)
    (programId id : ProgramIdentifier) :
    metadataAfter t (before ++ [(order, .executedProgram peer programId)]) id =
      if programId = id then
        (registered id before).map (metadataOf t (insert peer (reporters id before)))
      else metadataAfter t before id := by
  unfold metadataAfter
  rw [registered_append, reporters_report]
  cases registered id before with
  | none => simp [Input.registration]
  | some r => by_cases hid : programId = id <;> simp [Input.registration, hid]

/-- A report about an id that is not registered produces nothing and changes nothing. -/
theorem unregistered (h : Tracks t before m) {order : KeyOrder Vid} {peer : PeerId}
    {id : ProgramIdentifier} (hid : registered id before = none) :
    m.handle order (.executedProgram peer id) = (m, []) := by
  have hl : m.currentlyExecuted.lookup id = none := by rw [h.lookup, metadataAfter, hid]; rfl
  have hn : m.notifyExecuted peer id = (false, m) := by
    simp only [InstructionMemory.notifyExecuted, hl]
  simp [InstructionMemory.handle, hn, hl]

/-- The notification of a report about a registered id. -/
theorem notifyExecuted (h : Tracks t before m) {id : ProgramIdentifier}
    {r : KeyOrder Vid × Program} (hid : registered id before = some r) (order : KeyOrder Vid)
    (peer : PeerId) :
    (m.notifyExecuted peer id).1 =
        decide (Reaches t (reporters id before).card (insert peer (reporters id before)).card) ∧
      Tracks t (before ++ [(order, .executedProgram peer id)]) (m.notifyExecuted peer id).2 := by
  have hl := h.lookup id
  rw [metadataAfter, hid, Option.map_some] at hl
  have hgrow : (reporters id before).card ≤ (insert peer (reporters id before)).card :=
    Finset.card_le_card (Finset.subset_insert _ _)
  by_cases ht : t ≤ (reporters id before).card
  · have hn : m.notifyExecuted peer id = (false, m) := by
      simp only [InstructionMemory.notifyExecuted, hl, metadataOf, if_pos ht]
    rw [hn]
    refine ⟨by simp [Reaches, Nat.not_lt.2 ht], h.threshold, fun id' => ?_⟩
    rw [h.lookup, metadataAfter_report]
    split
    · rename_i hid'
      subst hid'
      rw [metadataAfter, hid, Option.map_some, Option.map_some,
        metadataOf_of_reached ht (ht.trans hgrow)]
    · rfl
  · have hn : m.notifyExecuted peer id =
        (decide (t ≤ (insert peer (reporters id before)).card), { m with
          currentlyExecuted := m.currentlyExecuted.insert id
            (metadataOf t (insert peer (reporters id before)) r) }) := by
      simp only [InstructionMemory.notifyExecuted, hl, metadataOf, if_neg ht, h.threshold,
        decide_eq_true_eq]
    rw [hn]
    refine ⟨by simp [Reaches, Nat.lt_of_not_le ht], h.threshold, fun id' => ?_⟩
    rw [Finmap.lookup_insert_ite, metadataAfter_report]
    by_cases hne : id = id'
    · subst hne
      rw [if_pos rfl, if_pos rfl, hid, Option.map_some]
    · rw [if_neg (Ne.symm hne), if_neg hne, h.lookup]

/-- The memory that has exactly what a history says answers the next input as specified, and
then has what the longer history says. -/
theorem handle (h : Tracks t before m) (ht : 1 ≤ t) (i : Input) :
    Tracks t (before ++ [i]) (m.handle i.1 i.2).1 ∧ (m.handle i.1 i.2).2 = response t before i := by
  obtain ⟨order, e⟩ := i
  cases e with
  | finalizedProgram program => exact ⟨h.finalized ht order program, rfl⟩
  | executedProgram peer id =>
    cases hid : registered id before with
    | none =>
      rw [h.unregistered hid]
      refine ⟨⟨h.threshold, fun id' => ?_⟩, by simp [response, hid]⟩
      rw [h.lookup, metadataAfter_report]
      split
      · rename_i hne
        subst hne
        rw [metadataAfter, hid, Option.map_none, Option.map_none]
      · rfl
    | some r =>
      obtain ⟨hdone, htracks⟩ := h.notifyExecuted hid order peer
      have hl := htracks.lookup id
      rw [metadataAfter_report, if_pos rfl, hid, Option.map_some] at hl
      simp only [InstructionMemory.handle, hl, hdone]
      refine ⟨htracks, ?_⟩
      simp only [response, hid, signal, metadataOf, decide_eq_true_eq]

end Tracks

/-- **The answers of a whole run** are those its inputs ask for. -/
theorem loop_responses {t : Nat} (ht : 1 ≤ t) {is : List Input} {m : InstructionMemory}
    {out : List OutEvent}
    (h : Turn.loop InstructionMemory.turn (.new t) is = .next m out) :
    Tracks t is m ∧ out = responses t [] is := by
  refine Turn.loop_invariant (I := fun js os m => Tracks t js m ∧ os = responses t [] js)
    ⟨.new t, rfl⟩ ?_ h
  rintro js os m i m' o ⟨hm, rfl⟩ hturn
  obtain ⟨hm', ho⟩ := hm.handle ht i
  cases hturn
  refine ⟨hm', ?_⟩
  rw [responses_append, ho]
  simp [responses]

/-! ## The answers -/

def OutEvent.program : OutEvent → Option Program
  | .nextProgram program => some program
  | _ => none

section Answers

variable {t : Nat} {before : List Input} {id : ProgramIdentifier}

theorem card_reporters_le (is : List Input) :
    (reporters id before).card ≤ (reporters id (before ++ is)).card := by
  cases hr : registered id before with
  | none => simp [reporters_of_unregistered hr]
  | some r => exact Finset.card_le_card (reporters_subset (by simp [hr]))

theorem programs_responses {is : List Input} :
    (responses t before is).filterMap OutEvent.program = is.filterMap Input.program := by
  induction is generalizing before with
  | nil => rfl
  | cons i is ih =>
    rw [responses, List.filterMap_append, ih]
    obtain ⟨order, e⟩ := i
    cases e with
    | finalizedProgram program => rfl
    | executedProgram peer programId =>
      have hnone : (response t before (order, .executedProgram peer programId)).filterMap
          OutEvent.program = [] := by
        simp only [response]
        split
        · rfl
        · simp [signal, OutEvent.program, apply_ite (List.filterMap OutEvent.program)]
      rw [hnone]
      rfl

theorem finished_response (i : Input) :
    (response t before i).filter (· = .finishedExecution id) =
      signal (.finishedExecution id) t (reporters id before).card
        (reporters id (before ++ [i])).card := by
  obtain ⟨order, e⟩ := i
  cases e with
  | finalizedProgram program => simp [response, reporters_finalized]
  | executedProgram peer programId =>
    rw [reporters_report]
    simp only [response]
    cases hr : registered programId before with
    | none =>
      by_cases hid : programId = id
      · subst hid; simp [hr]
      · simp [hid]
    | some r =>
      by_cases hid : programId = id
      · subst hid
        simp [hr, signal, apply_ite (List.filter _)]
      · simp [hid, signal, apply_ite (List.filter _)]

/-- The completions announced for an id: at most one, when its reporters reach the threshold. -/
theorem finished_responses {is : List Input} :
    (responses t before is).filter (· = .finishedExecution id) =
      signal (.finishedExecution id) t (reporters id before).card
        (reporters id (before ++ is)).card := by
  induction is generalizing before with
  | nil => simp [responses]
  | cons i is ih =>
    rw [responses, List.filter_append, finished_response, ih,
      signal_append (card_reporters_le _) (card_reporters_le _), List.append_assoc,
      List.singleton_append]

theorem mem_computeAffectedDataIds {order : KeyOrder Vid} {instructions : Instructions} {v : Vid} :
    v ∈ ProgramMetadata.computeAffectedDataIds order instructions ↔
      ∃ ins ∈ instructions, ins.result = v := by
  simp [ProgramMetadata.computeAffectedDataIds]

end Answers

/-- **Completion tracking is exact**: a run answers each input with `response`, which gives one
program for each finalised one, in order; announces each id once, with the report that
brings its distinct reporters since the first registration to the threshold; names the
reporting peer and the results of the program first registered; and neither answers nor
heeds a report about an unregistered id. -/
theorem completion_exact {t : Nat} (ht : 1 ≤ t) (is : List Input) :
    (∃ m, Turn.loop InstructionMemory.turn (.new t) is = .next m (responses t [] is)) ∧
    (responses t [] is).filterMap OutEvent.program = is.filterMap Input.program ∧
    (∀ id, (responses t [] is).filter (· = .finishedExecution id) =
      if t ≤ (reporters id is).card then [.finishedExecution id] else []) ∧
    (∀ id order program, registered id is = some (order, program) →
      (ProgramMetadata.computeAffectedDataIds order program.instructions).Nodup ∧
      ∀ v, v ∈ ProgramMetadata.computeAffectedDataIds order program.instructions ↔
        ∃ ins ∈ program.instructions, ins.result = v) ∧
    ∀ js i ks, is = js ++ i :: ks → ∃ m,
      Turn.loop InstructionMemory.turn (.new t) js = .next m (responses t [] js) ∧
      (m.handle i.1 i.2).2 = response t js i ∧
      ∀ peer id, i.2 = .executedProgram peer id → registered id js = none →
        m.handle i.1 i.2 = (m, []) := by
  have hrun : ∀ js, ∃ m,
      Turn.loop InstructionMemory.turn (.new t) js = .next m (responses t [] js) ∧
        Tracks t js m := by
    intro js
    obtain ⟨m, out, h⟩ := InstructionMemory.loop_turn (.new t) js
    obtain ⟨hm, rfl⟩ := loop_responses ht h
    exact ⟨m, h, hm⟩
  refine ⟨?_, programs_responses, fun id => ?_, fun id order program _ => ?_, ?_⟩
  · obtain ⟨m, h, -⟩ := hrun is
    exact ⟨m, h⟩
  · rw [finished_responses]
    have hpos : 0 < t := ht
    simp [signal, Reaches, reporters, hpos]
  · exact ⟨order.nodup _, fun v => mem_computeAffectedDataIds⟩
  · rintro js i ks -
    obtain ⟨m, h, hm⟩ := hrun js
    refine ⟨m, h, (hm.handle ht i).2, fun peer id he hid => ?_⟩
    rw [he]
    exact hm.unregistered hid

def sampleProgram : Program :=
  .new (fun _ => default) [⟨.inv ⟨⟨0⟩⟩, ⟨1⟩⟩, ⟨.plus ⟨⟨0⟩, ⟨1⟩⟩, ⟨1⟩⟩] default

/-- An early report, a registration, a repeated report, the report that completes the program,
a second registration and a late report. -/
def sampleInputs : List Input :=
  [.executedProgram ⟨[1]⟩ sampleProgram.identifier, .finalizedProgram sampleProgram,
    .executedProgram ⟨[1]⟩ sampleProgram.identifier,
    .executedProgram ⟨[1]⟩ sampleProgram.identifier,
    .executedProgram ⟨[2]⟩ sampleProgram.identifier, .finalizedProgram sampleProgram,
    .executedProgram ⟨[3]⟩ sampleProgram.identifier].map (default, ·)

theorem sampleInputs_complete : ∃ m,
    Turn.loop InstructionMemory.turn (.new 2) sampleInputs = .next m
      [.nextProgram sampleProgram,
        .peerShardsActualized sampleProgram.identifier ⟨[1]⟩ [⟨1⟩],
        .peerShardsActualized sampleProgram.identifier ⟨[1]⟩ [⟨1⟩],
        .finishedExecution sampleProgram.identifier,
        .peerShardsActualized sampleProgram.identifier ⟨[2]⟩ [⟨1⟩],
        .nextProgram sampleProgram,
        .peerShardsActualized sampleProgram.identifier ⟨[3]⟩ [⟨1⟩]] := by
  obtain ⟨⟨m, h⟩, -⟩ := completion_exact (t := 2) (by decide) sampleInputs
  refine ⟨m, h.trans (congrArg (Turn.next m) ?_)⟩
  decide +kernel

end Swarm.InstructionStorage
