import Swarm.InstructionStorage.Completion
import Swarm.Node.Pipeline

/-!
# Program identifiers

A program is identified by the hash of its instructions and the hash that comes
with its transaction. Occurrences of one list that come with one hash are one program
to the instruction memory, as when an event repeats a program: it is registered and
finished once. All others have identifiers and entries of their own.
-/

namespace Swarm.Node

open Swarm.Consensus Swarm.Processor Swarm.InstructionStorage

variable {G : Type} {B : Nat} {calculateHash : Instructions → Hash}

/-- The instruction lists that occur in the events. -/
def programsOf (es : List Event) : Set Instructions :=
  {l | ∃ e ∈ es, Transaction.execute l ∈ e.payload.transactions}

/-- The place of the first transaction of event number `a` in the stream. -/
def place (es : List Event) (a : Nat) : Nat :=
  ((es.take a).flatMap fun e => e.payload.transactions).length

/-- What the behaviour sends to the instruction memory for recognised transactions. -/
def instructionEvents (B : Nat) (calculateHash : Instructions → Hash) (ds : List NextTxData) :
    List InEvent :=
  ds.flatMap fun d => Pipeline.txEvents B calculateHash (.recognized, d)

/-! ## The stream -/

theorem length_yielded (hash : Hash) (e : Event) :
    (yielded hash e).length = e.payload.transactions.length := by
  unfold yielded
  cases e.payload.transactions <;> simp

theorem mem_of_yielded {hash h : Hash} {e : Event} {x : PeerId} {tx : Transaction}
    (hmem : (x, tx, h) ∈ yielded hash e) : tx ∈ e.payload.transactions := by
  unfold yielded at hmem
  cases htxs : e.payload.transactions with
  | nil => simp [htxs] at hmem
  | cons tx' txs =>
    simp only [htxs, List.mem_cons, List.mem_map, Prod.mk.injEq] at hmem ⊢
    rcases hmem with ⟨-, h, -⟩ | ⟨tx'', htx, -, h, -⟩
    · exact .inl h
    · exact .inr (h ▸ htx)

/-- The first transaction of an event comes with the event's hash. -/
theorem getElem?_place {hash : Hash} {es : List Event} {a : Nat} {e : Event} {tx : Transaction}
    (he : es[a]? = some e) (htx : e.payload.transactions.head? = some tx) :
    (es.flatMap (yielded hash))[place es a]? = some (e.author, tx, e.hash) := by
  obtain ⟨ha, he⟩ := List.getElem?_eq_some_iff.1 he
  have hsplit : es = es.take a ++ e :: es.drop (a + 1) := by
    rw [← he, ← List.drop_eq_getElem_cons ha, List.take_append_drop]
  have hplace : place es a = ((es.take a).flatMap (yielded hash)).length := by
    simp only [place, List.length_flatMap, length_yielded]
  obtain ⟨txs, htxs⟩ := List.head?_eq_some_iff.1 htx
  have hfirst : yielded hash e =
      (e.author, tx, e.hash) :: txs.map fun tx => (e.author, tx, hash) := by
    simp only [yielded, htxs]
  have hsum : es.flatMap (yielded hash) = (es.take a).flatMap (yielded hash) ++
      (yielded hash e ++ (es.drop (a + 1)).flatMap (yielded hash)) := by
    conv_lhs => rw [hsplit]
    rw [List.flatMap_append, List.flatMap_cons]
  rw [hplace, hsum, List.getElem?_append_right le_rfl, Nat.sub_self, hfirst]
  rfl

section Run

variable {g g' : GraphWrapper G} {polls : List Poll} {out : List (Stream × NextTxData)}
  (hg : g.Drained .recognized) (hrun : Turn.loop Poll.turn g polls = .next g' out)
include hg hrun

theorem mem_programsOf {x : PeerId} {l : Instructions} {h : Hash}
    (hmem : (x, .execute l, h) ∈ returned .recognized out) :
    l ∈ programsOf (arrived .recognized polls) := by
  obtain ⟨-, hsum⟩ := returned_run hg hrun
  obtain ⟨e, he, hy⟩ := List.mem_flatMap.1 (hsum ▸ List.mem_append_left _ hmem)
  exact ⟨e, he, mem_of_yielded hy⟩

/-- The first transaction of an event, once it is returned. -/
theorem returned_place {a : Nat} {e : Event} {tx : Transaction} {d : NextTxData}
    (he : (arrived .recognized polls)[a]? = some e)
    (htx : e.payload.transactions.head? = some tx)
    (hd : (returned .recognized out)[place (arrived .recognized polls) a]? = some d) :
    d = (e.author, tx, e.hash) := by
  obtain ⟨-, hsum⟩ := returned_run hg hrun
  have hplace : ((arrived .recognized polls).flatMap (yielded (g.buffer .recognized).hash))[place
      (arrived .recognized polls) a]? = _ := getElem?_place he htx
  have hlt := (List.getElem?_eq_some_iff.1 hd).1
  rw [← hsum, List.getElem?_append_left hlt, hd] at hplace
  exact Option.some.inj hplace

end Run

/-! ## The instruction memory -/

theorem finalized_mem_instructionEvents {ds : List NextTxData} {program : Program}
    (h : .finalizedProgram program ∈ instructionEvents B calculateHash ds) :
    ∃ x l hash, (x, .execute l, hash) ∈ ds ∧ program = .new calculateHash l hash := by
  obtain ⟨⟨x, tx, hash⟩, hd, he⟩ := List.mem_flatMap.1 h
  cases tx with
  | execute l =>
    have he' := List.mem_singleton.1 he
    cases he'
    exact ⟨x, l, hash, hd, rfl⟩
  | executed id =>
    have he' := List.mem_singleton.1 he
    cases he'
  | initializeStorage _ | storageRequest _ | stored _ _ => cases he

/-- A finalised program's id is registered, for a program with this id. -/
theorem registered_of_mem {is : List Input} {program : Program}
    (h : .finalizedProgram program ∈ is.map Prod.snd) : ∃ order program',
      registered program.identifier is = some (order, program') ∧
      program'.identifier = program.identifier ∧
      .finalizedProgram program' ∈ is.map Prod.snd := by
  obtain ⟨⟨order, e⟩, hi, rfl⟩ := List.mem_map.1 h
  have hsome : (registered program.identifier is).isSome :=
    List.findSome?_isSome_iff.2 ⟨_, hi, by simp [Input.registration]⟩
  obtain ⟨⟨order', program'⟩, hr⟩ := Option.isSome_iff_exists.1 hsome
  obtain ⟨⟨order'', e'⟩, hi', hreg⟩ := List.exists_of_findSome?_eq_some hr
  refine ⟨order', program', hr, ?_⟩
  cases e' with
  | executedProgram peer id => cases hreg
  | finalizedProgram q =>
    simp only [Input.registration] at hreg
    split at hreg
    · rename_i hid
      cases hreg
      exact ⟨hid, List.mem_map.2 ⟨_, hi', rfl⟩⟩
    · cases hreg

theorem identifier_eq_iff {programs : Set Instructions} (hinj : programs.InjOn calculateHash)
    {l l' : Instructions} (hl : l ∈ programs) (hl' : l' ∈ programs) {h h' : Hash} :
    (Program.new calculateHash l h).identifier = (Program.new calculateHash l' h').identifier ↔
      l = l' ∧ h = h' := by
  simp only [Program.new, ProgramIdentifier.mk.injEq, hinj.eq_iff hl hl']

/-- **What identifiers identify**: the list together with the hash that comes with it. So the first
transactions of different events always differ, and of the programs that reach the instruction
memory each has the entry of its own id, with its own results, and is announced as finished
once enough different peers have reported this id. -/
theorem identifiers_identify {g g' : GraphWrapper G} {polls : List Poll}
    {out : List (Stream × NextTxData)} (hg : g.Drained .recognized)
    (hrun : Turn.loop Poll.turn g polls = .next g' out)
    (hhashes : ((arrived .recognized polls).map Event.hash).Nodup)
    (hinj : (programsOf (arrived .recognized polls)).InjOn calculateHash) :
    (∀ (i j : Nat) x y l l' h h',
      (returned .recognized out)[i]? = some (x, Transaction.execute l, h) →
      (returned .recognized out)[j]? = some (y, Transaction.execute l', h') →
      ((Program.new calculateHash l h).identifier = (Program.new calculateHash l' h').identifier ↔
        l = l' ∧ h = h')) ∧
    (∀ (a b : Nat) e e' x y l l' h h', a ≠ b → (arrived .recognized polls)[a]? = some e →
      (arrived .recognized polls)[b]? = some e' →
      e.payload.transactions.head? = some (.execute l) →
      e'.payload.transactions.head? = some (.execute l') →
      (returned .recognized out)[place (arrived .recognized polls) a]? =
        some (x, Transaction.execute l, h) →
      (returned .recognized out)[place (arrived .recognized polls) b]? =
        some (y, Transaction.execute l', h') →
      (Program.new calculateHash l h).identifier ≠ (Program.new calculateHash l' h').identifier) ∧
    ∀ t, 1 ≤ t → ∀ is m outs,
      is.map Prod.snd <+: instructionEvents B calculateHash (returned .recognized out) →
      Turn.loop InstructionMemory.turn (.new t) is = .next m outs →
      ∀ program, .finalizedProgram program ∈ is.map Prod.snd →
        (∃ order, m.currentlyExecuted.lookup program.identifier =
          some (metadataOf t (reporters program.identifier is) (order, program))) ∧
        outs.filter (· = .finishedExecution program.identifier) =
          if t ≤ (reporters program.identifier is).card
            then [.finishedExecution program.identifier] else [] := by
  have hprogram : ∀ {x l h}, (x, .execute l, h) ∈ returned .recognized out →
      l ∈ programsOf (arrived .recognized polls) := mem_programsOf hg hrun
  refine ⟨fun i j x y l l' h h' hi hj => ?_, ?_, ?_⟩
  · exact identifier_eq_iff hinj (hprogram (List.mem_of_getElem? hi))
      (hprogram (List.mem_of_getElem? hj))
  · intro a b e e' x y l l' h h' hab he he' hl hl' ha hb
    rw [Ne, identifier_eq_iff hinj (hprogram (List.mem_of_getElem? ha))
      (hprogram (List.mem_of_getElem? hb))]
    rintro ⟨-, rfl⟩
    have hh : h = e.hash := by cases returned_place hg hrun he hl ha; rfl
    have hh' : h = e'.hash := by cases returned_place hg hrun he' hl' hb; rfl
    have hlt := (List.getElem?_eq_some_iff.1 he).1
    refine hab ((List.getElem?_inj (by simpa using hlt) hhashes).1 ?_)
    rw [List.getElem?_map, List.getElem?_map, he, he', Option.map_some, Option.map_some, ← hh, hh']
  · intro t ht is m outs hbefore hloop program hfinal
    obtain ⟨hm, rfl⟩ := loop_responses ht hloop
    constructor
    · obtain ⟨order, program', hr, hid, hfinal'⟩ := registered_of_mem hfinal
      obtain ⟨x, l, h, hd, rfl⟩ := finalized_mem_instructionEvents (hbefore.subset hfinal)
      obtain ⟨x', l', h', hd', rfl⟩ := finalized_mem_instructionEvents (hbefore.subset hfinal')
      obtain ⟨rfl, rfl⟩ := (identifier_eq_iff hinj (hprogram hd') (hprogram hd)).1 hid
      refine ⟨order, ?_⟩
      rw [hm.lookup, metadataAfter, hr, Option.map_some]
    · rw [finished_responses]
      have hpos : 0 < t := ht
      simp [Threshold.signal, Threshold.Reaches, reporters, hpos]

/-- The events come one by one and are asked for all their transactions. -/
def pollsOf (es : List Event) : List Poll :=
  es.flatMap fun e => .arrive .recognized e :: e.payload.transactions.map fun _ => .next .recognized

/-- A hash that tells lists of different lengths apart. -/
def lengthHash (l : Instructions) : Hash := ⟨fun _ => UInt8.ofNat l.length⟩

/-- The program of one instruction that comes with a hash. -/
def shortProgram (h : UInt8) : Program :=
  .new lengthHash (List.replicate 1 ⟨.inv ⟨⟨0⟩⟩, ⟨1⟩⟩) ⟨fun _ => h⟩

/-- One list in two events, another list, and a report about the first program. -/
def severalEvents : List Event :=
  [Pipeline.programEvent 1, { Pipeline.programEvent 1 with hash := ⟨fun _ => 4⟩ },
    Pipeline.programEvent 2, ⟨⟨[2]⟩, ⟨fun _ => 5⟩, ⟨[.executed (shortProgram 1).identifier]⟩⟩]

/-- What the instruction memory gets of them. -/
def severalInputs : List Input :=
  (instructionEvents 4 lengthHash (severalEvents.flatMap faithful)).map (default, ·)

theorem lengthHash_injOn :
    (programsOf (arrived .recognized (pollsOf severalEvents))).InjOn lengthHash := by
  have hlist : ∀ l ∈ programsOf (arrived .recognized (pollsOf severalEvents)),
      l ∈ severalEvents.flatMap Pipeline.executes := by
    rintro l ⟨e, he, hl⟩
    exact List.mem_flatMap.2 ⟨e, he, List.mem_filterMap.2 ⟨_, hl, rfl⟩⟩
  have hinj : ∀ l ∈ severalEvents.flatMap Pipeline.executes,
      ∀ l' ∈ severalEvents.flatMap Pipeline.executes, lengthHash l = lengthHash l' → l = l' := by
    decide +kernel
  exact fun l hl l' hl' => hinj l (hlist l hl) l' (hlist l' hl')

/-- The list of two events is two programs; the report is about one of them. -/
theorem identifiers_identify_sample : ∃ g' out m outs,
    Turn.loop Poll.turn sampleWrapper (pollsOf severalEvents) = .next g' out ∧
    Turn.loop InstructionMemory.turn (.new 1) severalInputs = .next m outs ∧
    (shortProgram 1).identifier ≠ (shortProgram 4).identifier ∧
    outs.filter (· = .finishedExecution (shortProgram 1).identifier) =
      [.finishedExecution (shortProgram 1).identifier] ∧
    outs.filter (· = .finishedExecution (shortProgram 4).identifier) = [] := by
  have hstream : Turn.loop Poll.turn sampleWrapper (pollsOf severalEvents) = .next _ _ := rfl
  have hrun : Turn.loop InstructionMemory.turn (.new 1) severalInputs = .next _ _ := rfl
  obtain ⟨-, hne, hfinished⟩ :=
    identifiers_identify (B := 4) ⟨rfl, rfl⟩ hstream (by decide +kernel) lengthHash_injOn
  refine ⟨_, _, _, _, hstream, hrun, ?_, ?_, ?_⟩
  · exact hne 0 1 _ _ ⟨[0]⟩ ⟨[0]⟩ _ _ _ _ (by decide) rfl rfl rfl rfl rfl rfl
  · exact (hfinished 1 le_rfl _ _ _ ⟨[], rfl⟩ hrun _ (List.mem_of_getElem? (i := 0) rfl)).2
  · exact (hfinished 1 le_rfl _ _ _ ⟨[], rfl⟩ hrun _ (List.mem_of_getElem? (i := 1) rfl)).2

/-- An event with one program twice, after a transaction of another kind. -/
def repeatingEvent : Event where
  author := ⟨[1]⟩
  hash := ⟨fun _ => 3⟩
  payload := ⟨.storageRequest ⟨0⟩ ::
    List.replicate 2 (.execute (List.replicate 1 ⟨.inv ⟨⟨0⟩⟩, ⟨1⟩⟩))⟩

/-- Whatever the hash function is, the two programs of one event share their identifier. -/
theorem repeated_program_shares_identifier : ∃ g' out x y l h h',
    Turn.loop Poll.turn sampleWrapper (pollsOf [repeatingEvent]) = .next g' out ∧
    ((arrived .recognized (pollsOf [repeatingEvent])).map Event.hash).Nodup ∧
    (returned .recognized out)[1]? = some (x, .execute l, h) ∧
    (returned .recognized out)[2]? = some (y, .execute l, h') ∧
    ∀ calculateHash : Instructions → Hash,
      (Program.new calculateHash l h).identifier = (Program.new calculateHash l h').identifier :=
  ⟨_, _, _, _, _, _, _, rfl, List.nodup_singleton _, rfl, rfl, fun _ => rfl⟩

end Swarm.Node
