import Swarm.Lib.Bus
import Swarm.Processor.Instruction

/-!
# The shard processor

`ShardProcessor` runs a program on the shards of one peer. Its only access to
them is the memory bus, so `execute` is a `Bus` program: it prefetches every
argument, executes the instructions on a context map, reading operands the
context lacks, and at the end writes the whole context back. Both loops over
hash collections take the iteration order as an argument.

`execute_spec`: on a bus that answers the arguments from a memory `M`, the
write-back turns `M` into the meaning `naive` of the program on `M`.
-/

namespace Swarm.Processor

variable {B : Nat}

inductive Error where
  | dataRequestChannelClosed
  | dataWriteChannelClosed
  | responseChannelClosed
  | noShardsAssigned
  deriving DecidableEq

/-- A computation of the processor, suspended at an exchange on the memory bus. -/
abbrev MemoryBus (B : Nat) := Bus Vid (Shard B) Error

namespace ShardProcessor

/-- `ShardProcessor::calculate`; `add` is `galois_8::add`. -/
def calculate (add : UInt8 → UInt8 → UInt8) : Operation (Shard B) → Shard B
  | .sub o => ⟨mapZip o.first.bytes o.second.bytes add⟩
  | .plus o => ⟨mapZip o.first.bytes o.second.bytes add⟩
  | .inv o => ⟨fun i => o.operand.bytes i⟩
  | .nand o => ⟨mapZip o.first.bytes o.second.bytes fun a b => (!(a != 0 && b != 0)).toUInt8⟩
  | .nor o => ⟨mapZip o.first.bytes o.second.bytes fun a b => (!(a != 0 || b != 0)).toUInt8⟩

def retrieveOperand (operand : Vid) (operandContext : Option (Shard B)) :
    MemoryBus B (Except Error (Option (Shard B))) :=
  match operandContext with
  | some o => pure (.ok (some o))
  | none => Bus.ask operand

def retrieveBinary (binary : BinaryOp Vid) (context : HashMap Vid (Shard B)) :
    MemoryBus B (Except Error (Option (BinaryOp (Shard B)))) :=
  match context.lookup binary.first, context.lookup binary.second with
  | some first, some second => pure (.ok (some ⟨first, second⟩))
  | some first, none =>
    (retrieveOperand binary.second none).bindOk fun
      | some second => pure (.ok (some ⟨first, second⟩))
      | none => pure (.ok none)
  | none, some second =>
    (retrieveOperand binary.first none).bindOk fun
      | some first => pure (.ok (some ⟨first, second⟩))
      | none => pure (.ok none)
  | none, none => do
    -- `join!` sends both requests before it looks at an answer
    let first ← retrieveOperand binary.first none
    let second ← retrieveOperand binary.second none
    match first, second with
    | .error e, _ => pure (.error e)
    | .ok _, .error e => pure (.error e)
    | .ok (some first), .ok (some second) => pure (.ok (some ⟨first, second⟩))
    | .ok _, .ok _ => pure (.ok none)

def retrieveUnary (unary : UnaryOp Vid) (context : HashMap Vid (Shard B)) :
    MemoryBus B (Except Error (Option (UnaryOp (Shard B)))) :=
  (retrieveOperand unary.operand (context.lookup unary.operand)).bindOk fun
    | some operand => pure (.ok (some ⟨operand⟩))
    | none => pure (.ok none)

/-- `.await?.ok_or(Error::NoShardsAssigned)?` under an operation's constructor. -/
def okOrNoShards {α : Type} (make : α → Operation (Shard B))
    (p : MemoryBus B (Except Error (Option α))) : MemoryBus B (Except Error (Operation (Shard B))) :=
  p.bindOk fun
    | some a => pure (.ok (make a))
    | none => pure (.error .noShardsAssigned)

def retrieveOperands (op : Operation Vid) (context : HashMap Vid (Shard B)) :
    MemoryBus B (Except Error (Operation (Shard B))) :=
  match op with
  | .sub binary => okOrNoShards .sub (retrieveBinary binary context)
  | .plus binary => okOrNoShards .plus (retrieveBinary binary context)
  | .inv unary => okOrNoShards .inv (retrieveUnary unary context)
  | .nand binary => okOrNoShards .nand (retrieveBinary binary context)
  | .nor binary => okOrNoShards .nor (retrieveBinary binary context)

/-- The loop of `prepare_context`, over the remaining ids. -/
def prefetch (context : HashMap Vid (Shard B)) : List Vid → MemoryBus B (HashMap Vid (Shard B))
  | [] => pure context
  | id :: ids => do
    match ← retrieveOperand id none with
    | .ok (some val) => prefetch (context.insert id val) ids
    | _ => prefetch context ids

def neededIds (program : Instructions) : List Vid :=
  program.flatMap fun ins => ins.operation.argsAsList

def prepareContext (order : KeyOrder Vid) (program : Instructions) :
    MemoryBus B (HashMap Vid (Shard B)) :=
  prefetch ∅ (order.list (neededIds program).toFinset)

/-- The instruction loop of `execute`, over the remaining instructions. -/
def executeInstructions (add : UInt8 → UInt8 → UInt8) (context : HashMap Vid (Shard B))
    (results : List (Except Error Vid)) :
    Instructions → MemoryBus B (HashMap Vid (Shard B) × List (Except Error Vid))
  | [] => pure (context, results)
  | ⟨operation, resultId⟩ :: program => do
    match ← retrieveOperands operation context with
    | .ok operation =>
      let output := calculate add operation
      executeInstructions add (context.insert resultId output) (results ++ [.ok resultId]) program
    | .error e => executeInstructions add context (results ++ [.error e]) program

/-- The write-back loop of `execute`, over the remaining entries of the context. -/
def saveContext (results : List (Except Error Vid)) :
    List (Vid × Shard B) → MemoryBus B (List (Except Error Vid))
  | [] => pure results
  | (resultId, output) :: rest => do
    match ← Bus.tell resultId output with
    | .ok () => saveContext results rest
    | .error e => saveContext (results ++ [.error e]) rest

/-- `ShardProcessor::execute`: `fetchOrder` and `saveOrder` are the iteration orders of the
prefetched ids and of the context. -/
def execute (add : UInt8 → UInt8 → UInt8) (fetchOrder saveOrder : KeyOrder Vid)
    (program : Instructions) : MemoryBus B (List (Except Error Vid)) := do
  let context ← prepareContext fetchOrder program
  let (context, results) ← executeInstructions add context [] program
  saveContext results (context.iter saveOrder)

end ShardProcessor

/-! ## The memory after the write-back -/

/-- A memory after a list of writes, first to last. -/
def applyWrites (M : Vid → Option (Shard B)) (ws : List (Vid × Shard B)) :
    Vid → Option (Shard B) :=
  ws.foldl (fun M w => Function.update M w.1 (some w.2)) M

theorem applyWrites_notMem {M : Vid → Option (Shard B)} {ws : List (Vid × Shard B)} {v : Vid}
    (h : v ∉ ws.map Prod.fst) : applyWrites M ws v = M v := by
  induction ws generalizing M with
  | nil => rfl
  | cons w ws ih =>
    rw [List.map_cons, List.mem_cons, not_or] at h
    change applyWrites (Function.update M w.1 (some w.2)) ws v = M v
    rw [ih h.2, Function.update_of_ne h.1]

theorem applyWrites_mem {M : Vid → Option (Shard B)} {ws : List (Vid × Shard B)}
    (hnd : (ws.map Prod.fst).Nodup) {v : Vid} {x : Shard B} (h : (v, x) ∈ ws) :
    applyWrites M ws v = some x := by
  induction ws generalizing M with
  | nil => cases h
  | cons w ws ih =>
    rw [List.map_cons, List.nodup_cons] at hnd
    change applyWrites (Function.update M w.1 (some w.2)) ws v = some x
    rcases List.mem_cons.1 h with rfl | h
    · rw [applyWrites_notMem hnd.1, Function.update_self]
    · exact ih hnd.2 h

/-- What the processor sees in `M` through its context. -/
def view (context : HashMap Vid (Shard B)) (M : Vid → Option (Shard B)) : Vid → Option (Shard B) :=
  fun v => (context.lookup v).or (M v)

theorem view_insert (context : HashMap Vid (Shard B)) (M : Vid → Option (Shard B)) (v : Vid)
    (x : Shard B) : view (context.insert v x) M = Function.update (view context M) v (some x) := by
  funext u
  simp only [view, Finmap.lookup_insert_ite, Function.update_apply]
  split <;> rfl

theorem applyWrites_iter (order : KeyOrder Vid) (context : HashMap Vid (Shard B))
    (M : Vid → Option (Shard B)) : applyWrites M (context.iter order) = view context M := by
  funext v
  cases h : context.lookup v with
  | some x =>
    rw [applyWrites_mem (Finmap.iter_nodup order context) (Finmap.mem_iter.2 h)]
    simp [view, h]
  | none =>
    rw [applyWrites_notMem]
    · simp [view, h]
    · rw [Finmap.iter_keys, KeyOrder.mem, Finmap.mem_keys_iff]
      simp [h]

/-! ## Execution on a memory -/

section Spec

open ShardProcessor

variable {add : UInt8 → UInt8 → UInt8} {S : Vid → Prop} {M : Vid → Option (Shard B)}

theorem wp_ask {v : Vid} (hv : S v) :
    Bus.wp (Bus.Sees S M) (fun ws r => ws = [] ∧ r = .ok (M v))
      (Bus.ask (V := Shard B) (ε := Error) v) := by
  intro o ho
  exact ⟨rfl, by rw [ho hv]⟩

theorem wp_retrieveBinary {o : BinaryOp Vid} {context : HashMap Vid (Shard B)}
    (h₁ : S o.first) (h₂ : S o.second) :
    Bus.wp (Bus.Sees S M)
      (fun ws r => ws = [] ∧
        r = .ok (BinaryOp.transpose ⟨view context M o.first, view context M o.second⟩))
      (retrieveBinary o context) := by
  unfold retrieveBinary view
  cases hf : context.lookup o.first with
  | some first =>
    cases hs : context.lookup o.second with
    | some second => exact ⟨rfl, rfl⟩
    | none =>
      refine Bus.wp_bindOk (Bus.wp_mono (wp_ask h₂) (fun _ _ h => h) ?_)
      rintro _ _ ⟨rfl, rfl⟩
      refine ⟨_, rfl, ?_⟩
      cases M o.second <;> exact ⟨rfl, rfl⟩
  | none =>
    cases hs : context.lookup o.second with
    | some second =>
      refine Bus.wp_bindOk (Bus.wp_mono (wp_ask h₁) (fun _ _ h => h) ?_)
      rintro _ _ ⟨rfl, rfl⟩
      refine ⟨_, rfl, ?_⟩
      cases M o.first <;> exact ⟨rfl, rfl⟩
    | none =>
      refine Bus.wp_bind (Bus.wp_mono (wp_ask h₁) (fun _ _ h => h) ?_)
      rintro _ _ ⟨rfl, rfl⟩
      refine Bus.wp_bind (Bus.wp_mono (wp_ask h₂) (fun _ _ h => h) ?_)
      rintro _ _ ⟨rfl, rfl⟩
      cases M o.first <;> cases M o.second <;> exact ⟨rfl, rfl⟩

theorem wp_retrieveUnary {o : UnaryOp Vid} {context : HashMap Vid (Shard B)} (h : S o.operand) :
    Bus.wp (Bus.Sees S M)
      (fun ws r => ws = [] ∧ r = .ok (UnaryOp.transpose ⟨view context M o.operand⟩))
      (retrieveUnary o context) := by
  unfold retrieveUnary view
  cases hx : context.lookup o.operand with
  | some x => exact ⟨rfl, rfl⟩
  | none =>
    refine Bus.wp_bindOk (Bus.wp_mono (wp_ask h) (fun _ _ h => h) ?_)
    rintro _ _ ⟨rfl, rfl⟩
    refine ⟨_, rfl, ?_⟩
    cases M o.operand <;> exact ⟨rfl, rfl⟩

theorem wp_okOrNoShards {α : Type} {make : α → Operation (Shard B)}
    {p : MemoryBus B (Except Error (Option α))} {o : Option α}
    (h : Bus.wp (Bus.Sees S M) (fun ws r => ws = [] ∧ r = .ok o) p) :
    Bus.wp (Bus.Sees S M)
      (fun ws r => ws = [] ∧ r = match o.map make with
        | some op => .ok op
        | none => .error .noShardsAssigned)
      (okOrNoShards make p) := by
  refine Bus.wp_bindOk (Bus.wp_mono h (fun _ _ h => h) ?_)
  rintro _ _ ⟨rfl, rfl⟩
  refine ⟨_, rfl, ?_⟩
  cases o <;> exact ⟨rfl, rfl⟩

/-- Operands are fetched from what the processor sees through its context. -/
theorem wp_retrieveOperands {op : Operation Vid} {context : HashMap Vid (Shard B)}
    (h : ∀ v ∈ op.argsAsList, S v) :
    Bus.wp (Bus.Sees S M)
      (fun ws r => ws = [] ∧ r = match op.fetch (view context M) with
        | some o => .ok o
        | none => .error .noShardsAssigned)
      (retrieveOperands op context) := by
  cases op with
  | inv o => exact wp_okOrNoShards (wp_retrieveUnary (h _ (by simp [Operation.argsAsList])))
  | sub o | plus o | nand o | nor o =>
    exact wp_okOrNoShards (wp_retrieveBinary (h _ (by simp [Operation.argsAsList]))
      (h _ (by simp [Operation.argsAsList])))

/-- The prefetch only copies: what is seen through the context stays `M`. -/
theorem wp_prefetch {ids : List Vid} {context : HashMap Vid (Shard B)} (h : ∀ v ∈ ids, S v)
    (hcx : view context M = M) :
    Bus.wp (Bus.Sees S M) (fun ws cx => ws = [] ∧ view cx M = M) (prefetch context ids) := by
  induction ids generalizing context with
  | nil => exact ⟨rfl, hcx⟩
  | cons id ids ih =>
    have hids : ∀ v ∈ ids, S v := fun v hv => h v (List.mem_cons_of_mem _ hv)
    refine Bus.wp_bind (Bus.wp_mono (wp_ask (h id List.mem_cons_self)) (fun _ _ h => h) ?_)
    rintro _ _ ⟨rfl, rfl⟩
    cases hM : M id with
    | none => exact ih hids hcx
    | some val =>
      refine ih hids ?_
      rw [view_insert, hcx, ← hM, Function.update_eq_self]

/-- Result entry of one instruction. -/
def resultOf : Option Vid → Except Error Vid
  | some v => .ok v
  | none => .error .noShardsAssigned

/-- The instruction loop, seen through the context, is the meaning of the program. -/
theorem wp_executeInstructions {program : Instructions} {context : HashMap Vid (Shard B)}
    {results : List (Except Error Vid)}
    (h : ∀ ins ∈ program, ∀ v ∈ ins.operation.argsAsList, S v) :
    Bus.wp (Bus.Sees S M)
      (fun ws r => ws = [] ∧
        view r.1 M = naive (calculate add) (view context M) program ∧
        r.2 = results ++
          (naiveResults (calculate add) (view context M) program).map resultOf)
      (executeInstructions add context results program) := by
  induction program generalizing context results with
  | nil => exact ⟨rfl, rfl, by simp [naiveResults]⟩
  | cons ins program ih =>
    obtain ⟨operation, resultId⟩ := ins
    have hprog : ∀ ins ∈ program, ∀ v ∈ ins.operation.argsAsList, S v :=
      fun i hi => h i (List.mem_cons_of_mem _ hi)
    refine Bus.wp_bind (Bus.wp_mono (wp_retrieveOperands (h _ List.mem_cons_self))
      (fun _ _ h => h) ?_)
    rintro _ _ ⟨rfl, rfl⟩
    cases hop : operation.fetch (view context M) with
    | none =>
      refine Bus.wp_mono (ih hprog) (fun _ _ h => h) ?_
      rintro ws r ⟨rfl, hv, hr⟩
      refine ⟨rfl, ?_, ?_⟩
      · rw [hv, naive_cons]
        simp only [naiveStep, hop]
      · rw [hr]
        simp [naiveResults, naiveStep, hop, resultOf]
    | some op =>
      refine Bus.wp_mono (ih hprog) (fun _ _ h => h) ?_
      rintro ws r ⟨rfl, hv, hr⟩
      refine ⟨rfl, ?_, ?_⟩
      · rw [hv, view_insert, naive_cons]
        simp only [naiveStep, hop]
      · rw [hr, view_insert]
        simp [naiveResults, naiveStep, hop, resultOf]

theorem wp_saveContext {results : List (Except Error Vid)} {entries : List (Vid × Shard B)}
    {R : Vid → Option (Shard B) → Prop} :
    Bus.wp R (fun ws r => ws = entries ∧ r = results) (saveContext results entries) := by
  induction entries with
  | nil => exact ⟨rfl, rfl⟩
  | cons entry rest ih =>
    obtain ⟨id, output⟩ := entry
    change Bus.wp R (fun ws r => (id, output) :: ws = (id, output) :: rest ∧ r = results)
      (saveContext results rest)
    refine Bus.wp_mono ih (fun _ _ h => h) ?_
    rintro ws r ⟨rfl, rfl⟩
    exact ⟨rfl, rfl⟩

/-- The Vids a program reads. -/
abbrev Reads (program : Instructions) (v : Vid) : Prop := v ∈ neededIds program

theorem reads_of_mem {program : Instructions} {ins : Instruction Vid Vid} (h : ins ∈ program)
    {v : Vid} (hv : v ∈ ins.operation.argsAsList) : Reads program v :=
  List.mem_flatMap.2 ⟨ins, h, hv⟩

/-- **Execution**: on a bus that answers the arguments of the program from `M`, the
write-back turns `M` into the meaning of the program on `M`, and the results say which
instructions were executed. -/
theorem execute_spec (fetchOrder saveOrder : KeyOrder Vid) (program : Instructions)
    (M : Vid → Option (Shard B)) :
    Bus.wp (Bus.Sees (Reads program) M)
      (fun ws results => (ws.map Prod.fst).Nodup ∧
        applyWrites M ws = naive (calculate add) M program ∧
        results = (naiveResults (calculate add) M program).map resultOf)
      (execute add fetchOrder saveOrder program) := by
  have hids : ∀ v ∈ fetchOrder.list (neededIds program).toFinset, Reads program v :=
    fun v hv => List.mem_toFinset.1 ((fetchOrder.mem _ v).1 hv)
  have hempty : view ∅ M = M := by funext v; simp [view]
  refine Bus.wp_bind (Bus.wp_mono (wp_prefetch hids hempty) (fun _ _ h => h) ?_)
  rintro _ cx ⟨rfl, hcx⟩
  refine Bus.wp_bind (Bus.wp_mono (wp_executeInstructions fun ins hi v hv => reads_of_mem hi hv)
    (fun _ _ h => h) ?_)
  rintro _ ⟨cx', results⟩ ⟨rfl, hv, hr⟩
  refine Bus.wp_mono wp_saveContext (fun _ _ h => h) ?_
  rintro _ _ ⟨rfl, rfl⟩
  refine ⟨Finmap.iter_nodup saveOrder cx', ?_, ?_⟩
  · rw [List.nil_append, List.nil_append, applyWrites_iter, hv, hcx]
  · rw [← hcx]
    simpa [hcx] using hr

end Spec

/-! ## What an execution writes, whatever the bus answers -/

section Coverage

open ShardProcessor

variable {add : UInt8 → UInt8 → UInt8} {H : Vid → Prop} {context : HashMap Vid (Shard B)}

/-- A read of a Vid in `H` finds a shard. -/
abbrev Finds (H : Vid → Prop) (v : Vid) (o : Option (Shard B)) : Prop := H v → o.isSome

theorem wp_ask_finds (v : Vid) :
    Bus.wp (Finds H) (fun ws r => ws = [] ∧ ∃ o : Option (Shard B), r = .ok o ∧ (H v → o.isSome))
      (Bus.ask (V := Shard B) (ε := Error) v) :=
  fun o ho => ⟨rfl, o, rfl, ho⟩

theorem wp_retrieveBinary_finds {o : BinaryOp Vid} :
    Bus.wp (Finds H)
      (fun ws r => ws = [] ∧ ∃ p : Option (BinaryOp (Shard B)), r = .ok p ∧
        ((H o.first ∨ o.first ∈ context) → (H o.second ∨ o.second ∈ context) → p.isSome))
      (retrieveBinary o context) := by
  unfold retrieveBinary
  cases hf : context.lookup o.first with
  | some first =>
    cases hs : context.lookup o.second with
    | some second => exact ⟨rfl, _, rfl, fun _ _ => rfl⟩
    | none =>
      refine Bus.wp_bindOk (Bus.wp_mono (wp_ask_finds o.second) (fun _ _ h => h) ?_)
      rintro _ _ ⟨rfl, p, rfl, hp⟩
      refine ⟨p, rfl, ?_⟩
      cases p with
      | some x => exact ⟨rfl, _, rfl, fun _ _ => rfl⟩
      | none =>
        refine ⟨rfl, _, rfl, fun _ h => ?_⟩
        rcases h with h | h
        · exact absurd (hp h) (by simp)
        · exact absurd (Finmap.lookup_eq_none.1 hs) (not_not.2 h)
  | none =>
    have hnf : (H o.first ∨ o.first ∈ context) → H o.first :=
      fun h => h.resolve_right (Finmap.lookup_eq_none.1 hf)
    cases hs : context.lookup o.second with
    | some second =>
      refine Bus.wp_bindOk (Bus.wp_mono (wp_ask_finds o.first) (fun _ _ h => h) ?_)
      rintro _ _ ⟨rfl, p, rfl, hp⟩
      refine ⟨p, rfl, ?_⟩
      cases p with
      | some x => exact ⟨rfl, _, rfl, fun _ _ => rfl⟩
      | none => exact ⟨rfl, _, rfl, fun h _ => absurd (hp (hnf h)) (by simp)⟩
    | none =>
      have hns : (H o.second ∨ o.second ∈ context) → H o.second :=
        fun h => h.resolve_right (Finmap.lookup_eq_none.1 hs)
      refine Bus.wp_bind (Bus.wp_mono (wp_ask_finds o.first) (fun _ _ h => h) ?_)
      rintro _ _ ⟨rfl, p, rfl, hp⟩
      refine Bus.wp_bind (Bus.wp_mono (wp_ask_finds o.second) (fun _ _ h => h) ?_)
      rintro _ _ ⟨rfl, q, rfl, hq⟩
      cases p with
      | none =>
        cases q <;> exact ⟨rfl, _, rfl, fun h _ => absurd (hp (hnf h)) (by simp)⟩
      | some x =>
        cases q with
        | some y => exact ⟨rfl, _, rfl, fun _ _ => rfl⟩
        | none => exact ⟨rfl, _, rfl, fun _ h => absurd (hq (hns h)) (by simp)⟩

theorem wp_retrieveUnary_finds {o : UnaryOp Vid} :
    Bus.wp (Finds H)
      (fun ws r => ws = [] ∧ ∃ p : Option (UnaryOp (Shard B)), r = .ok p ∧
        ((H o.operand ∨ o.operand ∈ context) → p.isSome))
      (retrieveUnary o context) := by
  unfold retrieveUnary
  cases hx : context.lookup o.operand with
  | some x => exact ⟨rfl, _, rfl, fun _ => rfl⟩
  | none =>
    refine Bus.wp_bindOk (Bus.wp_mono (wp_ask_finds o.operand) (fun _ _ h => h) ?_)
    rintro _ _ ⟨rfl, p, rfl, hp⟩
    refine ⟨p, rfl, ?_⟩
    cases p with
    | some x => exact ⟨rfl, _, rfl, fun _ => rfl⟩
    | none =>
      refine ⟨rfl, _, rfl, fun h => absurd (hp ?_) (by simp)⟩
      exact h.resolve_right (Finmap.lookup_eq_none.1 hx)

theorem wp_okOrNoShards_finds {α : Type} {make : α → Operation (Shard B)} {P : Prop}
    {p : MemoryBus B (Except Error (Option α))}
    (h : Bus.wp (Finds H) (fun ws r => ws = [] ∧ ∃ a : Option α, r = .ok a ∧ (P → a.isSome)) p) :
    Bus.wp (Finds H) (fun ws r => ws = [] ∧ (P → ∃ op, r = .ok op)) (okOrNoShards make p) := by
  refine Bus.wp_bindOk (Bus.wp_mono h (fun _ _ h => h) ?_)
  rintro _ _ ⟨rfl, a, rfl, ha⟩
  refine ⟨a, rfl, ?_⟩
  cases a with
  | some a => exact ⟨rfl, fun _ => ⟨_, rfl⟩⟩
  | none => exact ⟨rfl, fun hP => absurd (ha hP) (by simp)⟩

/-- Operands that are in the context or found are fetched. -/
theorem wp_retrieveOperands_finds (op : Operation Vid) :
    Bus.wp (Finds H)
      (fun ws r => ws = [] ∧ ((∀ v ∈ op.argsAsList, H v ∨ v ∈ context) → ∃ o, r = .ok o))
      (retrieveOperands op context) := by
  cases op with
  | inv o =>
    refine Bus.wp_mono (wp_okOrNoShards_finds wp_retrieveUnary_finds) (fun _ _ h => h) ?_
    rintro ws r ⟨hw, h⟩
    exact ⟨hw, fun hv => h (hv _ (by simp [Operation.argsAsList]))⟩
  | sub o | plus o | nand o | nor o =>
    refine Bus.wp_mono (wp_okOrNoShards_finds (P := (H o.first ∨ o.first ∈ context) ∧
      (H o.second ∨ o.second ∈ context)) (Bus.wp_mono wp_retrieveBinary_finds (fun _ _ h => h) ?_))
      (fun _ _ h => h) ?_
    · rintro ws r ⟨hw, p, hr, hp⟩
      exact ⟨hw, p, hr, fun h => hp h.1 h.2⟩
    · rintro ws r ⟨hw, h⟩
      exact ⟨hw, fun hv => h ⟨hv _ (by simp [Operation.argsAsList]),
        hv _ (by simp [Operation.argsAsList])⟩⟩

theorem wp_prefetch_finds (ids : List Vid) :
    Bus.wp (Finds H) (fun ws _ => ws = []) (prefetch context ids) := by
  induction ids generalizing context with
  | nil => exact rfl
  | cons id ids ih =>
    refine Bus.wp_bind (Bus.wp_mono (wp_ask_finds id) (fun _ _ h => h) ?_)
    rintro _ _ ⟨rfl, o, rfl, -⟩
    cases o with
    | some x => exact ih
    | none => exact ih

/-- The Vids a program leaves present, from the Vids in `M`: its meaning on values that carry
no data. -/
def presence (M : Vid → Option Unit) (program : Instructions) : Vid → Option Unit :=
  naive (fun _ => ()) M program

/-- The context keeps every result reported as a success, and everything the program leaves
present. -/
theorem wp_executeInstructions_finds {program : Instructions}
    {results : List (Except Error Vid)} {M : Vid → Option Unit}
    (hM : ∀ v, (M v).isSome → H v ∨ v ∈ context)
    (hres : ∀ v, .ok v ∈ results → v ∈ context) :
    Bus.wp (Finds H)
      (fun ws r => ws = [] ∧ (∀ v, .ok v ∈ r.2 → v ∈ r.1) ∧
        ∀ v, (presence M program v).isSome → H v ∨ v ∈ r.1)
      (executeInstructions add context results program) := by
  induction program generalizing context results M with
  | nil => exact ⟨rfl, hres, hM⟩
  | cons ins program ih =>
    obtain ⟨operation, resultId⟩ := ins
    refine Bus.wp_bind (Bus.wp_mono (wp_retrieveOperands_finds operation) (fun _ _ h => h) ?_)
    rintro _ r ⟨rfl, hop⟩
    cases r with
    | ok op =>
      refine Bus.wp_mono (ih (M := naiveStep (fun _ => ()) M ⟨operation, resultId⟩) ?_ ?_)
        (fun _ _ h => h) fun _ _ h => h
      · intro v hv
        by_cases hr : v = resultId
        · exact .inr (Finmap.mem_insert.2 (.inl hr))
        · rw [naiveStep_of_ne hr] at hv
          exact (hM v hv).imp id fun h => Finmap.mem_insert.2 (.inr h)
      · intro v hv
        rcases List.mem_append.1 hv with hv | hv
        · exact Finmap.mem_insert.2 (.inr (hres v hv))
        · rw [List.mem_singleton] at hv
          cases hv
          exact Finmap.mem_insert.2 (.inl rfl)
    | error e =>
      have hnone : operation.fetch M = none := by
        by_contra hne
        have hsome : (operation.fetch M).isSome := Option.isSome_iff_ne_none.2 hne
        obtain ⟨o, ho⟩ := hop fun v hv => hM v (Operation.fetch_isSome.1 hsome v hv)
        cases ho
      have hstep : presence M (⟨operation, resultId⟩ :: program) = presence M program := by
        unfold presence
        rw [naive_cons]
        simp only [naiveStep, hnone]
      rw [hstep]
      refine Bus.wp_mono (ih hM ?_) (fun _ _ h => h) fun _ _ h => h
      intro v hv
      rcases List.mem_append.1 hv with hv | hv
      · exact hres v hv
      · rw [List.mem_singleton] at hv
        cases hv

/-- **Coverage**: an execution writes a shard for every result it reports as a success, and
whenever it finds the Vids of `H`, it leaves nothing unwritten that the program leaves present
from `H`, apart from `H` itself. -/
theorem execute_coverage [DecidablePred H] (fetchOrder saveOrder : KeyOrder Vid)
    (program : Instructions) :
    Bus.wp (Finds H)
      (fun ws results => (∀ v, .ok v ∈ results → v ∈ ws.map Prod.fst) ∧
        ∀ v, (presence (fun v => if H v then some () else none) program v).isSome →
          H v ∨ v ∈ ws.map Prod.fst)
      (execute add fetchOrder saveOrder program : MemoryBus B (List (Except Error Vid))) := by
  refine Bus.wp_bind (Bus.wp_mono (wp_prefetch_finds _) (fun _ _ h => h) ?_)
  rintro _ cx rfl
  refine Bus.wp_bind (Bus.wp_mono (wp_executeInstructions_finds
    (M := fun v => if H v then some () else none) ?_ (by simp)) (fun _ _ h => h) ?_)
  · intro v hv
    by_cases h : H v
    · exact .inl h
    · rw [if_neg h] at hv
      cases hv
  rintro _ ⟨cx', results⟩ ⟨rfl, hres, hpres⟩
  refine Bus.wp_mono wp_saveContext (fun _ _ h => h) ?_
  rintro _ _ ⟨rfl, rfl⟩
  have hkeys : ∀ v, v ∈ cx' → v ∈ (cx'.iter saveOrder).map Prod.fst := fun v hv => by
    rw [Finmap.iter_keys, KeyOrder.mem]
    exact Finmap.mem_keys.2 hv
  exact ⟨fun v hv => hkeys v (hres v hv), fun v hv => (hpres v hv).imp id (hkeys v)⟩

end Coverage

end Swarm.Processor
