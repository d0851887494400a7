import Swarm.Processor.SingleThreaded

/-!
# How often the processor uses the memory bus

Whatever the bus answers, an execution reads at most its operands twice, once
before and once in the instruction loop, and writes at most what it prefetched
and its results.
-/

namespace Swarm.Processor.ShardProcessor

variable {B : Nat} {add : UInt8 → UInt8 → UInt8} {context : HashMap Vid (Shard B)}

theorem ask_costs {Q : Except Error (Option (Shard B)) → Prop} (v : Vid) (hQ : ∀ x, Q x) :
    (Bus.ask v : MemoryBus B _).Costs 1 2 Q 1 :=
  ⟨0, rfl, fun o => hQ o⟩

theorem bindOk_costs {α β : Type} {n k : Nat} {p : MemoryBus B (Except Error α)}
    {f : α → MemoryBus B (Except Error β)} (h : p.Costs 1 2 (fun _ => True) n)
    (hf : ∀ a, (f a).Costs 1 2 (fun _ => True) k) :
    (p.bindOk f).Costs 1 2 (fun _ => True) (n + k) := by
  refine h.bind fun a _ => ?_
  cases a with
  | ok a => exact hf a
  | error e => trivial

theorem retrieveBinary_costs (o : BinaryOp Vid) :
    (retrieveBinary o context).Costs 1 2 (fun _ => True) 2 := by
  unfold retrieveBinary
  split
  · trivial
  · refine (bindOk_costs (k := 0) (ask_costs _ fun _ => trivial) fun a => ?_).mono
      (fun _ h => h) (by omega)
    cases a <;> trivial
  · refine (bindOk_costs (k := 0) (ask_costs _ fun _ => trivial) fun a => ?_).mono
      (fun _ h => h) (by omega)
    cases a <;> trivial
  · refine Bus.Costs.bind (k := 1) (ask_costs o.first (Q := fun _ => True) fun _ => trivial)
      fun first _ => ?_
    refine Bus.Costs.bind (k := 0) (ask_costs o.second (Q := fun _ => True) fun _ => trivial)
      fun second _ => ?_
    rcases first with _ | _ | _ <;> rcases second with _ | _ | _ <;> trivial

theorem retrieveUnary_costs (o : UnaryOp Vid) :
    (retrieveUnary o context).Costs 1 2 (fun _ => True) 2 := by
  unfold retrieveUnary
  cases context.lookup o.operand with
  | some x => trivial
  | none =>
    refine (bindOk_costs (k := 0) (ask_costs _ fun _ => trivial) fun a => ?_).mono
      (fun _ h => h) (by omega)
    cases a <;> trivial

theorem retrieveOperands_costs (op : Operation Vid) :
    (retrieveOperands op context).Costs 1 2 (fun _ => True) 2 := by
  have hmake : ∀ {α : Type} {make : α → Operation (Shard B)}
      {p : MemoryBus B (Except Error (Option α))}, p.Costs 1 2 (fun _ => True) 2 →
      (okOrNoShards make p).Costs 1 2 (fun _ => True) 2 := fun h =>
    bindOk_costs (k := 0) h fun a => by cases a <;> trivial
  cases op with
  | inv o => exact hmake (retrieveUnary_costs o)
  | sub o | plus o | nand o | nor o => exact hmake (retrieveBinary_costs o)

theorem prefetch_costs (ids : List Vid) : (prefetch context ids).Costs 1 2
    (fun cx => cx.len ≤ context.len + ids.length) ids.length := by
  induction ids generalizing context with
  | nil => exact Nat.le_refl _
  | cons id ids ih =>
    have hstep : (prefetch context (id :: ids)).Costs 1 2
        (fun cx => cx.len ≤ context.len + (id :: ids).length) (1 + ids.length) := by
      refine (ask_costs (Q := fun _ => True) id fun _ => trivial).bind fun a _ => ?_
      have hskip : (prefetch context ids).Costs 1 2
          (fun cx => cx.len ≤ context.len + (id :: ids).length) ids.length :=
        ih.mono (fun cx h => h.trans (by rw [List.length_cons]; omega)) (Nat.le_refl _)
      cases a with
      | error e => exact hskip
      | ok o =>
        cases o with
        | none => exact hskip
        | some val =>
          refine ih.mono (fun cx h => h.trans ?_) (Nat.le_refl _)
          have := context.len_insert_le id val
          rw [List.length_cons]
          omega
    exact hstep.mono (fun _ h => h) (by rw [List.length_cons]; omega)

theorem length_neededIds (program : Instructions) :
    (neededIds program).length ≤ 2 * program.length := by
  induction program with
  | nil => exact Nat.le_refl _
  | cons ins program ih =>
    have hargs : ins.operation.argsAsList.length ≤ 2 := by
      cases ins.operation <;> simp [Operation.argsAsList]
    rw [neededIds] at ih
    rw [neededIds, List.flatMap_cons, List.length_append, List.length_cons]
    omega

theorem prepareContext_costs (order : KeyOrder Vid) (program : Instructions) :
    (prepareContext (B := B) order program).Costs 1 2 (fun cx => cx.len ≤ 2 * program.length)
      (2 * program.length) := by
  have hlength : (order.list (neededIds program).toFinset).length ≤ 2 * program.length := by
    rw [KeyOrder.length_list]
    exact (List.toFinset_card_le _).trans (length_neededIds program)
  refine (prefetch_costs _).mono (fun cx h => h.trans ?_) hlength
  rwa [Finmap.len_empty, Nat.zero_add]

theorem executeInstructions_costs (program : Instructions) (results : List (Except Error Vid)) :
    (executeInstructions add context results program).Costs 1 2
      (fun r => r.1.len ≤ context.len + program.length) (2 * program.length) := by
  induction program generalizing context results with
  | nil => exact Nat.le_refl _
  | cons ins program ih =>
    have hstep : (executeInstructions add context results (ins :: program)).Costs 1 2
        (fun r => r.1.len ≤ context.len + (ins :: program).length) (2 + 2 * program.length) := by
      refine (retrieveOperands_costs ins.operation).bind fun a _ => ?_
      cases a with
      | error e =>
        exact (ih _).mono (fun r h => h.trans (by rw [List.length_cons]; omega)) (Nat.le_refl _)
      | ok op =>
        refine (ih _).mono (fun r h => h.trans ?_) (Nat.le_refl _)
        have := context.len_insert_le ins.result (calculate add op)
        rw [List.length_cons]
        omega
    exact hstep.mono (fun _ h => h) (by rw [List.length_cons]; omega)

theorem saveContext_costs (entries : List (Vid × Shard B)) (results : List (Except Error Vid)) :
    (saveContext results entries).Costs 1 2 (fun _ => True) (2 * entries.length) := by
  induction entries generalizing results with
  | nil => trivial
  | cons entry rest ih =>
    refine ⟨2 * rest.length, by rw [List.length_cons]; omega, fun o => ?_⟩
    cases o with
    | ok u => exact ih results
    | error e => exact ih _

/-- **The bus exchanges of an execution**, reads at one and writes at two: a write is handed over
and applied. -/
theorem execute_costs (fetchOrder saveOrder : KeyOrder Vid) (program : Instructions) :
    (execute (B := B) add fetchOrder saveOrder program).Costs 1 2 (fun _ => True)
      (10 * program.length) := by
  have hsave : ∀ r : HashMap Vid (Shard B) × List (Except Error Vid),
      r.1.len ≤ 3 * program.length →
      (saveContext r.2 (r.1.iter saveOrder)).Costs 1 2 (fun _ => True) (6 * program.length) := by
    intro r hr
    refine (saveContext_costs _ r.2).mono (fun _ h => h) ?_
    rw [Finmap.length_iter]
    omega
  have hrest : ∀ cx : HashMap Vid (Shard B), cx.len ≤ 2 * program.length →
      (executeInstructions add cx [] program >>= fun r =>
        saveContext r.2 (r.1.iter saveOrder)).Costs 1 2 (fun _ => True)
        (2 * program.length + 6 * program.length) := fun cx hcx =>
    (executeInstructions_costs program []).bind fun r hr => hsave r (by omega)
  exact ((prepareContext_costs fetchOrder program).bind hrest).mono (fun _ h => h) (by omega)

end Swarm.Processor.ShardProcessor
