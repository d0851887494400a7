import Swarm.Processor.Instruction

/-!
# The local interpreter

`MockProcessor` runs a program on whole data units and stops at the first
missing operand. Where it succeeds it computes the meaning `naive` of the
program.
-/

namespace Swarm.Processor.Mock

variable {B : Nat}

inductive Error where
  | dataNotFound
  deriving DecidableEq

/-- `MockProcessor::calculate`; `add` is `galois_8::add`. -/
def calculate (add : UInt8 → UInt8 → UInt8) : Operation (Data B) → Data B
  | .sub o => ⟨mapZip o.first.bytes o.second.bytes add⟩
  | .plus o => ⟨mapZip o.first.bytes o.second.bytes add⟩
  | .inv o => ⟨fun i => o.operand.bytes i⟩
  | .nand o => ⟨mapZip o.first.bytes o.second.bytes fun a b => if a == 0 || b == 0 then 1 else 0⟩
  | .nor o => ⟨mapZip o.first.bytes o.second.bytes fun a b => if a == 0 && b == 0 then 1 else 0⟩

def retrieveOperand (operand : Vid) (dataStorage : HashMap Vid (Data B)) :
    Except Error (Data B) :=
  match dataStorage.lookup operand with
  | some data => .ok data
  | none => .error .dataNotFound

def retrieveBinary (binary : BinaryOp Vid) (dataStorage : HashMap Vid (Data B)) :
    Except Error (BinaryOp (Data B)) := do
  let first ← retrieveOperand binary.first dataStorage
  let second ← retrieveOperand binary.second dataStorage
  return ⟨first, second⟩

def retrieveUnary (unary : UnaryOp Vid) (dataStorage : HashMap Vid (Data B)) :
    Except Error (UnaryOp (Data B)) := do
  let operand ← retrieveOperand unary.operand dataStorage
  return ⟨operand⟩

def retrieveOperands (op : Operation Vid) (dataStorage : HashMap Vid (Data B)) :
    Except Error (Operation (Data B)) := do
  match op with
  | .sub binary => return .sub (← retrieveBinary binary dataStorage)
  | .plus binary => return .plus (← retrieveBinary binary dataStorage)
  | .inv unary => return .inv (← retrieveUnary unary dataStorage)
  | .nand binary => return .nand (← retrieveBinary binary dataStorage)
  | .nor binary => return .nor (← retrieveBinary binary dataStorage)

/-- The loop of `MockProcessor::execute_on`, over the remaining instructions. -/
def executeInstructions (add : UInt8 → UInt8 → UInt8) :
    Instructions → HashMap Vid (Data B) → Except Error (HashMap Vid (Data B))
  | [], dataStorage => .ok dataStorage
  | ⟨operation, result⟩ :: program, dataStorage => do
    let operation ← retrieveOperands operation dataStorage
    let resultValue := calculate add operation
    executeInstructions add program (dataStorage.insert result resultValue)

/-- `MockProcessor::execute_on`: the storage it leaves when it returns `Ok`. -/
def executeOn (add : UInt8 → UInt8 → UInt8) (program : Program)
    (dataStorage : HashMap Vid (Data B)) : Except Error (HashMap Vid (Data B)) :=
  executeInstructions add program.instructions dataStorage

/-! ## Against the meaning of the program -/

section Spec

variable {add : UInt8 → UInt8 → UInt8}

theorem retrieveOperands_eq (op : Operation Vid) (D : HashMap Vid (Data B)) :
    retrieveOperands op D =
      match op.fetch D.lookup with
      | some o => .ok o
      | none => .error .dataNotFound := by
  cases op with
  | inv o => cases h : D.lookup o.operand <;>
      simp [retrieveOperands, retrieveUnary, retrieveOperand, Operation.fetch,
        Operation.mapOperands, Operation.transpose, UnaryOp.transpose, h]
  | sub o | plus o | nand o | nor o =>
    cases h₁ : D.lookup o.first <;> cases h₂ : D.lookup o.second <;>
      simp [retrieveOperands, retrieveBinary, retrieveOperand, Operation.fetch,
        Operation.mapOperands, Operation.transpose, BinaryOp.transpose, h₁, h₂] <;> rfl

/-- A successful run found every operand and computed the meaning of the program. -/
theorem executeInstructions_ok {program : Instructions} {D D' : HashMap Vid (Data B)}
    (h : executeInstructions add program D = .ok D') :
    AllPresent (calculate add) D.lookup program ∧
      naive (calculate add) D.lookup program = D'.lookup := by
  induction program generalizing D with
  | nil =>
    cases h
    exact ⟨trivial, rfl⟩
  | cons ins program ih =>
    obtain ⟨operation, result⟩ := ins
    simp only [executeInstructions, retrieveOperands_eq] at h
    cases hop : operation.fetch D.lookup with
    | none => rw [hop] at h; cases h
    | some op =>
      rw [hop] at h
      obtain ⟨hp, hn⟩ := ih h
      have hstep : naiveStep (calculate add) D.lookup ⟨operation, result⟩ =
          (D.insert result (calculate add op)).lookup := by
        funext v
        simp only [naiveStep, hop, Function.update_apply, Finmap.lookup_insert_ite]
      exact ⟨⟨by simp [hop], by rw [hstep]; exact hp⟩, by rw [naive_cons, hstep]; exact hn⟩

/-- A successful run leaves every result in the storage. -/
theorem executeOn_isSome {program : Program} {D D' : HashMap Vid (Data B)}
    (h : executeOn add program D = .ok D') {v : Vid}
    (hv : v ∈ program.instructions.map Instruction.result) : (D'.lookup v).isSome := by
  obtain ⟨hpresent, hnaive⟩ := executeInstructions_ok h
  obtain ⟨ins, hins, rfl⟩ := List.mem_map.1 hv
  rw [← congrFun hnaive ins.result]
  exact hpresent.isSome (.inr ⟨ins, hins, rfl⟩)

end Spec

end Swarm.Processor.Mock
