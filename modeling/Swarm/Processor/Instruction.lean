import Mathlib.Logic.Function.Basic
import Swarm.Types

/-!
# Instructions and programs

The instruction set, programs with their identifiers, and `naive`, the meaning
of an instruction list on a memory `Vid → Option V`: each instruction in order
reads its operands, is skipped if one is absent, and otherwise writes its
result at once. `naive` is generic in the values: whole data units, single
shards and families of shards are instances.
-/

namespace Swarm.Processor

structure BinaryOp (TOperand : Type) where
  first : TOperand
  second : TOperand
  deriving DecidableEq

structure UnaryOp (TOperand : Type) where
  operand : TOperand
  deriving DecidableEq

inductive Operation (TOperand : Type) where
  | sub (o : BinaryOp TOperand)
  | plus (o : BinaryOp TOperand)
  | inv (o : UnaryOp TOperand)
  | nand (o : BinaryOp TOperand)
  | nor (o : BinaryOp TOperand)
  deriving DecidableEq

structure Instruction (TOperand TResult : Type) where
  operation : Operation TOperand
  result : TResult
  deriving DecidableEq

abbrev Instructions := List (Instruction Vid Vid)

structure ProgramIdentifier where
  hash : Hash
  eventHash : Hash
  deriving DecidableEq

structure Program where
  instructions : Instructions
  identifier : ProgramIdentifier
  deriving DecidableEq

/-- `Program::new`; `calculateHash` is the Blake2b digest of the serialised list. -/
def Program.new (calculateHash : Instructions → Hash) (instructions : Instructions)
    (eventHash : Hash) : Program :=
  ⟨instructions, ⟨calculateHash instructions, eventHash⟩⟩

namespace Operation

variable {V W : Type}

def argsAsList : Operation V → List V
  | sub o | plus o | nand o | nor o => [o.first, o.second]
  | inv o => [o.operand]

def mapOperands (f : V → W) : Operation V → Operation W
  | sub o => sub ⟨f o.first, f o.second⟩
  | plus o => plus ⟨f o.first, f o.second⟩
  | inv o => inv ⟨f o.operand⟩
  | nand o => nand ⟨f o.first, f o.second⟩
  | nor o => nor ⟨f o.first, f o.second⟩

end Operation

def BinaryOp.transpose {V : Type} : BinaryOp (Option V) → Option (BinaryOp V)
  | ⟨some first, some second⟩ => some ⟨first, second⟩
  | _ => none

def UnaryOp.transpose {V : Type} (o : UnaryOp (Option V)) : Option (UnaryOp V) :=
  o.operand.map UnaryOp.mk

theorem BinaryOp.transpose_eq_some {V : Type} {o : BinaryOp (Option V)} {p : BinaryOp V} :
    o.transpose = some p ↔ o.first = some p.first ∧ o.second = some p.second := by
  obtain ⟨a, b⟩ := o
  obtain ⟨x, y⟩ := p
  cases a <;> cases b <;> simp [BinaryOp.transpose]

theorem UnaryOp.transpose_eq_some {V : Type} {o : UnaryOp (Option V)} {p : UnaryOp V} :
    o.transpose = some p ↔ o.operand = some p.operand := by
  obtain ⟨a⟩ := o
  obtain ⟨x⟩ := p
  cases a <;> simp [UnaryOp.transpose]

namespace Operation

variable {V W : Type}

def transpose : Operation (Option V) → Option (Operation V)
  | sub o => o.transpose.map sub
  | plus o => o.transpose.map plus
  | inv o => o.transpose.map inv
  | nand o => o.transpose.map nand
  | nor o => o.transpose.map nor

/-- The operation on the values its operands have in `M`, if all are present. -/
def fetch (M : Vid → Option V) (op : Operation Vid) : Option (Operation V) :=
  (op.mapOperands M).transpose

/-- Plus, Sub and Inv. -/
def IsLinear : Operation V → Prop
  | sub _ | plus _ | inv _ => True
  | nand _ | nor _ => False

instance (op : Operation V) : Decidable op.IsLinear := by
  cases op <;> unfold IsLinear <;> infer_instance

@[simp] theorem isLinear_mapOperands (f : V → W) (op : Operation V) :
    (op.mapOperands f).IsLinear ↔ op.IsLinear := by cases op <;> rfl

/-- Present operands are fetched as they are. -/
theorem fetch_eq_some {M : Vid → Option V} {op : Operation Vid} {o : Operation V} :
    op.fetch M = some o ↔ op.mapOperands M = o.mapOperands some := by
  cases op <;> cases o <;>
    simp [fetch, mapOperands, transpose, BinaryOp.transpose_eq_some, UnaryOp.transpose_eq_some]

theorem fetch_isSome {M : Vid → Option V} {op : Operation Vid} :
    (op.fetch M).isSome ↔ ∀ v ∈ op.argsAsList, (M v).isSome := by
  cases op with
  | inv o => cases h : M o.operand <;>
      simp [fetch, mapOperands, transpose, UnaryOp.transpose, argsAsList, h]
  | sub o | plus o | nand o | nor o =>
    cases h₁ : M o.first <;> cases h₂ : M o.second <;>
      simp [fetch, mapOperands, transpose, BinaryOp.transpose, argsAsList, h₁, h₂]

theorem fetch_map (φ : V → W) (M : Vid → Option V) (op : Operation Vid) :
    op.fetch (fun v => (M v).map φ) = (op.fetch M).map (mapOperands φ) := by
  cases op with
  | inv o => cases h : M o.operand <;>
      simp [fetch, mapOperands, transpose, UnaryOp.transpose, h]
  | sub o | plus o | nand o | nor o =>
    cases h₁ : M o.first <;> cases h₂ : M o.second <;>
      simp [fetch, mapOperands, transpose, BinaryOp.transpose, h₁, h₂]

theorem fetch_congr {M N : Vid → Option V} {op : Operation Vid}
    (h : ∀ v ∈ op.argsAsList, M v = N v) : op.fetch M = op.fetch N := by
  cases op <;> simp_all [fetch, mapOperands, argsAsList]

end Operation

/-! ## The meaning of a program -/

section Naive

variable {V W : Type} (calculate : Operation V → V)

/-- One instruction. -/
def naiveStep (M : Vid → Option V) (ins : Instruction Vid Vid) : Vid → Option V :=
  match ins.operation.fetch M with
  | some op => Function.update M ins.result (some (calculate op))
  | none => M

def naive (M : Vid → Option V) (program : Instructions) : Vid → Option V :=
  program.foldl (naiveStep calculate) M

/-- For each instruction in order, its result id if it was executed. -/
def naiveResults : (Vid → Option V) → Instructions → List (Option Vid)
  | _, [] => []
  | M, ins :: program =>
    ((ins.operation.fetch M).map fun _ => ins.result) ::
      naiveResults (naiveStep calculate M ins) program

/-- Every instruction finds its operands. -/
def AllPresent : (Vid → Option V) → Instructions → Prop
  | _, [] => True
  | M, ins :: program =>
    (ins.operation.fetch M).isSome ∧ AllPresent (naiveStep calculate M ins) program

variable {calculate} {calculate' : Operation W → W}

@[simp] theorem naive_nil (M : Vid → Option V) : naive calculate M [] = M := rfl

@[simp] theorem naive_cons (M : Vid → Option V) (ins : Instruction Vid Vid)
    (program : Instructions) :
    naive calculate M (ins :: program) = naive calculate (naiveStep calculate M ins) program := rfl

theorem naiveStep_result {M : Vid → Option V} {ins : Instruction Vid Vid} {op : Operation V}
    (h : ins.operation.fetch M = some op) :
    naiveStep calculate M ins ins.result = some (calculate op) := by
  simp only [naiveStep, h, Function.update_self]

theorem naiveStep_of_ne {M : Vid → Option V} {ins : Instruction Vid Vid} {v : Vid}
    (h : v ≠ ins.result) : naiveStep calculate M ins v = M v := by
  cases hop : ins.operation.fetch M with
  | none => simp only [naiveStep, hop]
  | some op => simp only [naiveStep, hop, Function.update_of_ne h]

/-- A map that commutes with the operations of the program commutes with the program. -/
theorem naive_map {φ : V → W} {program : Instructions}
    (hφ : ∀ ins ∈ program, ∀ op : Operation V, (op.IsLinear ↔ ins.operation.IsLinear) →
      calculate' (op.mapOperands φ) = φ (calculate op)) (M : Vid → Option V) :
    naive calculate' (fun v => (M v).map φ) program = fun v => (naive calculate M program v).map φ := by
  induction program generalizing M with
  | nil => rfl
  | cons ins program ih =>
    rw [naive_cons, naive_cons, ← ih fun i hi => hφ i (List.mem_cons_of_mem _ hi)]
    congr 1
    unfold naiveStep
    rw [Operation.fetch_map]
    cases h : ins.operation.fetch M with
    | none => rfl
    | some op =>
      have hlin : op.IsLinear ↔ ins.operation.IsLinear := by
        have := congrArg Operation.IsLinear (Operation.fetch_eq_some.1 h)
        simp only [Operation.isLinear_mapOperands] at this
        rw [this]
      funext v
      simp only [Option.map_some, Function.update_apply,
        hφ ins List.mem_cons_self op hlin]
      split <;> simp

theorem AllPresent.map {φ : V → W} {program : Instructions}
    (hφ : ∀ ins ∈ program, ∀ op : Operation V, (op.IsLinear ↔ ins.operation.IsLinear) →
      calculate' (op.mapOperands φ) = φ (calculate op)) {M : Vid → Option V}
    (h : AllPresent calculate M program) : AllPresent calculate' (fun v => (M v).map φ) program := by
  induction program generalizing M with
  | nil => trivial
  | cons ins program ih =>
    obtain ⟨hop, hp⟩ := h
    refine ⟨by rw [Operation.fetch_map, Option.isSome_map]; exact hop, ?_⟩
    have hstep : naive calculate' (fun v => (M v).map φ) [ins] =
        fun v => (naive calculate M [ins] v).map φ := naive_map (fun i hi => hφ i (by simp_all)) M
    simp only [naive_cons, naive_nil] at hstep
    rw [hstep]
    exact ih (fun i hi => hφ i (List.mem_cons_of_mem _ hi)) hp

/-- A memory that holds at least what another one does keeps doing so, as long as the
smaller one has every operand. -/
theorem naive_extend {M N : Vid → Option V} (h : ∀ v x, M v = some x → N v = some x)
    {program : Instructions} (hp : AllPresent calculate M program) :
    ∀ v x, naive calculate M program v = some x → naive calculate N program v = some x := by
  induction program generalizing M N with
  | nil => exact h
  | cons ins program ih =>
    obtain ⟨hop, hp⟩ := hp
    refine ih ?_ hp
    obtain ⟨op, hM⟩ := Option.isSome_iff_exists.1 hop
    have hN : ins.operation.fetch N = some op := by
      rw [← hM]
      refine Operation.fetch_congr fun v hv => ?_
      obtain ⟨x, hx⟩ := Option.isSome_iff_exists.1 (Operation.fetch_isSome.1 hop v hv)
      rw [hx, h v x hx]
    intro v x
    simp only [naiveStep, hM, hN, Function.update_apply]
    split
    · exact id
    · exact h v x

/-- Where every instruction finds its operands, every result is present in the end. -/
theorem AllPresent.isSome {M : Vid → Option V} {program : Instructions}
    (h : AllPresent calculate M program) {v : Vid}
    (hv : (M v).isSome ∨ ∃ ins ∈ program, ins.result = v) :
    (naive calculate M program v).isSome := by
  induction program generalizing M with
  | nil => exact hv.resolve_right (by simp)
  | cons ins program ih =>
    obtain ⟨hop, hp⟩ := h
    obtain ⟨op, hop⟩ := Option.isSome_iff_exists.1 hop
    refine ih hp ?_
    by_cases hr : v = ins.result
    · subst hr
      rw [naiveStep_result hop]
      exact .inl rfl
    · rw [naiveStep_of_ne hr]
      refine hv.imp_right ?_
      rintro ⟨ins', hins, rfl⟩
      rcases List.mem_cons.1 hins with rfl | hins
      · exact absurd rfl hr
      · exact ⟨ins', hins, rfl⟩

end Naive

end Swarm.Processor
