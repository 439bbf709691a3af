import Mathlib.Logic.Relation
import SimtMachine.Core.Basic
import SimtMachine.Lockstep

/-!
# Passes

A pass is a run of a block in lockstep, from its first instruction to its return. A core makes two
of them for each block, the second on the memory that the first has left.
-/

namespace SimtMachine

open Relation (ReflTransGen)

namespace Thread

variable {i : Instruction} {t : Thread} {r : Request UInt8}

/-- The request that the instruction makes of data memory, if it makes one. -/
def request (i : Instruction) (t : Thread) : Option (Request UInt8) :=
  if i.op.touchesMemory then some (i.request (t.regs.read i.rs) (t.regs.read i.rt)) else none

/-- The thread after an instruction whose load, if it makes one, brings `loaded`. -/
def finish (i : Instruction) (t : Thread) (loaded : UInt8) : Thread :=
  let v := i.op.compute (t.regs.read i.rs) (t.regs.read i.rt)
  { regs := if i.op.writesRegister then t.regs.write i.rd (i.result v loaded) else t.regs
    flags := if i.op.setsFlags then v else t.flags }

theorem execute_eq (i : Instruction) (t : Thread) (m : Image UInt8) :
    t.execute i m = (t.finish i (m.read (t.regs.read i.rs)),
      if i.op.stores then m.write (t.regs.read i.rs) (t.regs.read i.rt) else m) := rfl

theorem finish_of_not_loads (h : i.op.loads = false) (v w : UInt8) :
    t.finish i v = t.finish i w := by
  have hr (c : UInt8) : i.result c v = i.result c w := by
    cases ho : i.op <;> simp_all [Instruction.result, Operation.source, Operation.loads]
  simp only [finish, hr]

/-- A thread that touches memory executes its instruction by one request. -/
theorem execute_of_request (h : t.request i = some r) (m : Image UInt8) :
    t.execute i m = (t.finish i (r.answer m), r.apply m) := by
  cases ht : i.op.touchesMemory with
  | false => simp [request, ht] at h
  | true =>
    obtain rfl : i.request (t.regs.read i.rs) (t.regs.read i.rt) = r := by
      simpa [request, ht] using h
    rw [execute_eq]
    cases hl : i.op.loads with
    | true =>
      have hs : i.op.stores = false := by
        cases ho : i.op <;> simp_all [Operation.loads, Operation.stores]
      simp [Instruction.request, hl, hs, Request.answer, Request.apply]
    | false =>
      have hs : i.op.stores = true := by simpa [Operation.touchesMemory, hl] using ht
      simp only [Instruction.request, hl, hs, if_true, Bool.false_eq_true, if_false, Request.apply]
      rw [finish_of_not_loads hl]

theorem execute_of_no_request (h : t.request i = none) (m : Image UInt8) (v : UInt8) :
    t.execute i m = (t.finish i v, m) := by
  have ht : i.op.touchesMemory = false := by
    cases ht : i.op.touchesMemory <;> simp_all [request]
  obtain ⟨hl, hs⟩ := Bool.or_eq_false_iff.1 ht
  rw [execute_eq, finish_of_not_loads hl _ v, if_neg (by simp [hs])]

/-- Only what it loads ties a thread to memory. -/
theorem execute_thread_congr {m m' : Image UInt8}
    (h : ∀ a, t.request i = some (.read a) → m.read a = m'.read a) :
    (t.execute i m).1 = (t.execute i m').1 := by
  cases hr : t.request i with
  | none => rw [execute_of_no_request hr m 0, execute_of_no_request hr m' 0]
  | some r =>
    rw [execute_of_request hr, execute_of_request hr]
    cases r with
    | read a => exact congrArg (t.finish i) (h a hr)
    | write => rfl

theorem request_of_returns (h : i.op.returns = true) (t : Thread) : t.request i = none := by
  have ht : i.op.touchesMemory = false := by
    cases ho : i.op <;> simp_all [Operation.returns, Operation.touchesMemory, Operation.loads,
      Operation.stores]
  simp [request, ht]

end Thread

namespace Lockstep

variable {program : Image UInt16} {s s' : Lockstep} {m : Image UInt8} {r : Request UInt8}

theorem step_eq_none :
    s.step program = none ↔ (s.instruction program).op.returns = true := by
  simp [step]

theorem step_eq_some :
    s.step program = some s' ↔ (s.instruction program).op.returns = false ∧
      ⟨s.nextPc (s.instruction program),
        (sweep (fun m t ↦ (t.execute (s.instruction program) m).swap) s.memory s.threads).2,
        (sweep (fun m t ↦ (t.execute (s.instruction program) m).swap) s.memory s.threads).1⟩ =
          s' := by
  simp [step]

/-- The block comes from one state to the other. -/
def Reaches (program : Image UInt16) : Lockstep → Lockstep → Prop :=
  ReflTransGen fun s s' ↦ s.step program = some s'

theorem Reaches.finishes (h : Reaches program s s') (hf : Finishes program s' m) :
    Finishes program s m := by
  induction h using ReflTransGen.head_induction_on with
  | refl => exact hf
  | head hs _ ih => exact .next hs ih

/-- A thread of the block makes the request now. -/
def Asks (program : Image UInt16) (s : Lockstep) (r : Request UInt8) : Prop :=
  ∃ t ∈ s.threads, t.request (s.instruction program) = some r

/-- A thread of the block makes the request in the course of the pass. -/
def Issues (program : Image UInt16) (s : Lockstep) (r : Request UInt8) : Prop :=
  ∃ s', Reaches program s s' ∧ s'.Asks program r

theorem Issues.of_step (hs : s.step program = some s') (h : s'.Issues program r) :
    s.Issues program r := by
  obtain ⟨q, hq, hr⟩ := h
  exact ⟨q, hq.head hs, hr⟩

end Lockstep

namespace Assignment

variable {program : Image UInt16} {dim : UInt8} {b : Assignment} {m m' : Image UInt8}

/-- The block before a pass on the given memory. -/
def enter (b : Assignment) (dim : UInt8) (m : Image UInt8) : Lockstep :=
  .start b.block dim b.threads m

/-- The block makes two passes, the second on the memory that the first leaves. -/
def FinishesTwice (program : Image UInt16) (dim : UInt8) (b : Assignment) (m m' : Image UInt8) :
    Prop :=
  ∃ mid, Lockstep.Finishes program (b.enter dim m) mid ∧
    Lockstep.Finishes program (b.enter dim mid) m'

/-- A thread of the block makes the request in one of its two passes. -/
def Issues (program : Image UInt16) (dim : UInt8) (b : Assignment) (m : Image UInt8)
    (r : Request UInt8) : Prop :=
  (b.enter dim m).Issues program r ∨
    ∃ mid, Lockstep.Finishes program (b.enter dim m) mid ∧ (b.enter dim mid).Issues program r

theorem FinishesTwice.unique (h : b.FinishesTwice program dim m m') {m'' : Image UInt8}
    (h' : b.FinishesTwice program dim m m'') : m' = m'' := by
  obtain ⟨mid, h1, h2⟩ := h
  obtain ⟨mid', h1', h2'⟩ := h'
  obtain rfl := h1.unique h1'
  exact h2.unique h2'

/-- The blocks of a list make their two passes one after another, each on what the ones before it
have left. -/
inductive InTurn (program : Image UInt16) (dim : UInt8) :
    List Assignment → Image UInt8 → Image UInt8 → Prop
  | nil (m : Image UInt8) : InTurn program dim [] m m
  | cons {b : Assignment} {bs : List Assignment} {m mid m' : Image UInt8} :
      b.FinishesTwice program dim m mid → InTurn program dim bs mid m' →
      InTurn program dim (b :: bs) m m'

theorem InTurn.snoc {bs : List Assignment} {mid : Image UInt8} (h : InTurn program dim bs m mid)
    (hb : b.FinishesTwice program dim mid m') : InTurn program dim (bs ++ [b]) m m' := by
  induction h with
  | nil => exact .cons hb (.nil _)
  | cons h _ ih => exact .cons h (ih hb)

theorem InTurn.unique {bs : List Assignment} (h : InTurn program dim bs m m') {m'' : Image UInt8}
    (h' : InTurn program dim bs m m'') : m' = m'' := by
  induction h with
  | nil =>
    cases h'
    rfl
  | cons hb _ ih =>
    cases h' with
    | cons hb' h' =>
      obtain rfl := hb.unique hb'
      exact ih h'

end Assignment

end SimtMachine
