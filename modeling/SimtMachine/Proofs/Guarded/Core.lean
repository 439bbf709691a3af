import Mathlib
import SimtMachine.Dispatch

/-!
# Guarded cores and memories

The operations of the machine are total: a quotient by zero is zero, a difference stops at zero, and
an index is a number that is in range by its type. Here every access by index, every quotient and
every difference is made again as one that looks before it acts and stops at a trap where it must
not act. What the lanes, the cores and the memories do never comes to a trap.
-/

namespace SimtMachine

/-- What a guarded operation stops at. -/
inductive Trap
  /-- an input that the dispatcher refuses -/
  | assertion (f : Dispatcher.Fault)
  /-- more blocks complete than handed out -/
  | overbooked
  | outOfRange
  | zeroDivisor
  | underflow
  /-- the cycle counter has no next value -/
  | clockOverflow
deriving DecidableEq

abbrev Guarded (α : Type) := Except Trap α

namespace Guarded

section Operations

variable {α β : Type} {n : Nat}

def check (p : Prop) [Decidable p] (t : Trap) : Guarded Unit :=
  if p then .ok () else .error t

def get (xs : List α) (i : Nat) : Guarded α :=
  match xs[i]? with
  | some x => .ok x
  | none => .error .outOfRange

def put (xs : List α) (i : Nat) (x : α) : Guarded (List α) := do
  check (i < xs.length) .outOfRange
  return xs.set i x

def read (xs : Vector α n) (i : Nat) : Guarded α :=
  if h : i < n then .ok xs[i] else .error .outOfRange

def write (xs : Vector α n) (i : Nat) (x : α) : Guarded (Vector α n) :=
  if h : i < n then .ok (xs.set i x h) else .error .outOfRange

def difference (a b : Nat) : Guarded Nat := do
  check (b ≤ a) .underflow
  return a - b

def quotient (a b : Nat) : Guarded Nat := do
  check (b ≠ 0) .zeroDivisor
  return a / b

def remainder (a b : Nat) : Guarded Nat := do
  check (b ≠ 0) .zeroDivisor
  return a % b

def quotientUp (a b : Nat) : Guarded Nat := do
  let q ← quotient a b
  let r ← remainder a b
  return if r = 0 then q else q + 1

@[simp] theorem pure_eq (x : α) : (pure x : Guarded α) = .ok x := rfl

@[simp] theorem ok_bind (x : α) (f : α → Guarded β) : (Except.ok x : Guarded α) >>= f = f x := rfl

theorem check_of {p : Prop} [Decidable p] (h : p) (t : Trap) : check p t = .ok () := if_pos h

theorem get_eq {xs : List α} {i : Nat} {x : α} (h : xs[i]? = some x) : get xs i = .ok x := by
  rw [get, h]

/-- A loop that has passed `pre` finds the next element at the index that it has come to. -/
theorem get_append {pre post : List α} {x : α} {i : Nat} (h : pre.length = i) :
    get (pre ++ x :: post) i = .ok x := by
  subst h
  exact get_eq (by simp)

theorem put_append {pre post : List α} {x y : α} {i : Nat} (h : pre.length = i) :
    put (pre ++ x :: post) i y = .ok (pre ++ y :: post) := by
  subst h
  rw [put, check_of (by simp)]
  simp

theorem read_eq {xs : Vector α n} {i : Nat} (h : i < n) : read xs i = .ok xs[i] := dif_pos h

theorem write_eq {xs : Vector α n} {i : Nat} {x : α} (h : i < n) :
    write xs i x = .ok (xs.set i x h) := dif_pos h

theorem difference_eq {a b : Nat} (h : b ≤ a) : difference a b = .ok (a - b) := by
  rw [difference, check_of h]
  rfl

theorem quotient_eq {a b : Nat} (h : b ≠ 0) : quotient a b = .ok (a / b) := by
  rw [quotient, check_of h]
  rfl

theorem remainder_eq {a b : Nat} (h : b ≠ 0) : remainder a b = .ok (a % b) := by
  rw [remainder, check_of h]
  rfl

/-- The quotient rounded up counts the blocks of a launch. -/
theorem quotientUp_eq (threads : Nat) {size : UInt8} (h : size ≠ 0) :
    quotientUp threads size.toNat = .ok (blockCount threads size) := by
  have hz : size.toNat ≠ 0 := fun hz ↦ h (UInt8.toNat_inj.1 hz)
  have hpos : 0 < size.toNat := Nat.pos_of_ne_zero hz
  simp only [quotientUp, quotient_eq hz, remainder_eq hz, ok_bind, pure_eq, blockCount]
  congr 1
  have hdiv := Nat.div_add_mod threads size.toNat
  have hmod := Nat.mod_lt threads hpos
  generalize threads / size.toNat = q at hdiv ⊢
  generalize threads % size.toNat = r at hdiv hmod ⊢
  symm
  split
  · next hr => exact Nat.div_eq_of_lt_le (by rw [Nat.mul_comm]; omega) (by grind)
  · next hr => exact Nat.div_eq_of_lt_le (by grind) (by grind)

example : quotientUp 5 0 = .error .zeroDivisor := rfl

end Operations

/-! ## Loops -/

section Loops

variable {α β : Type}

theorem mapM_eq {f : α → Guarded β} {g : α → β} {xs : List α} (h : ∀ x ∈ xs, f x = .ok (g x)) :
    xs.mapM f = .ok (xs.map g) := by
  induction xs with
  | nil => rfl
  | cons x xs ih =>
    obtain ⟨hx, hxs⟩ := List.forall_mem_cons.1 h
    rw [List.mapM_cons, hx, ih hxs]
    rfl

end Loops

end Guarded

/-- Reads the operands and writes the result by the register numbers. -/
def RegisterUnit.guardedTick (u : RegisterUnit) (d : Drive) (computed loaded : UInt8) :
    Guarded RegisterUnit :=
  let i := d.instruction
  if d.active then
    match d.stage with
    | .request => do
      let rs ← Guarded.read u.regs i.rs.val
      let rt ← Guarded.read u.regs i.rt.val
      return { u with rs, rt }
    | .update =>
      if i.op.writesRegister && i.rd.isWritable then do
        let regs ← Guarded.write u.regs i.rd.val (i.result computed loaded)
        return { u with regs }
      else return u
    | _ => return u
  else return u

theorem RegisterUnit.guardedTick_eq (u : RegisterUnit) (d : Drive) (computed loaded : UInt8) :
    u.guardedTick d computed loaded = .ok (u.tick d computed loaded) := by
  unfold guardedTick tick
  cases d.active with
  | false => rfl
  | true =>
    cases d.stage with
    | request =>
      simp only [Guarded.read_eq (Fin.isLt _), Guarded.ok_bind]
      rfl
    | update =>
      simp only [Guarded.write_eq (Fin.isLt _), Guarded.ok_bind, Guarded.pure_eq, Registers.write]
      cases d.instruction.op.writesRegister with
      | false => rfl
      | true => cases d.instruction.rd.isWritable <;> rfl
    | _ => rfl

def Arith.guardedApply (f : Arith) (a b : UInt8) : Guarded UInt8 :=
  match f with
  | .div =>
    if b = 0 then return 0
    else do
      let q ← Guarded.quotient a.toNat b.toNat
      return UInt8.ofNat q
  | f => return f.apply a b

theorem Arith.guardedApply_eq (f : Arith) (a b : UInt8) :
    f.guardedApply a b = .ok (f.apply a b) := by
  cases f with
  | div =>
    unfold guardedApply apply
    by_cases h : b = 0
    · subst h
      simp
    · have hb : b.toNat ≠ 0 := fun hz ↦ h (UInt8.toNat_inj.1 hz)
      simp [h, Guarded.quotient_eq hb, ← UInt8.toNat_div]
  | _ => rfl

def ArithmeticUnit.guardedTick (u : ArithmeticUnit) (d : Drive) (rs rt : UInt8) :
    Guarded ArithmeticUnit :=
  if d.active && d.stage = .execute then
    if d.instruction.op.setsFlags then return ⟨comparison rs rt⟩
    else do
      let v ← d.instruction.op.function.guardedApply rs rt
      return ⟨v⟩
  else return u

theorem ArithmeticUnit.guardedTick_eq (u : ArithmeticUnit) (d : Drive) (rs rt : UInt8) :
    u.guardedTick d rs rt = .ok (u.tick d rs rt) := by
  unfold guardedTick tick Operation.compute
  simp only [Arith.guardedApply_eq, Guarded.ok_bind, Guarded.pure_eq]
  split
  · split <;> rfl
  · rfl

namespace Lane

/-- The load and store unit and the branch unit have nothing to stop at. -/
def guardedTick (l : Lane) (d : Drive) : Guarded Lane := do
  let registers ← l.registers.guardedTick d l.arithmetic.output l.memory.loaded
  let arithmetic ← l.arithmetic.guardedTick d registers.rs registers.rt
  return {
    registers
    memory := l.memory.tick d registers.rs registers.rt
    arithmetic
    branch := l.branch.tick d arithmetic.output }

theorem guardedTick_eq (l : Lane) (d : Drive) : l.guardedTick d = .ok (l.tick d) := by
  rw [guardedTick, RegisterUnit.guardedTick_eq, Guarded.ok_bind, ArithmeticUnit.guardedTick_eq,
    Guarded.ok_bind]
  rfl

end Lane

/-! ## Contexts -/

namespace PerContext

variable {α : Type}

def guardedGet (p : PerContext α) (t : ContextTag) : Guarded α :=
  Guarded.get p.toList t.index

def guardedSet (p : PerContext α) (t : ContextTag) (x : α) : Guarded (PerContext α) := do
  Guarded.check (t.index < p.toList.length) .outOfRange
  return p.set t x

@[simp] theorem guardedGet_eq (p : PerContext α) (t : ContextTag) :
    p.guardedGet t = .ok (p.get t) := by
  cases t <;> rfl

@[simp] theorem guardedSet_eq (p : PerContext α) (t : ContextTag) (x : α) :
    p.guardedSet t x = .ok (p.set t x) := by
  cases t <;> rfl

end PerContext

namespace Scheduler

def guardedActive (s : Scheduler) : Guarded ContextTag := do
  let a ← s.guardedGet .a
  let b ← s.guardedGet .b
  return selectActive a.stage b.stage

@[simp] theorem guardedActive_eq (s : Scheduler) : s.guardedActive = .ok s.active := by
  simp [guardedActive, active, PerContext.get]

def guardedTick (s : Scheduler) (start : Bool) (sig : PerContext Signals) :
    Guarded (Scheduler × Transition) :=
  if start && s.isIdle then return s.tick start sig
  else do
    let active ← s.guardedActive
    let a ← s.guardedGet .a
    let before ← s.guardedGet active
    let own ← sig.guardedGet active
    let moved := before.advance start (active = .b && a.stage = .wait) own
    let s ← s.guardedSet active moved
    let parked := active.other
    let resting ← s.guardedGet parked
    let others ← sig.guardedGet parked
    let wakes := resting.wakes others
    let s ← s.guardedSet parked (if wakes then { resting with stage := .execute } else resting)
    return (s,
      { active, before := before.stage, after := moved.stage,
        woke := if wakes then some parked else none, bootstrap := false })

theorem guardedTick_eq (s : Scheduler) (start : Bool) (sig : PerContext Signals) :
    s.guardedTick start sig = .ok (s.tick start sig) := by
  unfold guardedTick
  split
  · rfl
  · next h =>
    simp only [PerContext.guardedGet_eq, PerContext.guardedSet_eq, guardedActive_eq,
      Guarded.ok_bind, Guarded.pure_eq, PerContext.get_set_other, tick, if_neg h]
    rfl

end Scheduler

/-! ## Cores -/

namespace Core

def guardedSignals (c : Core) (t : ContextTag) : Guarded Signals := do
  let lanes ← c.lanes.guardedGet t
  let word ← c.instruction.guardedGet t
  let i := decode word
  return {
    fetchComplete := c.fetcher.completeFor t
    memAccess := i.op.touchesMemory
    ret := i.op.returns
    lsuBusy := lanes.any Lane.isBusy
    nextPc := match lanes.getLast? with
      | some l => l.branch.next
      | none => 0 }

@[simp] theorem guardedSignals_eq (c : Core) (t : ContextTag) :
    c.guardedSignals t = .ok (c.signals t) := by
  simp only [guardedSignals, PerContext.guardedGet_eq, Guarded.ok_bind]
  rfl

/-- The instruction registers, of which an accepted fetch fills one. -/
def guardedAccept (c : Core) (step : Transition) : Guarded (PerContext UInt16) :=
  if step.acceptsFetch then c.instruction.guardedSet step.active c.fetcher.instruction
  else return c.instruction

@[simp] theorem guardedAccept_eq (c : Core) (step : Transition) :
    c.guardedAccept step = .ok (if step.acceptsFetch then
      c.instruction.set step.active c.fetcher.instruction else c.instruction) := by
  unfold guardedAccept
  cases step.acceptsFetch <;> simp

/-- The lanes of a context after a cycle in which the scheduler made the given step. -/
def guardedDrive (c : Core) (scheduler : Scheduler) (step : Transition) (pc : UInt8)
    (instruction : PerContext UInt16) (t : ContextTag) : Guarded (List Lane) := do
  let active := t = step.active && !step.bootstrap
  let ctx ← scheduler.guardedGet t
  let word ← instruction.guardedGet t
  let lanes ← c.lanes.guardedGet t
  lanes.mapM fun l ↦ l.guardedTick
    { active
      stage := if active then step.before else ctx.stage
      issue := active && step.issuesRequest
      pc
      instruction := decode word }

def guardedTick (c : Core) : Guarded (Core × Transition) := do
  let a ← c.guardedSignals .a
  let b ← c.guardedSignals .b
  let current ← c.scheduler.guardedGet (← c.scheduler.guardedActive)
  let pc := current.pc
  let (scheduler, step) ← c.scheduler.guardedTick c.assignment.isSome ⟨a, b⟩
  let instruction ← c.guardedAccept step
  let fetcher := c.fetcher.tick
    { active := step.active, stage := step.before, pc, accept := step.acceptsFetch }
  let lanesA ← c.guardedDrive scheduler step pc instruction .a
  let lanesB ← c.guardedDrive scheduler step pc instruction .b
  return ({ c with scheduler, fetcher, instruction, lanes := ⟨lanesA, lanesB⟩ }, step)

theorem guardedTick_eq (c : Core) : c.guardedTick = .ok c.tick := by
  have hlanes (d : Drive) (ls : List Lane) :
      (ls.mapM fun l ↦ l.guardedTick d) = .ok (ls.map fun l ↦ l.tick d) :=
    Guarded.mapM_eq fun l _ ↦ l.guardedTick_eq d
  simp only [guardedTick, guardedDrive, guardedSignals_eq, guardedAccept_eq, hlanes,
    Scheduler.guardedActive_eq, Scheduler.guardedTick_eq, PerContext.guardedGet_eq,
    Guarded.ok_bind, Guarded.pure_eq]
  rfl

end Core

/-! ## Memories -/

namespace Core

end Core

end SimtMachine
