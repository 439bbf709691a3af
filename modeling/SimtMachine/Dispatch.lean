import SimtMachine.Core.Basic
import SimtMachine.Sweep

/-!
# Dispatcher

A launch of a number of threads is cut into blocks of equal size, but for the last, which takes the
rest. The dispatcher hands the blocks to the cores, the highest block first, gives a core its next
block after the core has reported the last one complete, and is done once every block is complete.
-/

namespace SimtMachine

/-- Most blocks of a launch. -/
abbrev maxBlocks : Nat := 64

/-- Number of blocks of the given size, at least one thread each, that hold all threads. -/
def blockCount (threads : Nat) (size : UInt8) : Nat :=
  (threads + size.toNat - 1) / size.toNat

/-- The number of blocks, where blocks without threads are refused. -/
def blockCount? (threads : Nat) (size : UInt8) : Option Nat :=
  if size = 0 then none else some (blockCount threads size)

/-- The blocks that have been handed out. -/
abbrev BlockMask := Vector Bool maxBlocks

/-- What the dispatcher knows about one core. -/
structure Slot where
  /-- the core works on a block -/
  busy : Bool
  /-- the core is held in reset and may get a block -/
  awaiting : Bool
  /-- the last block that the core was given -/
  assignment : Option Assignment
deriving DecidableEq

/-- A core that has not been given a block. -/
def Slot.unused : Slot := ⟨false, false, none⟩

/-- The inputs of the dispatcher in one cycle. -/
structure DispatchInput where
  start : Bool
  threads : Nat
  /-- for each core, whether it reports its block complete -/
  coreDone : List Bool

/-- What the dispatcher tells one core in one cycle. -/
structure Order where
  reset : Bool
  /-- the block that the core begins -/
  start : Option Assignment
  /-- the block that the core has completed -/
  completed : Option Assignment
deriving DecidableEq

/-- The state of the dispatcher. -/
structure Dispatcher where
  blockSize : UInt8
  threads : Nat
  blocks : Nat
  mask : BlockMask
  dispatchedCount : Nat
  completedCount : Nat
  slots : List Slot
  launched : Bool
  done : Bool

namespace Dispatcher

inductive Fault
  | emptyBlocks
  | doneLines
  | capacity (blocks : Nat)
deriving DecidableEq

def Fault.message : Fault → String
  | emptyBlocks => "block size must be positive"
  | doneLines => "one done line per core"
  | capacity n =>
      toString n ++ " blocks exceed the dispatcher capacity of " ++ toString maxBlocks

/-- A dispatcher for the given number of cores before its first launch. -/
def initial (cores : Nat) (blockSize : UInt8) : Dispatcher where
  blockSize := blockSize
  threads := 0
  blocks := 0
  mask := Vector.replicate maxBlocks false
  dispatchedCount := 0
  completedCount := 0
  slots := List.replicate cores .unused
  launched := false
  done := false

def create (cores : Nat) (blockSize : UInt8) : Except Fault Dispatcher :=
  if blockSize = 0 then .error .emptyBlocks else .ok (initial cores blockSize)

def threadsOf (d : Dispatcher) (block : Nat) : UInt8 :=
  if block + 1 = d.blocks then UInt8.ofNat (d.threads - block * d.blockSize.toNat)
  else d.blockSize

def hasDispatched (d : Dispatcher) (id : Fin maxBlocks) : Bool :=
  d.mask[id]

/-- The blocks handed out so far, in ascending order. -/
def dispatched (d : Dispatcher) : List (Fin maxBlocks) :=
  (List.finRange maxBlocks).filter d.hasDispatched

/-- The highest block not yet handed out. -/
def pick (d : Dispatcher) : Option (Fin maxBlocks) :=
  (List.finRange maxBlocks).reverse.find? fun id ↦ id < d.blocks && !d.hasDispatched id

/-- Offers a block to a core. A core that awaits one leaves reset, with the highest block left if
there is any. -/
def offer (d : Dispatcher) (s : Slot) : Dispatcher × Slot × Option Assignment :=
  if s.awaiting then
    match d.pick with
    | none => (d, { s with awaiting := false }, none)
    | some id =>
      let b : Assignment := ⟨UInt8.ofNat id, d.threadsOf id⟩
      ({ d with mask := d.mask.set id.val true id.isLt, dispatchedCount := d.dispatchedCount + 1 },
        { busy := true, awaiting := false, assignment := some b }, some b)
  else (d, s, none)

/-- One core's turn in a cycle of a launch under way. A core that was busy before the cycle and
reports its block complete awaits the next one. -/
def visit (d : Dispatcher) (turn : Slot × Bool) : Dispatcher × Slot × Order :=
  let (s, coreDone) := turn
  let (d, offered, start) := d.offer s
  if s.busy && coreDone then
    ({ d with completedCount := d.completedCount + 1 },
      { offered with busy := false, awaiting := true }, ⟨true, start, s.assignment⟩)
  else (d, offered, ⟨offered.awaiting, start, none⟩)

/-- The dispatcher at the launch of a kernel: every core is held in reset. -/
def launch (d : Dispatcher) (threads : Nat) : Dispatcher :=
  { d with
    threads
    blocks := blockCount threads d.blockSize
    launched := true
    slots := d.slots.map fun s ↦ { s with awaiting := true } }

def proceed (d : Dispatcher) (coreDone : List Bool) : Dispatcher × List Order :=
  let (d', turns) := sweep visit d (d.slots.zip coreDone)
  ({ d' with slots := turns.map Prod.fst }, turns.map Prod.snd)

/-- A cycle in which no block is handed out or completed. -/
def hold (d : Dispatcher) : Dispatcher × List Order :=
  (d, d.slots.map fun s ↦ ⟨s.awaiting, none, none⟩)

/-- The dispatcher is done as soon as a launch has no incomplete block. -/
def latch (d : Dispatcher) : Dispatcher :=
  if d.launched && d.completedCount ≥ d.blocks then { d with done := true, launched := false }
  else d

/-- Whether a cycle with a raised start line launches a kernel: the line is ignored during a launch
and after it. -/
def accepts (d : Dispatcher) (start : Bool) : Bool :=
  start && !d.launched && !d.done

/-- The inputs that the dispatcher refuses: a number of done lines that is not the number of cores,
or a launch of more blocks than it can book. -/
def check (d : Dispatcher) (i : DispatchInput) : Except Fault Unit :=
  if i.coreDone.length ≠ d.slots.length then .error .doneLines
  else if d.accepts i.start && blockCount i.threads d.blockSize > maxBlocks then
    .error (.capacity (blockCount i.threads d.blockSize))
  else .ok ()

/-- One clock cycle on inputs that are not refused, with an order for each core. -/
def advance (d : Dispatcher) (i : DispatchInput) : Dispatcher × List Order :=
  let (d, orders) :=
    if d.accepts i.start then (d.launch i.threads).hold
    else if d.launched then d.proceed i.coreDone
    else d.hold
  (d.latch, orders)

def tick (d : Dispatcher) (i : DispatchInput) : Except Fault (Dispatcher × List Order) :=
  (d.check i).map fun _ ↦ d.advance i

end Dispatcher

end SimtMachine
