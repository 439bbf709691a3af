import SimtMachine.Memory.Image

/-!
# Ports

A requester and a memory meet at a port: the requester places a request and waits until the memory
has put the answer there. A port holds at most one request and at most one answer.
-/

namespace SimtMachine

/-- What a requester asks of a memory. -/
inductive Request (α : Type)
  | read (addr : UInt8)
  | write (addr : UInt8) (data : α)
deriving DecidableEq

namespace Request

variable {α : Type}

def addr : Request α → UInt8
  | read a | write a _ => a

/-- The content of the memory after the request. -/
def apply (m : Image α) : Request α → Image α
  | read _ => m
  | write a v => m.write a v

/-- The answer to the request: the cell read, or the data written. -/
def answer (m : Image α) : Request α → α
  | read a => m.read a
  | write _ v => v

end Request

/-- One requester's side of the handshake with a memory. -/
structure Port (α : Type) where
  pending : Option (Request α)
  ready : Option α
deriving DecidableEq

namespace Port

variable {α : Type}

def quiet : Port α := ⟨none, none⟩

instance : Inhabited (Port α) := ⟨quiet⟩

/-- Places a request. An answer that nobody took is dropped, and so is an unserved request. -/
def issue (r : Request α) : Port α := ⟨some r, none⟩

/-- The port after memory has answered its request. -/
def answered (v : α) : Port α := ⟨none, some v⟩

def isPending (p : Port α) : Bool := p.pending.isSome

/-- The port after its answer, if any, was taken. -/
def taken (p : Port α) : Port α := { p with ready := none }

end Port

end SimtMachine
