import SimtMachine.Memory.Port
import SimtMachine.Sweep

/-!
# Service

A memory answers requests only on the cycles that are multiples of its interval, and then at most
one request per channel. It looks at the ports in a fixed order, so the first ports have priority.
-/

namespace SimtMachine

/-- A memory in the middle of a service cycle. -/
structure Pass (α : Type) where
  cells : Image α
  /-- channels not yet used in this cycle -/
  free : Nat

/-- Serves the request pending at a port, if there is one and a channel is free. -/
def Pass.visit {α : Type} (s : Pass α) (p : Port α) : Pass α × Port α :=
  match p.pending, s.free with
  | some r, free + 1 => (⟨r.apply s.cells, free⟩, ⟨none, some (r.answer s.cells)⟩)
  | _, _ => (s, p)

/-- A memory of 256 cells. -/
@[ext]
structure Memory (α : Type) where
  cells : Image α
  /-- most requests served in a cycle -/
  channels : Nat
  /-- cycles from one service to the next -/
  interval : Nat
  channels_pos : 0 < channels
  interval_pos : 0 < interval

namespace Memory

variable {α β : Type}

inductive Defect
  | tooManyWords (count : Nat)
  | noChannel
  | noInterval
deriving DecidableEq

def Defect.message (name : String) : Defect → String
  | tooManyWords n =>
      name ++ " memory: " ++ toString n ++ " words do not fit in " ++ toString addressSpace ++
        " cells"
  | noChannel => name ++ " memory needs at least one channel"
  | noInterval => name ++ " memory: service interval must be positive"

/-- A memory that starts with the given words and holds zero in the other cells. -/
def create [Inhabited α] (init : Array α) (channels interval : Nat) :
    Except Defect (Memory α) :=
  if init.size > addressSpace then .error (.tooManyWords init.size)
  else if hc : channels = 0 then .error .noChannel
  else if hi : interval = 0 then .error .noInterval
  else .ok ⟨Image.ofArray init, channels, interval, Nat.pos_of_ne_zero hc, Nat.pos_of_ne_zero hi⟩

theorem cells_of_create [Inhabited α] {init : Array α} {channels interval : Nat} {m : Memory α}
    (h : create init channels interval = .ok m) : m.cells = Image.ofArray init := by
  unfold create at h
  split at h
  · simp at h
  · split at h
    · simp at h
    · split at h
      · simp at h
      · rw [← Except.ok.inj h]

theorem size_le_of_create [Inhabited α] {init : Array α} {channels interval : Nat} {m : Memory α}
    (h : create init channels interval = .ok m) : init.size ≤ addressSpace := by
  unfold create at h
  split at h
  · simp at h
  · next hs => exact Nat.le_of_not_lt hs

/-- Whether the memory serves requests on this cycle. -/
def servesAt (m : Memory α) (cycle : Nat) : Bool :=
  cycle % m.interval == 0

/-- One cycle of service of the ports that `visitAll` reaches within a component: the memory and
the component afterwards, and how many requests were served. -/
def serviceWith (m : Memory α) (cycle : Nat) (visitAll : Pass α → β → Pass α × β) (x : β) :
    Memory α × β × Nat :=
  if m.servesAt cycle then
    let (s, x) := visitAll ⟨m.cells, m.channels⟩ x
    ({ m with cells := s.cells }, x, m.channels - s.free)
  else
    (m, x, 0)

/-- A cycle of service visits all ports or none. -/
theorem serviceWith_cases {motive : Image α → β → Prop} {m : Memory α}
    {visitAll : Pass α → β → Pass α × β} {x : β} (cycle : Nat) (hrest : motive m.cells x)
    (hserve : motive (visitAll ⟨m.cells, m.channels⟩ x).1.cells
      (visitAll ⟨m.cells, m.channels⟩ x).2) :
    motive (m.serviceWith cycle visitAll x).1.cells (m.serviceWith cycle visitAll x).2.1 := by
  unfold serviceWith
  split
  · exact hserve
  · exact hrest

/-- Service of a component that asks for nothing changes nothing. -/
theorem serviceWith_of_keep {m : Memory α} {visitAll : Pass α → β → Pass α × β} {x : β}
    (h : ∀ s, visitAll s x = (s, x)) (cycle : Nat) :
    ∃ served, m.serviceWith cycle visitAll x = (m, x, served) := by
  unfold serviceWith
  split
  · exact ⟨_, by rw [h]⟩
  · exact ⟨0, rfl⟩

/-- One cycle of service of a list of ports. -/
def service (m : Memory α) (cycle : Nat) (ports : List (Port α)) :
    Memory α × List (Port α) × Nat :=
  m.serviceWith cycle (sweep Pass.visit) ports

end Memory

end SimtMachine
