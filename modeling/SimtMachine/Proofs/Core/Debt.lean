import Mathlib.Algebra.GroupWithZero.Nat
import Mathlib.Algebra.Order.BigOperators.Group.List
import Mathlib.Algebra.Order.Group.Nat
import SimtMachine.Proofs.Core.TwoPasses

/-!
# What a strand still owes

What is left of a pass is counted in units: one for each stage of an instruction, and up to four for
the handshake of each lane. A cycle of the strand takes something off unless the strand is stuck,
and so does every answer of data memory. Between two instructions a strand saves enough to pay for
the next fetch.
-/

namespace SimtMachine

open SimtMachine.Core (wordOf)

/-! ## Passes with a known length -/

namespace Lockstep

variable {program : Image UInt16} {s s' : Lockstep} {m : Image UInt8} {k : Nat}

/-- The block reaches a return after `k` instructions and leaves the memory `m` behind. -/
inductive FinishesIn (program : Image UInt16) : Nat → Lockstep → Image UInt8 → Prop
  | ret {s : Lockstep} : s.step program = none → FinishesIn program 0 s s.memory
  | next {k : Nat} {s s' : Lockstep} {m : Image UInt8} :
      s.step program = some s' → FinishesIn program k s' m → FinishesIn program (k + 1) s m

theorem Finishes.exists_finishesIn (h : Finishes program s m) : ∃ k, FinishesIn program k s m := by
  induction h with
  | ret hs => exact ⟨0, .ret hs⟩
  | next hs _ ih =>
    obtain ⟨k, ih⟩ := ih
    exact ⟨k + 1, .next hs ih⟩

theorem FinishesIn.of_step_eq_none (h : FinishesIn program k s m) (hs : s.step program = none) :
    k = 0 ∧ m = s.memory := by
  cases h with
  | ret => exact ⟨rfl, rfl⟩
  | next hs' => exact nomatch hs.symm.trans hs'

theorem FinishesIn.of_step_eq_some (h : FinishesIn program k s m)
    (hs : s.step program = some s') : ∃ j, k = j + 1 ∧ FinishesIn program j s' m := by
  cases h with
  | ret hs' => exact nomatch hs.symm.trans hs'
  | next hs' h =>
    obtain rfl := Option.some.inj (hs.symm.trans hs')
    exact ⟨_, rfl, h⟩

end Lockstep

/-! ## Lanes -/

def LoadStorePhase.debt : LoadStorePhase → Nat
  | requesting => 2
  | waiting => 1
  | idle | done => 0

namespace Lane

variable {l : Lane} {touches : Bool} {stage : Stage}

/-- What is left of the handshake of a lane. -/
def debt (l : Lane) : Nat :=
  l.memory.phase.debt + if l.port.isPending then 2 else 0

theorem debt_le_four (l : Lane) : l.debt ≤ 4 := by
  unfold debt
  cases l.memory.phase <;> simp only [LoadStorePhase.debt] <;> split <;> omega

theorem isPending_listen (l : Lane) : l.listen.port.isPending = l.port.isPending := by
  cases hp : l.memory.phase with
  | idle | done => rw [listen_of_not_busy (by simp [isBusy, hp, LoadStorePhase.isBusy])]
  | requesting => simp [listen, LoadStoreUnit.listen, hp, port]
  | waiting =>
    cases hr : l.memory.port.ready <;>
      simp [listen, LoadStoreUnit.listen, hp, hr, port, Port.taken, Port.isPending]

/-- A lane whose request has been answered goes on in every cycle. -/
theorem debt_listen_lt (h : l.Fits touches stage) (hb : l.isBusy = true)
    (hp : l.port.isPending = false) : l.listen.debt < l.debt := by
  have hm : l.memory.phase.isBusy = true := hb
  rw [debt, debt, isPending_listen, Nat.add_lt_add_iff_right]
  cases hph : l.memory.phase with
  | idle | done => simp [hph, LoadStorePhase.isBusy] at hm
  | requesting => simp [listen, LoadStoreUnit.listen, hph, LoadStorePhase.debt]
  | waiting =>
    have hq := h.port
    rw [LoadStoreUnit.PortFits, if_pos hm] at hq
    obtain ⟨v, hv⟩ : ∃ v, l.memory.port.ready = some v := by
      apply Option.ne_none_iff_exists'.1
      intro hn
      simp_all [port, Port.isPending]
    simp [listen, LoadStoreUnit.listen, hph, hv, LoadStorePhase.debt]

theorem debt_listen_le (l : Lane) : l.listen.debt ≤ l.debt := by
  rw [debt, debt, isPending_listen, Nat.add_le_add_iff_right]
  cases hp : l.memory.phase with
  | idle | done => rw [listen_of_not_busy (by simp [isBusy, hp, LoadStorePhase.isBusy]), hp]
  | requesting => simp [listen, LoadStoreUnit.listen, hp, LoadStorePhase.debt]
  | waiting =>
    cases hr : l.memory.port.ready <;>
      simp [listen, LoadStoreUnit.listen, hp, hr, LoadStorePhase.debt]

theorem debt_answered_lt {r : Request UInt8} (v : UInt8) (hr : l.port.pending = some r) :
    (l.answered v).debt < l.debt := by
  have hq : (l.answered v).debt = l.memory.phase.debt := rfl
  rw [hq, debt, Port.isPending, hr]
  exact Nat.lt_add_of_pos_right Nat.two_pos

end Lane

theorem sum_debt_listen_le (ls : List Lane) :
    ((ls.map Lane.listen).map Lane.debt).sum ≤ (ls.map Lane.debt).sum := by
  rw [List.map_map]
  exact List.sum_le_sum fun l _ ↦ l.debt_listen_le

theorem sum_debt_le (ls : List Lane) : (ls.map Lane.debt).sum ≤ 4 * ls.length := by
  induction ls with
  | nil => exact Nat.zero_le _
  | cons l ls ih =>
    have hl := l.debt_le_four
    rw [List.map_cons, List.sum_cons, List.length_cons]
    omega

/-! ## Strands -/

namespace Strand

variable {program : Image UInt16} {q : Lockstep} {s s' : Strand} {m fin : Image UInt8}
  {held : Bool} {fetched : Option UInt16} {r : Nat}

/-- What is left of the instruction of a strand, apart from its fetch. -/
def debt (s : Strand) : Nat :=
  match s.context.stage with
  | .idle => 15 + 4 * s.lanes.length
  | .fetch => 6 + 4 * s.lanes.length
  | .decode => 5 + 4 * s.lanes.length
  | .request => 4 + 4 * s.lanes.length
  | .wait => 3 + (s.lanes.map Lane.debt).sum
  | .execute => 2
  | .update => 1
  | .done => 0

/-- What an instruction costs that has not begun. -/
def price (s : Strand) : Nat := 14 + 4 * s.lanes.length

/-- The strand has come to where the block is, which needs some more instructions and then leaves
`fin` behind. -/
def Owes (program : Image UInt16) (fin : Image UInt8) (s : Strand) (m : Image UInt8) (r : Nat) :
    Prop :=
  ∃ q k, s.Tracks program q m ∧ Lockstep.FinishesIn program k q fin ∧ r = s.price * k + s.debt

/-- Why a cycle may leave the active strand where it is. -/
inductive Stuck (held : Bool) (fetched : Option UInt16) (s : Strand) : Prop
  | starved : s.context.stage = .fetch → fetched = none → Stuck held fetched s
  | held : s.context.stage = .request → held = true → Stuck held fetched s
  | asked {l : Lane} : l ∈ s.lanes → l.port.isPending = true → Stuck held fetched s
  | done : s.context.stage = .done → Stuck held fetched s

/-- A waiting strand whose requests have all been answered goes on, whether or not it is active. -/
theorem Fits.sum_debt_listen_lt (h : s.Fits) (hb : s.isBusy = true)
    (hp : ∀ l ∈ s.lanes, l.port.isPending = false) :
    ((s.lanes.map Lane.listen).map Lane.debt).sum < (s.lanes.map Lane.debt).sum := by
  obtain ⟨l, hl, hlb⟩ := List.any_eq_true.1 hb
  rw [List.map_map]
  exact List.sum_lt_sum _ _ (fun l _ ↦ l.debt_listen_le)
    ⟨l, hl, Lane.debt_listen_lt (h.lane l hl) hlb (hp l hl)⟩

theorem Advances.length_lanes (h : s.Advances held fetched s') :
    s'.lanes.length = s.lanes.length := by
  cases h <;> simp

theorem Rests.length_lanes (h : s.Rests s') : s'.lanes.length = s.lanes.length := by
  cases h <;> simp

/-- A cycle of the active strand, in units: it goes on to its next instruction, it gets on with the
one that it has, or it is stuck. -/
theorem Advances.debt (h : s.Advances held fetched s') (hs : s.Fits) :
    s.Proceeds s' ∧ s.debt = 1 ∧ s'.debt = 6 + 4 * s.lanes.length ∨
      s'.debt < s.debt ∧ s'.context.stage ≠ .fetch ∨
      s'.debt ≤ s.debt ∧ s'.context = s.context ∧ s.Stuck held fetched := by
  cases h with
  | starve hst hf => exact .inr (.inr ⟨Nat.le_refl _, rfl, .starved hst hf⟩)
  | take hst | decode hst | execute hst | finish hst =>
    exact .inr (.inl ⟨by simp [Strand.debt, hst], by simp⟩)
  | stall hst hh => exact .inr (.inr ⟨by simp [Strand.debt, hst], rfl, .held hst hh⟩)
  | issue hst =>
    have hle := sum_debt_le (s.lanes.map (Lane.issue s.instruction))
    rw [List.length_map] at hle
    refine .inr (.inl ⟨?_, by simp⟩)
    simp only [Strand.debt, hst]
    omega
  | await hst hb =>
    by_cases hp : ∃ l ∈ s.lanes, l.port.isPending = true
    · obtain ⟨l, hl, hp⟩ := hp
      refine .inr (.inr ⟨?_, rfl, .asked hl hp⟩)
      simpa only [Strand.debt, hst, Nat.add_le_add_iff_left] using sum_debt_listen_le s.lanes
    · have hp : ∀ l ∈ s.lanes, l.port.isPending = false := by simpa using hp
      refine .inr (.inl ⟨?_, by simp [hst]⟩)
      simpa only [Strand.debt, hst, Nat.add_lt_add_iff_left] using hs.sum_debt_listen_lt hb hp
  | resume hst =>
    refine .inr (.inl ⟨?_, by simp⟩)
    simp only [Strand.debt, hst]
    omega
  | retire hst => exact .inl ⟨⟨hst, rfl⟩, by simp [Strand.debt, hst], by simp [Strand.debt]⟩
  | done hst => exact .inr (.inr ⟨Nat.le_refl _, rfl, .done hst⟩)

theorem Advances.starved (h : s.Advances held fetched s') (hs : s.context.stage = .fetch)
    (hs' : s'.context.stage = .fetch) : fetched = none := by
  cases h <;> simp_all

theorem Rests.debt (h : s.Rests s') (hs : s.Fits) :
    s'.debt ≤ s.debt ∧ (s.context.stage = .wait → (∀ l ∈ s.lanes, l.port.isPending = false) →
      s'.debt < s.debt) := by
  cases h with
  | wake hst =>
    have hlt : (2 : Nat) < 3 + (s.lanes.map Lane.debt).sum := by omega
    simp only [Strand.debt, hst]
    exact ⟨hlt.le, fun _ _ ↦ hlt⟩
  | listen hn =>
    by_cases hst : s.context.stage = .wait
    · have hb : s.isBusy = true := by simpa [hst] using hn
      simp only [Strand.debt, hst, Nat.add_le_add_iff_left, Nat.add_lt_add_iff_left]
      exact ⟨sum_debt_listen_le s.lanes, fun _ ↦ hs.sum_debt_listen_lt hb⟩
    · rw [map_listen_of_not_busy (hs.isBusy_eq_false hst)]
      exact ⟨Nat.le_refl _, fun h ↦ absurd h hst⟩

theorem price_eq (h : s'.lanes.length = s.lanes.length) : s'.price = s.price := by
  rw [price, price, h]

/-- A strand that goes on to its next instruction has units to spare for the fetch. -/
theorem Advances.owes (h : s.Advances held fetched s') (hs : s.Fits)
    (hw : s.context.stage.hasWord = true → wordOf program s.context.pc s.word)
    (ho : s.Owes program fin m r) :
    ∃ r', s'.Owes program fin m r' ∧
      (s.context.stage = .update ∧ r' + 8 < r ∨ r' < r ∧ s'.context.stage ≠ .fetch ∨
        r' ≤ r ∧ s'.context = s.context ∧ s.Stuck held fetched) := by
  obtain ⟨q, k, ht, hk, rfl⟩ := ho
  have hp := price_eq h.length_lanes
  have hdebt := h.debt hs
  -- only a retired instruction takes from the count, and its price buys the next one
  rcases h.tracks hs hw ht with ⟨hn, ht'⟩ | ⟨hpr, q', hstep, ht'⟩
  · refine ⟨_, ⟨q, k, ht', hk, rfl⟩, ?_⟩
    rw [hp]
    rcases hdebt with ⟨hpr, -⟩ | ⟨hlt, hne⟩ | ⟨hle, heq⟩
    · exact absurd hpr hn
    · exact .inr (.inl ⟨Nat.add_lt_add_left hlt _, hne⟩)
    · exact .inr (.inr ⟨Nat.add_le_add_left hle _, heq⟩)
  · obtain ⟨j, rfl, hj⟩ := hk.of_step_eq_some hstep
    refine ⟨_, ⟨q', j, ht', hj, rfl⟩, .inl ⟨hpr.1, ?_⟩⟩
    rcases hdebt with ⟨-, h1, h2⟩ | ⟨-, hne⟩ | ⟨-, heq, -⟩
    · have hq : s.price = 14 + 4 * s.lanes.length := rfl
      rw [hp, h1, h2, Nat.mul_succ]
      omega
    · exact absurd hpr.2 hne
    · exact nomatch hpr.1.symm.trans ((congrArg Context.stage heq).symm.trans hpr.2)

theorem Rests.owes (h : s.Rests s') (hs : s.Fits) (ho : s.Owes program fin m r) :
    ∃ r', s'.Owes program fin m r' ∧ r' ≤ r ∧
      (s.context.stage = .wait → (∀ l ∈ s.lanes, l.port.isPending = false) → r' < r) := by
  obtain ⟨q, k, ht, hk, rfl⟩ := ho
  obtain ⟨hle, hlt⟩ := h.debt hs
  refine ⟨_, ⟨q, k, h.tracks hs ht, hk, rfl⟩, ?_⟩
  rw [price_eq h.length_lanes]
  exact ⟨Nat.add_le_add_left hle _, fun hst hp ↦ Nat.add_lt_add_left (hlt hst hp) _⟩

theorem Owes.bootstrap (ho : s.Owes program fin m r) (hs : s.context.stage = .idle) :
    ∃ r', Owes program fin { s with context := { s.context with stage := .fetch } } m r' ∧
      r' + 8 < r := by
  obtain ⟨q, k, ht, hk, rfl⟩ := ho
  simp only [Tracks, hs] at ht
  refine ⟨_, ⟨q, k, ⟨ht.pc, ht.threads, ht.memory⟩, hk, rfl⟩, ?_⟩
  simp only [price, Strand.debt, hs]
  omega

theorem Owes.access {pre post : List Lane} {l : Lane} {a : Request UInt8}
    (ho : s.Owes program fin m r) (hs : s.Fits) (hl : s.lanes = pre ++ l :: post)
    (ha : l.port.pending = some a) (hp : ∀ l' ∈ pre, l'.port.pending = none) :
    ∃ r' < r, { s with lanes := pre ++ l.answered (a.answer m) :: post }.Owes program fin
      (a.apply m) r' := by
  obtain ⟨q, k, ht, hk, rfl⟩ := ho
  refine ⟨_, ?_, ⟨q, k, ht.access hs hl ha hp, hk, rfl⟩⟩
  have hst := hs.stage_of_pending (by simp [hl]) ha
  have hlt := l.debt_answered_lt (a.answer m) ha
  simp only [Strand.debt, price, hst, hl, List.map_append, List.map_cons, List.sum_append,
    List.sum_cons, List.length_append, List.length_cons]
  omega

/-- A strand that has finished owes nothing. -/
theorem Owes.of_done (ho : s.Owes program fin m r) (hs : s.context.stage = .done) :
    r = 0 ∧ m = fin := by
  obtain ⟨q, k, ht, hk, rfl⟩ := ho
  simp only [Tracks, hs] at ht
  obtain ⟨rfl, rfl⟩ := hk.of_step_eq_none ht.1
  exact ⟨by simp [Strand.debt, hs], ht.2⟩

end Strand

end SimtMachine
