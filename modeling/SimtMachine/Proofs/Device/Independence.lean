import SimtMachine.Proofs.Device.Launch
import SimtMachine.Proofs.Lockstep.Accesses

/-!
# Independence of timing

A device with one core makes the blocks of a launch one after another. A device with more cores
comes to the same if no block touches what another block stores, since each block then finds what it
would have found alone. Either way nothing but program, data, block size and number of threads
decides about the final data.
-/

namespace SimtMachine

/-- The block stores at the address in one of its two passes. -/
def Assignment.Stores (program : Image UInt16) (dim : UInt8) (b : Assignment) (data : Image UInt8)
    (a : UInt8) : Prop :=
  ∃ v, b.Issues program dim data (.write a v)

/-- No block loads or stores an address that a different block stores. -/
def NonInterfering (program : Image UInt16) (dim : UInt8) (blocks : List Assignment)
    (data : Image UInt8) : Prop :=
  ∀ b ∈ blocks, ∀ b' ∈ blocks, b ≠ b' → ∀ r, b.Issues program dim data r →
    ¬ b'.Stores program dim data r.addr

/-- Runs the blocks, each for at most `fuel` instructions in a pass, to see that they do not
interfere. -/
def apart (program : Image UInt16) (dim : UInt8) (fuel : Nat) (blocks : List Assignment)
    (data : Image UInt8) : Bool :=
  blocks.all fun b ↦ blocks.all fun b' ↦
    match b.passes program dim fuel data, b'.passes program dim fuel data with
    | some (rs, _), some (rs', _) =>
      b = b' || rs.all fun r ↦ rs'.all fun
        | .read _ => true
        | .write a _ => r.addr ≠ a
    | _, _ => false

theorem nonInterfering_of_apart {program : Image UInt16} {dim : UInt8} (fuel : Nat)
    {blocks : List Assignment} {data : Image UInt8}
    (h : apart program dim fuel blocks data = true) :
    NonInterfering program dim blocks data := by
  rintro b hb b' hb' hne r hr ⟨v, hv⟩
  have hq := List.all_eq_true.1 (List.all_eq_true.1 h b hb) b' hb'
  split at hq
  · next rs _ rs' _ hp hp' =>
    rw [(Assignment.passes_spec hp).2] at hr
    rw [(Assignment.passes_spec hp').2] at hv
    simp only [hne, decide_false, Bool.false_or] at hq
    simpa using List.all_eq_true.1 (List.all_eq_true.1 hq r hr) _ hv
  · simp at hq

/-- The shared memory holds at each address what the only block that may store there has made of
it, and what was there at the launch if no block stores there. -/
structure Separate (program : Image UInt16) (dim : UInt8) (blocks : List Assignment)
    (data : Image UInt8) (own : Assignment → Image UInt8) (shared : Image UInt8) : Prop where
  owned : ∀ a, ∀ b ∈ blocks, (∀ b' ∈ blocks, b' ≠ b → ¬ b'.Stores program dim data a) →
    shared.read a = (own b).read a
  untouched : ∀ a, (∀ b ∈ blocks, ¬ b.Stores program dim data a) → shared.read a = data.read a

namespace NonInterfering

variable {program : Image UInt16} {dim : UInt8} {blocks : List Assignment}
  {data shared shared' : Image UInt8} {own own' : Assignment → Image UInt8}

/-- A store goes to no address that another block may store at. -/
theorem separate_write {b : Assignment} {a v : UInt8} (hb : b ∈ blocks)
    (hi : b.Issues program dim data (.write a v))
    (hs : Separate program dim blocks data own shared) :
    Separate program dim blocks data (Function.update own b ((own b).write a v))
      (shared.write a v) := by
  constructor
  · intro x b' hb' hx
    by_cases hq : b' = b
    · subst hq
      rw [Function.update_self, Image.read_write, Image.read_write, hs.owned x b' hb' hx]
    · rw [Function.update_of_ne hq, Image.read_write_of_ne, hs.owned x b' hb' hx]
      rintro rfl
      exact hx b hb (Ne.symm hq) ⟨v, hi⟩
  · intro x hx
    rw [Image.read_write_of_ne, hs.untouched x hx]
    rintro rfl
    exact hx b hb ⟨v, hi⟩

theorem isolation (h : NonInterfering program dim blocks data) :
    Isolation program dim blocks data (Separate program dim blocks data) where
  start := ⟨fun _ _ _ _ ↦ rfl, fun _ _ ↦ rfl⟩
  access := by
    intro own shared b r hb hi hs
    have ho := hs.owned r.addr b hb fun b' hb' hn ↦ h b hb b' hb' (Ne.symm hn) r hi
    cases r with
    | read a =>
      refine ⟨ho, ?_⟩
      rwa [Request.apply, Request.apply, Function.update_eq_self]
    | write a v => exact ⟨rfl, separate_write hb hi hs⟩

theorem shared_unique (h : NonInterfering program dim blocks data)
    (hs : Separate program dim blocks data own shared)
    (hs' : Separate program dim blocks data own' shared') (ho : ∀ b ∈ blocks, own b = own' b) :
    shared = shared' := by
  apply Image.ext_read
  intro a
  by_cases ha : ∃ b ∈ blocks, b.Stores program dim data a
  · obtain ⟨b, hb, v, hv⟩ := ha
    have hx (b') (hb' : b' ∈ blocks) (hn : b' ≠ b) : ¬ b'.Stores program dim data a :=
      h b hb b' hb' (Ne.symm hn) _ hv
    rw [hs.owned a b hb hx, hs'.owned a b hb hx, ho b hb]
  · have hx (b) (hb : b ∈ blocks) : ¬ b.Stores program dim data a := fun hv ↦ ha ⟨b, hb, hv⟩
    rw [hs.untouched a hx, hs'.untouched a hx]

end NonInterfering

namespace Device

variable {c : Config} {program : Array UInt16} {data : Array UInt8} {n : Nat} {d : Device}

/-- Blocks that do not interfere leave behind what they leave when they take turns. -/
theorem Computes.inTurn_of_nonInterfering (h : Computes c program data n d)
    (hn : NonInterfering (Image.ofArray program) c.threadsPerBlock (c.blocks n)
      (Image.ofArray data)) :
    Assignment.InTurn (Image.ofArray program) c.threadsPerBlock (c.blocks n) (Image.ofArray data)
      d.data.cells := by
  obtain ⟨own, hs, hf⟩ := h.isolated hn.isolation
  obtain ⟨own', shared', ht, hs', ho, -⟩ := hn.isolation.inTurn h.pool.1 (fun _ hb ↦ hb) hf
    (fun _ _ ↦ rfl) hn.isolation.start
  rw [hn.shared_unique hs hs' fun b hb ↦ (ho b hb).symm]
  exact ht

/-- The number of cores is of no consequence. -/
def OrderFree (c : Config) (program : Array UInt16) (data : Array UInt8) (n : Nat) : Prop :=
  c.coreCount = 1 ∨
    NonInterfering (Image.ofArray program) c.threadsPerBlock (c.blocks n) (Image.ofArray data)

theorem Computes.inTurn (h : Computes c program data n d) (ho : OrderFree c program data n) :
    Assignment.InTurn (Image.ofArray program) c.threadsPerBlock (c.blocks n) (Image.ofArray data)
      d.data.cells := by
  rcases ho with hc | hn
  · exact h.inTurn_of_one_core hc
  · exact h.inTurn_of_nonInterfering hn

/-- A device with one core, and any device if the blocks do not interfere, leaves behind what the
blocks leave when they make their two passes in turn, the highest block first. So channels,
intervals and tracing make no difference to the final data. -/
theorem timing_independent (h : Computes c program data n d) (ho : OrderFree c program data n) :
    Assignment.InTurn (Image.ofArray program) c.threadsPerBlock (c.blocks n) (Image.ofArray data)
        d.data.cells ∧
      ∀ (c' : Config) (d' : Device), c'.threadsPerBlock = c.threadsPerBlock →
        Computes c' program data n d' → OrderFree c' program data n →
          d'.data.cells = d.data.cells := by
  refine ⟨h.inTurn ho, ?_⟩
  intro c' d' hc h' ho'
  have ht := h'.inTurn ho'
  rw [Config.blocks, hc] at ht
  exact ht.unique (h.inTurn ho)

/-- Two cores for blocks of two threads, with one channel and a slow data memory. -/
def pair : Config where
  coreCount := 2
  threadsPerBlock := 2
  dataChannels := 1
  programChannels := 1
  dataInterval := 3
  programInterval := 1
  maxCycles := 500
  traceStages := false

/-- The same with one core. -/
def single : Config := { pair with coreCount := 1 }

/-- Each thread adds one to a cell of its own. -/
def increment : Array UInt16 :=
  #[0x50DE, 0x300F, 0x9201, 0x7100, 0x3112, 0x8001, 0xF000]

theorem timing_independent_increment :
    ∃ d d' : Device, Computes pair increment #[10, 20, 30] 3 d ∧
      Computes single increment #[10, 20, 30] 3 d' ∧
      Assignment.InTurn (Image.ofArray increment) pair.threadsPerBlock (pair.blocks 3)
        (Image.ofArray #[10, 20, 30]) d.data.cells ∧
      d'.data.cells = d.data.cells := by
  have hd : (result? pair increment #[10, 20, 30] 3 500).isSome := by decide +kernel
  have hd' : (result? single increment #[10, 20, 30] 3 500).isSome := by decide +kernel
  obtain ⟨d, hd⟩ := Option.isSome_iff_exists.1 hd
  obtain ⟨d', hd'⟩ := Option.isSome_iff_exists.1 hd'
  have hn : NonInterfering (Image.ofArray increment) pair.threadsPerBlock (pair.blocks 3)
      (Image.ofArray #[10, 20, 30]) := by
    apply nonInterfering_of_apart 8
    decide +kernel
  have h := computes_of_result? hd
  have h' := computes_of_result? hd'
  obtain ⟨ht, hc⟩ := timing_independent h (.inr hn)
  exact ⟨d, d', h, h', ht, hc single d' rfl h' (.inl rfl)⟩

end Device

end SimtMachine
