import SimtMachine.Proofs.Device.Launch
import SimtMachine.Proofs.Dispatch.Runs

/-!
# What the dispatcher knows about the cores

The dispatcher never looks into a core. It sees done lines that are a cycle old, and it books what
it has told the cores. Nevertheless its slots say at any time which core works on which block,
through all launches, completions, resets and runs that are broken off.
-/

namespace SimtMachine

open Relation (ReflTransGen)
open SimtMachine.Core (Answers Run wordOf)

/-! ## Cores by themselves -/

namespace Core

variable {genuine : UInt8 → UInt16 → Prop} {program : Image UInt16} {id : Nat} {dim : UInt8}
  {c c' : Core} {acts : List Act} {act : Act} {b : Assignment}

/-- A core as it is after a reset, or one that has come from the start of its block to where it is
by acts of its own and of its memories. -/
inductive Placed (genuine : UInt8 → UInt16 → Prop) (id : Nat) (dim : UInt8) : Core → Prop
  | vacant : Placed genuine id dim (.idle id dim)
  | running {c : Core} {acts : List Act} (b : Assignment) : Run ((idle id dim).start b) acts c →
      (∀ act ∈ acts, act.Genuine genuine) → Placed genuine id dim c

theorem Moves.keeps (h : Moves c act c') :
    c'.assignment = c.assignment ∧ c'.id = c.id ∧ c'.blockDim = c.blockDim := by
  cases h <;> exact ⟨rfl, rfl, rfl⟩

theorem Run.keeps (h : Run c acts c') :
    c'.assignment = c.assignment ∧ c'.id = c.id ∧ c'.blockDim = c.blockDim := by
  induction h with
  | nil => exact ⟨rfl, rfl, rfl⟩
  | snoc _ hm ih =>
    obtain ⟨ha, hi, hd⟩ := hm.keeps
    exact ⟨ha.trans ih.1, hi.trans ih.2.1, hd.trans ih.2.2⟩

theorem Placed.keeps (h : Placed genuine id dim c) : c.id = id ∧ c.blockDim = dim := by
  cases h with
  | vacant => exact ⟨rfl, rfl⟩
  | running b hr => exact hr.keeps.2

theorem Placed.reset (h : Placed genuine id dim c) : c.reset = .idle id dim := by
  obtain ⟨rfl, rfl⟩ := h.keeps
  rfl

theorem Placed.start (h : Placed genuine id dim c) (b : Assignment) :
    c.start b = (idle id dim).start b := by
  obtain ⟨rfl, rfl⟩ := h.keeps
  rfl

theorem Placed.sound (h : Placed genuine id dim c) : c.Sound genuine := by
  cases h with
  | vacant => exact sound_idle _ _ _
  | running b hr hg => exact hr.sound (sound_start _ _ b) hg

theorem Placed.eq_idle (h : Placed genuine id dim c) (ha : c.assignment = none) :
    c = .idle id dim := by
  cases h with
  | vacant => rfl
  | running b hr => exact nomatch hr.keeps.1.symm.trans ha

theorem Placed.exists_run (h : Placed genuine id dim c) (ha : c.assignment = some b) :
    ∃ acts, Run ((idle id dim).start b) acts c ∧ ∀ act ∈ acts, act.Genuine genuine := by
  cases h with
  | vacant => exact nomatch ha
  | running b' hr hg =>
    obtain rfl : b' = b := Option.some.inj (hr.keeps.1.symm.trans ha)
    exact ⟨_, hr, hg⟩

/-- A core without a block does nothing and is asked nothing. -/
theorem Moves.of_idle (h : Moves (.idle id dim) act c) : c = .idle id dim := by
  cases h with
  | tick => exact (sound_idle (fun _ _ ↦ True) id dim).tick_asleep rfl
  | fetch _ hp => exact nomatch hp
  | @access t pre _ _ _ _ hl =>
    have hn : (idle id dim).lanes.get t = [] := by cases t <;> rfl
    simp [hn] at hl

theorem Placed.move (h : Placed genuine id dim c) (hm : Moves c act c')
    (hg : act.Genuine genuine) : Placed genuine id dim c' := by
  cases h with
  | vacant =>
    rw [hm.of_idle]
    exact .vacant
  | running b hr hgs =>
    exact .running b (hr.snoc hm) (List.forall_mem_append.2 ⟨hgs, List.forall_mem_singleton.2 hg⟩)

/-- The memories have answered some requests of the core, data memory with whatever it held. -/
def Answered (program : Image UInt16) (c c' : Core) : Prop :=
  ∃ m m', ReflTransGen (Answers program) (c, m) (c', m')

theorem Answered.assignment (h : Answered program c c') : c'.assignment = c.assignment := by
  obtain ⟨m, m', ha⟩ := h
  have key : ∀ s s' : Core × Image UInt8, ReflTransGen (Answers program) s s' →
      s'.1.assignment = s.1.assignment := by
    intro s s' hs
    induction hs with
    | refl => rfl
    | tail _ hw ih => exact hw.works.assignment.trans ih
  exact key _ _ ha

theorem Placed.answered (h : Placed (wordOf program) id dim c) (ha : Answered program c c') :
    Placed (wordOf program) id dim c' := by
  obtain ⟨m, m', ha⟩ := ha
  have key : ∀ s s' : Core × Image UInt8, ReflTransGen (Answers program) s s' →
      Placed (wordOf program) id dim s.1 → Placed (wordOf program) id dim s'.1 := by
    intro s s' hs hp
    induction hs with
    | refl => exact hp
    | tail _ hw ih =>
      obtain ⟨_, hm, hg⟩ := hw.works.moves
      exact ih.move hm hg
  exact key _ _ ha h

end Core

/-! ## One cycle, core by core -/

theorem forall₂_sweep {σ α β : Type} {visit : σ → α → σ × β} {R : α → β → Prop} {xs : List α}
    (keep : σ → Prop) (h : ∀ s, keep s → ∀ x ∈ xs, keep (visit s x).1 ∧ R x (visit s x).2) :
    ∀ s, keep s → List.Forall₂ R xs (sweep visit s xs).2 := by
  induction xs with
  | nil => exact fun _ _ ↦ .nil
  | cons x xs ih =>
    intro s hk
    obtain ⟨hk', hx⟩ := h s hk x (by simp)
    rw [sweep_cons]
    exact .cons hx (ih (fun s hk y hy ↦ h s hk y (by simp [hy])) _ hk')

namespace Device

variable {d d' : Device} {i n : Nat} {inputs : List DispatchInput} {outputs : List (List Order)}
  {left served : Nat}

theorem answered_serve (hs : ∀ c ∈ d.cores, c.Sound (wordOf d.program.cells)) {c' : Core}
    (hc : d.serve.2.2[i]? = some c') :
    ∃ c, d.cores[i]? = some c ∧ Core.Answered d.program.cells c c' := by
  have hp : List.Forall₂
      (fun c c' ↦ ∀ m, ReflTransGen (Answers d.program.cells) (c, m) (c', m)) d.cores
      (d.program.serviceWith d.cycle (sweep Core.visitProgram) d.cores).2.1 := by
    refine Memory.serviceWith_cases (motive := fun _ cs ↦ List.Forall₂ _ d.cores cs) d.cycle
      (List.forall₂_same.2 fun _ _ _ ↦ .refl) ?_
    refine forall₂_sweep (fun s ↦ s.cells = d.program.cells) (fun s hk c hc ↦ ?_) _ rfl
    have ha := (hs c hc).answers_visitProgram s
    exact ⟨(ha default).1.trans hk, fun m ↦ hk ▸ (ha m).2⟩
  have hd (cs : List Core) : List.Forall₂ (Core.Answered d.program.cells) cs
      (d.data.serviceWith d.cycle (sweep Core.visitData) cs).2.1 := by
    refine Memory.serviceWith_cases (motive := fun _ cs' ↦ List.Forall₂ _ cs cs') d.cycle
      (List.forall₂_same.2 fun _ _ ↦ ⟨d.data.cells, _, .refl⟩) ?_
    exact forall₂_sweep (fun _ ↦ True)
      (fun s _ c _ ↦ ⟨trivial, _, _, Core.answers_visitData _ c s⟩) _ trivial
  obtain ⟨c₁, hc₁, m, m', ha⟩ := Dispatcher.exists_of_forall₂_of_getElem? (hd _) hc
  obtain ⟨c, hc, hp⟩ := Dispatcher.exists_of_forall₂_of_getElem? hp hc₁
  exact ⟨c, hc, m, m', (hp m).trans ha⟩

/-- What a cycle makes of core number `i` and of its slot: the memories answer the core `c`, and
then the core follows the order `o`. -/
structure Round (d : Device) (i : Nat) (s s' : Slot) (o : Order) (c answered c' : Core) :
    Prop where
  slot : d.dispatcher.slots[i]? = some s
  core : d.cores[i]? = some c
  step : s.Step c.done (s', o)
  answers : Core.Answered d.program.cells c answered
  follows : c' = orderedCore answered o
  slot_advance : d.advance.dispatcher.slots[i]? = some s'
  order : (d.dispatcher.advance d.dispatchInput).2[i]? = some o
  served : d.serve.2.2[i]? = some answered

theorem Round.placed {s s' : Slot} {o : Order} {c c₁ c' : Core} {dim : UInt8}
    (h : d.Round i s s' o c c₁ c') (hc : c.Placed (wordOf d.program.cells) i dim)
    (ha : c.assignment = s.block?) (hs' : s'.Fits s'.block?) :
    c'.Placed (wordOf d.program.cells) i dim ∧ c'.assignment = s'.block? := by
  have hc₁ := hc.answered h.answers
  have ha₁ : c₁.assignment = s.block? := h.answers.assignment.trans ha
  have hstep := h.step
  rw [h.follows]
  cases hstep with
  | begin b hb =>
    have ht : orderedCore c₁ ⟨false, some b, none⟩ = ((Core.idle i dim).start b).tick.1 := by
      rw [← hc₁.start b]
      rfl
    rw [ht]
    exact ⟨.running b (.snoc (.nil _) (.tick _)) (by simp [Act.Genuine]), rfl⟩
  | complete =>
    rw [orderedCore, if_pos rfl, hc₁.reset]
    exact ⟨.vacant, rfl⟩
  | rest awaiting =>
    cases awaiting with
    | true =>
      have hn := hs'.of_awaiting rfl
      rw [orderedCore, if_pos rfl, hc₁.reset]
      exact ⟨.vacant, hn.2.symm⟩
    | false => exact ⟨hc₁.move (.tick c₁) trivial, ha₁⟩

/-! ## All cycles -/

/-- The dispatcher has taken the inputs since the last reset, and the cores have what it says. -/
structure Consistent (inputs : List DispatchInput) (outputs : List (List Order))
    (left served : Nat) (d : Device) : Prop where
  valid : d.config.defect? = none
  log : Dispatcher.Log d.config.coreCount d.config.threadsPerBlock inputs outputs left served
    d.dispatcher
  admissible : Dispatcher.Admissible d.config.coreCount d.config.threadsPerBlock inputs
  clock : d.cycle = inputs.length
  /-- the start line goes up once, and the number of threads stays -/
  launched : ∀ j ∈ inputs, j.start = true → d.start = true ∧ j.threads = d.threads
  capacity : d.start = true → blockCount d.threads d.config.threadsPerBlock ≤ maxBlocks
  booked : d.cores.map Core.assignment = d.dispatcher.slots.map Slot.block?
  placed : ∀ i (c : Core), d.cores[i]? = some c →
    c.Placed (wordOf d.program.cells) i d.config.threadsPerBlock

theorem Consistent.length_cores (h : d.Consistent inputs outputs left served) :
    d.cores.length = d.config.coreCount := by
  have hl := congrArg List.length h.booked
  rwa [List.length_map, List.length_map, h.log.length_slots] at hl

theorem Consistent.length_done (h : d.Consistent inputs outputs left served) :
    d.dispatchInput.coreDone.length = d.config.coreCount :=
  (List.length_map _).trans h.length_cores

theorem Consistent.sound (h : d.Consistent inputs outputs left served) :
    ∀ c ∈ d.cores, c.Sound (wordOf d.program.cells) := by
  intro c hc
  obtain ⟨i, hi⟩ := List.mem_iff_getElem?.1 hc
  exact (h.placed i c hi).sound

theorem Consistent.slot_of_core (h : d.Consistent inputs outputs left served) {c : Core}
    (hc : d.cores[i]? = some c) :
    ∃ s, d.dispatcher.slots[i]? = some s ∧ s.Fits s.block? ∧ c.assignment = s.block? := by
  have hb : (d.dispatcher.slots.map Slot.block?)[i]? = some c.assignment := by
    rw [← h.booked, List.getElem?_map, hc]
    rfl
  rw [List.getElem?_map, Option.map_eq_some_iff] at hb
  obtain ⟨s, hs, hb⟩ := hb
  exact ⟨s, hs, h.log.fits s (List.mem_of_getElem? hs), hb.symm⟩

theorem Consistent.admissible_next (h : d.Consistent inputs outputs left served) :
    Dispatcher.Admissible d.config.coreCount d.config.threadsPerBlock
      (inputs ++ [d.dispatchInput]) where
  doneLines := List.forall_mem_append.2
    ⟨h.admissible.doneLines, List.forall_mem_singleton.2 h.length_done⟩
  capacity := by
    rcases Dispatcher.started_or_not inputs with hs | hs
    · rw [Dispatcher.launchThreads_concat_of_started hs]
      exact h.admissible.capacity
    · cases hd : d.start with
      | true =>
        rw [Dispatcher.launchThreads_concat_of_start hs hd]
        exact h.capacity hd
      | false =>
        rw [Dispatcher.launchThreads_of_not_started
          (List.forall_mem_append.2 ⟨hs, List.forall_mem_singleton.2 hd⟩),
          Dispatcher.blockCount_zero]
        exact Nat.zero_le _

/-- The dispatcher refuses nothing. -/
theorem Consistent.step_eq (h : d.Consistent inputs outputs left served) :
    d.step = .ok d.advance := by
  obtain ⟨_, _, _, _, ht, -⟩ := h.log.tick h.admissible_next
  cases hc : d.dispatcher.check d.dispatchInput with
  | ok => rw [step, hc]
  | error f =>
    rw [Dispatcher.tick, hc] at ht
    cases ht

theorem Consistent.log_advance (h : d.Consistent inputs outputs left served) :
    ∃ left' served', Dispatcher.Log d.config.coreCount d.config.threadsPerBlock
      (inputs ++ [d.dispatchInput])
      (outputs ++ [(d.dispatcher.advance d.dispatchInput).2]) left' served'
      d.advance.dispatcher := by
  obtain ⟨d', orders, left', served', ht, hlog⟩ := h.log.tick h.admissible_next
  cases hc : d.dispatcher.check d.dispatchInput with
  | ok =>
    rw [Dispatcher.tick, hc] at ht
    cases ht
    exact ⟨left', served', hlog⟩
  | error f =>
    rw [Dispatcher.tick, hc] at ht
    cases ht

theorem Consistent.round (h : d.Consistent inputs outputs left served) {c' : Core}
    (hc : d.advance.cores[i]? = some c') : ∃ s s' o c c₁, d.Round i s s' o c c₁ c' := by
  rw [advance_cores, List.getElem?_zipWith_eq_some] at hc
  obtain ⟨c₁, o, hc₁, ho, rfl⟩ := hc
  obtain ⟨c, hcore, ha⟩ := answered_serve h.sound hc₁
  obtain ⟨results, hsteps, hslots, horders⟩ := h.log.steps h.length_done
  rw [horders] at ho
  obtain ⟨r, s, done, rfl, hr, hs, hd, hstep⟩ := Dispatcher.exists_step hsteps ho
  have hd' : c.done = done := by
    rw [dispatchInput, List.getElem?_map, hcore] at hd
    exact Option.some.inj hd
  refine ⟨s, r.1, r.2, c, c₁, hs, hcore, hd' ▸ hstep, ha, rfl, ?_, ?_, hc₁⟩
  · have hslots' : d.advance.dispatcher.slots = results.map Prod.fst := hslots
    rw [hslots', List.getElem?_map, hr]
    rfl
  · rw [horders, List.getElem?_map, hr]
    rfl

theorem Consistent.length_advance (h : d.Consistent inputs outputs left served) :
    d.advance.cores.length = d.config.coreCount := by
  obtain ⟨_, _, hlog⟩ := h.log_advance
  have ho : (d.dispatcher.advance d.dispatchInput).2.length = d.config.coreCount :=
    hlog.length_orders _ (by simp)
  have hs := congrArg List.length (map_serve_assignment (d := d))
  rw [List.length_map, List.length_map, h.length_cores] at hs
  rw [advance_cores, List.length_zipWith, hs, ho, Nat.min_self]

theorem Consistent.advance (h : d.Consistent inputs outputs left served) :
    ∃ left' served', d.advance.Consistent (inputs ++ [d.dispatchInput])
      (outputs ++ [(d.dispatcher.advance d.dispatchInput).2]) left' served' := by
  obtain ⟨left', served', hlog⟩ := h.log_advance
  have hcells : d.advance.program.cells = d.program.cells := (pushes_serve [] [] h.sound).1
  have hround : ∀ i (c' : Core), d.advance.cores[i]? = some c' →
      ∃ s' : Slot, d.advance.dispatcher.slots[i]? = some s' ∧
        c'.Placed (wordOf d.program.cells) i d.config.threadsPerBlock ∧
        c'.assignment = s'.block? := by
    intro i c' hc'
    obtain ⟨s, s', o, c, c₁, hr⟩ := h.round hc'
    obtain ⟨s₀, hs₀, -, hb⟩ := h.slot_of_core hr.core
    obtain rfl := Option.some.inj (hs₀.symm.trans hr.slot)
    have hfits' := hlog.fits s' (List.mem_of_getElem? hr.slot_advance)
    exact ⟨s', hr.slot_advance, hr.placed (h.placed i c hr.core) hb hfits'⟩
  refine ⟨left', served', h.valid, hlog, h.admissible_next, ?_, ?_, h.capacity, ?_, ?_⟩
  · rw [List.length_append, ← h.clock]
    rfl
  · refine List.forall_mem_append.2 ⟨h.launched, List.forall_mem_singleton.2 fun hs ↦ ?_⟩
    exact ⟨hs, rfl⟩
  · refine List.ext_getElem ?_ fun i h₁ h₂ ↦ ?_
    · rw [List.length_map, List.length_map, h.length_advance, hlog.length_slots]
    · rw [List.length_map] at h₁
      obtain ⟨s', hs', -, hb⟩ := hround i _ (List.getElem?_eq_getElem h₁)
      obtain ⟨_, hs'⟩ := List.getElem?_eq_some_iff.1 hs'
      rw [List.getElem_map, List.getElem_map, hb, hs']
  · intro i c' hc'
    obtain ⟨_, -, hp, -⟩ := hround i c' hc'
    rw [hcells]
    exact hp

/-! ## All states -/

/-- A state that a device comes to, whatever its host does. -/
inductive Reachable : Device → Prop
  | create {c : Config} {program : Array UInt16} {data : Array UInt8} {d : Device} :
      create c program data = .ok d → Reachable d
  | launch {d d' : Device} {n : Nat} : Reachable d → d.launch n = .ok d' → Reachable d'
  | step {d d' : Device} : Reachable d → d.step = .ok d' → Reachable d'
  | run {d : Device} (max : Nat) : Reachable d → Reachable (d.run max).1
  | reset {d : Device} : Reachable d → Reachable d.reset

/-- A device as it is after a reset. -/
structure Fresh (d : Device) : Prop where
  valid : d.config.defect? = none
  start : d.start = false
  dispatcher : d.dispatcher = .initial d.config.coreCount d.config.threadsPerBlock
  cores : d.cores = idleCores d.config
  cycle : d.cycle = 0
  trace : d.trace = .empty

theorem Fresh.consistent (h : d.Fresh) : d.Consistent [] [] 0 0 := by
  refine ⟨h.valid, h.dispatcher ▸ Dispatcher.log_initial _ _, ⟨nofun, ?_⟩, h.cycle, nofun, ?_, ?_,
    ?_⟩
  · rw [Dispatcher.launchThreads_nil, Dispatcher.blockCount_zero]
    exact Nat.zero_le _
  · rw [h.start]
    nofun
  · rw [h.cores, h.dispatcher]
    refine List.ext_getElem (by simp [idleCores, Dispatcher.initial]) fun i _ _ ↦ ?_
    simp [idleCores, Dispatcher.initial, Core.idle, Slot.unused, Slot.block?]
  · intro i c hc
    rw [h.cores, idleCores, List.getElem?_map, Option.map_eq_some_iff] at hc
    obtain ⟨id, hid, rfl⟩ := hc
    obtain ⟨_, rfl⟩ := List.getElem?_eq_some_iff.1 hid
    rw [List.getElem_range]
    exact .vacant

theorem fresh_of_create {c : Config} {program : Array UInt16} {data : Array UInt8}
    (h : create c program data = .ok d) : d.Fresh := by
  obtain ⟨hvalid, _, _, -, -, rfl⟩ := eq_of_create h
  exact ⟨hvalid, rfl, rfl, rfl, rfl, rfl⟩

theorem Consistent.fresh_reset (h : d.Consistent inputs outputs left served) : d.reset.Fresh := by
  refine ⟨h.valid, rfl, rfl, List.ext_getElem ?_ fun i h₁ _ ↦ ?_, rfl, rfl⟩
  · simp [Device.reset, idleCores, h.length_cores]
  · have hi : i < d.cores.length := by simpa [Device.reset] using h₁
    have hp := h.placed i _ (List.getElem?_eq_getElem hi)
    simpa [Device.reset, idleCores] using hp.reset

theorem Consistent.launch (h : d.Consistent inputs outputs left served)
    (hl : d.launch n = .ok d') : d'.Consistent inputs outputs left served := by
  obtain ⟨hcap, rfl⟩ := eq_of_launch hl
  have hstart : d.start = false := by
    cases hs : d.start with
    | true => simp [Device.launch, hs] at hl
    | false => rfl
  refine ⟨h.valid, h.log, h.admissible, h.clock, fun j hj hs ↦ ?_, fun _ ↦ hcap, h.booked,
    h.placed⟩
  exact absurd (h.launched j hj hs).1 (by simp [hstart])

section Invariant

variable {P : List (List Order) → Device → Prop}

/-- A run is a number of cycles, whatever ends it. -/
theorem exists_consistent_runFor
    (hadvance : ∀ {inputs outputs left served} {d : Device},
      d.Consistent inputs outputs left served → P outputs d →
        P (outputs ++ [(d.dispatcher.advance d.dispatchInput).2]) d.advance)
    {fuel : Nat} (h : d.Consistent inputs outputs left served) (hP : P outputs d) :
    ∃ inputs outputs left served, (d.runFor fuel).1.Consistent inputs outputs left served ∧
      P outputs (d.runFor fuel).1 := by
  induction fuel generalizing d inputs outputs left served with
  | zero =>
    rw [Device.runFor]
    split <;> exact ⟨_, _, _, _, h, hP⟩
  | succ fuel ih =>
    rw [Device.runFor, h.step_eq]
    split
    · exact ⟨_, _, _, _, h, hP⟩
    · obtain ⟨_, _, h'⟩ := h.advance
      exact ih h' (hadvance h hP)

/-- What holds after a reset and is kept by launches and by cycles, in which it may refer to the
orders since the reset, holds in every state. -/
theorem Reachable.invariant (hfresh : ∀ {d : Device}, d.Fresh → P [] d)
    (hlaunch : ∀ {outputs n} {d d' : Device}, d.launch n = .ok d' → P outputs d → P outputs d')
    (hadvance : ∀ {inputs outputs left served} {d : Device},
      d.Consistent inputs outputs left served → P outputs d →
        P (outputs ++ [(d.dispatcher.advance d.dispatchInput).2]) d.advance)
    (h : d.Reachable) :
    ∃ inputs outputs left served, d.Consistent inputs outputs left served ∧ P outputs d := by
  induction h with
  | create hc => exact ⟨_, _, _, _, (fresh_of_create hc).consistent, hfresh (fresh_of_create hc)⟩
  | launch _ hl ih =>
    obtain ⟨_, _, _, _, h, hP⟩ := ih
    exact ⟨_, _, _, _, h.launch hl, hlaunch hl hP⟩
  | step _ hs ih =>
    obtain ⟨_, _, _, _, h, hP⟩ := ih
    obtain rfl := step_eq_ok hs
    obtain ⟨_, _, h'⟩ := h.advance
    exact ⟨_, _, _, _, h', hadvance h hP⟩
  | run max _ ih =>
    obtain ⟨_, _, _, _, h, hP⟩ := ih
    exact exists_consistent_runFor hadvance h hP
  | reset _ ih =>
    obtain ⟨_, _, _, _, h, -⟩ := ih
    exact ⟨_, _, _, _, h.fresh_reset.consistent, hfresh h.fresh_reset⟩

end Invariant

theorem Reachable.consistent (h : d.Reachable) :
    ∃ inputs outputs left served, d.Consistent inputs outputs left served := by
  obtain ⟨_, _, _, _, h, -⟩ := h.invariant (P := fun _ _ ↦ True) (fun _ ↦ trivial)
    (fun _ _ ↦ trivial) fun _ _ ↦ trivial
  exact ⟨_, _, _, _, h⟩

/-- In every state the slots agree with the cores: a slot is busy if its core has a block, and then
it is this block, on which the core has worked since its start; any other core is as it is after a
reset. So a core that the dispatcher sees done is done with the block in its slot, and this is the
block that the next cycle books as complete. -/
theorem slots_tell_cores (h : d.Reachable) :
    d.dispatcher.slots.length = d.config.coreCount ∧ d.cores.length = d.config.coreCount ∧
      ∀ (i : Nat) (s : Slot) (c : Core), d.dispatcher.slots[i]? = some s → d.cores[i]? = some c →
        (s.busy = true ↔ c.assignment.isSome = true) ∧
        (s.busy = true → s.awaiting = false ∧ c.assignment = s.assignment) ∧
        (s.busy = false → c.assignment = none ∧ ∀ t, c.scheduler.get t = ⟨0, .idle, false⟩) ∧
        (∀ b, c.assignment = some b → ∃ acts,
          Run ((Core.idle i d.config.threadsPerBlock).start b) acts c ∧
            ∀ act ∈ acts, act.Genuine (wordOf d.program.cells)) ∧
        (d.dispatchInput.coreDone[i]? = some true →
          ∃ b, s.busy = true ∧ s.assignment = some b ∧ c.assignment = some b ∧
            c.scheduler.done = true) ∧
        (∀ o b, (d.dispatcher.advance d.dispatchInput).2[i]? = some o → o.completed = some b →
          c.assignment = some b ∧ c.done = true) := by
  obtain ⟨_, _, _, _, h⟩ := h.consistent
  refine ⟨h.log.length_slots, h.length_cores, fun i s c hs hc ↦ ?_⟩
  obtain ⟨s₀, hs₀, hfits, ha⟩ := h.slot_of_core hc
  obtain rfl := Option.some.inj (hs₀.symm.trans hs)
  have hp := h.placed i c hc
  have hbusy : s₀.busy = true ↔ c.assignment.isSome = true := by
    rw [ha]
    cases hb : s₀.busy with
    | true =>
      obtain ⟨b, -, hq⟩ := hfits.of_busy hb
      simp [hq]
    | false => simp [Slot.block?_of_not_busy hb]
  refine ⟨hbusy, fun hb ↦ ?_, fun hb ↦ ?_, fun b hb ↦ hp.exists_run hb, fun hd ↦ ?_,
    fun o b ho hb ↦ ?_⟩
  · have hboth := hfits.not_both
    rw [hb, Bool.true_and] at hboth
    exact ⟨hboth, ha.trans (Slot.block?_of_busy hb)⟩
  · have hn : c.assignment = none := ha.trans (Slot.block?_of_not_busy hb)
    rw [hp.eq_idle hn]
    exact ⟨rfl, fun t ↦ by cases t <;> rfl⟩
  · have hdone : c.done = true := by
      rw [dispatchInput, List.getElem?_map, hc] at hd
      exact Option.some.inj hd
    obtain ⟨hsome, hsched⟩ := Bool.and_eq_true_iff.1 hdone
    obtain ⟨b, hb⟩ := Option.isSome_iff_exists.1 hsome
    have hs₁ := hbusy.2 hsome
    exact ⟨b, hs₁, ((Slot.block?_of_busy hs₁).symm.trans ha.symm).trans hb, hb, hsched⟩
  · obtain ⟨results, hsteps, -, horders⟩ := h.log.steps h.length_done
    rw [horders] at ho
    obtain ⟨r, s, done, rfl, -, hs', hdone, hstep⟩ := Dispatcher.exists_step hsteps ho
    obtain rfl := Option.some.inj (hs.symm.trans hs')
    obtain ⟨hblock, rfl⟩ := hstep.of_completed hb
    rw [dispatchInput, List.getElem?_map, hc] at hdone
    exact ⟨ha.trans hblock, Option.some.inj hdone⟩

/-- Two cores for blocks of one thread. -/
def twins : Config where
  coreCount := 2
  threadsPerBlock := 1
  dataChannels := 1
  programChannels := 1
  dataInterval := 1
  programInterval := 1
  maxCycles := 500
  traceStages := false

/-- The cores share the channel to the program, and the second one is a cycle late: it is done with
its block when the first one has already been reset. -/
theorem slots_tell_cores_twins :
    ∃ d : Device, d.Reachable ∧ d.dispatcher.slots.map Slot.busy = [false, true] ∧
      d.dispatchInput.coreDone = [false, true] ∧
      (∀ c, d.cores[0]? = some c → c.assignment = none) ∧
      ∀ c s, d.cores[1]? = some c → d.dispatcher.slots[1]? = some s →
        ∃ b, s.assignment = some b ∧ c.assignment = some b := by
  have hrun : ((create twins #[0xF000] #[]).toOption.bind fun d ↦ (d.launch 3).toOption.map fun d ↦
      ((d.run 17).1.dispatcher.slots.map Slot.busy, (d.run 17).1.dispatchInput.coreDone)) =
        some ([false, true], [false, true]) := by decide +kernel
  cases hc : create twins #[0xF000] #[] with
  | error e => simp [hc, Except.toOption] at hrun
  | ok fresh =>
    cases hl : fresh.launch 3 with
    | error e => simp [hc, hl, Except.toOption] at hrun
    | ok launched =>
      simp only [hc, hl, Except.toOption, Option.bind_some, Option.map_some, Option.some.injEq,
        Prod.mk.injEq] at hrun
      have hr : (launched.run 17).1.Reachable := .run 17 (.launch (.create hc) hl)
      obtain ⟨hlen, -, h⟩ := slots_tell_cores hr
      refine ⟨_, hr, hrun.1, hrun.2, fun c hc₀ ↦ ?_, fun c s hc₁ hs₁ ↦ ?_⟩
      · have hb : ((launched.run 17).1.dispatcher.slots.map Slot.busy)[0]? = some false := by
          rw [hrun.1]
          rfl
        rw [List.getElem?_map, Option.map_eq_some_iff] at hb
        obtain ⟨s, hs, hb⟩ := hb
        exact ((h 0 s c hs hc₀).2.2.1 hb).1
      · obtain ⟨b, -, hs, hc, -⟩ := (h 1 s c hs₁ hc₁).2.2.2.2.1 (by rw [hrun.2]; rfl)
        exact ⟨b, hs, hc⟩

end Device

end SimtMachine
