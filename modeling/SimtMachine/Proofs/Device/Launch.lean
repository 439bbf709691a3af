import SimtMachine.Proofs.Device.Schedule

/-!
# Launches

A fresh device that launches a kernel and runs until it is done is a pool that begins with idle
cores and all blocks waiting, and ends with all blocks complete.
-/

namespace SimtMachine

open Relation (ReflTransGen)

/-- The blocks of a launch of `n` threads, in the order in which they are handed out. -/
def Config.blocks (c : Config) (n : Nat) : List Assignment :=
  launchBlocks n c.threadsPerBlock (blockCount n c.threadsPerBlock)

theorem Config.pos_of_valid {c : Config} (h : c.defect? = none) :
    0 < c.coreCount ∧ 0 < c.threadsPerBlock.toNat := by
  unfold defect? at h
  split at h
  · cases h
  · next hc =>
    split at h
    · cases h
    · next hs =>
      rw [not_or] at hs
      exact ⟨Nat.pos_of_ne_zero hc, Nat.pos_of_ne_zero fun hz ↦ hs.1 (UInt8.toNat_inj.1 hz)⟩

namespace Device

variable {n : Nat} {d : Device}

/-- The pool of a launch before any block has been handed out. -/
def openingPool (c : Config) (data : Image UInt8) (n : Nat) : Pool where
  cores := idleCores c
  memory := data
  waiting := c.blocks n
  completed := []

theorem serve_of_idle (hi : ∀ c ∈ d.cores, ∃ id dim, c = Core.idle id dim) :
    d.serve = (d.program, d.data, d.cores) := by
  have hp (s : Pass UInt16) : sweep Core.visitProgram s d.cores = (s, d.cores) := by
    refine (sweep_of_keep (f := id) (fun s c hc ↦ ?_) s).trans (by rw [List.map_id])
    obtain ⟨_, _, rfl⟩ := hi c hc
    rfl
  have hd (s : Pass UInt8) : sweep Core.visitData s d.cores = (s, d.cores) := by
    refine (sweep_of_keep (f := id) (fun s c hc ↦ ?_) s).trans (by rw [List.map_id])
    obtain ⟨_, _, rfl⟩ := hi c hc
    rfl
  obtain ⟨_, hps⟩ := Memory.serviceWith_of_keep (m := d.program) hp d.cycle
  obtain ⟨_, hds⟩ := Memory.serviceWith_of_keep (m := d.data) hd d.cycle
  simp only [serve, hps, hds]

theorem opening_staffed (program : Image UInt16) (c : Config) (data : Image UInt8) (n : Nat) :
    (openingPool c data n).Staffed program c.threadsPerBlock := by
  intro x hx
  obtain ⟨id, -, rfl⟩ := List.mem_map.1 hx
  exact ⟨Core.sound_idle _ _ _, rfl⟩

theorem opening_running (c : Config) (data : Image UInt8) (n : Nat) :
    (openingPool c data n).running = [] := by
  apply List.filterMap_eq_nil_iff.2
  intro x hx
  obtain ⟨id, -, rfl⟩ := List.mem_map.1 hx
  rfl

theorem opening_blocks (c : Config) (data : Image UInt8) (n : Nat) :
    (openingPool c data n).blocks = c.blocks n := by
  rw [Pool.blocks, opening_running, openingPool, List.append_nil, List.append_nil]

theorem opening_cores_of_one {c : Config} (h : c.coreCount = 1) (data : Image UInt8) (n : Nat) :
    (openingPool c data n).cores = [Core.idle 0 c.threadsPerBlock] := by
  rw [openingPool, idleCores, h]
  rfl

theorem opening_isolated {program : Image UInt16} {c : Config} {data : Image UInt8} {n : Nat}
    {Agree : (Assignment → Image UInt8) → Image UInt8 → Prop}
    (iso : Isolation program c.threadsPerBlock (c.blocks n) data Agree) :
    (openingPool c data n).Isolated program c.threadsPerBlock data Agree fun _ ↦ data := by
  refine ⟨iso.start, fun _ _ ↦ rfl, ?_, nofun⟩
  intro x hx b hb
  obtain ⟨id, -, rfl⟩ := List.mem_map.1 hx
  exact nomatch hb

/-- A device at the launch of a kernel of `n` threads. -/
structure Opens (n : Nat) (d : Device) : Prop where
  start : d.start = true
  threads : d.threads = n
  capacity : blockCount n d.config.threadsPerBlock ≤ maxBlocks
  dispatcher : d.dispatcher = .initial d.config.coreCount d.config.threadsPerBlock
  cores : d.cores = idleCores d.config

theorem opening_turns (c : Config) :
    List.zipWith orderedCore (idleCores c)
        ((List.replicate c.coreCount { Slot.unused with awaiting := true }).map
          fun s ↦ ⟨s.awaiting, none, none⟩) = idleCores c := by
  apply List.ext_getElem (by simp [idleCores])
  intro i _ _
  simp [idleCores, orderedCore, Core.reset, Core.idle]

theorem opening_slots (c : Config) :
    List.Forall₂ Slot.Fits (List.replicate c.coreCount { Slot.unused with awaiting := true })
      ((idleCores c).map Core.assignment) := by
  refine List.forall₂_iff_zip.2 ⟨by simp [idleCores], fun {s a} h ↦ ?_⟩
  obtain ⟨hs, ha⟩ := List.of_mem_zip h
  obtain ⟨x, hx, rfl⟩ := List.mem_map.1 ha
  obtain ⟨id, -, rfl⟩ := List.mem_map.1 hx
  exact .free (by rw [List.eq_of_mem_replicate hs]; rfl)

/-- The first cycle of a launch resets the cores and hands out nothing yet. -/
theorem Opens.matches (h : d.Opens n) :
    d.advance.Matches d.program.cells n (openingPool d.config d.data.cells n) := by
  have hserve : d.serve = (d.program, d.data, d.cores) := by
    apply serve_of_idle
    intro c hc
    rw [h.cores] at hc
    obtain ⟨id, -, rfl⟩ := List.mem_map.1 hc
    exact ⟨id, _, rfl⟩
  have hdisp : d.dispatcher.advance d.dispatchInput =
      (((Dispatcher.initial d.config.coreCount d.config.threadsPerBlock).launch n).latch,
        (List.replicate d.config.coreCount { Slot.unused with awaiting := true }).map
          fun s ↦ ⟨s.awaiting, none, none⟩) := by
    simp [Dispatcher.advance, dispatchInput, h.start, h.threads, h.dispatcher, Dispatcher.accepts,
      Dispatcher.initial, Dispatcher.launch, Dispatcher.hold]
  have hcores : d.advance.cores = idleCores d.config := by
    rw [advance_cores, hdisp, hserve, h.cores]
    exact opening_turns d.config
  have hadv : d.advance.dispatcher =
      ((Dispatcher.initial d.config.coreCount d.config.threadsPerBlock).launch n).latch :=
    congrArg Prod.fst hdisp
  have hbooks := Dispatcher.books_launch d.config.coreCount d.config.threadsPerBlock h.capacity
  refine ⟨hcores.symm, ?_, ?_, ⟨_, rfl, ?_⟩, ?_, ?_⟩
  · exact (congrArg (fun s ↦ s.2.1.cells) hserve).symm
  · exact congrArg (fun s ↦ s.1.cells) hserve
  · rw [hadv]
    exact hbooks.latch
  · rw [hadv, hcores, Dispatcher.latch_slots]
    simpa [Dispatcher.launch, Dispatcher.initial] using opening_slots d.config
  · rw [isDone, hadv]
    exact (hbooks.latch_stage rfl rfl).imp And.left (And.imp_left And.right)

theorem Opens.runFor {d' : Device} {cycles fuel : Nat} (h : d.Opens n)
    (hr : d.runFor fuel = (d', .ok cycles)) :
    ∃ p, ReflTransGen (Pool.Moves d.program.cells) (openingPool d.config d.data.cells n) p ∧
      d'.Matches d.program.cells n p ∧
      blockCount n d.config.threadsPerBlock ≤ p.completed.length := by
  have hd : d.isDone = false := by
    rw [isDone, h.dispatcher]
    rfl
  cases fuel with
  | zero =>
    rw [Device.runFor] at hr
    simp [hd] at hr
  | succ fuel =>
    rw [Device.runFor, if_neg (by simp [hd])] at hr
    split at hr
    · simp at hr
    · next d₁ hstep =>
      obtain rfl := step_eq_ok hstep
      have hs := opening_staffed d.program.cells d.config d.data.cells n
      obtain ⟨hcfg, p, hm, hp, hle⟩ := h.matches.runFor hs hr
      rw [hcfg] at hle
      exact ⟨p, hm, hp, hle⟩

/-- A fresh device with the given configuration and images that launches `n` threads and runs until
the kernel is done comes to `d`. -/
def Computes (c : Config) (program : Array UInt16) (data : Array UInt8) (n : Nat) (d : Device) :
    Prop :=
  ∃ fresh launched max cycles, create c program data = .ok fresh ∧ fresh.launch n = .ok launched ∧
    launched.run max = (d, .ok cycles)

/-- The device that a kernel leaves behind, unless something is refused or `max` cycles do not
suffice. -/
def result? (c : Config) (program : Array UInt16) (data : Array UInt8) (n max : Nat) :
    Option Device :=
  match create c program data with
  | .error _ => none
  | .ok fresh =>
    match fresh.launch n with
    | .error _ => none
    | .ok launched =>
      match launched.run max with
      | (_, .error _) => none
      | (d, .ok _) => some d

theorem computes_of_result? {c : Config} {program : Array UInt16} {data : Array UInt8} {max : Nat}
    (h : result? c program data n max = some d) : Computes c program data n d := by
  unfold result? at h
  split at h
  · simp at h
  · next fresh hc =>
    split at h
    · simp at h
    · next launched hl =>
      split at h
      · simp at h
      · next d' cycles hr =>
        cases h
        exact ⟨fresh, launched, max, cycles, hc, hl, hr⟩

theorem eq_of_create {c : Config} {words : Array UInt16} {data : Array UInt8} {fresh : Device}
    (h : create c words data = .ok fresh) :
    c.defect? = none ∧ ∃ program memory,
      Memory.create words c.programChannels c.programInterval = .ok program ∧
      Memory.create data c.dataChannels c.dataInterval = .ok memory ∧
      fresh = { config := c, threads := 0, start := false,
                dispatcher := .initial c.coreCount c.threadsPerBlock, cores := idleCores c,
                program, data := memory, cycle := 0, trace := .empty } := by
  unfold create at h
  cases hd : c.defect? with
  | some d => simp [hd, throw, throwThe, MonadExceptOf.throw, bind, Except.bind] at h
  | none =>
    cases hp : Memory.create words c.programChannels c.programInterval with
    | error e => simp [hd, hp, Except.mapError, bind, Except.bind] at h
    | ok program =>
      cases hm : Memory.create data c.dataChannels c.dataInterval with
      | error e => simp [hd, hp, hm, Except.mapError, bind, Except.bind] at h
      | ok memory =>
        simp [hd, hp, hm, Except.mapError, bind, Except.bind, pure, Except.pure] at h
        exact ⟨rfl, program, memory, rfl, rfl, h.symm⟩

theorem eq_of_launch {d d' : Device} (h : d.launch n = .ok d') :
    blockCount n d.config.threadsPerBlock ≤ maxBlocks ∧
      d' = { d with threads := n, start := true } := by
  simp only [launch] at h
  split at h
  · simp at h
  · split at h
    · simp at h
    · next hcap => exact ⟨Nat.le_of_not_lt hcap, (Except.ok.inj h).symm⟩

theorem opens_of_launch {c : Config} {words : Array UInt16} {data : Array UInt8}
    {fresh launched : Device} (hc : create c words data = .ok fresh)
    (hl : fresh.launch n = .ok launched) :
    launched.Opens n ∧ launched.config = c ∧ launched.program.cells = Image.ofArray words ∧
      launched.data.cells = Image.ofArray data := by
  obtain ⟨-, program, memory, hp, hm, rfl⟩ := eq_of_create hc
  obtain ⟨hcap, rfl⟩ := eq_of_launch hl
  exact ⟨⟨rfl, rfl, hcap, rfl, rfl⟩, rfl, Memory.cells_of_create hp, Memory.cells_of_create hm⟩

theorem runFor_of_run {d d' : Device} {max cycles : Nat} (h : d.run max = (d', .ok cycles)) :
    d.runFor (max - d.cycle) = (d', .ok cycles) := by
  unfold run at h
  cases hr : d.runFor (max - d.cycle) with
  | mk x r =>
    cases r <;> simp_all [Except.mapError]

theorem Computes.size_le {c : Config} {words : Array UInt16} {data : Array UInt8}
    (h : Computes c words data n d) : words.size ≤ addressSpace := by
  obtain ⟨fresh, _, _, _, hc, -⟩ := h
  obtain ⟨-, _, _, hp, -⟩ := eq_of_create hc
  exact Memory.size_le_of_create hp

theorem Computes.block_size_pos {c : Config} {words : Array UInt16} {data : Array UInt8}
    (h : Computes c words data n d) : 0 < c.threadsPerBlock.toNat := by
  obtain ⟨fresh, _, _, _, hc, -⟩ := h
  exact (Config.pos_of_valid (eq_of_create hc).1).2

/-- Every result of a device is a result of the pool in which all blocks are complete. -/
theorem Computes.pool {c : Config} {words : Array UInt16} {data : Array UInt8}
    (h : Computes c words data n d) :
    (c.blocks n).Nodup ∧ ∃ p, ReflTransGen (Pool.Moves (Image.ofArray words))
        (openingPool c (Image.ofArray data) n) p ∧
      p.memory = d.data.cells ∧ p.waiting = [] ∧ p.running = [] ∧
      p.completed.Perm (c.blocks n) := by
  obtain ⟨fresh, launched, max, cycles, hc, hl, hr⟩ := h
  obtain ⟨ho, rfl, hp, hd⟩ := opens_of_launch hc hl
  obtain ⟨p, hm, h', hle⟩ := ho.runFor (runFor_of_run hr)
  rw [hp, hd] at hm
  have hb := Pool.blocks_of_moves hm
  rw [opening_blocks] at hb
  have hlen : (launched.config.blocks n).length ≤ p.completed.length := by
    rwa [Config.blocks, length_launchBlocks]
  exact ⟨nodup_launchBlocks _ _ ho.capacity, p, hm, h'.memory, Pool.all_completed hb hlen⟩

/-- A device with one core makes all blocks one after another. -/
theorem Computes.inTurn_of_one_core {c : Config} {words : Array UInt16} {data : Array UInt8}
    (h : Computes c words data n d) (hc : c.coreCount = 1) :
    Assignment.InTurn (Image.ofArray words) c.threadsPerBlock (c.blocks n) (Image.ofArray data)
      d.data.cells := by
  obtain ⟨-, p, hm, hmem, hw, hr, -⟩ := h.pool
  have ho : (openingPool c (Image.ofArray data) n).InOrder (Image.ofArray words)
      c.threadsPerBlock (c.blocks n) (Image.ofArray data) := by
    refine ⟨⟨Core.idle 0 c.threadsPerBlock, opening_cores_of_one hc _ _, Core.sound_idle _ _ _, rfl,
      _, .nil _, fun _ ↦ rfl, nofun⟩, ?_⟩
    rw [opening_running]
    rfl
  obtain ⟨⟨x, hx, -, -, base, ht, hn, -⟩, horder⟩ := Pool.inOrder_of_moves hm ho
  rw [hr, hw, List.append_nil, List.append_nil] at horder
  have ha : x.assignment = none := by
    refine List.filterMap_eq_nil_iff.1 hr x ?_
    rw [hx]
    exact List.mem_singleton_self x
  rw [← hmem, hn ha, ← horder]
  exact ht

/-- Each block has made its two passes on its own memory. -/
theorem Computes.isolated {c : Config} {words : Array UInt16} {data : Array UInt8}
    {Agree : (Assignment → Image UInt8) → Image UInt8 → Prop} (h : Computes c words data n d)
    (iso : Isolation (Image.ofArray words) c.threadsPerBlock (c.blocks n) (Image.ofArray data)
      Agree) :
    ∃ own, Agree own d.data.cells ∧ ∀ b ∈ c.blocks n,
      b.FinishesTwice (Image.ofArray words) c.threadsPerBlock (Image.ofArray data) (own b) := by
  obtain ⟨hn, p, hm, hmem, -, -, hc⟩ := h.pool
  obtain ⟨own, hown⟩ := Pool.isolated_of_moves iso (opening_staffed _ _ _ _)
    (.of_eq (opening_blocks _ _ _)) hn (opening_isolated iso) hm
  rw [← hmem]
  exact ⟨own, hown.agree, fun b hb ↦ hown.completed b (hc.mem_iff.2 hb)⟩

end Device

end SimtMachine
