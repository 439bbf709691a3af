import SimtMachine.Proofs.Device.Launch
import SimtMachine.Proofs.Interpreter.Discipline
import SimtMachine.Proofs.Lockstep.Courses

/-!
# Agreement with the sequential interpreter

The interpreter runs the threads of a kernel one after another and each of them once; a device runs
whole blocks at once, several of them side by side and each of them twice. After a disciplined run
none of this can be told from the final data.
-/

namespace SimtMachine

open SimtMachine.Interpreter (Visit Course Disciplined Makes Undisturbed entrant)

variable {program : Array UInt16} {dim : UInt8} {data m final : Image UInt8} {n k : Nat}
  {vss : List (List Visit)} {rs : List (Request UInt8)}

/-! ## The threads of a block -/

theorem entrant_eq {lane : Nat} (hl : lane < dim.toNat) :
    entrant dim (k * dim.toNat + lane) =
      .seeded (UInt8.ofNat k) dim (UInt8.ofNat lane) := by
  have hpos : 0 < dim.toNat := Nat.zero_lt_of_lt hl
  rw [entrant, Nat.mul_comm, Nat.mul_add_div hpos, Nat.mul_add_mod, Nat.div_eq_of_lt hl,
    Nat.mod_eq_of_lt hl, Nat.add_zero]

/-- Block number `k` has the threads whose number divided by the block size is `k`. -/
theorem mem_enter_threads (hd : 0 < dim.toNat) {t : Thread} :
    t ∈ ((launchBlock n dim k).enter dim m).threads ↔
      ∃ tid < n, tid / dim.toNat = k ∧ entrant dim tid = t := by
  simp only [Assignment.enter, Lockstep.start, List.mem_map, List.mem_range, launchBlock_threads]
  constructor
  · rintro ⟨lane, hl, rfl⟩
    refine ⟨k * dim.toNat + lane, by omega, ?_, entrant_eq (by omega)⟩
    rw [Nat.mul_comm, Nat.mul_add_div hd, Nat.div_eq_of_lt (by omega), Nat.add_zero]
  · rintro ⟨tid, ht, rfl, rfl⟩
    have hdm := Nat.div_add_mod' tid dim.toNat
    have hlt := Nat.mod_lt tid hd
    refine ⟨tid % dim.toNat, by omega, ?_⟩
    have he := entrant_eq (k := tid / dim.toNat) hlt
    rw [hdm] at he
    exact he.symm

/-- The threads of each block of a disciplined run stay abreast. -/
theorem abreast_launchBlock (hd : 0 < dim.toNat) (hk : k < blockCount n dim)
    (hv : Disciplined dim vss)
    (ht : Interpreter.traceThreads program dim n 0 data = .ok (final, vss)) :
    (launchBlock n dim k).Abreast program data (Interpreter.requests vss.flatten) dim := by
  have hvisits (tid : Nat) (h : tid < n) :
      ∃ vs, vss[tid]? = some vs ∧ Course program data 0 (entrant dim tid) vs := by
    have hlt : tid < vss.length := (Interpreter.length_of_traceThreads ht).symm ▸ h
    have hvs := List.getElem?_eq_getElem hlt
    exact ⟨_, hvs, hv.course ht hvs⟩
  have hfirst : k * dim.toNat < n := (lt_blockCount_iff hd).1 hk
  have hdiv : k * dim.toNat / dim.toNat = k := Nat.mul_div_cancel k hd
  obtain ⟨vs₀, hvs₀, hc₀⟩ := hvisits _ hfirst
  obtain ⟨pcs, hpcs⟩ := List.head?_eq_some_iff.1 hc₀.head_pc
  refine ⟨pcs, fun m hu ↦ ⟨rfl, ?_, ?_, hu⟩⟩
  · exact List.ne_nil_of_mem ((mem_enter_threads hd).2 ⟨_, hfirst, hdiv, rfl⟩)
  · intro t htm
    obtain ⟨tid, hn, hq, rfl⟩ := (mem_enter_threads hd).1 htm
    obtain ⟨vs, hvs, hc⟩ := hvisits tid hn
    refine ⟨vs, hc, ?_, Interpreter.requests_subset hvs⟩
    rw [← hpcs]
    exact hv.abreast _ _ _ _ hvs hvs₀ (hq.trans hdiv.symm)

/-! ## Stores in any order -/

/-- What is stored anywhere in the run is the only thing that can be stored at its address. So where
the memory of a block holds it, the shared memory does, and where nothing is stored all memories
hold the initial data. -/
structure Settled (rs : List (Request UInt8)) (data : Image UInt8)
    (own : Assignment → Image UInt8) (shared : Image UInt8) : Prop where
  stored : ∀ b a v, .write a v ∈ rs → (own b).read a = v → shared.read a = v
  untouched : ∀ a, (∀ v, .write a v ∉ rs) →
    shared.read a = data.read a ∧ ∀ b, (own b).read a = data.read a

theorem Settled.write {own : Assignment → Image UInt8} {shared : Image UInt8} {b : Assignment}
    {a v : UInt8} (h : Settled rs data own shared) (hw : .write a v ∈ rs)
    (hv : ∀ v', .write a v' ∈ rs → v = v') :
    Settled rs data (Function.update own b ((own b).write a v)) (shared.write a v) := by
  constructor
  · intro b' x v' hx hr
    by_cases hxa : x = a
    · subst hxa
      rw [Image.read_write_self, hv v' hx]
    · rw [Image.read_write_of_ne _ _ hxa]
      refine h.stored b' x v' hx ?_
      by_cases hb : b' = b
      · subst hb
        rwa [Function.update_self, Image.read_write_of_ne _ _ hxa] at hr
      · rwa [Function.update_of_ne hb] at hr
  · intro x hx
    have hxa : x ≠ a := by
      rintro rfl
      exact hx v hw
    obtain ⟨hs, ho⟩ := h.untouched x hx
    refine ⟨(Image.read_write_of_ne _ _ hxa).trans hs, ?_⟩
    intro b'
    by_cases hb : b' = b
    · subst hb
      rw [Function.update_self, Image.read_write_of_ne _ _ hxa, ho]
    · rw [Function.update_of_ne hb, ho]

theorem isolation_of_disciplined {words : Image UInt16} {blocks : List Assignment}
    (hv : Disciplined dim vss)
    (hb : ∀ b ∈ blocks, ∀ r, b.Issues words dim data r → r ∈ Interpreter.requests vss.flatten) :
    Isolation words dim blocks data (Settled (Interpreter.requests vss.flatten) data) where
  start := ⟨fun _ _ _ _ hr ↦ hr, fun _ _ ↦ ⟨rfl, fun _ ↦ rfl⟩⟩
  access := by
    intro own shared b r hm hi hs
    have hr := hb b hm r hi
    cases r with
    | read a =>
      obtain ⟨hsh, ho⟩ := hs.untouched a fun v hw ↦ hv.apart a v hw hr
      refine ⟨hsh.trans (ho b).symm, ?_⟩
      rwa [Request.apply, Request.apply, Function.update_eq_self]
    | write a v => exact ⟨rfl, hs.write hr fun v' ↦ hv.agreed a v v' hr⟩

theorem exists_block_of_mem_requests (hd : 0 < dim.toNat) (hv : Disciplined dim vss)
    (ht : Interpreter.traceThreads program dim n 0 data = .ok (final, vss)) {r : Request UInt8}
    (hr : r ∈ Interpreter.requests vss.flatten) :
    ∃ k < blockCount n dim, ∃ t ∈ ((launchBlock n dim k).enter dim data).threads,
      Makes program data 0 t r := by
  obtain ⟨tid, vs, hvs, hm⟩ := Interpreter.mem_requests_flatten hr
  have hn : tid < n := by
    rw [← Interpreter.length_of_traceThreads ht]
    exact (List.getElem?_eq_some_iff.1 hvs).1
  refine ⟨tid / dim.toNat, ?_, entrant dim tid, ?_, vs, hv.course ht hvs, hm⟩
  · rw [lt_blockCount_iff hd]
    exact Nat.lt_of_le_of_lt (Nat.div_mul_le_self _ _) hn
  · exact (mem_enter_threads hd).2 ⟨tid, hn, rfl, rfl⟩

namespace Device

/-- If the sequential run of a kernel is disciplined, every device that completes the kernel ends
with the same data, whatever its cores and its timing. -/
theorem agrees_with_interpreter {c : Config} {program : Array UInt16} {data : Array UInt8}
    {n count : Nat} {d : Device} {final : Image UInt8} (h : Computes c program data n d)
    (hr : Interpreter.run program data n c.threadsPerBlock = .ok (final, count))
    (hv : Disciplined c.threadsPerBlock
      (Interpreter.visits program data n c.threadsPerBlock)) :
    d.data.cells = final := by
  have hp := h.size_le
  have hd : 0 < c.threadsPerBlock.toNat := h.block_size_pos
  have ht := Interpreter.traceThreads_of_run hr
  generalize Interpreter.visits program data n c.threadsPerBlock = vss at hv ht
  have hu : Undisturbed _ (Image.ofArray data) _ := hv.undisturbed
  have hab (k : Nat) (hk : k < blockCount n c.threadsPerBlock) :=
    abreast_launchBlock hd hk hv ht
  have iso : Isolation (Image.ofArray program) c.threadsPerBlock (c.blocks n) (Image.ofArray data)
      (Settled (Interpreter.requests vss.flatten) (Image.ofArray data)) := by
    apply isolation_of_disciplined hv
    intro b hb r hr
    obtain ⟨k, hk, rfl⟩ := mem_launchBlocks.1 hb
    exact (hab k hk).mem_of_issues hp hu hr
  obtain ⟨own, hs, hf⟩ := h.isolated iso
  apply Image.ext_read
  intro a
  obtain ⟨hstored, huntouched⟩ := hv.read ht a
  by_cases ha : ∃ v, .write a v ∈ Interpreter.requests vss.flatten
  · obtain ⟨v, hw⟩ := ha
    obtain ⟨k, hk, t, htm, hm⟩ := exists_block_of_mem_requests hd hv ht hw
    have hown := (hab k hk).read_of_makes hp hu (hf _ (mem_launchBlocks.2 ⟨k, hk, rfl⟩)) htm hm
      fun v' hv' ↦ hv.agreed a v' v hv' hw
    rw [hs.stored _ a v hw hown, hstored v hw]
  · have hnw := not_exists.1 ha
    rw [(hs.untouched a hnw).1, huntouched hnw]

/-- Each thread stores twice a cell of its own in another. -/
def double : Array UInt16 :=
  #[0x50DE, 0x300F, 0x7100, 0x3111, 0x9208, 0x3202, 0x8021, 0xF000]

/-- Three cores for blocks of two threads, with one channel and a slow data memory. -/
def trio : Config where
  coreCount := 3
  threadsPerBlock := 2
  dataChannels := 1
  programChannels := 2
  dataInterval := 2
  programInterval := 3
  maxCycles := 1000
  traceStages := true

theorem agrees_with_interpreter_double :
    ∃ d final count, Computes trio double #[10, 20, 30] 3 d ∧
      Interpreter.run double #[10, 20, 30] 3 trio.threadsPerBlock = .ok (final, count) ∧
      d.data.cells = final ∧ d.data.cells.read 10 = 60 := by
  have hd : (result? trio double #[10, 20, 30] 3 1000).isSome := by decide +kernel
  obtain ⟨d, hd⟩ := Option.isSome_iff_exists.1 hd
  have h := computes_of_result? hd
  have hv : Disciplined trio.threadsPerBlock
      (Interpreter.visits double #[10, 20, 30] 3 trio.threadsPerBlock) := by
    apply Interpreter.disciplined_of_isDisciplined
    decide +kernel
  have hread : (Interpreter.run double #[10, 20, 30] 3 trio.threadsPerBlock).map
      (fun r ↦ r.1.read 10) = .ok 60 := by decide +kernel
  cases hr : Interpreter.run double #[10, 20, 30] 3 trio.threadsPerBlock with
  | error => simp [hr, Except.map] at hread
  | ok r =>
    have hq := agrees_with_interpreter h hr hv
    rw [hr] at hread
    exact ⟨d, r.1, r.2, h, rfl, hq, hq ▸ Except.ok.inj hread⟩

end Device

end SimtMachine
