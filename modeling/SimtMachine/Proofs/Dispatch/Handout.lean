import SimtMachine.Proofs.Dispatch.Runs

/-!
# The order in which blocks are handed out

Whatever the cores report and whatever becomes of the start line after a launch, its blocks are
handed out in descending order without a gap, each with its share of the threads, and only to cores
that have been held in reset.
-/

namespace SimtMachine

variable {n : Nat} {size : UInt8}

theorem launchBlocks_add (n : Nat) (size : UInt8) (left k : Nat) :
    launchBlocks n size (left + k) =
      (List.range k).map (fun j ↦ launchBlock n size (left + k - 1 - j)) ++
        launchBlocks n size left := by
  induction k with
  | zero => rfl
  | succ k ih =>
    rw [← Nat.add_assoc, launchBlocks_succ, ih, List.range_succ_eq_map, List.map_cons,
      List.map_map, List.cons_append]
    congr 2
    apply List.map_congr_left
    intro j _
    exact congrArg _ (by simp only [Nat.succ_eq_add_one]; omega)

/-- The blocks of a launch cut its threads into ranges. -/
theorem existsUnique_block (hs : 0 < size.toNat) {x : Nat} (hx : x < n) :
    ∃! k, k < blockCount n size ∧ k * size.toNat ≤ x ∧
      x < k * size.toNat + min size.toNat (n - k * size.toNat) := by
  have hdm := Nat.div_add_mod' x size.toNat
  have hlt := Nat.mod_lt x hs
  refine ⟨x / size.toNat, ⟨?_, by omega, by omega⟩, ?_⟩
  · rw [lt_blockCount_iff hs]
    omega
  · rintro k ⟨-, hle, hgt⟩
    symm
    apply Nat.div_eq_of_lt_le hle
    rw [Nat.succ_mul]
    omega

namespace Dispatcher

variable {cores : Nat} {inputs : List DispatchInput} {outputs : List (List Order)}
  {left served : Nat} {d : Dispatcher}

theorem Books.mem_dispatched (h : d.Books n size left served) (id : Fin maxBlocks) :
    id ∈ d.dispatched ↔ left ≤ id.val ∧ id.val < blockCount n size := by
  rw [Dispatcher.dispatched, List.mem_filter, h.mask id]
  exact and_iff_right (List.mem_finRange id)

theorem Books.toNat_threadsOf (h : d.Books n size left served) {k : Nat}
    (hk : k < blockCount n size) :
    (d.threadsOf k).toNat = min size.toNat (n - k * size.toNat) := by
  rw [← launchBlock_threads, ← h.threadsOf hk]

/-- The blocks begun in a run are the highest ones. -/
theorem Log.starts_eq (h : Log cores size inputs outputs left served d) :
    outputs.flatten.filterMap Order.start =
      (List.range d.dispatchedCount).map fun j ↦
        launchBlock (launchThreads inputs) size
          (blockCount (launchThreads inputs) size - 1 - j) := by
  have hk : left + d.dispatchedCount = blockCount (launchThreads inputs) size :=
    (Nat.add_comm _ _).trans h.books.dispatched
  have hs := h.starts
  rw [← hk, launchBlocks_add] at hs
  rw [← hk]
  exact List.append_cancel_right hs

theorem Log.numbers_eq (h : Log cores size inputs outputs left served d) :
    (outputs.flatten.filterMap Order.start).map (fun b ↦ b.block.toNat) =
      (List.range d.dispatchedCount).map
        (fun j ↦ blockCount (launchThreads inputs) size - 1 - j) := by
  have hcap := h.books.capacity
  have hcount := h.books.dispatched
  rw [h.starts_eq, List.map_map]
  apply List.map_congr_left
  intro j hj
  rw [List.mem_range] at hj
  exact launchBlock_block _ _ (by omega)

theorem Log.mem_dispatched_iff (h : Log cores size inputs outputs left served d)
    (id : Fin maxBlocks) :
    id ∈ d.dispatched ↔
      id.val ∈ (outputs.flatten.filterMap Order.start).map (fun b ↦ b.block.toNat) := by
  have hcount := h.books.dispatched
  rw [h.books.mem_dispatched, h.numbers_eq, List.mem_map]
  constructor
  · intro hid
    exact ⟨blockCount (launchThreads inputs) size - 1 - id, List.mem_range.2 (by omega), by omega⟩
  · rintro ⟨j, hj, hid⟩
    rw [List.mem_range] at hj
    omega

theorem Log.threads_eq (h : Log cores size inputs outputs left served d) {b : Assignment}
    (hb : b ∈ outputs.flatten.filterMap Order.start) : b.threads = d.threadsOf b.block.toNat := by
  have hcap := h.books.capacity
  have hcount := h.books.dispatched
  rw [h.starts_eq, List.mem_map] at hb
  obtain ⟨j, hj, rfl⟩ := hb
  rw [List.mem_range] at hj
  rw [launchBlock_block _ _ (by omega), ← h.books.threadsOf (by omega)]

theorem Books.existsUnique_range (h : d.Books n size left served) (hs : 0 < size.toNat) {x : Nat}
    (hx : x < n) :
    ∃! k, k < blockCount n size ∧ k * size.toNat ≤ x ∧
      x < k * size.toNat + (d.threadsOf k).toNat := by
  obtain ⟨k, ⟨hk, hle, hlt⟩, huniq⟩ := existsUnique_block hs hx
  refine ⟨k, ⟨hk, hle, by rwa [h.toNat_threadsOf hk]⟩, ?_⟩
  rintro k' ⟨hk', hle', hlt'⟩
  rw [h.toNat_threadsOf hk'] at hlt'
  exact huniq k' ⟨hk', hle', hlt'⟩

/-- In every run that exceeds no capacity, the blocks begun, read cycle by cycle and core by core,
count down from the last block of the first launch, and these are the blocks booked as handed out.
Each has its share of the threads, which makes a partition of them all, and a core begins a block
only after a cycle in which it was held in reset. -/
theorem hands_out_descending (hs : size ≠ 0) (h : Admissible cores size inputs) :
    ∃ d₀ d outputs, create cores size = .ok d₀ ∧ d₀.ticks inputs = .ok (d, outputs) ∧
      (outputs.length = inputs.length ∧ ∀ orders ∈ outputs, orders.length = cores) ∧
      d.dispatchedCount ≤ blockCount (launchThreads inputs) size ∧
      (outputs.flatten.filterMap Order.start).map (fun b ↦ b.block.toNat) =
        (List.range d.dispatchedCount).map
          (fun j ↦ blockCount (launchThreads inputs) size - 1 - j) ∧
      (∀ id, id ∈ d.dispatched ↔
        id.val ∈ (outputs.flatten.filterMap Order.start).map (fun b ↦ b.block.toNat)) ∧
      (∀ b ∈ outputs.flatten.filterMap Order.start, b.threads = d.threadsOf b.block.toNat) ∧
      (∀ id < blockCount (launchThreads inputs) size,
        (d.threadsOf id).toNat = min size.toNat (launchThreads inputs - id * size.toNat) ∧
        1 ≤ (d.threadsOf id).toNat ∧ (d.threadsOf id).toNat ≤ size.toNat ∧
        id * size.toNat + (d.threadsOf id).toNat ≤ launchThreads inputs) ∧
      (∀ x < launchThreads inputs, ∃! id, id < blockCount (launchThreads inputs) size ∧
        id * size.toNat ≤ x ∧ x < id * size.toNat + (d.threadsOf id).toNat) ∧
      ∀ t c o b, orderAt outputs t c = some o → o.start = some b →
        o.reset = false ∧
        ∃ t' o', t' + 1 = t ∧ orderAt outputs t' c = some o' ∧ o'.reset = true := by
  obtain ⟨d, outputs, left, served, hd, hlog⟩ := exists_log h
  have hpos : 0 < size.toNat := Nat.pos_of_ne_zero fun hz ↦ hs (UInt8.toNat_inj.1 hz)
  have hcount := hlog.books.dispatched
  refine ⟨_, d, outputs, if_neg hs, hd, ⟨hlog.history.length, hlog.length_orders⟩, by omega,
    hlog.numbers_eq, hlog.mem_dispatched_iff, fun b ↦ hlog.threads_eq, ?_,
    fun x ↦ hlog.books.existsUnique_range hpos, hlog.history.begins⟩
  intro id hid
  have hfirst := (lt_blockCount_iff hpos).1 hid
  rw [hlog.books.toNat_threadsOf hid]
  omega

/-- Nine threads on two cores, with a start line that stays raised and other numbers of threads
after the launch. Both cores complete their first block in one cycle. -/
def nineThreads : List DispatchInput :=
  [⟨true, 9, [false, false]⟩, ⟨true, 5, [true, false]⟩, ⟨false, 0, [true, true]⟩,
    ⟨true, 1000, [true, false]⟩, ⟨true, 1000, [true, true]⟩, ⟨true, 3, [true, true]⟩]

theorem hands_out_descending_nine :
    (4 : UInt8) ≠ 0 ∧ Admissible 2 4 nineThreads ∧
      ∃ d₀ d outputs, create 2 4 = .ok d₀ ∧ d₀.ticks nineThreads = .ok (d, outputs) ∧
        (outputs.flatten.filterMap Order.start).map (fun b ↦ b.block.toNat) = [2, 1, 0] ∧
        (d.threadsOf 2).toNat = 1 := by
  have hadm : Admissible 2 4 nineThreads := ⟨by decide, by decide⟩
  obtain ⟨d₀, d, outputs, hc, hd, -, -, hids, -, -, hsize, -⟩ :=
    hands_out_descending (show (4 : UInt8) ≠ 0 by decide) hadm
  have hcount : d.dispatchedCount = 3 := by
    have hrun : ((create 2 4).bind fun d ↦ d.ticks nineThreads).toOption.map
        (fun r ↦ r.1.dispatchedCount) = some 3 := by decide +kernel
    rw [hc] at hrun
    simp only [Except.bind, hd] at hrun
    exact Option.some.inj hrun
  rw [hcount] at hids
  exact ⟨by decide, hadm, d₀, d, outputs, hc, hd, hids, (hsize 2 (by decide)).1⟩

end Dispatcher

end SimtMachine
