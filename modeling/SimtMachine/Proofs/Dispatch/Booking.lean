import Mathlib.Data.List.FinRange
import SimtMachine.Dispatch

/-!
# Bookings of a launch

While a launch is under way, the blocks not yet handed out are those with the lowest numbers, so
that the state of the dispatcher comes to two counters. The turn of a core moves these counters in
one of four ways.
-/

namespace SimtMachine

/-! ## The blocks of a launch -/

/-- Block number `k` of a launch, with its share of the threads. -/
def launchBlock (threads : Nat) (size : UInt8) (k : Nat) : Assignment :=
  ⟨UInt8.ofNat k, UInt8.ofNat (min size.toNat (threads - k * size.toNat))⟩

theorem launchBlock_threads (n : Nat) (size : UInt8) (k : Nat) :
    (launchBlock n size k).threads.toNat = min size.toNat (n - k * size.toNat) := by
  have hlt := size.toNat_lt
  rw [launchBlock, UInt8.toNat_ofNat']
  omega

theorem launchBlock_block (n : Nat) (size : UInt8) {k : Nat} (hk : k < maxBlocks) :
    (launchBlock n size k).block.toNat = k := by
  have hm : maxBlocks = 64 := rfl
  rw [launchBlock, UInt8.toNat_ofNat']
  omega

/-- The blocks below `count`, the highest first. -/
def launchBlocks (threads : Nat) (size : UInt8) (count : Nat) : List Assignment :=
  ((List.range count).map (launchBlock threads size)).reverse

theorem launchBlocks_succ (threads : Nat) (size : UInt8) (k : Nat) :
    launchBlocks threads size (k + 1) =
      launchBlock threads size k :: launchBlocks threads size k := by
  simp [launchBlocks, List.range_succ]

@[simp] theorem length_launchBlocks (threads : Nat) (size : UInt8) (count : Nat) :
    (launchBlocks threads size count).length = count := by
  simp [launchBlocks]

theorem mem_launchBlocks {threads : Nat} {size : UInt8} {count : Nat} {b : Assignment} :
    b ∈ launchBlocks threads size count ↔ ∃ k < count, launchBlock threads size k = b := by
  simp [launchBlocks]

/-- The threads of a launch, and no others, are in its blocks. -/
theorem lt_blockCount_iff {threads : Nat} {size : UInt8} (h : 0 < size.toNat) {k : Nat} :
    k < blockCount threads size ↔ k * size.toNat < threads := by
  rw [blockCount, Nat.lt_iff_add_one_le, Nat.le_div_iff_mul_le h, Nat.succ_mul]
  omega

theorem nodup_block_launchBlocks (threads : Nat) (size : UInt8) {count : Nat}
    (h : count ≤ maxBlocks) : ((launchBlocks threads size count).map Assignment.block).Nodup := by
  rw [launchBlocks, List.map_reverse, List.map_map]
  refine List.nodup_reverse.2 (List.Nodup.map_on (fun k hk j hj hq ↦ ?_) List.nodup_range)
  rw [List.mem_range] at hk hj
  calc
    k = (launchBlock threads size k).block.toNat := (launchBlock_block _ _ (by omega)).symm
    _ = (launchBlock threads size j).block.toNat := congrArg UInt8.toNat hq
    _ = j := launchBlock_block _ _ (by omega)

theorem nodup_launchBlocks (threads : Nat) (size : UInt8) {count : Nat} (h : count ≤ maxBlocks) :
    (launchBlocks threads size count).Nodup :=
  (nodup_block_launchBlocks threads size h).of_map _

theorem size_pos_of_lt_blockCount {threads : Nat} {size : UInt8} {k : Nat}
    (h : k < blockCount threads size) : 0 < size.toNat := by
  apply Nat.pos_of_ne_zero
  intro hz
  simp [blockCount, hz] at h

/-- Every block but the last is full. -/
theorem size_le_of_succ_lt {threads : Nat} {size : UInt8} {k : Nat}
    (h : k + 1 < blockCount threads size) : size.toNat ≤ threads - k * size.toNat := by
  have hlt := (lt_blockCount_iff (size_pos_of_lt_blockCount h)).1 h
  rw [Nat.succ_mul] at hlt
  omega

/-- The last block takes what is left. -/
theorem le_size_of_succ_eq {threads : Nat} {size : UInt8} {k : Nat}
    (h : k + 1 = blockCount threads size) : threads - k * size.toNat ≤ size.toNat := by
  have hs := size_pos_of_lt_blockCount (Nat.lt_of_succ_le h.le)
  have hle : ¬ (k + 1) * size.toNat < threads := by
    rw [← lt_blockCount_iff hs, h]
    exact Nat.lt_irrefl _
  rw [Nat.succ_mul] at hle
  omega

/-! ## Slots -/

/-- What the dispatcher books on a core is the block that the core has. -/
inductive Slot.Fits (s : Slot) : Option Assignment → Prop
  | busy {b : Assignment} : s.busy = true → s.awaiting = false → s.assignment = some b →
      Slot.Fits s (some b)
  | free : s.busy = false → Slot.Fits s none

theorem Slot.Fits.not_both {s : Slot} {a : Option Assignment} (h : s.Fits a) :
    (s.busy && s.awaiting) = false := by
  cases h <;> simp_all

theorem Slot.Fits.of_awaiting {s : Slot} {a : Option Assignment} (h : s.Fits a)
    (hs : s.awaiting = true) : s.busy = false ∧ a = none := by
  cases h <;> simp_all

theorem Slot.Fits.of_busy {s : Slot} {a : Option Assignment} (h : s.Fits a)
    (hs : s.busy = true) : ∃ b, s.assignment = some b ∧ a = some b := by
  cases h <;> simp_all

theorem Slot.Fits.busy_of_isSome {s : Slot} {a : Option Assignment} (h : s.Fits a)
    (ha : a.isSome = true) : s.busy = true := by
  cases h <;> simp_all

/-! ## Bookings -/

/-- The first hit in a descending list is the greatest one. -/
theorem find?_eq_some_of_greatest {n : Nat} {xs : List (Fin n)} {p : Fin n → Bool} {k : Fin n}
    (hs : xs.Pairwise (· > ·)) (hk : k ∈ xs) (hp : p k = true)
    (hmax : ∀ x ∈ xs, p x = true → x ≤ k) : xs.find? p = some k := by
  induction xs with
  | nil => simp at hk
  | cons x xs ih =>
    obtain ⟨hx, hs⟩ := List.pairwise_cons.1 hs
    rcases List.mem_cons.1 hk with rfl | hk
    · simp [hp]
    · have hlt : x > k := hx k hk
      have hn : p x = false := eq_false_of_ne_true fun h ↦ absurd (hmax x (by simp) h) (by omega)
      rw [List.find?_cons, hn]
      exact ih hs hk fun y hy h ↦ hmax y (by simp [hy]) h

namespace Dispatcher

/-- The bookings of a launch of `n` threads in blocks of `size`, of which the blocks below `left`
have not been handed out and `served` have been completed. -/
structure Books (n : Nat) (size : UInt8) (left served : Nat) (d : Dispatcher) : Prop where
  blockSize : d.blockSize = size
  threads : d.threads = n
  blocks : d.blocks = blockCount n size
  capacity : blockCount n size ≤ maxBlocks
  left_le : left ≤ blockCount n size
  mask : ∀ id : Fin maxBlocks,
    d.hasDispatched id = true ↔ left ≤ id.val ∧ id.val < blockCount n size
  dispatched : d.dispatchedCount + left = blockCount n size
  completed : d.completedCount = served

variable {n : Nat} {size : UInt8} {left served : Nat} {d : Dispatcher}

theorem Books.free_iff (h : d.Books n size left served) (id : Fin maxBlocks) :
    (id < d.blocks && !d.hasDispatched id) = true ↔ id.val < left := by
  have hm := h.mask id
  have hl := h.left_le
  rw [h.blocks]
  cases hq : d.hasDispatched id with
  | true =>
    simp only [hq, true_iff] at hm
    simp only [Bool.not_true, Bool.and_false, Bool.false_eq_true, false_iff]
    omega
  | false =>
    simp only [hq, Bool.false_eq_true, false_iff] at hm
    simp only [Bool.not_false, Bool.and_true, decide_eq_true_eq]
    omega

theorem Books.pick_zero (h : d.Books n size 0 served) : d.pick = none := by
  refine List.find?_eq_none.2 fun id _ ↦ ?_
  rw [h.free_iff]
  exact Nat.not_lt_zero _

theorem Books.pick_succ {k : Nat} (h : d.Books n size (k + 1) served) :
    ∃ hk : k < maxBlocks, d.pick = some ⟨k, hk⟩ := by
  have hc := h.capacity
  have hl := h.left_le
  refine ⟨by omega, find?_eq_some_of_greatest ?_ (by simp) ?_ fun id _ hid ↦ ?_⟩
  · exact List.pairwise_reverse.2 (List.pairwise_lt_finRange maxBlocks)
  · rw [h.free_iff]
    exact Nat.lt_succ_self k
  · rw [h.free_iff] at hid
    exact Fin.le_def.2 (Nat.le_of_lt_succ hid)

theorem Books.threadsOf (h : d.Books n size left served) {k : Nat}
    (hk : k < blockCount n size) :
    (⟨UInt8.ofNat k, d.threadsOf k⟩ : Assignment) = launchBlock n size k := by
  rw [launchBlock, Dispatcher.threadsOf, h.blocks, h.threads, h.blockSize]
  split
  · next hq => rw [Nat.min_eq_right (le_size_of_succ_eq hq)]
  · next hq =>
    rw [Nat.min_eq_left (size_le_of_succ_lt (by omega)), UInt8.ofNat_toNat]

/-- The four turns of a core, with the counters before and after. -/
inductive Turn (n : Nat) (size : UInt8) (s : Slot) (coreDone : Bool) :
    (left served left' served' : Nat) → Slot → Order → Prop
  | begin (k served : Nat) : s.awaiting = true →
      Turn n size s coreDone (k + 1) served k served
        ⟨true, false, some (launchBlock n size k)⟩
        ⟨false, some (launchBlock n size k), none⟩
  | exhaust (served : Nat) : s.awaiting = true →
      Turn n size s coreDone 0 served 0 served { s with awaiting := false }
        ⟨false, none, none⟩
  | complete (left served : Nat) : s.busy = true → coreDone = true →
      Turn n size s coreDone left served left (served + 1)
        { s with busy := false, awaiting := true } ⟨true, none, s.assignment⟩
  | keep (left served : Nat) : s.awaiting = false → (s.busy && coreDone) = false →
      Turn n size s coreDone left served left served s ⟨false, none, none⟩

theorem Turn.left_eq {s s' : Slot} {coreDone : Bool} {left' served' : Nat} {o : Order}
    (h : Turn n size s coreDone left served left' served' s' o) (ha : s.awaiting ≠ true) :
    left' = left := by
  cases h with
  | begin _ _ hs => exact absurd hs ha
  | _ => rfl

theorem Books.begin {k : Nat} (h : d.Books n size (k + 1) served) (hk : k < maxBlocks) :
    { d with mask := d.mask.set k true hk, dispatchedCount := d.dispatchedCount + 1 }.Books
      n size k served where
  blockSize := h.blockSize
  threads := h.threads
  blocks := h.blocks
  capacity := h.capacity
  left_le := Nat.le_of_succ_le h.left_le
  mask id := by
    have hm := h.mask id
    have hl := h.left_le
    simp only [hasDispatched, Fin.getElem_fin, Vector.getElem_set] at hm ⊢
    split
    · next hq => simp only [true_iff]; omega
    · next hq => rw [hm]; omega
  dispatched := by
    have hd := h.dispatched
    simp only
    omega
  completed := h.completed

theorem Books.visit (h : d.Books n size left served) {s : Slot} (coreDone : Bool)
    (hs : (s.busy && s.awaiting) = false) :
    ∃ left' served', (visit d (s, coreDone)).1.Books n size left' served' ∧
      Turn n size s coreDone left served left' served'
        (visit d (s, coreDone)).2.1 (visit d (s, coreDone)).2.2 := by
  obtain ⟨busy, awaiting, a⟩ := s
  cases awaiting with
  | true =>
    have hb : busy = false := by simpa using hs
    cases left with
    | zero =>
      have hv : Dispatcher.visit d (⟨busy, true, a⟩, coreDone) =
          (d, ⟨busy, false, a⟩, ⟨false, none, none⟩) := by
        simp [Dispatcher.visit, offer, h.pick_zero, hb]
      rw [hv]
      exact ⟨0, served, h, .exhaust served rfl⟩
    | succ k =>
      obtain ⟨hk, hp⟩ := h.pick_succ
      have ht := h.threadsOf (k := k) (by have := h.left_le; omega)
      have hv : Dispatcher.visit d (⟨busy, true, a⟩, coreDone) =
          ({ d with mask := d.mask.set k true hk, dispatchedCount := d.dispatchedCount + 1 },
            ⟨true, false, some (launchBlock n size k)⟩,
            ⟨false, some (launchBlock n size k), none⟩) := by
        simp [Dispatcher.visit, offer, hp, hb, ht]
      rw [hv]
      exact ⟨k, served, h.begin hk, .begin k served rfl⟩
  | false =>
    cases hq : busy && coreDone with
    | true =>
      have hv : Dispatcher.visit d (⟨busy, false, a⟩, coreDone) =
          ({ d with completedCount := d.completedCount + 1 }, ⟨false, true, a⟩,
            ⟨true, none, a⟩) := by
        simp [Dispatcher.visit, offer, hq]
      obtain ⟨hb, hd⟩ := Bool.and_eq_true_iff.1 hq
      rw [hv]
      refine ⟨left, served + 1, ?_, .complete left served hb hd⟩
      exact { h with completed := congrArg (· + 1) h.completed }
    | false =>
      have hv : Dispatcher.visit d (⟨busy, false, a⟩, coreDone) =
          (d, ⟨busy, false, a⟩, ⟨false, none, none⟩) := by
        simp [Dispatcher.visit, offer, hq]
      rw [hv]
      exact ⟨left, served, h, .keep left served rfl hq⟩

/-! ## Cycles of a launch -/

theorem offer_launch (d : Dispatcher) (s : Slot) :
    (d.offer s).1.launched = d.launched ∧ (d.offer s).1.done = d.done := by
  unfold offer
  split
  · split <;> exact ⟨rfl, rfl⟩
  · exact ⟨rfl, rfl⟩

theorem visit_launch (d : Dispatcher) (turn : Slot × Bool) :
    (visit d turn).1.launched = d.launched ∧ (visit d turn).1.done = d.done := by
  simp only [Dispatcher.visit]
  split <;> exact offer_launch d turn.1

theorem proceed_launch (d : Dispatcher) (coreDone : List Bool) :
    (d.proceed coreDone).1.launched = d.launched ∧ (d.proceed coreDone).1.done = d.done :=
  ⟨sweep_invariant (f := Dispatcher.launched) (fun d x _ ↦ (visit_launch d x).1) d,
    sweep_invariant (f := Dispatcher.done) (fun d x _ ↦ (visit_launch d x).2) d⟩

theorem books_launch (cores : Nat) (size : UInt8) (hc : blockCount n size ≤ maxBlocks) :
    ((initial cores size).launch n).Books n size (blockCount n size) 0 where
  blockSize := rfl
  threads := rfl
  blocks := rfl
  capacity := hc
  left_le := Nat.le_refl _
  mask id := by
    have hm : ((initial cores size).launch n).hasDispatched id = false := by
      simp [hasDispatched, launch, initial]
    rw [hm]
    simp only [Bool.false_eq_true, false_iff]
    omega
  dispatched := Nat.zero_add _
  completed := rfl

theorem Books.latch (h : d.Books n size left served) : d.latch.Books n size left served := by
  unfold Dispatcher.latch
  split
  · exact { h with }
  · exact h

theorem latch_slots (d : Dispatcher) : d.latch.slots = d.slots := by
  unfold Dispatcher.latch
  split <;> rfl

/-- The launch is over as soon as the last block is complete. -/
theorem Books.latch_stage (h : d.Books n size left served) (hl : d.launched = true)
    (hd : d.done = false) :
    (d.latch.launched = true ∧ d.latch.done = false) ∧ served < blockCount n size ∨
      (d.latch.launched = false ∧ d.latch.done = true) ∧ blockCount n size ≤ served := by
  unfold Dispatcher.latch
  rw [hl, h.completed, h.blocks]
  by_cases hle : blockCount n size ≤ served
  · exact .inr ⟨by simp [hle], hle⟩
  · exact .inl ⟨by simp [hle, hl, hd], Nat.lt_of_not_le hle⟩

theorem advance_of_launched (i : DispatchInput) (hl : d.launched = true) :
    d.advance i = ((d.proceed i.coreDone).1.latch, (d.proceed i.coreDone).2) := by
  simp [Dispatcher.advance, accepts, hl]

end Dispatcher

end SimtMachine
