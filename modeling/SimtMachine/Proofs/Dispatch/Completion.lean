import SimtMachine.Proofs.Dispatch.Handout

/-!
# The accounts of a launch

The counters of a dispatcher agree with its mask, with its slots and with the orders given so far,
after any inputs. A block is completed at most once and by the core that has begun it, and the
dispatcher is done as soon as the last block is complete, once and for all.
-/

namespace SimtMachine

theorem length_busyBlocks {slots : List Slot} (h : ∀ s ∈ slots, s.Fits s.block?) :
    (slots.filterMap Slot.block?).length = slots.countP Slot.busy := by
  rw [List.length_filterMap_eq_countP]
  apply List.countP_congr
  intro s hs
  cases hb : s.busy with
  | true =>
    obtain ⟨b, -, hq⟩ := (h s hs).of_busy hb
    simp [hq]
  | false => simp [Slot.block?_of_not_busy hb]

namespace Dispatcher

variable {n : Nat} {size : UInt8} {cores : Nat} {inputs : List DispatchInput}
  {outputs : List (List Order)} {left served : Nat} {d : Dispatcher}

theorem count_mask (d : Dispatcher) : d.mask.toList.count true = d.dispatched.length := by
  have hm : d.mask.toList = (List.finRange maxBlocks).map d.hasDispatched := by
    apply List.ext_getElem (by simp)
    intro k _ _
    simp [hasDispatched]
  rw [hm, List.count, List.countP_map, dispatched, ← List.countP_eq_length_filter]
  exact List.countP_congr fun id _ ↦ by simp

/-- The mask has a bit for each block handed out. -/
theorem Books.length_dispatched (h : d.Books n size left served) :
    d.dispatched.length = d.dispatchedCount := by
  have hcap := h.capacity
  have hcount := h.dispatched
  have hperm : (d.dispatched.map Fin.val).Perm (List.range' left d.dispatchedCount) := by
    have hnodup : d.dispatched.Nodup := (List.nodup_finRange maxBlocks).filter _
    apply (List.perm_ext_iff_of_nodup (hnodup.map Fin.val_injective) List.nodup_range').2
    intro k
    rw [List.mem_map, List.mem_range'_1]
    constructor
    · rintro ⟨id, hid, rfl⟩
      rw [h.mem_dispatched] at hid
      omega
    · intro hk
      exact ⟨⟨k, by omega⟩, (h.mem_dispatched _).2 ⟨hk.1, by simp only; omega⟩, rfl⟩
  simpa using hperm.length_eq

theorem Log.nodup_starts (h : Log cores size inputs outputs left served d) :
    ((outputs.flatten.filterMap Order.start).map Assignment.block).Nodup := by
  have hn := nodup_block_launchBlocks (launchThreads inputs) size h.books.capacity
  rw [← h.starts, List.map_append] at hn
  exact hn.of_append_left

theorem Log.nodup_completed (h : Log cores size inputs outputs left served d) :
    ((outputs.flatten.filterMap Order.completed).map Assignment.block).Nodup := by
  have hn := (h.settles.map Assignment.block).nodup_iff.2 h.nodup_starts
  rw [List.map_append] at hn
  exact hn.of_append_left

theorem Log.length_starts (h : Log cores size inputs outputs left served d) :
    (outputs.flatten.filterMap Order.start).length = d.dispatchedCount := by
  rw [h.starts_eq, List.length_map, List.length_range]

/-- Every block handed out is complete or at work. -/
theorem Log.dispatchedCount_eq (h : Log cores size inputs outputs left served d) :
    d.dispatchedCount = d.completedCount + d.slots.countP Slot.busy := by
  rw [← h.length_starts, ← h.settles.length_eq, List.length_append, h.served_eq,
    length_busyBlocks h.fits, h.books.completed]

theorem Log.done_iff (h : Log cores size inputs outputs left served d) :
    d.done = true ↔ (∃ i ∈ inputs, i.start = true) ∧ d.completedCount = d.blocks := by
  have hcount := h.dispatchedCount_eq
  have hleft := h.books.dispatched
  rw [h.books.completed] at hcount
  rw [h.books.completed, h.books.blocks]
  cases h.progress with
  | fresh hs hd =>
    subst hd
    constructor
    · nofun
    · rintro ⟨⟨i, hi, ht⟩, -⟩
      rw [hs i hi] at ht
      cases ht
  | running hs hl hlt =>
    rw [hl.2]
    constructor
    · nofun
    · rintro ⟨-, hq⟩
      omega
  | finished hs hd hle =>
    rw [hd.2]
    exact ⟨fun _ ↦ ⟨hs, by omega⟩, fun _ ↦ rfl⟩

/-- A dispatcher that is done has handed out and completed all blocks. -/
theorem Log.completed_of_done (h : Log cores size inputs outputs left served d)
    (hd : d.done = true) :
    outputs.flatten.filterMap Order.start = launchBlocks (launchThreads inputs) size
        (blockCount (launchThreads inputs) size) ∧
      (outputs.flatten.filterMap Order.completed).Perm
        (outputs.flatten.filterMap Order.start) := by
  have hall := (h.done_iff.1 hd).2
  have hcount := h.dispatchedCount_eq
  have hleft := h.books.dispatched
  rw [h.books.blocks] at hall
  have hbusy : d.slots.filterMap Slot.block? = [] := by
    apply List.eq_nil_of_length_eq_zero
    rw [length_busyBlocks h.fits]
    omega
  have hstarts := h.starts
  have hsettles := h.settles
  rw [hbusy, List.append_nil] at hsettles
  rw [show left = 0 by omega] at hstarts
  exact ⟨(List.append_nil _).symm.trans hstarts, hsettles⟩

theorem Log.stays (h : Log cores size inputs outputs left served d) (hd : d.done = true)
    {more : List DispatchInput} (hm : ∀ i ∈ more, i.coreDone.length = cores) :
    ∃ later, d.ticks more = .ok (d, later) ∧
      ∀ orders ∈ later, ∀ o ∈ orders, o.start = none ∧ o.completed = none := by
  have hl : d.launched = false := by
    cases h.progress with
    | fresh _ hf => rw [hf]; rfl
    | running _ hl _ => exact absurd hd (by simp [hl.2])
    | finished _ hl _ => exact hl.1
  refine ⟨_, ticks_of_done ⟨hl, hd⟩ fun i hi ↦ (hm i hi).trans h.length_slots.symm, ?_⟩
  intro orders horders o ho
  obtain ⟨_, -, rfl⟩ := List.mem_map.1 horders
  obtain ⟨_, -, rfl⟩ := List.mem_map.1 ho
  exact ⟨rfl, rfl⟩

/-- After every run that exceeds no capacity, the blocks handed out are those in the mask and those
begun, and each of them is complete or at work on one core. While the launch is under way no core is
without a block or a claim to one unless all blocks are handed out. A block is completed once, after
its start, on the core that began it and when that core reports it. The dispatcher is done exactly
if a launch has all its blocks complete, and then nothing changes any more. -/
theorem accounts_exact (hs : size ≠ 0) (h : Admissible cores size inputs) :
    ∃ d₀ d outputs, create cores size = .ok d₀ ∧ d₀.ticks inputs = .ok (d, outputs) ∧
      d.mask.toList.count true = d.dispatchedCount ∧
      (outputs.flatten.filterMap Order.start).length = d.dispatchedCount ∧
      (outputs.flatten.filterMap Order.completed).length = d.completedCount ∧
      d.dispatchedCount = d.completedCount + d.slots.countP Slot.busy ∧
      d.completedCount ≤ d.dispatchedCount ∧ d.dispatchedCount ≤ d.blocks ∧
      (∀ s ∈ d.slots, (s.busy && s.awaiting) = false) ∧
      (d.launched = true → (∀ s ∈ d.slots, s.busy = true ∨ s.awaiting = true) ∨
        d.dispatchedCount = d.blocks) ∧
      ((outputs.flatten.filterMap Order.start).map Assignment.block).Nodup ∧
      ((outputs.flatten.filterMap Order.completed).map Assignment.block).Nodup ∧
      (∀ t c b, CompletesAt outputs t c b → (∃ t' < t, StartsAt outputs t' c b) ∧
        ∃ i, inputs[t]? = some i ∧ i.coreDone[c]? = some true) ∧
      (d.done = true ↔ (∃ i ∈ inputs, i.start = true) ∧ d.completedCount = d.blocks) ∧
      (d.done = true → ∀ more : List DispatchInput, (∀ i ∈ more, i.coreDone.length = cores) →
        ∃ later, d.ticks more = .ok (d, later) ∧
          ∀ orders ∈ later, ∀ o ∈ orders, o.start = none ∧ o.completed = none) := by
  obtain ⟨d, outputs, left, served, hd, hlog⟩ := exists_log h
  have hcount := hlog.dispatchedCount_eq
  have hleft := hlog.books.dispatched
  have hblocks := hlog.books.blocks
  refine ⟨_, d, outputs, if_neg hs, hd, ?_, hlog.length_starts, ?_, hcount, by omega, by omega, ?_,
    ?_, hlog.nodup_starts, hlog.nodup_completed, hlog.history.completes, hlog.done_iff, ?_⟩
  · rw [count_mask, hlog.books.length_dispatched]
  · rw [hlog.served_eq, hlog.books.completed]
  · intro s hs
    exact (hlog.fits s hs).not_both
  · intro hl
    rcases hlog.staffed hl with rfl | hstaffed
    · exact .inr (hleft.trans hblocks.symm)
    · exact .inl hstaffed
  · intro hdone more hm
    exact hlog.stays hdone hm

/-- After the last of the nine threads the start line is raised again, for more threads than ever
fit. -/
theorem accounts_exact_nine :
    (4 : UInt8) ≠ 0 ∧ Admissible 2 4 nineThreads ∧
      ∃ d₀ d outputs, create 2 4 = .ok d₀ ∧ d₀.ticks nineThreads = .ok (d, outputs) ∧
        d.completedCount = 3 ∧ (outputs.flatten.filterMap Order.completed).length = 3 ∧
        d.done = true ∧ (∀ i ∈ nineThreads, i.coreDone.length = 2) ∧
        ∃ later, d.ticks nineThreads = .ok (d, later) := by
  have hadm : Admissible 2 4 nineThreads := ⟨by decide, by decide⟩
  obtain ⟨d₀, d, outputs, hc, hd, -, -, hcompleted, -, -, -, -, -, -, -, -, hdone, hstays⟩ :=
    accounts_exact (show (4 : UInt8) ≠ 0 by decide) hadm
  have hcount : d.completedCount = 3 ∧ d.blocks = 3 := by
    have hrun : ((create 2 4).bind fun d ↦ d.ticks nineThreads).toOption.map
        (fun r ↦ (r.1.completedCount, r.1.blocks)) = some (3, 3) := by decide +kernel
    rw [hc] at hrun
    simp only [Except.bind, hd] at hrun
    exact Prod.mk.inj (Option.some.inj hrun)
  have ht : d.done = true := hdone.2 ⟨⟨_, List.mem_cons_self, rfl⟩, by rw [hcount.1, hcount.2]⟩
  obtain ⟨later, hlater, -⟩ := hstays ht nineThreads hadm.doneLines
  exact ⟨by decide, hadm, d₀, d, outputs, hc, hd, hcount.1, hcompleted.trans hcount.1, ht,
    hadm.doneLines, later, hlater⟩

end Dispatcher

end SimtMachine
