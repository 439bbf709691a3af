import Mathlib.Data.List.Induction
import SimtMachine.Proofs.Dispatch.Turns

/-!
# Runs of a dispatcher

A new dispatcher takes inputs cycle after cycle: start lines that come and go, any numbers of
threads, any done lines. The log of such a run relates the orders given so far to the counters and
the slots. Every run that exceeds no capacity is accepted and has a log.
-/

namespace SimtMachine

namespace Dispatcher

/-! ## Inputs and orders of a run -/

/-- The cycles on a list of inputs, with the orders of each cycle. -/
def ticks (d : Dispatcher) : List DispatchInput → Except Fault (Dispatcher × List (List Order))
  | [] => .ok (d, [])
  | i :: inputs => do
    let (d, orders) ← d.tick i
    let (d, outputs) ← ticks d inputs
    return (d, orders :: outputs)

/-- The number of threads in the first cycle with a raised start line. -/
def launchThreads (inputs : List DispatchInput) : Nat :=
  (inputs.find? DispatchInput.start).elim 0 DispatchInput.threads

/-- Inputs with a done line for each core and no more blocks at the launch than can be booked. -/
structure Admissible (cores : Nat) (size : UInt8) (inputs : List DispatchInput) : Prop where
  doneLines : ∀ i ∈ inputs, i.coreDone.length = cores
  capacity : blockCount (launchThreads inputs) size ≤ maxBlocks

/-- What a core is told in a cycle of a run. -/
def orderAt (outputs : List (List Order)) (tick core : Nat) : Option Order :=
  outputs[tick]?.bind (·[core]?)

def StartsAt (outputs : List (List Order)) (tick core : Nat) (b : Assignment) : Prop :=
  ∃ o, orderAt outputs tick core = some o ∧ o.start = some b

def CompletesAt (outputs : List (List Order)) (tick core : Nat) (b : Assignment) : Prop :=
  ∃ o, orderAt outputs tick core = some o ∧ o.completed = some b

variable {cores : Nat} {size : UInt8} {inputs : List DispatchInput} {i : DispatchInput}
  {outputs : List (List Order)} {orders : List Order} {left served : Nat} {d : Dispatcher}

theorem ticks_cons {d₁ : Dispatcher} (h : d.tick i = .ok (d₁, orders)) :
    d.ticks (i :: inputs) = (d₁.ticks inputs).map fun r ↦ (r.1, orders :: r.2) := by
  rw [ticks, h]
  rfl

theorem ticks_concat {d₁ d₂ : Dispatcher} (h : d.ticks inputs = .ok (d₁, outputs))
    (hi : d₁.tick i = .ok (d₂, orders)) :
    d.ticks (inputs ++ [i]) = .ok (d₂, outputs ++ [orders]) := by
  induction inputs generalizing d outputs with
  | nil =>
    cases h
    exact ticks_cons hi
  | cons j inputs ih =>
    cases hj : d.tick j with
    | error e =>
      rw [ticks, hj] at h
      cases h
    | ok r =>
      rw [ticks_cons hj] at h
      cases hr : r.1.ticks inputs with
      | error e =>
        rw [hr] at h
        cases h
      | ok q =>
        rw [hr] at h
        cases h
        rw [List.cons_append, ticks_cons hj, ih hr]
        rfl

@[simp] theorem launchThreads_nil : launchThreads [] = 0 := rfl

theorem launchThreads_of_not_started (h : ∀ i ∈ inputs, i.start = false) :
    launchThreads inputs = 0 := by
  have hn : inputs.find? DispatchInput.start = none :=
    List.find?_eq_none.2 fun i hi ↦ by simp [h i hi]
  rw [launchThreads, hn]
  rfl

theorem launchThreads_concat_of_started (h : ∃ i ∈ inputs, i.start = true) (i : DispatchInput) :
    launchThreads (inputs ++ [i]) = launchThreads inputs := by
  obtain ⟨j, hj⟩ := Option.isSome_iff_exists.1 (List.find?_isSome.2 h)
  rw [launchThreads, launchThreads, List.find?_append, hj]
  rfl

theorem launchThreads_concat_of_start (h : ∀ i ∈ inputs, i.start = false) (hi : i.start = true) :
    launchThreads (inputs ++ [i]) = i.threads := by
  have hn : inputs.find? DispatchInput.start = none :=
    List.find?_eq_none.2 fun i hi ↦ by simp [h i hi]
  rw [launchThreads, List.find?_append, hn, Option.none_or, List.find?_singleton, hi]
  rfl

theorem blockCount_zero (size : UInt8) : blockCount 0 size = 0 := by
  rw [blockCount, Nat.div_eq_zero_iff]
  omega

theorem started_or_not (inputs : List DispatchInput) :
    (∃ i ∈ inputs, i.start = true) ∨ ∀ i ∈ inputs, i.start = false := by
  by_cases h : ∃ i ∈ inputs, i.start = true
  · exact .inl h
  · exact .inr fun i hi ↦ eq_false_of_ne_true fun hs ↦ h ⟨i, hi, hs⟩

theorem Admissible.of_concat (h : Admissible cores size (inputs ++ [i])) :
    Admissible cores size inputs where
  doneLines j hj := h.doneLines j (by simp [hj])
  capacity := by
    rcases started_or_not inputs with hs | hs
    · rw [← launchThreads_concat_of_started hs i]
      exact h.capacity
    · rw [launchThreads_of_not_started hs, blockCount_zero]
      exact Nat.zero_le _

theorem lt_of_orderAt {t c : Nat} {o : Order} (h : orderAt outputs t c = some o) :
    t < outputs.length := by
  obtain ⟨orders, ho, -⟩ := Option.bind_eq_some_iff.1 h
  exact (List.getElem?_eq_some_iff.1 ho).1

theorem orderAt_concat {t c : Nat} {o : Order} :
    orderAt (outputs ++ [orders]) t c = some o ↔
      orderAt outputs t c = some o ∨ t = outputs.length ∧ orders[c]? = some o := by
  rcases Nat.lt_trichotomy t outputs.length with h | rfl | h
  · simp [orderAt, List.getElem?_append_left h, h.ne]
  · simp [orderAt]
  · have hn : outputs[t]? = none := List.getElem?_eq_none h.le
    have hn' : (outputs ++ [orders])[t]? = none :=
      List.getElem?_eq_none (by simpa using Nat.succ_le_of_lt h)
    simp [orderAt, hn, hn', h.ne']

/-! ## The history of each core -/

/-- What the cores have been told, cycle by cycle, and what their slots say of it. -/
structure History (inputs : List DispatchInput) (outputs : List (List Order)) (slots : List Slot) :
    Prop where
  length : outputs.length = inputs.length
  /-- a core that awaits a block was held in reset in the last cycle -/
  held : ∀ c s, slots[c]? = some s → s.awaiting = true →
    ∃ t o, t + 1 = outputs.length ∧ orderAt outputs t c = some o ∧ o.reset = true
  /-- a core has a block because it began it -/
  given : ∀ c s b, slots[c]? = some s → s.block? = some b → ∃ t, StartsAt outputs t c b
  begins : ∀ t c o b, orderAt outputs t c = some o → o.start = some b →
    o.reset = false ∧ ∃ t' o', t' + 1 = t ∧ orderAt outputs t' c = some o' ∧ o'.reset = true
  completes : ∀ t c b, CompletesAt outputs t c b →
    (∃ t' < t, StartsAt outputs t' c b) ∧ ∃ i, inputs[t]? = some i ∧ i.coreDone[c]? = some true

variable {slots : List Slot} {results : List (Slot × Order)}

theorem StartsAt.concat {t c : Nat} {b : Assignment} (h : StartsAt outputs t c b)
    (orders : List Order) : StartsAt (outputs ++ [orders]) t c b := by
  obtain ⟨o, ho, hb⟩ := h
  exact ⟨o, orderAt_concat.2 (.inl ho), hb⟩

theorem exists_of_forall₂_of_getElem? {α β : Type} {p : α → β → Prop} {xs : List α} {ys : List β}
    (h : List.Forall₂ p xs ys) {k : Nat} {y : β} (hy : ys[k]? = some y) :
    ∃ x, xs[k]? = some x ∧ p x y := by
  obtain ⟨hk, rfl⟩ := List.getElem?_eq_some_iff.1 hy
  have hk' : k < xs.length := h.length_eq ▸ hk
  exact ⟨xs[k], List.getElem?_eq_getElem hk', h.get hk' hk⟩

theorem exists_step (h : List.Forall₂ (fun x r ↦ x.1.Step x.2 r) (slots.zip i.coreDone) results)
    {γ : Type} {f : Slot × Order → γ} {c : Nat} {y : γ} (hy : (results.map f)[c]? = some y) :
    ∃ r s coreDone, f r = y ∧ results[c]? = some r ∧ slots[c]? = some s ∧
      i.coreDone[c]? = some coreDone ∧ s.Step coreDone r := by
  rw [List.getElem?_map, Option.map_eq_some_iff] at hy
  obtain ⟨r, hr, rfl⟩ := hy
  obtain ⟨x, hx, hs⟩ := exists_of_forall₂_of_getElem? h hr
  obtain ⟨hslot, hdone⟩ := List.getElem?_zip_eq_some.1 hx
  exact ⟨r, x.1, x.2, rfl, hr, hslot, hdone, hs⟩

theorem History.concat (h : History inputs outputs slots)
    (hs : List.Forall₂ (fun x r ↦ x.1.Step x.2 r) (slots.zip i.coreDone) results) :
    History (inputs ++ [i]) (outputs ++ [results.map Prod.snd]) (results.map Prod.fst) where
  length := by simp [h.length]
  held := by
    intro c s hc ha
    obtain ⟨r, _, _, rfl, hr, -, -, hstep⟩ := exists_step hs hc
    refine ⟨outputs.length, r.2, by simp, orderAt_concat.2 (.inr ⟨rfl, by simp [hr]⟩), ?_⟩
    rw [hstep.reset_eq, ha]
  given := by
    intro c s b hc hb
    obtain ⟨r, s, _, rfl, hr, hslot, -, hstep⟩ := exists_step hs hc
    rcases hstep.of_block? hb with hb | hb
    · exact ⟨outputs.length, r.2, orderAt_concat.2 (.inr ⟨rfl, by simp [hr]⟩), hb⟩
    · obtain ⟨t, ht⟩ := h.given c s b hslot hb
      exact ⟨t, ht.concat _⟩
  begins := by
    intro t c o b ho hb
    rcases orderAt_concat.1 ho with ho | ⟨rfl, hnew⟩
    · obtain ⟨hreset, t', o', ht, ho', hr⟩ := h.begins t c o b ho hb
      exact ⟨hreset, t', o', ht, orderAt_concat.2 (.inl ho'), hr⟩
    · obtain ⟨r, s, _, rfl, -, hslot, -, hstep⟩ := exists_step hs hnew
      obtain ⟨ha, hreset⟩ := hstep.of_start hb
      obtain ⟨t', o', ht, ho', hr'⟩ := h.held c s hslot ha
      exact ⟨hreset, t', o', ht, orderAt_concat.2 (.inl ho'), hr'⟩
  completes := by
    intro t c b hcb
    obtain ⟨o, ho, hb⟩ := hcb
    rcases orderAt_concat.1 ho with ho | ⟨rfl, hnew⟩
    · have ht : t < inputs.length := h.length ▸ lt_of_orderAt ho
      obtain ⟨⟨t', hlt, hstart⟩, hin⟩ := h.completes t c b ⟨o, ho, hb⟩
      rw [List.getElem?_append_left ht]
      exact ⟨⟨t', hlt, hstart.concat _⟩, hin⟩
    · obtain ⟨r, s, coreDone, rfl, -, hslot, hdone, hstep⟩ := exists_step hs hnew
      obtain ⟨hblock, rfl⟩ := hstep.of_completed hb
      obtain ⟨t', o', ho', hb'⟩ := h.given c s b hslot hblock
      refine ⟨⟨t', lt_of_orderAt ho', o', orderAt_concat.2 (.inl ho'), hb'⟩, i, ?_, hdone⟩
      rw [h.length, List.getElem?_concat_length]

/-! ## The log of a run -/

/-- How far a dispatcher has come: it launches once, at the first raised start line. -/
inductive Progress (cores : Nat) (size : UInt8) (inputs : List DispatchInput) (served : Nat)
    (d : Dispatcher) : Prop
  | fresh : (∀ i ∈ inputs, i.start = false) → d = initial cores size →
      Progress cores size inputs served d
  | running : (∃ i ∈ inputs, i.start = true) → d.launched = true ∧ d.done = false →
      served < blockCount (launchThreads inputs) size → Progress cores size inputs served d
  | finished : (∃ i ∈ inputs, i.start = true) → d.launched = false ∧ d.done = true →
      blockCount (launchThreads inputs) size ≤ served → Progress cores size inputs served d

/-- The orders of a run, as its counters and slots have them. -/
structure Log (cores : Nat) (size : UInt8) (inputs : List DispatchInput)
    (outputs : List (List Order)) (left served : Nat) (d : Dispatcher) : Prop where
  books : d.Books (launchThreads inputs) size left served
  history : History inputs outputs d.slots
  length_slots : d.slots.length = cores
  length_orders : ∀ orders ∈ outputs, orders.length = cores
  fits : ∀ s ∈ d.slots, s.Fits s.block?
  starts : outputs.flatten.filterMap Order.start ++ launchBlocks (launchThreads inputs) size left =
    launchBlocks (launchThreads inputs) size (blockCount (launchThreads inputs) size)
  settles : (outputs.flatten.filterMap Order.completed ++ d.slots.filterMap Slot.block?).Perm
    (outputs.flatten.filterMap Order.start)
  served_eq : (outputs.flatten.filterMap Order.completed).length = served
  staffed : d.launched = true → left = 0 ∨ ∀ s ∈ d.slots, s.busy = true ∨ s.awaiting = true
  progress : Progress cores size inputs served d

theorem filterMap_flatten_concat {α β : Type} (f : α → Option β) (xs : List (List α))
    (ys : List α) :
    (xs ++ [ys]).flatten.filterMap f = xs.flatten.filterMap f ++ ys.filterMap f := by
  rw [List.flatten_append, List.flatten_singleton, List.filterMap_append]

/-- A cycle in which no core begins or completes a block. -/
theorem forall₂_step_rest (awaits : Slot → Bool) (slots : List Slot) (dones : List Bool)
    (h : dones.length = slots.length) :
    List.Forall₂ (fun x r ↦ x.1.Step x.2 r) (slots.zip dones)
      (slots.map fun s ↦ ({ s with awaiting := awaits s }, ⟨awaits s, none, none⟩)) := by
  induction slots generalizing dones with
  | nil => exact .nil
  | cons s slots ih =>
    cases dones with
    | nil => simp at h
    | cons x dones => exact .cons (.rest _) (ih dones (Nat.succ.inj h))

@[simp] theorem hold_starts (d : Dispatcher) : d.hold.2.filterMap Order.start = [] := by
  simp [hold]

@[simp] theorem hold_completed (d : Dispatcher) : d.hold.2.filterMap Order.completed = [] := by
  simp [hold]

theorem slots_initial {s : Slot} (h : s ∈ (initial cores size).slots) : s = .unused :=
  List.eq_of_mem_replicate h

theorem log_initial (cores : Nat) (size : UInt8) :
    Log cores size [] [] 0 0 (initial cores size) where
  books :=
    { blockSize := rfl
      threads := rfl
      blocks := (blockCount_zero size).symm
      capacity := by
        rw [launchThreads_nil, blockCount_zero]
        exact Nat.zero_le _
      left_le := Nat.zero_le _
      mask := by
        intro id
        have hm : (initial cores size).hasDispatched id = false := by simp [hasDispatched, initial]
        rw [hm, launchThreads_nil, blockCount_zero]
        simp
      dispatched := (blockCount_zero size).symm
      completed := rfl }
  history :=
    { length := rfl
      held := by
        intro c s hc ha
        rw [slots_initial (List.mem_of_getElem? hc)] at ha
        cases ha
      given := by
        intro c s b hc hb
        rw [slots_initial (List.mem_of_getElem? hc)] at hb
        cases hb
      begins := nofun
      completes := nofun }
  length_slots := List.length_replicate
  length_orders := nofun
  fits := by
    intro s hs
    exact Slot.fits_of_not_busy (by rw [slots_initial hs]; rfl)
  starts := by
    rw [launchThreads_nil, blockCount_zero]
    rfl
  settles := by
    have hb : (initial cores size).slots.filterMap Slot.block? = [] :=
      List.filterMap_eq_nil_iff.2 fun s hs ↦ by rw [slots_initial hs]; rfl
    rw [hb]
    exact .nil
  served_eq := rfl
  staffed := nofun
  progress := .fresh (by simp) rfl

theorem started_concat (h : ∃ j ∈ inputs, j.start = true) (i : DispatchInput) :
    ∃ j ∈ inputs ++ [i], j.start = true := by
  obtain ⟨j, hj, hs⟩ := h
  exact ⟨j, List.mem_append_left _ hj, hs⟩

theorem Books.progress_latch (h : d.Books (launchThreads inputs) size left served)
    (hs : ∃ i ∈ inputs, i.start = true) (hl : d.launched = true) (hd : d.done = false) :
    Progress cores size inputs served d.latch := by
  rcases h.latch_stage hl hd with ⟨hl', hlt⟩ | ⟨hl', hle⟩
  · exact .running hs hl' hlt
  · exact .finished hs hl' hle

/-- A cycle without a launch under way leaves everything as it is. -/
theorem Log.hold (h : Log cores size inputs outputs left served d)
    (hi : i.coreDone.length = cores) (hn : launchThreads (inputs ++ [i]) = launchThreads inputs)
    (hp : Progress cores size (inputs ++ [i]) served d) :
    Log cores size (inputs ++ [i]) (outputs ++ [d.hold.2]) left served d where
  books := hn ▸ h.books
  history := by
    have hhist := h.history.concat
      (forall₂_step_rest Slot.awaiting d.slots i.coreDone (hi.trans h.length_slots.symm))
    rw [List.map_map, List.map_map] at hhist
    simpa [Function.comp_def, Dispatcher.hold] using hhist
  length_slots := h.length_slots
  length_orders := by
    have horders : d.hold.2.length = cores := (List.length_map _).trans h.length_slots
    exact List.forall_mem_append.2 ⟨h.length_orders, List.forall_mem_singleton.2 horders⟩
  fits := h.fits
  starts := by
    rw [filterMap_flatten_concat, hold_starts, List.append_nil, hn]
    exact h.starts
  settles := by
    rw [filterMap_flatten_concat, filterMap_flatten_concat, hold_starts, hold_completed,
      List.append_nil, List.append_nil]
    exact h.settles
  served_eq := by
    rw [filterMap_flatten_concat, hold_completed, List.append_nil]
    exact h.served_eq
  staffed := h.staffed
  progress := hp

theorem slots_launch {threads : Nat} {s : Slot}
    (h : s ∈ ((initial cores size).launch threads).latch.slots) :
    s = { Slot.unused with awaiting := true } := by
  rw [latch_slots] at h
  obtain ⟨s', hs', rfl⟩ := List.mem_map.1 h
  rw [slots_initial hs']

theorem Log.starts_eq_nil (h : Log cores size inputs outputs left served d)
    (hs : ∀ i ∈ inputs, i.start = false) : outputs.flatten.filterMap Order.start = [] := by
  have hst := h.starts
  rw [launchThreads_of_not_started hs, blockCount_zero] at hst
  exact (List.append_eq_nil_iff.1 hst).1

theorem Log.completed_eq_nil (h : Log cores size inputs outputs left served d)
    (hs : ∀ i ∈ inputs, i.start = false) : outputs.flatten.filterMap Order.completed = [] := by
  have hset := h.settles
  rw [h.starts_eq_nil hs] at hset
  exact (List.append_eq_nil_iff.1 hset.eq_nil).1

/-- At the launch all blocks are left and all cores await one. -/
theorem Log.launch (h : Log cores size inputs outputs left served (initial cores size))
    (hs : ∀ i ∈ inputs, i.start = false) (hi : i.start = true) (hd : i.coreDone.length = cores)
    (hc : blockCount i.threads size ≤ maxBlocks) :
    Log cores size (inputs ++ [i])
      (outputs ++ [((initial cores size).launch i.threads).hold.2]) (blockCount i.threads size) 0
      ((initial cores size).launch i.threads).latch := by
  have hn := launchThreads_concat_of_start hs hi
  have hbooks : ((initial cores size).launch i.threads).Books (launchThreads (inputs ++ [i])) size
      (blockCount i.threads size) 0 := by
    rw [hn]
    exact books_launch cores size hc
  have hlength : ((initial cores size).launch i.threads).slots.length = cores :=
    (List.length_map _).trans h.length_slots
  exact
    { books := hbooks.latch
      history := by
        have hhist := h.history.concat
          (forall₂_step_rest (fun _ ↦ true) _ i.coreDone (hd.trans h.length_slots.symm))
        rw [List.map_map, List.map_map] at hhist
        rw [latch_slots]
        simpa [Function.comp_def, Dispatcher.hold, Dispatcher.launch] using hhist
      length_slots := by rw [latch_slots, hlength]
      length_orders := by
        have horders := (List.length_map fun s ↦ (⟨s.awaiting, none, none⟩ : Order)).trans hlength
        exact List.forall_mem_append.2 ⟨h.length_orders, List.forall_mem_singleton.2 horders⟩
      fits := by
        intro s hs
        exact Slot.fits_of_not_busy (by rw [slots_launch hs]; rfl)
      starts := by
        rw [filterMap_flatten_concat, hold_starts, h.starts_eq_nil hs, hn]
        rfl
      settles := by
        rw [filterMap_flatten_concat, filterMap_flatten_concat, hold_starts, hold_completed,
          h.starts_eq_nil hs, h.completed_eq_nil hs,
          List.filterMap_eq_nil_iff.2 fun s hs ↦ by rw [slots_launch hs]; rfl]
        exact .nil
      served_eq := by
        rw [filterMap_flatten_concat, hold_completed, h.completed_eq_nil hs]
        rfl
      staffed := by
        intro _
        right
        intro s hs
        rw [slots_launch hs]
        exact .inr rfl
      progress := hbooks.progress_latch ⟨i, by simp, hi⟩ rfl rfl }

/-- A cycle of the launch under way adds the orders of its turns. -/
theorem Log.proceed (h : Log cores size inputs outputs left served d)
    (hs : ∃ i ∈ inputs, i.start = true) (hl : d.launched = true ∧ d.done = false)
    (hi : i.coreDone.length = cores) :
    ∃ left' served', Log cores size (inputs ++ [i]) (outputs ++ [(d.proceed i.coreDone).2]) left'
      served' (d.proceed i.coreDone).1.latch := by
  have hfits : ∀ x ∈ d.slots.zip i.coreDone, x.1.Fits x.1.block? := by
    intro x hx
    exact h.fits x.1 (List.of_mem_zip hx).1
  obtain ⟨left', served', hsweep, hturns⟩ := h.books.visits hfits
  have hbooks : (d.proceed i.coreDone).1.Books (launchThreads (inputs ++ [i])) size left' served' :=
    { launchThreads_concat_of_started hs i ▸ hsweep with }
  have hslots : (d.proceed i.coreDone).1.latch.slots =
      (sweep visit d (d.slots.zip i.coreDone)).2.map Prod.fst := latch_slots _
  have hresults : (sweep visit d (d.slots.zip i.coreDone)).2.length = cores := by
    rw [length_sweep, List.length_zip, hi, h.length_slots, Nat.min_self]
  refine ⟨left', served', ?_⟩
  exact
    { books := hbooks.latch
      history := by
        rw [hslots]
        exact h.history.concat hturns.steps
      length_slots := by rw [hslots, List.length_map, hresults]
      length_orders := by
        have horders : (d.proceed i.coreDone).2.length = cores :=
          (List.length_map _).trans hresults
        exact List.forall_mem_append.2 ⟨h.length_orders, List.forall_mem_singleton.2 horders⟩
      fits := by
        intro s hs
        rw [hslots] at hs
        obtain ⟨r, hr, rfl⟩ := List.mem_map.1 hs
        exact hturns.fits hfits r hr
      starts := by
        rw [filterMap_flatten_concat, List.append_assoc, launchThreads_concat_of_started hs,
          ← h.starts]
        exact congrArg _ hturns.starts
      settles := by
        have hsettles := hturns.settles hfits
        rw [List.map_fst_zip (h.length_slots.trans hi.symm).le] at hsettles
        rw [filterMap_flatten_concat, filterMap_flatten_concat, hslots, List.append_assoc]
        refine (hsettles.append_left _).trans ?_
        rw [← List.append_assoc]
        exact h.settles.append_right _
      served_eq := by
        rw [filterMap_flatten_concat, List.length_append, h.served_eq]
        exact (hturns.served_eq hfits).symm
      staffed := by
        intro _
        rw [hslots, List.forall_mem_map]
        rcases h.staffed hl.1 with rfl | hstaffed
        · exact .inl (Nat.le_zero.1 hturns.left_le)
        · exact hturns.staffed fun x hx ↦ hstaffed x.1 (List.of_mem_zip hx).1
      progress := by
        obtain ⟨hl', hd'⟩ := d.proceed_launch i.coreDone
        exact hbooks.progress_latch (started_concat hs i) (hl'.trans hl.1) (hd'.trans hl.2) }

theorem tick_of_not_accepts (hi : i.coreDone.length = d.slots.length)
    (ha : d.accepts i.start = false) : d.tick i = .ok (d.advance i) := by
  rw [tick, check, if_neg (not_not_intro hi), ha]
  rfl

theorem advance_of_not_launched (hl : d.launched = false) (ha : d.accepts i.start = false) :
    d.advance i = d.hold := by
  simp [advance, ha, hl, Dispatcher.hold, latch]

theorem tick_of_done (hi : i.coreDone.length = d.slots.length)
    (hd : d.launched = false ∧ d.done = true) : d.tick i = .ok d.hold := by
  have ha : d.accepts i.start = false := by simp [accepts, hd.2]
  rw [tick_of_not_accepts hi ha, advance_of_not_launched hd.1 ha]

/-- A cycle is a step of each core. -/
theorem Log.steps (h : Log cores size inputs outputs left served d)
    (hi : i.coreDone.length = cores) :
    ∃ results, List.Forall₂ (fun x r ↦ x.1.Step x.2 r) (d.slots.zip i.coreDone) results ∧
      (d.advance i).1.slots = results.map Prod.fst ∧ (d.advance i).2 = results.map Prod.snd := by
  have hlen : i.coreDone.length = d.slots.length := hi.trans h.length_slots.symm
  cases ha : d.accepts i.start with
  | true =>
    refine ⟨_, forall₂_step_rest (fun _ ↦ true) d.slots i.coreDone hlen, ?_, ?_⟩
    · simp [advance, ha, Dispatcher.hold, latch_slots, Dispatcher.launch]
    · simp [advance, ha, Dispatcher.hold, Dispatcher.launch]
  | false =>
    cases hl : d.launched with
    | true =>
      have hfits : ∀ x ∈ d.slots.zip i.coreDone, x.1.Fits x.1.block? := by
        intro x hx
        exact h.fits x.1 (List.of_mem_zip hx).1
      obtain ⟨_, _, -, hturns⟩ := h.books.visits hfits
      rw [advance_of_launched i hl]
      exact ⟨_, hturns.steps, latch_slots _, rfl⟩
    | false =>
      refine ⟨_, forall₂_step_rest Slot.awaiting d.slots i.coreDone hlen, ?_, ?_⟩
      · simp [advance_of_not_launched hl ha, Dispatcher.hold, Function.comp_def]
      · simp [advance_of_not_launched hl ha, Dispatcher.hold]

/-- A dispatcher that is done stays as it is. -/
theorem ticks_of_done (hd : d.launched = false ∧ d.done = true)
    (h : ∀ i ∈ inputs, i.coreDone.length = d.slots.length) :
    d.ticks inputs = .ok (d, inputs.map fun _ ↦ d.hold.2) := by
  induction inputs with
  | nil => rfl
  | cons i inputs ih =>
    obtain ⟨hi, hinputs⟩ := List.forall_mem_cons.1 h
    have ht : d.tick i = .ok (d, d.hold.2) := tick_of_done hi hd
    rw [ticks_cons ht, ih hinputs]
    rfl

theorem Log.tick (h : Log cores size inputs outputs left served d)
    (hi : Admissible cores size (inputs ++ [i])) :
    ∃ d' orders left' served', d.tick i = .ok (d', orders) ∧
      Log cores size (inputs ++ [i]) (outputs ++ [orders]) left' served' d' := by
  have hlen : i.coreDone.length = cores := hi.doneLines i (by simp)
  have hlen' : i.coreDone.length = d.slots.length := hlen.trans h.length_slots.symm
  cases h.progress with
  | fresh hs hd =>
    subst hd
    cases hstart : i.start with
    | false =>
      have hs' : ∀ j ∈ inputs ++ [i], j.start = false :=
        List.forall_mem_append.2 ⟨hs, List.forall_mem_singleton.2 hstart⟩
      have ha : (initial cores size).accepts i.start = false := by simp [accepts, hstart]
      refine ⟨_, _, left, served, ?_, h.hold hlen ?_ (.fresh hs' rfl)⟩
      · rw [tick_of_not_accepts hlen' ha, advance_of_not_launched rfl ha]
        rfl
      · rw [launchThreads_of_not_started hs', launchThreads_of_not_started hs]
    | true =>
      have hc : blockCount i.threads size ≤ maxBlocks := by
        rw [← launchThreads_concat_of_start hs hstart]
        exact hi.capacity
      refine ⟨_, _, _, _, ?_, h.launch hs hstart hlen hc⟩
      have ha : (initial cores size).accepts i.start = true := by simp [accepts, hstart, initial]
      rw [Dispatcher.tick, check, if_neg (not_not_intro hlen'), ha,
        if_neg (by simpa [initial] using hc), advance, ha]
      rfl
  | running hs hl _ =>
    obtain ⟨left', served', h'⟩ := h.proceed hs hl hlen
    refine ⟨_, _, left', served', ?_, h'⟩
    rw [tick_of_not_accepts hlen' (by simp [accepts, hl.1]), advance_of_launched i hl.1]
  | finished hs hd hle =>
    have hn := launchThreads_concat_of_started hs i
    exact ⟨_, _, left, served, tick_of_done hlen' hd,
      h.hold hlen hn (.finished (started_concat hs i) hd (hn ▸ hle))⟩

/-- No run within the capacity is refused. -/
theorem exists_log (h : Admissible cores size inputs) :
    ∃ d outputs left served, (initial cores size).ticks inputs = .ok (d, outputs) ∧
      Log cores size inputs outputs left served d := by
  induction inputs using List.reverseRecOn with
  | nil => exact ⟨_, _, _, _, rfl, log_initial cores size⟩
  | append_singleton inputs i ih =>
    obtain ⟨d, outputs, left, served, hd, hlog⟩ := ih h.of_concat
    obtain ⟨d', orders, left', served', hi, hlog'⟩ := hlog.tick h
    exact ⟨d', _, left', served', ticks_concat hd hi, hlog'⟩

end Dispatcher

end SimtMachine
