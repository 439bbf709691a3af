import Mathlib.Algebra.GroupWithZero.Nat
import SimtMachine.Proofs.Device.Bookkeeping
import SimtMachine.Proofs.Dispatch.Completion

/-!
# The trace of a kernel

The events of a trace are the orders of the dispatcher, cycle by cycle and core by core, and at the
end the word that the kernel is done. What a reader of a trace relies on follows from what is known
about these orders.
-/

namespace SimtMachine

/-! ## Readings of a trace -/

namespace Event

/-- The core that the event is about. -/
def core? : Event → Option Nat
  | dispatch _ c _ _ | complete _ c _ => some c
  | kernelDone _ => none

def dispatched? : Event → Option Assignment
  | dispatch _ _ b n => some ⟨b, n⟩
  | complete .. | kernelDone _ => none

def completed? : Event → Option UInt8
  | complete _ _ b => some b
  | dispatch .. | kernelDone _ => none

def isKernelDone : Event → Bool
  | kernelDone _ => true
  | dispatch .. | complete .. => false

/-- The events of one core: it gets a block and completes this block, and so on, each in a later
cycle. The core may still have its last block. -/
inductive Alternates : Option UInt8 → List Event → Prop
  | nil : Alternates none []
  | dispatch {es : List Event} {cycle : Nat} (core : Nat) (b n : UInt8) : Alternates none es →
      (∀ e ∈ es, e.cycle < cycle) → Alternates (some b) (es ++ [.dispatch cycle core b n])
  | complete {es : List Event} {cycle : Nat} (core : Nat) (b : UInt8) : Alternates (some b) es →
      (∀ e ∈ es, e.cycle < cycle) → Alternates none (es ++ [.complete cycle core b])

end Event

namespace Trace

theorem dispatchOrder_eq (t : Trace) :
    t.dispatchOrder = (t.events.filterMap Event.dispatched?).map Assignment.block := by
  rw [dispatchOrder, List.map_filterMap]
  exact List.filterMap_congr fun e _ ↦ by cases e <;> rfl

theorem completionOrder_eq (t : Trace) :
    t.completionOrder = t.events.filterMap Event.completed? :=
  List.filterMap_congr fun e _ ↦ by cases e <;> rfl

/-- The trace of a kernel of `n` threads that is or is not `done`. -/
structure WellFormed (n : Nat) (size : UInt8) (done : Bool) (t : Trace) : Prop where
  chronological : t.events.Pairwise fun e e' ↦ e.cycle ≤ e'.cycle
  descending : ∃ k ≤ blockCount n size, t.dispatchOrder.map UInt8.toNat =
    (List.range k).map fun j ↦ blockCount n size - 1 - j
  alternating : ∀ core, ∃ current, Event.Alternates current
    (t.events.filter fun e ↦ e.core? = some core)
  /-- the kernel is reported done once, at the end -/
  terminated : ∃ es, (∀ e ∈ es, e.isKernelDone = false) ∧
    if done then ∃ cycle, t.events = es ++ [.kernelDone cycle] else t.events = es
  complete : done = true →
    (t.completionOrder.map UInt8.toNat).Perm (List.range (blockCount n size)) ∧
      ((t.events.filterMap Event.dispatched?).map fun b ↦ b.threads.toNat).sum = n

end Trace

/-! ## Orders as events -/

/-- What an order adds to the trace. -/
def Order.events (cycle core : Nat) (o : Order) : List Event :=
  o.completed.toList.map (fun b ↦ .complete cycle core b.block) ++
    o.start.toList.map fun b ↦ .dispatch cycle core b.block b.threads

/-- The events of the cores from number `k` on in one cycle. -/
def cycleEvents (cycle : Nat) : (k : Nat) → List Order → List Event
  | _, [] => []
  | k, o :: orders => o.events cycle k ++ cycleEvents cycle (k + 1) orders

/-- The events of all cycles from number `t` on. -/
def chronicle : (t : Nat) → List (List Order) → List Event
  | _, [] => []
  | t, orders :: outputs => cycleEvents t 0 orders ++ chronicle (t + 1) outputs

section Events

variable {cycle core k t : Nat} {o : Order} {orders : List Order} {outputs : List (List Order)}
  {e : Event}

theorem Order.mem_events (h : e ∈ o.events cycle core) :
    e.cycle = cycle ∧ e.core? = some core ∧ e.isKernelDone = false := by
  simp only [Order.events, List.mem_append, List.mem_map] at h
  rcases h with ⟨_, -, rfl⟩ | ⟨_, -, rfl⟩ <;> exact ⟨rfl, rfl, rfl⟩

/-- What `f` finds in the events of an order is `g` of the order. -/
def Event.Reads {α : Type} (f : Event → Option α) (g : Order → Option α) : Prop :=
  ∀ cycle core (o : Order), (o.events cycle core).filterMap f = (g o).toList

theorem Event.reads_dispatched : Event.Reads Event.dispatched? Order.start := by
  rintro cycle core ⟨_, start, completed⟩
  cases start <;> cases completed <;> rfl

theorem Event.reads_completed :
    Event.Reads Event.completed? fun o ↦ o.completed.map Assignment.block := by
  rintro cycle core ⟨_, start, completed⟩
  cases start <;> cases completed <;> rfl

variable {α : Type} {f : Event → Option α} {g : Order → Option α}

theorem mem_cycleEvents (h : e ∈ cycleEvents cycle k orders) :
    e.cycle = cycle ∧ e.isKernelDone = false := by
  induction orders generalizing k with
  | nil => cases h
  | cons o orders ih =>
    rcases List.mem_append.1 h with h | h
    · exact ⟨(Order.mem_events h).1, (Order.mem_events h).2.2⟩
    · exact ih h

theorem cycleEvents_eq_nil (h : ∀ o ∈ orders, o.start = none ∧ o.completed = none) :
    cycleEvents cycle k orders = [] := by
  induction orders generalizing k with
  | nil => rfl
  | cons o orders ih =>
    obtain ⟨ho, horders⟩ := List.forall_mem_cons.1 h
    rw [cycleEvents, ih horders, Order.events, ho.1, ho.2]
    rfl

theorem Event.Reads.filterMap_cycleEvents (h : Event.Reads f g) (cycle k : Nat)
    (orders : List Order) :
    (cycleEvents cycle k orders).filterMap f = orders.filterMap g := by
  induction orders generalizing k with
  | nil => rfl
  | cons o orders ih =>
    rw [cycleEvents, List.filterMap_append, h, ih, filterMap_cons_eq_append]

theorem filter_events (o : Order) (h : core ≠ k) :
    (o.events cycle k).filter (fun e ↦ e.core? = some core) = [] := by
  rw [List.filter_eq_nil_iff]
  intro e he
  simp [(Order.mem_events he).2.1, h.symm]

theorem filter_events_self (o : Order) :
    (o.events cycle core).filter (fun e ↦ e.core? = some core) = o.events cycle core := by
  rw [List.filter_eq_self]
  intro e he
  simp [(Order.mem_events he).2.1]

theorem filter_cycleEvents_of_lt (h : core < k) :
    (cycleEvents cycle k orders).filter (fun e ↦ e.core? = some core) = [] := by
  induction orders generalizing k with
  | nil => rfl
  | cons o orders ih =>
    rw [cycleEvents, List.filter_append, filter_events o h.ne, ih (by omega)]
    rfl

/-- In the events of a cycle the core with its number finds those of its order. -/
theorem filter_cycleEvents (cycle k i : Nat) (orders : List Order) :
    (cycleEvents cycle k orders).filter (fun e ↦ e.core? = some (k + i)) =
      (orders[i]?).elim [] (Order.events cycle (k + i)) := by
  induction orders generalizing k i with
  | nil => rfl
  | cons o orders ih =>
    rw [cycleEvents, List.filter_append]
    cases i with
    | zero =>
      rw [Nat.add_zero, filter_events_self, filter_cycleEvents_of_lt (Nat.lt_succ_self k),
        List.append_nil]
      rfl
    | succ i =>
      have hk : k + (i + 1) = k + 1 + i := by omega
      rw [filter_events o (by omega), List.nil_append, hk, ih (k + 1) i]
      rfl

theorem filter_chronicle_of_le (h : ∀ orders ∈ outputs, orders.length ≤ core) :
    (chronicle t outputs).filter (fun e ↦ e.core? = some core) = [] := by
  induction outputs generalizing t with
  | nil => rfl
  | cons orders outputs ih =>
    obtain ⟨ho, houtputs⟩ := List.forall_mem_cons.1 h
    have hf := filter_cycleEvents t 0 core orders
    rw [Nat.zero_add, List.getElem?_eq_none ho] at hf
    rw [chronicle, List.filter_append, hf, ih houtputs]
    rfl

theorem chronicle_concat (t : Nat) (outputs : List (List Order)) (orders : List Order) :
    chronicle t (outputs ++ [orders]) =
      chronicle t outputs ++ cycleEvents (t + outputs.length) 0 orders := by
  induction outputs generalizing t with
  | nil => simp [chronicle]
  | cons os outputs ih =>
    rw [List.cons_append, chronicle, ih, chronicle, List.append_assoc, List.length_cons]
    congr 3
    omega

theorem mem_chronicle (h : e ∈ chronicle t outputs) :
    t ≤ e.cycle ∧ e.cycle < t + outputs.length ∧ e.isKernelDone = false := by
  induction outputs generalizing t with
  | nil => cases h
  | cons orders outputs ih =>
    rw [List.length_cons]
    rcases List.mem_append.1 h with h | h
    · obtain ⟨rfl, hk⟩ := mem_cycleEvents h
      exact ⟨Nat.le_refl _, by omega, hk⟩
    · obtain ⟨hle, hlt, hk⟩ := ih h
      exact ⟨by omega, by omega, hk⟩

/-- What a reading finds in a chronicle is what it finds in the orders, one after the other. -/
theorem Event.Reads.filterMap_chronicle (h : Event.Reads f g) (t : Nat)
    (outputs : List (List Order)) :
    (chronicle t outputs).filterMap f = outputs.flatten.filterMap g := by
  induction outputs generalizing t with
  | nil => rfl
  | cons orders outputs ih =>
    rw [chronicle, List.filterMap_append, h.filterMap_cycleEvents, ih, List.flatten_cons,
      List.filterMap_append]

theorem chronicle_chronological (t : Nat) (outputs : List (List Order)) :
    (chronicle t outputs).Pairwise fun e e' ↦ e.cycle ≤ e'.cycle := by
  induction outputs generalizing t with
  | nil => exact .nil
  | cons orders outputs ih =>
    rw [chronicle, List.pairwise_append]
    refine ⟨List.pairwise_of_forall_mem_list fun e he e' he' ↦ ?_, ih (t + 1), fun e he e' he' ↦ ?_⟩
    · rw [(mem_cycleEvents he).1, (mem_cycleEvents he').1]
    · have hle := (mem_chronicle he').1
      rw [(mem_cycleEvents he).1]
      omega

end Events

/-- A core that begins a block had none, and a core that completes one had it. -/
theorem Slot.Step.alternates {s : Slot} {r : Slot × Order} {coreDone : Bool} {i cycle : Nat}
    {es : List Event} (h : s.Step coreDone r) (hs : s.Fits s.block?)
    (hes : Event.Alternates (s.block?.map Assignment.block) es)
    (hlt : ∀ e ∈ es, e.cycle < cycle) :
    Event.Alternates (r.1.block?.map Assignment.block) (es ++ r.2.events cycle i) := by
  cases h with
  | begin b ha =>
    rw [(hs.of_awaiting ha).2] at hes
    exact .dispatch i b.block b.threads hes hlt
  | complete hb _ =>
    obtain ⟨b, ha, hq⟩ := hs.of_busy hb
    rw [hq] at hes
    have he : Order.events cycle i ⟨true, none, s.assignment⟩ = [.complete cycle i b.block] := by
      rw [ha]
      rfl
    rw [he]
    exact .complete i b.block hes hlt
  | rest awaiting =>
    have he : Order.events cycle i ⟨awaiting, none, none⟩ = [] := rfl
    rw [he, List.append_nil]
    exact hes

/-- The blocks below `k` have the threads below `k` times their size. -/
theorem sum_threads_launchBlocks (n : Nat) (size : UInt8) (k : Nat) :
    ((launchBlocks n size k).map fun b ↦ b.threads.toNat).sum = min (k * size.toNat) n := by
  induction k with
  | zero => simp [launchBlocks]
  | succ k ih =>
    rw [launchBlocks_succ, List.map_cons, List.sum_cons, ih, launchBlock_threads, Nat.succ_mul]
    omega

theorem launchBlocks_numbers (n : Nat) (size : UInt8) {k : Nat} (hk : k ≤ maxBlocks) :
    ((launchBlocks n size k).map fun b ↦ b.block.toNat).Perm (List.range k) := by
  rw [launchBlocks, List.map_reverse, List.map_map]
  refine (List.reverse_perm _).trans (.of_eq ?_)
  refine (List.map_congr_left fun j hj ↦ ?_).trans (List.map_id _)
  rw [List.mem_range] at hj
  exact launchBlock_block n size (by omega)

namespace Device

variable {d d' : Device} {n : Nat} {inputs : List DispatchInput} {outputs : List (List Order)}
  {left served : Nat}

/-! ## One cycle -/

theorem coreCycle_events (cycle : Nat) (traceStages : Bool) (c : Core) {o : Order}
    (h : o.reset = true → o.start = none) :
    (coreCycle cycle traceStages c o).events = o.events cycle c.id := by
  obtain ⟨reset, start, completed⟩ := o
  cases reset <;> cases start <;> cases completed <;> simp_all [coreCycle, Order.events]

theorem flatMap_coreCycle (cycle : Nat) (traceStages : Bool) {orders : List Order} {k : Nat}
    {cs : List Core} (hid : cs.map Core.id = List.range' k orders.length)
    (h : ∀ o ∈ orders, o.reset = true → o.start = none) :
    (List.zipWith (coreCycle cycle traceStages) cs orders).flatMap CoreCycle.events =
      cycleEvents cycle k orders := by
  induction orders generalizing k cs with
  | nil =>
    rw [List.zipWith_nil_right]
    rfl
  | cons o orders ih =>
    cases cs with
    | nil => simp [List.range'_succ] at hid
    | cons c cs =>
      rw [List.map_cons, List.length_cons, List.range'_succ, List.cons.injEq] at hid
      obtain ⟨ho, horders⟩ := List.forall_mem_cons.1 h
      rw [List.zipWith_cons_cons, List.flatMap_cons, coreCycle_events _ _ _ ho, hid.1,
        ih hid.2 horders]
      rfl

theorem Consistent.ids (h : d.Consistent inputs outputs left served) :
    d.serve.2.2.map Core.id = List.range' 0 d.config.coreCount := by
  rw [map_serve (fun _ _ ↦ rfl) fun _ _ ↦ rfl]
  refine List.ext_getElem (by simp [h.length_cores]) fun i h₁ _ ↦ ?_
  rw [List.length_map] at h₁
  have hp := h.placed i _ (List.getElem?_eq_getElem h₁)
  simp [hp.keeps.1]

theorem Consistent.length_orders (h : d.Consistent inputs outputs left served) :
    (d.dispatcher.advance d.dispatchInput).2.length = d.config.coreCount := by
  obtain ⟨_, _, hlog⟩ := h.log_advance
  exact hlog.length_orders _ (by simp)

/-- A cycle records its orders, and that the kernel is done if it is only now. -/
theorem Consistent.events_advance (h : d.Consistent inputs outputs left served) :
    d.advance.trace.events = d.trace.events ++
      (cycleEvents d.cycle 0 (d.dispatcher.advance d.dispatchInput).2 ++
        if d.advance.isDone && !d.isDone then [.kernelDone d.cycle] else []) := by
  have hreset : ∀ o ∈ (d.dispatcher.advance d.dispatchInput).2, o.reset = true →
      o.start = none := by
    obtain ⟨results, hsteps, -, horders⟩ := h.log.steps h.length_done
    intro o ho hr
    obtain ⟨i, hi⟩ := List.mem_iff_getElem?.1 ho
    rw [horders] at hi
    obtain ⟨r, s, _, rfl, -, -, -, hstep⟩ := Dispatcher.exists_step hsteps hi
    apply Option.eq_none_iff_forall_ne_some.2
    intro b hb
    simp [(hstep.of_start hb).2] at hr
  have hids := h.ids
  rw [← h.length_orders] at hids
  rw [← flatMap_coreCycle d.cycle d.config.traceStages hids hreset]
  exact Trace.events_extend _ _ _

/-! ## All cycles -/

/-- The trace tells all orders since the last reset, and that the kernel is done, if it is. -/
structure Chronicled (outputs : List (List Order)) (d : Device) : Prop where
  record : d.isDone = false ∧ d.trace.events = chronicle 0 outputs ∨
    d.isDone = true ∧ ∃ cycle, d.trace.events = chronicle 0 outputs ++ [.kernelDone cycle] ∧
      ∀ e ∈ chronicle 0 outputs, e.cycle ≤ cycle
  turns : ∀ (i : Nat) (s : Slot), d.dispatcher.slots[i]? = some s →
    Event.Alternates (s.block?.map Assignment.block)
      ((chronicle 0 outputs).filter fun e ↦ e.core? = some i)

theorem Fresh.chronicled (h : d.Fresh) : d.Chronicled [] where
  record := by
    refine .inl ⟨?_, ?_⟩
    · rw [isDone, h.dispatcher]
      rfl
    · rw [h.trace]
      rfl
  turns i s hs := by
    rw [h.dispatcher] at hs
    rw [Dispatcher.slots_initial (List.mem_of_getElem? hs)]
    exact .nil

theorem Consistent.not_launched (h : d.Consistent inputs outputs left served)
    (hd : d.isDone = true) :
    d.dispatcher.advance d.dispatchInput = d.dispatcher.hold := by
  have hl : d.dispatcher.launched = false := by
    cases h.log.progress with
    | fresh _ hf => rw [hf]; rfl
    | running _ hl _ =>
      rw [isDone, hl.2] at hd
      cases hd
    | finished _ hl _ => exact hl.1
  have ha : d.dispatcher.accepts d.dispatchInput.start = false := by
    rw [isDone] at hd
    simp [Dispatcher.accepts, hd]
  exact Dispatcher.advance_of_not_launched hl ha

theorem Chronicled.advance (h : d.Consistent inputs outputs left served)
    (hc : d.Chronicled outputs) :
    d.advance.Chronicled (outputs ++ [(d.dispatcher.advance d.dispatchInput).2]) := by
  have hclock : 0 + outputs.length = d.cycle := by
    rw [Nat.zero_add, h.log.history.length, h.clock]
  have hlt : ∀ e ∈ chronicle 0 outputs, e.cycle < d.cycle := fun e he ↦
    hclock ▸ (mem_chronicle he).2.1
  constructor
  · rw [h.events_advance, chronicle_concat, hclock]
    rcases hc.record with ⟨hd, hrec⟩ | ⟨hd, cycle, hrec, hle⟩
    · rw [hd, hrec, Bool.not_false, Bool.and_true]
      cases hd' : d.advance.isDone with
      | false => exact .inl ⟨rfl, by simp⟩
      | true =>
        refine .inr ⟨rfl, d.cycle, by simp, fun e he ↦ ?_⟩
        rcases List.mem_append.1 he with he | he
        · exact (hlt e he).le
        · exact (mem_cycleEvents he).1.le
    · have hhold := h.not_launched hd
      have hd' : d.advance.isDone = true := by
        have hdisp : d.advance.dispatcher = (d.dispatcher.advance d.dispatchInput).1 := rfl
        rw [isDone, hdisp, hhold]
        exact hd
      have hnil : cycleEvents d.cycle 0 (d.dispatcher.advance d.dispatchInput).2 = [] := by
        rw [hhold]
        refine cycleEvents_eq_nil (List.forall_mem_map.2 fun s _ ↦ ⟨rfl, rfl⟩)
      rw [hnil, hrec, hd, Bool.not_true, Bool.and_false, if_neg Bool.false_ne_true,
        List.append_nil, List.append_nil, List.append_nil]
      exact .inr ⟨hd', cycle, rfl, hle⟩
  · intro i s' hs'
    have hslots : d.advance.dispatcher.slots =
        (d.dispatcher.advance d.dispatchInput).1.slots := rfl
    obtain ⟨results, hsteps, hresults, horders⟩ := h.log.steps h.length_done
    rw [hslots, hresults] at hs'
    obtain ⟨r, s, _, rfl, hr, hs, -, hstep⟩ := Dispatcher.exists_step hsteps hs'
    have hfits := h.log.fits s (List.mem_of_getElem? hs)
    have hevents := filter_cycleEvents d.cycle 0 i (d.dispatcher.advance d.dispatchInput).2
    rw [Nat.zero_add, horders, List.getElem?_map, hr] at hevents
    rw [chronicle_concat, hclock, List.filter_append, horders, hevents]
    refine hstep.alternates hfits (hc.turns i s hs) fun e he ↦ ?_
    exact hlt e (List.mem_of_mem_filter he)

theorem Reachable.chronicled (h : d.Reachable) :
    ∃ inputs outputs left served, d.Consistent inputs outputs left served ∧
      d.Chronicled outputs :=
  h.invariant (P := fun outputs d ↦ d.Chronicled outputs) Fresh.chronicled
    (fun hl hP ↦ by
      obtain ⟨-, rfl⟩ := eq_of_launch hl
      exact ⟨hP.record, hP.turns⟩)
    fun h hc ↦ hc.advance h

theorem Consistent.launchThreads_eq (h : d.Consistent inputs outputs left served)
    (hs : ∃ i ∈ inputs, i.start = true) : Dispatcher.launchThreads inputs = d.threads := by
  obtain ⟨j, hj⟩ := Option.isSome_iff_exists.1 (List.find?_isSome.2 hs)
  rw [Dispatcher.launchThreads, hj]
  exact (h.launched j (List.mem_of_find?_eq_some hj) (List.find?_some hj)).2

/-- Only the last event, if any, does not belong to a core. -/
theorem Chronicled.filterMap_eq {α : Type} {f : Event → Option α} (h : d.Chronicled outputs)
    (hf : ∀ cycle, f (.kernelDone cycle) = none) :
    d.trace.events.filterMap f = (chronicle 0 outputs).filterMap f := by
  rcases h.record with ⟨-, hrec⟩ | ⟨-, _, hrec, -⟩ <;> simp [hrec, hf]

theorem Chronicled.filter_eq (h : d.Chronicled outputs) (core : Nat) :
    (d.trace.events.filter fun e ↦ e.core? = some core) =
      (chronicle 0 outputs).filter fun e ↦ e.core? = some core := by
  rcases h.record with ⟨-, hrec⟩ | ⟨-, _, hrec, -⟩ <;> simp [hrec, Event.core?]

theorem Chronicled.chronological (h : d.Chronicled outputs) :
    d.trace.events.Pairwise fun e e' ↦ e.cycle ≤ e'.cycle := by
  have hch := chronicle_chronological 0 outputs
  rcases h.record with ⟨-, hrec⟩ | ⟨-, cycle, hrec, hle⟩
  · rwa [hrec]
  · rw [hrec, List.pairwise_append]
    refine ⟨hch, List.pairwise_singleton _ _, fun e he e' he' ↦ ?_⟩
    rw [List.mem_singleton.1 he']
    exact hle e he

theorem Chronicled.alternating (h : d.Consistent inputs outputs left served)
    (hc : d.Chronicled outputs) (core : Nat) :
    ∃ current, Event.Alternates current
      (d.trace.events.filter fun e ↦ e.core? = some core) := by
  rw [hc.filter_eq]
  cases hs : d.dispatcher.slots[core]? with
  | some s => exact ⟨_, hc.turns core s hs⟩
  | none =>
    rw [List.getElem?_eq_none_iff, h.log.length_slots] at hs
    have hle : ∀ orders ∈ outputs, orders.length ≤ core := fun orders ho ↦
      (h.log.length_orders orders ho).trans_le hs
    rw [filter_chronicle_of_le hle]
    exact ⟨none, .nil⟩

/-- In every state the trace of a device is well formed. -/
theorem Reachable.wellFormed (h : d.Reachable) :
    d.trace.WellFormed d.threads d.config.threadsPerBlock d.isDone := by
  obtain ⟨inputs, outputs, left, served, h, hc⟩ := h.chronicled
  have hdispatched := hc.filterMap_eq (f := Event.dispatched?) fun _ ↦ rfl
  have hcompleted := hc.filterMap_eq (f := Event.completed?) fun _ ↦ rfl
  rw [Event.reads_dispatched.filterMap_chronicle] at hdispatched
  rw [Event.reads_completed.filterMap_chronicle, ← List.map_filterMap] at hcompleted
  refine ⟨hc.chronological, ?_, hc.alternating h, ?_, fun hd ↦ ?_⟩
  · have hcount := h.log.books.dispatched
    have hnumbers := h.log.numbers_eq
    rw [Trace.dispatchOrder_eq, hdispatched, List.map_map]
    rcases Dispatcher.started_or_not inputs with hs | hs
    · rw [h.launchThreads_eq hs] at hnumbers hcount
      exact ⟨d.dispatcher.dispatchedCount, by omega, hnumbers⟩
    · rw [h.log.starts_eq_nil hs]
      exact ⟨0, Nat.zero_le _, rfl⟩
  · rcases hc.record with ⟨hd, hrec⟩ | ⟨hd, cycle, hrec, -⟩
    · exact ⟨_, fun e he ↦ (mem_chronicle he).2.2, by simpa [hd] using hrec⟩
    · exact ⟨_, fun e he ↦ (mem_chronicle he).2.2, by simpa [hd] using ⟨cycle, hrec⟩⟩
  · obtain ⟨hstarts, hperm⟩ := h.log.completed_of_done hd
    have hcap := h.log.books.capacity
    rw [h.launchThreads_eq (h.log.done_iff.1 hd).1] at hstarts hcap
    have hsize := (Config.pos_of_valid h.valid).2
    rw [hstarts] at hperm
    constructor
    · rw [Trace.completionOrder_eq, hcompleted, List.map_map]
      exact (hperm.map _).trans (launchBlocks_numbers _ _ hcap)
    · have hall : ¬ blockCount d.threads d.config.threadsPerBlock *
          d.config.threadsPerBlock.toNat < d.threads := by
        rw [← lt_blockCount_iff hsize]
        exact Nat.lt_irrefl _
      rw [hdispatched, hstarts, sum_threads_launchBlocks]
      exact Nat.min_eq_right (Nat.le_of_not_lt hall)

/-- The device after `k` cycles. -/
def stepFor : (k : Nat) → Device → Except Dispatcher.Fault Device
  | 0, d => .ok d
  | k + 1, d =>
    match d.step with
    | .error f => .error f
    | .ok d => stepFor k d

theorem Reachable.exists_stepFor (h : d.Reachable) (k : Nat) :
    ∃ d', d.stepFor k = .ok d' ∧ d'.Reachable ∧ d'.threads = d.threads ∧
      d'.config = d.config := by
  induction k generalizing d with
  | zero => exact ⟨d, rfl, h, rfl, rfl⟩
  | succ k ih =>
    obtain ⟨_, _, _, _, hc⟩ := h.consistent
    obtain ⟨d', hd', hr, ht, hcfg⟩ := ih (.step h hc.step_eq)
    refine ⟨d', ?_, hr, ht, hcfg⟩
    rw [stepFor, hc.step_eq]
    exact hd'

/-- However long a device has run since it launched a kernel, its trace is well formed: events in
order, blocks handed out from the last one down, on each core blocks begun and completed in turns,
and the end of the kernel, when it has come, as the last event, with all blocks complete and all
threads handed out. -/
theorem trace_wellFormed (h : d.Reachable) (hl : d.launch n = .ok d') (k : Nat) :
    ∃ d'', d'.stepFor k = .ok d'' ∧
      d''.trace.WellFormed n d.config.threadsPerBlock d''.isDone := by
  obtain ⟨d'', hd, hr, ht, hcfg⟩ := (Reachable.launch h hl).exists_stepFor k
  obtain ⟨-, rfl⟩ := eq_of_launch hl
  have hw := hr.wellFormed
  rw [ht, hcfg] at hw
  exact ⟨d'', hd, hw⟩

/-- Three blocks of one thread on two cores that share the channel to the program. -/
theorem trace_wellFormed_twins :
    ∃ d d' d'' : Device, d.Reachable ∧ d.launch 3 = .ok d' ∧ d'.stepFor 33 = .ok d'' ∧
      d''.isDone = true ∧ d''.trace.completionOrder = [2, 1, 0] ∧
      d''.trace.WellFormed 3 1 true := by
  have hrun : ((create twins #[0xF000] #[]).toOption.bind fun d ↦ (d.launch 3).toOption.bind fun d ↦
      (d.stepFor 33).toOption.map fun d ↦ (d.isDone, d.trace.completionOrder)) =
        some (true, [2, 1, 0]) := by decide +kernel
  cases hc : create twins #[0xF000] #[] with
  | error e => simp [hc, Except.toOption] at hrun
  | ok d =>
    cases hl : d.launch 3 with
    | error e => simp [hc, hl, Except.toOption] at hrun
    | ok d' =>
      obtain ⟨d'', hd, hw⟩ := trace_wellFormed (.create hc) hl 33
      simp only [hc, hl, hd, Except.toOption, Option.bind_some, Option.map_some, Option.some.injEq,
        Prod.mk.injEq] at hrun
      obtain ⟨-, _, _, -, -, rfl⟩ := eq_of_create hc
      rw [hrun.1] at hw
      exact ⟨_, d', d'', .create hc, hl, hd, hrun.1, hrun.2, hw⟩

end Device

end SimtMachine
