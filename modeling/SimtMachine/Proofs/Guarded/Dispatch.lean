import SimtMachine.Proofs.Dispatch.Completion
import SimtMachine.Proofs.Guarded.Core

/-!
# A guarded dispatcher

A cycle of the dispatcher as two loops over the numbers of the cores, the first of which hands out
blocks while the second books completions, with every check that the dispatcher makes and every
access by number guarded. In a run that exceeds no capacity such a cycle comes to no trap, and it
does what the turns of the cores do one after another.
-/

namespace SimtMachine

namespace Dispatcher

/-- The wires from the dispatcher to the cores, one of each kind for each core. -/
structure Lines where
  reset : List Bool
  start : List (Option Assignment)
  completed : List (Option Assignment)

def Lines.ofOrders (orders : List Order) : Lines where
  reset := orders.map Order.reset
  start := orders.map Order.start
  completed := orders.map Order.completed

/-- A cycle in the making: the next state and the wires as far as they are set. -/
structure Draft where
  next : Dispatcher
  start : List (Option Assignment)
  completed : List (Option Assignment)

def guardedThreadsOf (d : Dispatcher) (block : Nat) : Guarded UInt8 :=
  if block + 1 = d.blocks then do
    let rest ← Guarded.difference d.threads (block * d.blockSize.toNat)
    return UInt8.ofNat rest
  else return d.blockSize

def guardedPick (d : Dispatcher) : Guarded (Option Nat) :=
  (List.range maxBlocks).reverse.findM? fun id ↦
    if id < d.blocks then do
      let handedOut ← Guarded.read d.mask id
      return !handedOut
    else return false

def guardedGive (w : Draft) (i id : Nat) : Guarded Draft := do
  let mask ← Guarded.write w.next.mask id true
  let next := { w.next with mask, dispatchedCount := w.next.dispatchedCount + 1 }
  let threads ← next.guardedThreadsOf id
  let b : Assignment := ⟨UInt8.ofNat id, threads⟩
  let own ← Guarded.get next.slots i
  let slots ← Guarded.put next.slots i { own with busy := true, assignment := some b }
  let start ← Guarded.put w.start i (some b)
  return { w with next := { next with slots }, start }

/-- The offer of a block to core number `x.2`, which had the slot `x.1` before the cycle. -/
def guardedOffer (w : Draft) (x : Slot × Nat) : Guarded Draft :=
  let (s, i) := x
  if s.awaiting then do
    let own ← Guarded.get w.next.slots i
    let slots ← Guarded.put w.next.slots i { own with awaiting := false }
    let w := { w with next := { w.next with slots } }
    match ← w.next.guardedPick with
    | none => return w
    | some id => guardedGive w i id
  else return w

/-- The done line of a core is looked at only if the core was busy before the cycle. -/
def guardedRetire (coreDone : List Bool) (w : Draft) (x : Slot × Nat) : Guarded Draft :=
  let (s, i) := x
  if s.busy then do
    let done ← Guarded.get coreDone i
    if done then
      let own ← Guarded.get w.next.slots i
      let slots ← Guarded.put w.next.slots i { own with busy := false, awaiting := true }
      let completed ← Guarded.put w.completed i s.assignment
      return { w with
        next := { w.next with completedCount := w.next.completedCount + 1, slots }
        completed }
    else return w
  else return w

/-- The cycle up to the point where a launch may be over. -/
def guardedMove (d : Dispatcher) (i : DispatchInput) : Guarded Draft :=
  let quiet : Draft :=
    ⟨d, List.replicate d.slots.length none, List.replicate d.slots.length none⟩
  if d.accepts i.start then do
    let blocks ← Guarded.quotientUp i.threads d.blockSize.toNat
    Guarded.check (blocks ≤ maxBlocks) (.assertion (.capacity blocks))
    return { quiet with next := { d.launch i.threads with blocks } }
  else if d.launched then do
    let w ← d.slots.zipIdx.foldlM guardedOffer quiet
    d.slots.zipIdx.foldlM (guardedRetire i.coreDone) w
  else return quiet

def guardedTick (d : Dispatcher) (i : DispatchInput) : Guarded (Dispatcher × Lines) := do
  Guarded.check (i.coreDone.length = d.slots.length) (.assertion .doneLines)
  let w ← d.guardedMove i
  let next := w.next.latch
  Guarded.check (next.completedCount ≤ next.dispatchedCount) .overbooked
  return (next, ⟨next.slots.map Slot.awaiting, w.start, w.completed⟩)

/-! ## Handing out blocks -/

variable {d : Dispatcher} {i : DispatchInput}

theorem guardedThreadsOf_eq (h : d.blocks = blockCount d.threads d.blockSize) {k : Nat}
    (hk : k < d.blocks) : d.guardedThreadsOf k = .ok (d.threadsOf k) := by
  rw [h] at hk
  have hlt := (lt_blockCount_iff (size_pos_of_lt_blockCount hk)).1 hk
  rw [guardedThreadsOf, threadsOf, Guarded.difference_eq hlt.le]
  split <;> rfl

theorem findM?_map_eq {α β : Type} {g : α → β} {f : β → Guarded Bool} {p : α → Bool}
    (h : ∀ x, f (g x) = .ok (p x)) (xs : List α) :
    (xs.map g).findM? f = .ok ((xs.find? p).map g) := by
  induction xs with
  | nil => rfl
  | cons x xs ih =>
    rw [List.map_cons, List.findM?, h, Guarded.ok_bind, List.find?_cons]
    cases p x with
    | true => rfl
    | false => exact ih

theorem guardedPick_eq (d : Dispatcher) : d.guardedPick = .ok (d.pick.map Fin.val) := by
  have hids : (List.range maxBlocks).reverse = (List.finRange maxBlocks).reverse.map Fin.val := by
    rw [List.map_reverse, List.map_coe_finRange_eq_range]
  rw [guardedPick, hids]
  refine findM?_map_eq (fun id ↦ ?_) _
  split
  · next h =>
    rw [Guarded.read_eq id.isLt]
    simp [h, hasDispatched]
  · next h => simp [h]

theorem offer_keeps (d : Dispatcher) (s : Slot) :
    (d.offer s).1.blocks = d.blocks ∧ (d.offer s).1.threads = d.threads ∧
      (d.offer s).1.blockSize = d.blockSize := by
  unfold offer
  split
  · split <;> exact ⟨rfl, rfl, rfl⟩
  · exact ⟨rfl, rfl, rfl⟩

theorem guardedGive_eq (h : d.blocks = blockCount d.threads d.blockSize) {s : Slot}
    {pre post : List Slot} {past later completed : List (Option Assignment)} {k : Nat}
    (hpre : pre.length = k) (hpast : past.length = k) (id : Fin maxBlocks) (hid : id < d.blocks) :
    guardedGive ⟨{ d with slots := pre ++ s :: post }, past ++ none :: later, completed⟩ k id =
      .ok ⟨{ d with
          mask := d.mask.set id.val true id.isLt
          dispatchedCount := d.dispatchedCount + 1
          slots := pre ++
            { s with busy := true, assignment := some ⟨UInt8.ofNat id, d.threadsOf id⟩ } :: post },
        past ++ some ⟨UInt8.ofNat id, d.threadsOf id⟩ :: later, completed⟩ := by
  -- the number of threads does not depend on the mask and the counters
  have hthreads (mask : BlockMask) (count : Nat) : { d with
      mask, dispatchedCount := count, slots := pre ++ s :: post }.guardedThreadsOf id =
        .ok (d.threadsOf id) := guardedThreadsOf_eq h hid
  simp only [guardedGive, Guarded.write_eq id.isLt, Guarded.ok_bind, hthreads,
    Guarded.get_append hpre, Guarded.put_append hpre, Guarded.put_append hpast, Guarded.pure_eq]

theorem guardedOffer_eq (h : d.blocks = blockCount d.threads d.blockSize) {s : Slot}
    {pre post : List Slot} {past later completed : List (Option Assignment)} {k : Nat}
    (hpre : pre.length = k) (hpast : past.length = k) :
    guardedOffer ⟨{ d with slots := pre ++ s :: post }, past ++ none :: later, completed⟩ (s, k) =
      .ok ⟨{ (d.offer s).1 with slots := pre ++ (d.offer s).2.1 :: post },
        past ++ (d.offer s).2.2 :: later, completed⟩ := by
  have hpick : { d with slots := pre ++ { s with awaiting := false } :: post }.guardedPick =
      .ok (d.pick.map Fin.val) := d.guardedPick_eq
  cases ha : s.awaiting with
  | false => simp only [guardedOffer, offer, ha, Bool.false_eq_true, if_false, Guarded.pure_eq]
  | true =>
    simp only [guardedOffer, offer, ha, if_true, Guarded.get_append hpre, Guarded.put_append hpre,
      Guarded.ok_bind, hpick]
    cases hp : d.pick with
    | none => rfl
    | some id =>
      have hid : id < d.blocks := by
        have hfound := List.find?_some hp
        simp only [Bool.and_eq_true, decide_eq_true_eq] at hfound
        exact hfound.1
      exact guardedGive_eq h hpre hpast id hid

/-- The first loop of a cycle offers the cores a block one after another. -/
theorem foldlM_guardedOffer (slots : List Slot) (h : d.blocks = blockCount d.threads d.blockSize)
    (pre : List Slot) (past completed : List (Option Assignment)) {k : Nat}
    (hpre : pre.length = k) (hpast : past.length = k) :
    (slots.zipIdx k).foldlM guardedOffer
        ⟨{ d with slots := pre ++ slots }, past ++ List.replicate slots.length none, completed⟩ =
      .ok ⟨{ (sweep offer d slots).1 with slots := pre ++ (sweep offer d slots).2.map Prod.fst },
        past ++ (sweep offer d slots).2.map Prod.snd, completed⟩ := by
  -- the loop has passed `pre` and written `past`, and what lies ahead is as it was
  induction slots generalizing d pre past k with
  | nil => rfl
  | cons s slots ih =>
    obtain ⟨hb, ht, hs⟩ := d.offer_keeps s
    have h' : (d.offer s).1.blocks = blockCount (d.offer s).1.threads (d.offer s).1.blockSize := by
      rw [hb, ht, hs, h]
    rw [List.zipIdx_cons, List.foldlM_cons, List.length_cons, List.replicate_succ,
      guardedOffer_eq h hpre hpast, Guarded.ok_bind, sweep_cons]
    have hrest := ih h' (pre ++ [(d.offer s).2.1]) (past ++ [(d.offer s).2.2]) (k := k + 1)
      (by simp [hpre]) (by simp [hpast])
    simpa only [List.append_assoc, List.cons_append, List.nil_append, List.map_cons] using hrest

/-! ## Booking completions -/

/-- A core that reports complete what it was busy with. -/
def retires (turn : Slot × Bool) : Bool := turn.1.busy && turn.2

/-- What a turn books on a core that was offered a block. -/
def settle (turn : Slot × Bool) (offered : Slot × Option Assignment) : Slot × Order :=
  if retires turn then
    ({ offered.1 with busy := false, awaiting := true }, ⟨true, offered.2, turn.1.assignment⟩)
  else (offered.1, ⟨offered.1.awaiting, offered.2, none⟩)

theorem count_retires (count : Nat) (turn : Slot × Bool) (turns : List (Slot × Bool)) :
    count + (turn :: turns).countP retires =
      count + (if retires turn then 1 else 0) + turns.countP retires := by
  rw [List.countP_cons]
  omega

theorem settle_reset (turn : Slot × Bool) (offered : Slot × Option Assignment) :
    (settle turn offered).2.reset = (settle turn offered).1.awaiting := by
  unfold settle
  split <;> rfl

theorem settle_start (turn : Slot × Bool) (offered : Slot × Option Assignment) :
    (settle turn offered).2.start = offered.2 := by
  unfold settle
  split <;> rfl

theorem map_start_settle {turns : List (Slot × Bool)} {offers : List (Slot × Option Assignment)}
    (h : turns.length = offers.length) :
    (List.zipWith settle turns offers).map (Order.start ∘ Prod.snd) = offers.map Prod.snd := by
  refine List.ext_getElem (by simp [h]) fun k _ _ ↦ ?_
  simp [settle_start]

theorem guardedRetire_eq {turn : Slot × Bool} {offered : Slot × Option Assignment}
    {coreDone : List Bool} {pre post : List Slot} {past later start : List (Option Assignment)}
    {k : Nat} (hpre : pre.length = k) (hpast : past.length = k)
    (hdone : coreDone[k]? = some turn.2) :
    guardedRetire coreDone
        ⟨{ d with slots := pre ++ offered.1 :: post }, start, past ++ none :: later⟩ (turn.1, k) =
      .ok ⟨{ d with
          completedCount := d.completedCount + (if retires turn then 1 else 0)
          slots := pre ++ (settle turn offered).1 :: post },
        start, past ++ (settle turn offered).2.completed :: later⟩ := by
  obtain ⟨⟨busy, awaiting, b⟩, finished⟩ := turn
  cases busy with
  | false => rfl
  | true =>
    simp only [guardedRetire, if_true, Guarded.get_eq hdone, Guarded.ok_bind]
    cases finished with
    | false => rfl
    | true =>
      simp only [if_true, Guarded.get_append hpre, Guarded.put_append hpre,
        Guarded.put_append hpast, Guarded.ok_bind]
      rfl

/-- The second loop of a cycle books completions on the slots that the first loop has left. -/
theorem foldlM_guardedRetire (d : Dispatcher) {turns : List (Slot × Bool)}
    {offers : List (Slot × Option Assignment)} {coreDone : List Bool} (done : List Bool)
    (pre : List Slot) (past start : List (Option Assignment)) {k : Nat}
    (hlen : turns.length = offers.length) (hpre : pre.length = k) (hpast : past.length = k)
    (hdone : done.length = k) (hlines : coreDone = done ++ turns.map Prod.snd) :
    ((turns.map Prod.fst).zipIdx k).foldlM (guardedRetire coreDone)
        ⟨{ d with slots := pre ++ offers.map Prod.fst }, start,
          past ++ List.replicate offers.length none⟩ =
      .ok ⟨{ d with
          completedCount := d.completedCount + turns.countP retires
          slots := pre ++ (List.zipWith settle turns offers).map Prod.fst },
        start, past ++ (List.zipWith settle turns offers).map (Order.completed ∘ Prod.snd)⟩ := by
  -- the loop runs over the slots before the cycle, but reads and writes those after the offers
  induction turns generalizing d offers done pre past k with
  | nil =>
    obtain rfl := List.eq_nil_of_length_eq_zero hlen.symm
    rfl
  | cons turn turns ih =>
    cases offers with
    | nil => cases hlen
    | cons offered offers =>
      have hk : coreDone[k]? = some turn.2 := by simp [hlines, hdone]
      simp only [List.map_cons, List.zipIdx_cons, List.foldlM_cons, List.length_cons,
        List.replicate_succ, guardedRetire_eq hpre hpast hk, Guarded.ok_bind,
        count_retires]
      have hrest := ih
        { d with completedCount := d.completedCount + (if retires turn then 1 else 0) }
        (done ++ [turn.2]) (pre ++ [(settle turn offered).1])
        (past ++ [(settle turn offered).2.completed]) (k := k + 1) (Nat.succ.inj hlen)
        (by simp [hpre]) (by simp [hpast]) (by simp [hdone]) (by simp [hlines])
      simpa only [List.append_assoc, List.cons_append, List.nil_append, List.zipWith_cons_cons,
        List.map_cons, Function.comp_apply] using hrest

/-! ## Both loops -/

theorem offer_completedCount (d : Dispatcher) (s : Slot) :
    (d.offer s).1.completedCount = d.completedCount := by
  unfold offer
  split
  · split <;> rfl
  · rfl

theorem offers_completedCount (d : Dispatcher) (slots : List Slot) :
    (sweep offer d slots).1.completedCount = d.completedCount :=
  sweep_invariant (f := completedCount) (fun d s _ ↦ d.offer_completedCount s) d

theorem visit_eq_settle (d : Dispatcher) (turn : Slot × Bool) :
    visit d turn = ({ (d.offer turn.1).1 with
        completedCount := d.completedCount + (if retires turn then 1 else 0) },
      settle turn (d.offer turn.1).2) := by
  have hcount := d.offer_completedCount turn.1
  unfold visit settle retires
  by_cases h : (turn.1.busy && turn.2) = true
  · simp only [h, if_true, hcount]
  · simp only [h, ← hcount]
    rfl

theorem sweep_offer_count (d : Dispatcher) (count : Nat) (slots : List Slot) :
    sweep offer { d with completedCount := count } slots =
      ({ (sweep offer d slots).1 with completedCount := count }, (sweep offer d slots).2) := by
  induction slots generalizing d with
  | nil => rfl
  | cons s slots ih =>
    have hoffer : offer { d with completedCount := count } s =
        ({ (d.offer s).1 with completedCount := count }, (d.offer s).2) := by
      have hpick : { d with completedCount := count }.pick = d.pick := rfl
      unfold offer
      rw [hpick]
      split
      · split <;> rfl
      · rfl
    rw [sweep_cons, hoffer, ih, sweep_cons]

/-- The turns of a cycle may be cut into the offers of all cores and then the completions. -/
theorem sweep_visit (d : Dispatcher) (turns : List (Slot × Bool)) :
    sweep visit d turns =
      ({ (sweep offer d (turns.map Prod.fst)).1 with
          completedCount := d.completedCount + turns.countP retires },
        List.zipWith settle turns (sweep offer d (turns.map Prod.fst)).2) := by
  induction turns generalizing d with
  | nil => rfl
  | cons turn turns ih =>
    rw [sweep_cons, visit_eq_settle, ih, sweep_offer_count, List.map_cons, sweep_cons,
      List.zipWith_cons_cons, count_retires]

/-- The two loops of a cycle do what the turns of the cores do. -/
theorem guardedLoops_eq (h : d.blocks = blockCount d.threads d.blockSize) {coreDone : List Bool}
    (hdone : coreDone.length = d.slots.length) :
    (do
      let w ← d.slots.zipIdx.foldlM guardedOffer
        ⟨d, List.replicate d.slots.length none, List.replicate d.slots.length none⟩
      d.slots.zipIdx.foldlM (guardedRetire coreDone) w) =
      .ok ⟨(d.proceed coreDone).1, (d.proceed coreDone).2.map Order.start,
        (d.proceed coreDone).2.map Order.completed⟩ := by
  have hslots : (d.slots.zip coreDone).map Prod.fst = d.slots :=
    List.map_fst_zip hdone.symm.le
  have hlines : (d.slots.zip coreDone).map Prod.snd = coreDone :=
    List.map_snd_zip hdone.le
  have hlen : (d.slots.zip coreDone).length = (sweep offer d d.slots).2.length := by
    rw [length_sweep, List.length_zip, hdone, Nat.min_self]
  have hoffers := foldlM_guardedOffer d.slots h [] []
    (List.replicate d.slots.length none) (k := 0) rfl rfl
  have hretires := foldlM_guardedRetire (sweep offer d d.slots).1 [] [] []
    ((sweep offer d d.slots).2.map Prod.snd) (k := 0) hlen rfl rfl rfl hlines.symm
  rw [length_sweep] at hretires
  simp only [List.nil_append, hslots] at hoffers hretires
  rw [hoffers, Guarded.ok_bind, hretires, proceed, sweep_visit, hslots, offers_completedCount]
  simp only [List.map_map, map_start_settle hlen]

/-- A cycle before a launch that may be over is over. -/
def move (d : Dispatcher) (i : DispatchInput) : Dispatcher × List Order :=
  if d.accepts i.start then (d.launch i.threads).hold
  else if d.launched then d.proceed i.coreDone
  else d.hold

theorem advance_eq_move (d : Dispatcher) (i : DispatchInput) :
    d.advance i = ((d.move i).1.latch, (d.move i).2) := rfl

theorem map_start_hold (d : Dispatcher) :
    d.hold.2.map Order.start = List.replicate d.slots.length none := by
  simp [hold, Function.comp_def]

theorem map_completed_hold (d : Dispatcher) :
    d.hold.2.map Order.completed = List.replicate d.slots.length none := by
  simp [hold, Function.comp_def]

/-- A core is held in reset exactly if it awaits a block. -/
theorem map_reset_move (d : Dispatcher) (i : DispatchInput) :
    (d.move i).2.map Order.reset = (d.move i).1.slots.map Slot.awaiting := by
  have hhold (d : Dispatcher) : d.hold.2.map Order.reset = d.hold.1.slots.map Slot.awaiting := by
    simp [hold, Function.comp_def]
  unfold move
  split
  · exact hhold _
  · split
    · rw [proceed, sweep_visit]
      simp only [List.map_zipWith, settle_reset]
    · exact hhold _

theorem guardedMove_eq (hsize : d.blockSize ≠ 0)
    (hblocks : d.blocks = blockCount d.threads d.blockSize)
    (hdone : i.coreDone.length = d.slots.length)
    (hcap : d.accepts i.start = true → blockCount i.threads d.blockSize ≤ maxBlocks) :
    d.guardedMove i = .ok ⟨(d.move i).1, (d.move i).2.map Order.start,
      (d.move i).2.map Order.completed⟩ := by
  unfold guardedMove move
  cases ha : d.accepts i.start with
  | true =>
    have hlen : (d.launch i.threads).slots.length = d.slots.length := List.length_map _
    simp only [if_true, Guarded.quotientUp_eq _ hsize, Guarded.ok_bind,
      Guarded.check_of (hcap ha), map_start_hold, map_completed_hold, hlen]
    rfl
  | false =>
    cases d.launched with
    | true => exact guardedLoops_eq hblocks hdone
    | false =>
      simp only [Bool.false_eq_true, if_false, map_start_hold, map_completed_hold]
      rfl

/-- Where the conditions of a cycle hold, no guard of it does. -/
theorem guardedTick_eq (hsize : d.blockSize ≠ 0)
    (hblocks : d.blocks = blockCount d.threads d.blockSize)
    (hdone : i.coreDone.length = d.slots.length)
    (hcap : d.accepts i.start = true → blockCount i.threads d.blockSize ≤ maxBlocks)
    (hbooked : (d.advance i).1.completedCount ≤ (d.advance i).1.dispatchedCount) :
    d.guardedTick i = .ok ((d.advance i).1, .ofOrders (d.advance i).2) := by
  rw [advance_eq_move] at hbooked ⊢
  simp only [guardedTick, Guarded.check_of hdone, guardedMove_eq hsize hblocks hdone hcap,
    Guarded.ok_bind, Guarded.check_of hbooked, Guarded.pure_eq, latch_slots, ← map_reset_move]
  rfl

-- either condition on the input is needed
example : (Dispatcher.initial 2 4).guardedTick ⟨true, 300, [false, false]⟩ =
    .error (.assertion (.capacity 75)) := rfl

example : (Dispatcher.initial 2 4).guardedTick ⟨true, 3, [false]⟩ =
    .error (.assertion .doneLines) := rfl

theorem capacity_of_check {u : Unit} (h : d.check i = .ok u) (ha : d.accepts i.start = true) :
    blockCount i.threads d.blockSize ≤ maxBlocks := by
  apply Nat.le_of_not_lt
  intro hlt
  unfold check at h
  split at h
  · cases h
  · rw [if_pos (by simpa [ha] using hlt)] at h
    cases h

/-- In a run that exceeds no capacity the next cycle comes to no trap. -/
theorem Log.guardedTick_eq {cores left served : Nat} {size : UInt8} {inputs : List DispatchInput}
    {outputs : List (List Order)} (h : Log cores size inputs outputs left served d)
    (hi : Admissible cores size (inputs ++ [i])) (hs : size ≠ 0) :
    d.guardedTick i = .ok ((d.advance i).1, .ofOrders (d.advance i).2) := by
  obtain ⟨d', orders, left', served', ht, h'⟩ := h.tick hi
  cases hc : d.check i with
  | error f =>
    rw [Dispatcher.tick, hc] at ht
    cases ht
  | ok =>
    rw [Dispatcher.tick, hc] at ht
    have hadvance : d.advance i = (d', orders) := Except.ok.inj ht
    have hb := h.books
    refine Dispatcher.guardedTick_eq (by rw [hb.blockSize]; exact hs)
      (by rw [hb.blocks, hb.threads, hb.blockSize])
      ((hi.doneLines i (by simp)).trans h.length_slots.symm) (capacity_of_check hc) ?_
    rw [hadvance, h'.dispatchedCount_eq]
    exact Nat.le_add_right _ _

end Dispatcher

end SimtMachine
