import SimtMachine.Proofs.Dispatch.Booking

/-!
# Turns of a cycle

In a cycle of a launch the cores have their turns one after another, and each turn moves the
counters that the next one finds. What a cycle hands out, what it completes and which cores it
leaves without work follow from the four kinds of turns. What a single core sees of a cycle does not
depend on the counters.
-/

namespace SimtMachine

/-- The block that a core works on according to its slot. -/
def Slot.block? (s : Slot) : Option Assignment :=
  if s.busy then s.assignment else none

theorem Slot.block?_of_busy {s : Slot} (h : s.busy = true) : s.block? = s.assignment := by
  simp [block?, h]

theorem Slot.block?_of_not_busy {s : Slot} (h : s.busy = false) : s.block? = none := by
  simp [block?, h]

theorem Slot.fits_of_not_busy {s : Slot} (h : s.busy = false) : s.Fits s.block? := by
  rw [block?_of_not_busy h]
  exact .free h

/-- What one core sees of a cycle: it begins a block, completes its block, or neither. -/
inductive Slot.Step (s : Slot) (coreDone : Bool) : Slot × Order → Prop
  | begin (b : Assignment) : s.awaiting = true →
      Step s coreDone (⟨true, false, some b⟩, ⟨false, some b, none⟩)
  | complete : s.busy = true → coreDone = true →
      Step s coreDone ({ s with busy := false, awaiting := true }, ⟨true, none, s.assignment⟩)
  | rest (awaiting : Bool) : Step s coreDone ({ s with awaiting }, ⟨awaiting, none, none⟩)

section Step

variable {s : Slot} {coreDone : Bool} {r : Slot × Order} {b : Assignment}

theorem Slot.Step.reset_eq (h : s.Step coreDone r) : r.2.reset = r.1.awaiting := by
  cases h <;> rfl

theorem Slot.Step.of_start (h : s.Step coreDone r) (hb : r.2.start = some b) :
    s.awaiting = true ∧ r.2.reset = false := by
  cases h with
  | begin _ ha => exact ⟨ha, rfl⟩
  | _ => cases hb

theorem Slot.Step.of_completed (h : s.Step coreDone r) (hb : r.2.completed = some b) :
    s.block? = some b ∧ coreDone = true := by
  cases h with
  | complete hs hd => exact ⟨(Slot.block?_of_busy hs).trans hb, hd⟩
  | _ => cases hb

theorem Slot.Step.of_block? (h : s.Step coreDone r) (hb : r.1.block? = some b) :
    r.2.start = some b ∨ s.block? = some b := by
  cases h with
  | begin _ _ => exact .inl hb
  | complete _ _ => cases hb
  | rest _ => exact .inr hb

end Step

theorem filterMap_cons_eq_append {α β : Type} (f : α → Option β) (x : α) (xs : List α) :
    (x :: xs).filterMap f = (f x).toList ++ xs.filterMap f := by
  cases h : f x <;> simp [h]

namespace Dispatcher

variable {n : Nat} {size : UInt8} {left served left' served' : Nat} {d : Dispatcher}

/-! ## One turn -/

section Turn

variable {s s' : Slot} {coreDone : Bool} {o : Order}

theorem Turn.step (h : Turn n size s coreDone left served left' served' s' o) :
    s.Step coreDone (s', o) := by
  cases h with
  | begin k _ ha => exact .begin _ ha
  | exhaust _ _ => exact .rest false
  | complete _ _ hb hd => exact .complete hb hd
  | keep _ _ ha _ =>
    have hs : s = { s with awaiting := false } := by rw [← ha]
    rw [hs]
    exact .rest false

theorem Turn.fits (h : Turn n size s coreDone left served left' served' s' o)
    (hs : s.Fits s.block?) : s'.Fits s'.block? := by
  cases h with
  | begin => exact .busy rfl rfl rfl
  | exhaust _ ha => exact Slot.fits_of_not_busy (hs.of_awaiting ha).1
  | complete => exact Slot.fits_of_not_busy rfl
  | keep => exact hs

theorem Turn.starts (h : Turn n size s coreDone left served left' served' s' o) :
    o.start.toList ++ launchBlocks n size left' = launchBlocks n size left := by
  cases h with
  | begin => exact (launchBlocks_succ n size left').symm
  | _ => rfl

/-- The block of a core is the one it had or the one it begins, until it has completed it. -/
theorem Turn.settles (h : Turn n size s coreDone left served left' served' s' o)
    (hs : s.Fits s.block?) :
    o.completed.toList ++ s'.block?.toList = s.block?.toList ++ o.start.toList := by
  cases h with
  | begin k _ ha => simp [(hs.of_awaiting ha).2, Slot.block?_of_busy]
  | exhaust _ ha =>
    have hb := (hs.of_awaiting ha).1
    simp [Slot.block?, hb]
  | complete _ _ hb => simp [Slot.block?_of_busy hb, Slot.block?_of_not_busy]
  | keep => simp

theorem Turn.served_eq (h : Turn n size s coreDone left served left' served' s' o)
    (hs : s.Fits s.block?) : served' = served + o.completed.toList.length := by
  cases h with
  | complete _ _ hb =>
    obtain ⟨b, ha, -⟩ := hs.of_busy hb
    simp [ha]
  | _ => rfl

theorem Turn.left_le (h : Turn n size s coreDone left served left' served' s' o) :
    left' ≤ left := by
  cases h with
  | begin => exact Nat.le_succ left'
  | _ => exact Nat.le_refl _

/-- A core runs out of work only when there is no block left. -/
theorem Turn.staffed (h : Turn n size s coreDone left served left' served' s' o)
    (hs : s.busy = true ∨ s.awaiting = true) :
    left' = 0 ∨ s'.busy = true ∨ s'.awaiting = true := by
  cases h with
  | begin => exact .inr (.inl rfl)
  | exhaust => exact .inl rfl
  | complete => exact .inr (.inr rfl)
  | keep => exact .inr hs

end Turn

/-! ## The turns of a cycle -/

/-- Turns one after another. -/
inductive Turns (n : Nat) (size : UInt8) :
    (left served : Nat) → List (Slot × Bool) → (left' served' : Nat) → List (Slot × Order) → Prop
  | nil (left served : Nat) : Turns n size left served [] left served []
  | cons {left served left₁ served₁ left' served' : Nat} {s s' : Slot} {coreDone : Bool} {o : Order}
      {turns : List (Slot × Bool)} {results : List (Slot × Order)} :
      Turn n size s coreDone left served left₁ served₁ s' o →
      Turns n size left₁ served₁ turns left' served' results →
      Turns n size left served ((s, coreDone) :: turns) left' served' ((s', o) :: results)

variable {turns : List (Slot × Bool)} {results : List (Slot × Order)}

theorem Books.visits (h : d.Books n size left served)
    (hs : ∀ x ∈ turns, x.1.Fits x.1.block?) :
    ∃ left' served', (sweep Dispatcher.visit d turns).1.Books n size left' served' ∧
      Turns n size left served turns left' served' (sweep Dispatcher.visit d turns).2 := by
  induction turns generalizing d left served with
  | nil => exact ⟨left, served, h, .nil left served⟩
  | cons x turns ih =>
    obtain ⟨left₁, served₁, h₁, ht⟩ := h.visit x.2 (hs x (by simp)).not_both
    obtain ⟨left', served', h', hts⟩ := ih h₁ fun y hy ↦ hs y (by simp [hy])
    exact ⟨left', served', h', .cons ht hts⟩

theorem Turns.steps (h : Turns n size left served turns left' served' results) :
    List.Forall₂ (fun x r ↦ x.1.Step x.2 r) turns results := by
  induction h with
  | nil => exact .nil
  | cons ht _ ih => exact .cons ht.step ih

theorem Turns.fits (h : Turns n size left served turns left' served' results)
    (hs : ∀ x ∈ turns, x.1.Fits x.1.block?) : ∀ r ∈ results, r.1.Fits r.1.block? := by
  induction h with
  | nil => nofun
  | cons ht _ ih =>
    obtain ⟨hx, hxs⟩ := List.forall_mem_cons.1 hs
    exact List.forall_mem_cons.2 ⟨ht.fits hx, ih hxs⟩

/-- The blocks begun are the highest ones left, in the order of the cores. -/
theorem Turns.starts (h : Turns n size left served turns left' served' results) :
    (results.map Prod.snd).filterMap Order.start ++ launchBlocks n size left' =
      launchBlocks n size left := by
  induction h with
  | nil => rfl
  | cons ht _ ih =>
    rw [List.map_cons, filterMap_cons_eq_append, List.append_assoc, ih, ht.starts]

/-- No block is lost: those at work after the cycle and those completed in it are those that were at
work before and those begun. -/
theorem Turns.settles (h : Turns n size left served turns left' served' results)
    (hs : ∀ x ∈ turns, x.1.Fits x.1.block?) :
    ((results.map Prod.snd).filterMap Order.completed ++
        (results.map Prod.fst).filterMap Slot.block?).Perm
      ((turns.map Prod.fst).filterMap Slot.block? ++
        (results.map Prod.snd).filterMap Order.start) := by
  induction h with
  | nil => exact .nil
  | @cons _ _ _ _ _ _ s s' _ o turns results ht _ ih =>
    obtain ⟨hx, hxs⟩ := List.forall_mem_cons.1 hs
    have ih := ih hxs
    simp only [List.map_cons, filterMap_cons_eq_append]
    generalize (results.map Prod.snd).filterMap Order.completed = done at ih ⊢
    generalize (results.map Prod.fst).filterMap Slot.block? = after at ih ⊢
    generalize (turns.map Prod.fst).filterMap Slot.block? = before at ih ⊢
    generalize (results.map Prod.snd).filterMap Order.start = started at ih ⊢
    -- the turn of the first core is gathered in front of the others on both sides
    calc
      List.Perm (o.completed.toList ++ done ++ (s'.block?.toList ++ after))
          (o.completed.toList ++ s'.block?.toList ++ (done ++ after)) := by
        simp only [List.append_assoc]
        exact (List.perm_append_comm_assoc _ _ _).append_left _
      _ = s.block?.toList ++ o.start.toList ++ (done ++ after) := by rw [ht.settles hx]
      List.Perm _ (s.block?.toList ++ o.start.toList ++ (before ++ started)) := ih.append_left _
      List.Perm _ (s.block?.toList ++ before ++ (o.start.toList ++ started)) := by
        simp only [List.append_assoc]
        exact (List.perm_append_comm_assoc _ _ _).append_left _

theorem Turns.served_eq (h : Turns n size left served turns left' served' results)
    (hs : ∀ x ∈ turns, x.1.Fits x.1.block?) :
    served' = served + ((results.map Prod.snd).filterMap Order.completed).length := by
  induction h with
  | nil => rfl
  | cons ht _ ih =>
    obtain ⟨hx, hxs⟩ := List.forall_mem_cons.1 hs
    rw [ih hxs, ht.served_eq hx, List.map_cons, filterMap_cons_eq_append, List.length_append,
      Nat.add_assoc]

theorem Turns.left_le (h : Turns n size left served turns left' served' results) :
    left' ≤ left := by
  induction h with
  | nil => exact Nat.le_refl _
  | cons ht _ ih => exact ih.trans ht.left_le

theorem Turns.staffed (h : Turns n size left served turns left' served' results)
    (hs : ∀ x ∈ turns, x.1.busy = true ∨ x.1.awaiting = true) :
    left' = 0 ∨ ∀ r ∈ results, r.1.busy = true ∨ r.1.awaiting = true := by
  induction h with
  | nil => exact .inr nofun
  | cons ht hts ih =>
    obtain ⟨hx, hxs⟩ := List.forall_mem_cons.1 hs
    rcases ht.staffed hx with rfl | hr
    · exact .inl (Nat.le_zero.1 hts.left_le)
    · exact (ih hxs).imp_right fun hrs ↦ List.forall_mem_cons.2 ⟨hr, hrs⟩

end Dispatcher

end SimtMachine
