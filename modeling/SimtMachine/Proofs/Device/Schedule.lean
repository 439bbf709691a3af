import SimtMachine.Device.Basic
import SimtMachine.Proofs.Device.Pool
import SimtMachine.Proofs.Dispatch.Booking

/-!
# A device is a pool

In every cycle of a launch the dispatcher gives each core a turn and the memories answer some
requests. All of this is a sequence of moves of the pool that the cores and the data memory of the
device make up, whatever the timing.
-/

namespace SimtMachine

open Relation (ReflTransGen)
open SimtMachine.Core (Answers wordOf)

/-! ## Acts and services of one core among others -/

namespace Pool

variable {program : Image UInt16} {dim : UInt8}

theorem pushes_of_answers (pre post : List Core) (w d : List Assignment) {s s' : Core × Image UInt8}
    (h : ReflTransGen (Answers program) s s') :
    ReflTransGen (Pushes program) ⟨pre ++ s.1 :: post, s.2, w, d⟩
      ⟨pre ++ s'.1 :: post, s'.2, w, d⟩ := by
  induction h with
  | refl => exact .refl
  | tail _ h ih => exact ih.tail (.answer h)

/-- The cores are served one after another, by visits that keep their state within `keep`. -/
theorem pushes_of_sweep {σ : Type} {visit : σ → Core → σ × Core} (memory : σ → Image UInt8)
    (keep : σ → Prop) (w d : List Assignment) (cs : List Core)
    (h : ∀ s, keep s → ∀ c ∈ cs, keep (visit s c).1 ∧
      ReflTransGen (Answers program) (c, memory s) ((visit s c).2, memory (visit s c).1)) :
    ∀ (s : σ) (pre : List Core), keep s → keep (sweep visit s cs).1 ∧
      ReflTransGen (Pushes program) ⟨pre ++ cs, memory s, w, d⟩
        ⟨pre ++ (sweep visit s cs).2, memory (sweep visit s cs).1, w, d⟩ := by
  induction cs with
  | nil => exact fun s pre hk ↦ ⟨hk, .refl⟩
  | cons c cs ih =>
    intro s pre hk
    obtain ⟨hk, hc⟩ := h s hk c (by simp)
    have hm := pushes_of_answers pre cs w d hc
    have hcs := ih (fun s hk c hc ↦ h s hk c (by simp [hc])) (visit s c).1
      (pre ++ [(visit s c).2]) hk
    rw [sweep_cons]
    exact ⟨hcs.1, hm.trans (by simpa using hcs.2)⟩

end Pool

namespace Device

variable {program : Image UInt16} {n : Nat} {d : Device} {w done : List Assignment}

/-! ## Services -/

theorem pushes_visitProgram (s : Pass UInt16) (m : Image UInt8) {cs : List Core}
    (hs : ∀ c ∈ cs, c.Sound (wordOf program)) (hp : s.cells = program) :
    (sweep Core.visitProgram s cs).1.cells = program ∧
      ReflTransGen (Pool.Pushes program) ⟨cs, m, w, done⟩
        ⟨(sweep Core.visitProgram s cs).2, m, w, done⟩ := by
  refine Pool.pushes_of_sweep (fun _ ↦ m) (fun s ↦ s.cells = program) w done cs
    (fun s hk c hc ↦ ?_) s [] hp
  obtain ⟨hcells, hw⟩ := (hs c hc).answers_visitProgram s m
  exact ⟨hcells.trans hk, hk ▸ hw⟩

theorem pushes_visitData (program : Image UInt16) (s : Pass UInt8) (cs : List Core) :
    ReflTransGen (Pool.Pushes program) ⟨cs, s.cells, w, done⟩
      ⟨(sweep Core.visitData s cs).2, (sweep Core.visitData s cs).1.cells, w, done⟩ :=
  (Pool.pushes_of_sweep Pass.cells (fun _ ↦ True) w done cs
    (fun s _ c _ ↦ ⟨trivial, Core.answers_visitData program c s⟩) s [] trivial).2

/-- Both services together: program memory keeps its content. -/
theorem pushes_serve (w done : List Assignment)
    (hs : ∀ c ∈ d.cores, c.Sound (wordOf d.program.cells)) :
    d.serve.1.cells = d.program.cells ∧
      ReflTransGen (Pool.Pushes d.program.cells) ⟨d.cores, d.data.cells, w, done⟩
        ⟨d.serve.2.2, d.serve.2.1.cells, w, done⟩ := by
  have hp := Memory.serviceWith_cases (motive := fun cells cs ↦ cells = d.program.cells ∧
    ReflTransGen (Pool.Pushes d.program.cells) ⟨d.cores, d.data.cells, w, done⟩
      ⟨cs, d.data.cells, w, done⟩) d.cycle ⟨rfl, .refl⟩
    (pushes_visitProgram ⟨d.program.cells, d.program.channels⟩ d.data.cells hs rfl)
  have hd (cs : List Core) := Memory.serviceWith_cases (motive := fun cells cs' ↦
    ReflTransGen (Pool.Pushes d.program.cells) ⟨cs, d.data.cells, w, done⟩ ⟨cs', cells, w, done⟩)
    d.cycle .refl (pushes_visitData _ ⟨d.data.cells, d.data.channels⟩ cs)
  exact ⟨hp.1, hp.2.trans (hd _)⟩

theorem map_serviceWith {α γ : Type} {visit : Pass α → Core → Pass α × Core} {f : Core → γ}
    (h : ∀ s c, f (visit s c).2 = f c) (m : Memory α) (cycle : Nat) (cs : List Core) :
    (m.serviceWith cycle (sweep visit) cs).2.1.map f = cs.map f :=
  Memory.serviceWith_cases (motive := fun _ cs' ↦ List.map f cs' = cs.map f) cycle rfl
    (map_sweep h _ cs)

theorem map_serve {γ : Type} {f : Core → γ} (hp : ∀ s c, f (Core.visitProgram s c).2 = f c)
    (hd : ∀ s c, f (Core.visitData s c).2 = f c) : d.serve.2.2.map f = d.cores.map f :=
  (map_serviceWith hd _ _ _).trans (map_serviceWith hp _ _ _)

theorem map_serve_assignment : d.serve.2.2.map Core.assignment = d.cores.map Core.assignment :=
  map_serve (fun _ _ ↦ rfl) fun _ _ ↦ rfl

theorem map_serve_done : d.serve.2.2.map Core.done = d.cores.map Core.done :=
  map_serve (fun _ _ ↦ rfl) fun _ _ ↦ rfl

end Device

/-! ## Turns -/

namespace Device

variable {program : Image UInt16} {n : Nat} {size : UInt8} {left served : Nat}

/-- The core after its turn. -/
def orderedCore (c : Core) (o : Order) : Core :=
  if o.reset then c.reset
  else
    match o.start with
    | some b => (c.start b).tick.1
    | none => c.tick.1

theorem coreCycle_core (cycle : Nat) (traceStages : Bool) (c : Core) (o : Order) :
    (coreCycle cycle traceStages c o).core = orderedCore c o := by
  cases hr : o.reset <;> cases hs : o.start <;> simp [coreCycle, orderedCore, hr, hs]

/-- A turn is at most two moves: a core that begins a block also takes its first step. -/
theorem moves_turn (program : Image UInt16) (pre post : List Core) (m : Image UInt8) {c : Core}
    {done : List Assignment} {s s' : Slot} {left' served' : Nat} {o : Order}
    (h : Dispatcher.Turn n size s c.done left served left' served' s' o)
    (hf : s.Fits c.assignment) (hd : done.length = served) :
    s'.Fits (orderedCore c o).assignment ∧ ∃ done', done'.length = served' ∧
      ReflTransGen (Pool.Moves program) ⟨pre ++ c :: post, m, launchBlocks n size left, done⟩
        ⟨pre ++ orderedCore c o :: post, m, launchBlocks n size left', done'⟩ ∧
      (c.assignment.isSome = true ∧ c.Unblocked ∨ 0 < left ∧ s.awaiting = true →
        Pool.Progresses program
          ⟨pre ++ c :: post, m, launchBlocks n size left, done⟩
          ⟨pre ++ orderedCore c o :: post, m, launchBlocks n size left', done'⟩) := by
  cases h with
  | begin k _ ha =>
    have hdispatch : Pool.Progresses program
        ⟨pre ++ c :: post, m, launchBlocks n size (left' + 1), done⟩
        ⟨pre ++ orderedCore c ⟨false, some (launchBlock n size left'), none⟩ :: post, m,
          launchBlocks n size left', done⟩ := by
      rw [launchBlocks_succ]
      exact (Pool.Pushes.dispatch (hf.of_awaiting ha).2).progresses.trans_moves
        (.single (.work (.tick _ _)))
    exact ⟨.busy rfl rfl rfl, done, hd, hdispatch.moves, fun _ ↦ hdispatch⟩
  | exhaust _ ha =>
    obtain ⟨hb, hn⟩ := hf.of_awaiting ha
    have hc : (orderedCore c ⟨false, none, none⟩).assignment = none := hn
    rw [hc]
    refine ⟨.free hb, done, hd, .single (.work (.tick _ _)), fun h ↦ ?_⟩
    rcases h with ⟨ha, -⟩ | ⟨hpos, -⟩
    · exact absurd ha (by simp [hn])
    · exact absurd hpos (Nat.lt_irrefl 0)
  | complete _ _ hb hc =>
    obtain ⟨b, hs, ha⟩ := hf.of_busy hb
    have hretire : Pool.Pushes program ⟨pre ++ c :: post, m, launchBlocks n size left, done⟩
        ⟨pre ++ c.reset :: post, m, launchBlocks n size left, done ++ [b]⟩ := .retire ha hc
    rw [hs]
    exact ⟨.free rfl, done ++ [b], by simp [hd], .single hretire.moves, fun _ ↦ hretire.progresses⟩
  | keep _ _ ha hq =>
    refine ⟨hf, done, hd, .single (.work (.tick _ _)), fun h ↦ ?_⟩
    rcases h with ⟨hsome, hun⟩ | ⟨-, h⟩
    · have hbusy : s.busy = true := hf.busy_of_isSome hsome
      rw [hbusy, Bool.true_and] at hq
      exact (Pool.Pushes.tick ⟨hun, hsome, hq⟩).progresses
    · exact nomatch ha.symm.trans h

/-- The cores have their turns in ascending order. -/
theorem moves_turns (program : Image UInt16) (m : Image UInt8) (cs : List Core) :
    ∀ (slots : List Slot) (pre : List Core) (d : Dispatcher) (left : Nat) (done : List Assignment),
      List.Forall₂ Slot.Fits slots (cs.map Core.assignment) → d.Books n size left done.length →
      let r := sweep Dispatcher.visit d (slots.zip (cs.map Core.done))
      let cs' := List.zipWith orderedCore cs (r.2.map Prod.snd)
      ∃ left' done', r.1.Books n size left' done'.length ∧
        List.Forall₂ Slot.Fits (r.2.map Prod.fst) (cs'.map Core.assignment) ∧
        ReflTransGen (Pool.Moves program) ⟨pre ++ cs, m, launchBlocks n size left, done⟩
          ⟨pre ++ cs', m, launchBlocks n size left', done'⟩ ∧
        ((∃ c ∈ cs, c.assignment.isSome = true ∧ c.Unblocked) ∨
            0 < left ∧ (∃ s ∈ slots, s.awaiting = true) →
          Pool.Progresses program ⟨pre ++ cs, m, launchBlocks n size left, done⟩
            ⟨pre ++ cs', m, launchBlocks n size left', done'⟩) := by
  induction cs with
  | nil =>
    intro slots pre d left done hf hb
    obtain rfl := List.forall₂_nil_right_iff.1 hf
    exact ⟨left, done, hb, .nil, .refl, by simp⟩
  | cons c cs ih =>
    intro slots pre d left done hf hb
    cases hf with
    | @cons s _ slots _ hs hf =>
      obtain ⟨left₁, _, hb₁, ht⟩ := hb.visit c.done hs.not_both
      obtain ⟨hs₁, done₁, rfl, hm₁, hp₁⟩ := moves_turn program pre cs m ht hs rfl
      obtain ⟨left₂, done₂, hb₂, hf₂, hm₂, hp₂⟩ := ih slots
        (pre ++ [orderedCore c (Dispatcher.visit d (s, c.done)).2.2]) _ left₁ done₁ hf hb₁
      simp only [List.map_cons, List.zip_cons_cons, sweep_cons, List.zipWith_cons_cons]
      simp only [List.append_assoc, List.singleton_append] at hm₂ hp₂
      refine ⟨left₂, done₂, hb₂, .cons hs₁ hf₂, hm₁.trans hm₂, fun h ↦ ?_⟩
      -- either the first turn is a push, or it leaves the blocks to the others
      by_cases hfirst : c.assignment.isSome = true ∧ c.Unblocked ∨ 0 < left ∧ s.awaiting = true
      · exact (hp₁ hfirst).trans_moves hm₂
      · refine Pool.progresses_of_moves hm₁ (hp₂ ?_)
        simp only [List.exists_mem_cons_iff] at h
        rcases h with (h | h) | ⟨hpos, h | h⟩
        · exact absurd (.inl h) hfirst
        · exact .inl h
        · exact absurd (.inr ⟨hpos, h⟩) hfirst
        · rw [ht.left_eq fun hs ↦ hfirst (.inr ⟨hpos, hs⟩)]
          exact .inr ⟨hpos, h⟩

/-! ## Cycles -/

/-- The pool that a device is, with the blocks of its launch. -/
structure Matches (program : Image UInt16) (n : Nat) (d : Device) (p : Pool) : Prop where
  cores : p.cores = d.cores
  memory : p.memory = d.data.cells
  program : d.program.cells = program
  waiting : ∃ left, p.waiting = launchBlocks n d.config.threadsPerBlock left ∧
    d.dispatcher.Books n d.config.threadsPerBlock left p.completed.length
  slots : List.Forall₂ Slot.Fits d.dispatcher.slots (d.cores.map Core.assignment)
  /-- either the launch is under way, or all its blocks are complete -/
  stage : d.dispatcher.launched = true ∧ d.isDone = false ∨
    d.isDone = true ∧ blockCount n d.config.threadsPerBlock ≤ p.completed.length

variable {d : Device} {p : Pool} {dim : UInt8}

theorem advance_cores (d : Device) :
    d.advance.cores =
      List.zipWith orderedCore d.serve.2.2 (d.dispatcher.advance d.dispatchInput).2 := by
  simp only [advance, List.map_zipWith, coreCycle_core]

/-- Something in this cycle brings the blocks nearer to their end: a memory has an answer, a core
does not have to wait for one, or a block is handed out. -/
def Stirs (d : Device) (p : Pool) : Prop :=
  p.Progresses d.program.cells ⟨d.serve.2.2, d.serve.2.1.cells, p.waiting, p.completed⟩ ∨
    (∃ c ∈ d.serve.2.2, c.assignment.isSome = true ∧ c.Unblocked) ∨
      p.waiting ≠ [] ∧ ∃ s ∈ d.dispatcher.slots, s.awaiting = true

/-- A cycle of a launch under way: services, then turns. -/
theorem Matches.advance (h : d.Matches program n p) (hs : p.Staffed program dim)
    (hl : d.dispatcher.launched = true) (hd : d.isDone = false) :
    ∃ p', ReflTransGen (Pool.Moves program) p p' ∧ (d.Stirs p → p.Progresses program p') ∧
      d.advance.Matches program n p' := by
  obtain ⟨cores, memory, waiting, completed⟩ := p
  obtain ⟨rfl, rfl, rfl, ⟨left, rfl, hb⟩, hslots, -⟩ := h
  obtain ⟨hp, hm⟩ := pushes_serve (launchBlocks n d.config.threadsPerBlock left) completed
    fun c hc ↦ (hs c hc).1
  have hturns := moves_turns d.program.cells d.serve.2.1.cells d.serve.2.2 d.dispatcher.slots []
    d.dispatcher left completed (map_serve_assignment ▸ hslots) hb
  rw [map_serve_done] at hturns
  obtain ⟨left', done', hb', hslots', hm', hp'⟩ := hturns
  have hadv : d.dispatcher.advance d.dispatchInput =
      ((d.dispatcher.proceed (d.cores.map Core.done)).1.latch,
        (d.dispatcher.proceed (d.cores.map Core.done)).2) :=
    Dispatcher.advance_of_launched d.dispatchInput hl
  have hc := advance_cores d
  have hdisp : d.advance.dispatcher = (d.dispatcher.advance d.dispatchInput).1 := rfl
  rw [hadv] at hc hdisp
  have hb₁ : (d.dispatcher.proceed (d.cores.map Core.done)).1.Books n d.config.threadsPerBlock
      left' done'.length := { hb' with }
  obtain ⟨hl₁, hd₁⟩ := d.dispatcher.proceed_launch (d.cores.map Core.done)
  refine ⟨⟨d.advance.cores, d.serve.2.1.cells, _, done'⟩,
    (Pool.moves_of_pushes hm).trans (hc ▸ hm'), fun hstirs ↦ ?_, rfl, rfl, hp, ⟨left', rfl, ?_⟩,
    ?_, ?_⟩
  · rcases hstirs with hserve | hturn
    · exact hserve.trans_moves (hc ▸ hm')
    · refine Pool.progresses_of_moves (Pool.moves_of_pushes hm) (hc ▸ hp' (hturn.imp_right ?_))
      refine And.imp_left fun hw ↦ Nat.pos_of_ne_zero ?_
      rintro rfl
      exact hw rfl
  · rw [hdisp]
    exact hb₁.latch
  · rw [hdisp, hc, Dispatcher.latch_slots]
    exact hslots'
  · rw [isDone, hdisp]
    exact (hb₁.latch_stage (hl₁.trans hl) (hd₁.trans hd)).imp And.left (And.imp_left And.right)

theorem Matches.blocks_le (h : d.Matches program n p) (hd : d.isDone = true) :
    blockCount n d.config.threadsPerBlock ≤ p.completed.length := by
  rcases h.stage with ⟨-, hn⟩ | ⟨-, hle⟩
  · simp [hd] at hn
  · exact hle

theorem step_eq_ok {d' : Device} (h : d.step = .ok d') : d' = d.advance := by
  unfold step at h
  split at h
  · simp at h
  · exact (Except.ok.inj h).symm

/-- What every cycle keeps holds after a run, however the run ends. -/
theorem runFor_keeps {P : Device → Prop} (hadvance : ∀ {d : Device}, P d → P d.advance) (h : P d)
    (fuel : Nat) : P (d.runFor fuel).1 := by
  induction fuel generalizing d with
  | zero =>
    rw [Device.runFor]
    split <;> exact h
  | succ fuel ih =>
    rw [Device.runFor]
    split
    · exact h
    · cases hs : d.step with
      | error f => exact h
      | ok d' =>
        obtain rfl := step_eq_ok hs
        exact ih (hadvance h)

/-- A run that ends because the launch is done ends with all its blocks complete. -/
theorem Matches.runFor {d' : Device} {cycles fuel : Nat} (h : d.Matches program n p)
    (hs : p.Staffed program dim) (hr : d.runFor fuel = (d', .ok cycles)) :
    d'.config = d.config ∧ ∃ p', ReflTransGen (Pool.Moves program) p p' ∧
      d'.Matches program n p' ∧ blockCount n d'.config.threadsPerBlock ≤ p'.completed.length := by
  induction fuel generalizing d p with
  | zero =>
    rw [Device.runFor] at hr
    split at hr
    · next hd =>
      cases hr
      exact ⟨rfl, p, .refl, h, h.blocks_le hd⟩
    · simp at hr
  | succ fuel ih =>
    rw [Device.runFor] at hr
    split at hr
    · next hd =>
      cases hr
      exact ⟨rfl, p, .refl, h, h.blocks_le hd⟩
    · next hd =>
      have hd : d.isDone = false := eq_false_of_ne_true hd
      have hl : d.dispatcher.launched = true := by
        rcases h.stage with ⟨hl, -⟩ | ⟨ht, -⟩
        · exact hl
        · simp [hd] at ht
      split at hr
      · simp at hr
      · next d₁ hstep =>
        obtain rfl := step_eq_ok hstep
        obtain ⟨p₁, hm, -, h₁⟩ := h.advance hs hl hd
        obtain ⟨hcfg, p', hm', h', hle⟩ := ih h₁ (Pool.staffed_of_moves hm hs) hr
        exact ⟨hcfg, p', hm.trans hm', h', hle⟩

end Device

end SimtMachine
