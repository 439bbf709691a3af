import SimtMachine.Interpreter
import SimtMachine.Proofs.Core.Simulation

/-!
# A lane with a data memory of its own

However long its memory takes to answer and however often its context is switched out meanwhile, a
lane that takes an instruction through its stages does one step of the sequential interpreter.
-/

namespace SimtMachine

/-! ## A step of the interpreter -/

theorem Thread.read_execute {i : Instruction} {t : Thread} {r : Reg} (h : r.isWritable = false)
    (m : Image UInt8) : (t.execute i m).1.regs.read r = t.regs.read r := by
  rw [execute_eq, finish]
  split
  · rw [Registers.read_write, if_neg]
    rintro ⟨rfl, hw⟩
    simp [h] at hw
  · rfl

theorem Interpreter.runThread_step {program : Array UInt16} {tid fuel pc : Nat} {t : Thread}
    {m : Image UInt8} {w : UInt16} (hp : program[pc]? = some w)
    (hm : (decode w).op.isMapped = true) (hr : (decode w).op.returns = false) :
    runThread program tid (fuel + 1) pc t m =
      (runThread program tid fuel (nextPc (decode w) t.flags pc) (t.execute (decode w) m).1
        (t.execute (decode w) m).2).map fun (m, n) ↦ (m, n + 1) := by
  rw [runThread.eq_def]
  simp [hp, hm, hr]

/-! ## Waiting -/

namespace LoadStoreUnit

variable {u : LoadStoreUnit}

theorem listen_phase_ne_requesting : u.listen.phase ≠ .requesting := by
  cases hp : u.phase with
  | idle | requesting | done => simp [listen, hp]
  | waiting => cases hr : u.port.ready <;> simp [listen, hp, hr]

theorem PortFits.not_busy_listen (h : u.PortFits) (hr : u.phase ≠ .requesting)
    (hp : u.port.pending = none) : u.listen.phase.isBusy = false := by
  cases hph : u.phase with
  | requesting => exact absurd hph hr
  | idle | done => simp [LoadStoreUnit.listen, hph, LoadStorePhase.isBusy]
  | waiting =>
    have hv : u.port.ready.isSome = true := by
      simpa [PortFits, hph, LoadStorePhase.isBusy, hp] using h
    obtain ⟨v, hv⟩ := Option.isSome_iff_exists.1 hv
    simp [LoadStoreUnit.listen, hph, hv, LoadStorePhase.isBusy]

end LoadStoreUnit

namespace Lane

variable {i : Instruction} {l : Lane} {d : Drive} {t : Thread} {m cells : Image UInt8}

/-- Only a free unit that is to touch memory looks at the issue signal. -/
theorem tick_without_issue
    (h : l.memory.phase = .idle → d.instruction.op.touchesMemory = false) :
    l.tick d = l.tick { d with issue := false } := by
  have hm (rs rt : UInt8) :
      l.memory.tick d rs rt = l.memory.tick { d with issue := false } rs rt := by
    cases hp : l.memory.phase with
    | idle => simp [LoadStoreUnit.tick, hp, h hp]
    | requesting | waiting | done => simp only [LoadStoreUnit.tick, hp]
  simp only [tick, hm]
  rfl

theorem tick_of_waiting (h : l.Fits i.op.touchesMemory .wait)
    (hd : d.active = true → d.stage = .wait ∧ d.instruction = i) : l.tick d = l.listen := by
  cases ha : d.active with
  | false => exact tick_of_inactive ha
  | true =>
    obtain ⟨hs, hi⟩ := hd ha
    rw [tick_without_issue fun hp ↦ hi ▸ h.phase.1 hp]
    exact tick_of_resting rfl (by simp [hs]) (by simp [hs]) (by simp [hs])

/-- The lane is on its way through an instruction that it began as thread `t` over memory `m`. -/
structure Underway (i : Instruction) (t : Thread) (m cells : Image UInt8) (l : Lane) : Prop where
  fits : l.Fits i.op.touchesMemory .wait
  latched : l.Latched i
  thread : l.thread = t
  outlook : l.outlook i cells = (t.execute i m).swap

theorem underway_issue (hp : l.memory.phase = .idle) (hq : l.port = .quiet) :
    (l.issue i).Underway i l.thread m m where
  fits := by
    refine Fits.issue i ⟨hp, ?_⟩
    rwa [LoadStoreUnit.PortFits, hp, if_neg (by simp [LoadStorePhase.isBusy])]
  latched := latched_issue hq
  thread := thread_issue
  outlook := outlook_issue hq

theorem Underway.listen (h : l.Underway i t m cells) : l.listen.Underway i t m cells where
  fits := h.fits.listen_wait
  latched := h.latched.listen
  thread := h.thread
  outlook := outlook_listen.trans h.outlook

theorem Underway.answered {r : Request UInt8} (h : l.Underway i t m cells)
    (hr : l.port.pending = some r) :
    (l.answered (r.answer cells)).Underway i t m (r.apply cells) where
  fits := h.fits.answered _ hr
  latched := h.latched.answered _
  thread := h.thread
  outlook := by
    rw [outlook_answered, ← h.outlook, outlook_of_pending hr]

theorem Underway.visit {s : Pass UInt8} (h : l.Underway i t m s.cells) :
    (Core.visitLane s l).2.Underway i t m (Core.visitLane s l).1.cells := by
  rcases s.visit_cases l.port with ⟨hv, -⟩ | ⟨r, free, hr, -, hv⟩
  · rw [Core.visitLane, hv]
    exact h
  · rw [Core.visitLane, hv]
    exact h.answered hr

theorem Underway.settled (h : l.Underway i t m cells) (hb : l.isBusy = false) :
    t.execute i m = (t.finish i l.memory.loaded, cells) := by
  have hq : l.port = .quiet := h.fits.port_eq_quiet hb
  have hp : l.port.pending = none := hq ▸ rfl
  rw [← Prod.swap_swap (t.execute i m), ← h.outlook, outlook_of_not_pending hp, hq, h.thread]
  rfl

theorem Underway.compute (pc : UInt8) (h : l.Underway i t m cells) :
    (l.compute i pc).Underway i t m cells where
  fits := ⟨h.fits.phase, h.fits.port⟩
  latched := ⟨h.latched.rs, h.latched.rt, h.latched.asks⟩
  thread := h.thread
  outlook := h.outlook

theorem next_retire_compute (i : Instruction) (pc : UInt8) (l : Lane) :
    ((l.compute i pc).retire i).branch.next =
      if i.taken l.thread.flags then i.imm else pc + 1 := by
  cases hf : i.op.setsFlags <;> simp only [retire, compute, thread, hf] <;> rfl

theorem Underway.thread_retire (pc : UInt8) (h : l.Underway i t m cells) (hb : l.isBusy = false) :
    (((l.compute i pc).retire i).thread, cells) = t.execute i m := by
  rw [Lane.thread_retire (h.compute pc).latched rfl, (h.compute pc).thread]
  exact (h.settled hb).symm

end Lane

/-! ## The lane and its memory -/

/-- A lane beside the data memory that serves it alone. -/
structure Bench where
  lane : Lane
  memory : Memory UInt8

namespace Bench

inductive Event
  | tick (d : Drive)
  | serve (cycle : Nat)

def Event.active (stage : Stage) (issue : Bool) (pc : UInt8) (i : Instruction) : Event :=
  .tick ⟨true, stage, issue, pc, i⟩

/-- The context is switched out, or it is active in the wait stage of the instruction. -/
def Event.Waits (i : Instruction) : Event → Prop
  | .tick d => d.active = true → d.stage = .wait ∧ d.instruction = i
  | .serve _ => True

def Event.Pauses : Event → Prop
  | .tick d => d.active = false
  | .serve _ => True

/-- The request stage of an instruction, and what happens until its wait is over. -/
def opening (pc : UInt8) (i : Instruction) (waits : List Event) : List Event :=
  .active .request true pc i :: waits

/-- The last two stages of an instruction, and what happens between them. -/
def closing (pc : UInt8) (i : Instruction) (issue issue' : Bool) (pauses : List Event) :
    List Event :=
  .active .execute issue pc i :: pauses ++ [.active .update issue' pc i]

def react (s : Bench) : Event → Bench
  | .tick d => { s with lane := s.lane.tick d }
  | .serve cycle =>
    let (m, l, _) := s.memory.serviceWith cycle Core.visitLane s.lane
    ⟨l, m⟩

def after (s : Bench) (events : List Event) : Bench := events.foldl react s

variable {s : Bench} {i : Instruction} {t : Thread} {m : Image UInt8} {e : Event}
  {events : List Event} {pc : UInt8}

theorem after_cons (s : Bench) (e : Event) (es : List Event) :
    s.after (e :: es) = (s.react e).after es := rfl

theorem after_append (s : Bench) (es es' : List Event) :
    s.after (es ++ es') = (s.after es).after es' := List.foldl_append

def Underway (s : Bench) (i : Instruction) (t : Thread) (m : Image UInt8) : Prop :=
  s.lane.Underway i t m s.memory.cells

theorem Underway.lane_tick {d : Drive} (h : s.Underway i t m) (he : (Event.tick d).Waits i) :
    (s.react (.tick d)).lane = s.lane.listen :=
  Lane.tick_of_waiting h.fits he

theorem Underway.react (h : s.Underway i t m) (he : e.Waits i) : (s.react e).Underway i t m := by
  cases e with
  | tick d =>
    rw [Underway, h.lane_tick he]
    exact h.listen
  | serve cycle =>
    exact Memory.serviceWith_cases (motive := fun cells l ↦ Lane.Underway i t m cells l) cycle h
      (Lane.Underway.visit (s := ⟨s.memory.cells, s.memory.channels⟩) h)

theorem Underway.after (h : s.Underway i t m) (he : ∀ e ∈ events, e.Waits i) :
    (s.after events).Underway i t m := by
  induction events generalizing s with
  | nil => exact h
  | cons e events ih =>
    obtain ⟨he, hes⟩ := List.forall_mem_cons.1 he
    exact ih (h.react he) hes

/-! ## The end of the wait -/

theorem serve_of_servesAt (s : Bench) {cycle : Nat} (h : s.memory.servesAt cycle = true) :
    (s.react (.serve cycle)).lane.port.pending = none ∧
      (s.react (.serve cycle)).lane.memory.phase = s.lane.memory.phase := by
  have hl : (s.react (.serve cycle)).lane =
      (Core.visitLane ⟨s.memory.cells, s.memory.channels⟩ s.lane).2 := by
    simp [react, Memory.serviceWith, h]
  rw [hl, Core.visitLane]
  rcases Pass.visit_cases ⟨s.memory.cells, s.memory.channels⟩ s.lane.port with
    ⟨hv, hn⟩ | ⟨r, free, -, -, hv⟩
  · rw [hv]
    exact ⟨hn (Nat.ne_of_gt s.memory.channels_pos), rfl⟩
  · rw [hv]
    exact ⟨rfl, rfl⟩

theorem servesAt_react (s : Bench) (e : Event) (cycle : Nat) :
    (s.react e).memory.servesAt cycle = s.memory.servesAt cycle := by
  cases e with
  | tick d => rfl
  | serve cycle' =>
    have hi : (s.react (.serve cycle')).memory.interval = s.memory.interval :=
      (s.memory.settings_serviceWith cycle' Core.visitLane s.lane).2
    rw [Memory.servesAt, Memory.servesAt, hi]

theorem servesAt_after (s : Bench) (events : List Event) (cycle : Nat) :
    (s.after events).memory.servesAt cycle = s.memory.servesAt cycle := by
  induction events generalizing s with
  | nil => rfl
  | cons e events ih => exact (ih (s.react e)).trans (s.servesAt_react e cycle)

/-- A tick, a service in which memory looks at the port, and another tick end the wait. -/
theorem Underway.not_busy {d d' : Drive} {cycle : Nat} (h : s.Underway i t m)
    (he : (Event.tick d).Waits i) (he' : (Event.tick d').Waits i)
    (hc : s.memory.servesAt cycle = true) :
    (s.after [.tick d, .serve cycle, .tick d']).lane.isBusy = false := by
  have hu := (h.react he).react (e := .serve cycle) trivial
  obtain ⟨hp, hph⟩ := (s.react (.tick d)).serve_of_servesAt hc
  have hl := hu.lane_tick he'
  rw [h.lane_tick he] at hph
  rw [after_cons, after_cons, after_cons, Bench.after, List.foldl_nil, hl]
  exact hu.fits.port.not_busy_listen (hph ▸ LoadStoreUnit.listen_phase_ne_requesting) hp

/-! ## The last stages -/

theorem react_of_pauses (hb : s.lane.isBusy = false) (hq : s.lane.port = .quiet) (he : e.Pauses) :
    s.react e = s := by
  cases e with
  | tick d =>
    rw [react, Lane.tick_of_inactive he, Lane.listen_of_not_busy hb]
  | serve cycle =>
    have hv (p : Pass UInt8) : Core.visitLane p s.lane = (p, s.lane) := by
      rw [Core.visitLane, hq]
      exact Prod.ext rfl (congrArg s.lane.withPort hq.symm)
    obtain ⟨served, hs⟩ := Memory.serviceWith_of_keep hv cycle
    rw [react, hs]

theorem after_of_pauses (hb : s.lane.isBusy = false) (hq : s.lane.port = .quiet)
    (he : ∀ e ∈ events, e.Pauses) : s.after events = s := by
  induction events with
  | nil => rfl
  | cons e events ih =>
    obtain ⟨he, hes⟩ := List.forall_mem_cons.1 he
    rw [after_cons, react_of_pauses hb hq he, ih hes]

theorem Underway.react_execute {issue : Bool} (h : s.Underway i t m)
    (hb : s.lane.isBusy = false) :
    s.react (.active .execute issue pc i) = { s with lane := s.lane.compute i pc } := by
  rw [Event.active, Bench.react, Lane.tick_without_issue h.fits.phase.1,
    Lane.tick_execute rfl rfl rfl hb]

theorem Underway.react_update {issue : Bool} (h : s.Underway i t m) (hb : s.lane.isBusy = false) :
    s.react (.active .update issue pc i) = { s with lane := s.lane.retire i } := by
  rw [Event.active, Bench.react, Lane.tick_without_issue h.fits.phase.1,
    Lane.tick_update rfl rfl rfl hb]

theorem Underway.after_closing {issue issue' : Bool} (h : s.Underway i t m)
    (hb : s.lane.isBusy = false) (he : ∀ e ∈ events, e.Pauses) :
    s.after (closing pc i issue issue' events) =
      { s with lane := (s.lane.compute i pc).retire i } := by
  have hc : Underway { s with lane := s.lane.compute i pc } i t m := Lane.Underway.compute pc h
  have hp := after_of_pauses (s := { s with lane := s.lane.compute i pc }) hb
    (h.fits.port_eq_quiet hb) he
  rw [closing, List.cons_append, after_cons, h.react_execute hb, after_append, hp, after_cons,
    hc.react_update hb]
  rfl

/-- What one step of the interpreter from the word `w` at `pc` does to a lane and its memory. -/
structure Interprets (w : UInt16) (pc : UInt8) (s s' : Bench) : Prop where
  execute : (s'.lane.thread, s'.memory.cells) = s.lane.thread.execute (decode w) s.memory.cells
  next : s'.lane.branch.next =
    UInt8.ofNat (Interpreter.nextPc (decode w) s.lane.thread.flags pc.toNat)
  run : ∀ (program : Array UInt16) (tid fuel : Nat), program[pc.toNat]? = some w →
    Interpreter.runThread program tid (fuel + 1) pc.toNat s.lane.thread s.memory.cells =
      (Interpreter.runThread program tid fuel
        (Interpreter.nextPc (decode w) s.lane.thread.flags pc.toNat) s'.lane.thread
        s'.memory.cells).map fun (m, n) ↦ (m, n + 1)
  readOnly : ∀ r : Reg, r.isWritable = false →
    s'.lane.registers.regs.read r = s.lane.registers.regs.read r
  free : s'.lane.memory.phase = .idle ∧ s'.lane.port = .quiet

theorem Underway.interprets {w : UInt16} {s₀ : Bench}
    (h : s.Underway (decode w) s₀.lane.thread s₀.memory.cells) (hb : s.lane.isBusy = false)
    (hm : (decode w).op.isMapped = true) (hr : (decode w).op.returns = false) :
    s₀.Interprets w pc { s with lane := (s.lane.compute (decode w) pc).retire (decode w) } := by
  have hx := h.thread_retire pc hb
  refine ⟨hx, ?next, fun program tid fuel hp ↦ ?run, fun r hro ↦ ?readOnly, rfl,
    h.fits.port_eq_quiet hb⟩
  case next =>
    rw [Lane.next_retire_compute, h.thread, Interpreter.nextPc]
    split <;> simp
  case run => rw [Interpreter.runThread_step hp hm hr, ← hx]
  case readOnly =>
    have hk := Thread.read_execute (i := decode w) (t := s₀.lane.thread) hro s₀.memory.cells
    rw [← hx] at hk
    exact hk

/-- A lane whose load and store unit is free takes an instruction through its stages. While it
waits, its context may be switched out and in and memory may serve it at any time; so also between
its last two stages. Once the wait is over, the lane and memory come out as a step of the
interpreter leaves them; and the wait is over at the latest when memory has looked at the port
between two cycles. -/
theorem interprets_of_not_busy {s : Bench} {w : UInt16} (pc : UInt8)
    (hl : s.lane.memory.phase = .idle) (hq : s.lane.port = .quiet)
    (hm : (decode w).op.isMapped = true) (hr : (decode w).op.returns = false)
    {waits : List Event} (hw : ∀ e ∈ waits, e.Waits (decode w)) :
    ((s.after (opening pc (decode w) waits)).lane.isBusy = false →
      ∀ pauses : List Event, (∀ e ∈ pauses, e.Pauses) → ∀ issue issue' : Bool,
        s.Interprets w pc (s.after
          (opening pc (decode w) waits ++ closing pc (decode w) issue issue' pauses))) ∧
    ∀ (d d' : Drive) (cycle : Nat), (Event.tick d).Waits (decode w) →
      (Event.tick d').Waits (decode w) → s.memory.servesAt cycle = true →
      (s.after (opening pc (decode w) waits ++
        [.tick d, .serve cycle, .tick d'])).lane.isBusy = false := by
  have hi : s.react (.active .request true pc (decode w)) =
      { s with lane := s.lane.issue (decode w) } := by
    rw [Event.active, react, Lane.tick_request rfl rfl hl, if_pos rfl]
  have hu : (s.after (opening pc (decode w) waits)).Underway (decode w) s.lane.thread
      s.memory.cells := by
    rw [opening, after_cons, hi]
    exact Underway.after (Lane.underway_issue hl hq) hw
  constructor
  · intro hb pauses hp issue issue'
    rw [after_append, hu.after_closing hb hp]
    exact hu.interprets hb hm hr
  · intro d d' cycle hd hd' hc
    rw [after_append]
    exact hu.not_busy hd hd' ((servesAt_after ..).trans hc)

/-- A lane with all condition bits set, beside a memory that serves every third cycle. The first
register holds the address of a byte. -/
def slowBench : Bench where
  lane :=
    { Lane.seeded 3 4 2 with
      registers := ⟨(Registers.seeded 3 4 2).write 0 7, 9, 9⟩
      branch := ⟨0, 255⟩ }
  memory := ⟨(Image.ofArray #[]).write 7 33, 1, 3, by decide, by decide⟩

def loadWord : UInt16 := registerWord .load 2 0 0

/-- The context is switched out before memory answers, and again before the lane sees the answer. -/
def slowWaits : List Event :=
  [.active .wait false 255 (decode loadWord), .serve 1,
    .tick ⟨false, .request, true, 4, decode 0⟩, .serve 3,
    .tick ⟨false, .update, false, 5, decode 0⟩, .active .wait false 255 (decode loadWord)]

theorem interprets_slow_load :
    (slowBench.after (opening 255 (decode loadWord) slowWaits)).lane.isBusy = false ∧
    slowBench.Interprets loadWord 255 (slowBench.after (opening 255 (decode loadWord) slowWaits ++
      closing 255 (decode loadWord) false false [.tick ⟨false, .wait, false, 0, decode 0⟩])) ∧
    (slowBench.lane.thread.execute (decode loadWord) slowBench.memory.cells).1.regs.read 2 = 33 ∧
    Interpreter.nextPc (decode loadWord) slowBench.lane.thread.flags 255 = 256 := by
  have hb : (slowBench.after (opening 255 (decode loadWord) slowWaits)).lane.isBusy = false := by
    decide +kernel
  have hw : ∀ e ∈ slowWaits, e.Waits (decode loadWord) := by
    simp [slowWaits, Event.Waits, Event.active]
  obtain ⟨h, -⟩ := interprets_of_not_busy (s := slowBench) 255 (by decide +kernel)
    (by decide +kernel) (by decide +kernel) (by decide +kernel) hw
  exact ⟨hb, h hb _ (by simp [Event.Pauses]) false false, by decide +kernel, by decide +kernel⟩

end Bench

end SimtMachine
