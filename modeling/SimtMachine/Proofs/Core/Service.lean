import Mathlib.Logic.Relation
import SimtMachine.Core.Solo
import SimtMachine.Proofs.Core.Reach
import SimtMachine.Proofs.Memory.Service

/-!
# Cores at their memories

A service cycle of a memory is a sequence of single answers. A core that works at memories of its
own, or shares them with other cores, therefore does nothing but the acts below, and whatever these
acts preserve holds for every number of channels and every interval.
-/

namespace SimtMachine

open Relation (ReflTransGen)

theorem sweep_eq_self {σ α : Type} {visit : σ → α → σ × α} (keep : σ → Prop) {q : α → Prop}
    (h : ∀ s x, keep s → (visit s x).2 = x → (visit s x).1 = s ∧ q x) {xs : List α} {s : σ}
    (hs : keep s) (hx : (sweep visit s xs).2 = xs) : (sweep visit s xs).1 = s ∧ ∀ x ∈ xs, q x := by
  induction xs with
  | nil => exact ⟨rfl, nofun⟩
  | cons x xs ih =>
    rw [sweep_cons] at hx ⊢
    obtain ⟨h1, h2⟩ := List.cons.inj hx
    obtain ⟨hk, hq⟩ := h s x hs h1
    rw [hk] at h2 ⊢
    obtain ⟨hk', hqs⟩ := ih h2
    exact ⟨hk', List.forall_mem_cons.2 ⟨hq, hqs⟩⟩

namespace Core

/-- One act of a core at memories of which the first holds `program` and the second an image that
the act may change. Data memory serves the lanes of a context in ascending order. -/
inductive Works (program : Image UInt16) : Core × Image UInt8 → Core × Image UInt8 → Prop
  | tick (c : Core) (m : Image UInt8) : Works program (c, m) (c.tick.1, m)
  | fetch {c : Core} {addr : UInt8} (m : Image UInt8) :
      c.fetcher.port.pending = some (.read addr) →
      Works program (c, m) (c.answerFetch (program.read addr), m)
  | access {c : Core} {t : ContextTag} {pre post : List Lane} {l : Lane} {r : Request UInt8}
      (m : Image UInt8) : c.lanes.get t = pre ++ l :: post → l.port.pending = some r →
      (∀ l' ∈ pre, l'.port.pending = none) →
      Works program (c, m) (c.withLanes t (pre ++ l.answered (r.answer m) :: post), r.apply m)

/-- An answer of one of the two memories. -/
inductive Answers (program : Image UInt16) : Core × Image UInt8 → Core × Image UInt8 → Prop
  | fetch {c : Core} {addr : UInt8} (m : Image UInt8) :
      c.fetcher.port.pending = some (.read addr) →
      Answers program (c, m) (c.answerFetch (program.read addr), m)
  | access {c : Core} {t : ContextTag} {pre post : List Lane} {l : Lane} {r : Request UInt8}
      (m : Image UInt8) : c.lanes.get t = pre ++ l :: post → l.port.pending = some r →
      (∀ l' ∈ pre, l'.port.pending = none) →
      Answers program (c, m) (c.withLanes t (pre ++ l.answered (r.answer m) :: post), r.apply m)

/-- The words of a program. -/
def wordOf (program : Image UInt16) (pc : UInt8) (w : UInt16) : Prop := w = program.read pc

variable {program : Image UInt16} {s s' : Core × Image UInt8}

theorem Answers.works (h : Answers program s s') : Works program s s' := by
  cases h with
  | fetch m hp => exact .fetch m hp
  | access m hl hr hp => exact .access m hl hr hp

theorem Works.tick_or_answers {c c' : Core} {m m' : Image UInt8}
    (h : Works program (c, m) (c', m')) :
    c' = c.tick.1 ∧ m' = m ∨ Answers program (c, m) (c', m') := by
  cases h with
  | tick => exact .inl ⟨rfl, rfl⟩
  | fetch _ hp => exact .inr (.fetch m hp)
  | access _ hl hr hp => exact .inr (.access m hl hr hp)

theorem works_of_answers (h : ReflTransGen (Answers program) s s') :
    ReflTransGen (Works program) s s' :=
  ReflTransGen.mono (fun _ _ ↦ Answers.works) _ _ h

theorem Works.moves (h : Works program s s') :
    ∃ act : Act, s.1.Moves act s'.1 ∧ act.Genuine (wordOf program) := by
  cases h with
  | tick c m => exact ⟨_, .tick c, trivial⟩
  | fetch m hp => exact ⟨_, .fetch _ hp, rfl⟩
  | access m hl hr => exact ⟨_, .access _ hl hr, trivial⟩

theorem Sound.works (hs : s.1.Sound (wordOf program)) (h : Works program s s') :
    s'.1.Sound (wordOf program) := by
  obtain ⟨act, hm, hg⟩ := h.moves
  exact hs.move hm hg

theorem Sound.works_all (hs : s.1.Sound (wordOf program))
    (h : ReflTransGen (Works program) s s') : s'.1.Sound (wordOf program) := by
  induction h with
  | refl => exact hs
  | tail _ h ih => exact ih.works h

theorem Reachable.works_all (hs : Reachable s.1) (h : ReflTransGen (Works program) s s') :
    Reachable s'.1 := by
  induction h with
  | refl => exact hs
  | tail _ h ih =>
    obtain ⟨_, hm, -⟩ := h.moves
    exact .move ih hm

/-- What a core does at its memories is a run with the words of the program. -/
theorem exists_run_of_works (h : ReflTransGen (Works program) s s') :
    ∃ acts, Run s.1 acts s'.1 ∧ ∀ act ∈ acts, act.Genuine (wordOf program) := by
  induction h with
  | refl => exact ⟨[], .nil _, by simp⟩
  | tail _ h ih =>
    obtain ⟨acts, hr, hg⟩ := ih
    obtain ⟨act, hm, ha⟩ := h.moves
    refine ⟨acts ++ [act], hr.snoc hm, fun x hx ↦ ?_⟩
    rcases List.mem_append.1 hx with hx | hx
    · exact hg x hx
    · exact List.mem_singleton.1 hx ▸ ha

theorem Works.assignment (h : Works program s s') : s'.1.assignment = s.1.assignment := by
  cases h <;> rfl

theorem Works.blockDim (h : Works program s s') : s'.1.blockDim = s.1.blockDim := by
  cases h <;> rfl

/-- A core without a block has nothing to be answered. -/
theorem Sound.not_answers_asleep {genuine : UInt8 → UInt16 → Prop} {c : Core} {m : Image UInt8}
    (hc : c.Sound genuine) (ha : c.assignment = none) : ¬ Answers program (c, m) s := by
  intro h
  have hs := hc.stage_idle (hc.asleep ha)
  cases h with
  | fetch _ hp =>
    have hi := hc.fetcher_idle fun t ↦ by simp [hs t]
    have hF := hc.fetcher
    simp_all [Fetcher.Fits, Port.quiet]
  | @access _ t _ _ l _ _ hl hr =>
    have hm : l ∈ c.lanes.get t := by simp [hl]
    exact hc.phase_ne_idle hm (.inr (by simp [Port.isPending, hr]))
      ((hc.fits t).idle_lanes (.inl (hs t)) l hm)

theorem Sound.works_asleep {genuine : UInt8 → UInt16 → Prop} {c c' : Core} {m m' : Image UInt8}
    (hc : c.Sound genuine) (ha : c.assignment = none) (h : Works program (c, m) (c', m')) :
    m' = m := by
  rcases h.tick_or_answers with ⟨-, hm⟩ | hans
  · exact hm
  · exact absurd hans (hc.not_answers_asleep ha)

/-! ## Service cycles -/

theorem withLanes_withLanes (c : Core) (t : ContextTag) (ls ls' : List Lane) :
    (c.withLanes t ls).withLanes t ls' = c.withLanes t ls' := by
  cases t <;> rfl

theorem withLanes_get (c : Core) (t : ContextTag) : c.withLanes t (c.lanes.get t) = c := by
  cases t <;> rfl

/-- As long as a channel is free, the lanes before the one whose turn it is have been served. -/
theorem answers_sweep (program : Image UInt16) (t : ContextTag) (rest : List Lane) :
    ∀ (c : Core) (s : Pass UInt8) (pre : List Lane), c.lanes.get t = pre ++ rest →
      (s.free ≠ 0 → ∀ l ∈ pre, l.port.pending = none) →
      ReflTransGen (Answers program) (c, s.cells)
        (c.withLanes t (pre ++ (sweep visitLane s rest).2), (sweep visitLane s rest).1.cells) := by
  induction rest with
  | nil =>
    intro c s pre hl _
    rw [sweep, ← hl, withLanes_get]
  | cons l rest ih =>
    intro c s pre hl hp
    have next (c : Core) (s : Pass UInt8) (x : Lane) (hc : c.lanes.get t = pre ++ x :: rest)
        (hs : s.free ≠ 0 → x.port.pending = none ∧ ∀ l ∈ pre, l.port.pending = none) :
        ReflTransGen (Answers program) (c, s.cells)
          (c.withLanes t (pre ++ x :: (sweep visitLane s rest).2),
            (sweep visitLane s rest).1.cells) := by
      have h := ih c s (pre ++ [x]) (by simp [hc]) fun hf l hl ↦ by
        rcases List.mem_append.1 hl with hl | hl
        · exact (hs hf).2 l hl
        · exact List.mem_singleton.1 hl ▸ (hs hf).1
      simpa using h
    rcases s.visit_cases l.port with ⟨hv, hn⟩ | ⟨r, free, hr, hf, hv⟩
    · have hq : visitLane s l = (s, l) := by
        rw [visitLane, hv]
        rfl
      simpa only [sweep, hq] using next c s l hl fun hf ↦ ⟨hn hf, hp hf⟩
    · have hq : visitLane s l = (⟨r.apply s.cells, free⟩, l.answered (r.answer s.cells)) := by
        rw [visitLane, hv, Lane.answered]
      have h := next (c.withLanes t (pre ++ l.answered (r.answer s.cells) :: rest))
        ⟨r.apply s.cells, free⟩ (l.answered (r.answer s.cells)) (by simp [withLanes])
        fun _ ↦ ⟨rfl, hp (by omega)⟩
      rw [withLanes_withLanes] at h
      simpa only [sweep, hq] using h.head (.access s.cells hl hr (hp (by omega)))

theorem answers_visitData (program : Image UInt16) (c : Core) (s : Pass UInt8) :
    ReflTransGen (Answers program) (c, s.cells) ((visitData s c).2, (visitData s c).1.cells) := by
  have ha := answers_sweep program .a c.lanes.a c s [] rfl fun _ ↦ by simp
  have hb := answers_sweep program .b c.lanes.b (c.withLanes .a (sweep visitLane s c.lanes.a).2)
    (sweep visitLane s c.lanes.a).1 [] rfl fun _ ↦ by simp
  exact ha.trans hb

theorem Sound.fetch_reads {genuine : UInt8 → UInt16 → Prop} {c : Core} (hc : c.Sound genuine)
    {r : Request UInt16} (hr : c.fetcher.port.pending = some r) : ∃ addr, r = .read addr := by
  have hf := hc.fetcher
  cases hp : c.fetcher.phase with
  | idle | fetched => simp_all [Fetcher.Fits, Port.quiet]
  | fetching =>
    simp only [Fetcher.Fits, hp] at hf
    rcases hf.2 with hi | ⟨w, -, hi⟩
    · exact ⟨_, by simpa [hi, Port.issue] using hr.symm⟩
    · simp [hi] at hr

/-- Program memory keeps its content, and it answers with what stands at the address. -/
theorem Sound.answers_visitProgram {genuine : UInt8 → UInt16 → Prop} {c : Core}
    (hc : c.Sound genuine) (s : Pass UInt16) (m : Image UInt8) :
    (visitProgram s c).1.cells = s.cells ∧
      ReflTransGen (Answers s.cells) (c, m) ((visitProgram s c).2, m) := by
  rcases s.visit_cases c.fetcher.port with ⟨hv, -⟩ | ⟨r, free, hr, -, hv⟩
  · have hq : Core.visitProgram s c = (s, c) := by simp [Core.visitProgram, hv]
    rw [hq]
    exact ⟨rfl, .refl⟩
  · obtain ⟨addr, rfl⟩ := hc.fetch_reads hr
    have hq : Core.visitProgram s c = (⟨s.cells, free⟩, c.answerFetch (s.cells.read addr)) := by
      simp only [Core.visitProgram, hv, Core.answerFetch, Request.apply, Request.answer]
    rw [hq]
    exact ⟨rfl, .single (.fetch m hr)⟩

/-! ## Services without effect -/

theorem visitProgram_eq_self {c : Core} {s : Pass UInt16} (hs : s.free ≠ 0)
    (h : (visitProgram s c).2 = c) :
    (visitProgram s c).1 = s ∧ c.fetcher.port.isPending = false :=
  Pass.visit_eq_self hs (congrArg (fun c : Core ↦ c.fetcher.port) h)

theorem visitLanes_eq_self {s : Pass UInt8} {ls : List Lane} (hs : s.free ≠ 0)
    (h : (sweep visitLane s ls).2 = ls) :
    (sweep visitLane s ls).1 = s ∧ ∀ l ∈ ls, l.port.isPending = false := by
  refine sweep_eq_self (fun s ↦ s.free ≠ 0) (fun s l hs hl ↦ ?_) hs h
  exact Pass.visit_eq_self hs (congrArg Lane.port hl)

theorem visitData_eq_self {c : Core} {s : Pass UInt8} (hs : s.free ≠ 0)
    (h : (visitData s c).2 = c) :
    (visitData s c).1 = s ∧ ∀ t, ∀ l ∈ c.lanes.get t, l.port.isPending = false := by
  have ha : (sweep visitLane s c.lanes.a).2 = c.lanes.a := congrArg (fun c : Core ↦ c.lanes.a) h
  have hb : (sweep visitLane (sweep visitLane s c.lanes.a).1 c.lanes.b).2 = c.lanes.b :=
    congrArg (fun c : Core ↦ c.lanes.b) h
  obtain ⟨hka, hqa⟩ := visitLanes_eq_self hs ha
  rw [hka] at hb
  obtain ⟨hkb, hqb⟩ := visitLanes_eq_self hs hb
  refine ⟨?_, fun t ↦ by cases t <;> assumption⟩
  have hv : (visitData s c).1 = (sweep visitLane (sweep visitLane s c.lanes.a).1 c.lanes.b).1 := rfl
  rw [hv, hka, hkb]

end Core

/-! ## A core on its own -/

namespace Solo

/-- The core with the content of its data memory. -/
def site (s : Solo) : Core × Image UInt8 := (s.core, s.data.cells)

/-- The state after a number of cycles. -/
def after (s : Solo) : Nat → Solo
  | 0 => s
  | n + 1 => (s.after n).step.1

/-- A cycle is a sequence of answers and then a cycle of the core, and program memory keeps its
content. -/
theorem answers_step {genuine : UInt8 → UInt16 → Prop} {s : Solo} (hs : s.core.Sound genuine) :
    s.step.1.program.cells = s.program.cells ∧
      ∃ c : Core, ReflTransGen (Core.Answers s.program.cells) s.site (c, s.step.1.data.cells) ∧
        s.step.1.core = c.tick.1 := by
  have hp := Memory.serviceWith_cases (motive := fun cells c ↦ cells = s.program.cells ∧
    ReflTransGen (Core.Answers s.program.cells) s.site (c, s.data.cells)) s.cycle ⟨rfl, .refl⟩
    (hs.answers_visitProgram ⟨s.program.cells, s.program.channels⟩ s.data.cells)
  have hd (c : Core) := Memory.serviceWith_cases (motive := fun cells c' ↦
    ReflTransGen (Core.Answers s.program.cells) (c, s.data.cells) (c', cells)) s.cycle .refl
    (Core.answers_visitData _ c ⟨s.data.cells, s.data.channels⟩)
  exact ⟨hp.1, _, hp.2.trans (hd _), rfl⟩

theorem works_step {genuine : UInt8 → UInt16 → Prop} {s : Solo} (hs : s.core.Sound genuine) :
    ReflTransGen (Core.Works s.program.cells) s.site s.step.1.site ∧
      s.step.1.program.cells = s.program.cells := by
  obtain ⟨hp, c, hc, ht⟩ := answers_step hs
  refine ⟨.tail (Core.works_of_answers hc) ?_, hp⟩
  rw [site, ht]
  exact .tick c _

theorem works_after {s : Solo} (hs : s.core.Sound (Core.wordOf s.program.cells)) (n : Nat) :
    ReflTransGen (Core.Works s.program.cells) s.site (s.after n).site ∧
      (s.after n).program.cells = s.program.cells := by
  induction n with
  | zero => exact ⟨.refl, rfl⟩
  | succ n ih =>
    obtain ⟨hw, hp⟩ := ih
    have hstep := works_step (s := s.after n) (hs.works_all hw)
    rw [hp] at hstep
    exact ⟨hw.trans hstep.1, hstep.2⟩

theorem exists_run_after {s : Solo} (hs : s.core.Sound (Core.wordOf s.program.cells)) (n : Nat) :
    ∃ acts, Core.Run s.core acts (s.after n).core ∧
      ∀ act ∈ acts, act.Genuine (Core.wordOf s.program.cells) :=
  Core.exists_run_of_works (works_after hs n).1

theorem reachable_after {s : Solo} (hr : s.core.Reachable)
    (hs : s.core.Sound (Core.wordOf s.program.cells)) (n : Nat) : (s.after n).core.Reachable :=
  Core.Reachable.works_all hr (works_after hs n).1

end Solo

end SimtMachine
