import SimtMachine.Proofs.Core.Words

/-!
# The handshake with the memories

Placing a request at a port wipes out whatever the port holds. No core ever loses anything that way:
it places a request only at a port that is quiet, and it is done with every request before it makes
the next one at the same port.
-/

namespace SimtMachine

/-! ## Requests placed in a cycle -/

namespace LoadStoreUnit

/-- The unit places a request at its port in a cycle. -/
def Issues (u : LoadStoreUnit) (d : Drive) : Prop :=
  u.phase = .idle ∧ d.active = true ∧ d.issue = true ∧ d.instruction.op.touchesMemory = true

theorem tick_cases (u : LoadStoreUnit) (d : Drive) (rs rt : UInt8) :
    u.Issues d ∧ (u.tick d rs rt).port = .issue (d.instruction.request rs rt) ∨
      ¬ u.Issues d ∧ (u.tick d rs rt).port.pending = u.port.pending := by
  cases hp : u.phase with
  | idle =>
    by_cases hi : (d.active && d.issue && d.instruction.op.touchesMemory) = true
    · exact .inl ⟨by simpa [Issues, hp, and_assoc] using hi, by simp [tick, hp, hi]⟩
    · exact .inr ⟨by simpa [Issues, hp, and_assoc] using hi, by simp [tick, hp, hi]⟩
  | requesting => exact .inr ⟨by simp [Issues, hp], by simp [tick, hp]⟩
  | waiting =>
    refine .inr ⟨by simp [Issues, hp], ?_⟩
    cases hr : u.port.ready <;> simp [tick, hp, hr, Port.taken]
  | done =>
    refine .inr ⟨by simp [Issues, hp], ?_⟩
    by_cases hu : (d.active && d.stage = .update) = true <;> simp [tick, hp, hu]

theorem PortFits.quiet_of_issues {u : LoadStoreUnit} {d : Drive} (h : u.PortFits)
    (hi : u.Issues d) : u.port = .quiet := by
  rwa [PortFits, if_neg (by simp [hi.1, LoadStorePhase.isBusy])] at h

end LoadStoreUnit

namespace Fetcher

/-- The fetcher places a request at its port in a cycle. -/
def Issues (f : Fetcher) (d : Drive) : Prop :=
  d.stage = .fetch ∧
    (f.phase = .idle ∨ f.phase = .fetched ∧ d.accept = false ∧ f.owner ≠ d.active)

/-- A fetcher at work has either a request or an answer at its port, and any other has neither. -/
def PortFits (f : Fetcher) : Prop :=
  if f.phase = .fetching then f.port.pending.isSome = f.port.ready.isNone else f.port = .quiet

theorem tick_cases (f : Fetcher) (d : Drive) :
    f.Issues d ∧ (f.tick d).port = .issue (.read d.pc) ∨
      ¬ f.Issues d ∧ (f.tick d).port.pending = f.port.pending := by
  cases hp : f.phase with
  | idle =>
    by_cases hs : d.stage = .fetch
    · exact .inl ⟨⟨hs, .inl hp⟩, by simp [tick, hp, hs, request]⟩
    · exact .inr ⟨fun h ↦ hs h.1, by simp [tick, hp, hs]⟩
  | fetching =>
    refine .inr ⟨by simp [Issues, hp], ?_⟩
    cases hr : f.port.ready <;> simp [tick, hp, hr, Port.taken]
  | fetched =>
    by_cases ha : d.accept = true
    · exact .inr ⟨by simp [Issues, hp, ha], by simp [tick, hp, ha]⟩
    · by_cases hs : d.stage = .fetch ∧ f.owner ≠ d.active
      · exact .inl ⟨⟨hs.1, .inr ⟨hp, by simpa using ha, hs.2⟩⟩, by simp [tick, hp, ha, hs, request]⟩
      · refine .inr ⟨fun h ↦ hs ⟨h.1, ?_⟩, by simp [tick, hp, ha, hs]⟩
        exact (h.2.resolve_left (by simp [hp])).2.2

theorem Fits.portFits {genuine : UInt8 → UInt16 → Prop} {f : Fetcher}
    {progress : ContextTag → Context} (h : f.Fits genuine progress) : f.PortFits := by
  cases hp : f.phase with
  | idle | fetched => simp_all [Fits, PortFits]
  | fetching =>
    simp only [Fits, hp] at h
    obtain ⟨-, hq | ⟨w, -, hq⟩⟩ := h <;> simp [PortFits, hp, hq, Port.issue]

theorem PortFits.quiet_of_issues {f : Fetcher} {d : Drive} (h : f.PortFits)
    (hi : f.Issues d) : f.port = .quiet := by
  rwa [PortFits, if_neg (by rcases hi.2 with hp | ⟨hp, -⟩ <;> simp [hp])] at h

end Fetcher

/-! ## A stay in the wait stage -/

namespace Strand

variable {held : Bool} {fetched : Option UInt16} {s s' : Strand}

theorem Advances.lanes_of_enter (h : s.Advances held fetched s') (hs : s.context.stage = .request)
    (hw : s'.context.stage = .wait) : s'.lanes = s.lanes.map (Lane.issue s.instruction) := by
  cases h <;> simp_all

theorem Advances.lanes_of_stay (h : s.Advances held fetched s') (hs : s.context.stage = .wait)
    (hw : s'.context.stage = .wait) : s'.lanes = s.lanes.map Lane.listen := by
  cases h <;> simp_all

theorem Rests.lanes_of_stay (h : s.Rests s') (hw : s'.context.stage = .wait) :
    s'.lanes = s.lanes.map Lane.listen := by
  cases h with
  | wake => simp at hw
  | listen => rfl

theorem Advances.of_leave (h : s.Advances held fetched s') (hs : s.context.stage = .wait)
    (hw : s'.context.stage ≠ .wait) : s.isBusy = false ∧ s'.context.stage = .execute := by
  cases h <;> simp_all

theorem Rests.of_leave (h : s.Rests s') (hs : s.context.stage = .wait)
    (hw : s'.context.stage ≠ .wait) : s.isBusy = false ∧ s'.context.stage = .execute := by
  cases h <;> simp_all

end Strand

/-- The request and the answer, if data memory answered this lane. -/
def Act.answer? (t : ContextTag) (k : Nat) : Act → Option (Request UInt8 × UInt8)
  | .access u j r v => if u = t ∧ j = k then some (r, v) else none
  | .tick | .fetch .. => none

/-- The requests of a lane that data memory has served, with its answers. -/
def answers (t : ContextTag) (k : Nat) (acts : List Act) : List (Request UInt8 × UInt8) :=
  acts.filterMap (Act.answer? t k)

/-- How far a unit has come with the request `r`, with what data memory has served so far. -/
inductive LoadStoreUnit.Handles (r : Request UInt8) :
    List (Request UInt8 × UInt8) → LoadStoreUnit → Prop
  | asked {u : LoadStoreUnit} : u.phase.isBusy = true → u.port = .issue r → Handles r [] u
  | answered {u : LoadStoreUnit} (v : UInt8) : u.phase.isBusy = true → u.port = .answered v →
      Handles r [(r, v)] u
  | taken {u : LoadStoreUnit} : u.phase = .done → u.port = .quiet → Handles r [(r, u.loaded)] u

namespace LoadStoreUnit

variable {r r' : Request UInt8} {served : List (Request UInt8 × UInt8)} {u : LoadStoreUnit}

theorem listen_of_unanswered (hb : u.phase.isBusy = true) (hr : u.port.ready = none) :
    u.listen = { u with phase := .waiting } := by
  obtain ⟨phase, _, _⟩ := u
  cases phase <;> simp_all [LoadStoreUnit.listen, LoadStorePhase.isBusy]

theorem Handles.listen (h : Handles r served u) : Handles r served u.listen := by
  cases h with
  | asked hb hp =>
    rw [listen_of_unanswered hb (by simp [hp, Port.issue])]
    exact .asked rfl hp
  | answered v hb hp =>
    cases hq : u.phase with
    | idle | done => simp [hq, LoadStorePhase.isBusy] at hb
    | requesting =>
      have hl : u.listen = { u with phase := .waiting } := by simp [LoadStoreUnit.listen, hq]
      rw [hl]
      exact .answered v rfl hp
    | waiting =>
      have hl : u.listen = ⟨.done, v, .quiet⟩ := by
        simp [LoadStoreUnit.listen, hq, hp, Port.answered, Port.taken, Port.quiet]
      rw [hl]
      exact Handles.taken (u := ⟨.done, v, .quiet⟩) rfl rfl
  | taken hd hp =>
    rw [listen_of_not_busy (by simp [hd, LoadStorePhase.isBusy])]
    exact .taken hd hp

/-- Data memory serves nothing but the one request, and that only once. -/
theorem Handles.answer (h : Handles r served u) (v : UInt8) (hr : u.port.pending = some r') :
    served = [] ∧ r' = r ∧ Handles r [(r, v)] { u with port := .answered v } := by
  cases h with
  | asked hb hp =>
    refine ⟨rfl, ?_, .answered v hb rfl⟩
    simpa [hp, Port.issue, eq_comm] using hr
  | answered _ _ hp => simp [hp, Port.answered] at hr
  | taken _ hp => simp [hp, Port.quiet] at hr

theorem Handles.of_not_busy (h : Handles r served u) (hb : u.phase.isBusy = false) :
    served = [(r, u.loaded)] := by
  cases h with
  | asked ht | answered _ ht => simp [ht] at hb
  | taken => rfl

end LoadStoreUnit

namespace Core

/-- A stay of a context in its wait stage, from the cycle in which it comes from its request
stage. -/
inductive Waits (t : ContextTag) (c : Core) : List Act → Core → Prop
  | enter : (c.scheduler.get t).stage = .request → (c.tick.1.scheduler.get t).stage = .wait →
      Waits t c [] c.tick.1
  | stay {c' c'' : Core} {acts : List Act} {act : Act} : Waits t c acts c' → Moves c' act c'' →
      (c''.scheduler.get t).stage = .wait → Waits t c (acts ++ [act]) c''

variable {genuine : UInt8 → UInt16 → Prop} {c c' c'' : Core} {t : ContextTag} {acts : List Act}
  {act : Act} {b : Assignment}

theorem answers_snoc (t : ContextTag) (k : Nat) (acts : List Act) (act : Act) :
    answers t k (acts ++ [act]) = answers t k acts ++ (act.answer? t k).toList := by
  cases h : act.answer? t k <;> simp [answers, h]

theorem Sound.lanes_of_stay (hc : c.Sound genuine) (hs : (c.scheduler.get t).stage = .wait)
    (hw : (c.tick.1.scheduler.get t).stage = .wait) :
    c.tick.1.lanes.get t = (c.lanes.get t).map Lane.listen := by
  rcases hc.strand_cases (t := t) (by simp [hs]) with ⟨_, hA⟩ | hR
  · exact hA.lanes_of_stay hs hw
  · exact hR.lanes_of_stay hw

theorem Sound.lanes_of_enter (hc : c.Sound genuine) (hs : (c.scheduler.get t).stage = .request)
    (hw : (c.tick.1.scheduler.get t).stage = .wait) :
    c.tick.1.lanes.get t = (c.lanes.get t).map (Lane.issue (c.strand t).instruction) := by
  rcases hc.strand_cases (t := t) (by simp [hs]) with ⟨_, hA⟩ | hR
  · exact hA.lanes_of_enter hs hw
  · have hq := hR.context_of_ne_wait (by simp [hs])
    simp_all

theorem Sound.of_leave (hc : c.Sound genuine) (hs : (c.scheduler.get t).stage = .wait)
    (hw : (c.tick.1.scheduler.get t).stage ≠ .wait) :
    (c.strand t).isBusy = false ∧ (c.tick.1.scheduler.get t).stage = .execute := by
  rcases hc.strand_cases (t := t) (by simp [hs]) with ⟨_, hA⟩ | hR
  · exact hA.of_leave hs hw
  · exact hR.of_leave hs hw

/-- What an act does to one load and store unit of a context that waits. -/
inductive UnitMove (r? : Option (Request UInt8 × UInt8)) (u : LoadStoreUnit) : LoadStoreUnit → Prop
  | rest : r? = none → UnitMove r? u u
  | listen : r? = none → UnitMove r? u u.listen
  | answer {r : Request UInt8} {v : UInt8} : r? = some (r, v) → u.port.pending = some r →
      UnitMove r? u { u with port := .answered v }

theorem Sound.unitMove (hc : c.Sound genuine) (hm : Moves c act c')
    (hs : (c.scheduler.get t).stage = .wait) (hw : (c'.scheduler.get t).stage = .wait) {k : Nat}
    {l : Lane} (hl : (c.lanes.get t)[k]? = some l) :
    ∃ l', (c'.lanes.get t)[k]? = some l' ∧ UnitMove (act.answer? t k) l.memory l'.memory := by
  cases hm with
  | tick => exact ⟨l.listen, by simp [hc.lanes_of_stay hs hw, hl], .listen rfl⟩
  | fetch => exact ⟨l, hl, .rest rfl⟩
  | @access u pre post x r v hx hr =>
    by_cases hu : u = t
    · subst hu
      have hls : (c.withLanes u (pre ++ x.answered v :: post)).lanes.get u =
          pre ++ x.answered v :: post := by simp [withLanes]
      rw [hx] at hl
      rw [hls]
      by_cases hk : pre.length = k
      · subst hk
        obtain rfl : x = l := by simpa using hl
        exact ⟨x.answered v, by simp, .answer (by simp [Act.answer?]) hr⟩
      · refine ⟨l, ?_, .rest (by simp [Act.answer?, hk])⟩
        rcases Nat.lt_or_gt_of_ne hk with hk | hk
        · have h0 : k - pre.length ≠ 0 := Nat.sub_ne_zero_of_lt hk
          rw [List.getElem?_append_right (Nat.le_of_lt hk), List.getElem?_cons, if_neg h0] at hl ⊢
          exact hl
        · rwa [List.getElem?_append_left hk] at hl ⊢
    · have hls : (c.withLanes u (pre ++ x.answered v :: post)).lanes.get t = c.lanes.get t := by
        rw [withLanes, ContextTag.eq_other_of_ne (Ne.symm hu), PerContext.get_set_other]
      exact ⟨l, hls ▸ hl, .rest (by simp [Act.answer?, hu])⟩

theorem UnitMove.handles {r : Request UInt8} {r? : Option (Request UInt8 × UInt8)}
    {served : List (Request UInt8 × UInt8)} {u u' : LoadStoreUnit} (h : UnitMove r? u u')
    (hu : u.Handles r served) : u'.Handles r (served ++ r?.toList) := by
  cases h with
  | rest hn => simpa [hn] using hu
  | listen hn => simpa [hn] using hu.listen
  | @answer r' v hs hp =>
    obtain ⟨rfl, rfl, hv⟩ := hu.answer v hp
    simpa [hs] using hv

/-- A context that waits keeps its instruction. -/
theorem Waits.sound (hc : c.Sound fun _ _ ↦ True) (h : Waits t c acts c') :
    c'.Sound (fun _ _ ↦ True) ∧ (c'.scheduler.get t).stage = .wait ∧
      c'.instruction.get t = c.instruction.get t := by
  induction h with
  | enter hs hw => exact ⟨hc.tick, hw, hc.word_tick (by simp [hs]) (by simp [hs])⟩
  | @stay c' c'' acts act _ hm hw ih =>
    obtain ⟨hc', hs, hi⟩ := ih
    refine ⟨hc'.move hm (by cases act <;> trivial), hw, Eq.trans ?_ hi⟩
    cases hm with
    | tick => exact hc'.word_tick (by simp [hs]) (by simp [hs])
    | fetch | access => rfl

theorem Waits.handles (hc : c.Sound fun _ _ ↦ True) (h : Waits t c acts c')
    (ht : (decode (c.instruction.get t)).op.touchesMemory = true) {k : Nat} {l₀ : Lane}
    (hl : (c.tick.1.lanes.get t)[k]? = some l₀) :
    ∃ l, (c'.lanes.get t)[k]? = some l ∧
      l.memory.Handles ((decode (c.instruction.get t)).request l₀.registers.rs l₀.registers.rt)
        (answers t k acts) := by
  induction h with
  | enter hs hw =>
    refine ⟨l₀, hl, ?_⟩
    rw [hc.lanes_of_enter hs hw, List.getElem?_map] at hl
    obtain ⟨x, -, rfl⟩ := Option.map_eq_some_iff.1 hl
    have ht' : (c.strand t).instruction.op.touchesMemory = true := ht
    rw [Lane.issue, if_pos ht']
    exact .asked rfl rfl
  | @stay c' c'' acts act h hm hw ih =>
    obtain ⟨hc', hs, -⟩ := h.sound hc
    obtain ⟨l, hl, hh⟩ := ih
    obtain ⟨l', hl', hu⟩ := hc'.unitMove hm hs hw hl
    exact ⟨l', hl', answers_snoc t k acts act ▸ hu.handles hh⟩

/-- Lanes that are not asked to touch memory are not served. -/
theorem Waits.answers_eq_nil (hc : c.Sound fun _ _ ↦ True) (h : Waits t c acts c')
    (ht : (decode (c.instruction.get t)).op.touchesMemory = false) (k : Nat) :
    answers t k acts = [] := by
  induction h with
  | enter => rfl
  | @stay c' c'' acts act h hm _ ih =>
    obtain ⟨hc', hs, hi⟩ := h.sound hc
    rw [answers_snoc, ih, List.nil_append, Option.toList_eq_nil_iff]
    cases hm with
    | tick | fetch => rfl
    | @access u pre post x r v hx hr =>
      by_cases hu : u = t
      · subst hu
        have hm : x ∈ c'.lanes.get u := by simp [hx]
        have hp : x.memory.phase = .idle := by
          have hq := ((hc'.fits u).lane x hm).phase
          simpa [hs, Strand.instruction, hi, ht, LoadStorePhase.Suits] using hq
        exact absurd hp (hc'.phase_ne_idle hm (.inr (by simp [Port.isPending, hr])))
      · simp [Act.answer?, hu]

/-- When a context leaves its wait stage, data memory has served the request that its instruction
makes on each of its lanes, and no other. -/
theorem Waits.answers_eq (hc : c.Sound fun _ _ ↦ True) (h : Waits t c acts c')
    (hw : (c'.tick.1.scheduler.get t).stage ≠ .wait) {k : Nat} {l₀ : Lane}
    (hl : (c.tick.1.lanes.get t)[k]? = some l₀) :
    if (decode (c.instruction.get t)).op.touchesMemory then
      ∃ l, (c'.lanes.get t)[k]? = some l ∧ answers t k acts =
        [((decode (c.instruction.get t)).request l₀.registers.rs l₀.registers.rt, l.memory.loaded)]
    else answers t k acts = [] := by
  split
  · next ht =>
    obtain ⟨hc', hs, -⟩ := h.sound hc
    obtain ⟨l, hl, hh⟩ := h.handles hc ht hl
    have hb := Strand.lane_not_busy (hc'.of_leave hs hw).1 (List.mem_of_getElem? hl)
    exact ⟨l, hl, hh.of_not_busy hb⟩
  · next ht => exact h.answers_eq_nil hc (by simpa using ht) k

theorem Sound.quiet_of_done (hc : c.Sound genuine) (h : c.done = true) :
    (∀ p ∈ c.dataPorts, p = .quiet) ∧ c.fetcher.port = .quiet := by
  have hs := hc.stage_of_done h
  constructor
  · intro p hp
    obtain ⟨l, hl, rfl⟩ := List.mem_map.1 hp
    have quiet (t : ContextTag) (hl : l ∈ c.lanes.get t) : l.port = .quiet :=
      ((hc.fits t).lane l hl).port_eq_quiet
        (((hc.fits t).lane l hl).not_busy (by simp [hs t]))
    exact (List.mem_append.1 hl).elim (quiet .a) (quiet .b)
  · have hi := hc.fetcher_idle fun t ↦ by simp [hs t]
    have hF := hc.fetcher
    simpa only [Fetcher.Fits, hi] using hF

/-- A request at a data port stays there through a cycle. -/
theorem Sound.pending_tick (hc : c.Sound genuine) {k : Nat} {l : Lane} {r : Request UInt8}
    (hl : (c.lanes.get t)[k]? = some l) (hr : l.port.pending = some r) :
    ∃ l', (c.tick.1.lanes.get t)[k]? = some l' ∧ l'.port.pending = some r := by
  refine ⟨l.tick (c.laneDrive t), by simp [lanes_tick, hl], ?_⟩
  rcases l.memory.tick_cases (c.laneDrive t) (l.tick (c.laneDrive t)).registers.rs
    (l.tick (c.laneDrive t)).registers.rt with ⟨hi, -⟩ | ⟨-, hp⟩
  · have hq := ((hc.fits t).lane l (List.mem_of_getElem? hl)).port.quiet_of_issues hi
    simp [Lane.port, hq, Port.quiet] at hr
  · exact hp.trans hr

theorem Sound.pending_fetch_tick (hc : c.Sound genuine) {r : Request UInt16}
    (hr : c.fetcher.port.pending = some r) : c.tick.1.fetcher.port.pending = some r := by
  rw [fetcher_eq_tick]
  rcases c.fetcher.tick_cases c.fetcherDrive with ⟨hi, -⟩ | ⟨-, hp⟩
  · simp [hc.fetcher.portFits.quiet_of_issues hi, Port.quiet] at hr
  · exact hp.trans hr

/-- Whatever the memories answer and when: a load and store unit is where the stage of its context
wants it, a port is in use exactly while its unit or the fetcher is at work, and then by one request
or one answer; a request is placed at quiet ports only, and stays until it is served. While a
context waits, each of its lanes is served exactly the one request of the instruction, and once the
core is done nothing is left at any port. -/
theorem requests_kept (h : Run (c.start b) acts c') :
    (∀ t, ∀ l ∈ c'.lanes.get t,
      l.memory.phase.Suits (decode (c'.instruction.get t)).op.touchesMemory
        (c'.scheduler.get t).stage ∧ l.memory.PortFits) ∧
    c'.fetcher.PortFits ∧
    (∀ t, ∀ l ∈ c'.lanes.get t, l.memory.Issues (c'.laneDrive t) → l.port = .quiet) ∧
    (c'.fetcher.Issues c'.fetcherDrive → c'.fetcher.port = .quiet) ∧
    (∀ t (k : Nat) (l : Lane) r, (c'.lanes.get t)[k]? = some l → l.port.pending = some r →
      ∃ l' : Lane, (c'.tick.1.lanes.get t)[k]? = some l' ∧ l'.port.pending = some r) ∧
    (∀ r, c'.fetcher.port.pending = some r → c'.tick.1.fetcher.port.pending = some r) ∧
    (∀ t acts' c'', Waits t c' acts' c'' → (c''.tick.1.scheduler.get t).stage ≠ .wait →
      ∀ (k : Nat) (l : Lane), (c'.tick.1.lanes.get t)[k]? = some l →
        if (decode (c'.instruction.get t)).op.touchesMemory then
          ∃ l', (c''.lanes.get t)[k]? = some l' ∧ answers t k acts' =
            [((decode (c'.instruction.get t)).request l.registers.rs l.registers.rt,
              l'.memory.loaded)]
        else answers t k acts' = []) ∧
    (c'.done = true →
      (∀ p ∈ c'.dataPorts, p.isPending = false) ∧ c'.fetcher.port.isPending = false) := by
  have hc : c'.Sound fun _ _ ↦ True := (h.fits_lastWord fun act _ ↦ by cases act <;> trivial).1
  refine ⟨fun t l hl ↦ ⟨((hc.fits t).lane l hl).phase, ((hc.fits t).lane l hl).port⟩,
    hc.fetcher.portFits, fun t l hl ↦ ((hc.fits t).lane l hl).port.quiet_of_issues,
    hc.fetcher.portFits.quiet_of_issues, fun t k l r ↦ hc.pending_tick,
    fun r ↦ hc.pending_fetch_tick, fun t acts' c'' hw hl k l ↦ hw.answers_eq hc hl, ?_⟩
  intro hd
  obtain ⟨hp, hf⟩ := hc.quiet_of_done hd
  constructor
  · intro p hm
    simp [hp p hm, Port.isPending, Port.quiet]
  · simp [hf, Port.isPending, Port.quiet]

/-- The core of a thread that is about to hand a load on. -/
@[irreducible] def loading : Core := (preempted.after 13).core

/-- The only lane of context `a` once the load has gone out. -/
def loadingLane : Lane := loading.tick.1.lanes.a.headD (.seeded 0 1 0)

theorem requests_kept_loading :
    (∃ l, ((loading.tick.1.withLanes .a [loadingLane.answered 5]).tick.1.tick.1.lanes.get .a)[0]? =
        some l ∧ answers .a 0 [.access .a 0 (.read 0) 5, .tick, .tick] =
          [(.read 0, l.memory.loaded)]) ∧
      (preempted.after 49).core.done = true ∧
      ∀ p ∈ (preempted.after 49).core.dataPorts, p.isPending = false := by
  have hs := sound_start (wordOf preempted.program.cells) (idle 0 1) ⟨0, 1⟩
  constructor
  · obtain ⟨acts, hr⟩ : ∃ acts, Run preempted.core acts loading := by
      unfold loading
      exact (preempted.exists_run_after hs 13).imp fun _ h ↦ h.1
    have hl : loading.tick.1.lanes.get .a = [] ++ loadingLane :: [] := by decide +kernel
    have hp : loadingLane.port.pending = some (.read 0) := by decide +kernel
    have h₀ : Waits .a loading [] loading.tick.1 := .enter (by decide +kernel) (by decide +kernel)
    -- the lane is answered, takes the answer in the second cycle, and then the context goes on
    have h₁ := h₀.stay (@Moves.access _ .a [] [] _ _ 5 hl hp) (by decide +kernel)
    have h₂ := (h₁.stay (.tick _) (by decide +kernel)).stay (.tick _) (by decide +kernel)
    obtain ⟨-, -, -, -, -, -, h, -⟩ := requests_kept (c := idle 0 1) (b := ⟨0, 1⟩) hr
    have hw := h .a _ _ h₂ (by decide +kernel) 0 loadingLane (by decide +kernel)
    have ht : (decode (loading.instruction.get .a)).op.touchesMemory = true := by decide +kernel
    have hq : (decode (loading.instruction.get .a)).request loadingLane.registers.rs
      loadingLane.registers.rt = .read 0 := by decide +kernel
    rwa [if_pos ht, hq] at hw
  · obtain ⟨acts, hr, -⟩ := preempted.exists_run_after hs 49
    have hd : (preempted.after 49).core.done = true := by decide +kernel
    obtain ⟨-, -, -, -, -, -, -, h⟩ := requests_kept (c := idle 0 1) (b := ⟨0, 1⟩) hr
    exact ⟨hd, (h hd).1⟩

end Core

end SimtMachine
