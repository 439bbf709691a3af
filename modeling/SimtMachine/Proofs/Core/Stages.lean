import Mathlib.Data.List.Chain
import SimtMachine.Proofs.Core.Exclusivity

/-!
# The way of the contexts through their stages

The scheduler may be given any start line and any signals, whether or not a core could give them.
Its two contexts nevertheless leave idle together, pass their stages in order, and move only while
they are active, but for a context that leaves its wait.
-/

namespace SimtMachine

namespace Stage

/-- The stages of an instruction in their order, from before the first instruction on. -/
inductive Precedes : Stage → Stage → Prop
  | idle : Precedes idle fetch
  | fetch : Precedes fetch decode
  | decode : Precedes decode request
  | request : Precedes request wait
  | wait : Precedes wait execute
  | execute : Precedes execute update

/-- The way of a context: after an instruction it fetches the next one or is done for good. -/
inductive Leads : Stage → Stage → Prop
  | within {x y : Stage} : x.Precedes y → Leads x y
  | again : Leads update fetch
  | finish : Leads update done

theorem not_update_and_fetch (x : Stage) : ¬ (x = .update ∧ x = .fetch) := by
  rintro ⟨rfl, hf⟩
  cases hf

theorem Leads.ne {x y : Stage} (h : x.Leads y) : y ≠ x := by
  cases h with
  | within h => cases h <;> decide
  | again | finish => decide

theorem Leads.ne_idle {x y : Stage} (h : x.Leads y) : y ≠ .idle := by
  cases h with
  | within h => cases h <;> decide
  | again | finish => decide

end Stage

/-! ## One context -/

namespace Context

variable {c c' : Context} {start held : Bool} {sig : Signals}

/-- The stages in which an active context may stay for longer than a cycle, and why. -/
inductive Stays (start held : Bool) (sig : Signals) : Stage → Prop
  | idle : start = false → Stays start held sig .idle
  | fetch : sig.fetchComplete = false → Stays start held sig .fetch
  | request : held = true → sig.memAccess = true → Stays start held sig .request
  | wait : sig.lsuBusy = true → Stays start held sig .wait
  | done : Stays start held sig .done

/-- Everything that a cycle can do to the active context. -/
inductive Advances (start held : Bool) (sig : Signals) (c : Context) : Context → Prop
  | stay : Stays start held sig c.stage → Advances start held sig c c
  | pass {next : Stage} : c.stage.Precedes next →
      Advances start held sig c { c with stage := next }
  | again : c.stage = .update → sig.ret = false →
      Advances start held sig c { c with stage := .fetch, pc := sig.nextPc }
  | finish : c.stage = .update → sig.ret = true →
      Advances start held sig c { c with stage := .done, finished := true }

theorem advances_advance (c : Context) (start held : Bool) (sig : Signals) :
    c.Advances start held sig (c.advance start held sig) := by
  have stay {x : Stage} (hs : c.stage = x) (h : Stays start held sig x) :
      c.Advances start held sig c := .stay (hs ▸ h)
  have pass {x y : Stage} (hs : c.stage = x) (h : x.Precedes y) :
      c.Advances start held sig { c with stage := y } := .pass (hs ▸ h)
  cases hs : c.stage <;> simp only [advance, hs]
  case idle =>
    split
    · exact pass hs .idle
    · next h => exact stay hs (.idle (eq_false_of_ne_true h))
  case fetch =>
    split
    · exact pass hs .fetch
    · next h => exact stay hs (.fetch (eq_false_of_ne_true h))
  case decode => exact pass hs .decode
  case request =>
    split
    · next h => exact stay hs (.request (Bool.and_eq_true_iff.1 h).1 (Bool.and_eq_true_iff.1 h).2)
    · exact pass hs .request
  case wait =>
    split
    · next h => exact stay hs (.wait h)
    · exact pass hs .wait
  case execute => exact pass hs .execute
  case update =>
    split
    · next h => exact .finish hs h
    · next h => exact .again hs (eq_false_of_ne_true h)
  case done => exact stay hs .done

theorem Advances.leads (h : c.Advances start held sig c') :
    c' = c ∧ Stays start held sig c.stage ∨ c.stage.Leads c'.stage := by
  cases h with
  | stay hs => exact .inl ⟨rfl, hs⟩
  | pass hp => exact .inr (.within hp)
  | again hs => exact .inr (hs ▸ .again)
  | finish hs => exact .inr (hs ▸ .finish)

theorem Advances.pc_eq (h : c.Advances start held sig c') :
    c'.pc = if c.stage = .update ∧ c'.stage = .fetch then sig.nextPc else c.pc := by
  cases h with
  | stay => rw [if_neg (Stage.not_update_and_fetch _)]
  | pass hp =>
    rw [if_neg]
    rintro ⟨hu, -⟩
    rw [hu] at hp
    cases hp
  | again hs => rw [if_pos ⟨hs, rfl⟩]
  | finish => rw [if_neg (by simp)]

theorem Advances.finished_iff (h : c.Advances start held sig c')
    (hc : c.finished = true ↔ c.stage = .done) : c'.finished = true ↔ c'.stage = .done := by
  cases h with
  | stay => exact hc
  | pass hp =>
    generalize c.stage = x at hp hc
    cases hp <;> simpa using hc
  | again hs => simpa [hs] using hc
  | finish => simp

end Context

namespace Scheduler

variable {s : Scheduler} {start : Bool} {sig : PerContext Signals} {t : ContextTag}

/-! ## One cycle -/

theorem get_tick (s : Scheduler) (start : Bool) (sig : PerContext Signals) (t : ContextTag) :
    (s.tick start sig).1.get t =
      if start && s.isIdle then { s.get t with stage := .fetch }
      else if t = s.active then (s.get t).advance start s.busHeld (sig.get t)
      else if (s.get t).wakes (sig.get t) then { s.get t with stage := .execute }
      else s.get t := by
  unfold tick
  split
  · simp
  · split
    · next ht => simp [ht]
    · next ht =>
      rw [ContextTag.eq_other_of_ne ht]
      simp

theorem bootstrap_tick (s : Scheduler) (start : Bool) (sig : PerContext Signals) :
    (s.tick start sig).2.bootstrap = (start && s.isIdle) := by
  unfold tick
  split
  · next h => exact h.symm
  · next h => exact (eq_false_of_ne_true h).symm

theorem active_tick (h : (s.tick start sig).2.bootstrap = false) :
    (s.tick start sig).2.active = s.active := by
  rw [bootstrap_tick] at h
  simp [tick, h]

theorem isIdle_iff : s.isIdle = true ↔ ∀ t, (s.get t).stage = .idle := by
  constructor
  · intro h t
    obtain ⟨ha, hb⟩ : s.a.stage = .idle ∧ s.b.stage = .idle := by simpa [isIdle] using h
    cases t with
    | a => exact ha
    | b => exact hb
  · intro h
    have ha : s.a.stage = .idle := h .a
    have hb : s.b.stage = .idle := h .b
    simp [isIdle, ha, hb]

/-- What a cycle with the given start line and signals does to a context. -/
inductive Turn (s : Scheduler) (start : Bool) (sig : PerContext Signals) (t : ContextTag) :
    Context → Prop
  | bootstrap : (s.tick start sig).2.bootstrap = true → (s.get t).stage = .idle →
      Turn s start sig t { s.get t with stage := .fetch }
  | active {c : Context} : (s.tick start sig).2.bootstrap = false →
      t = (s.tick start sig).2.active →
      (s.get t).Advances start s.busHeld (sig.get t) c → Turn s start sig t c
  | wake : (s.tick start sig).2.bootstrap = false → t ≠ (s.tick start sig).2.active →
      (s.get t).stage = .wait → (sig.get t).lsuBusy = false →
      Turn s start sig t { s.get t with stage := .execute }
  | rest : (s.tick start sig).2.bootstrap = false → t ≠ (s.tick start sig).2.active →
      ¬ ((s.get t).stage = .wait ∧ (sig.get t).lsuBusy = false) → Turn s start sig t (s.get t)

theorem turn_tick (s : Scheduler) (start : Bool) (sig : PerContext Signals) (t : ContextTag) :
    s.Turn start sig t ((s.tick start sig).1.get t) := by
  rw [get_tick]
  cases hb : start && s.isIdle with
  | true =>
    have hi := isIdle_iff.1 (Bool.and_eq_true_iff.1 hb).2 t
    exact .bootstrap ((bootstrap_tick ..).trans hb) hi
  | false =>
    have hb := (bootstrap_tick s start sig).trans hb
    rw [if_neg Bool.false_ne_true, ← active_tick hb]
    split
    · next ht => exact .active hb ht (Context.advances_advance ..)
    · next ht =>
      split
      · next hw =>
        obtain ⟨hs, hl⟩ : (s.get t).stage = .wait ∧ (sig.get t).lsuBusy = false := by
          simpa [Context.wakes] using hw
        exact .wake hb ht hs hl
      · next hw => exact .rest hb ht (by simpa [Context.wakes] using hw)

theorem ne_wait_of_active_a (h : s.active = .a) : s.a.stage ≠ .wait := by
  intro hw
  simp [active, selectActive, hw] at h

/-- The laws of a cycle that takes the contexts from `s` to `s'`. -/
structure Orderly (s : Scheduler) (start : Bool) (sig : PerContext Signals) (s' : Scheduler)
    (step : Transition) : Prop where
  bootstrap_iff : step.bootstrap = true ↔ start = true ∧ ∀ t, (s.get t).stage = .idle
  /-- a context stays where it is or goes on to the next stage -/
  path : ∀ t, (s'.get t).stage = (s.get t).stage ∨ (s.get t).stage.Leads (s'.get t).stage
  /-- past idle, an active context stays only to fetch, to wait, at its end, or, if it is `b`, in
  front of a bus that is held -/
  held : ∀ t, (s'.get t).stage = (s.get t).stage →
    (s.get t).stage = .done ∨ t ≠ step.active ∨ (s.get t).stage = .idle ∧ start = false ∨
      (s.get t).stage = .fetch ∨ (s.get t).stage = .request ∧ t = .b ∨ (s.get t).stage = .wait
  absorbing : ∀ t, (s.get t).stage = .done → s'.get t = s.get t
  /-- a bootstrap sends both contexts to their first fetch -/
  bootstrap : step.bootstrap = true → ∀ t, s'.get t = { s.get t with stage := .fetch }
  /-- in any other cycle the context that is not active can only wake up -/
  parked : step.bootstrap = false → ∀ t, t ≠ step.active → s'.get t =
    if (s.get t).stage = .wait ∧ (sig.get t).lsuBusy = false then
      { s.get t with stage := .execute }
    else s.get t
  pc : ∀ t, (s'.get t).pc =
    if (s.get t).stage = .update ∧ (s'.get t).stage = .fetch then (sig.get t).nextPc
    else (s.get t).pc
  awake : step.active = .a → s.a.stage ≠ .wait

theorem Turn.leads {c : Context} (h : s.Turn start sig t c) :
    c.stage = (s.get t).stage ∨ (s.get t).stage.Leads c.stage := by
  cases h with
  | bootstrap _ hs =>
    rw [hs]
    exact .inr (.within .idle)
  | active _ _ hA =>
    rcases hA.leads with ⟨hc, -⟩ | hl
    · exact .inl (congrArg Context.stage hc)
    · exact .inr hl
  | wake _ _ hs =>
    rw [hs]
    exact .inr (.within .wait)
  | rest => exact .inl rfl

theorem Turn.held {c : Context} (h : s.Turn start sig t c) (hc : c.stage = (s.get t).stage) :
    t ≠ (s.tick start sig).2.active ∨
      t = s.active ∧ Context.Stays start s.busHeld (sig.get t) (s.get t).stage := by
  cases h with
  | bootstrap _ hs => exact nomatch hc.trans hs
  | active hb ht hA =>
    rcases hA.leads with ⟨-, hs⟩ | hl
    · exact .inr ⟨ht.trans (active_tick hb), hs⟩
    · exact absurd hc hl.ne
  | wake _ ht | rest _ ht => exact .inl ht

theorem Turn.pc_eq {c : Context} (h : s.Turn start sig t c) :
    c.pc = if (s.get t).stage = .update ∧ c.stage = .fetch then (sig.get t).nextPc
      else (s.get t).pc := by
  cases h with
  | bootstrap _ hs => rw [if_neg (by simp [hs])]
  | active _ _ hA => exact hA.pc_eq
  | wake => rw [if_neg (by simp)]
  | rest => rw [if_neg (Stage.not_update_and_fetch _)]

theorem Turn.of_done {c : Context} (h : s.Turn start sig t c) (hd : (s.get t).stage = .done) :
    c = s.get t := by
  cases h with
  | bootstrap _ hs | wake _ _ hs => exact nomatch hd.symm.trans hs
  | active _ _ hA =>
    rcases hA.leads with ⟨hc, -⟩ | hl
    · exact hc
    · rw [hd] at hl
      cases hl with
      | within h => cases h
  | rest => rfl

theorem Turn.finished_iff {c : Context} (h : s.Turn start sig t c)
    (hs : (s.get t).finished = true ↔ (s.get t).stage = .done) :
    c.finished = true ↔ c.stage = .done := by
  cases h with
  | bootstrap _ hi => simpa [hi] using hs
  | active _ _ hA => exact hA.finished_iff hs
  | wake _ _ hw => simpa [hw] using hs
  | rest => exact hs

theorem orderly_tick (s : Scheduler) (start : Bool) (sig : PerContext Signals) :
    s.Orderly start sig (s.tick start sig).1 (s.tick start sig).2 where
  bootstrap_iff := by rw [bootstrap_tick, Bool.and_eq_true_iff, isIdle_iff]
  path t := (s.turn_tick start sig t).leads
  held t hs := by
    rcases (s.turn_tick start sig t).held hs with ht | ⟨ht, hst⟩
    · exact .inr (.inl ht)
    · generalize (s.get t).stage = x at hst ⊢
      cases hst with
      | idle hn => exact .inr (.inr (.inl ⟨rfl, hn⟩))
      | fetch => exact .inr (.inr (.inr (.inl rfl)))
      | request hh =>
        have hb : s.active = .b := by simpa [busHeld] using (Bool.and_eq_true_iff.1 hh).1
        exact .inr (.inr (.inr (.inr (.inl ⟨rfl, ht.trans hb⟩))))
      | wait => exact .inr (.inr (.inr (.inr (.inr rfl))))
      | done => exact .inl rfl
  absorbing t := (s.turn_tick start sig t).of_done
  bootstrap hb t := by
    rw [bootstrap_tick] at hb
    rw [get_tick, if_pos hb]
  parked hb t ht := by
    have h := s.turn_tick start sig t
    generalize (s.tick start sig).1.get t = c at h ⊢
    cases h with
    | bootstrap hb' => exact absurd (hb.symm.trans hb') Bool.false_ne_true
    | active _ ht' => exact absurd ht' ht
    | wake _ _ hs hl => rw [if_pos ⟨hs, hl⟩]
    | rest _ _ hn => rw [if_neg hn]
  pc t := (s.turn_tick start sig t).pc_eq
  awake ha := by
    cases hb : (s.tick start sig).2.bootstrap with
    | true =>
      rw [bootstrap_tick, Bool.and_eq_true_iff, isIdle_iff] at hb
      have hi : s.a.stage = .idle := hb.2 .a
      simp [hi]
    | false => exact ne_wait_of_active_a ((active_tick hb).symm.trans ha)

/-! ## All cycles -/

theorem after_concat (s : Scheduler) (inputs : List (Bool × PerContext Signals))
    (i : Bool × PerContext Signals) :
    s.after (inputs ++ [i]) = ((s.after inputs).tick i.1 i.2).1 := by
  simp [after]

theorem after_cons (s : Scheduler) (i : Bool × PerContext Signals)
    (inputs : List (Bool × PerContext Signals)) :
    s.after (i :: inputs) = (s.tick i.1 i.2).1.after inputs := rfl

/-- The stages that a context enters one after another. -/
def entered (t : ContextTag) : Scheduler → List (Bool × PerContext Signals) → List Stage
  | _, [] => []
  | s, i :: inputs =>
    let s' := (s.tick i.1 i.2).1
    if (s'.get t).stage = (s.get t).stage then entered t s' inputs
    else (s'.get t).stage :: entered t s' inputs

theorem isChain_entered (t : ContextTag) (s : Scheduler)
    (inputs : List (Bool × PerContext Signals)) :
    ((s.get t).stage :: s.entered t inputs).IsChain Stage.Leads ∧
      ((s.get t).stage :: s.entered t inputs).getLast? =
        some ((s.after inputs).get t).stage := by
  induction inputs generalizing s with
  | nil => exact ⟨.singleton _, rfl⟩
  | cons i inputs ih =>
    obtain ⟨hc, hl⟩ := ih (s.tick i.1 i.2).1
    rw [entered, after_cons]
    split
    · next hs => exact hs ▸ ⟨hc, hl⟩
    · next hs =>
      have hlead := ((s.orderly_tick i.1 i.2).path t).resolve_left hs
      exact ⟨.cons_cons hlead hc, by rwa [List.getLast?_cons_cons]⟩

/-- What the inputs so far tell about the contexts. -/
structure Settled (inputs : List (Bool × PerContext Signals)) (s : Scheduler) : Prop where
  idle_iff : ∀ t, (s.get t).stage = .idle ↔ ∀ i ∈ inputs, i.1 = false
  finished_iff : ∀ t, (s.get t).finished = true ↔ (s.get t).stage = .done

theorem settled_initial : initial.Settled [] where
  idle_iff t := by cases t <;> simp [initial, PerContext.both, PerContext.get, Context.initial]
  finished_iff t := by cases t <;> simp [initial, PerContext.both, PerContext.get, Context.initial]

theorem Settled.tick {inputs : List (Bool × PerContext Signals)} (h : s.Settled inputs)
    (start : Bool) (sig : PerContext Signals) :
    (s.tick start sig).1.Settled (inputs ++ [(start, sig)]) where
  finished_iff t := (s.turn_tick start sig t).finished_iff (h.finished_iff t)
  idle_iff t := by
    rw [List.forall_mem_append, List.forall_mem_singleton, ← h.idle_iff t]
    constructor
    · intro hi
      have hs : (s.get t).stage = .idle := by
        rcases (s.orderly_tick start sig).path t with hs | hl
        · exact hs.symm.trans hi
        · exact absurd hi hl.ne_idle
      refine ⟨hs, eq_false_of_ne_true fun hstart ↦ ?_⟩
      have hb := (s.orderly_tick start sig).bootstrap_iff.2
        ⟨hstart, fun u ↦ (h.idle_iff u).2 ((h.idle_iff t).1 hs)⟩
      rw [(s.orderly_tick start sig).bootstrap hb t] at hi
      cases hi
    · rintro ⟨hs, rfl⟩
      simp [get_tick, Context.advance, Context.wakes, hs]

theorem settled_after (inputs : List (Bool × PerContext Signals)) :
    (initial.after inputs).Settled inputs := by
  induction inputs using List.reverseRecOn with
  | nil => exact settled_initial
  | append_singleton inputs i ih =>
    rw [after_concat]
    exact ih.tick i.1 i.2

theorem Settled.done_iff {inputs : List (Bool × PerContext Signals)} (h : s.Settled inputs) :
    s.done = true ↔ ∀ t, (s.get t).stage = .done := by
  have ha : s.a.finished = true ↔ s.a.stage = .done := h.finished_iff .a
  have hb : s.b.finished = true ↔ s.b.stage = .done := h.finished_iff .b
  rw [done, Bool.and_eq_true_iff, ha, hb]
  exact ⟨fun hd t ↦ by cases t <;> [exact hd.1; exact hd.2], fun hd ↦ ⟨hd .a, hd .b⟩⟩

theorem get_after_of_done (hd : (s.get t).stage = .done)
    (inputs : List (Bool × PerContext Signals)) : (s.after inputs).get t = s.get t := by
  induction inputs using List.reverseRecOn with
  | nil => rfl
  | append_singleton inputs i ih =>
    rw [after_concat, ((s.after inputs).orderly_tick i.1 i.2).absorbing t (ih ▸ hd), ih]

/-- Whatever start lines and signals it is given, the scheduler keeps both contexts idle until the
first start, and from then on neither is idle again. Each context goes from its first fetch through
the stages in order, fetches anew after an update or is done, and is finished exactly when it is
done; so the scheduler is done when both are, and stays so. Every single cycle obeys the laws of
`Orderly`. -/
theorem keeps_order (inputs : List (Bool × PerContext Signals)) :
    (∀ t, ((initial.after inputs).get t).stage = .idle ↔ ∀ i ∈ inputs, i.1 = false) ∧
    (∀ t, (.idle :: initial.entered t inputs).IsChain Stage.Leads ∧
      (.idle :: initial.entered t inputs).getLast? =
        some ((initial.after inputs).get t).stage) ∧
    (∀ t, ((initial.after inputs).get t).finished = true ↔
      ((initial.after inputs).get t).stage = .done) ∧
    ((initial.after inputs).done = true ↔ ∀ t, ((initial.after inputs).get t).stage = .done) ∧
    ((initial.after inputs).done = true → ∀ later,
      (initial.after (inputs ++ later)).done = true) ∧
    ∀ start sig, (initial.after inputs).Orderly start sig
      ((initial.after inputs).tick start sig).1 ((initial.after inputs).tick start sig).2 := by
  have h := settled_after inputs
  have hidle (t : ContextTag) : (initial.get t).stage = .idle := by cases t <;> rfl
  refine ⟨h.idle_iff, fun t ↦ hidle t ▸ isChain_entered t initial inputs, h.finished_iff,
    h.done_iff, fun hd later ↦ ?_, orderly_tick _⟩
  rw [(settled_after (inputs ++ later)).done_iff]
  intro t
  have hs := h.done_iff.1 hd t
  rw [after, List.foldl_append, ← after, ← after, get_after_of_done hs, hs]

/-- An instruction that waits for nothing and returns. -/
example : initial.entered .a (.replicate 8 Core.prompt) =
    [.fetch, .decode, .request, .wait, .execute, .update, .done] := by decide

end Scheduler

end SimtMachine
