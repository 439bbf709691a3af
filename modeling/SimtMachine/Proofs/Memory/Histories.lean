import Mathlib.Data.List.Forall2
import Mathlib.Data.List.Induction
import SimtMachine.Proofs.Memory.Service

/-!
# Histories of a memory

Requesters place requests and take answers whenever they like, and the memory serves them in its
cycles. The requests in the order in which they are served, from cycle to cycle and within a cycle
from port to port, explain everything: the cells hold what these requests leave one after another,
and every answer is the one that the request has at its place in the order.
-/

namespace SimtMachine

variable {α : Type}

/-! ## Served requests -/

/-- A request that was served at a port, with the answer that was put there. -/
structure Served (α : Type) where
  port : Nat
  request : Request α
  answer : α
deriving DecidableEq

/-- What was served at a port, told from the port before and after. -/
def Port.served? (k : Nat) (before after : Port α) : Option (Served α) :=
  if after.isPending then none
  else before.pending.bind fun r ↦ after.ready.map fun v ↦ ⟨k, r, v⟩

/-- What was served at a list of ports, in their order; the first has the number `k`. -/
def servedBetween (k : Nat) (before after : List (Port α)) : List (Served α) :=
  ((before.zip after).zipIdx k).filterMap fun x ↦ Port.served? x.2 x.1.1 x.1.2

/-- The requests that wait at a list of ports, in their order; the first has the number `k`. -/
def waitingFrom (k : Nat) (ports : List (Port α)) : List (Nat × Request α) :=
  (ports.zipIdx k).filterMap fun x ↦ x.1.pending.map (x.2, ·)

/-- Every request is answered from the content that those before it leave of `m`. -/
def AnsweredInTurn : Image α → List (Served α) → Prop
  | _, [] => True
  | m, e :: es => e.answer = e.request.answer m ∧ AnsweredInTurn (e.request.apply m) es

variable {k : Nat} {m : Image α} {p q : Port α} {ps qs : List (Port α)} {e : Served α}
  {es es' : List (Served α)}

theorem Port.served?_self : served? k p p = none := by
  cases hp : p.pending <;> simp [served?, isPending, hp]

theorem Port.served?_answered {r : Request α} (hp : p.pending = some r) (v : α) :
    served? k p (answered v) = some ⟨k, r, v⟩ := by
  simp [served?, answered, isPending, hp]

theorem Port.served?_eq_some : served? k p q = some e ↔
    q.pending = none ∧ p.pending = some e.request ∧ q.ready = some e.answer ∧ e.port = k := by
  obtain ⟨j, r, v⟩ := e
  cases hq : q.pending with
  | some r' => simp [served?, isPending, hq]
  | none =>
    cases hp : p.pending <;> cases hr : q.ready <;> simp [served?, isPending, hq, hp, hr]
    grind

@[simp] theorem servedBetween_nil (qs : List (Port α)) : servedBetween k [] qs = [] := rfl

@[simp] theorem servedBetween_cons :
    servedBetween k (p :: ps) (q :: qs) =
      (Port.served? k p q).toList ++ servedBetween (k + 1) ps qs := by
  simp only [servedBetween, List.zip_cons_cons, List.zipIdx_cons, List.filterMap_cons]
  cases Port.served? k p q <;> rfl

@[simp] theorem waitingFrom_nil : waitingFrom k ([] : List (Port α)) = [] := rfl

@[simp] theorem waitingFrom_cons :
    waitingFrom k (p :: ps) = (p.pending.map (k, ·)).toList ++ waitingFrom (k + 1) ps := by
  simp only [waitingFrom, List.zipIdx_cons, List.filterMap_cons]
  cases p.pending <;> rfl

theorem mem_servedBetween : e ∈ servedBetween 0 ps qs ↔
    ∃ p q, ps[e.port]? = some p ∧ qs[e.port]? = some q ∧ Port.served? e.port p q = some e := by
  simp only [servedBetween, List.mem_filterMap, Prod.exists, List.mk_mem_zipIdx_iff_getElem?,
    List.getElem?_zip_eq_some]
  constructor
  · rintro ⟨p, q, k, ⟨hp, hq⟩, he⟩
    obtain rfl := (Port.served?_eq_some.1 he).2.2.2
    exact ⟨p, q, hp, hq, he⟩
  · rintro ⟨p, q, hp, hq, he⟩
    exact ⟨p, q, e.port, ⟨hp, hq⟩, he⟩

theorem answeredInTurn_append : AnsweredInTurn m (es ++ es') ↔
    AnsweredInTurn m es ∧ AnsweredInTurn (Request.applyAll m (es.map Served.request)) es' := by
  induction es generalizing m with
  | nil => simp [AnsweredInTurn, Request.applyAll]
  | cons e es ih =>
    simp only [List.cons_append, AnsweredInTurn, ih, and_assoc, List.map_cons,
      Request.applyAll_cons]

/-! ## A pass over the ports -/

/-- A pass from `s` to `s'` over ports, the first of which has the number `k`. -/
structure Pass.Covers (s s' : Pass α) (k : Nat) (before after : List (Port α)) : Prop where
  /-- the first requests that wait are served, as many as channels are free -/
  first : (servedBetween k before after).map (fun e ↦ (e.port, e.request)) =
    (waitingFrom k before).take s.free
  answered : AnsweredInTurn s.cells (servedBetween k before after)
  cells_eq : s'.cells =
    Request.applyAll s.cells ((servedBetween k before after).map Served.request)
  free_eq : s'.free = s.free - before.countP Port.isPending
  ports : List.Forall₂ (fun p q ↦ q = p ∨ ∃ r v, p.pending = some r ∧ q = .answered v)
    before after

variable {s s' : Pass α}

theorem Pass.Covers.skip (h : s.Covers s' (k + 1) ps qs) (hn : s.free ≠ 0 → p.pending = none) :
    s.Covers s' k (p :: ps) (p :: qs) := by
  have hs : servedBetween k (p :: ps) (p :: qs) = servedBetween (k + 1) ps qs := by
    rw [servedBetween_cons, Port.served?_self]
    rfl
  refine ⟨?_, hs ▸ h.answered, hs ▸ h.cells_eq, ?_, .cons (.inl rfl) h.ports⟩
  · rw [hs, h.first, waitingFrom_cons]
    by_cases hf : s.free = 0
    · simp [hf]
    · simp [hn hf]
  · rw [h.free_eq, List.countP_cons]
    by_cases hf : s.free = 0
    · simp [hf]
    · simp [Port.isPending, hn hf]

theorem Pass.Covers.serve {r : Request α} {free : Nat} (hr : p.pending = some r)
    (hf : s.free = free + 1)
    (h : Pass.Covers ⟨r.apply s.cells, free⟩ s' (k + 1) ps qs) :
    s.Covers s' k (p :: ps) (.answered (r.answer s.cells) :: qs) := by
  have hs : servedBetween k (p :: ps) (.answered (r.answer s.cells) :: qs) =
      ⟨k, r, r.answer s.cells⟩ :: servedBetween (k + 1) ps qs := by
    rw [servedBetween_cons, Port.served?_answered hr]
    rfl
  refine ⟨?_, ?_, ?_, ?_, .cons (.inr ⟨r, _, hr, rfl⟩) h.ports⟩
  · rw [hs, List.map_cons, h.first, waitingFrom_cons, hr, hf]
    rfl
  · rw [hs]
    exact ⟨rfl, h.answered⟩
  · rw [hs, List.map_cons, Request.applyAll_cons]
    exact h.cells_eq
  · rw [h.free_eq, List.countP_cons, hf]
    simp [Port.isPending, hr]

theorem Pass.covers_sweep (s : Pass α) (k : Nat) (ps : List (Port α)) :
    s.Covers (sweep visit s ps).1 k ps (sweep visit s ps).2 := by
  induction ps generalizing s k with
  | nil => exact ⟨by simp [sweep], trivial, rfl, rfl, .nil⟩
  | cons p ps ih =>
    rw [sweep_cons]
    rcases s.visit_cases p with ⟨hv, hn⟩ | ⟨r, free, hr, hf, hv⟩
    · rw [hv]
      exact (ih s (k + 1)).skip hn
    · rw [hv]
      exact (ih _ (k + 1)).serve hr hf

theorem port_answered (he : e ∈ servedBetween 0 ps qs) :
    qs[e.port]? = some (.answered e.answer) := by
  obtain ⟨p, q, -, hq, hs⟩ := mem_servedBetween.1 he
  obtain ⟨hn, -, hr, -⟩ := Port.served?_eq_some.1 hs
  obtain ⟨pending, ready⟩ := q
  rw [hq, Port.answered, ← hn, ← hr]

theorem Pass.Covers.port_kept (h : s.Covers s' 0 ps qs)
    (hk : ∀ e ∈ servedBetween 0 ps qs, e.port ≠ k) : qs[k]? = ps[k]? := by
  have hl := h.ports.length_eq
  by_cases hlt : k < ps.length
  · have hp : ps[k]? = some ps[k] := List.getElem?_eq_getElem hlt
    have hq : qs[k]? = some qs[k] := List.getElem?_eq_getElem (hl ▸ hlt)
    rcases h.ports.get hlt (hl ▸ hlt) with hv | ⟨r, v, hr, hv⟩
    · rw [hp, hq]
      exact congrArg some hv
    · have hs : Port.served? k ps[k] qs[k] = some ⟨k, r, v⟩ := by
        rw [show qs[k] = .answered v from hv]
        exact Port.served?_answered hr v
      exact absurd rfl (hk ⟨k, r, v⟩ (mem_servedBetween.2 ⟨_, _, hp, hq, hs⟩))
  · rw [List.getElem?_eq_none (Nat.le_of_not_lt hlt),
      List.getElem?_eq_none (hl ▸ Nat.le_of_not_lt hlt)]

/-! ## Events -/

/-- A memory and the ports at which it is asked. -/
structure Exchange (α : Type) where
  memory : Memory α
  ports : List (Port α)

/-- What happens at a memory and its ports: a requester places a request or takes an answer, or the
memory has its turn in a cycle. -/
inductive Exchange.Event (α : Type)
  | issue (port : Nat) (r : Request α)
  | take (port : Nat)
  | service (cycle : Nat)

namespace Exchange

def perform (x : Exchange α) : Event α → Exchange α
  | .issue k r => { x with ports := x.ports.modify k fun _ ↦ .issue r }
  | .take k => { x with ports := x.ports.modify k Port.taken }
  | .service cycle =>
    let (memory, ports, _) := x.memory.service cycle x.ports
    ⟨memory, ports⟩

def after (x : Exchange α) (events : List (Event α)) : Exchange α := events.foldl perform x

/-- The requests that an event serves. -/
def serves (x : Exchange α) : Event α → List (Served α)
  | .issue .. | .take .. => []
  | .service cycle => servedBetween 0 x.ports (x.memory.service cycle x.ports).2.1

/-- The requests that are served in the course of events, in the order of the services and within a
service in the order of the ports. -/
def history (x : Exchange α) : List (Event α) → List (Served α)
  | [] => []
  | event :: events => x.serves event ++ (x.perform event).history events

/-- The answer of the last request that was served at a port. -/
def lastAnswer (k : Nat) (es : List (Served α)) : Option α :=
  (es.filter fun e ↦ e.port = k).getLast?.map Served.answer

/-- In a cycle of service the first requests that wait are served, one for each channel, and no
other port is touched. -/
structure ServesFirst (x : Exchange α) (channels cycle : Nat) : Prop where
  first : (x.serves (.service cycle)).map (fun e ↦ (e.port, e.request)) =
    (waitingFrom 0 x.ports).take channels
  count : (x.memory.service cycle x.ports).2.2 = min channels (x.ports.countP Port.isPending)
  answered : ∀ e ∈ x.serves (.service cycle),
    (x.memory.service cycle x.ports).2.1[e.port]? = some (.answered e.answer)
  kept : ∀ k, (∀ e ∈ x.serves (.service cycle), e.port ≠ k) →
    (x.memory.service cycle x.ports).2.1[k]? = x.ports[k]?

variable {x : Exchange α} {cycle : Nat} {event : Event α} {events : List (Event α)}

theorem service_of_not_servesAt (h : x.memory.servesAt cycle = false) :
    x.memory.service cycle x.ports = (x.memory, x.ports, 0) := by
  simp [Memory.service, Memory.serviceWith, h]

theorem serves_of_not_servesAt (h : x.memory.servesAt cycle = false) :
    x.serves (.service cycle) = [] := by
  rw [serves, service_of_not_servesAt h, List.eq_nil_iff_forall_not_mem]
  intro e he
  obtain ⟨p, q, hp, hq, hs⟩ := mem_servedBetween.1 he
  obtain rfl : p = q := Option.some.inj (hp.symm.trans hq)
  rw [Port.served?_self] at hs
  cases hs

/-- A cycle of service is a pass over the ports with all channels free. -/
theorem exists_covers (h : x.memory.servesAt cycle = true) :
    ∃ s : Pass α, Pass.Covers ⟨x.memory.cells, x.memory.channels⟩ s 0 x.ports
        (x.memory.service cycle x.ports).2.1 ∧
      (x.memory.service cycle x.ports).1.cells = s.cells ∧
      (x.memory.service cycle x.ports).2.2 = x.memory.channels - s.free := by
  have hc := Pass.covers_sweep ⟨x.memory.cells, x.memory.channels⟩ 0 x.ports
  simp only [Memory.service, Memory.serviceWith, h, if_true]
  exact ⟨_, hc, rfl, rfl⟩

theorem servesFirst (h : x.memory.servesAt cycle = true) :
    x.ServesFirst x.memory.channels cycle := by
  obtain ⟨s, hc, -, hn⟩ := exists_covers h
  refine ⟨hc.first, ?_, fun e ↦ port_answered, fun k ↦ hc.port_kept⟩
  rw [hn, hc.free_eq, Nat.sub_sub_eq_min]

/-! ## Steps -/

/-- What an event serves accounts for what it does to the cells. -/
theorem perform_cells (x : Exchange α) (event : Event α) :
    (x.perform event).memory.cells =
        Request.applyAll x.memory.cells ((x.serves event).map Served.request) ∧
      AnsweredInTurn x.memory.cells (x.serves event) := by
  cases event with
  | issue | take => exact ⟨rfl, trivial⟩
  | service cycle =>
    by_cases h : x.memory.servesAt cycle = true
    · obtain ⟨s, hc, hs, -⟩ := exists_covers h
      exact ⟨hs.trans hc.cells_eq, hc.answered⟩
    · rw [Bool.not_eq_true] at h
      rw [serves_of_not_servesAt h, perform, service_of_not_servesAt h]
      exact ⟨rfl, trivial⟩

theorem perform_settings (x : Exchange α) (event : Event α) :
    (x.perform event).memory.channels = x.memory.channels ∧
      (x.perform event).memory.interval = x.memory.interval := by
  cases event with
  | issue | take => exact ⟨rfl, rfl⟩
  | service cycle => exact x.memory.settings_serviceWith cycle (sweep Pass.visit) x.ports

theorem lastAnswer_append (k : Nat) (es es' : List (Served α)) :
    lastAnswer k (es ++ es') = (lastAnswer k es').or (lastAnswer k es) := by
  rw [lastAnswer, List.filter_append, List.getLast?_append, Option.map_or]
  rfl

/-- An event leaves at a port no answer but that of the request that it serves there, or the one
that was there before. -/
theorem ready_perform (x : Exchange α) (event : Event α) (k : Nat) :
    (x.perform event).ports[k]?.bind Port.ready = none ∨
      (x.perform event).ports[k]?.bind Port.ready =
        (lastAnswer k (x.serves event)).or (x.ports[k]?.bind Port.ready) := by
  have hmodify (f : Port α → Port α) (hf : ∀ p, (f p).ready = none) (j : Nat) :
      (x.ports.modify j f)[k]?.bind Port.ready = none ∨
        (x.ports.modify j f)[k]?.bind Port.ready = x.ports[k]?.bind Port.ready := by
    rw [List.getElem?_modify]
    by_cases hj : j = k
    · refine .inl ?_
      cases x.ports[k]? <;> simp [hj, hf]
    · exact .inr (by simp [hj])
  cases event with
  | issue j r => exact hmodify _ (fun _ ↦ rfl) j
  | take j => exact hmodify _ (fun _ ↦ rfl) j
  | service cycle =>
    refine .inr ?_
    by_cases h : x.memory.servesAt cycle = true
    · have hs := servesFirst h
      cases hl : ((x.serves (.service cycle)).filter fun e ↦ e.port = k).getLast? with
      | none =>
        rw [lastAnswer, hl]
        refine congrArg (·.bind Port.ready) (hs.kept k fun e he hk ↦ ?_)
        rw [List.getLast?_eq_none_iff, List.filter_eq_nil_iff] at hl
        exact hl e he (decide_eq_true hk)
      | some e =>
        obtain ⟨he, hk⟩ := List.mem_filter.1 (List.mem_of_getLast? hl)
        have ha := hs.answered e he
        rw [of_decide_eq_true hk] at ha
        rw [lastAnswer, hl]
        exact congrArg (·.bind Port.ready) ha
    · rw [Bool.not_eq_true] at h
      rw [serves_of_not_servesAt h, perform, service_of_not_servesAt h]
      rfl

/-! ## Runs -/

theorem after_concat (x : Exchange α) (events : List (Event α)) (event : Event α) :
    x.after (events ++ [event]) = (x.after events).perform event := by
  simp [after]

theorem history_concat (x : Exchange α) (events : List (Event α)) (event : Event α) :
    x.history (events ++ [event]) = x.history events ++ (x.after events).serves event := by
  induction events generalizing x with
  | nil => simp [history, after]
  | cons e events ih =>
    rw [List.cons_append, history, ih, history, List.append_assoc]
    rfl

theorem after_cells (x : Exchange α) (events : List (Event α)) :
    (x.after events).memory.cells =
        Request.applyAll x.memory.cells ((x.history events).map Served.request) ∧
      AnsweredInTurn x.memory.cells (x.history events) := by
  induction events using List.reverseRecOn with
  | nil => exact ⟨rfl, trivial⟩
  | append_singleton events event ih =>
    obtain ⟨hc, ht⟩ := (x.after events).perform_cells event
    rw [ih.1] at hc ht
    rw [after_concat, history_concat, List.map_append, Request.applyAll_append]
    exact ⟨hc, answeredInTurn_append.2 ⟨ih.2, ht⟩⟩

theorem after_settings (x : Exchange α) (events : List (Event α)) :
    (x.after events).memory.channels = x.memory.channels ∧
      (x.after events).memory.interval = x.memory.interval := by
  induction events using List.reverseRecOn with
  | nil => exact ⟨rfl, rfl⟩
  | append_singleton events event ih =>
    obtain ⟨hc, hi⟩ := (x.after events).perform_settings event
    rw [after_concat]
    exact ⟨hc.trans ih.1, hi.trans ih.2⟩

/-- An answer that is still at a port is that of the last request served there. -/
theorem ready_after (x : Exchange α) (events : List (Event α)) (k : Nat) :
    (x.after events).ports[k]?.bind Port.ready = none ∨
      (x.after events).ports[k]?.bind Port.ready =
        (lastAnswer k (x.history events)).or (x.ports[k]?.bind Port.ready) := by
  induction events using List.reverseRecOn with
  | nil => exact .inr rfl
  | append_singleton events event ih =>
    rw [after_concat, history_concat, lastAnswer_append]
    rcases (x.after events).ready_perform event k with hn | hs
    · exact .inl hn
    · rw [hs]
      cases lastAnswer k ((x.after events).serves event) with
      | some v => exact .inr rfl
      | none => simpa using ih

/-- A memory does what the requests in the order of their service do one after another: they make up
the content of the cells, and each has the answer that it finds at its place. A service takes the
first requests that wait. -/
theorem linearizable [Inhabited α] {init : Array α} {channels interval : Nat} {m : Memory α}
    (h : Memory.create init channels interval = .ok m) (ports : List (Port α))
    (events : List (Event α)) :
    let x := (Exchange.mk m ports).after events
    let served := (Exchange.mk m ports).history events
    let content := fun es : List (Served α) ↦
      Request.applyAll (Image.ofArray init) (es.map Served.request)
    x.memory.cells = content served ∧
      (∀ before e rest, served = before ++ e :: rest →
        (∀ a, e.request = .read a → e.answer = (content before).read a) ∧
          ∀ a v, e.request = .write a v → e.answer = v) ∧
      (∀ k v, x.ports[k]?.bind Port.ready = some v →
        (lastAnswer k served).or (ports[k]?.bind Port.ready) = some v) ∧
      ∀ cycle, (interval ∣ cycle → x.ServesFirst channels cycle) ∧
        (¬interval ∣ cycle → x.memory.service cycle x.ports = (x.memory, x.ports, 0)) := by
  intro x served content
  have hm := Memory.cells_of_create h
  obtain ⟨hchannels, hinterval⟩ := Memory.settings_of_create h
  obtain ⟨hc, ht⟩ := (Exchange.mk m ports).after_cells events
  obtain ⟨hxc, hxi⟩ := (Exchange.mk m ports).after_settings events
  simp only [hm, hchannels, hinterval] at hc ht hxc hxi
  change AnsweredInTurn _ served at ht
  refine ⟨hc, fun before e rest hs ↦ ?_, fun k v hv ↦ ?_, fun cycle ↦ ?_⟩
  · have hturn : AnsweredInTurn (Image.ofArray init) (before ++ e :: rest) := hs ▸ ht
    have he : e.answer = e.request.answer (content before) := (answeredInTurn_append.1 hturn).2.1
    constructor
    · intro a ha
      rw [he, ha]
      rfl
    · intro a v ha
      rw [he, ha]
      rfl
  · rcases (Exchange.mk m ports).ready_after events k with hn | hr
    · exact absurd (hn.symm.trans hv) nofun
    · exact hr.symm.trans hv
  · have hs : x.memory.servesAt cycle = true ↔ interval ∣ cycle := by
      rw [Memory.servesAt, hxi, beq_iff_eq, Nat.dvd_iff_mod_eq_zero]
    constructor
    · intro hi
      exact hxc ▸ servesFirst (hs.2 hi)
    · intro hi
      exact service_of_not_servesAt (Bool.eq_false_iff.2 (mt hs.1 hi))

/-- Three ports at a memory with one channel that serves in every other cycle. -/
def contended : Exchange UInt8 where
  memory := ⟨Image.ofArray #[7], 1, 2, Nat.one_pos, Nat.two_pos⟩
  ports := List.replicate 3 Port.quiet

def contention : List (Event UInt8) := [
  .issue 0 (.write 3 9), .issue 1 (.read 3), .service 0, .service 1, .take 0,
  .issue 0 (.write 3 4), .issue 2 (.read 0), .service 2, .service 4, .service 6]

theorem history_contention : contended.history contention =
    [⟨0, .write 3 9, 9⟩, ⟨0, .write 3 4, 4⟩, ⟨1, .read 3, 4⟩, ⟨2, .read 0, 7⟩] := by
  decide +kernel

theorem linearizable_contention : Memory.create #[7] 1 2 = .ok contended.memory ∧
    (contended.after contention).memory.cells = ((Image.ofArray #[7]).write 3 9).write 3 4 ∧
    (4 : UInt8) = (((Image.ofArray #[7]).write 3 9).write 3 4).read 3 ∧
    (contended.after contention).ServesFirst 1 8 := by
  have hm : Memory.create #[7] 1 2 = .ok contended.memory := rfl
  obtain ⟨hc, ha, -, hs⟩ := linearizable hm contended.ports contention
  have hcells : (contended.after contention).memory.cells = Request.applyAll (Image.ofArray #[7])
      ((contended.history contention).map Served.request) := hc
  rw [history_contention] at hcells
  have hread := (ha [⟨0, .write 3 9, 9⟩, ⟨0, .write 3 4, 4⟩] ⟨1, .read 3, 4⟩ [⟨2, .read 0, 7⟩]
    history_contention).1 3 rfl
  simp only [List.map_cons, List.map_nil, Request.applyAll, List.foldl_cons, List.foldl_nil,
    Request.apply] at hread
  exact ⟨hm, hcells, hread, (hs 8).1 (by decide)⟩

end Exchange

end SimtMachine
