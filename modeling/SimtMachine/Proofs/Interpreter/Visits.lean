import SimtMachine.Interpreter
import SimtMachine.Proofs.Lockstep.Accesses

/-!
# Visits of a sequential run

The sequential interpreter with a list of all that each thread does. If no thread loads what any
thread stores, a thread does the same on the initial data as in its turn, which frees its visits
from the order of the threads.
-/

namespace SimtMachine.Interpreter

/-- An instruction that a thread executes, and the thread before it. -/
structure Visit where
  pc : Nat
  instruction : Instruction
  thread : Thread

/-- The request that the thread makes of data memory, if it makes one. -/
def Visit.request (v : Visit) : Option (Request UInt8) :=
  v.thread.request v.instruction

/-- All requests made in the visits. -/
def requests (vs : List Visit) : List (Request UInt8) :=
  vs.filterMap Visit.request

/-- Runs a thread and lists its visits. -/
def traceThread (program : Array UInt16) (tid : Nat) :
    (fuel pc : Nat) → Thread → Image UInt8 → Except Error (Image UInt8 × List Visit)
  | fuel, pc, t, m =>
    match program[pc]?, fuel with
    | none, _ => .error (.pastProgram tid pc)
    | some _, 0 => .error (.tooManySteps tid)
    | some w, fuel + 1 =>
      let i := decode w
      if !i.op.isMapped then .error (.unmapped tid w pc)
      else if i.op.returns then .ok (m, [⟨pc, i, t⟩])
      else
        let (t', m') := t.execute i m
        (traceThread program tid fuel (nextPc i t.flags pc) t' m').map fun (m, vs) ↦
          (m, ⟨pc, i, t⟩ :: vs)

/-- Thread number `tid` before its first instruction. -/
def entrant (dim : UInt8) (tid : Nat) : Thread :=
  .seeded (UInt8.ofNat (tid / dim.toNat)) dim (UInt8.ofNat (tid % dim.toNat))

/-- Runs threads in ascending order and lists the visits of each. -/
def traceThreads (program : Array UInt16) (dim : UInt8) :
    (count tid : Nat) → Image UInt8 → Except Error (Image UInt8 × List (List Visit))
  | 0, _, m => .ok (m, [])
  | count + 1, tid, m =>
    match traceThread program tid stepLimit 0 (entrant dim tid) m with
    | .error e => .error e
    | .ok (m', vs) =>
      (traceThreads program dim count (tid + 1) m').map fun (m, vss) ↦ (m, vs :: vss)

/-- Runs a kernel and lists the visits of each thread. -/
def trace (program : Array UInt16) (data : Array UInt8) (threads : Nat) (dim : UInt8) :
    Except Error (Image UInt8 × List (List Visit)) :=
  if dim = 0 then .error .emptyBlocks
  else if data.size > addressSpace then .error .dataTooLarge
  else traceThreads program dim threads 0 (Image.ofArray data)

/-- The visits of each thread, in the order of the threads. -/
def visits (program : Array UInt16) (data : Array UInt8) (threads : Nat) (dim : UInt8) :
    List (List Visit) :=
  match trace program data threads dim with
  | .error _ => []
  | .ok (_, vss) => vss

/-! ## The trace belongs to the run -/

variable {program : Array UInt16} {dim : UInt8} {data m m' : Image UInt8} {tid fuel pc : Nat}
  {t : Thread} {vs : List Visit} {vss : List (List Visit)}

theorem runThread_eq (program : Array UInt16) (tid fuel pc : Nat) (t : Thread) (m : Image UInt8) :
    runThread program tid fuel pc t m =
      (traceThread program tid fuel pc t m).map fun (m, vs) ↦ (m, vs.length) := by
  induction fuel generalizing pc t m with
  | zero =>
    unfold runThread traceThread
    cases program[pc]? <;> rfl
  | succ fuel ih =>
    unfold runThread traceThread
    cases program[pc]? with
    | none => rfl
    | some w =>
      simp only [ih]
      split
      · rfl
      · split
        · rfl
        · cases traceThread program tid fuel _ _ _ <;> rfl

theorem runThreads_eq (program : Array UInt16) (dim : UInt8) (count tid : Nat) (m : Image UInt8) :
    runThreads program dim count tid m =
      (traceThreads program dim count tid m).map fun (m, vss) ↦ (m, vss.flatten.length) := by
  induction count generalizing tid m with
  | zero => rfl
  | succ count ih =>
    rw [runThreads, traceThreads]
    simp only [runThread_eq, ih, entrant]
    cases traceThread program tid stepLimit 0 _ m with
    | error => rfl
    | ok r =>
      cases h : traceThreads program dim count (tid + 1) r.1 with
      | error => simp [Except.map, h]
      | ok => simp [Except.map, h]

/-- The trace of a run is what the run does, visit by visit. -/
theorem run_eq (program : Array UInt16) (data : Array UInt8) (threads : Nat) (dim : UInt8) :
    run program data threads dim =
      (trace program data threads dim).map fun (m, vss) ↦ (m, vss.flatten.length) := by
  rw [run, trace]
  split
  · rfl
  · split
    · rfl
    · exact runThreads_eq _ _ _ _ _

/-- A run that comes to an end has visits, and they lead to the same memory. -/
theorem traceThreads_of_run {data : Array UInt8} {threads count : Nat} {final : Image UInt8}
    (h : run program data threads dim = .ok (final, count)) :
    traceThreads program dim threads 0 (Image.ofArray data) =
      .ok (final, visits program data threads dim) := by
  rw [run_eq] at h
  cases hq : trace program data threads dim with
  | error => simp [hq, Except.map] at h
  | ok r =>
    have hf : r.1 = final := by
      simp only [hq, Except.map, Except.ok.injEq, Prod.mk.injEq] at h
      exact h.1
    rw [visits, hq, ← hf]
    rw [trace] at hq
    split at hq
    · simp at hq
    · split at hq
      · simp at hq
      · exact hq

/-! ## Memory -/

theorem requests_cons (v : Visit) (vs : List Visit) :
    requests (v :: vs) = v.request.toList ++ requests vs := by
  cases h : v.request <;> simp [requests, h]

/-- A traced thread returns at once, or executes one instruction and goes on. -/
theorem traceThread_cases (h : traceThread program tid fuel pc t m = .ok (m', vs)) :
    ∃ w fuel', program[pc]? = some w ∧ fuel = fuel' + 1 ∧
      ((decode w).op.returns = true ∧ m' = m ∧ vs = [⟨pc, decode w, t⟩] ∨
        (decode w).op.returns = false ∧ ∃ vs', vs = ⟨pc, decode w, t⟩ :: vs' ∧
          traceThread program tid fuel' (nextPc (decode w) t.flags pc) (t.execute (decode w) m).1
            (t.execute (decode w) m).2 = .ok (m', vs')) := by
  unfold traceThread at h
  split at h
  · simp at h
  · simp at h
  · next w fuel' hw =>
    refine ⟨w, fuel', hw, rfl, ?_⟩
    dsimp only at h
    split at h
    · simp at h
    · split at h
      · next hr =>
        cases h
        exact .inl ⟨hr, rfl, rfl⟩
      · next hr =>
        refine .inr ⟨eq_false_of_ne_true hr, ?_⟩
        cases hq : traceThread program tid fuel' (nextPc (decode w) t.flags pc)
            (t.execute (decode w) m).1 (t.execute (decode w) m).2 with
        | error => simp [hq, Except.map] at h
        | ok r =>
          simp only [hq, Except.map, Except.ok.injEq, Prod.mk.injEq] at h
          obtain ⟨rfl, rfl⟩ := h
          exact ⟨_, rfl, rfl⟩

theorem traceThread_memory (h : traceThread program tid fuel pc t m = .ok (m', vs)) :
    m' = Request.applyAll m (requests vs) := by
  induction fuel generalizing pc t m vs with
  | zero =>
    obtain ⟨_, _, _, hz, -⟩ := traceThread_cases h
    simp at hz
  | succ fuel ih =>
    obtain ⟨w, _, hw, hz, ⟨hr, rfl, rfl⟩ | ⟨-, vs', rfl, h⟩⟩ := traceThread_cases h
    · rw [requests_cons, Visit.request, Thread.request_of_returns hr]
      rfl
    · cases hz
      rw [ih h, requests_cons, Request.applyAll_append, Visit.request, Thread.execute_memory]

theorem traceThreads_cases {count : Nat}
    (h : traceThreads program dim (count + 1) tid m = .ok (m', vss)) :
    ∃ mid vs vss', vss = vs :: vss' ∧
      traceThread program tid stepLimit 0 (entrant dim tid) m = .ok (mid, vs) ∧
      traceThreads program dim count (tid + 1) mid = .ok (m', vss') := by
  rw [traceThreads] at h
  split at h
  · simp at h
  · next mid vs hv =>
    cases hq : traceThreads program dim count (tid + 1) mid with
    | error => simp [hq, Except.map] at h
    | ok r =>
      simp only [hq, Except.map, Except.ok.injEq, Prod.mk.injEq] at h
      obtain ⟨rfl, rfl⟩ := h
      exact ⟨mid, vs, _, rfl, hv, hq⟩

theorem requests_append (vs vs' : List Visit) :
    requests (vs ++ vs') = requests vs ++ requests vs' :=
  List.filterMap_append

theorem traceThreads_memory {count : Nat}
    (h : traceThreads program dim count tid m = .ok (m', vss)) :
    m' = Request.applyAll m (requests vss.flatten) := by
  induction count generalizing tid m vss with
  | zero =>
    cases h
    rfl
  | succ count ih =>
    obtain ⟨mid, vs, vss', rfl, hv, h⟩ := traceThreads_cases h
    rw [ih h, traceThread_memory hv, List.flatten_cons, requests_append, Request.applyAll_append]

/-! ## Courses -/

/-- What a thread does from address `pc` on if all its loads find the initial data. -/
inductive Course (program : Array UInt16) (data : Image UInt8) :
    Nat → Thread → List Visit → Prop
  | ret {pc : Nat} {t : Thread} {w : UInt16} : program[pc]? = some w →
      (decode w).op.returns = true → Course program data pc t [⟨pc, decode w, t⟩]
  | next {pc : Nat} {t : Thread} {w : UInt16} {vs : List Visit} : program[pc]? = some w →
      (decode w).op.returns = false →
      Course program data (nextPc (decode w) t.flags pc) (t.execute (decode w) data).1 vs →
      Course program data pc t (⟨pc, decode w, t⟩ :: vs)

/-- The loads among the requests find the same in both memories, and no store changes that. -/
structure Undisturbed (rs : List (Request UInt8)) (m m' : Image UInt8) : Prop where
  loads : ∀ a, .read a ∈ rs → m.read a = m'.read a
  stores : ∀ a v, .write a v ∈ rs → .read a ∉ rs

theorem Undisturbed.left {rs rs' : List (Request UInt8)} (h : Undisturbed (rs ++ rs') m data) :
    Undisturbed rs m data where
  loads a ha := h.loads a (List.mem_append_left _ ha)
  stores a v hv ha := h.stores a v (List.mem_append_left _ hv) (List.mem_append_left _ ha)

theorem Undisturbed.right {rs rs' : List (Request UInt8)} (h : Undisturbed (rs ++ rs') m data) :
    Undisturbed rs' (Request.applyAll m rs) data where
  loads a ha := by
    rw [Request.read_applyAll_of_not_mem fun v hv ↦
      h.stores a v (List.mem_append_left _ hv) (List.mem_append_right _ ha)]
    exact h.loads a (List.mem_append_right _ ha)
  stores a v hv ha := h.stores a v (List.mem_append_right _ hv) (List.mem_append_right _ ha)

theorem course_of_traceThread (h : traceThread program tid fuel pc t m = .ok (m', vs))
    (hu : Undisturbed (requests vs) m data) : Course program data pc t vs := by
  induction fuel generalizing pc t m vs with
  | zero =>
    obtain ⟨_, _, _, hz, -⟩ := traceThread_cases h
    simp at hz
  | succ fuel ih =>
    obtain ⟨w, _, hw, hz, ⟨hr, rfl, rfl⟩ | ⟨hr, vs', rfl, h⟩⟩ := traceThread_cases h
    · exact .ret hw hr
    · cases hz
      rw [requests_cons] at hu
      have ht : (t.execute (decode w) m).1 = (t.execute (decode w) data).1 := by
        refine Thread.execute_thread_congr fun a ha ↦ hu.left.loads a ?_
        exact Option.mem_toList.2 ha
      have hc := ih h (Thread.execute_memory (decode w) t m ▸ hu.right)
      rw [ht] at hc
      exact .next hw hr hc

theorem courses_of_traceThreads {count i : Nat}
    (h : traceThreads program dim count tid m = .ok (m', vss))
    (hu : Undisturbed (requests vss.flatten) m data) (hi : vss[i]? = some vs) :
    Course program data 0 (entrant dim (tid + i)) vs := by
  induction count generalizing tid m vss i with
  | zero =>
    cases h
    simp at hi
  | succ count ih =>
    obtain ⟨mid, vs', vss', rfl, hv, h⟩ := traceThreads_cases h
    rw [List.flatten_cons, requests_append] at hu
    cases i with
    | zero =>
      cases hi
      exact course_of_traceThread hv hu.left
    | succ i =>
      have hc := ih h (traceThread_memory hv ▸ hu.right) hi
      rwa [Nat.add_right_comm] at hc

theorem length_of_traceThreads {count : Nat}
    (h : traceThreads program dim count tid m = .ok (m', vss)) : vss.length = count := by
  induction count generalizing tid m vss with
  | zero =>
    cases h
    rfl
  | succ count ih =>
    obtain ⟨mid, vs', vss', rfl, hv, h⟩ := traceThreads_cases h
    rw [List.length_cons, ih h]

end SimtMachine.Interpreter
