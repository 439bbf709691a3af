import SimtMachine.Proofs.Interpreter.Visits
import SimtMachine.Proofs.Lockstep.Accesses

/-!
# Blocks whose threads stay abreast

A block executes each instruction for all its threads at once, and the interpreter executes one
thread after another. If the threads of a block visit the same addresses, and nobody loads what
anybody stores, both come to the same visits: each thread takes its course.
-/

namespace SimtMachine

open SimtMachine.Interpreter (Visit Course Undisturbed)

namespace Interpreter

variable {program : Array UInt16} {data m : Image UInt8} {pc : Nat} {t : Thread} {w : UInt16}
  {vs : List Visit} {rs rs' : List (Request UInt8)}

/-- The thread makes the request on its course from address `pc`. -/
def Makes (program : Array UInt16) (data : Image UInt8) (pc : Nat) (t : Thread)
    (r : Request UInt8) : Prop :=
  ∃ vs, Course program data pc t vs ∧ r ∈ requests vs

theorem Course.eq_of_returns (h : Course program data pc t vs) (hw : program[pc]? = some w)
    (hr : (decode w).op.returns = true) : vs = [⟨pc, decode w, t⟩] := by
  cases h with
  | ret hw' =>
    rw [hw] at hw'
    cases hw'
    rfl
  | next hw' hn =>
    rw [hw] at hw'
    cases hw'
    simp [hr] at hn

theorem Course.of_not_returns (h : Course program data pc t vs) (hw : program[pc]? = some w)
    (hr : (decode w).op.returns = false) :
    ∃ vs', vs = ⟨pc, decode w, t⟩ :: vs' ∧
      Course program data (nextPc (decode w) t.flags pc) (t.execute (decode w) data).1 vs' := by
  cases h with
  | ret hw' hn =>
    rw [hw] at hw'
    cases hw'
    simp [hr] at hn
  | next hw' _ hc =>
    rw [hw] at hw'
    cases hw'
    exact ⟨_, rfl, hc⟩

theorem Course.exists_word (h : Course program data pc t vs) : ∃ w, program[pc]? = some w := by
  cases h with
  | ret hw => exact ⟨_, hw⟩
  | next hw => exact ⟨_, hw⟩

theorem Course.head_pc (h : Course program data pc t vs) : (vs.map Visit.pc).head? = some pc := by
  cases h <;> rfl

theorem Course.unique {vs' : List Visit} (h : Course program data pc t vs)
    (h' : Course program data pc t vs') : vs = vs' := by
  induction h generalizing vs' with
  | ret hw hr => exact (h'.eq_of_returns hw hr).symm
  | next hw hr _ ih =>
    obtain ⟨vs₁, rfl, h₁⟩ := h'.of_not_returns hw hr
    rw [ih h₁]

theorem not_makes_of_returns (hw : program[pc]? = some w) (hr : (decode w).op.returns = true)
    (r : Request UInt8) : ¬ Makes program data pc t r := by
  rintro ⟨vs, hc, hm⟩
  rw [hc.eq_of_returns hw hr, requests_cons, Visit.request, Thread.request_of_returns hr] at hm
  simp [requests] at hm

theorem makes_iff_of_not_returns (hw : program[pc]? = some w)
    (hr : (decode w).op.returns = false) (hc : Course program data pc t vs) (r : Request UInt8) :
    Makes program data pc t r ↔ t.request (decode w) = some r ∨
      Makes program data (nextPc (decode w) t.flags pc) (t.execute (decode w) data).1 r := by
  constructor
  · rintro ⟨vs, hc, hm⟩
    obtain ⟨vs', rfl, hc'⟩ := hc.of_not_returns hw hr
    rw [requests_cons, List.mem_append, Option.mem_toList] at hm
    rcases hm with hm | hm
    · exact .inl hm
    · exact .inr ⟨vs', hc', hm⟩
  · rintro (hm | ⟨vs', hc', hm⟩)
    · obtain ⟨vs', rfl, -⟩ := hc.of_not_returns hw hr
      refine ⟨_, hc, ?_⟩
      rw [requests_cons, List.mem_append, Option.mem_toList]
      exact .inl hm
    · refine ⟨_, .next hw hr hc', ?_⟩
      rw [requests_cons, List.mem_append]
      exact .inr hm

theorem Undisturbed.applyAll (h : Undisturbed rs m data) (hs : ∀ r ∈ rs', r ∈ rs) :
    Undisturbed rs (Request.applyAll m rs') data where
  loads a ha := by
    rw [Request.read_applyAll_of_not_mem fun v hv ↦ h.stores a v (hs _ hv) ha]
    exact h.loads a ha
  stores := h.stores

theorem Undisturbed.sweep_execute {i : Instruction} {ts : List Thread} (h : Undisturbed rs m data)
    (hs : ∀ t ∈ ts, ∀ r, t.request i = some r → r ∈ rs) :
    (sweep (fun m t ↦ (t.execute i m).swap) m ts).2 = ts.map fun t ↦ (t.execute i data).1 := by
  induction ts generalizing m with
  | nil => rfl
  | cons t ts ih =>
    rw [sweep_cons, List.map_cons, Prod.fst_swap, Prod.snd_swap, Thread.execute_memory]
    rw [ih (h.applyAll fun r hr ↦ hs t List.mem_cons_self r (Option.mem_toList.1 hr))
      fun t ht ↦ hs t (List.mem_cons_of_mem _ ht)]
    rw [Thread.execute_thread_congr fun a ha ↦ h.loads a (hs t List.mem_cons_self _ ha)]

end Interpreter

open SimtMachine.Interpreter (Makes)

theorem Image.read_ofArray {program : Array UInt16} (hp : program.size ≤ addressSpace) {pc : Nat}
    {w : UInt16} (h : program[pc]? = some w) :
    (Image.ofArray program).read (UInt8.ofNat pc) = w := by
  have hlt : pc < addressSpace := Nat.lt_of_lt_of_le (Array.getElem?_eq_some_iff.1 h).1 hp
  have hc : (cell (UInt8.ofNat pc)).val = pc := Nat.mod_eq_of_lt hlt
  simp [read, ofArray, hc, h]

namespace Lockstep

variable {program : Array UInt16} {data m : Image UInt8} {rs : List (Request UInt8)} {pc : Nat}
  {pcs : List Nat} {q : Lockstep}

/-- The threads of the block are at address `pc`, and the courses of all lead on over `pcs`. -/
structure Abreast (program : Array UInt16) (data : Image UInt8) (rs : List (Request UInt8))
    (pc : Nat) (pcs : List Nat) (q : Lockstep) : Prop where
  pc_eq : q.pc = UInt8.ofNat pc
  nonempty : q.threads ≠ []
  course : ∀ t ∈ q.threads, ∃ vs, Course program data pc t vs ∧ vs.map Visit.pc = pc :: pcs ∧
    ∀ r ∈ Interpreter.requests vs, r ∈ rs
  undisturbed : Undisturbed rs q.memory data

theorem Abreast.instruction (h : Abreast program data rs pc pcs q)
    (hp : program.size ≤ addressSpace) :
    ∃ w, program[pc]? = some w ∧ q.instruction (Image.ofArray program) = decode w := by
  obtain ⟨t, ht⟩ := List.exists_mem_of_ne_nil _ h.nonempty
  obtain ⟨vs, hc, -⟩ := h.course t ht
  obtain ⟨w, hw⟩ := hc.exists_word
  exact ⟨w, hw, by rw [Lockstep.instruction, h.pc_eq, Image.read_ofArray hp hw]⟩

theorem Abreast.nextPc {w : UInt16} (h : Abreast program data rs pc pcs q)
    (hw : program[pc]? = some w) (hr : (decode w).op.returns = false) :
    ∃ pc' pcs', pcs = pc' :: pcs' ∧ q.nextPc (decode w) = UInt8.ofNat pc' ∧
      ∀ t ∈ q.threads, Interpreter.nextPc (decode w) t.flags pc = pc' := by
  have hnext : ∀ t ∈ q.threads,
      pcs.head? = some (Interpreter.nextPc (decode w) t.flags pc) := by
    intro t ht
    obtain ⟨vs, hc, hpc, -⟩ := h.course t ht
    obtain ⟨vs', rfl, hc'⟩ := hc.of_not_returns hw hr
    rw [List.map_cons, List.cons.injEq] at hpc
    rw [← hpc.2, hc'.head_pc]
  obtain ⟨t, hl⟩ : ∃ t, q.threads.getLast? = some t :=
    ⟨_, List.getLast?_eq_some_getLast h.nonempty⟩
  have ht : t ∈ q.threads := List.mem_of_getLast? hl
  obtain ⟨pcs', hpcs⟩ := List.head?_eq_some_iff.1 (hnext t ht)
  refine ⟨_, pcs', hpcs, ?_, ?_⟩
  · simp only [Lockstep.nextPc, hl, h.pc_eq, Interpreter.nextPc]
    split
    · rw [UInt8.ofNat_toNat]
    · rw [UInt8.ofNat_add]
      rfl
  · intro t' ht'
    exact Option.some.inj ((hnext t' ht').symm.trans (hnext t ht))

theorem Abreast.mem_of_makes {t : Thread} {r : Request UInt8}
    (h : Abreast program data rs pc pcs q) (ht : t ∈ q.threads)
    (hm : Makes program data pc t r) : r ∈ rs := by
  obtain ⟨vs, hc, -, hs⟩ := h.course t ht
  obtain ⟨vs', hc', hr⟩ := hm
  rw [hc'.unique hc] at hr
  exact hs r hr

theorem Abreast.mem_of_request {w : UInt16} {t : Thread} {r : Request UInt8}
    (h : Abreast program data rs pc pcs q) (hw : program[pc]? = some w)
    (hr : (decode w).op.returns = false) (ht : t ∈ q.threads)
    (hq : t.request (decode w) = some r) : r ∈ rs := by
  obtain ⟨vs, hc, -⟩ := h.course t ht
  exact h.mem_of_makes ht ((Interpreter.makes_iff_of_not_returns hw hr hc r).2 (.inl hq))

theorem Abreast.step_eq {w : UInt16} {pc' : Nat} (h : Abreast program data rs pc pcs q)
    (hw : program[pc]? = some w) (hi : q.instruction (Image.ofArray program) = decode w)
    (hr : (decode w).op.returns = false) (hpc : q.nextPc (decode w) = UInt8.ofNat pc') :
    q.step (Image.ofArray program) =
      some ⟨UInt8.ofNat pc', q.threads.map fun t ↦ (t.execute (decode w) data).1,
        Request.applyAll q.memory (q.requests (Image.ofArray program))⟩ := by
  have hs : ∀ t ∈ q.threads, ∀ r, t.request (decode w) = some r → r ∈ rs :=
    fun t ht r hq ↦ h.mem_of_request hw hr ht hq
  rw [step_eq_some, hi, h.undisturbed.sweep_execute hs, hpc, Thread.sweep_execute_memory,
    requests, hi]
  exact ⟨hr, rfl⟩

theorem Abreast.next {w : UInt16} {pc' : Nat} {pcs' : List Nat}
    (h : Abreast program data rs pc (pc' :: pcs') q) (hw : program[pc]? = some w)
    (hr : (decode w).op.returns = false)
    (hnext : ∀ t ∈ q.threads, Interpreter.nextPc (decode w) t.flags pc = pc')
    (hu : Undisturbed rs m data) :
    Abreast program data rs pc' pcs'
      ⟨UInt8.ofNat pc', q.threads.map fun t ↦ (t.execute (decode w) data).1, m⟩ := by
  refine ⟨rfl, ?_, List.forall_mem_map.2 ?_, hu⟩
  · simpa only [ne_eq, List.map_eq_nil_iff] using h.nonempty
  · intro t ht
    obtain ⟨vs, hc, hpcs, hs⟩ := h.course t ht
    obtain ⟨vs', rfl, hc'⟩ := hc.of_not_returns hw hr
    rw [hnext t ht] at hc'
    rw [List.map_cons, List.cons.injEq] at hpcs
    refine ⟨vs', hc', hpcs.2, ?_⟩
    intro r hm
    apply hs
    rw [Interpreter.requests_cons, List.mem_append]
    exact .inr hm

theorem Abreast.exists_makes_iff {w : UInt16} {pc' : Nat}
    (h : Abreast program data rs pc pcs q) (hw : program[pc]? = some w)
    (hr : (decode w).op.returns = false)
    (hnext : ∀ t ∈ q.threads, Interpreter.nextPc (decode w) t.flags pc = pc')
    (r : Request UInt8) :
    (∃ t ∈ q.threads, Makes program data pc t r) ↔
      (∃ t ∈ q.threads, t.request (decode w) = some r) ∨
        ∃ t ∈ q.threads.map fun t ↦ (t.execute (decode w) data).1,
          Makes program data pc' t r := by
  have hm (t : Thread) (ht : t ∈ q.threads) : Makes program data pc t r ↔
      t.request (decode w) = some r ∨ Makes program data pc' (t.execute (decode w) data).1 r := by
    obtain ⟨vs, hc, -⟩ := h.course t ht
    rw [Interpreter.makes_iff_of_not_returns hw hr hc, hnext t ht]
  constructor
  · rintro ⟨t, ht, hq⟩
    rcases (hm t ht).1 hq with hq | hq
    · exact .inl ⟨t, ht, hq⟩
    · exact .inr ⟨_, List.mem_map_of_mem ht, hq⟩
  · rintro (⟨t, ht, hq⟩ | ⟨t', ht', hq⟩)
    · exact ⟨t, ht, (hm t ht).2 (.inl hq)⟩
    · obtain ⟨t, ht, rfl⟩ := List.mem_map.1 ht'
      exact ⟨t, ht, (hm t ht).2 (.inr hq)⟩

/-- A block abreast returns, or makes one step of all courses. -/
theorem Abreast.step (h : Abreast program data rs pc pcs q) (hp : program.size ≤ addressSpace) :
    q.step (Image.ofArray program) = none ∧
        (∀ r, ¬ ∃ t ∈ q.threads, Makes program data pc t r) ∨
      ∃ q' pc' pcs', pcs = pc' :: pcs' ∧ q.step (Image.ofArray program) = some q' ∧
        Abreast program data rs pc' pcs' q' ∧
        ∀ r, (∃ t ∈ q.threads, Makes program data pc t r) ↔
          q.Asks (Image.ofArray program) r ∨ ∃ t ∈ q'.threads, Makes program data pc' t r := by
  obtain ⟨w, hw, hi⟩ := h.instruction hp
  cases hr : (decode w).op.returns with
  | true =>
    refine .inl ⟨step_eq_none.2 (by rw [hi, hr]), ?_⟩
    rintro r ⟨t, -, hm⟩
    exact Interpreter.not_makes_of_returns hw hr r hm
  | false =>
    obtain ⟨pc', pcs', rfl, hpc, hnext⟩ := h.nextPc hw hr
    refine .inr ⟨_, pc', pcs', rfl, h.step_eq hw hi hr hpc, h.next hw hr hnext ?_, ?_⟩
    · apply h.undisturbed.applyAll
      intro r hm
      obtain ⟨t, ht, hq⟩ := mem_requests.1 hm
      rw [hi] at hq
      exact h.mem_of_request hw hr ht hq
    · intro r
      rw [Asks, hi]
      exact h.exists_makes_iff hw hr hnext r

/-- A block abreast comes to its end, and makes the requests of all courses and no others. -/
theorem Abreast.pass (h : Abreast program data rs pc pcs q) (hp : program.size ≤ addressSpace) :
    (∃ m, Finishes (Image.ofArray program) q m) ∧
      ∀ r, q.Issues (Image.ofArray program) r ↔ ∃ t ∈ q.threads, Makes program data pc t r := by
  induction pcs generalizing pc q with
  | nil =>
    rcases h.step hp with ⟨hs, hm⟩ | ⟨_, _, _, hn, -⟩
    · refine ⟨⟨_, .ret hs⟩, ?_⟩
      intro r
      rw [issues_iff_of_step_eq_none hs, ← mem_requests, requests_of_step_eq_none hs]
      simp only [List.not_mem_nil, hm r]
    · simp at hn
  | cons pc₁ pcs ih =>
    rcases h.step hp with ⟨hs, hm⟩ | ⟨q', pc', pcs', hpcs, hs, h', hm⟩
    · refine ⟨⟨_, .ret hs⟩, ?_⟩
      intro r
      rw [issues_iff_of_step_eq_none hs, ← mem_requests, requests_of_step_eq_none hs]
      simp only [List.not_mem_nil, hm r]
    · cases hpcs
      obtain ⟨⟨m, hf⟩, hi⟩ := ih h'
      refine ⟨⟨m, .next hs hf⟩, ?_⟩
      intro r
      rw [issues_iff_of_step_eq_some hs, hi, hm]

end Lockstep

namespace Assignment

variable {program : Array UInt16} {data m : Image UInt8} {rs : List (Request UInt8)} {dim : UInt8}
  {b : Assignment} {r : Request UInt8}

/-- The threads of the block stay abreast on every memory in which they find the initial data. -/
def Abreast (program : Array UInt16) (data : Image UInt8) (rs : List (Request UInt8))
    (dim : UInt8) (b : Assignment) : Prop :=
  ∃ pcs, ∀ m, Undisturbed rs m data → Lockstep.Abreast program data rs 0 pcs (b.enter dim m)

theorem Abreast.pass (h : b.Abreast program data rs dim) (hp : program.size ≤ addressSpace)
    (hu : Undisturbed rs m data) :
    (∀ r, (b.enter dim m).Issues (Image.ofArray program) r ↔
        ∃ t ∈ (b.enter dim m).threads, Makes program data 0 t r) ∧
      ∀ r, (b.enter dim m).Issues (Image.ofArray program) r → r ∈ rs := by
  obtain ⟨pcs, h⟩ := h
  have hi := ((h m hu).pass hp).2
  refine ⟨hi, ?_⟩
  intro r hr
  obtain ⟨t, ht, hm⟩ := (hi r).1 hr
  exact (h m hu).mem_of_makes ht hm

/-- A pass leaves the initial data to be found by the next one. -/
theorem Abreast.undisturbed {mid : Image UInt8} (h : b.Abreast program data rs dim)
    (hp : program.size ≤ addressSpace) (hu : Undisturbed rs m data)
    (hf : Lockstep.Finishes (Image.ofArray program) (b.enter dim m) mid) :
    Undisturbed rs mid data := by
  obtain ⟨rs', rfl, hrs⟩ := hf.accesses
  exact hu.applyAll fun r hr ↦ (h.pass hp hu).2 r ((hrs r).2 hr)

theorem Abreast.mem_of_issues (h : b.Abreast program data rs dim)
    (hp : program.size ≤ addressSpace) (hu : Undisturbed rs data data)
    (hr : b.Issues (Image.ofArray program) dim data r) : r ∈ rs := by
  rcases hr with hr | ⟨mid, hf, hr⟩
  · exact (h.pass hp hu).2 r hr
  · exact (h.pass hp (h.undisturbed hp hu hf)).2 r hr

/-- After its two passes the memory of the block holds what the block stores, if nothing else is
stored at that address. -/
theorem Abreast.read_of_makes {t : Thread} {a v : UInt8} (h : b.Abreast program data rs dim)
    (hp : program.size ≤ addressSpace) (hu : Undisturbed rs data data)
    (hf : b.FinishesTwice (Image.ofArray program) dim data m) (ht : t ∈ (b.enter dim data).threads)
    (hm : Makes program data 0 t (.write a v)) (hv : ∀ v', .write a v' ∈ rs → v' = v) :
    m.read a = v := by
  obtain ⟨mid, h₁, h₂⟩ := hf
  obtain ⟨hi, hs⟩ := h.pass hp (h.undisturbed hp hu h₁)
  obtain ⟨rs', rfl, hrs⟩ := h₂.accesses
  apply Request.read_applyAll_of_mem
  · exact (hrs _).1 ((hi _).2 ⟨t, ht, hm⟩)
  · intro v' hv'
    exact hv v' (hs _ ((hrs _).2 hv'))

end Assignment

end SimtMachine
