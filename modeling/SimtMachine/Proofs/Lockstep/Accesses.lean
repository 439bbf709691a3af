import SimtMachine.Proofs.Lockstep.Passes
import SimtMachine.Proofs.Memory.Requests

/-!
# Accesses of a pass

A pass that comes to an end can be run, and the run lists every request that the block makes. So
whether blocks interfere is a question about finite lists.
-/

namespace SimtMachine

namespace Thread

/-- What an instruction does to memory is its request. -/
theorem execute_memory (i : Instruction) (t : Thread) (m : Image UInt8) :
    (t.execute i m).2 = Request.applyAll m (t.request i).toList := by
  cases h : t.request i with
  | none => exact congrArg Prod.snd (execute_of_no_request h m 0)
  | some r => exact congrArg Prod.snd (execute_of_request h m)

theorem sweep_execute_memory (i : Instruction) (m : Image UInt8) (ts : List Thread) :
    (sweep (fun m t ↦ (t.execute i m).swap) m ts).1 =
      Request.applyAll m (ts.filterMap (request i)) := by
  induction ts generalizing m with
  | nil => rfl
  | cons t ts ih =>
    rw [sweep_cons, ih, Prod.fst_swap, execute_memory, ← Request.applyAll_append]
    cases hr : t.request i with
    | none => rw [List.filterMap_cons_none hr, Option.toList_none, List.nil_append]
    | some r => rw [List.filterMap_cons_some hr, Option.toList_some, List.singleton_append]

end Thread

namespace Lockstep

variable {program : Image UInt16} {s : Lockstep} {m : Image UInt8} {rs : List (Request UInt8)}
  {r : Request UInt8}

/-- The requests that the threads of the block make now. -/
def requests (program : Image UInt16) (s : Lockstep) : List (Request UInt8) :=
  s.threads.filterMap (Thread.request (s.instruction program))

theorem mem_requests : r ∈ s.requests program ↔ s.Asks program r :=
  List.mem_filterMap

/-- Runs a pass of at most `fuel` instructions: all its requests and the memory that it leaves. -/
def pass (program : Image UInt16) : (fuel : Nat) → Lockstep →
    Option (List (Request UInt8) × Image UInt8)
  | 0, _ => none
  | fuel + 1, s =>
    match s.step program with
    | none => some (s.requests program, s.memory)
    | some s' => (pass program fuel s').map fun (rs, m) ↦ (s.requests program ++ rs, m)

theorem requests_of_step_eq_none (h : s.step program = none) : s.requests program = [] :=
  List.filterMap_eq_nil_iff.2 fun t _ ↦ Thread.request_of_returns (step_eq_none.1 h) t

theorem memory_of_step_eq_some {s' : Lockstep} (h : s.step program = some s') :
    s'.memory = Request.applyAll s.memory (s.requests program) := by
  obtain ⟨-, rfl⟩ := step_eq_some.1 h
  exact Thread.sweep_execute_memory _ _ _

theorem issues_iff_of_step_eq_none (h : s.step program = none) :
    s.Issues program r ↔ s.Asks program r := by
  constructor
  · rintro ⟨q, hq, hr⟩
    rcases hq.cases_head with rfl | ⟨s', hs, -⟩
    · exact hr
    · simp [h] at hs
  · intro hr
    exact ⟨s, .refl, hr⟩

theorem issues_iff_of_step_eq_some {s' : Lockstep} (h : s.step program = some s') :
    s.Issues program r ↔ s.Asks program r ∨ s'.Issues program r := by
  constructor
  · rintro ⟨q, hq, hr⟩
    rcases hq.cases_head with rfl | ⟨s₁, hs, hq⟩
    · exact .inl hr
    · rw [h] at hs
      cases hs
      exact .inr ⟨q, hq, hr⟩
  · rintro (hr | hr)
    · exact ⟨s, .refl, hr⟩
    · exact hr.of_step h

/-- A run of a pass lists exactly the requests of the pass, and they are all that happens to
memory. -/
theorem pass_spec {fuel : Nat} (h : s.pass program fuel = some (rs, m)) :
    Finishes program s m ∧ m = Request.applyAll s.memory rs ∧
      ∀ r, s.Issues program r ↔ r ∈ rs := by
  induction fuel generalizing s rs with
  | zero => simp [pass] at h
  | succ fuel ih =>
    rw [pass] at h
    split at h
    · next hs =>
      cases h
      refine ⟨.ret hs, ?_, fun r ↦ ?_⟩
      · rw [requests_of_step_eq_none hs]
        rfl
      · rw [issues_iff_of_step_eq_none hs, mem_requests]
    · next s' hs =>
      obtain ⟨⟨rs', m'⟩, hp, hq⟩ := Option.map_eq_some_iff.1 h
      cases hq
      obtain ⟨hf, hm, hi⟩ := ih hp
      refine ⟨.next hs hf, ?_, fun r ↦ ?_⟩
      · rw [hm, Request.applyAll_append, memory_of_step_eq_some hs]
      · rw [issues_iff_of_step_eq_some hs, hi, List.mem_append, mem_requests]

theorem Finishes.exists_pass (h : Finishes program s m) :
    ∃ fuel rs, s.pass program fuel = some (rs, m) := by
  induction h with
  | ret hs => exact ⟨1, _, by rw [pass, hs]⟩
  | @next s s' m hs _ ih =>
    obtain ⟨fuel, rs, hp⟩ := ih
    refine ⟨fuel + 1, s.requests program ++ rs, ?_⟩
    simp only [pass, hs, hp, Option.map_some]

theorem Finishes.accesses (h : Finishes program s m) :
    ∃ rs, m = Request.applyAll s.memory rs ∧ ∀ r, s.Issues program r ↔ r ∈ rs := by
  obtain ⟨fuel, rs, hp⟩ := h.exists_pass
  exact ⟨rs, (pass_spec hp).2⟩

end Lockstep

namespace Assignment

variable {program : Image UInt16} {dim : UInt8} {b : Assignment} {data m : Image UInt8}
  {rs : List (Request UInt8)}

/-- Runs both passes of a block, each of at most `fuel` instructions. -/
def passes (program : Image UInt16) (dim : UInt8) (fuel : Nat) (data : Image UInt8)
    (b : Assignment) : Option (List (Request UInt8) × Image UInt8) := do
  let (rs, mid) ← (b.enter dim data).pass program fuel
  let (rs', m) ← (b.enter dim mid).pass program fuel
  return (rs ++ rs', m)

/-- A run of both passes lists exactly the requests of the block. -/
theorem passes_spec {fuel : Nat} (h : b.passes program dim fuel data = some (rs, m)) :
    b.FinishesTwice program dim data m ∧ ∀ r, b.Issues program dim data r ↔ r ∈ rs := by
  obtain ⟨⟨rs₁, mid⟩, h₁, h⟩ := Option.bind_eq_some_iff.1 h
  obtain ⟨⟨rs₂, m'⟩, h₂, h⟩ := Option.bind_eq_some_iff.1 h
  cases h
  obtain ⟨hf₁, -, hi₁⟩ := Lockstep.pass_spec h₁
  obtain ⟨hf₂, -, hi₂⟩ := Lockstep.pass_spec h₂
  refine ⟨⟨mid, hf₁, hf₂⟩, ?_⟩
  intro r
  rw [List.mem_append, ← hi₁, ← hi₂]
  constructor
  · rintro (hr | ⟨mid', hf, hr⟩)
    · exact .inl hr
    · obtain rfl := hf.unique hf₁
      exact .inr hr
  · rintro (hr | hr)
    · exact .inl hr
    · exact .inr ⟨mid, hf₁, hr⟩

end Assignment

end SimtMachine
