import Mathlib.Logic.Function.Basic
import SimtMachine.Proofs.Lockstep.Passes

/-!
# Blocks that do not disturb each other

Each block is given a memory of its own next to the memory that all blocks share. As long as the
requests of a block get the same answers from both, the block makes the same passes on both, in
whatever order the requests of different blocks arrive.
-/

namespace SimtMachine

/-- A relation between memories that the blocks own and the memory that they share, under which each
block can take the shared memory for its own. It holds at the launch, and a request of a block gets
the same answer from both memories and keeps the relation when it is made of both. -/
structure Isolation (program : Image UInt16) (dim : UInt8) (blocks : List Assignment)
    (data : Image UInt8) (Agree : (Assignment → Image UInt8) → Image UInt8 → Prop) : Prop where
  start : Agree (fun _ ↦ data) data
  access : ∀ {own : Assignment → Image UInt8} {shared : Image UInt8} {b : Assignment}
    {r : Request UInt8}, b ∈ blocks → b.Issues program dim data r → Agree own shared →
      r.answer shared = r.answer (own b) ∧
        Agree (Function.update own b (r.apply (own b))) (r.apply shared)

namespace Isolation

variable {program : Image UInt16} {dim : UInt8} {blocks : List Assignment} {data : Image UInt8}
  {Agree : (Assignment → Image UInt8) → Image UInt8 → Prop} {own : Assignment → Image UInt8}
  {shared : Image UInt8} {b : Assignment}

theorem sweep_execute (iso : Isolation program dim blocks data Agree) (hb : b ∈ blocks)
    {i : Instruction} {ts : List Thread}
    (ht : ∀ t ∈ ts, ∀ r, t.request i = some r → b.Issues program dim data r) :
    ∀ own shared, Agree own shared →
      (sweep (fun m t ↦ (t.execute i m).swap) shared ts).2 =
          (sweep (fun m t ↦ (t.execute i m).swap) (own b) ts).2 ∧
        Agree (Function.update own b (sweep (fun m t ↦ (t.execute i m).swap) (own b) ts).1)
          (sweep (fun m t ↦ (t.execute i m).swap) shared ts).1 := by
  induction ts with
  | nil =>
    intro own shared hA
    refine ⟨rfl, ?_⟩
    rwa [sweep, sweep, Function.update_eq_self]
  | cons t ts ih =>
    intro own shared hA
    have ih := ih fun t ht' ↦ ht t (List.mem_cons_of_mem _ ht')
    simp only [sweep_cons, Prod.fst_swap, Prod.snd_swap, List.cons.injEq]
    cases hr : t.request i with
    | none =>
      rw [Thread.execute_of_no_request hr shared 0, Thread.execute_of_no_request hr (own b) 0]
      obtain ⟨h1, h2⟩ := ih own shared hA
      exact ⟨⟨rfl, h1⟩, h2⟩
    | some r =>
      obtain ⟨ha, hA⟩ := iso.access hb (ht t List.mem_cons_self r hr) hA
      rw [Thread.execute_of_request hr, Thread.execute_of_request hr, ha]
      obtain ⟨h1, h2⟩ := ih _ _ hA
      rw [Function.update_self] at h1 h2
      rw [Function.update_idem] at h2
      exact ⟨⟨rfl, h1⟩, h2⟩

/-- A pass on the own memory is also one on the shared memory. -/
theorem finishes (iso : Isolation program dim blocks data Agree) (hb : b ∈ blocks) {s : Lockstep}
    {m : Image UInt8} (hf : Lockstep.Finishes program s m) :
    ∀ {own shared}, own b = s.memory → (∀ r, s.Issues program r → b.Issues program dim data r) →
      Agree own shared → ∃ shared', Lockstep.Finishes program { s with memory := shared } shared' ∧
        Agree (Function.update own b m) shared' := by
  induction hf with
  | @ret s hs =>
    intro own shared ho _ hA
    refine ⟨shared, .ret ?_, ?_⟩
    · rw [Lockstep.step_eq_none] at hs ⊢
      exact hs
    · rwa [← ho, Function.update_eq_self]
  | @next s s' m hs _ ih =>
    intro own shared ho hi hA
    obtain ⟨hr, rfl⟩ := Lockstep.step_eq_some.1 hs
    have ht := iso.sweep_execute hb (fun t ht r hr ↦ hi r ⟨s, .refl, t, ht, hr⟩) own shared hA
    obtain ⟨h1, h2⟩ := ht
    rw [ho] at h1 h2
    obtain ⟨shared', hf, hA'⟩ := ih (Function.update_self ..)
      (fun r hr ↦ hi r (hr.of_step hs)) h2
    rw [Function.update_idem] at hA'
    refine ⟨shared', .next (Lockstep.step_eq_some.2 ⟨hr, rfl⟩) ?_, hA'⟩
    exact h1 ▸ hf

theorem finishesTwice (iso : Isolation program dim blocks data Agree) (hb : b ∈ blocks)
    {m : Image UInt8} (hf : b.FinishesTwice program dim data m) (ho : own b = data)
    (hA : Agree own shared) :
    ∃ shared', b.FinishesTwice program dim shared shared' ∧
      Agree (Function.update own b m) shared' := by
  obtain ⟨mid, h1, h2⟩ := hf
  obtain ⟨shared₁, hf₁, hA₁⟩ := iso.finishes hb h1 ho (fun r hr ↦ .inl hr) hA
  obtain ⟨shared₂, hf₂, hA₂⟩ := iso.finishes hb h2 (Function.update_self ..)
    (fun r hr ↦ .inr ⟨mid, h1, hr⟩) hA₁
  rw [Function.update_idem] at hA₂
  exact ⟨shared₂, ⟨shared₁, hf₁, hf₂⟩, hA₂⟩

/-- Blocks that come to an end on their own memories can take their turns on the shared one. -/
theorem inTurn (iso : Isolation program dim blocks data Agree) {final : Assignment → Image UInt8}
    {bs : List Assignment} (hn : bs.Nodup) (hsub : ∀ b ∈ bs, b ∈ blocks)
    (hf : ∀ b ∈ bs, b.FinishesTwice program dim data (final b)) :
    ∀ {own shared}, (∀ b ∈ bs, own b = data) → Agree own shared →
      ∃ own' shared', Assignment.InTurn program dim bs shared shared' ∧ Agree own' shared' ∧
        (∀ b ∈ bs, own' b = final b) ∧ ∀ b, b ∉ bs → own' b = own b := by
  induction bs with
  | nil =>
    intro own shared _ hA
    exact ⟨own, shared, .nil _, hA, nofun, fun _ _ ↦ rfl⟩
  | cons b bs ih =>
    intro own shared ho hA
    obtain ⟨hb, hn⟩ := List.nodup_cons.1 hn
    obtain ⟨shared₁, hf₁, hA₁⟩ := iso.finishesTwice (hsub b List.mem_cons_self)
      (hf b List.mem_cons_self) (ho b List.mem_cons_self) hA
    obtain ⟨own', shared', ht, hA', hd, hk⟩ := ih hn (fun b hb ↦ hsub b (List.mem_cons_of_mem _ hb))
      (fun b hb ↦ hf b (List.mem_cons_of_mem _ hb))
      (fun b' hb' ↦ by
        rw [Function.update_of_ne (ne_of_mem_of_not_mem hb' hb)]
        exact ho b' (List.mem_cons_of_mem _ hb')) hA₁
    refine ⟨own', shared', .cons hf₁ ht, hA', ?_, ?_⟩
    · intro b' hb'
      rcases List.mem_cons.1 hb' with rfl | hb'
      · rw [hk b' hb, Function.update_self]
      · exact hd b' hb'
    · intro b' hb'
      rw [List.mem_cons, not_or] at hb'
      rw [hk b' hb'.2, Function.update_of_ne hb'.1]

end Isolation

end SimtMachine
