import Mathlib.Data.Fin.VecNotation
import Mathlib.Data.Fintype.Basic
import Mathlib.Data.List.FinRange
import Mathlib.Tactic.FinCases
import SimtMachine.Proofs.Memory.Service

/-!
# The order of the ports

A memory looks at its ports in a fixed order. Where it has a channel for every request that waits,
and no request writes what another reads or writes, the order makes no difference: the content, the
number of served requests and every single port come out the same.
-/

namespace SimtMachine

variable {α : Type}

/-! ## Requests that do not meet -/

/-- The first request does not write where the second reads or writes. -/
def Request.Spares (r r' : Request α) : Prop := ∀ a v, r = .write a v → r'.addr ≠ a

theorem Request.Spares.answer_apply {r r' : Request α} (h : r.Spares r') (m : Image α) :
    r'.answer (r.apply m) = r'.answer m := by
  cases r with
  | read => rfl
  | write a v =>
    cases r' with
    | read b => exact Image.read_write_of_ne m v (h a v rfl)
    | write => rfl

theorem Request.Spares.apply_comm {r r' : Request α} (h : r.Spares r') (m : Image α) :
    r'.apply (r.apply m) = r.apply (r'.apply m) := by
  cases r with
  | read => rfl
  | write a v =>
    cases r' with
    | read => rfl
    | write b w =>
      have hne : b ≠ a := h a v rfl
      refine Image.ext_read fun c ↦ ?_
      simp only [Request.apply, Image.read_write]
      by_cases hc : c = a
      · simp [hc, hne.symm]
      · simp [hc]

theorem Request.applyAll_perm {rs rs' : List (Request α)} (h : rs.Perm rs')
    (hr : ∀ r ∈ rs, ∀ r' ∈ rs, r = r' ∨ r.Spares r') (m : Image α) :
    applyAll m rs = applyAll m rs' := by
  refine h.foldl_eq' (fun r hmem r' hmem' m ↦ ?_) m
  rcases hr r hmem r' hmem' with rfl | hs
  · rfl
  · exact hs.apply_comm m

/-! ## A service without scarcity -/

/-- The port after a service with a channel for everyone, if the request at the port finds the
content `m`. -/
def Port.settled (m : Image α) (p : Port α) : Port α :=
  match p.pending with
  | some r => .answered (r.answer m)
  | none => p

/-- No port asks for a write where a later one asks for anything. -/
def Undisturbing (ps : List (Port α)) : Prop :=
  ps.Pairwise fun p q ↦ ∀ r ∈ p.pending, ∀ r' ∈ q.pending, r.Spares r'

theorem Port.settled_apply {r : Request α} {p : Port α} (h : ∀ r' ∈ p.pending, r.Spares r')
    (m : Image α) : p.settled (r.apply m) = p.settled m := by
  unfold settled
  cases hp : p.pending with
  | none => rfl
  | some r' => exact congrArg Port.answered ((h r' hp).answer_apply m)

/-- Requests that do not meet are all answered from the content before the service. -/
theorem sweep_visit_of_undisturbing {ps : List (Port α)} (h : Undisturbing ps) (s : Pass α)
    (hs : ps.countP Port.isPending ≤ s.free) :
    sweep Pass.visit s ps =
      (⟨Request.applyAll s.cells (ps.filterMap Port.pending),
        s.free - ps.countP Port.isPending⟩, ps.map (Port.settled s.cells)) := by
  induction ps generalizing s with
  | nil => rfl
  | cons p ps ih =>
    obtain ⟨hp, h⟩ := List.pairwise_cons.1 h
    rw [List.countP_cons] at hs
    rw [sweep_cons]
    rcases s.visit_cases p with ⟨hv, hn⟩ | ⟨r, free, hr, hf, hv⟩
    · have hpn : p.pending = none := by
        cases hr : p.pending with
        | none => rfl
        | some r =>
          have hi : p.isPending = true := by simp [Port.isPending, hr]
          rw [if_pos hi] at hs
          exact hr ▸ hn (by omega)
      rw [hv, ih h s (by omega)]
      simp [Port.isPending, Port.settled, hpn]
    · have hi : p.isPending = true := by simp [Port.isPending, hr]
      have hmap : ps.map (Port.settled (r.apply s.cells)) = ps.map (Port.settled s.cells) :=
        List.map_congr_left fun q hq ↦ Port.settled_apply (hp q hq r hr) s.cells
      rw [if_pos hi] at hs
      rw [hv, ih h _ (by show _ ≤ free; omega), hmap]
      simp [hi, hr, hf, Port.settled, Request.applyAll_cons]

/-! ## Permutations -/

/-- In whatever order the ports are visited, the service comes out the same for each of them; on a
cycle of service every request is answered, and from the content before. -/
theorem Memory.service_permuted (m : Memory α) (cycle : Nat) {n : Nat} (ports : Fin n → Port α)
    (hc : (List.ofFn ports).countP Port.isPending ≤ m.channels)
    (hp : ∀ i j, i ≠ j → ∀ a v r, (ports i).pending = some (.write a v) →
      (ports j).pending = some r → r.addr ≠ a) :
    ∃ m' after served, (m.interval ∣ cycle → after = Port.settled m.cells ∘ ports) ∧
      ∀ σ : Equiv.Perm (Fin n),
        m.service cycle (List.ofFn (ports ∘ σ)) = (m', List.ofFn (after ∘ σ), served) := by
  by_cases hs : m.servesAt cycle = true
  · refine ⟨{ m with cells := Request.applyAll m.cells ((List.ofFn ports).filterMap Port.pending) },
      Port.settled m.cells ∘ ports, (List.ofFn ports).countP Port.isPending, fun _ ↦ rfl,
      fun σ ↦ ?_⟩
    have hperm := σ.ofFn_comp_perm ports
    have hpw : Undisturbing (List.ofFn (ports ∘ σ)) := by
      refine List.pairwise_ofFn.2 fun i j hij r hr r' hr' a v ha ↦ ?_
      exact hp (σ i) (σ j) (σ.injective.ne hij.ne) a v r' (ha ▸ hr) hr'
    have hsweep := sweep_visit_of_undisturbing hpw ⟨m.cells, m.channels⟩
      ((hperm.countP_eq _).trans_le hc)
    have hspares : ∀ r ∈ (List.ofFn (ports ∘ σ)).filterMap Port.pending,
        ∀ r' ∈ (List.ofFn (ports ∘ σ)).filterMap Port.pending, r = r' ∨ r.Spares r' := by
      simp only [List.mem_filterMap, List.mem_ofFn]
      rintro r ⟨_, ⟨i, rfl⟩, hr⟩ r' ⟨_, ⟨j, rfl⟩, hr'⟩
      by_cases hij : σ i = σ j
      · rw [Function.comp_apply, hij] at hr
        exact .inl (Option.some.inj (hr.symm.trans hr'))
      · exact .inr fun a v ha ↦ hp _ _ hij a v r' (ha ▸ hr) hr'
    rw [Request.applyAll_perm (hperm.filterMap Port.pending) hspares, hperm.countP_eq] at hsweep
    simp only [Memory.service, Memory.serviceWith, hs, if_true, hsweep, List.map_ofFn,
      Nat.sub_sub_self hc, Function.comp_assoc]
  · refine ⟨m, ports, 0, fun hd ↦ ?_, fun σ ↦ ?_⟩
    · simp [Memory.servesAt, Nat.mod_eq_zero_of_dvd hd] at hs
    · simp [Memory.service, Memory.serviceWith, hs]

theorem Memory.service_permuted_mixed :
    let m : Memory UInt8 := ⟨Image.ofArray #[7], 2, 1, by decide, by decide⟩
    let ports : Fin 3 → Port UInt8 := ![.issue (.read 0), .answered 5, .issue (.write 1 9)]
    (List.ofFn ports).countP Port.isPending ≤ 2 ∧
      ∃ m' after served, after = ![.answered 7, .answered 5, .answered 9] ∧
        ∀ σ : Equiv.Perm (Fin 3),
          m.service 4 (List.ofFn (ports ∘ σ)) = (m', List.ofFn (after ∘ σ), served) := by
  intro m ports
  have hp : ∀ i j, i ≠ j → ∀ a v r, (ports i).pending = some (.write a v) →
      (ports j).pending = some r → r.addr ≠ a := by
    intro i j hij a v r hw hr
    fin_cases i <;> fin_cases j <;> simp_all [ports, Port.issue, Port.answered]
    obtain ⟨rfl, -⟩ := hw
    subst hr
    decide
  obtain ⟨m', after, served, ha, hσ⟩ := m.service_permuted 4 ports (by decide) hp
  refine ⟨by decide, m', after, served, (ha (by decide)).trans ?_, hσ⟩
  decide +kernel

end SimtMachine
