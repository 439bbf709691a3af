import SimtMachine.Proofs.Interpreter.Visits

/-!
# Disciplined runs

In a disciplined run the order of the threads is of no consequence: no thread loads what any thread
stores, threads that store at one address store the same there, and the threads of a block visit
the same addresses.
-/

namespace SimtMachine.Interpreter

/-- A run in which every thread could as well have been the first. -/
structure Disciplined (dim : UInt8) (vss : List (List Visit)) : Prop where
  /-- the threads of a block visit the same addresses -/
  abreast : ∀ (i j : Nat) (vs vs' : List Visit), vss[i]? = some vs → vss[j]? = some vs' →
    i / dim.toNat = j / dim.toNat → vs.map Visit.pc = vs'.map Visit.pc
  /-- no address that is stored at is ever loaded -/
  apart : ∀ a v, .write a v ∈ requests vss.flatten → .read a ∉ requests vss.flatten
  /-- two stores at one address store the same -/
  agreed : ∀ a v v', .write a v ∈ requests vss.flatten → .write a v' ∈ requests vss.flatten →
    v = v'

/-- Whether two requests may come in either order. -/
def commute : Request UInt8 → Request UInt8 → Bool
  | .write a _, .read a' => a ≠ a'
  | .write a v, .write a' v' => a ≠ a' || v = v'
  | .read _, _ => true

/-- Checks the visits of a run. -/
def isDisciplined (dim : UInt8) (vss : List (List Visit)) : Bool :=
  vss.zipIdx.all (fun (vs, i) ↦ vss.zipIdx.all fun (vs', j) ↦
      i / dim.toNat ≠ j / dim.toNat || vs.map Visit.pc = vs'.map Visit.pc) &&
    (requests vss.flatten).all fun r ↦ (requests vss.flatten).all (commute r)

variable {program : Array UInt16} {dim : UInt8} {data m' : Image UInt8} {vs : List Visit}
  {vss : List (List Visit)}

theorem disciplined_of_isDisciplined (h : isDisciplined dim vss = true) : Disciplined dim vss := by
  obtain ⟨hp, hc⟩ := Bool.and_eq_true_iff.1 h
  have hcomm (r r') (hr : r ∈ requests vss.flatten) (hr' : r' ∈ requests vss.flatten) :
      commute r r' = true := List.all_eq_true.1 (List.all_eq_true.1 hc r hr) r' hr'
  constructor
  · intro i j vs vs' hi hj hq
    have hi' := List.all_eq_true.1 hp (vs, i) (List.mem_zipIdx_iff_getElem?.2 hi)
    have hm := List.all_eq_true.1 hi' (vs', j) (List.mem_zipIdx_iff_getElem?.2 hj)
    simpa [hq] using hm
  · intro a v hv ha
    simpa [commute] using hcomm _ _ hv ha
  · intro a v v' hv hv'
    simpa [commute] using hcomm _ _ hv hv'

theorem Disciplined.undisturbed (h : Disciplined dim vss) :
    Undisturbed (requests vss.flatten) data data where
  loads _ _ := rfl
  stores := h.apart

/-- A disciplined run leaves what is stored, and the initial data where nothing is stored. -/
theorem Disciplined.read {count tid : Nat} (h : Disciplined dim vss)
    (ht : traceThreads program dim count tid data = .ok (m', vss)) (a : UInt8) :
    (∀ v, .write a v ∈ requests vss.flatten → m'.read a = v) ∧
      ((∀ v, .write a v ∉ requests vss.flatten) → m'.read a = data.read a) := by
  rw [traceThreads_memory ht]
  constructor
  · intro v hv
    exact Request.read_applyAll_of_mem hv fun v' hv' ↦ h.agreed a v' v hv' hv
  · exact Request.read_applyAll_of_not_mem

theorem Disciplined.course {count tid : Nat} (h : Disciplined dim vss)
    (ht : traceThreads program dim count 0 data = .ok (m', vss)) (hv : vss[tid]? = some vs) :
    Course program data 0 (entrant dim tid) vs := by
  have hc := courses_of_traceThreads ht h.undisturbed hv
  rwa [Nat.zero_add] at hc

theorem mem_requests_flatten {r : Request UInt8} (hr : r ∈ requests vss.flatten) :
    ∃ (tid : Nat) (vs : List Visit), vss[tid]? = some vs ∧ r ∈ requests vs := by
  obtain ⟨x, hx, hr⟩ := List.mem_filterMap.1 hr
  obtain ⟨vs, hvs, hx⟩ := List.mem_flatten.1 hx
  obtain ⟨tid, ht⟩ := List.mem_iff_getElem?.1 hvs
  exact ⟨tid, vs, ht, List.mem_filterMap.2 ⟨x, hx, hr⟩⟩

theorem requests_subset {tid : Nat} (hv : vss[tid]? = some vs) :
    ∀ r ∈ requests vs, r ∈ requests vss.flatten := by
  intro r hr
  obtain ⟨x, hx, hr⟩ := List.mem_filterMap.1 hr
  exact List.mem_filterMap.2 ⟨x, List.mem_flatten.2 ⟨vs, List.mem_of_getElem? hv, hx⟩, hr⟩

end SimtMachine.Interpreter
