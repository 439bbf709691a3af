import SimtMachine.Proofs.Device.Independence

/-!
# Blocks in turn

When the blocks of a launch make their passes one after another, each block finds what the ones
before it have left. If no block touches what another one stores in its turn, this is for every
block as good as the initial data: it makes the same requests on both, and comes to an end on both.
-/

namespace SimtMachine

variable {program : Image UInt16} {dim : UInt8} {blocks : List Assignment}
  {data m m' : Image UInt8} {b b' : Assignment} {a : UInt8}

/-- The block finds this memory when the blocks make their passes in turn. -/
def Assignment.Finds (program : Image UInt16) (dim : UInt8) (blocks : List Assignment)
    (data : Image UInt8) (b : Assignment) (m : Image UInt8) : Prop :=
  ∃ pre post, blocks = pre ++ b :: post ∧ InTurn program dim pre data m

/-- When the blocks make their passes in turn, no block loads or stores an address that a different
block stores. -/
def ApartInTurn (program : Image UInt16) (dim : UInt8) (blocks : List Assignment)
    (data : Image UInt8) : Prop :=
  ∀ (b b' : Assignment) (m m' : Image UInt8), b.Finds program dim blocks data m →
    b'.Finds program dim blocks data m' → b ≠ b' →
    ∀ r, b.Issues program dim m r → ¬ b'.Stores program dim m' r.addr

namespace Assignment

theorem Finds.cons (h : b'.Finds program dim blocks m m')
    (hb : b.FinishesTwice program dim data m) : b'.Finds program dim (b :: blocks) data m' := by
  obtain ⟨pre, post, rfl, ht⟩ := h
  exact ⟨b :: pre, post, rfl, .cons hb ht⟩

theorem InTurn.finds (h : InTurn program dim blocks data m) (hb : b ∈ blocks) :
    ∃ x y, b.Finds program dim blocks data x ∧ b.FinishesTwice program dim x y := by
  induction h with
  | nil => exact nomatch hb
  | cons hf _ ih =>
    rcases List.mem_cons.1 hb with rfl | hb
    · exact ⟨_, _, ⟨[], _, rfl, .nil _⟩, hf⟩
    · obtain ⟨x, y, hx, hy⟩ := ih hb
      exact ⟨x, y, hx.cons hf, hy⟩

theorem FinishesTwice.read_of_not_stores (h : b.FinishesTwice program dim m m')
    (hs : ¬ b.Stores program dim m a) : m'.read a = m.read a := by
  obtain ⟨mid, h1, h2⟩ := h
  obtain ⟨rs, hm, hi⟩ := h1.accesses
  obtain ⟨rs', hm', hi'⟩ := h2.accesses
  have hq : mid.read a = m.read a := by
    rw [hm]
    exact Request.read_applyAll_of_not_mem fun v hv ↦ hs ⟨v, .inl ((hi _).2 hv)⟩
  rw [hm', ← hq]
  exact Request.read_applyAll_of_not_mem fun v hv ↦ hs ⟨v, .inr ⟨mid, h1, (hi' _).2 hv⟩⟩

/-- A cell changes only if a block stores there in its turn. -/
theorem InTurn.read_of_not_stores (h : InTurn program dim blocks data m)
    (hs : ∀ (b : Assignment) x, b.Finds program dim blocks data x → ¬ b.Stores program dim x a) :
    m.read a = data.read a := by
  induction h with
  | nil => rfl
  | cons hf _ ih =>
    rw [ih fun b x hx ↦ hs b x (hx.cons hf)]
    exact hf.read_of_not_stores (hs _ _ ⟨[], _, rfl, .nil _⟩)

theorem Finds.append {pre post : List Assignment} (h : b.Finds program dim pre data m) :
    b.Finds program dim (pre ++ post) data m := by
  obtain ⟨pre', post', rfl, ht⟩ := h
  exact ⟨pre', post' ++ post, by simp, ht⟩

end Assignment

/-! ## One block on two memories -/

namespace Isolation

variable {Agree : (Assignment → Image UInt8) → Image UInt8 → Prop} {own : Assignment → Image UInt8}
  {shared : Image UInt8}

/-- On the shared memory a block makes no request that it does not make on its own. -/
theorem issues (iso : Isolation program dim blocks data Agree) (hb : b ∈ blocks) {s : Lockstep}
    (hf : Lockstep.Finishes program s m) :
    ∀ {own shared}, own b = s.memory → (∀ r, s.Issues program r → b.Issues program dim data r) →
      Agree own shared → ∀ r, Lockstep.Issues program { s with memory := shared } r →
        s.Issues program r := by
  induction hf with
  | @ret s hs =>
    intro own shared _ _ _ r hr
    have hs' : Lockstep.step program { s with memory := shared } = none := by
      rw [Lockstep.step_eq_none] at hs ⊢
      exact hs
    rw [Lockstep.issues_iff_of_step_eq_none hs'] at hr
    exact (Lockstep.issues_iff_of_step_eq_none hs).2 hr
  | @next s s' m hs _ ih =>
    intro own shared ho hi hA r hr
    obtain ⟨hret, rfl⟩ := Lockstep.step_eq_some.1 hs
    obtain ⟨h1, h2⟩ := iso.sweep_execute hb (fun t ht r hr ↦ hi r ⟨s, .refl, t, ht, hr⟩) own
      shared hA
    rw [ho] at h1 h2
    have hs' := (Lockstep.step_eq_some (s := { s with memory := shared })).2 ⟨hret, rfl⟩
    rw [Lockstep.issues_iff_of_step_eq_some hs'] at hr
    rw [Lockstep.issues_iff_of_step_eq_some hs]
    refine hr.imp_right fun hr ↦ ih (Function.update_self ..) ?_ h2 r ?_
    · exact fun r hr ↦ hi r (hr.of_step hs)
    · exact h1 ▸ hr

end Isolation

/-- The memory that the block owns and the shared one hold the same at each address that the block
touches on the memory `m`. -/
def Alike (program : Image UInt16) (dim : UInt8) (b : Assignment) (m : Image UInt8)
    (own : Assignment → Image UInt8) (shared : Image UInt8) : Prop :=
  ∀ r, b.Issues program dim m r → (own b).read r.addr = shared.read r.addr

theorem isolation_of_alike (program : Image UInt16) (dim : UInt8) (b : Assignment)
    (m : Image UInt8) : Isolation program dim [b] m (Alike program dim b m) where
  start _ _ := rfl
  access := by
    intro own shared b' r hb hr hA
    obtain rfl := List.mem_singleton.1 hb
    cases r with
    | read a =>
      refine ⟨(hA _ hr).symm, ?_⟩
      rwa [Request.apply, Request.apply, Function.update_eq_self]
    | write a v =>
      refine ⟨rfl, fun r' hr' ↦ ?_⟩
      rw [Function.update_self, Request.apply, Request.apply, Image.read_write, Image.read_write,
        hA r' hr']

namespace Assignment

/-- A block cannot tell memories apart that hold the same wherever it touches them. -/
theorem FinishesTwice.of_alike {x : Image UInt8} (hf : b.FinishesTwice program dim m x)
    (h : ∀ r, b.Issues program dim m r → m.read r.addr = m'.read r.addr) :
    (∃ y, b.FinishesTwice program dim m' y) ∧
      ∀ r, b.Issues program dim m' r → b.Issues program dim m r := by
  have iso := isolation_of_alike program dim b m
  have hstart : Alike program dim b m (fun _ ↦ m) m' := h
  have hb : b ∈ [b] := List.mem_singleton_self b
  obtain ⟨mid, h1, h2⟩ := hf
  have first (r) (hr : (b.enter dim m).Issues program r) : b.Issues program dim m r := .inl hr
  have second (r) (hr : (b.enter dim mid).Issues program r) : b.Issues program dim m r :=
    .inr ⟨mid, h1, hr⟩
  -- the second pass begins on memories that are alike again
  obtain ⟨mid', h1', hA⟩ := iso.finishes hb h1 rfl first hstart
  obtain ⟨y, h2', -⟩ := iso.finishes hb h2 (Function.update_self ..) second hA
  refine ⟨⟨y, mid', h1', h2'⟩, fun r hr ↦ ?_⟩
  rcases hr with hr | ⟨mid₁, hm, hr⟩
  · exact first r (iso.issues hb h1 rfl first hstart r hr)
  · obtain rfl := hm.unique h1'
    exact second r (iso.issues hb h2 (Function.update_self ..) second hA r hr)

end Assignment

/-! ## All blocks -/

namespace ApartInTurn

/-- What the blocks before a block have stored is of no concern to it. -/
theorem read_eq (h : ApartInTurn program dim blocks data) (hn : blocks.Nodup)
    (hb : b.Finds program dim blocks data m) {r : Request UInt8}
    (hr : b.Issues program dim m r) : m.read r.addr = data.read r.addr := by
  have hfinds := hb
  obtain ⟨pre, post, rfl, ht⟩ := hb
  refine ht.read_of_not_stores fun b' x hx ↦ ?_
  have hne : b ≠ b' := by
    rintro rfl
    obtain ⟨pre', post', rfl, -⟩ := hx
    exact (List.nodup_cons.1 (List.nodup_middle.1 hn)).1 (by simp)
  exact h b b' m x hfinds hx.append hne r hr

theorem finishesTwice (h : ApartInTurn program dim blocks data) (hn : blocks.Nodup)
    (ht : Assignment.InTurn program dim blocks data m) (hb : b ∈ blocks) :
    ∃ m', b.FinishesTwice program dim data m' := by
  obtain ⟨x, y, hx, hf⟩ := ht.finds hb
  exact (hf.of_alike fun r hr ↦ h.read_eq hn hx hr).1

theorem nonInterfering (h : ApartInTurn program dim blocks data) (hn : blocks.Nodup)
    (ht : Assignment.InTurn program dim blocks data m) :
    NonInterfering program dim blocks data := by
  rintro b hb b' hb' hne r hr ⟨v, hv⟩
  obtain ⟨x, y, hx, hf⟩ := ht.finds hb
  obtain ⟨x', y', hx', hf'⟩ := ht.finds hb'
  have hi := (hf.of_alike fun r hr ↦ h.read_eq hn hx hr).2 r hr
  have hi' := (hf'.of_alike fun r hr ↦ h.read_eq hn hx' hr).2 _ hv
  exact h b b' x x' hx hx' hne r hi ⟨v, hi'⟩

end ApartInTurn

/-! ## Runs in turn -/

/-- Runs the blocks in turn, each for at most `fuel` instructions in a pass, and lists the requests
of each block. -/
def passesInTurn (program : Image UInt16) (dim : UInt8) (fuel : Nat) :
    List Assignment → Image UInt8 → Option (List (Assignment × List (Request UInt8)) × Image UInt8)
  | [], m => some ([], m)
  | b :: bs, m => do
    let (rs, mid) ← b.passes program dim fuel m
    let (log, m') ← passesInTurn program dim fuel bs mid
    return ((b, rs) :: log, m')

theorem passesInTurn_spec {fuel : Nat} {log : List (Assignment × List (Request UInt8))}
    (h : passesInTurn program dim fuel blocks data = some (log, m)) :
    Assignment.InTurn program dim blocks data m ∧
      ∀ (b : Assignment) x, b.Finds program dim blocks data x →
        ∃ rs, (b, rs) ∈ log ∧ ∀ r, b.Issues program dim x r ↔ r ∈ rs := by
  induction blocks generalizing data log with
  | nil =>
    cases h
    refine ⟨.nil _, ?_⟩
    rintro b x ⟨pre, post, hq, -⟩
    simp at hq
  | cons b bs ih =>
    obtain ⟨⟨rs, mid⟩, hp, h⟩ := Option.bind_eq_some_iff.1 h
    obtain ⟨⟨log', m'⟩, hps, h⟩ := Option.bind_eq_some_iff.1 h
    cases h
    obtain ⟨hf, hi⟩ := Assignment.passes_spec hp
    obtain ⟨ht, his⟩ := ih hps
    refine ⟨.cons hf ht, ?_⟩
    rintro b' x ⟨pre, post, hq, hx⟩
    cases hx with
    | nil =>
      obtain ⟨rfl, -⟩ := List.cons.inj hq
      exact ⟨rs, List.mem_cons_self, hi⟩
    | @cons _ pre _ mid' _ hf' hx =>
      obtain ⟨rfl, htail⟩ := List.cons.inj hq
      obtain rfl := hf'.unique hf
      obtain ⟨rs', hmem, hr⟩ := his b' x ⟨pre, post, htail, hx⟩
      exact ⟨rs', List.mem_cons_of_mem _ hmem, hr⟩

/-- Whether the blocks come to an end in turn and keep apart. -/
def keepApart (program : Image UInt16) (dim : UInt8) (fuel : Nat) (blocks : List Assignment)
    (data : Image UInt8) : Bool :=
  match passesInTurn program dim fuel blocks data with
  | none => false
  | some (log, _) => log.all fun (b, rs) ↦ log.all fun (b', rs') ↦
      b = b' || rs.all fun r ↦ rs'.all fun
        | .read _ => true
        | .write a _ => r.addr ≠ a

theorem apartInTurn_of_keepApart {fuel : Nat}
    (h : keepApart program dim fuel blocks data = true) :
    (∃ m, Assignment.InTurn program dim blocks data m) ∧ ApartInTurn program dim blocks data := by
  unfold keepApart at h
  split at h
  · cases h
  · next log m hp =>
    obtain ⟨ht, hi⟩ := passesInTurn_spec hp
    refine ⟨⟨m, ht⟩, ?_⟩
    rintro b b' x x' hx hx' hne r hr ⟨v, hv⟩
    obtain ⟨rs, hmem, hrs⟩ := hi b x hx
    obtain ⟨rs', hmem', hrs'⟩ := hi b' x' hx'
    have hq := List.all_eq_true.1 (List.all_eq_true.1 h _ hmem) _ hmem'
    simp only [hne, decide_false, Bool.false_or] at hq
    simpa using List.all_eq_true.1 (List.all_eq_true.1 hq r ((hrs r).1 hr)) _ ((hrs' _).1 hv)

end SimtMachine
