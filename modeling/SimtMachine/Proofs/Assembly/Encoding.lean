import Mathlib.Data.List.Forall2
import SimtMachine.Assembly.Inst

/-!
# Instructions and their words

The same instruction over different registers and immediates: resolving goes from one to another,
encoding ends in a word, and decoding this word gives back every field that the operation uses.
-/

namespace SimtMachine.Assembly

section Outcomes

variable {α β ε : Type}

theorem bind_eq_ok_iff {x : Except ε α} {f : α → Except ε β} {b : β} :
    x >>= f = .ok b ↔ ∃ a, x = .ok a ∧ f a = .ok b := by
  cases x <;> simp [bind, Except.bind]

theorem pure_eq_ok_iff {a b : α} : (pure a : Except ε α) = .ok b ↔ a = b := by
  simp [pure, Except.pure]

theorem throw_ne_ok {e : ε} {a : α} : (throw e : Except ε α) ≠ .ok a := nofun

theorem map_eq_ok_iff {x : Except ε α} {f : α → β} {b : β} :
    x.map f = .ok b ↔ ∃ a, x = .ok a ∧ f a = b := by
  cases x <;> simp [Except.map]

/-- A run over a list succeeds if and only if it does so at each element. -/
theorem mapM_eq_ok_iff {f : α → Except ε β} {l : List α} {l' : List β} :
    l.mapM f = .ok l' ↔ List.Forall₂ (fun a b ↦ f a = .ok b) l l' := by
  induction l generalizing l' with
  | nil => rw [List.mapM_nil, pure_eq_ok_iff, List.forall₂_nil_left_iff, eq_comm]
  | cons a l ih =>
    simp only [List.mapM_cons, bind_eq_ok_iff, ih, pure_eq_ok_iff, List.forall₂_cons_left_iff]
    constructor
    · rintro ⟨b, hb, bs, hbs, rfl⟩
      exact ⟨b, bs, hb, hbs, rfl⟩
    · rintro ⟨b, bs, hb, hbs, rfl⟩
      exact ⟨b, hb, bs, hbs, rfl⟩

end Outcomes

namespace Inst

variable {ρ ρ' ρ'' ι ι' ι'' ε : Type} {i : Inst ρ ι} {j j' : Inst ρ' ι'} {k : Inst ρ'' ι''}

def registers : Inst ρ ι → List ρ
  | nop | ret | branch _ _ => []
  | compare a b | load a b | store a b => [a, b]
  | arith _ a b c => [a, b, c]
  | const a _ => [a]

def immediates : Inst ρ ι → List ι
  | branch _ o | const _ o => [o]
  | nop | ret | compare _ _ | arith _ _ _ _ | load _ _ | store _ _ => []

/-- The same form of instruction, with related registers and related immediates in each place. -/
inductive Rel (R : ρ → ρ' → Prop) (S : ι → ι' → Prop) : Inst ρ ι → Inst ρ' ι' → Prop
  | nop : Rel R S nop nop
  | ret : Rel R S ret ret
  | branch {mask : UInt8} {o : ι} {o' : ι'} : S o o' → Rel R S (branch mask o) (branch mask o')
  | compare {a b : ρ} {a' b' : ρ'} : R a a' → R b b' → Rel R S (compare a b) (compare a' b')
  | arith {f : Arith} {a b c : ρ} {a' b' c' : ρ'} : R a a' → R b b' → R c c' →
      Rel R S (arith f a b c) (arith f a' b' c')
  | load {a b : ρ} {a' b' : ρ'} : R a a' → R b b' → Rel R S (load a b) (load a' b')
  | store {a b : ρ} {a' b' : ρ'} : R a a' → R b b' → Rel R S (store a b) (store a' b')
  | const {a : ρ} {a' : ρ'} {o : ι} {o' : ι'} : R a a' → S o o' →
      Rel R S (const a o) (const a' o')

variable {R R' : ρ → ρ' → Prop} {S S' : ι → ι' → Prop} {Q : ρ' → ρ'' → Prop} {T : ι' → ι'' → Prop}

theorem Rel.imp (h : Rel R S i j) (hR : ∀ a ∈ i.registers, ∀ b, R a b → R' a b)
    (hS : ∀ a ∈ i.immediates, ∀ b, S a b → S' a b) : Rel R' S' i j := by
  cases h with
  | nop => exact .nop
  | ret => exact .ret
  | branch ho => exact .branch (hS _ (by simp [immediates]) _ ho)
  | compare ha hb =>
    exact .compare (hR _ (by simp [registers]) _ ha) (hR _ (by simp [registers]) _ hb)
  | arith ha hb hc =>
    exact .arith (hR _ (by simp [registers]) _ ha) (hR _ (by simp [registers]) _ hb)
      (hR _ (by simp [registers]) _ hc)
  | load ha hb => exact .load (hR _ (by simp [registers]) _ ha) (hR _ (by simp [registers]) _ hb)
  | store ha hb => exact .store (hR _ (by simp [registers]) _ ha) (hR _ (by simp [registers]) _ hb)
  | const ha ho =>
    exact .const (hR _ (by simp [registers]) _ ha) (hS _ (by simp [immediates]) _ ho)

theorem rel_congr (hR : ∀ a ∈ i.registers, ∀ b, R a b ↔ R' a b)
    (hS : ∀ a ∈ i.immediates, ∀ b, S a b ↔ S' a b) : Rel R S i j ↔ Rel R' S' i j :=
  ⟨fun h ↦ h.imp (fun a ha b ↦ (hR a ha b).1) fun a ha b ↦ (hS a ha b).1,
    fun h ↦ h.imp (fun a ha b ↦ (hR a ha b).2) fun a ha b ↦ (hS a ha b).2⟩

theorem rel_refl {R : ρ → ρ → Prop} {S : ι → ι → Prop} (hR : ∀ a, R a a) (hS : ∀ a, S a a)
    (i : Inst ρ ι) : Rel R S i i := by
  cases i <;> constructor <;> solve_by_elim

theorem Rel.flip (h : Rel R S i j) : Rel (flip R) (flip S) j i := by
  cases h <;> constructor <;> assumption

theorem exists_rel_iff : (∃ j, Rel R S i j) ↔
    (∀ a ∈ i.registers, ∃ b, R a b) ∧ ∀ a ∈ i.immediates, ∃ b, S a b := by
  constructor
  · rintro ⟨j, h⟩
    cases h <;> simp only [registers, immediates] <;> grind
  · rintro ⟨hR, hS⟩
    cases i with
    | nop => exact ⟨nop, .nop⟩
    | ret => exact ⟨ret, .ret⟩
    | branch mask o =>
      obtain ⟨o', ho⟩ := hS o (by simp [immediates])
      exact ⟨branch mask o', .branch ho⟩
    | compare a b =>
      obtain ⟨a', ha⟩ := hR a (by simp [registers])
      obtain ⟨b', hb⟩ := hR b (by simp [registers])
      exact ⟨compare a' b', .compare ha hb⟩
    | arith f a b c =>
      obtain ⟨a', ha⟩ := hR a (by simp [registers])
      obtain ⟨b', hb⟩ := hR b (by simp [registers])
      obtain ⟨c', hc⟩ := hR c (by simp [registers])
      exact ⟨arith f a' b' c', .arith ha hb hc⟩
    | load a b =>
      obtain ⟨a', ha⟩ := hR a (by simp [registers])
      obtain ⟨b', hb⟩ := hR b (by simp [registers])
      exact ⟨load a' b', .load ha hb⟩
    | store a b =>
      obtain ⟨a', ha⟩ := hR a (by simp [registers])
      obtain ⟨b', hb⟩ := hR b (by simp [registers])
      exact ⟨store a' b', .store ha hb⟩
    | const a o =>
      obtain ⟨a', ha⟩ := hR a (by simp [registers])
      obtain ⟨o', ho⟩ := hS o (by simp [immediates])
      exact ⟨const a' o', .const ha ho⟩

theorem exists_rel_rel_iff : (∃ j, Rel R S i j ∧ Rel Q T j k) ↔
    Rel (fun a c ↦ ∃ b, R a b ∧ Q b c) (fun a c ↦ ∃ b, S a b ∧ T b c) i k := by
  constructor
  · rintro ⟨j, h, h'⟩
    cases h <;> cases h' <;> constructor <;> exact ⟨_, ‹_›, ‹_›⟩
  · intro h
    cases h with
    | nop => exact ⟨_, .nop, .nop⟩
    | ret => exact ⟨_, .ret, .ret⟩
    | branch ho =>
      obtain ⟨_, h₁, h₁'⟩ := ho
      exact ⟨_, .branch h₁, .branch h₁'⟩
    | compare ha hb =>
      obtain ⟨_, h₁, h₁'⟩ := ha
      obtain ⟨_, h₂, h₂'⟩ := hb
      exact ⟨_, .compare h₁ h₂, .compare h₁' h₂'⟩
    | arith ha hb hc =>
      obtain ⟨_, h₁, h₁'⟩ := ha
      obtain ⟨_, h₂, h₂'⟩ := hb
      obtain ⟨_, h₃, h₃'⟩ := hc
      exact ⟨_, .arith h₁ h₂ h₃, .arith h₁' h₂' h₃'⟩
    | load ha hb =>
      obtain ⟨_, h₁, h₁'⟩ := ha
      obtain ⟨_, h₂, h₂'⟩ := hb
      exact ⟨_, .load h₁ h₂, .load h₁' h₂'⟩
    | store ha hb =>
      obtain ⟨_, h₁, h₁'⟩ := ha
      obtain ⟨_, h₂, h₂'⟩ := hb
      exact ⟨_, .store h₁ h₂, .store h₁' h₂'⟩
    | const ha ho =>
      obtain ⟨_, h₁, h₁'⟩ := ha
      obtain ⟨_, h₂, h₂'⟩ := ho
      exact ⟨_, .const h₁ h₂, .const h₁' h₂'⟩

theorem Rel.unique (h : Rel R S i j) (h' : Rel R S i j') (hR : Relator.RightUnique R)
    (hS : Relator.RightUnique S) : j = j' := by
  cases h with
  | nop | ret =>
    cases h'
    rfl
  | branch ho =>
    cases h' with
    | branch ho' => rw [hS ho ho']
  | compare ha hb =>
    cases h' with
    | compare ha' hb' => rw [hR ha ha', hR hb hb']
  | arith ha hb hc =>
    cases h' with
    | arith ha' hb' hc' => rw [hR ha ha', hR hb hb', hR hc hc']
  | load ha hb =>
    cases h' with
    | load ha' hb' => rw [hR ha ha', hR hb hb']
  | store ha hb =>
    cases h' with
    | store ha' hb' => rw [hR ha ha', hR hb hb']
  | const ha ho =>
    cases h' with
    | const ha' ho' => rw [hR ha ha', hS ho ho']

theorem resolve_eq_ok_iff {reg : ρ → Except ε ρ'} {imm : ι → Except ε ι'} :
    i.resolve reg imm = .ok j ↔ Rel (fun a b ↦ reg a = .ok b) (fun a b ↦ imm a = .ok b) i j := by
  constructor
  · intro h
    cases i <;> simp only [resolve, bind_eq_ok_iff, pure_eq_ok_iff] at h
    case nop => exact h ▸ .nop
    case ret => exact h ▸ .ret
    case branch =>
      obtain ⟨_, ho, rfl⟩ := h
      exact .branch ho
    case compare =>
      obtain ⟨_, ha, _, hb, rfl⟩ := h
      exact .compare ha hb
    case arith =>
      obtain ⟨_, ha, _, hb, _, hc, rfl⟩ := h
      exact .arith ha hb hc
    case load =>
      obtain ⟨_, ha, _, hb, rfl⟩ := h
      exact .load ha hb
    case store =>
      obtain ⟨_, ha, _, hb, rfl⟩ := h
      exact .store ha hb
    case const =>
      obtain ⟨_, ha, _, ho, rfl⟩ := h
      exact .const ha ho
  · intro h
    cases h <;> simp_all [resolve, bind_eq_ok_iff, pure_eq_ok_iff]

/-! ## Words -/

/-- What decoding finds in the fields that the operation uses. -/
def Fields : Inst Reg UInt8 → Instruction → Prop
  | nop, d => d.op = .nop
  | ret, d => d.op = .ret
  | branch mask imm, d => d.op = .branch ∧ d.mask = mask ∧ d.imm = imm
  | compare rs rt, d => d.op = .compare ∧ d.rs = rs ∧ d.rt = rt
  | arith f rd rs rt, d => d.op = .arith f ∧ d.rd = rd ∧ d.rs = rs ∧ d.rt = rt
  | load rd rs, d => d.op = .load ∧ d.rd = rd ∧ d.rs = rs
  | store rs rt, d => d.op = .store ∧ d.rs = rs ∧ d.rt = rt
  | const rd imm, d => d.op = .const ∧ d.rd = rd ∧ d.imm = imm

/-- The condition mask of a branch has three bits. -/
def Encodable (j : Inst Reg UInt8) : Prop := ∀ mask t, j = branch mask t → mask < 8

theorem fields_decode_encode {j : Inst Reg UInt8} (h : j.Encodable) :
    j.Fields (decode j.encode) := by
  cases j with
  | nop => rw [encode, decode_registerWord (by rfl)]; rfl
  | ret => rw [encode, decode_registerWord (by rfl)]; rfl
  | branch mask imm => rw [encode, decode_branchWord (h mask imm rfl)]; exact ⟨rfl, rfl, rfl⟩
  | compare rs rt => rw [encode, decode_registerWord (by rfl)]; exact ⟨rfl, rfl, rfl⟩
  | arith f rd rs rt =>
    rw [encode, decode_registerWord (by rfl)]
    exact ⟨rfl, rfl, rfl, rfl⟩
  | load rd rs => rw [encode, decode_registerWord (by rfl)]; exact ⟨rfl, rfl, rfl⟩
  | store rs rt => rw [encode, decode_registerWord (by rfl)]; exact ⟨rfl, rfl, rfl⟩
  | const rd imm => rw [encode, decode_constWord]; exact ⟨rfl, rfl, rfl⟩

end Inst

end SimtMachine.Assembly
