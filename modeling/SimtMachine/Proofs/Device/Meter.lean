import Mathlib.Algebra.GroupWithZero.Nat
import Mathlib.Algebra.Order.BigOperators.Group.List
import Mathlib.Algebra.Order.Group.Nat
import SimtMachine.Proofs.Device.Pool

/-!
# What a pool still owes

No move of a pool adds to what its blocks owe, and every push takes something off. What a block owes
is known in two situations: a single core makes the blocks in turn, each on what the ones before it
have left, or every block has a memory of its own that no other block disturbs.
-/

namespace SimtMachine

open Relation (ReflTransGen)
open SimtMachine.Core (Answers Owes wordOf)

namespace Pool

/-- A quantity of pools that no move adds to and that every push lessens. -/
structure Meter (program : Image UInt16) (P : Pool → Nat → Prop) : Prop where
  tick : ∀ {pre post : List Core} {c : Core} {m : Image UInt8} {w d : List Assignment} {r : Nat},
    P ⟨pre ++ c :: post, m, w, d⟩ r →
      ∃ r', P ⟨pre ++ c.tick.1 :: post, m, w, d⟩ r' ∧ r' ≤ r ∧ (c.Able → r' < r)
  answer : ∀ {pre post : List Core} {c c' : Core} {m m' : Image UInt8} {w d : List Assignment}
    {r : Nat}, P ⟨pre ++ c :: post, m, w, d⟩ r → Answers program (c, m) (c', m') →
      ∃ r' < r, P ⟨pre ++ c' :: post, m', w, d⟩ r'
  dispatch : ∀ {pre post : List Core} {c : Core} {m : Image UInt8} {b : Assignment}
    {w d : List Assignment} {r : Nat}, P ⟨pre ++ c :: post, m, b :: w, d⟩ r →
      c.assignment = none → ∃ r' < r, P ⟨pre ++ c.start b :: post, m, w, d⟩ r'
  retire : ∀ {pre post : List Core} {c : Core} {m : Image UInt8} {b : Assignment}
    {w d : List Assignment} {r : Nat}, P ⟨pre ++ c :: post, m, w, d⟩ r →
      c.assignment = some b → c.done = true →
        ∃ r' < r, P ⟨pre ++ c.reset :: post, m, w, d ++ [b]⟩ r'

variable {program : Image UInt16} {dim : UInt8} {P : Pool → Nat → Prop} {p p' : Pool} {r : Nat}

theorem Meter.pushes (h : Meter program P) (hp : P p r) (hm : p.Pushes program p') :
    ∃ r' < r, P p' r' := by
  cases hm with
  | tick hable =>
    obtain ⟨r', hp', -, hlt⟩ := h.tick hp
    exact ⟨r', hlt hable, hp'⟩
  | answer ha => exact h.answer hp ha
  | dispatch hn => exact h.dispatch hp hn
  | retire hb hd => exact h.retire hp hb hd

theorem Meter.moves (h : Meter program P) (hp : P p r) (hm : p.Moves program p') :
    ∃ r' ≤ r, P p' r' := by
  cases hm with
  | work hw =>
    rcases hw.tick_or_answers with ⟨rfl, rfl⟩ | ha
    · obtain ⟨r', hp', hle, -⟩ := h.tick hp
      exact ⟨r', hle, hp'⟩
    · obtain ⟨r', hlt, hp'⟩ := h.answer hp ha
      exact ⟨r', hlt.le, hp'⟩
  | dispatch hn =>
    obtain ⟨r', hlt, hp'⟩ := h.dispatch hp hn
    exact ⟨r', hlt.le, hp'⟩
  | retire hb hd =>
    obtain ⟨r', hlt, hp'⟩ := h.retire hp hb hd
    exact ⟨r', hlt.le, hp'⟩

theorem Meter.moves_all (h : Meter program P) (hp : P p r)
    (hm : ReflTransGen (Moves program) p p') : ∃ r' ≤ r, P p' r' := by
  induction hm with
  | refl => exact ⟨r, Nat.le_refl r, hp⟩
  | tail _ hm ih =>
    obtain ⟨r₁, hle₁, hp₁⟩ := ih
    obtain ⟨r₂, hle₂, hp₂⟩ := h.moves hp₁ hm
    exact ⟨r₂, hle₂.trans hle₁, hp₂⟩

theorem Meter.progresses (h : Meter program P) (hp : P p r) (hm : p.Progresses program p') :
    ∃ r' < r, P p' r' := by
  obtain ⟨p₁, p₂, h1, h2, h3⟩ := hm
  obtain ⟨r₁, hle₁, hp₁⟩ := h.moves_all hp h1
  obtain ⟨r₂, hlt₂, hp₂⟩ := h.pushes hp₁ h2
  obtain ⟨r₃, hle₃, hp₃⟩ := h.moves_all hp₂ h3
  exact ⟨r₃, by omega, hp₃⟩

/-! ## One core -/

/-- What the blocks of a list owe that are made in turn, with two units each for beginning and
giving up the block. -/
inductive Bill (program : Image UInt16) (dim : UInt8) : List Assignment → Image UInt8 → Nat → Prop
  | nil (m : Image UInt8) : Bill program dim [] m 0
  | cons {b : Assignment} {bs : List Assignment} {m mid : Image UInt8} {r rs : Nat} :
      (∀ c : Core, c.blockDim = dim → Owes program mid (c.start b) m r) →
      Bill program dim bs mid rs → Bill program dim (b :: bs) m (r + 1 + rs + 1)

theorem exists_bill {bs : List Assignment} {m m' : Image UInt8}
    (h : Assignment.InTurn program dim bs m m') : ∃ r, Bill program dim bs m r := by
  induction h with
  | nil => exact ⟨0, .nil _⟩
  | cons hb _ ih =>
    obtain ⟨r, hr⟩ := Core.exists_owes_start hb
    obtain ⟨rs, hrs⟩ := ih
    exact ⟨_, .cons hr hrs⟩

/-- What a pool with a single core owes. -/
inductive Alone (program : Image UInt16) (dim : UInt8) (p : Pool) : Nat → Prop
  | vacant {c : Core} {r : Nat} : p.cores = [c] → c.Sound (wordOf program) → c.blockDim = dim →
      c.assignment = none → Bill program dim p.waiting p.memory r → Alone program dim p r
  | busy {c : Core} {b : Assignment} {fin : Image UInt8} {r rs : Nat} : p.cores = [c] →
      c.Sound (wordOf program) → c.blockDim = dim → c.assignment = some b →
      Owes program fin c p.memory r → Bill program dim p.waiting fin rs →
      Alone program dim p (r + 1 + rs)

theorem meter_alone (program : Image UInt16) (dim : UInt8) : Meter program (Alone program dim) where
  tick h := by
    cases h with
    | vacant hx hs hdim hn hb =>
      obtain ⟨rfl, rfl, rfl⟩ := eq_of_append_cons_eq_singleton hx
      have ht := hs.tick_asleep hn
      rw [ht]
      refine ⟨_, .vacant rfl hs hdim hn hb, Nat.le_refl _, fun hable ↦ ?_⟩
      exact absurd hable.assigned (by simp [hn])
    | busy hx hs hdim ha ho hb =>
      obtain ⟨rfl, rfl, rfl⟩ := eq_of_append_cons_eq_singleton hx
      obtain ⟨r', ho', hle, hlt⟩ := ho.tick hs
      exact ⟨_, .busy rfl hs.tick hdim ha ho' hb, by omega, fun hable ↦ by
        have hlt := hlt hable
        omega⟩
  answer h hans := by
    cases h with
    | vacant hx hs _ hn =>
      obtain ⟨rfl, rfl, rfl⟩ := eq_of_append_cons_eq_singleton hx
      exact absurd hans (hs.not_answers_asleep hn)
    | busy hx hs hdim ha ho hb =>
      obtain ⟨rfl, rfl, rfl⟩ := eq_of_append_cons_eq_singleton hx
      obtain ⟨r', hlt, ho'⟩ := ho.answers hs hans
      have hw := hans.works
      exact ⟨_, by omega, .busy rfl (hs.works hw) (hw.blockDim.trans hdim)
        (hw.assignment.trans ha) ho' hb⟩
  dispatch h hn := by
    cases h with
    | vacant hx _ hdim _ hb =>
      obtain ⟨rfl, rfl, rfl⟩ := eq_of_append_cons_eq_singleton hx
      cases hb with
      | cons ho hbs =>
        exact ⟨_, Nat.lt_succ_self _,
          .busy rfl (Core.sound_start _ _ _) hdim rfl (ho _ hdim) hbs⟩
    | busy hx _ _ ha =>
      obtain ⟨rfl, rfl, rfl⟩ := eq_of_append_cons_eq_singleton hx
      exact nomatch hn.symm.trans ha
  retire h hb hd := by
    cases h with
    | vacant hx _ _ hn =>
      obtain ⟨rfl, rfl, rfl⟩ := eq_of_append_cons_eq_singleton hx
      exact nomatch hn.symm.trans hb
    | busy hx hs hdim _ ho hbs =>
      obtain ⟨rfl, rfl, rfl⟩ := eq_of_append_cons_eq_singleton hx
      have hm := ho.of_done hs hd
      exact ⟨_, by omega, .vacant rfl (Core.sound_idle _ _ _) hdim rfl (hm ▸ hbs)⟩

/-! ## Isolated blocks -/

variable {blocks : List Assignment} {data : Image UInt8}
  {Agree : (Assignment → Image UInt8) → Image UInt8 → Prop} {own : Assignment → Image UInt8}
  {due : Assignment → Nat}

/-- What each block owes on its own memory, with a unit for giving up the block and, before its
start, one for beginning it. -/
structure Owing (program : Image UInt16) (dim : UInt8) (data : Image UInt8)
    (Agree : (Assignment → Image UInt8) → Image UInt8 → Prop) (own : Assignment → Image UInt8)
    (due : Assignment → Nat) (p : Pool) : Prop where
  isolated : p.Isolated program dim data Agree own
  waiting : ∀ b ∈ p.waiting, ∃ fin r, due b = r + 2 ∧
    ∀ c : Core, c.blockDim = dim → Owes program fin (c.start b) data r
  running : ∀ c ∈ p.cores, ∀ b, c.assignment = some b →
    ∃ fin r, due b = r + 1 ∧ Owes program fin c (own b) r

/-- What a pool of isolated blocks owes. -/
structure Apart (program : Image UInt16) (dim : UInt8) (blocks : List Assignment)
    (data : Image UInt8) (Agree : (Assignment → Image UInt8) → Image UInt8 → Prop) (p : Pool)
    (r : Nat) : Prop where
  staffed : p.Staffed program dim
  perm : p.blocks.Perm blocks
  owing : ∃ own due, p.Owing program dim data Agree own due ∧ r = (blocks.map due).sum

/-- A block that has not been begun is nowhere else. -/
theorem not_mem_of_waiting {pre post : List Core} {c : Core} {m : Image UInt8} {b : Assignment}
    {w d : List Assignment} (hn : (Pool.mk (pre ++ c :: post) m (b :: w) d).blocks.Nodup)
    (ha : c.assignment = none) : b ∉ w ∧ ∀ x ∈ pre ++ post, x.assignment ≠ some b := by
  have hmove : Moves (default : Image UInt16) ⟨pre ++ c :: post, m, b :: w, d⟩
      ⟨pre ++ c.start b :: post, m, w, d⟩ := .dispatch ha
  obtain ⟨hnw, hnr, -⟩ := not_mem_of_running (hmove.blocks.nodup_iff.2 hn) rfl
  exact ⟨hnw, hnr⟩

theorem sum_update_le {b : Assignment} {x : Nat} (hx : x ≤ due b) :
    (blocks.map (Function.update due b x)).sum ≤ (blocks.map due).sum := by
  refine List.sum_le_sum fun b' _ ↦ ?_
  by_cases hq : b' = b
  · rwa [hq, Function.update_self]
  · rw [Function.update_of_ne hq]

theorem sum_update_lt {b : Assignment} {x : Nat} (hb : b ∈ blocks) (hx : x < due b) :
    (blocks.map (Function.update due b x)).sum < (blocks.map due).sum := by
  refine List.sum_lt_sum _ _ (fun b' _ ↦ ?_) ⟨b, hb, by rwa [Function.update_self]⟩
  by_cases hq : b' = b
  · rw [hq, Function.update_self]
    exact hx.le
  · rw [Function.update_of_ne hq]

section Owing

variable {pre post : List Core} {c c' : Core} {m m' x : Image UInt8} {b : Assignment}
  {w d : List Assignment}

/-- What happens to one block is nothing to the cores with other blocks. -/
theorem Owing.others {own' : Assignment → Image UInt8} {due' : Assignment → Nat}
    (h : Owing program dim data Agree own due ⟨pre ++ c :: post, m, w, d⟩)
    (hnr : ∀ y ∈ pre ++ post, y.assignment ≠ some b) (hown : ∀ b' ≠ b, own' b' = own b')
    (hdue : ∀ b' ≠ b, due' b' = due b') :
    ∀ y ∈ pre ++ post, ∀ b', y.assignment = some b' →
      ∃ fin r, due' b' = r + 1 ∧ Owes program fin y (own' b') r := by
  intro y hy b' hb'
  have hne : b' ≠ b := fun hq ↦ hnr y hy (hq ▸ hb')
  rw [hown b' hne, hdue b' hne]
  exact h.running y (mem_replace.2 (.inr hy)) b' hb'

theorem Owing.update {fin : Image UInt8} {r : Nat}
    (h : Owing program dim data Agree own due ⟨pre ++ c :: post, m, w, d⟩)
    (hn : (Pool.mk (pre ++ c :: post) m w d).blocks.Nodup) (hb : c.assignment = some b)
    (hb' : c'.assignment = some b) (he : Core.Executes program dim b data c' x)
    (hA : Agree (Function.update own b x) m') (ho : Owes program fin c' x r) :
    Owing program dim data Agree (Function.update own b x) (Function.update due b (r + 1))
      ⟨pre ++ c' :: post, m', w, d⟩ := by
  obtain ⟨hnw, hnr, -⟩ := not_mem_of_running hn hb
  refine ⟨h.isolated.update hn hb hb' he hA, fun b' hb' ↦ ?_, fun y hy ↦ ?_⟩
  · rw [Function.update_of_ne (ne_of_mem_of_not_mem hb' hnw)]
    exact h.waiting b' hb'
  · rcases mem_replace.1 hy with rfl | hy
    · intro b' hb''
      obtain rfl := Option.some.inj (hb'.symm.trans hb'')
      rw [Function.update_self, Function.update_self]
      exact ⟨fin, r, rfl, ho⟩
    · exact h.others hnr (fun _ hne ↦ Function.update_of_ne hne _ _)
        (fun _ hne ↦ Function.update_of_ne hne _ _) y hy

theorem Owing.tick (h : Owing program dim data Agree own due ⟨pre ++ c :: post, m, w, d⟩)
    (hn : (Pool.mk (pre ++ c :: post) m w d).blocks.Nodup) (hc : c.Sound (wordOf program))
    (ha : c.assignment = some b) :
    ∃ r ≤ due b, (c.Able → r < due b) ∧
      Owing program dim data Agree own (Function.update due b r)
        ⟨pre ++ c.tick.1 :: post, m, w, d⟩ := by
  obtain ⟨fin, r, hdue, hr⟩ := h.running c List.mem_append_cons_self b ha
  obtain ⟨r', hr', hle, hlt⟩ := hr.tick hc
  have he := h.isolated.running c List.mem_append_cons_self b ha
  have ha' : c.tick.1.assignment = some b := ha
  have hA : Agree (Function.update own b (own b)) m := by
    rw [Function.update_eq_self]
    exact h.isolated.agree
  have h' := h.update hn ha ha' (he.works (.tick c _)) hA hr'
  rw [Function.update_eq_self] at h'
  refine ⟨r' + 1, by omega, fun hable ↦ ?_, h'⟩
  have hlt := hlt hable
  omega

theorem Owing.answer (iso : Isolation program dim blocks data Agree) (hb : b ∈ blocks)
    (h : Owing program dim data Agree own due ⟨pre ++ c :: post, m, w, d⟩)
    (hn : (Pool.mk (pre ++ c :: post) m w d).blocks.Nodup) (hc : c.Sound (wordOf program))
    (ha : c.assignment = some b) (hans : Answers program (c, m) (c', m')) :
    ∃ own', ∃ r < due b, Owing program dim data Agree own' (Function.update due b r)
      ⟨pre ++ c' :: post, m', w, d⟩ := by
  obtain ⟨fin, r, hdue, hr⟩ := h.running c List.mem_append_cons_self b ha
  have he := h.isolated.running c List.mem_append_cons_self b ha
  obtain ⟨x, hx, hA⟩ := answers_own iso hb he h.isolated.agree hans
  obtain ⟨r', hlt, hr'⟩ := hr.answers hc hx
  have ha' : c'.assignment = some b := hx.works.assignment.trans ha
  exact ⟨_, r' + 1, by omega, h.update hn ha ha' (he.works hx.works) hA hr'⟩

theorem Owing.dispatch (h : Owing program dim data Agree own due ⟨pre ++ c :: post, m, b :: w, d⟩)
    (hn : (Pool.mk (pre ++ c :: post) m (b :: w) d).blocks.Nodup) (ha : c.assignment = none)
    (hdim : c.blockDim = dim) :
    ∃ r < due b, Owing program dim data Agree own (Function.update due b r)
      ⟨pre ++ c.start b :: post, m, w, d⟩ := by
  obtain ⟨hnw, hnr⟩ := not_mem_of_waiting hn ha
  obtain ⟨fin, r, hdue, hr⟩ := h.waiting b List.mem_cons_self
  refine ⟨r + 1, by omega, h.isolated.dispatch hdim, fun b' hb' ↦ ?_, fun y hy ↦ ?_⟩
  · rw [Function.update_of_ne (ne_of_mem_of_not_mem hb' hnw)]
    exact h.waiting b' (List.mem_cons_of_mem _ hb')
  · rcases mem_replace.1 hy with rfl | hy
    · intro b' hb'
      obtain rfl : b = b' := Option.some.inj hb'
      rw [Function.update_self, h.isolated.waiting b List.mem_cons_self]
      exact ⟨fin, r, rfl, hr c hdim⟩
    · exact h.others hnr (fun _ _ ↦ rfl) (fun _ hne ↦ Function.update_of_ne hne _ _) y hy

theorem Owing.retire (h : Owing program dim data Agree own due ⟨pre ++ c :: post, m, w, d⟩)
    (hn : (Pool.mk (pre ++ c :: post) m w d).blocks.Nodup) (ha : c.assignment = some b)
    (hd : c.done = true) :
    ∃ r < due b, Owing program dim data Agree own (Function.update due b r)
      ⟨pre ++ c.reset :: post, m, w, d ++ [b]⟩ := by
  obtain ⟨hnw, hnr, -⟩ := not_mem_of_running hn ha
  obtain ⟨fin, r, hdue, -⟩ := h.running c List.mem_append_cons_self b ha
  refine ⟨r, by omega, h.isolated.retire ha hd, fun b' hb' ↦ ?_, fun y hy ↦ ?_⟩
  · rw [Function.update_of_ne (ne_of_mem_of_not_mem hb' hnw)]
    exact h.waiting b' hb'
  · rcases mem_replace.1 hy with rfl | hy
    · have hnone : c.reset.assignment = none := rfl
      simp [hnone]
    · exact h.others hnr (fun _ _ ↦ rfl) (fun _ hne ↦ Function.update_of_ne hne _ _) y hy

end Owing

/-- What all blocks owe goes by what one of them owes. -/
theorem Owing.apart {b : Assignment} {x : Nat}
    (h : Owing program dim data Agree own (Function.update due b x) p)
    (hs : p.Staffed program dim) (hp : p.blocks.Perm blocks) (hb : b ∈ blocks) (hx : x < due b) :
    ∃ r < (blocks.map due).sum, Apart program dim blocks data Agree p r :=
  ⟨_, sum_update_lt hb hx, hs, hp, own, _, h, rfl⟩

theorem meter_apart (iso : Isolation program dim blocks data Agree) (hn : blocks.Nodup) :
    Meter program (Apart program dim blocks data Agree) where
  tick := by
    rintro pre post c m w d r ⟨hs, hb, own, due, ho, rfl⟩
    have hc := (hs c List.mem_append_cons_self).1
    have hmove : Moves program ⟨pre ++ c :: post, m, w, d⟩ ⟨pre ++ c.tick.1 :: post, m, w, d⟩ :=
      .work (.tick c m)
    cases ha : c.assignment with
    | none =>
      rw [hc.tick_asleep ha]
      refine ⟨_, ⟨hs, hb, own, due, ho, rfl⟩, Nat.le_refl _, fun hable ↦ ?_⟩
      exact absurd hable.assigned (by simp [ha])
    | some b =>
      obtain ⟨x, hle, hlt, ho'⟩ := ho.tick (hb.nodup_iff.2 hn) hc ha
      exact ⟨_, ⟨hmove.staffed hs, hmove.blocks.trans hb, own, _, ho', rfl⟩, sum_update_le hle,
        fun hable ↦ sum_update_lt (mem_of_running hb ha) (hlt hable)⟩
  answer := by
    rintro pre post c c' m m' w d r ⟨hs, hb, own, due, ho, rfl⟩ hans
    have hc := (hs c List.mem_append_cons_self).1
    have hmove : Moves program ⟨pre ++ c :: post, m, w, d⟩ ⟨pre ++ c' :: post, m', w, d⟩ :=
      .work hans.works
    cases ha : c.assignment with
    | none => exact absurd hans (hc.not_answers_asleep ha)
    | some b =>
      have hm := mem_of_running hb ha
      obtain ⟨_, x, hlt, ho'⟩ := ho.answer iso hm (hb.nodup_iff.2 hn) hc ha hans
      exact ho'.apart (hmove.staffed hs) (hmove.blocks.trans hb) hm hlt
  dispatch := by
    rintro pre post c m b w d r ⟨hs, hb, own, due, ho, rfl⟩ ha
    have hmove : Moves program ⟨pre ++ c :: post, m, b :: w, d⟩
        ⟨pre ++ c.start b :: post, m, w, d⟩ := .dispatch ha
    have hm : b ∈ blocks := hb.mem_iff.1 (by simp [Pool.blocks])
    obtain ⟨x, hlt, ho'⟩ := ho.dispatch (hb.nodup_iff.2 hn) ha (hs c List.mem_append_cons_self).2
    exact ho'.apart (hmove.staffed hs) (hmove.blocks.trans hb) hm hlt
  retire := by
    rintro pre post c m b w d r ⟨hs, hb, own, due, ho, rfl⟩ ha hd
    have hmove : Moves program ⟨pre ++ c :: post, m, w, d⟩
        ⟨pre ++ c.reset :: post, m, w, d ++ [b]⟩ := .retire ha hd
    obtain ⟨x, hlt, ho'⟩ := ho.retire (hb.nodup_iff.2 hn) ha hd
    exact ho'.apart (hmove.staffed hs) (hmove.blocks.trans hb) (mem_of_running hb ha) hlt

end Pool

end SimtMachine
