import SimtMachine.Proofs.Core.Progress
import SimtMachine.Proofs.Lockstep.Isolation

/-!
# Pools

A pool is a device without its clock: cores that share a data memory work in any order on blocks
that they take from a list. What holds after all moves of a pool holds of a device, whatever its
dispatcher and its memories make of the timing.
-/

namespace SimtMachine

open Relation (ReflTransGen)
open SimtMachine.Core (Answers Works wordOf Executes)

/-- Cores at a shared data memory, with the blocks that no core has begun, in the order in which
they will be handed out, and the completed blocks, in the order of their completion. -/
structure Pool where
  cores : List Core
  memory : Image UInt8
  waiting : List Assignment
  completed : List Assignment

namespace Pool

/-- One move: a core acts, takes the next block, or gives up a block that it has completed. -/
inductive Moves (program : Image UInt16) : Pool → Pool → Prop
  | work {pre post : List Core} {c c' : Core} {m m' : Image UInt8} {w d : List Assignment} :
      Works program (c, m) (c', m') →
      Moves program ⟨pre ++ c :: post, m, w, d⟩ ⟨pre ++ c' :: post, m', w, d⟩
  | dispatch {pre post : List Core} {c : Core} {m : Image UInt8} {b : Assignment}
      {w d : List Assignment} : c.assignment = none →
      Moves program ⟨pre ++ c :: post, m, b :: w, d⟩ ⟨pre ++ c.start b :: post, m, w, d⟩
  | retire {pre post : List Core} {c : Core} {m : Image UInt8} {b : Assignment}
      {w d : List Assignment} : c.assignment = some b → c.done = true →
      Moves program ⟨pre ++ c :: post, m, w, d⟩ ⟨pre ++ c.reset :: post, m, w, d ++ [b]⟩

/-- A move that does not leave the blocks where they are: any move but a cycle of a core that has
nothing to do or has to wait for a memory. -/
inductive Pushes (program : Image UInt16) : Pool → Pool → Prop
  | tick {pre post : List Core} {c : Core} {m : Image UInt8} {w d : List Assignment} : c.Able →
      Pushes program ⟨pre ++ c :: post, m, w, d⟩ ⟨pre ++ c.tick.1 :: post, m, w, d⟩
  | answer {pre post : List Core} {c c' : Core} {m m' : Image UInt8} {w d : List Assignment} :
      Answers program (c, m) (c', m') →
      Pushes program ⟨pre ++ c :: post, m, w, d⟩ ⟨pre ++ c' :: post, m', w, d⟩
  | dispatch {pre post : List Core} {c : Core} {m : Image UInt8} {b : Assignment}
      {w d : List Assignment} : c.assignment = none →
      Pushes program ⟨pre ++ c :: post, m, b :: w, d⟩ ⟨pre ++ c.start b :: post, m, w, d⟩
  | retire {pre post : List Core} {c : Core} {m : Image UInt8} {b : Assignment}
      {w d : List Assignment} : c.assignment = some b → c.done = true →
      Pushes program ⟨pre ++ c :: post, m, w, d⟩ ⟨pre ++ c.reset :: post, m, w, d ++ [b]⟩

/-- One of the moves between the two pools is a push. -/
def Progresses (program : Image UInt16) (p p' : Pool) : Prop :=
  ∃ p₁ p₂, ReflTransGen (Moves program) p p₁ ∧ Pushes program p₁ p₂ ∧
    ReflTransGen (Moves program) p₂ p'

/-- The blocks on which cores work. -/
def running (p : Pool) : List Assignment := p.cores.filterMap Core.assignment

/-- All blocks of the pool, wherever they are. -/
def blocks (p : Pool) : List Assignment := p.waiting ++ p.running ++ p.completed

/-- Sound cores, all for blocks of the same size. -/
def Staffed (program : Image UInt16) (dim : UInt8) (p : Pool) : Prop :=
  ∀ c ∈ p.cores, c.Sound (wordOf program) ∧ c.blockDim = dim

variable {program : Image UInt16} {dim : UInt8} {p p' p'' : Pool}

theorem Pushes.moves (h : p.Pushes program p') : p.Moves program p' := by
  cases h with
  | tick => exact .work (.tick _ _)
  | answer ha => exact .work ha.works
  | dispatch hn => exact .dispatch hn
  | retire hb hd => exact .retire hb hd

theorem moves_of_pushes (h : ReflTransGen (Pushes program) p p') :
    ReflTransGen (Moves program) p p' :=
  ReflTransGen.mono (fun _ _ ↦ Pushes.moves) _ _ h

theorem Pushes.progresses (h : p.Pushes program p') : p.Progresses program p' :=
  ⟨p, p', .refl, h, .refl⟩

theorem Progresses.moves (h : p.Progresses program p') : ReflTransGen (Moves program) p p' := by
  obtain ⟨p₁, p₂, h1, h2, h3⟩ := h
  exact (h1.tail h2.moves).trans h3

theorem Progresses.trans_moves (h : p.Progresses program p')
    (hm : ReflTransGen (Moves program) p' p'') : p.Progresses program p'' := by
  obtain ⟨p₁, p₂, h1, h2, h3⟩ := h
  exact ⟨p₁, p₂, h1, h2, h3.trans hm⟩

theorem progresses_of_moves (hm : ReflTransGen (Moves program) p p')
    (h : p'.Progresses program p'') : p.Progresses program p'' := by
  obtain ⟨p₁, p₂, h1, h2, h3⟩ := h
  exact ⟨p₁, p₂, hm.trans h1, h2, h3⟩

theorem progresses_of_pushes (h : ReflTransGen (Pushes program) p p') (hne : p ≠ p') :
    p.Progresses program p' := by
  rcases h.cases_head with rfl | ⟨_, h1, h2⟩
  · exact absurd rfl hne
  · exact h1.progresses.trans_moves (moves_of_pushes h2)

theorem Moves.staffed (h : p.Moves program p') (hp : p.Staffed program dim) :
    p'.Staffed program dim := by
  cases h with
  | work hw =>
    have hc := hp _ List.mem_append_cons_self
    exact forall_mem_replace hp ⟨hc.1.works hw, hw.blockDim.trans hc.2⟩
  | dispatch =>
    have hc := hp _ List.mem_append_cons_self
    exact forall_mem_replace hp ⟨Core.sound_start _ _ _, hc.2⟩
  | retire =>
    have hc := hp _ List.mem_append_cons_self
    exact forall_mem_replace hp ⟨Core.sound_idle _ _ _, hc.2⟩

/-- No block is lost and none is made twice. -/
theorem Moves.blocks (h : p.Moves program p') : p'.blocks.Perm p.blocks := by
  cases h with
  | @work pre post c c' m m' w d hw =>
    have ha : c'.assignment = c.assignment := hw.assignment
    simp [Pool.blocks, running, List.filterMap_cons, ha]
  | @dispatch pre post c m b w d hn =>
    apply List.perm_iff_count.2
    intro x
    have hs : (c.start b).assignment = some b := rfl
    simp only [Pool.blocks, running, List.filterMap_append, List.filterMap_cons, hn, hs,
      List.count_append, List.count_cons]
    omega
  | @retire pre post c m b w d hb =>
    apply List.perm_iff_count.2
    intro x
    have hr : c.reset.assignment = none := rfl
    simp only [Pool.blocks, running, List.filterMap_append, List.filterMap_cons, hb, hr,
      List.count_append, List.count_cons, List.count_nil]
    omega

theorem staffed_of_moves (h : ReflTransGen (Moves program) p p') (hp : p.Staffed program dim) :
    p'.Staffed program dim := by
  induction h with
  | refl => exact hp
  | tail _ h ih => exact h.staffed ih

theorem blocks_of_moves (h : ReflTransGen (Moves program) p p') : p'.blocks.Perm p.blocks := by
  induction h with
  | refl => exact .refl _
  | tail _ h ih => exact h.blocks.trans ih

theorem all_completed {bs : List Assignment} (h : p.blocks.Perm bs)
    (hl : bs.length ≤ p.completed.length) :
    p.waiting = [] ∧ p.running = [] ∧ p.completed.Perm bs := by
  have hlen := h.length_eq
  simp only [Pool.blocks, List.length_append] at hlen
  have hw : p.waiting = [] := List.eq_nil_of_length_eq_zero (by omega)
  have hr : p.running = [] := List.eq_nil_of_length_eq_zero (by omega)
  simp only [Pool.blocks, hw, hr, List.nil_append] at h
  exact ⟨hw, hr, h⟩

/-! ## One core -/

theorem eq_of_append_cons_eq_singleton {α : Type} {pre post : List α} {x y : α}
    (h : pre ++ y :: post = [x]) : pre = [] ∧ y = x ∧ post = [] := by
  simpa [List.append_eq_singleton_iff] using h

/-- A single core completes its blocks in order: when it has one, it executes it on what the blocks
before have left. -/
structure InOrder (program : Image UInt16) (dim : UInt8) (order : List Assignment)
    (data : Image UInt8) (p : Pool) : Prop where
  core : ∃ c, p.cores = [c] ∧ c.Sound (wordOf program) ∧ c.blockDim = dim ∧
    ∃ base, Assignment.InTurn program dim p.completed data base ∧
      (c.assignment = none → p.memory = base) ∧
      ∀ b, c.assignment = some b → Executes program dim b base c p.memory
  order : p.completed ++ p.running ++ p.waiting = order

theorem Moves.inOrder {order : List Assignment} {data : Image UInt8} (h : p.Moves program p')
    (hp : p.InOrder program dim order data) : p'.InOrder program dim order data := by
  obtain ⟨⟨x, hx, hs, hdim, base, ht, hn, he⟩, ho⟩ := hp
  cases h with
  | @work pre post c c' m m' w d hw =>
    obtain ⟨rfl, rfl, rfl⟩ := eq_of_append_cons_eq_singleton hx
    have ha : c'.assignment = c.assignment := hw.assignment
    refine ⟨⟨c', rfl, hs.works hw, hw.blockDim.trans hdim, base, ht, fun h ↦ ?_, fun b h ↦ ?_⟩, ?_⟩
    · rw [ha] at h
      exact (hs.works_asleep h hw).trans (hn h)
    · rw [ha] at h
      exact (he b h).works hw
    · simpa [running, List.filterMap_cons, ha] using ho
  | @dispatch pre post c m b w d hc =>
    obtain ⟨rfl, rfl, rfl⟩ := eq_of_append_cons_eq_singleton hx
    have hb : (c.start b).assignment = some b := rfl
    refine ⟨⟨c.start b, rfl, Core.sound_start _ _ _, hdim, base, ht, nofun, fun b' h ↦ ?_⟩, ?_⟩
    · obtain rfl := Option.some.inj (hb.symm.trans h)
      have hm : m = base := hn hc
      rw [← hdim, ← hm]
      exact Core.executes_start program c b m
    · simpa [running, List.filterMap_cons, hc, hb] using ho
  | @retire pre post c m b w d hb hd =>
    obtain ⟨rfl, rfl, rfl⟩ := eq_of_append_cons_eq_singleton hx
    have hr : c.reset.assignment = none := rfl
    have hf := (he b hb).finishes hd
    refine ⟨⟨c.reset, rfl, Core.sound_idle _ _ _, hdim, m, ht.snoc hf, fun _ ↦ rfl, nofun⟩, ?_⟩
    simpa [running, List.filterMap_cons, hb, hr] using ho

theorem inOrder_of_moves {order : List Assignment} {data : Image UInt8}
    (h : ReflTransGen (Moves program) p p') (hp : p.InOrder program dim order data) :
    p'.InOrder program dim order data := by
  induction h with
  | refl => exact hp
  | tail _ h ih => exact h.inOrder ih

/-! ## Blocks that do not disturb each other -/

/-- Every block has come as far on its own memory as it would have come alone. -/
structure Isolated (program : Image UInt16) (dim : UInt8) (data : Image UInt8)
    (Agree : (Assignment → Image UInt8) → Image UInt8 → Prop) (own : Assignment → Image UInt8)
    (p : Pool) : Prop where
  agree : Agree own p.memory
  waiting : ∀ b ∈ p.waiting, own b = data
  running : ∀ c ∈ p.cores, ∀ b, c.assignment = some b → Executes program dim b data c (own b)
  completed : ∀ b ∈ p.completed, b.FinishesTwice program dim data (own b)

variable {blocks : List Assignment} {data : Image UInt8}
  {Agree : (Assignment → Image UInt8) → Image UInt8 → Prop} {own : Assignment → Image UInt8}

theorem mem_of_running {pre post : List Core} {c : Core} {m : Image UInt8} {b : Assignment}
    {w d : List Assignment} (hp : (Pool.mk (pre ++ c :: post) m w d).blocks.Perm blocks)
    (hb : c.assignment = some b) : b ∈ blocks := by
  refine hp.mem_iff.1 ?_
  simp [Pool.blocks, Pool.running, hb]

/-- A block on a core is nowhere else. -/
theorem not_mem_of_running {pre post : List Core} {c : Core} {m : Image UInt8} {b : Assignment}
    {w d : List Assignment} (hn : (Pool.mk (pre ++ c :: post) m w d).blocks.Nodup)
    (hb : c.assignment = some b) :
    b ∉ w ∧ (∀ x ∈ pre ++ post, x.assignment ≠ some b) ∧ b ∉ d := by
  have hp : (Pool.mk (pre ++ c :: post) m w d).blocks.Perm
      (b :: (w ++ (pre ++ post).filterMap Core.assignment ++ d)) := by
    apply List.perm_iff_count.2
    intro x
    simp only [Pool.blocks, Pool.running, List.filterMap_append, List.filterMap_cons, hb,
      List.count_append, List.count_cons]
    omega
  have hm := (List.nodup_cons.1 (hp.nodup_iff.1 hn)).1
  simp only [List.mem_append, List.mem_filterMap, not_or, not_exists, not_and] at hm
  exact ⟨hm.1.1, fun x hx ↦ hm.1.2 x (by simpa using hx), hm.2⟩

section Isolated

variable {pre post : List Core} {c c' : Core} {m m' x : Image UInt8} {b : Assignment}
  {w d : List Assignment}

/-- Acts of one core change the memory of its block only. -/
theorem Isolated.update (h : Isolated program dim data Agree own ⟨pre ++ c :: post, m, w, d⟩)
    (hn : (Pool.mk (pre ++ c :: post) m w d).blocks.Nodup) (hb : c.assignment = some b)
    (hb' : c'.assignment = some b) (he : Executes program dim b data c' x)
    (hA : Agree (Function.update own b x) m') :
    Isolated program dim data Agree (Function.update own b x) ⟨pre ++ c' :: post, m', w, d⟩ := by
  obtain ⟨hnw, hnr, hnd⟩ := not_mem_of_running hn hb
  refine ⟨hA, fun b' hb' ↦ ?_, fun y hy b' hb'' ↦ ?_, fun b' hb' ↦ ?_⟩
  · rw [Function.update_of_ne (ne_of_mem_of_not_mem hb' hnw)]
    exact h.waiting b' hb'
  · rcases mem_replace.1 hy with rfl | hy
    · obtain rfl := Option.some.inj (hb'.symm.trans hb'')
      rwa [Function.update_self]
    · have hne : b' ≠ b := fun hq ↦ hnr y hy (hq ▸ hb'')
      rw [Function.update_of_ne hne]
      exact h.running y (mem_replace.2 (.inr hy)) b' hb''
  · rw [Function.update_of_ne (ne_of_mem_of_not_mem hb' hnd)]
    exact h.completed b' hb'

/-- An answer of the shared memory is one that the own memory of the block gives as well. -/
theorem answers_own (iso : Isolation program dim blocks data Agree) (hb : b ∈ blocks)
    (he : Executes program dim b data c (own b)) (hA : Agree own m)
    (ha : Answers program (c, m) (c', m')) :
    ∃ x, Answers program (c, own b) (c', x) ∧ Agree (Function.update own b x) m' := by
  cases ha with
  | fetch _ hp =>
    refine ⟨own b, .fetch _ hp, ?_⟩
    rwa [Function.update_eq_self]
  | @access _ t _ _ l _ _ hl hr hp =>
    have hm : l ∈ c.lanes.get t := by simp [hl]
    obtain ⟨hans, hagree⟩ := iso.access hb (he.issues hm hr) hA
    refine ⟨_, ?_, hagree⟩
    rw [hans]
    exact .access (own b) hl hr hp

theorem Isolated.work (iso : Isolation program dim blocks data Agree)
    (hs : c.Sound (wordOf program)) (hn : (Pool.mk (pre ++ c :: post) m w d).blocks.Nodup)
    (hsub : ∀ b, c.assignment = some b → b ∈ blocks)
    (h : Isolated program dim data Agree own ⟨pre ++ c :: post, m, w, d⟩)
    (hw : Works program (c, m) (c', m')) :
    ∃ own, Isolated program dim data Agree own ⟨pre ++ c' :: post, m', w, d⟩ := by
  have ha : c'.assignment = c.assignment := hw.assignment
  cases hb : c.assignment with
  | none =>
    obtain rfl := hs.works_asleep hb hw
    rw [hb] at ha
    exact ⟨own, h.agree, h.waiting, forall_mem_replace h.running (by simp [ha]), h.completed⟩
  | some b =>
    have he := h.running c List.mem_append_cons_self b hb
    rw [hb] at ha
    rcases hw.tick_or_answers with ⟨rfl, rfl⟩ | hans
    · refine ⟨_, h.update hn hb ha (he.works (.tick c _)) ?_⟩
      rw [Function.update_eq_self]
      exact h.agree
    · obtain ⟨x, hx, hagree⟩ := answers_own iso (hsub b hb) he h.agree hans
      exact ⟨_, h.update hn hb ha (he.works hx.works) hagree⟩

theorem Isolated.dispatch (h : Isolated program dim data Agree own ⟨pre ++ c :: post, m, b :: w, d⟩)
    (hdim : c.blockDim = dim) :
    Isolated program dim data Agree own ⟨pre ++ c.start b :: post, m, w, d⟩ := by
  refine ⟨h.agree, fun b' hb' ↦ h.waiting b' (List.mem_cons_of_mem _ hb'), ?_, h.completed⟩
  apply forall_mem_replace h.running
  intro b' hb'
  obtain rfl : b = b' := Option.some.inj hb'
  rw [h.waiting b List.mem_cons_self, ← hdim]
  exact Core.executes_start program c b data

theorem Isolated.retire (h : Isolated program dim data Agree own ⟨pre ++ c :: post, m, w, d⟩)
    (hb : c.assignment = some b) (hd : c.done = true) :
    Isolated program dim data Agree own ⟨pre ++ c.reset :: post, m, w, d ++ [b]⟩ := by
  refine ⟨h.agree, h.waiting, forall_mem_replace h.running nofun, ?_⟩
  refine List.forall_mem_append.2 ⟨h.completed, List.forall_mem_singleton.2 ?_⟩
  exact (h.running c List.mem_append_cons_self b hb).finishes hd

end Isolated

theorem Moves.isolated (iso : Isolation program dim blocks data Agree)
    (hs : p.Staffed program dim) (hb : p.blocks.Perm blocks) (hn : blocks.Nodup)
    (hp : p.Isolated program dim data Agree own) (h : p.Moves program p') :
    ∃ own, p'.Isolated program dim data Agree own := by
  cases h with
  | @work pre post c c' m m' w d hw =>
    have hc := (hs c List.mem_append_cons_self).1
    exact hp.work iso hc (hb.nodup_iff.2 hn) (fun _ ↦ mem_of_running hb) hw
  | dispatch => exact ⟨own, hp.dispatch (hs _ List.mem_append_cons_self).2⟩
  | retire hc hd => exact ⟨own, hp.retire hc hd⟩

theorem isolated_of_moves (iso : Isolation program dim blocks data Agree)
    (hs : p.Staffed program dim) (hb : p.blocks.Perm blocks) (hn : blocks.Nodup)
    (hp : p.Isolated program dim data Agree own) (h : ReflTransGen (Moves program) p p') :
    ∃ own, p'.Isolated program dim data Agree own := by
  induction h with
  | refl => exact ⟨own, hp⟩
  | tail hr hm ih =>
    obtain ⟨own, ih⟩ := ih
    exact hm.isolated iso (staffed_of_moves hr hs) ((blocks_of_moves hr).trans hb) hn ih

end Pool

end SimtMachine
