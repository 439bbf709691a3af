import SimtMachine.Interpreter
import SimtMachine.Proofs.Assembly.Reassembly

/-!
# Behaviour of reassembled programs

What a kernel does depends on the operations of its words and on the fields that they use. A program
that is disassembled and assembled again keeps these, and thereby its behaviour, as long as none of
its branches is without a condition bit. Such a branch is never taken, but it comes back as one that
is taken whenever a comparison has happened.
-/

namespace SimtMachine

open Assembly

variable {w : UInt16} {d d' : Instruction} {program : Array UInt16} {f : UInt16 → UInt16}

/-! ## Fields that matter -/

/-- The same operation, and the same in the fields that it uses. -/
def SameFields (d d' : Instruction) : Prop := ∃ j : Inst Reg UInt8, j.Fields d ∧ j.Fields d'

theorem SameFields.op_eq (h : SameFields d d') : d'.op = d.op := by
  obtain ⟨j, h, h'⟩ := h
  cases j with
  | nop | ret => exact h'.trans h.symm
  | branch | compare | arith | load | store | const => exact h'.1.trans h.1.symm

theorem SameFields.execute_eq (h : SameFields d d') (t : Thread) (m : Image UInt8) :
    t.execute d' m = t.execute d m := by
  obtain ⟨j, h, h'⟩ := h
  cases j with
  | nop | ret | branch | compare | arith | load | store | const =>
    simp only [Inst.Fields] at h h'
    simp [Thread.execute, h, h', Instruction.result, Operation.source, Operation.writesRegister,
      Operation.setsFlags, Operation.stores]

theorem SameFields.nextPc_eq (h : SameFields d d') (flags : UInt8) (pc : Nat) :
    Interpreter.nextPc d' flags pc = Interpreter.nextPc d flags pc := by
  obtain ⟨j, h, h'⟩ := h
  cases j with
  | branch mask imm =>
    obtain ⟨h₁, h₂, h₃⟩ := h
    obtain ⟨h₁', h₂', h₃'⟩ := h'
    simp only [Interpreter.nextPc, Instruction.taken, h₁, h₂, h₃, h₁', h₂', h₃']
  | _ =>
    simp only [Inst.Fields] at h h'
    simp [Interpreter.nextPc, Instruction.taken, h, h', Operation.branches]

namespace Interpreter

theorem runThread_map (h : ∀ w ∈ program, SameFields (decode w) (decode (f w)))
    (hm : ∀ w ∈ program, (decode w).op.isMapped = true) (tid fuel pc : Nat) (t : Thread)
    (m : Image UInt8) :
    runThread (program.map f) tid fuel pc t m = runThread program tid fuel pc t m := by
  induction fuel generalizing pc t m with
  | zero =>
    unfold runThread
    rw [Array.getElem?_map]
    cases program[pc]? <;> rfl
  | succ fuel ih =>
    unfold runThread
    rw [Array.getElem?_map]
    cases hw : program[pc]? with
    | none => rfl
    | some w =>
      have hmem : w ∈ program := Array.mem_of_getElem? hw
      have hs := h w hmem
      simp only [Option.map_some, hs.op_eq, hm w hmem, hs.execute_eq, hs.nextPc_eq, ih,
        Bool.not_true, Bool.false_eq_true, if_false]

theorem runThreads_map (h : ∀ w ∈ program, SameFields (decode w) (decode (f w)))
    (hm : ∀ w ∈ program, (decode w).op.isMapped = true) (dim : UInt8) (count tid : Nat)
    (m : Image UInt8) :
    runThreads (program.map f) dim count tid m = runThreads program dim count tid m := by
  induction count generalizing tid m with
  | zero => rfl
  | succ count ih => simp only [runThreads, runThread_map h hm, ih]

theorem run_map (h : ∀ w ∈ program, SameFields (decode w) (decode (f w)))
    (hm : ∀ w ∈ program, (decode w).op.isMapped = true) (data : Array UInt8) (threads : Nat)
    (dim : UInt8) : run (program.map f) data threads dim = run program data threads dim := by
  simp only [run, runThreads_map h hm]

end Interpreter

/-! ## Reassembled words -/

theorem mask_decode_lt (w : UInt16) : (decode w).mask < 8 := by
  have h8 : (8 : UInt8).toNat = 8 := rfl
  rw [UInt8.lt_iff_toNat_lt, h8, decode, UInt8.toNat_ofNat']
  omega

/-- A branch without a condition bit. -/
def Instruction.NeverTaken (d : Instruction) : Prop := d.op = .branch ∧ d.mask = 0

instance : Decidable d.NeverTaken := inferInstanceAs (Decidable (_ ∧ _))

/-- The instruction with the mask that its letters stand for. -/
def Instruction.respelled (d : Instruction) : Instruction :=
  { d with mask := if d.mask = 0 then flagLess ||| flagEqual ||| flagGreater else d.mask }

theorem spelledMask_decode (w : UInt16) :
    spelledMask (decode w).mask = (decode w).respelled.mask := by
  unfold Instruction.respelled
  by_cases h : (decode w).mask = 0
  · rw [h]
    rfl
  · rw [if_neg h]
    exact spelledMask_eq (UInt8.pos_iff_ne_zero.2 h) (mask_decode_lt w)

/-- Reassembling a word keeps the fields that its operation uses, but for an empty mask. -/
theorem sameFields_respelled (h : (decode w).op.isMapped = true) :
    SameFields (decode w).respelled (decode (reassembled w)) := by
  refine ⟨reread (ofFields (decode w)), ?_, Inst.fields_decode_encode (encodable_reread _)⟩
  unfold ofFields
  cases hop : (decode w).op with
  | unmapped => simp [hop, Operation.isMapped] at h
  | nop | ret => exact hop
  | branch => exact ⟨hop, (spelledMask_decode w).symm, rfl⟩
  | compare | load | store | const => exact ⟨hop, rfl, rfl⟩
  | arith => exact ⟨hop, rfl, rfl, rfl⟩

theorem reread_ofFields (h : (decode w).op.isMapped = true) (hn : ¬(decode w).NeverTaken) :
    reread (ofFields (decode w)) = ofFields (decode w) := by
  refine reread_eq fun mask t hj ↦ ?_
  have hf := fields_ofFields h
  rw [hj] at hf
  obtain ⟨hop, rfl, -⟩ := hf
  exact ⟨UInt8.pos_iff_ne_zero.2 fun hm ↦ hn ⟨hop, hm⟩, mask_decode_lt w⟩

theorem sameFields_reassembled (h : (decode w).op.isMapped = true)
    (hn : ¬(decode w).NeverTaken) : SameFields (decode w) (decode (reassembled w)) := by
  have hf := Inst.fields_decode_encode (encodable_reread (ofFields (decode w)))
  refine ⟨ofFields (decode w), fields_ofFields h, ?_⟩
  rw [reread_ofFields h hn] at hf
  rwa [reassembled, reread_ofFields h hn]

/-- Every program of mapped operations is accepted again as the text that it is printed as. Its
fields come back except for empty masks, and without empty masks so does its behaviour. -/
theorem assemble_sourceOf_faithful {words : Array UInt16} (hs : words.size ≤ 256)
    (hm : ∀ w ∈ words, (decode w).op.isMapped = true) :
    ∃ prog, assemble (sourceOf words) = .ok prog ∧
      List.Forall₂ (fun w v ↦ SameFields (decode w).respelled (decode v)) words.toList
        prog.words.toList ∧
      ((∀ w ∈ words, ¬(decode w).NeverTaken) →
        List.Forall₂ (fun w v ↦ SameFields (decode w) (decode v)) words.toList
          prog.words.toList ∧
        ∀ data threads dim, Interpreter.run prog.words data threads dim =
          Interpreter.run words data threads dim) := by
  obtain ⟨prog, ha, hw⟩ := assemble_sourceOf hs hm
  refine ⟨prog, ha, ?_, fun hn ↦ ⟨?_, fun data threads dim ↦ ?_⟩⟩
  · rw [hw, Array.toList_map, List.forall₂_map_right_iff, List.forall₂_same]
    exact fun w hw ↦ sameFields_respelled (hm w (Array.mem_toList_iff.1 hw))
  · rw [hw, Array.toList_map, List.forall₂_map_right_iff, List.forall₂_same]
    intro w hw
    rw [Array.mem_toList_iff] at hw
    exact sameFields_reassembled (hm w hw) (hn w hw)
  · rw [hw]
    exact Interpreter.run_map (fun w hw ↦ sameFields_reassembled (hm w hw) (hn w hw)) hm ..

/-- Bits that an operation does not use are lost, without consequence. -/
theorem assemble_sourceOf_faithful_unused :
    ∃ prog, assemble (sourceOf #[0x2F12, 0x1B03, 0x0123, 0xF0FF]) = .ok prog ∧
      prog.words = #[0x2012, 0x1A03, 0x0000, 0xF000] ∧
      ∀ data threads dim, Interpreter.run prog.words data threads dim =
        Interpreter.run #[0x2F12, 0x1B03, 0x0123, 0xF0FF] data threads dim := by
  obtain ⟨prog, ha, hw⟩ : ∃ prog, assemble (sourceOf #[0x2F12, 0x1B03, 0x0123, 0xF0FF]) = .ok prog ∧
      prog.words = #[0x2012, 0x1A03, 0x0000, 0xF000] := ⟨_, rfl, rfl⟩
  have hm : ∀ w ∈ #[0x2F12, 0x1B03, 0x0123, 0xF0FF], (decode w).op.isMapped = true :=
    Array.all_eq_true_iff_forall_mem.1 (by decide +kernel)
  have hn : ∀ w ∈ #[0x2F12, 0x1B03, 0x0123, 0xF0FF], decide (¬(decode w).NeverTaken) = true :=
    Array.all_eq_true_iff_forall_mem.1 (by decide +kernel)
  obtain ⟨again, ha', -, h⟩ := assemble_sourceOf_faithful (by decide) hm
  obtain rfl : prog = again := Except.ok.inj (ha.symm.trans ha')
  exact ⟨prog, ha, hw, (h fun w hw ↦ of_decide_eq_true (hn w hw)).2⟩

/-- A branch without a condition bit is never taken, but the one that it comes back as is. -/
theorem reassembly_takes_untaken_branch : ∃ prog,
    assemble (sourceOf #[0x2000, 0x1003, 0xF000]) = .ok prog ∧
      prog.words = #[0x2000, 0x1E03, 0xF000] ∧
      Interpreter.run #[0x2000, 0x1003, 0xF000] #[] 1 1 = .ok (Image.ofArray #[], 3) ∧
      Interpreter.run prog.words #[] 1 1 = .error (.pastProgram 0 3) := by
  obtain ⟨prog, ha, hw⟩ : ∃ prog, assemble (sourceOf #[0x2000, 0x1003, 0xF000]) = .ok prog ∧
      prog.words = #[0x2000, 0x1E03, 0xF000] := ⟨_, rfl, rfl⟩
  refine ⟨prog, ha, hw, rfl, ?_⟩
  rw [hw]
  rfl

end SimtMachine
