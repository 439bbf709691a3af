import SimtMachine.Instruction.Disassembly
import SimtMachine.Proofs.Assembly.Correctness
import SimtMachine.Proofs.Assembly.Numerals

/-!
# Assembling a disassembly

The text that disassembling prints for a word whose operation is mapped is the text of an
instruction, so a disassembled program is a source text again. Assembling it gives words with the
same fields, except for a branch without a condition bit: its text is that of the branch that is
taken whenever a comparison has happened.
-/

namespace SimtMachine.Assembly

variable {w : UInt16} {ws : List UInt16} {j : Inst Reg UInt8} {d : Instruction} {symbols : Symbols}
  {i : WrittenInst}

/-! ## Numbers -/

theorem toString_toList (n : Nat) : (toString n).toList = Nat.toDigits 10 n := by
  simp [toString, Nat.toList_repr]

theorem isDigit_of_mem_toString {n : Nat} {c : Char} (h : c ∈ (toString n).toList) :
    c.isDigit = true := by
  rw [toString_toList] at h
  exact Nat.isDigit_of_mem_toDigits (by decide) (by decide) h

theorem toString_ne_nil (n : Nat) : (toString n).toList ≠ [] := by
  rw [toString_toList]
  exact Nat.toDigits_ne_nil

theorem numeral_toString (n : Nat) : numeral 10 (toString n).toList = n := by
  rw [toString_toList, numeral_toDigits (by decide) (by decide)]

theorem numberText_toString (n : Nat) : NumberText (toString n).toList n := by
  have h := NumberText.decimal (toString_ne_nil n) fun c hc ↦ isDigit_of_mem_toString hc
  rwa [numeral_toString] at h

/-! ## The text of an instruction -/

/-- The name that a register is printed with. -/
def nameOf (r : Reg) : RegisterName :=
  if r = Reg.blockIdx ∨ r = Reg.blockDim ∨ r = Reg.threadIdx then .special r
  else .general 'R' (toString r.val).toList

def numberOf (v : UInt8) : Operand := .number (toString v.toNat).toList

/-- The mask that the letters of a condition mask stand for. Without letters it is not the mask that
was printed, but the full one. -/
def spelledMask (mask : UInt8) : UInt8 :=
  branchMask (mask &&& flagLess != 0) (mask &&& flagEqual != 0) (mask &&& flagGreater != 0)

def printed : Inst Reg UInt8 → WrittenInst
  | .nop => .nop
  | .ret => .ret
  | .branch mask t => .branch (spelledMask mask) (numberOf t)
  | .compare a b => .compare (nameOf a) (nameOf b)
  | .arith f a b c => .arith f (nameOf a) (nameOf b) (nameOf c)
  | .load a b => .load (nameOf a) (nameOf b)
  | .store a b => .store (nameOf a) (nameOf b)
  | .const a v => .const (nameOf a) (numberOf v)

/-- The instruction that is read from what is printed. -/
def reread : Inst Reg UInt8 → Inst Reg UInt8
  | .branch mask t => .branch (spelledMask mask) t
  | .nop => .nop
  | .ret => .ret
  | .compare a b => .compare a b
  | .arith f a b c => .arith f a b c
  | .load a b => .load a b
  | .store a b => .store a b
  | .const a v => .const a v

theorem registerText_nameOf (r : Reg) : RegisterText (Reg.operandText r).toList (nameOf r) := by
  by_cases h₁ : r = Reg.blockIdx
  · subst h₁
    exact .blockIdx
  by_cases h₂ : r = Reg.blockDim
  · subst h₂
    exact .blockDim
  by_cases h₃ : r = Reg.threadIdx
  · subst h₃
    exact .threadIdx
  have ht : Reg.operandText r = "R" ++ toString r.val := by
    simp only [Reg.operandText, Fin.val_inj, h₁, h₂, h₃, if_false]
  have hn : nameOf r = .general 'R' (toString r.val).toList := by simp [nameOf, h₁, h₂, h₃]
  rw [ht, hn, String.toList_append]
  exact .general (by decide) (toString_ne_nil _) fun c hc ↦ isDigit_of_mem_toString hc

theorem nameOf_names (r : Reg) : (nameOf r).Names r := by
  unfold nameOf
  split
  · rfl
  · exact (numeral_toString r).symm

theorem numberOf_means (v : UInt8) : (numberOf v).Means symbols v :=
  .number (numberText_toString v.toNat)

theorem operandText_numberOf (v : UInt8) :
    OperandText ("#" ++ toString v.toNat).toList (numberOf v) := by
  rw [String.toList_append]
  exact .number (.marked (numberText_toString v.toNat))

theorem standsFor_printed (j : Inst Reg UInt8) : StandsFor symbols (printed j) (reread j) := by
  cases j with
  | nop => exact .nop
  | ret => exact .ret
  | branch mask t => exact .branch (numberOf_means t)
  | compare a b => exact .compare (nameOf_names a) (nameOf_names b)
  | arith f a b c => exact .arith (nameOf_names a) (nameOf_names b) (nameOf_names c)
  | load a b => exact .load (nameOf_names a) (nameOf_names b)
  | store a b => exact .store (nameOf_names a) (nameOf_names b)
  | const a v => exact .const (nameOf_names a) (numberOf_means v)

/-! ## Disassembled words -/

/-- The instruction that the fields of a decoded word make up. -/
def ofFields (d : Instruction) : Inst Reg UInt8 :=
  match d.op with
  | .nop | .unmapped _ => .nop
  | .ret => .ret
  | .branch => .branch d.mask d.imm
  | .compare => .compare d.rs d.rt
  | .arith f => .arith f d.rd d.rs d.rt
  | .load => .load d.rd d.rs
  | .store => .store d.rs d.rt
  | .const => .const d.rd d.imm

theorem fields_ofFields (h : d.op.isMapped = true) : (ofFields d).Fields d := by
  unfold ofFields
  cases hop : d.op with
  | unmapped => simp [hop, Operation.isMapped] at h
  | nop | ret => exact hop
  | branch | compare | load | store | const => exact ⟨hop, rfl, rfl⟩
  | arith => exact ⟨hop, rfl, rfl, rfl⟩

theorem ofFields_eq (h : j.Fields d) : ofFields d = j := by
  unfold ofFields
  cases j with
  | nop | ret => simp only [show d.op = _ from h]
  | branch | compare | load | store | const =>
    obtain ⟨hop, rfl, rfl⟩ := h
    simp only [hop]
  | arith =>
    obtain ⟨hop, rfl, rfl, rfl⟩ := h
    simp only [hop]

theorem commaText : CommaText [',', ' '] := ⟨[], [' '], blanks_nil, blanks_space, rfl⟩

theorem instText_arith (f : Arith) (a b c : Reg) :
    InstText ((Operation.arith f).name ++ " " ++ Reg.operandText a ++ ", " ++ Reg.operandText b ++
      ", " ++ Reg.operandText c).toList (printed (.arith f a b c)) := by
  have hm : MnemonicText (Operation.arith f).name.toList (.arith f) := by
    cases f with
    | add => exact ⟨_, .add, rfl⟩
    | sub => exact ⟨_, .sub, rfl⟩
    | mul => exact ⟨_, .mul, rfl⟩
    | div => exact ⟨_, .div, rfl⟩
  refine ⟨_, _, _, hm, .arith blanks_space (registerText_nameOf a) commaText
    (registerText_nameOf b) commaText (registerText_nameOf c), fun _ ↦ rfl, ?_⟩
  simp [String.toList_append]

theorem instText_branch (mask t : UInt8) :
    InstText ("BR" ++ conditionLetters mask ++ " " ++ ("#" ++ toString t.toNat)).toList
      (printed (.branch mask t)) := by
  have hm : MnemonicText ("BR" ++ conditionLetters mask).toList (.branch (spelledMask mask)) := by
    refine ⟨_, .branch _ _ _, ?_⟩
    unfold conditionLetters Spells conditionWord
    cases mask &&& flagLess != 0 <;> cases mask &&& flagEqual != 0 <;>
      cases mask &&& flagGreater != 0 <;> rfl
  refine ⟨_, _, _, hm, .branch blanks_space (operandText_numberOf t), fun _ ↦ rfl, ?_⟩
  simp [String.toList_append]

theorem instText_disassemble (h : (decode w).op.isMapped = true) :
    InstText (disassemble w).toList (printed (ofFields (decode w))) := by
  have hend {p : Prop} (h : false = true) : p := absurd h Bool.false_ne_true
  cases hop : (decode w).op with
  | unmapped => simp [hop, Operation.isMapped] at h
  | nop =>
    simp only [disassemble, ofFields, hop]
    exact ⟨.nop, "NOP".toList, [], ⟨_, .nop, rfl⟩, .nop, fun _ ↦ rfl, rfl⟩
  | ret =>
    simp only [disassemble, ofFields, hop]
    exact ⟨.ret, "RET".toList, [], ⟨_, .ret, rfl⟩, .ret, fun _ ↦ rfl, rfl⟩
  | branch =>
    simp only [disassemble, ofFields, hop]
    exact instText_branch ..
  | arith f =>
    simp only [disassemble, ofFields, hop]
    exact instText_arith ..
  | compare =>
    simp only [disassemble, ofFields, hop]
    refine ⟨.compare, "CMP".toList, _, ⟨_, .compare, rfl⟩, .compare blanks_space
      (registerText_nameOf _) commaText (registerText_nameOf _), hend, ?_⟩
    simp [Operation.name, String.toList_append]
  | load =>
    simp only [disassemble, ofFields, hop]
    refine ⟨.load, "LDR".toList, _, ⟨_, .load, rfl⟩, .load blanks_space
      (registerText_nameOf _) commaText (registerText_nameOf _), hend, ?_⟩
    simp [Operation.name, String.toList_append]
  | store =>
    simp only [disassemble, ofFields, hop]
    refine ⟨.store, "STR".toList, _, ⟨_, .store, rfl⟩, .store blanks_space
      (registerText_nameOf _) commaText (registerText_nameOf _), hend, ?_⟩
    simp [Operation.name, String.toList_append]
  | const =>
    simp only [disassemble, ofFields, hop]
    refine ⟨.const, "CONST".toList, _, ⟨_, .const, rfl⟩, .const blanks_space
      (registerText_nameOf _) commaText (.marked (numberText_toString _)), hend, ?_⟩
    simp [Operation.name, String.toList_append]

/-! ## Disassembled programs -/

/-- The words of a program as a text with a line for each. -/
def sourceOf (words : Array UInt16) : String :=
  String.join (words.toList.map fun w ↦ disassemble w ++ "\n")

def reassembled (w : UInt16) : UInt16 := (reread (ofFields (decode w))).encode

def printedLine (w : UInt16) : Statement := ⟨none, some (printed (ofFields (decode w)))⟩

/-- The lines of a disassembled program; the line after the last line end is empty. -/
def printedLines (words : Array UInt16) : List Statement :=
  words.toList.map printedLine ++ [⟨none, none⟩]

theorem filterMap_inst_printedLines (words : Array UInt16) :
    (printedLines words).filterMap Statement.inst =
      words.toList.map fun w ↦ printed (ofFields (decode w)) := by
  rw [printedLines, List.filterMap_append, List.filterMap_map]
  exact (List.append_nil _).trans (congrFun List.filterMap_eq_map' _)

theorem Written.cons {p text : List Char} {s : Statement} {lines : List Statement}
    (hp : OneLine p) (hs : LineText p s) (h : Written text lines) :
    Written (p ++ '\n' :: text) (s :: lines) := by
  obtain ⟨ps, hc, hl⟩ := h
  exact ⟨p :: ps, .feed hp hc, .cons hs hl⟩

theorem written_nil : Written [] [⟨none, none⟩] :=
  ⟨[[]], .last nofun, .cons ⟨[], [], [], [], blanks_nil, .absent, .absent, .blanks blanks_nil, rfl⟩
    .nil⟩

theorem lineText_disassemble (h : (decode w).op.isMapped = true) :
    OneLine (disassemble w).toList ∧ LineText (disassemble w).toList (printedLine w) := by
  have hi := instText_disassemble h
  refine ⟨fun c hc ↦ ⟨hi.instChars.ne (by decide) c hc, hi.instChars.ne (by decide) c hc⟩, ?_⟩
  exact ⟨[], [], _, [], blanks_nil, .absent, .present hi, .blanks blanks_nil, by simp⟩

theorem written_sourceOf {words : Array UInt16} (h : ∀ w ∈ words, (decode w).op.isMapped = true) :
    Written (sourceOf words).toList (printedLines words) := by
  obtain ⟨ws⟩ := words
  simp only [sourceOf, printedLines, String.toList_join]
  simp only [List.mem_toArray] at h
  induction ws with
  | nil => exact written_nil
  | cons w ws ih =>
    obtain ⟨hw, h⟩ := List.forall_mem_cons.1 h
    obtain ⟨hp, hl⟩ := lineText_disassemble hw
    have hc := Written.cons hp hl (ih h)
    simpa [String.toList_append] using hc

/-- Lines without labels whose instructions stand for something can be assembled. -/
theorem assemblable_of_standsFor {lines : List Statement}
    (hi : ∀ s ∈ lines, ∀ i ∈ s.inst, ∃ j, StandsFor [] i j) (hl : ∀ s ∈ lines, s.label = none)
    (hc : lines.countP Statement.holdsInst ≤ 256) : Assemblable lines := by
  have hn : labels lines = [] := List.filterMap_eq_nil_iff.2 hl
  have hs : symbolsOf lines = [] := by
    rw [← List.map_eq_nil_iff, symbolsOf_fst, hn, List.map_nil]
  refine assemblable_of_exists_standsFor (forall_fits_iff.2 ⟨hc, fun x hx _ hsome ↦ ?_⟩)
    (hn ▸ List.nodup_nil) (hs ▸ hi)
  have hx := hl x.2 (addressed_map_snd lines ▸ List.mem_map_of_mem hx)
  simp [hx] at hsome

theorem assemblable_printedLines {words : Array UInt16} (hs : words.size ≤ 256) :
    Assemblable (printedLines words) := by
  apply assemblable_of_standsFor
  · intro s hs i hi
    have hmem : i ∈ (printedLines words).filterMap Statement.inst :=
      List.mem_filterMap.2 ⟨s, hs, hi⟩
    rw [filterMap_inst_printedLines] at hmem
    obtain ⟨w, -, rfl⟩ := List.mem_map.1 hmem
    exact ⟨_, standsFor_printed _⟩
  · intro s hs
    rcases List.mem_append.1 hs with hs | hs
    · obtain ⟨w, -, rfl⟩ := List.mem_map.1 hs
      rfl
    · obtain rfl := List.mem_singleton.1 hs
      rfl
  · have hl := congrArg List.length (filterMap_inst_printedLines words)
    rw [List.length_filterMap_eq_countP, List.length_map, Array.length_toList] at hl
    exact hl.trans_le hs

/-- Disassembled programs are assembled word by word. -/
theorem assemble_sourceOf {words : Array UInt16} (hs : words.size ≤ 256)
    (hm : ∀ w ∈ words, (decode w).op.isMapped = true) :
    ∃ prog, assemble (sourceOf words) = .ok prog ∧ prog.words = words.map reassembled := by
  have hw := written_sourceOf hm
  obtain ⟨prog, hp⟩ := (assemblable_printedLines hs).exists_assemble hw
  have hws := words_of_assemble hw hp
  rw [filterMap_inst_printedLines, List.forall₂_map_left_iff] at hws
  have heq : List.Forall₂ (· = ·) (words.toList.map reassembled) prog.words.toList := by
    rw [List.forall₂_map_left_iff]
    refine hws.imp fun w v ↦ ?_
    rintro ⟨j, hj, rfl⟩
    rw [reassembled, (standsFor_printed _).unique hj RegisterName.Names.unique
      Operand.Means.unique]
  rw [List.forall₂_eq_eq_eq] at heq
  exact ⟨prog, hp, Array.toList_inj.1 (by rw [Array.toList_map, heq])⟩

/-! ## Words of the assembler -/

theorem spelledMask_eq {mask : UInt8} (h₀ : 0 < mask) (h₈ : mask < 8) :
    spelledMask mask = mask := by
  have h : ∀ n < 8, 0 < n → spelledMask (UInt8.ofNat n) = UInt8.ofNat n := by decide
  have hn := h mask.toNat (UInt8.lt_iff_toNat_lt.1 h₈) (UInt8.lt_iff_toNat_lt.1 h₀)
  rwa [UInt8.ofNat_toNat] at hn

theorem spelledMask_lt (mask : UInt8) : spelledMask mask < 8 := by
  unfold spelledMask
  cases mask &&& flagLess != 0 <;> cases mask &&& flagEqual != 0 <;>
    cases mask &&& flagGreater != 0 <;> decide

theorem encodable_reread (j : Inst Reg UInt8) : (reread j).Encodable := by
  intro mask t h
  cases j with
  | branch mask' t' =>
    obtain ⟨rfl, -⟩ := Inst.branch.inj h
    exact spelledMask_lt mask'
  | _ => exact absurd h nofun

theorem reread_eq (h : ∀ mask t, j = .branch mask t → 0 < mask ∧ mask < 8) : reread j = j := by
  cases j with
  | branch mask t =>
    obtain ⟨h₀, h₈⟩ := h mask t rfl
    rw [reread, spelledMask_eq h₀ h₈]
  | _ => rfl

theorem StandsFor.mask (h : StandsFor symbols i j) (hi : i.WellFormed) :
    ∀ mask t, j = .branch mask t → 0 < mask ∧ mask < 8 := by
  rintro mask t rfl
  cases h with
  | branch => exact hi.mask _ _ rfl

theorem isMapped_of_fields (h : j.Fields d) : d.op.isMapped = true := by
  cases j with
  | nop | ret => rw [show d.op = _ from h]; rfl
  | branch | compare | arith | load | store | const => rw [h.1]; rfl

/-- A word that the assembler makes comes back from its text. -/
theorem reassembled_encode (hm : ∀ mask t, j = .branch mask t → 0 < mask ∧ mask < 8) :
    (decode j.encode).op.isMapped = true ∧ reassembled j.encode = j.encode := by
  have hf := Inst.fields_decode_encode fun mask t h ↦ (hm mask t h).2
  exact ⟨isMapped_of_fields hf, by rw [reassembled, ofFields_eq hf, reread_eq hm]⟩

theorem reassembled_of_assemble {text : String} {lines : List Statement} {prog : Program}
    (hw : Written text.toList lines) (h : assemble text = .ok prog) :
    ∀ w ∈ prog.words, (decode w).op.isMapped = true ∧ reassembled w = w := by
  have hws : List.Forall₂ (fun _ v ↦ (decode v).op.isMapped = true ∧ reassembled v = v)
      (lines.filterMap Statement.inst) prog.words.toList := by
    refine forall₂_imp_mem (words_of_assemble hw h) ?_
    rintro i hi v ⟨j, hj, rfl⟩
    obtain ⟨s, hs, hi⟩ := List.mem_filterMap.1 hi
    exact reassembled_encode (StandsFor.mask hj (hw.wellFormed s hs i hi))
  intro w hmem
  obtain ⟨i, hi⟩ := exists_forall₂_iff.1 ⟨_, hws.flip⟩ _ (Array.mem_toList_iff.2 hmem)
  exact hi

theorem size_of_assemble {text : String} {lines : List Statement} {prog : Program}
    (hw : Written text.toList lines) (h : assemble text = .ok prog) : prog.words.size ≤ 256 := by
  have hl := (words_of_assemble hw h).length_eq
  rw [List.length_filterMap_eq_countP, Array.length_toList] at hl
  exact hl ▸ (assemblable_of_assemble hw h).instructions

/-- The disassembly of an assembled program is assembled to the same words. -/
theorem assemble_disassembled {text : String} {prog : Program} (h : assemble text = .ok prog) :
    ∃ again, assemble (sourceOf prog.words) = .ok again ∧ again.words = prog.words := by
  obtain ⟨ns, hr, -⟩ := assemble_eq_ok_iff.1 h
  have hw := written_iff.2 ⟨ns, hr, rfl⟩
  have hwords := reassembled_of_assemble hw h
  obtain ⟨again, ha, heq⟩ := assemble_sourceOf (size_of_assemble hw h) fun w hw ↦ (hwords w hw).1
  refine ⟨again, ha, heq.trans (Array.toList_inj.1 ?_)⟩
  rw [Array.toList_map]
  calc prog.words.toList.map reassembled
      = prog.words.toList.map id :=
        List.map_congr_left fun w hw ↦ (hwords w (Array.mem_toList_iff.1 hw)).2
    _ = prog.words.toList := List.map_id _

theorem assemble_disassembled_loop : ∃ prog again, assemble loopText = .ok prog ∧
    assemble (sourceOf prog.words) = .ok again ∧
    again.words = #[0x2012, 0x1803, 0x1E00, 0xF000] := by
  obtain ⟨prog, hp, hw⟩ : ∃ prog, assemble loopText = .ok prog ∧
      prog.words = #[0x2012, 0x1803, 0x1E00, 0xF000] := ⟨_, rfl, rfl⟩
  obtain ⟨again, ha, heq⟩ := assemble_disassembled hp
  exact ⟨prog, again, hp, ha, heq.trans hw⟩

end SimtMachine.Assembly
