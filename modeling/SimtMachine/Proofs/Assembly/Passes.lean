import SimtMachine.Proofs.Assembly.Grammar

/-!
# The passes of the assembler

What each pass does with a line, when it succeeds, and what a whole pass does: placing numbers the
instructions, collecting gathers the labels, and encoding looks them up.
-/

namespace SimtMachine.Assembly

variable {w t : List Char} {r : RegisterName} {o : Operand} {q : Reg} {row here : Nat}

/-! ## Names and literals -/

/-- The register that a name stands for. -/
def RegisterName.Names : RegisterName → Reg → Prop
  | .special r, q => q = r
  | .general _ digits, q => q.val = numeral 10 digits

/-- The immediate that an operand is placed as. -/
inductive Operand.Denotes : Operand → Immediate → Prop
  | number {t : List Char} {v : UInt8} : NumberText t v.toNat → Denotes (.number t) (.value v)
  | label (name : List Char) : Denotes (.label name) (.label (String.ofList name))

/-- The byte that an operand stands for under the addresses of the labels. -/
inductive Operand.Means (symbols : Symbols) : Operand → UInt8 → Prop
  | number {t : List Char} {v : UInt8} : NumberText t v.toNat → Means symbols (.number t) v
  | label {name : List Char} {v : UInt8} : symbols.lookup (String.ofList name) = some v →
      Means symbols (.label name) v

theorem NumberText.unique {n n' : Nat} (h : NumberText t n) (h' : NumberText t n') : n = n' := by
  cases h with
  | hexadecimal =>
    cases h' with
    | hexadecimal => rfl
    | decimal _ h => exact absurd (h 'x' (by simp)) (by decide)
  | binary =>
    cases h' with
    | binary => rfl
    | decimal _ h => exact absurd (h 'b' (by simp)) (by decide)
  | decimal _ h =>
    cases h' with
    | hexadecimal => exact absurd (h 'x' (by simp)) (by decide)
    | binary => exact absurd (h 'b' (by simp)) (by decide)
    | decimal => rfl

theorem registerNumber_eq_ok_iff (h : RegisterText w r) :
    registerNumber row r = .ok q ↔ r.Names q := by
  cases h with
  | blockIdx | blockDim | threadIdx => simp [registerNumber, RegisterName.Names, eq_comm]
  | @general c ds hc hne hds =>
    have hu := unsigned?_eq hne (head?_ne_of_forall hds (by decide)) fun c hc ↦
      digit?_decimal (hds c hc)
    have hq := q.isLt
    by_cases hn : numeral 10 ds < 16
    · have h64 : numeral 10 ds < 2 ^ 64 := by omega
      rw [if_pos h64] at hu
      simp [registerNumber, hu, hn, RegisterName.Names, Fin.ext_iff, eq_comm]
    · have hne : q.val ≠ numeral 10 ds := by omega
      by_cases h64 : numeral 10 ds < 2 ^ 64
      · rw [if_pos h64] at hu
        simp [registerNumber, registerNumber.refuse, hu, hn, RegisterName.Names, hne]
      · rw [if_neg h64] at hu
        simp [registerNumber, registerNumber.refuse, hu, RegisterName.Names, hne]

theorem OperandText.exists_number (h : OperandText w (.number t)) : ∃ n, NumberText t n := by
  cases h with
  | number ht =>
    cases ht with
    | bare hn => exact ⟨_, hn⟩
    | marked hn => exact ⟨_, hn⟩

theorem immediateValue_eq_ok_iff {m : Immediate} (h : OperandText w o) :
    immediateValue row o = .ok m ↔ o.Denotes m := by
  cases o with
  | label name =>
    constructor
    · rintro ⟨⟩
      exact .label name
    · rintro ⟨⟩
      rfl
  | number t =>
    obtain ⟨n, hn⟩ := h.exists_number
    have hr := hn.read?
    by_cases h256 : n < 256
    · have h64 : n < 2 ^ 64 := by omega
      have hv : (UInt8.ofNat n).toNat = n := UInt8.toNat_ofNat_of_lt' h256
      have hi : immediateValue row (.number t) = .ok (.value (UInt8.ofNat n)) := by
        rw [if_pos h64] at hr
        simp [immediateValue, hr, h256]
      rw [hi, Except.ok.injEq]
      constructor
      · rintro rfl
        exact .number (hv.symm ▸ hn)
      · rintro ⟨hn'⟩
        rw [hn.unique hn', UInt8.ofNat_toNat]
    · have hi : immediateValue row (.number t) ≠ .ok m := by
        by_cases h64 : n < 2 ^ 64
        · rw [if_pos h64] at hr
          simp [immediateValue, hr, h256]
        · rw [if_neg h64] at hr
          simp [immediateValue, hr]
      simp only [hi, false_iff]
      rintro ⟨hn'⟩
      exact h256 (hn.unique hn' ▸ UInt8.toNat_lt _)

theorem means_iff {symbols : Symbols} {v : UInt8} :
    o.Means symbols v ↔ ∃ m, o.Denotes m ∧ m.resolve symbols = .ok v := by
  constructor
  · intro h
    cases h with
    | number hn => exact ⟨_, .number hn, rfl⟩
    | label hl => exact ⟨_, .label _, by rw [Immediate.resolve, hl]⟩
  · rintro ⟨m, hm, hv⟩
    cases hm with
    | number hn =>
      obtain rfl : _ = v := by simpa [Immediate.resolve] using hv
      exact .number hn
    | label name =>
      cases hl : symbols.lookup (String.ofList name) with
      | some a =>
        obtain rfl : a = v := by simpa [Immediate.resolve, hl] using hv
        exact .label hl
      | none => simp [Immediate.resolve, hl] at hv

/-! ## Numbering -/

section Numbering

variable {α β : Type} {counts : α → Bool} {n : Nat}

/-- The elements of a list, each with the number of counted elements before it, from `n` on. -/
def numbered (counts : α → Bool) : Nat → List α → List (Nat × α)
  | _, [] => []
  | n, a :: l => (n, a) :: numbered counts (if counts a then n + 1 else n) l

theorem numbered_map (f : β → α) (l : List β) :
    numbered counts n (l.map f) = (numbered (counts ∘ f) n l).map (Prod.map id f) := by
  induction l generalizing n with
  | nil => rfl
  | cons b l ih => simp only [List.map_cons, numbered, ih, Function.comp, Prod.map, id]

theorem numbered_map_snd (l : List α) : (numbered counts n l).map Prod.snd = l := by
  induction l generalizing n with
  | nil => rfl
  | cons a l ih => rw [numbered, List.map_cons, ih]

theorem numbered_filter {p : α → Bool} (hp : ∀ a, counts a = true → p a = true) (l : List α) :
    numbered counts n (l.filter p) = (numbered counts n l).filter fun x ↦ p x.2 := by
  induction l generalizing n with
  | nil => rfl
  | cons a l ih =>
    cases ha : p a with
    | true => simp [numbered, ha, ih]
    | false =>
      have hc : counts a = false := by
        rw [← Bool.not_eq_true]
        exact fun h ↦ absurd (hp a h) (by simp [ha])
      simp [numbered, ha, hc, ih]

theorem forall₂_numbered {R : α → β → Prop} {counts' : β → Bool} {l : List α} {l' : List β}
    (h : List.Forall₂ R l l') (hc : ∀ a b, R a b → counts a = counts' b) :
    List.Forall₂ (fun x y ↦ x.1 = y.1 ∧ R x.2 y.2) (numbered counts n l)
      (numbered counts' n l') := by
  induction h generalizing n with
  | nil => exact .nil
  | cons hab _ ih =>
    rw [numbered, numbered, hc _ _ hab]
    exact .cons ⟨rfl, hab⟩ ih

/-- There are at most `m` counted elements if and only if each has less than `m` before it. -/
theorem countP_le_iff {m : Nat} (hn : n ≤ m) (l : List α) :
    n + l.countP counts ≤ m ↔ ∀ x ∈ numbered counts n l, counts x.2 = true → x.1 < m := by
  induction l generalizing n with
  | nil => simpa [numbered] using hn
  | cons a l ih =>
    rw [numbered, List.forall_mem_cons, List.countP_cons]
    by_cases ha : counts a = true
    · simp only [ha, if_true, forall_const]
      by_cases hm : n < m
      · rw [← ih hm]
        omega
      · simp only [hm, false_and, iff_false]
        omega
    · simp only [ha, if_false, Bool.false_eq_true, false_implies, true_and]
      exact ih hn

end Numbering

/-! ## Placing -/

variable {s : Statement} {n : NumberedLine} {p : PlacedSource} {ns : List NumberedLine}
  {ps : List PlacedSource} {i : WrittenInst}

def Statement.holdsInst (s : Statement) : Bool := s.inst.isSome

/-- The registers, immediates and masks of an instruction are such as the language has. -/
structure WrittenInst.WellFormed (i : WrittenInst) : Prop where
  registers : ∀ r ∈ i.registers, ∃ w, RegisterText w r
  immediates : ∀ o ∈ i.immediates, ∃ w, OperandText w o
  mask : ∀ mask o, i = .branch mask o → 0 < mask ∧ mask < 8

theorem InstText.wellFormed (h : InstText w i) : i.WellFormed := by
  obtain ⟨m, u, v, ⟨word, hm, -⟩, hv, -, -⟩ := h
  refine ⟨?_, ?_, ?_⟩
  · cases hv with
    | nop | ret | branch => simp [Inst.registers]
    | compare _ hu _ hv | load _ hu _ hv | store _ hu _ hv =>
      simpa [Inst.registers] using ⟨⟨_, hu⟩, _, hv⟩
    | const _ hu => simpa [Inst.registers] using ⟨_, hu⟩
    | arith _ hu _ hv _ hw => simpa [Inst.registers] using ⟨⟨_, hu⟩, ⟨_, hv⟩, _, hw⟩
  · cases hv with
    | nop | ret | compare | arith | load | store => simp [Inst.immediates]
    | branch _ hu => simpa [Inst.immediates] using ⟨_, hu⟩
    | const _ _ _ hv => simpa [Inst.immediates] using ⟨_, .number hv⟩
  · rintro mask o rfl
    cases hv
    cases hm with
    | branch less equal greater => cases less <;> cases equal <;> cases greater <;> decide

theorem LineText.wellFormed (h : LineText w s) : ∀ i ∈ s.inst, i.WellFormed := by
  obtain ⟨b, l, u, tail, -, -, hu, -, -⟩ := h
  intro i hi
  generalize s.inst = o at hu hi
  cases hu with
  | absent => simp at hi
  | present hw =>
    obtain rfl := Option.mem_some_iff.1 hi
    exact hw.wellFormed

theorem Written.wellFormed {text : List Char} {lines : List Statement} (h : Written text lines) :
    ∀ s ∈ lines, ∀ i ∈ s.inst, i.WellFormed := by
  obtain ⟨ps, -, h⟩ := h
  induction h with
  | nil => simp
  | cons hl _ ih => exact List.forall_mem_cons.2 ⟨hl.wellFormed, ih⟩

abbrev PlacedAs : WrittenInst → PlacedInst → Prop := Inst.Rel RegisterName.Names Operand.Denotes

theorem resolve_eq_ok_iff (h : i.WellFormed) {j : PlacedInst} :
    i.resolve (registerNumber row) (immediateValue row) = .ok j ↔ PlacedAs i j := by
  rw [Inst.resolve_eq_ok_iff]
  refine Inst.rel_congr (fun r hr q ↦ ?_) fun o ho m ↦ ?_
  · obtain ⟨w, hw⟩ := h.registers r hr
    exact registerNumber_eq_ok_iff hw
  · obtain ⟨w, hw⟩ := h.immediates o ho
    exact immediateValue_eq_ok_iff hw

/-- A line that holds an instruction or a label needs room in the address space. -/
def Statement.Fits (here : Nat) (s : Statement) : Prop :=
  s.inst.isSome ∨ s.label.isSome → here < 256

theorem placeLine_some {label : Option (List Char)} {source : List Char} :
    placeLine here ⟨row, ⟨label, some i, source⟩⟩ = .ok p ↔
      here < 256 ∧ ∃ j, i.resolve (registerNumber row) (immediateValue row) = .ok j ∧
        ⟨row, here, label.map String.ofList, some j, String.ofList source⟩ = p := by
  by_cases hh : here < 256
  · have hge : ¬here ≥ addressSpace := Nat.not_le.2 hh
    simp only [placeLine, hge, if_false, bind_eq_ok_iff, pure_eq_ok_iff, hh, true_and]
  · have hge : here ≥ addressSpace := Nat.not_lt.1 hh
    simp only [placeLine, hge, if_true, bind_eq_ok_iff, hh, false_and, iff_false]
    rintro ⟨_, ht, -⟩
    exact throw_ne_ok ht

theorem placeLine_none {label : Option (List Char)} {source : List Char} :
    placeLine here ⟨row, ⟨label, none, source⟩⟩ = .ok p ↔
      (label.isSome = true → here < 256) ∧
        ⟨row, here, label.map String.ofList, none, String.ofList source⟩ = p := by
  by_cases hh : label.isSome = true ∧ here ≥ addressSpace
  · have hf : ¬(label.isSome = true → here < 256) := fun h ↦ Nat.not_lt.2 hh.2 (h hh.1)
    have hb : ((label.map String.ofList).isSome && decide (here ≥ addressSpace)) = true := by
      simpa using hh
    simp only [placeLine, hb, if_true, bind_eq_ok_iff, hf, false_and, iff_false]
    rintro ⟨_, ht, -⟩
    exact throw_ne_ok ht
  · have hf : label.isSome = true → here < 256 := fun h ↦ Nat.not_le.1 fun hge ↦ hh ⟨h, hge⟩
    have hb : ((label.map String.ofList).isSome && decide (here ≥ addressSpace)) = false := by
      simpa using hh
    rw [and_iff_right hf]
    simp only [placeLine, hb, Bool.false_eq_true, if_false]
    exact pure_eq_ok_iff

theorem placeLine_eq_ok_iff (hn : ∀ i ∈ n.statement.inst, i.WellFormed) :
    placeLine here n = .ok p ↔ n.statement.Fits here ∧
      ∃ inst, Option.Rel PlacedAs n.statement.inst inst ∧
        ⟨n.row, here, n.statement.label.map String.ofList, inst, String.ofList n.line.source⟩ =
          p := by
  obtain ⟨row, label, inst, source⟩ := n
  cases inst with
  | some i =>
    rw [placeLine_some]
    constructor
    · rintro ⟨hh, j, hj, rfl⟩
      exact ⟨fun _ ↦ hh, some j, .some ((resolve_eq_ok_iff (hn i rfl)).1 hj), rfl⟩
    · rintro ⟨hh, _, ⟨hj⟩, rfl⟩
      exact ⟨hh (.inl rfl), _, (resolve_eq_ok_iff (hn i rfl)).2 hj, rfl⟩
  | none =>
    rw [placeLine_none]
    constructor
    · rintro ⟨hh, rfl⟩
      exact ⟨fun h ↦ hh (h.resolve_left nofun), none, .none, rfl⟩
    · rintro ⟨hh, _, ⟨⟩, rfl⟩
      exact ⟨fun h ↦ hh (.inr h), rfl⟩

theorem isSome_of_placeLine (h : placeLine here n = .ok p) :
    p.inst.isSome = n.statement.holdsInst := by
  obtain ⟨row, label, inst, source⟩ := n
  cases inst with
  | some i =>
    obtain ⟨-, j, -, rfl⟩ := placeLine_some.1 h
    rfl
  | none =>
    obtain ⟨-, rfl⟩ := placeLine_none.1 h
    rfl

/-- Placing takes the lines one by one, each at the number of instructions before it. -/
theorem place_eq_ok_iff : place here ns = .ok ps ↔
    List.Forall₂ (fun x p ↦ placeLine x.1 x.2 = .ok p)
      (numbered (fun n ↦ n.statement.holdsInst) here ns) ps := by
  induction ns generalizing here ps with
  | nil => rw [place, Except.ok.injEq, numbered, List.forall₂_nil_left_iff, eq_comm]
  | cons n ns ih =>
    simp only [place, numbered, bind_eq_ok_iff, pure_eq_ok_iff, List.forall₂_cons_left_iff]
    constructor
    · rintro ⟨p, hp, ps, hps, rfl⟩
      rw [isSome_of_placeLine hp] at hps
      exact ⟨p, ps, hp, ih.1 hps, rfl⟩
    · rintro ⟨p, ps, hp, hps, rfl⟩
      refine ⟨p, hp, ps, ?_, rfl⟩
      rw [isSome_of_placeLine hp]
      exact ih.2 hps

/-! ## Labels -/

/-- The labels of placed lines with the number of instructions before them. -/
def labelled (ps : List PlacedSource) : Symbols :=
  ps.filterMap fun p ↦ p.label.map (·, UInt8.ofNat p.here)

theorem labelled_cons (p : PlacedSource) (ps : List PlacedSource) :
    labelled (p :: ps) = (p.label.map (·, UInt8.ofNat p.here)).toList ++ labelled ps := by
  rw [labelled, List.filterMap_cons]
  cases p.label <;> rfl

theorem lookup_isSome_iff {known : Symbols} {name : String} :
    (known.lookup name).isSome = true ↔ name ∈ known.map Prod.fst := by
  induction known with
  | nil => simp
  | cons x known ih =>
    obtain ⟨k, v⟩ := x
    by_cases h : name = k
    · simp [List.lookup, h]
    · have hb : (name == k) = false := by simpa using h
      simp [List.lookup, hb, h, ih]

/-- Labels are gathered if no two are the same. -/
theorem collect_eq_ok_iff {known symbols : Symbols} (hk : (known.map Prod.fst).Nodup) :
    collect known ps = .ok symbols ↔
      ((known ++ labelled ps).map Prod.fst).Nodup ∧ known ++ labelled ps = symbols := by
  induction ps generalizing known with
  | nil => simp [collect, labelled, hk]
  | cons p ps ih =>
    unfold collect
    cases hl : p.label with
    | none =>
      have hc : labelled (p :: ps) = labelled ps := by simp [labelled_cons, hl]
      rw [hc]
      exact ih hk
    | some name =>
      have hc : known ++ labelled (p :: ps) =
          known ++ [(name, UInt8.ofNat p.here)] ++ labelled ps := by simp [labelled_cons, hl]
      rw [hc]
      by_cases hn : name ∈ known.map Prod.fst
      · have hd : ¬((known ++ [(name, UInt8.ofNat p.here)] ++ labelled ps).map Prod.fst).Nodup := by
          simp only [List.map_append, List.append_assoc]
          exact fun h ↦ (List.nodup_append.1 h).2.2 name hn name (by simp) rfl
        simp only [lookup_isSome_iff.2 hn, if_true, hd, false_and, reduceCtorEq]
      · have hk' : ((known ++ [(name, UInt8.ofNat p.here)]).map Prod.fst).Nodup := by
          rw [List.map_append, List.nodup_append]
          refine ⟨hk, by simp, ?_⟩
          rintro k hk _ hm rfl
          obtain rfl : k = name := by simpa using hm
          exact hn hk
        simp only [lookup_isSome_iff, hn, if_false]
        exact ih hk'

theorem collect_nil {symbols : Symbols} : collect [] ps = .ok symbols ↔
    ((labelled ps).map Prod.fst).Nodup ∧ labelled ps = symbols :=
  collect_eq_ok_iff List.nodup_nil

theorem lookup_eq_some_iff {symbols : Symbols} (h : (symbols.map Prod.fst).Nodup) {name : String}
    {v : UInt8} : symbols.lookup name = some v ↔ (name, v) ∈ symbols := by
  induction symbols with
  | nil => simp
  | cons x symbols ih =>
    obtain ⟨k, u⟩ := x
    obtain ⟨hk, h⟩ := List.nodup_cons.1 h
    by_cases hn : name = k
    · subst hn
      have hv : (name, v) ∉ symbols := fun hm ↦ hk (List.mem_map.2 ⟨_, hm, rfl⟩)
      simp [List.lookup, hv, eq_comm]
    · have hb : (name == k) = false := by simpa using hn
      simp [List.lookup, hb, hn, ih h]

/-! ## Encoding -/

variable {symbols : Symbols} {l : ListingLine}

theorem RegisterName.Names.unique : Relator.RightUnique RegisterName.Names := by
  intro r q q' h h'
  cases r with
  | special => exact h.trans h'.symm
  | general => exact Fin.ext (h.trans h'.symm)

theorem Operand.Denotes.unique : Relator.RightUnique Operand.Denotes := by
  rintro o m m' (h | _) h'
  · cases h' with
    | number h' => rw [UInt8.toNat_inj.1 (h.unique h')]
  · cases h'
    rfl

theorem Operand.Means.unique : Relator.RightUnique (Operand.Means symbols) := by
  rintro o v v' (h | h) h'
  · cases h' with
    | number h' => exact UInt8.toNat_inj.1 (h.unique h')
  · cases h' with
    | label h' => exact Option.some.inj (h.symm.trans h')

/-- The instruction, with its labels resolved, that a written instruction stands for. -/
abbrev StandsFor (symbols : Symbols) : WrittenInst → Inst Reg UInt8 → Prop :=
  Inst.Rel RegisterName.Names (Operand.Means symbols)

theorem standsFor_iff {j : Inst Reg UInt8} : StandsFor symbols i j ↔
    ∃ m, PlacedAs i m ∧ Inst.Rel (· = ·) (fun m b ↦ m.resolve symbols = .ok b) m j := by
  rw [Inst.exists_rel_rel_iff]
  exact Inst.rel_congr (fun r _ q ↦ by simp) fun o _ v ↦ means_iff

theorem word_eq_ok_iff {m : PlacedInst} {v : UInt16} (h : PlacedAs i m) :
    PlacedInst.word symbols m = .ok v ↔ ∃ j, StandsFor symbols i j ∧ j.encode = v := by
  simp only [PlacedInst.word, map_eq_ok_iff, Inst.resolve_eq_ok_iff, pure_eq_ok_iff]
  refine exists_congr fun j ↦ and_congr_left' ?_
  rw [standsFor_iff]
  constructor
  · intro hj
    exact ⟨m, h, hj⟩
  · rintro ⟨m', h', hj⟩
    rwa [h.unique h' RegisterName.Names.unique Operand.Denotes.unique]

theorem mapError_eq_ok_iff {α ε ε' : Type} {f : ε → ε'} {x : Except ε α} {a : α} :
    x.mapError f = .ok a ↔ x = .ok a := by
  cases x <;> simp [Except.mapError]

theorem encodeLine_eq_ok_iff :
    encodeLine symbols p = .ok l ↔
      ∃ word, Option.Rel (fun i v ↦ PlacedInst.word symbols i = .ok v) p.inst word ∧
        { p.toListing with word } = l := by
  obtain ⟨row, here, label, inst, source⟩ := p
  rw [encodeLine, mapError_eq_ok_iff]
  cases inst with
  | none =>
    constructor
    · rintro ⟨⟩
      exact ⟨none, .none, rfl⟩
    · rintro ⟨_, ⟨⟩, rfl⟩
      rfl
  | some i =>
    constructor
    · intro h
      obtain ⟨v, hv, rfl⟩ := map_eq_ok_iff.1 h
      exact ⟨some v, .some hv, rfl⟩
    · rintro ⟨_, ⟨hv⟩, rfl⟩
      exact map_eq_ok_iff.2 ⟨_, hv, rfl⟩

/-- A text is assembled by passing over what is read three times. -/
theorem assemble_eq_ok_iff {text : String} {prog : Program} :
    assemble text = .ok prog ↔ ∃ ns, read text.toList = .ok ns ∧ ∃ ps, place 0 ns = .ok ps ∧
      ((labelled ps).map Prod.fst).Nodup ∧
      ∃ ls, List.Forall₂ (fun p l ↦ encodeLine (labelled ps) p = .ok l) ps ls ∧
        ⟨(ls.filterMap ListingLine.word).toArray, labelled ps, ls⟩ = prog := by
  simp only [assemble, bind_eq_ok_iff, pure_eq_ok_iff, mapM_eq_ok_iff, collect_nil, and_assoc,
    exists_and_left, exists_eq_left']

end SimtMachine.Assembly
