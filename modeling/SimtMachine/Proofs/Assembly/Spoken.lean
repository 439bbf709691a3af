import SimtMachine.Proofs.Assembly.Correctness

/-!
# Lines that say something

Lines without a label and without an instruction do not count: they have no address and no word, and
no label changes its address by them. Nor does it count how the letter of a register is written.
Texts that differ in nothing else have the same program, but for the listing.
-/

namespace SimtMachine.Assembly

variable {lines lines' : List Statement} {s s' : Statement} {i i' : WrittenInst}
  {symbols : Symbols} {j : Inst Reg UInt8} {prog : Program}

def Statement.speaks (s : Statement) : Bool := s.label.isSome || s.inst.isSome

def spoken (lines : List Statement) : List Statement := lines.filter Statement.speaks

/-- The names stand for the same register, or for none. -/
def RegisterName.Synonym (r r' : RegisterName) : Prop := ∀ q, r.Names q ↔ r'.Names q

/-- The statements say the same, up to the names of registers. -/
structure Statement.Alike (s s' : Statement) : Prop where
  label : s.label = s'.label
  inst : Option.Rel (Inst.Rel RegisterName.Synonym (· = ·)) s.inst s'.inst

/-! ## Lines that say nothing -/

theorem speaks_of_holdsInst (h : s.holdsInst = true) : s.speaks = true := by
  simp_all [Statement.speaks, Statement.holdsInst]

theorem fits_of_not_speaks {here : Nat} (h : s.speaks = false) : s.Fits here := by
  simp_all [Statement.speaks, Statement.Fits]

theorem addressed_spoken (lines : List Statement) :
    addressed (spoken lines) = (addressed lines).filter fun x ↦ x.2.speaks :=
  numbered_filter (fun _ ↦ speaks_of_holdsInst) lines

theorem forall_fits_spoken_iff : (∀ x ∈ addressed (spoken lines), x.2.Fits x.1) ↔
    ∀ x ∈ addressed lines, x.2.Fits x.1 := by
  simp only [addressed_spoken, List.mem_filter, and_imp]
  refine forall₂_congr fun x _ ↦ ⟨fun h ↦ ?_, fun h _ ↦ h⟩
  cases hs : x.2.speaks with
  | true => exact h hs
  | false => exact fits_of_not_speaks hs

/-- What is found in speaking lines only is found in the lines that speak. -/
theorem filterMap_filter_of_none {α β : Type} {p : α → Bool} {f : α → Option β}
    (hf : ∀ a, p a = false → f a = none) (l : List α) :
    (l.filter p).filterMap f = l.filterMap f := by
  rw [List.filterMap_filter]
  refine List.filterMap_congr fun a _ ↦ ?_
  cases ha : p a with
  | true => rfl
  | false => exact (hf a ha).symm

theorem label_of_not_speaks (h : s.speaks = false) : s.label = none := by
  simp_all [Statement.speaks]

theorem inst_of_not_speaks (h : s.speaks = false) : s.inst = none := by
  simp_all [Statement.speaks]

theorem symbolsOf_spoken (lines : List Statement) : symbolsOf (spoken lines) = symbolsOf lines := by
  rw [symbolsOf, addressed_spoken, symbolsOf]
  refine filterMap_filter_of_none (fun x hx ↦ ?_) _
  rw [label_of_not_speaks hx, Option.map_none]

theorem labels_spoken (lines : List Statement) : labels (spoken lines) = labels lines :=
  filterMap_filter_of_none (fun _ ↦ label_of_not_speaks) lines

theorem filterMap_inst_spoken (lines : List Statement) :
    (spoken lines).filterMap Statement.inst = lines.filterMap Statement.inst :=
  filterMap_filter_of_none (fun _ ↦ inst_of_not_speaks) lines

/-! ## Lines that say the same -/

theorem Statement.Alike.holdsInst_eq (h : s.Alike s') : s.holdsInst = s'.holdsInst := by
  have hi := h.inst
  unfold Statement.holdsInst
  generalize s.inst = o, s'.inst = o' at hi
  cases hi <;> rfl

theorem Statement.Alike.speaks_eq (h : s.Alike s') : s.speaks = s'.speaks := by
  have hi := h.holdsInst_eq
  unfold Statement.holdsInst at hi
  rw [Statement.speaks, Statement.speaks, h.label, hi]

theorem Statement.Alike.refl (s : Statement) : s.Alike s := by
  refine ⟨rfl, ?_⟩
  cases s.inst with
  | none => exact .none
  | some i => exact .some (i.rel_refl (fun _ _ ↦ Iff.rfl) fun _ ↦ rfl)

theorem StandsFor.of_synonyms (h : Inst.Rel RegisterName.Synonym (· = ·) i i')
    (hj : StandsFor symbols i j) : StandsFor symbols i' j := by
  refine (Inst.exists_rel_rel_iff.1 ⟨i, h.flip, hj⟩).imp ?_ ?_
  · rintro r' - q ⟨r, hr, hq⟩
    exact (hr q).1 hq
  · rintro o' - v ⟨o, rfl, hv⟩
    exact hv

theorem filterMap_eq_of_forall₂ {α β γ : Type} {R : α → β → Prop} {f : α → Option γ}
    {g : β → Option γ} {l : List α} {l' : List β} (h : List.Forall₂ R l l')
    (hfg : ∀ a b, R a b → f a = g b) : l.filterMap f = l'.filterMap g := by
  induction h with
  | nil => rfl
  | cons hab _ ih => rw [List.filterMap_cons, List.filterMap_cons, hfg _ _ hab, ih]

section Alike

variable (h : List.Forall₂ Statement.Alike (spoken lines) (spoken lines'))

include h

theorem forall₂_addressed_spoken :
    List.Forall₂ (fun x x' ↦ x.1 = x'.1 ∧ x.2.Alike x'.2) (addressed (spoken lines))
      (addressed (spoken lines')) :=
  forall₂_numbered h fun _ _ ↦ Statement.Alike.holdsInst_eq

theorem symbolsOf_eq_of_alike : symbolsOf lines = symbolsOf lines' := by
  rw [← symbolsOf_spoken lines, ← symbolsOf_spoken lines', symbolsOf, symbolsOf]
  refine filterMap_eq_of_forall₂ (forall₂_addressed_spoken h) fun x x' hx ↦ ?_
  rw [hx.1, hx.2.label]

theorem labels_eq_of_alike : labels lines = labels lines' := by
  rw [← labels_spoken lines, ← labels_spoken lines']
  exact filterMap_eq_of_forall₂ h fun _ _ hs ↦ hs.label

theorem forall₂_inst_of_alike : List.Forall₂ (Inst.Rel RegisterName.Synonym (· = ·))
    (lines.filterMap Statement.inst) (lines'.filterMap Statement.inst) := by
  rw [← filterMap_inst_spoken lines, ← filterMap_inst_spoken lines']
  exact List.rel_filterMap (fun _ _ hs ↦ hs.inst) h

theorem forall_fits_of_alike (hf : ∀ x ∈ addressed lines, x.2.Fits x.1) :
    ∀ x ∈ addressed lines', x.2.Fits x.1 := by
  rw [← forall_fits_spoken_iff] at hf ⊢
  intro x' hx' hsays
  obtain ⟨x, hx, hn, hs⟩ := exists_mem_of_forall₂ (forall₂_addressed_spoken h) hx'
  rw [← hn]
  refine hf x hx ?_
  have hi : x.2.inst.isSome = x'.2.inst.isSome := hs.holdsInst_eq
  rwa [hi, hs.label]

theorem Assemblable.of_alike (ha : Assemblable lines) : Assemblable lines' := by
  refine assemblable_of_exists_standsFor
    (forall_fits_of_alike h (forall_fits_iff.2 ⟨ha.instructions, ha.alone⟩))
    (labels_eq_of_alike h ▸ ha.distinct) fun s' hs' i' hi' ↦ ?_
  have hmem : i' ∈ lines'.filterMap Statement.inst := List.mem_filterMap.2 ⟨s', hs', hi'⟩
  obtain ⟨i, hi, hii'⟩ := exists_mem_of_forall₂ (forall₂_inst_of_alike h) hmem
  obtain ⟨s, hs, hi⟩ := List.mem_filterMap.1 hi
  obtain ⟨j, hj⟩ := ha.exists_standsFor hs hi
  exact ⟨j, symbolsOf_eq_of_alike h ▸ hj.of_synonyms hii'⟩

end Alike

/-- Texts whose speaking lines say the same have the same words and the same symbols. -/
theorem exists_assemble_of_alike {text text' : String} (hw : Written text.toList lines)
    (hw' : Written text'.toList lines')
    (h : List.Forall₂ Statement.Alike (spoken lines) (spoken lines'))
    (ha : assemble text = .ok prog) :
    ∃ prog', assemble text' = .ok prog' ∧ prog'.words = prog.words ∧
      prog'.symbols = prog.symbols := by
  obtain ⟨prog', ha'⟩ := ((assemblable_of_assemble hw ha).of_alike h).exists_assemble hw'
  obtain ⟨-, -, hs, -⟩ := encoded_of_assemble hw ha
  obtain ⟨-, -, hs', -⟩ := encoded_of_assemble hw' ha'
  have hsymbols : prog'.symbols = prog.symbols := by rw [hs, hs', symbolsOf_eq_of_alike h]
  refine ⟨prog', ha', ?_, hsymbols⟩
  have hwords := forall₂_comp (words_of_assemble hw' ha').flip
    (forall₂_comp (forall₂_inst_of_alike h).flip (words_of_assemble hw ha)
      (T := fun i' v ↦ ∃ j, StandsFor prog.symbols i' j ∧ j.encode = v) ?_) (T := (· = ·)) ?_
  · rw [List.forall₂_eq_eq_eq] at hwords
    exact Array.toList_inj.1 hwords
  · rintro i' i v hi ⟨j, hj, hv⟩
    exact ⟨j, hj.of_synonyms hi, hv⟩
  · rintro v' i' v ⟨j', hj', rfl⟩ ⟨j, hj, rfl⟩
    rw [hsymbols] at hj'
    rw [hj'.unique hj RegisterName.Names.unique Operand.Means.unique]

end SimtMachine.Assembly
