import Mathlib.Data.List.Nodup
import SimtMachine.Proofs.Assembly.Passes

/-!
# Correctness of the assembler

Which source texts can be assembled, and what their programs are, told from the lines alone: the
instructions are numbered in order, a label stands for the number of instructions before it, and
each word decodes to its instruction.
-/

namespace SimtMachine.Assembly

variable {lines : List Statement} {s : Statement} {here : Nat} {i : WrittenInst}
  {symbols : Symbols} {prog : Program} {ps : List PlacedSource} {p : PlacedSource}
  {r : RegisterName} {o : Operand}

def RegisterName.InRange : RegisterName → Prop
  | .special _ => True
  | .general _ digits => numeral 10 digits ≤ 15

def Operand.InRange : Operand → Prop
  | .number t => ∃ n, NumberText t n ∧ n ≤ 255
  | .label _ => True

/-- The lines of a text, each with the number of instructions on the lines before it. -/
abbrev addressed (lines : List Statement) : List (Nat × Statement) :=
  numbered Statement.holdsInst 0 lines

def labels (lines : List Statement) : List (List Char) := lines.filterMap Statement.label

/-- The conditions on the lines of a text under which it can be assembled. -/
structure Assemblable (lines : List Statement) : Prop where
  registers : ∀ s ∈ lines, ∀ i ∈ s.inst, ∀ r ∈ i.registers, r.InRange
  immediates : ∀ s ∈ lines, ∀ i ∈ s.inst, ∀ o ∈ i.immediates, o.InRange
  instructions : lines.countP Statement.holdsInst ≤ 256
  /-- a line that holds only a label does not come after the last cell -/
  alone : ∀ x ∈ addressed lines, x.2.inst = none → x.2.label.isSome → x.1 < 256
  distinct : (labels lines).Nodup
  defined : ∀ s ∈ lines, ∀ i ∈ s.inst, ∀ name, .label name ∈ i.immediates → name ∈ labels lines

/-- A line of the listing has the address and the word of the instruction on the line. -/
def Lists (words : Array UInt16) (x : Nat × Statement) (l : ListingLine) : Prop :=
  (l.address.map UInt8.toNat = if x.2.holdsInst then some x.1 else none) ∧
    l.word = if x.2.holdsInst then words[x.1]? else none

/-- What the program of a text is. -/
structure Assembles (lines : List Statement) (prog : Program) : Prop where
  /-- one word for each instruction, which decodes to what the instruction stands for -/
  decoded : List.Forall₂
    (fun i w ↦ ∃ j, StandsFor prog.symbols i j ∧ j.Fields (decode w))
    (lines.filterMap Statement.inst) prog.words.toList
  listed : List.Forall₂ (Lists prog.words) (addressed lines) prog.lines
  symbols : ∀ name v, prog.symbols.lookup (String.ofList name) = some v ↔
    ∃ x ∈ addressed lines, x.2.label = some name ∧ v.toNat = x.1

theorem addressed_map_snd (lines : List Statement) : (addressed lines).map Prod.snd = lines :=
  numbered_map_snd lines

theorem filterMap_addressed {α : Type} (f : Statement → Option α) (lines : List Statement) :
    lines.filterMap f = (addressed lines).filterMap fun x ↦ f x.2 := by
  conv_lhs => rw [← addressed_map_snd lines, List.filterMap_map]
  rfl

theorem exists_mem_addressed (hs : s ∈ lines) : ∃ n, (n, s) ∈ addressed lines := by
  rw [← addressed_map_snd lines] at hs
  obtain ⟨x, hx, rfl⟩ := List.mem_map.1 hs
  exact ⟨x.1, hx⟩

/-! ## Conditions -/

theorem exists_names_iff : (∃ q, r.Names q) ↔ r.InRange := by
  cases r with
  | special q => exact ⟨fun _ ↦ trivial, fun _ ↦ ⟨q, rfl⟩⟩
  | general letter digits =>
    constructor
    · rintro ⟨q, hq⟩
      have hlt := q.isLt
      exact Nat.le_of_lt_succ (hq ▸ hlt)
    · intro h
      exact ⟨⟨numeral 10 digits, Nat.lt_succ_of_le h⟩, rfl⟩

theorem exists_denotes_iff : (∃ m, o.Denotes m) ↔ o.InRange := by
  cases o with
  | label name => exact ⟨fun _ ↦ trivial, fun _ ↦ ⟨_, .label name⟩⟩
  | number t =>
    constructor
    · rintro ⟨_, @⟨_, v, hv⟩⟩
      exact ⟨_, hv, Nat.le_of_lt_succ v.toNat_lt⟩
    · rintro ⟨n, hn, hle⟩
      have hv : (UInt8.ofNat n).toNat = n := UInt8.toNat_ofNat_of_lt' (Nat.lt_succ_of_le hle)
      exact ⟨_, .number (hv.symm ▸ hn)⟩

theorem exists_placedAs_iff : (∃ m, PlacedAs i m) ↔
    (∀ r ∈ i.registers, r.InRange) ∧ ∀ o ∈ i.immediates, o.InRange := by
  rw [Inst.exists_rel_iff]
  simp only [exists_names_iff, exists_denotes_iff]

theorem inRange_of_standsFor (h : ∃ j, StandsFor symbols i j) :
    (∀ r ∈ i.registers, r.InRange) ∧ ∀ o ∈ i.immediates, o.InRange := by
  obtain ⟨j, hj⟩ := h
  obtain ⟨m, hm, -⟩ := standsFor_iff.1 hj
  exact exists_placedAs_iff.1 ⟨m, hm⟩

/-- Every line fits if and only if all instructions do, and the labels on lines of their own. -/
theorem forall_fits_iff : (∀ x ∈ addressed lines, x.2.Fits x.1) ↔
    lines.countP Statement.holdsInst ≤ 256 ∧
      ∀ x ∈ addressed lines, x.2.inst = none → x.2.label.isSome → x.1 < 256 := by
  have hc : 0 + lines.countP Statement.holdsInst ≤ 256 ↔
      ∀ x ∈ addressed lines, x.2.holdsInst = true → x.1 < 256 :=
    countP_le_iff (Nat.zero_le 256) lines
  rw [← Nat.zero_add (lines.countP _), hc]
  constructor
  · exact fun h ↦ ⟨fun x hx hi ↦ h x hx (.inl hi), fun x hx _ hl ↦ h x hx (.inr hl)⟩
  · rintro ⟨hi, hl⟩ x hx h
    cases hn : x.2.inst with
    | none => exact hl x hx hn (h.resolve_left (by simp [hn]))
    | some i => exact hi x hx (by simp [Statement.holdsInst, hn])

/-! ## Placed lines -/

structure Placed (x : Nat × Statement) (p : PlacedSource) : Prop where
  fits : x.2.Fits x.1
  here : p.here = x.1
  label : p.label = x.2.label.map String.ofList
  inst : Option.Rel PlacedAs x.2.inst p.inst

theorem placed_of_placeLine {n : NumberedLine} (hn : ∀ i ∈ n.statement.inst, i.WellFormed)
    (h : placeLine here n = .ok p) : Placed (here, n.statement) p := by
  obtain ⟨hf, inst, hi, rfl⟩ := (placeLine_eq_ok_iff hn).1 h
  exact ⟨hf, rfl, rfl, hi⟩

theorem exists_placeLine {n : NumberedLine} (hn : ∀ i ∈ n.statement.inst, i.WellFormed)
    (hf : n.statement.Fits here) (hi : ∀ i ∈ n.statement.inst, ∃ m, PlacedAs i m) :
    ∃ p, placeLine here n = .ok p := by
  obtain ⟨inst, hinst⟩ : ∃ inst, Option.Rel PlacedAs n.statement.inst inst := by
    cases ho : n.statement.inst with
    | none => exact ⟨none, .none⟩
    | some i =>
      obtain ⟨m, hm⟩ := hi i ho
      exact ⟨some m, .some hm⟩
  exact ⟨_, (placeLine_eq_ok_iff hn).2 ⟨hf, inst, hinst, rfl⟩⟩

section Lists

variable {α β γ : Type} {R : α → β → Prop} {S : β → γ → Prop} {T : α → γ → Prop} {l : List α}
  {l' : List β} {l'' : List γ}

theorem exists_forall₂ (h : List.Forall₂ (fun _ b ↦ ∃ c, S b c) l l') :
    ∃ l'', List.Forall₂ S l' l'' := by
  induction h with
  | nil => exact ⟨[], .nil⟩
  | cons hb _ ih =>
    obtain ⟨c, hc⟩ := hb
    obtain ⟨l'', hl⟩ := ih
    exact ⟨c :: l'', .cons hc hl⟩

theorem forall₂_imp_mem {R' : α → β → Prop} (h : List.Forall₂ R l l')
    (hR : ∀ a ∈ l, ∀ b, R a b → R' a b) : List.Forall₂ R' l l' := by
  induction h with
  | nil => exact .nil
  | cons hab _ ih =>
    obtain ⟨ha, hl⟩ := List.forall_mem_cons.1 hR
    exact .cons (ha _ hab) (ih hl)

theorem exists_mem_of_forall₂ (h : List.Forall₂ R l l') {b : β} (hb : b ∈ l') : ∃ a ∈ l, R a b := by
  have hm : List.Forall₂ (fun a b ↦ a ∈ l ∧ R a b) l l' :=
    forall₂_imp_mem h fun a ha b hab ↦ ⟨ha, hab⟩
  exact exists_forall₂_iff.1 ⟨_, hm.flip⟩ b hb

theorem forall₂_comp (h : List.Forall₂ R l l') (h' : List.Forall₂ S l' l'')
    (hT : ∀ a b c, R a b → S b c → T a c) : List.Forall₂ T l l'' := by
  induction h generalizing l'' with
  | nil =>
    cases h'
    exact .nil
  | cons hab _ ih =>
    cases h' with
    | cons hbc h' => exact .cons (hT _ _ _ hab hbc) (ih h')

end Lists

theorem addressed_eq {ns : List NumberedLine} (h : ns.map NumberedLine.statement = lines) :
    addressed lines = (numbered (fun n ↦ n.statement.holdsInst) 0 ns).map
      (Prod.map id NumberedLine.statement) := by
  rw [← h]
  exact numbered_map ..

theorem placed_of_place {ns : List NumberedLine} (hns : ns.map NumberedLine.statement = lines)
    (hwf : ∀ s ∈ lines, ∀ i ∈ s.inst, i.WellFormed) (h : place 0 ns = .ok ps) :
    List.Forall₂ Placed (addressed lines) ps := by
  rw [addressed_eq hns, List.forall₂_map_left_iff]
  refine forall₂_imp_mem (place_eq_ok_iff.1 h) fun x hx p hp ↦ ?_
  have hs : x.2.statement ∈ lines := by
    rw [← hns]
    exact List.mem_map_of_mem (numbered_map_snd ns ▸ List.mem_map_of_mem hx)
  exact placed_of_placeLine (hwf _ hs) hp

theorem exists_place {ns : List NumberedLine} (hns : ns.map NumberedLine.statement = lines)
    (hwf : ∀ s ∈ lines, ∀ i ∈ s.inst, i.WellFormed) (ha : Assemblable lines) :
    ∃ ps, place 0 ns = .ok ps := by
  simp only [place_eq_ok_iff]
  refine exists_forall₂ (List.forall₂_same.2 fun x hx ↦ ?_)
  have hs : x.2.statement ∈ lines := by
    rw [← hns]
    exact List.mem_map_of_mem (numbered_map_snd ns ▸ List.mem_map_of_mem hx)
  have hx' : (x.1, x.2.statement) ∈ addressed lines := by
    rw [addressed_eq hns]
    exact List.mem_map_of_mem hx
  refine exists_placeLine (hwf _ hs) (forall_fits_iff.2 ⟨ha.instructions, ha.alone⟩ _ hx') ?_
  exact fun i hi ↦ exists_placedAs_iff.2 ⟨ha.registers _ hs i hi, ha.immediates _ hs i hi⟩

/-! ## Labels -/

/-- The labels of the lines with their addresses. -/
def symbolsOf (lines : List Statement) : Symbols :=
  (addressed lines).filterMap fun x ↦
    x.2.label.map fun name ↦ (String.ofList name, UInt8.ofNat x.1)

theorem labelled_eq (h : List.Forall₂ Placed (addressed lines) ps) :
    labelled ps = symbolsOf lines := by
  unfold labelled symbolsOf
  generalize addressed lines = xs at h
  induction h with
  | nil => rfl
  | cons hx _ ih =>
    rw [List.filterMap_cons, List.filterMap_cons, ih, hx.label, hx.here, Option.map_map]
    rfl

theorem labels_eq (lines : List Statement) :
    labels lines = (addressed lines).filterMap fun x ↦ x.2.label :=
  filterMap_addressed Statement.label lines

theorem symbolsOf_fst (lines : List Statement) :
    (symbolsOf lines).map Prod.fst = (labels lines).map String.ofList := by
  rw [labels_eq, symbolsOf, List.map_filterMap, List.map_filterMap]
  simp only [Option.map_map]
  rfl

theorem nodup_symbolsOf_iff : ((symbolsOf lines).map Prod.fst).Nodup ↔ (labels lines).Nodup := by
  rw [symbolsOf_fst]
  exact List.nodup_map_iff fun _ _ h ↦ String.ofList_inj.1 h

/-- An address is known for the labels of the lines, and for no other name. -/
theorem lookup_symbolsOf (hd : (labels lines).Nodup) (hf : ∀ x ∈ addressed lines, x.2.Fits x.1)
    {name : List Char} {v : UInt8} : (symbolsOf lines).lookup (String.ofList name) = some v ↔
      ∃ x ∈ addressed lines, x.2.label = some name ∧ v.toNat = x.1 := by
  rw [lookup_eq_some_iff (nodup_symbolsOf_iff.2 hd), symbolsOf, List.mem_filterMap]
  refine exists_congr fun x ↦ and_congr_right fun hx ↦ ?_
  simp only [Option.map_eq_some_iff, Prod.mk.injEq, String.ofList_inj]
  constructor
  · rintro ⟨_, hl, rfl, rfl⟩
    exact ⟨hl, UInt8.toNat_ofNat_of_lt' (hf x hx (.inr (by simp [hl])))⟩
  · rintro ⟨hl, hv⟩
    exact ⟨name, hl, rfl, by rw [← hv, UInt8.ofNat_toNat]⟩

/-! ## Encoded lines -/

structure Encoded (symbols : Symbols) (x : Nat × Statement) (l : ListingLine) : Prop where
  address : l.address = x.2.inst.map fun _ ↦ UInt8.ofNat x.1
  word : Option.Rel (fun i v ↦ ∃ j, StandsFor symbols i j ∧ j.encode = v) x.2.inst l.word

theorem optionRel_word_iff {o : Option WrittenInst} {m : Option PlacedInst} {word : Option UInt16}
    (h : Option.Rel PlacedAs o m) :
    Option.Rel (fun i v ↦ PlacedInst.word symbols i = .ok v) m word ↔
      Option.Rel (fun i v ↦ ∃ j, StandsFor symbols i j ∧ j.encode = v) o word := by
  cases h with
  | none =>
    constructor <;> rintro ⟨⟩ <;> exact .none
  | some hm =>
    constructor
    · rintro ⟨hv⟩
      exact .some ((word_eq_ok_iff hm).1 hv)
    · rintro ⟨hv⟩
      exact .some ((word_eq_ok_iff hm).2 hv)

theorem encoded_of_encodeLine {x : Nat × Statement} {l : ListingLine} (h : Placed x p)
    (hl : encodeLine symbols p = .ok l) : Encoded symbols x l := by
  obtain ⟨word, hw, rfl⟩ := encodeLine_eq_ok_iff.1 hl
  refine ⟨?_, (optionRel_word_iff h.inst).1 hw⟩
  have hi := h.inst
  rw [PlacedSource.toListing, h.here]
  cases ho : x.2.inst <;> cases hp : p.inst <;> simp_all

theorem exists_encodeLine {x : Nat × Statement} (h : Placed x p)
    (hi : ∀ i ∈ x.2.inst, ∃ j, StandsFor symbols i j) : ∃ l, encodeLine symbols p = .ok l := by
  obtain ⟨word, hw⟩ : ∃ word, Option.Rel (fun i v ↦ ∃ j, StandsFor symbols i j ∧ j.encode = v)
      x.2.inst word := by
    cases ho : x.2.inst with
    | none => exact ⟨none, .none⟩
    | some i =>
      obtain ⟨j, hj⟩ := hi i ho
      exact ⟨some j.encode, .some ⟨j, hj, rfl⟩⟩
  exact ⟨_, encodeLine_eq_ok_iff.2 ⟨word, (optionRel_word_iff h.inst).2 hw, rfl⟩⟩

theorem Encoded.isSome_word {x : Nat × Statement} {l : ListingLine} (h : Encoded symbols x l) :
    l.word.isSome = x.2.holdsInst := by
  have hw := h.word
  unfold Statement.holdsInst
  generalize x.2.inst = o at hw
  generalize l.word = word at hw
  cases hw <;> rfl

theorem Encoded.lists {x : Nat × Statement} {l : ListingLine} {words : Array UInt16}
    (h : Encoded symbols x l) (hf : x.2.Fits x.1)
    (hw : ∀ v, l.word = some v → words[x.1]? = some v) : Lists words x l := by
  have hsome := h.isSome_word
  have ha := h.address
  cases hi : x.2.inst with
  | none =>
    have hh : x.2.holdsInst = false := by simp [Statement.holdsInst, hi]
    rw [hh, Option.isSome_eq_false_iff, Option.isNone_iff_eq_none] at hsome
    simp [Lists, hh, ha, hi, hsome]
  | some i =>
    have hh : x.2.holdsInst = true := by simp [Statement.holdsInst, hi]
    rw [hh] at hsome
    obtain ⟨v, hv⟩ := Option.isSome_iff_exists.1 hsome
    have hlt : (UInt8.ofNat x.1).toNat = x.1 :=
      UInt8.toNat_ofNat_of_lt' (hf (.inl (by simp [hi])))
    exact ⟨by simp [hh, ha, hi, hlt], by simp [hh, hv, hw v hv]⟩

/-- The lines of a program have the words of their instructions at the addresses that they give. -/
theorem forall₂_lists {n : Nat} {ls : List ListingLine} (pre : List UInt16)
    (h : List.Forall₂ (Encoded symbols) (numbered Statement.holdsInst n lines) ls)
    (hf : ∀ x ∈ numbered Statement.holdsInst n lines, x.2.Fits x.1) (hn : pre.length = n) :
    List.Forall₂ (Lists (pre ++ ls.filterMap ListingLine.word).toArray)
      (numbered Statement.holdsInst n lines) ls := by
  -- `pre` holds the words of the lines before, so that its length is the number of the next line
  induction lines generalizing n pre ls with
  | nil =>
    rw [numbered, List.forall₂_nil_left_iff] at h ⊢
    exact h
  | cons s lines ih =>
    rw [numbered] at h hf ⊢
    obtain ⟨l, ls, hl, hls, rfl⟩ := List.forall₂_cons_left_iff.1 h
    obtain ⟨hs, hf⟩ := List.forall_mem_cons.1 hf
    have hwords : (l :: ls).filterMap ListingLine.word =
        l.word.toList ++ ls.filterMap ListingLine.word := by
      cases hw : l.word <;> simp [hw]
    have hlen : (pre ++ l.word.toList).length = if s.holdsInst then n + 1 else n := by
      rw [List.length_append, hn, ← hl.isSome_word]
      cases l.word <;> rfl
    have hrest := ih (pre ++ l.word.toList) hls hf hlen
    rw [List.append_assoc, ← hwords] at hrest
    refine .cons (hl.lists hs fun v hv ↦ ?_) hrest
    rw [hwords, hv]
    simp [← hn]

/-! ## The assembler -/

theorem encoded_of_assemble {text : String} (h : Written text.toList lines)
    (ha : assemble text = .ok prog) :
    (∀ x ∈ addressed lines, x.2.Fits x.1) ∧ (labels lines).Nodup ∧
      prog.symbols = symbolsOf lines ∧
      prog.words = (prog.lines.filterMap ListingLine.word).toArray ∧
      List.Forall₂ (Encoded (symbolsOf lines)) (addressed lines) prog.lines := by
  obtain ⟨ns, hr, ps, hp, hd, ls, hl, rfl⟩ := assemble_eq_ok_iff.1 ha
  obtain ⟨ns', hr', hns⟩ := written_iff.1 h
  obtain rfl : ns = ns' := Except.ok.inj (hr.symm.trans hr')
  have hps := placed_of_place hns h.wellFormed hp
  rw [labelled_eq hps] at hd hl ⊢
  refine ⟨fun x hx ↦ ?_, nodup_symbolsOf_iff.1 hd, rfl, rfl, ?_⟩
  · obtain ⟨p, hp⟩ := exists_forall₂_iff.1 ⟨_, hps⟩ _ hx
    exact hp.fits
  · exact forall₂_comp hps hl fun x p l ↦ encoded_of_encodeLine

theorem exists_standsFor {ls : List ListingLine} {symbols : Symbols}
    (h : List.Forall₂ (Encoded symbols) (addressed lines) ls) :
    ∀ s ∈ lines, ∀ i ∈ s.inst, ∃ j, StandsFor symbols i j := by
  intro s hs i hi
  obtain ⟨n, hn⟩ := exists_mem_addressed hs
  obtain ⟨l, hl⟩ := exists_forall₂_iff.1 ⟨_, h⟩ _ hn
  have hw := hl.word
  rw [show s.inst = some i from hi] at hw
  generalize l.word = word at hw
  cases hw with
  | some hj =>
    obtain ⟨j, hj, -⟩ := hj
    exact ⟨j, hj⟩

/-- Lines can be assembled if they fit, no label is given twice, and every instruction stands for
something. -/
theorem assemblable_of_exists_standsFor (hf : ∀ x ∈ addressed lines, x.2.Fits x.1)
    (hd : (labels lines).Nodup)
    (hi : ∀ s ∈ lines, ∀ i ∈ s.inst, ∃ j, StandsFor (symbolsOf lines) i j) :
    Assemblable lines := by
  have hfits := forall_fits_iff.1 hf
  refine ⟨fun s hs i hi' ↦ (inRange_of_standsFor (hi s hs i hi')).1,
    fun s hs i hi' ↦ (inRange_of_standsFor (hi s hs i hi')).2, hfits.1, hfits.2, hd, ?_⟩
  intro s hs i hi' name hname
  obtain ⟨v, hv⟩ := (Inst.exists_rel_iff.1 (hi s hs i hi')).2 _ hname
  cases hv with
  | label hv =>
    obtain ⟨x, hx, hl, -⟩ := (lookup_symbolsOf hd hf).1 hv
    rw [labels_eq]
    exact List.mem_filterMap.2 ⟨x, hx, hl⟩

theorem assemblable_of_assemble {text : String} (h : Written text.toList lines)
    (ha : assemble text = .ok prog) : Assemblable lines := by
  obtain ⟨hf, hd, -, -, hl⟩ := encoded_of_assemble h ha
  exact assemblable_of_exists_standsFor hf hd (exists_standsFor hl)

/-- What is written in range, with known labels, stands for an instruction. -/
theorem Assemblable.exists_standsFor (h : Assemblable lines) (hs : s ∈ lines) (hi : i ∈ s.inst) :
    ∃ j, StandsFor (symbolsOf lines) i j := by
  refine Inst.exists_rel_iff.2 ⟨fun r hr ↦ exists_names_iff.2 (h.registers s hs i hi r hr), ?_⟩
  intro o ho
  cases o with
  | number t =>
    obtain ⟨_, @⟨_, v, hv⟩⟩ := exists_denotes_iff.2 (h.immediates s hs i hi _ ho)
    exact ⟨v, .number hv⟩
  | label name =>
    have hf := forall_fits_iff.2 ⟨h.instructions, h.alone⟩
    have hname := h.defined s hs i hi name ho
    rw [labels_eq] at hname
    obtain ⟨x, hx, hl⟩ := List.mem_filterMap.1 hname
    refine ⟨UInt8.ofNat x.1, .label ((lookup_symbolsOf h.distinct hf).2 ⟨x, hx, hl, ?_⟩)⟩
    exact UInt8.toNat_ofNat_of_lt' (hf x hx (.inr (by simp [hl])))

theorem Assemblable.exists_assemble {text : String} (ha : Assemblable lines)
    (h : Written text.toList lines) : ∃ prog, assemble text = .ok prog := by
  obtain ⟨ns, hr, hns⟩ := written_iff.1 h
  obtain ⟨ps, hp⟩ := exists_place hns h.wellFormed ha
  have hps := placed_of_place hns h.wellFormed hp
  have hd : ((labelled ps).map Prod.fst).Nodup := by
    rw [labelled_eq hps]
    exact nodup_symbolsOf_iff.2 ha.distinct
  obtain ⟨ls, hls⟩ : ∃ ls, List.Forall₂ (fun p l ↦ encodeLine (labelled ps) p = .ok l) ps ls := by
    refine exists_forall₂ (forall₂_imp_mem hps fun x hx p hxp ↦ exists_encodeLine hxp ?_)
    rw [labelled_eq hps]
    exact fun i hi ↦ ha.exists_standsFor (numbered_map_snd lines ▸ List.mem_map_of_mem hx) hi
  exact ⟨_, assemble_eq_ok_iff.2 ⟨ns, hr, ps, hp, hd, ls, hls, rfl⟩⟩

theorem words_of_assemble {text : String} (h : Written text.toList lines)
    (ha : assemble text = .ok prog) :
    List.Forall₂ (fun i v ↦ ∃ j, StandsFor prog.symbols i j ∧ j.encode = v)
      (lines.filterMap Statement.inst) prog.words.toList := by
  obtain ⟨-, -, hs, hw, hl⟩ := encoded_of_assemble h ha
  rw [hs, hw, filterMap_addressed]
  exact List.rel_filterMap (fun x l hx ↦ hx.word) hl

theorem StandsFor.encodable {j : Inst Reg UInt8} (h : StandsFor symbols i j) (hi : i.WellFormed) :
    j.Encodable := by
  rintro mask t rfl
  cases h with
  | branch => exact (hi.mask _ _ rfl).2

theorem assembles_of_assemble {text : String} (h : Written text.toList lines)
    (ha : assemble text = .ok prog) : Assembles lines prog := by
  obtain ⟨hf, hd, hs, hw, hl⟩ := encoded_of_assemble h ha
  refine ⟨?_, ?_, fun name v ↦ hs ▸ lookup_symbolsOf hd hf⟩
  · refine forall₂_imp_mem (words_of_assemble h ha) ?_
    rintro i hi v ⟨j, hj, rfl⟩
    obtain ⟨s, hs, hi⟩ := List.mem_filterMap.1 hi
    exact ⟨j, hj, Inst.fields_decode_encode (StandsFor.encodable hj (h.wellFormed s hs i hi))⟩
  · rw [hw]
    exact forall₂_lists [] hl hf rfl

/-- A source text is assembled if and only if its lines allow it, and the program is then that of
its lines. -/
theorem assemble_correct {text : String} {lines : List Statement}
    (h : Written text.toList lines) :
    ((∃ prog, assemble text = .ok prog) ↔ Assemblable lines) ∧
      ∀ prog, assemble text = .ok prog → Assembles lines prog := by
  refine ⟨⟨?_, fun ha ↦ ha.exists_assemble h⟩, fun prog ha ↦ assembles_of_assemble h ha⟩
  rintro ⟨prog, ha⟩
  exact assemblable_of_assemble h ha

/-- A loop that is left to a label further down. -/
def loopText : String := "top:\n  cmp R1, r02 ; ready?\n  BRn done\r\n  br top\ndone: ret"

def loopLines : List Statement := [
  ⟨some "top".toList, none⟩,
  ⟨none, some (.compare (.general 'R' ['1']) (.general 'r' ['0', '2']))⟩,
  ⟨none, some (.branch (branchMask true false false) (.label "done".toList))⟩,
  ⟨none, some (.branch (branchMask false false false) (.label "top".toList))⟩,
  ⟨some "done".toList, some .ret⟩]

theorem assemble_correct_loop : Written loopText.toList loopLines ∧ Assemblable loopLines ∧
    ∃ prog, assemble loopText = .ok prog ∧ Assembles loopLines prog ∧
      prog.words = #[0x2012, 0x1803, 0x1E00, 0xF000] ∧
      prog.symbols = [("top", 0), ("done", 3)] := by
  have hw : Written loopText.toList loopLines := written_iff.2 ⟨_, rfl, rfl⟩
  obtain ⟨prog, ha, hp⟩ : ∃ prog, assemble loopText = .ok prog ∧
      prog.words = #[0x2012, 0x1803, 0x1E00, 0xF000] ∧
      prog.symbols = [("top", 0), ("done", 3)] := ⟨_, rfl, rfl, rfl⟩
  have hc := assemble_correct hw
  exact ⟨hw, hc.1.1 ⟨prog, ha⟩, prog, ha, hc.2 prog ha, hp⟩

end SimtMachine.Assembly
