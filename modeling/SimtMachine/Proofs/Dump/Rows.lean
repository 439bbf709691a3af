import SimtMachine.Memory.Dump
import SimtMachine.Proofs.Assembly.Numerals

/-!
# Rows of a printed difference

What the lines of a printed difference say: an address, the bytes of the left-hand image, and the
bytes of the right-hand image, each plain or in red. A text says one list of rows at most, so the
rows can be had back from what is printed.
-/

namespace SimtMachine.Dump

open Assembly

/-! ## Texts in sequence -/

section Sequences

variable {α : Type} {T : List Char → α → Prop} {as as' : List α} {cs cs' u u' : List Char}

/-- Texts of things, one after the other. -/
inductive Repeated (T : List Char → α → Prop) : List Char → List α → Prop
  | nil : Repeated T [] []
  | cons {t cs : List Char} {a : α} {as : List α} : T t a → Repeated T cs as →
      Repeated T (t ++ cs) (a :: as)

/-- A text begins with the text of one thing at most. -/
def Determined (T : List Char → α → Prop) : Prop :=
  ∀ ⦃t t' a a' u u'⦄, T t a → T t' a' → t ++ u = t' ++ u' → a = a' ∧ u = u'

/-- A text does not begin with the text of a thing. -/
def Unbegun (T : List Char → α → Prop) (u : List Char) : Prop :=
  ∀ ⦃t a v⦄, T t a → u ≠ t ++ v

theorem Repeated.unique (hT : Determined T) (hu : Unbegun T u) (hu' : Unbegun T u')
    (h : Repeated T cs as) (h' : Repeated T cs' as') (he : cs ++ u = cs' ++ u') :
    as = as' ∧ u = u' := by
  induction h generalizing cs' as' with
  | nil =>
    cases h' with
    | nil => exact ⟨rfl, he⟩
    | cons ht =>
      rw [List.append_assoc] at he
      exact absurd he (hu ht)
  | cons ht _ ih =>
    cases h' with
    | nil =>
      rw [List.append_assoc] at he
      exact absurd he.symm (hu' ht)
    | cons ht' hcs' =>
      rw [List.append_assoc, List.append_assoc] at he
      obtain ⟨rfl, hrest⟩ := hT ht ht' he
      obtain ⟨rfl, hu⟩ := ih hcs' hrest
      exact ⟨rfl, hu⟩

/-- The things of a list that have a text, with the other texts empty. -/
theorem repeated_filter {β : Type} {p : β → Bool} {f : β → List Char} {g : β → α} {l : List β}
    (h : ∀ b ∈ l, if p b = true then T (f b) (g b) else f b = []) :
    Repeated T (l.flatMap f) ((l.filter p).map g) := by
  induction l with
  | nil => exact .nil
  | cons b l ih =>
    obtain ⟨hb, hl⟩ := List.forall_mem_cons.1 h
    rw [List.flatMap_cons]
    by_cases hp : p b = true
    · rw [if_pos hp] at hb
      rw [List.filter_cons_of_pos hp]
      exact .cons hb (ih hl)
    · rw [if_neg hp] at hb
      rw [List.filter_cons_of_neg hp, hb]
      exact ih hl

theorem repeated_map {β : Type} {f : β → List Char} {g : β → α} {l : List β}
    (h : ∀ b ∈ l, T (f b) (g b)) : Repeated T (l.flatMap f) (l.map g) := by
  simpa using repeated_filter (p := fun _ ↦ true) (by simpa using h)

end Sequences

/-! ## Rows -/

/-- A byte of the right-hand column, and whether it is in red. -/
structure Cell where
  byte : UInt8
  red : Bool

structure Row where
  address : Nat
  left : List UInt8
  right : List Cell

variable {b b' : UInt8} {c c' : Cell} {t t' u u' : List Char} {row row' : Row}

/-- Two hexadecimal digits. -/
structure ByteText (t : List Char) (b : UInt8) : Prop where
  length : t.length = 2
  digits : ∀ c ∈ t, isHexDigit c = true
  value : numeral 16 t = b.toNat

/-- A byte of the left-hand column has a blank behind it. -/
inductive LeftText : List Char → UInt8 → Prop
  | blank {t : List Char} {b : UInt8} : ByteText t b → LeftText (t ++ [' ']) b

/-- A byte of the right-hand column has a blank before it, within the colour if it is in red. -/
inductive CellText : List Char → Cell → Prop
  | plain {t : List Char} {b : UInt8} : ByteText t b → CellText (' ' :: t) ⟨b, false⟩
  | red {t : List Char} {b : UInt8} : ByteText t b →
      CellText ("\x1b[1;31m ".toList ++ (t ++ "\x1b[0m".toList)) ⟨b, true⟩

inductive RowText : List Char → Row → Prop
  | line {ds u v : List Char} {left : List UInt8} {right : List Cell} : ds ≠ [] →
      (∀ c ∈ ds, isHexDigit c = true) → Repeated LeftText u left → Repeated CellText v right →
      RowText ("0x".toList ++ (ds ++ (": ".toList ++ (u ++ ("->".toList ++ (v ++ ['\n']))))))
        ⟨numeral 16 ds, left, right⟩

theorem ByteText.determined : Determined ByteText := by
  intro t t' b b' u u' h h' he
  obtain ⟨rfl, rfl⟩ := List.append_inj he (h.length.trans h'.length.symm)
  exact ⟨UInt8.toNat_inj.1 (h.value.symm.trans h'.value), rfl⟩

theorem LeftText.determined : Determined LeftText := by
  intro t t' b b' u u' h h' he
  cases h with
  | blank ht =>
    cases h' with
    | blank ht' =>
      rw [List.append_assoc, List.append_assoc] at he
      obtain ⟨rfl, hrest⟩ := ByteText.determined ht ht' he
      exact ⟨rfl, (List.cons.inj hrest).2⟩

theorem CellText.determined : Determined CellText := by
  intro t t' c c' u u' h h' he
  cases h with
  | plain ht =>
    cases h' with
    | plain ht' =>
      obtain ⟨rfl, hrest⟩ := ByteText.determined ht ht' (List.cons.inj he).2
      exact ⟨rfl, hrest⟩
    | red => exact absurd (List.cons.inj he).1 (by decide)
  | red ht =>
    cases h' with
    | plain => exact absurd (List.cons.inj he).1 (by decide)
    | red ht' =>
      simp only [List.append_assoc] at he
      obtain ⟨rfl, hrest⟩ := ByteText.determined ht ht' (List.append_cancel_left he)
      exact ⟨rfl, List.append_cancel_left hrest⟩

theorem unbegun_leftText (u : List Char) : Unbegun LeftText ("->".toList ++ u) := by
  intro t b v ht he
  cases ht with
  | @blank t _ ht =>
    cases t with
    | nil => exact absurd ht.length (by decide)
    | cons c t =>
      have hc : '-' = c := (List.cons.inj he).1
      have hd := ht.digits c (by simp)
      rw [← hc] at hd
      exact absurd hd (by decide)

theorem unbegun_cellText (u : List Char) : Unbegun CellText ('\n' :: u) := by
  intro t c v ht he
  cases ht with
  | plain | red => exact absurd (List.cons.inj he).1 (by decide)

theorem unbegun_rowText : Unbegun RowText [] := by
  intro t row v ht he
  cases ht
  exact nomatch he

theorem RowText.determined : Determined RowText := by
  intro t t' row row' u u' h h' he
  cases h with
  | line hne hds hleft hright =>
    cases h' with
    | line hne' hds' hleft' hright' =>
      simp only [List.append_assoc] at he
      have hcolon (x : List Char) : ∀ c ∈ (": ".toList ++ x).head?, isHexDigit c = false := by
        rintro c hc
        obtain rfl := Option.some.inj hc
        decide
      obtain ⟨rfl, hcolumns⟩ :=
        run_append_inj hds hds' (hcolon _) (hcolon _) (List.append_cancel_left he)
      obtain ⟨rfl, hcolumn⟩ := hleft.unique LeftText.determined (unbegun_leftText _)
        (unbegun_leftText _) hleft' (List.append_cancel_left hcolumns)
      obtain ⟨rfl, hend⟩ := hright.unique CellText.determined (unbegun_cellText _)
        (unbegun_cellText _) hright' (List.append_cancel_left hcolumn)
      exact ⟨rfl, (List.cons.inj hend).2⟩

/-- A text says one list of rows at most. -/
theorem rows_unique {cs : List Char} {rows rows' : List Row} (h : Repeated RowText cs rows)
    (h' : Repeated RowText cs rows') : rows = rows' :=
  (h.unique RowText.determined unbegun_rowText unbegun_rowText h' rfl).1

/-! ## Printed rows -/

theorem hex_toList (width n : Nat) : (Numeral.hex width n).toList =
    zeroPadded 16 (width - (Nat.toDigits 16 n).length) n := by
  rw [Numeral.hex, String.toList_ofList]
  rfl

theorem forall_mem_hex (width n : Nat) :
    ∀ c ∈ (Numeral.hex width n).toList, isHexDigit c = true := by
  rw [hex_toList]
  exact forall_mem_zeroPadded (by decide) (by decide +kernel) _ n

theorem numeral_hex (width n : Nat) : numeral 16 (Numeral.hex width n).toList = n := by
  rw [hex_toList, numeral_zeroPadded (by decide) (by decide)]

theorem hex_ne_nil (width n : Nat) : (Numeral.hex width n).toList ≠ [] := by
  rw [hex_toList]
  exact zeroPadded_ne_nil 16 _ n

theorem byteText_byteText (b : UInt8) : ByteText (byteText b).toList b where
  length := by
    have hlen : (Nat.toDigits 16 b.toNat).length ≤ 2 :=
      (Nat.length_toDigits_le_iff (by decide) (by decide)).2 b.toNat_lt
    rw [byteText, hex_toList, zeroPadded, List.length_append, List.length_replicate]
    omega
  digits := forall_mem_hex 2 b.toNat
  value := numeral_hex 2 b.toNat

variable (left right : Array UInt8) (k : Nat) (addresses : List Nat)

/-- The byte of the right-hand image at an address, in red if the left-hand image has another. -/
def cellAt (i : Nat) : Cell := ⟨byteAt right i, byteAt left i ≠ byteAt right i⟩

/-- The row that two images have at some addresses. -/
def rowAt : Row where
  address := k * rowSize
  left := addresses.map (byteAt left)
  right := addresses.map (cellAt left right)

/-- Whether two images differ at some addresses. -/
def differs : Bool := !addresses.all fun i ↦ byteAt left i = byteAt right i

theorem cellText_rightByte (i : Nat) :
    CellText (rightByte left right i).toList (cellAt left right i) := by
  have hb := byteText_byteText (byteAt right i)
  unfold rightByte cellAt
  by_cases h : byteAt left i = byteAt right i
  · simpa [h] using CellText.plain hb
  · simpa [h, Ansi.Style.paint, Ansi.Style.codes, Ansi.Colour.code] using CellText.red hb

theorem diffRow_of_differs (h : differs left right addresses = true) :
    RowText (diffRow left right k addresses).toList (rowAt left right k addresses) := by
  have hleft : Repeated LeftText
      (addresses.flatMap fun i ↦ (byteText (byteAt left i) ++ " ").toList)
      (addresses.map (byteAt left)) :=
    repeated_map fun i _ ↦ by simpa using LeftText.blank (byteText_byteText (byteAt left i))
  have hright : Repeated CellText (addresses.flatMap fun i ↦ (rightByte left right i).toList)
      (addresses.map (cellAt left right)) :=
    repeated_map fun i _ ↦ cellText_rightByte left right i
  have hrow := RowText.line (hex_ne_nil 2 (k * rowSize)) (forall_mem_hex 2 _) hleft hright
  rw [numeral_hex] at hrow
  have hall : ¬(addresses.all fun i ↦ byteAt left i = byteAt right i) = true := by
    simpa [differs] using h
  rw [diffRow, if_neg hall]
  simpa [rowAt, Numeral.address, String.toList_join, List.flatMap_map] using hrow

theorem diffRow_of_not_differs (h : differs left right addresses = false) :
    diffRow left right k addresses = "" := by
  rw [diffRow, if_pos (by simpa [differs] using h)]

/-- Of the rows with some numbers, those in which two images differ. -/
def printedRows (ks : List Nat) : List Row :=
  (ks.filter fun k ↦ differs left right (rowAddresses (max left.size right.size) k)).map fun k ↦
    rowAt left right k (rowAddresses (max left.size right.size) k)

theorem repeated_printedRows : Repeated RowText (diff left right).toList
    (printedRows left right (rows (max left.size right.size))) := by
  rw [diff, String.toList_join, List.flatMap_map]
  refine repeated_filter fun k _ ↦ ?_
  split
  · next h => exact diffRow_of_differs left right k _ h
  · next h =>
    rw [diffRow_of_not_differs left right k _ (by simpa using h)]
    rfl

/-- The shorter image has a zero at the second address. -/
example : diff #[1] #[1, 2] = "0x00: 01 00 -> 01\x1b[1;31m 02\x1b[0m\n" := rfl

end SimtMachine.Dump
