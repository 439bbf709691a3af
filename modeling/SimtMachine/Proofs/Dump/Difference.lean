import SimtMachine.Proofs.Dump.Rows

/-!
# Patches from a printed difference

Writing the right-hand columns of the printed rows into one image gives the other, so nothing that
differs is left out. Going through the rows from the first to the last, the image becomes the other
one row by row; a row that is not printed need not be written.
-/

namespace SimtMachine.Dump

variable {left right : Array UInt8} {l r : List UInt8} {row : Row} {size k : Nat}

/-- An image continued by zeros to the length of another, if that is longer. -/
def continued (m other : Array UInt8) : List UInt8 :=
  m.toList ++ List.replicate (other.size - m.size) 0

/-- Writes the right-hand column of a row into an image, from the address of the row on. -/
def Row.patch (m : List UInt8) (row : Row) : List UInt8 :=
  m.take row.address ++ row.right.map Cell.byte ++ m.drop (row.address + row.right.length)

/-- The row shows two images of one length where they differ. -/
structure Row.Compares (row : Row) (l r : List UInt8) : Prop where
  aligned : rowSize ∣ row.address
  left : row.left = (l.drop row.address).take rowSize
  right : row.right.map Cell.byte = (r.drop row.address).take rowSize
  red : ∀ (j : Nat) (hj : j < row.right.length), row.right[j].red = true ↔
    l[row.address + j]? ≠ r[row.address + j]?
  differs : (l.drop row.address).take rowSize ≠ (r.drop row.address).take rowSize

/-! ## Images -/

theorem length_continued (m other : Array UInt8) :
    (continued m other).length = max m.size other.size := by
  simp only [continued, List.length_append, Array.length_toList, List.length_replicate]
  omega

theorem getElem?_continued (m other : Array UInt8) (i : Nat) :
    (continued m other)[i]? = if i < max m.size other.size then some (byteAt m i) else none := by
  rw [continued, List.getElem?_append, Array.length_toList, byteAt, List.getElem?_replicate]
  by_cases hm : i < m.size
  · simp [hm]
  · simp only [hm, if_false, Array.getElem?_eq_none (Nat.not_lt.1 hm), Option.getD_none]
    exact if_congr (by omega) rfl rfl

theorem getElem?_rowAddresses (size k j : Nat) : (rowAddresses size k)[j]? =
    if j < rowSize ∧ k * rowSize + j < size then some (k * rowSize + j) else none := by
  unfold rowAddresses
  by_cases h : j < min size ((k + 1) * rowSize) - k * rowSize
  · rw [List.getElem?_range' h, Nat.one_mul, if_pos]
    unfold rowSize at *
    omega
  · rw [List.getElem?_eq_none (by simpa using h), if_neg]
    unfold rowSize at *
    omega

/-- The bytes of an image at the addresses of a row. -/
theorem map_byteAt_rowAddresses (m other : Array UInt8) (k : Nat) :
    (rowAddresses (max m.size other.size) k).map (byteAt m) =
      ((continued m other).drop (k * rowSize)).take rowSize := by
  refine List.ext_getElem? fun j ↦ ?_
  rw [List.getElem?_map, getElem?_rowAddresses, List.getElem?_take, List.getElem?_drop,
    getElem?_continued]
  by_cases hj : j < rowSize <;> by_cases hk : k * rowSize + j < max m.size other.size <;>
    simp [hj, hk]

theorem differs_eq_true_iff (left right : Array UInt8) (k : Nat) :
    differs left right (rowAddresses (max left.size right.size) k) = true ↔
      ((continued left right).drop (k * rowSize)).take rowSize ≠
        ((continued right left).drop (k * rowSize)).take rowSize := by
  rw [← map_byteAt_rowAddresses left right, ← map_byteAt_rowAddresses right left,
    max_comm right.size, Ne, List.map_inj_left]
  simp [differs]

/-! ## Printed rows -/

theorem compares_rowAt
    (h : differs left right (rowAddresses (max left.size right.size) k) = true) :
    (rowAt left right k (rowAddresses (max left.size right.size) k)).Compares
      (continued left right) (continued right left) where
  aligned := Nat.dvd_mul_left rowSize k
  left := map_byteAt_rowAddresses left right k
  right := by
    have hbytes := map_byteAt_rowAddresses right left k
    rw [max_comm] at hbytes
    simpa [rowAt, cellAt, Function.comp_def] using hbytes
  red := by
    intro j hj
    have hj' : j < (rowAddresses (max left.size right.size) k).length := by simpa [rowAt] using hj
    have hget := getElem?_rowAddresses (max left.size right.size) k j
    rw [List.getElem?_eq_getElem hj', eq_comm, Option.ite_none_right_eq_some,
      Option.some.injEq] at hget
    obtain ⟨⟨-, hlt⟩, hget⟩ := hget
    have hlt' : k * rowSize + j < max right.size left.size := by rwa [max_comm]
    simp [rowAt, cellAt, ← hget, getElem?_continued, hlt, hlt']
  differs := (differs_eq_true_iff left right k).1 h

/-! ## Patches -/

/-- A written row takes an image that agrees with another up to its address one row further. -/
theorem patch_step (hlen : l.length = r.length) (ha : row.address ≤ l.length)
    (hright : row.right.map Cell.byte = (r.drop row.address).take rowSize) :
    row.patch (r.take row.address ++ l.drop row.address) =
      r.take (row.address + rowSize) ++ l.drop (row.address + rowSize) := by
  have htake : (r.take row.address).length = row.address := by
    rw [List.length_take, ← hlen, min_eq_left ha]
  have hsize : row.right.length = min rowSize (r.length - row.address) := by
    rw [← List.length_map (f := Cell.byte), hright, List.length_take, List.length_drop]
  have hdrop : l.drop (row.address + row.right.length) = l.drop (row.address + rowSize) := by
    rcases Nat.le_total rowSize (r.length - row.address) with h | h
    · rw [hsize, min_eq_left h]
    · rw [List.drop_of_length_le (by omega), List.drop_of_length_le (by omega)]
  rw [Row.patch, hright, List.take_left' htake, ← List.take_add, ← List.drop_drop,
    List.drop_left' htake, List.drop_drop, hdrop]

/-- A row in which two images agree need not be written. -/
theorem agree_step {a : Nat} (h : (l.drop a).take rowSize = (r.drop a).take rowSize) :
    r.take a ++ l.drop a = r.take (a + rowSize) ++ l.drop (a + rowSize) := by
  rw [List.take_add, ← h, List.append_assoc, ← List.drop_drop, List.take_append_drop]

/-- One row more is printed if the images differ in it. -/
theorem printedRows_range_succ (left right : Array UInt8) (k : Nat) :
    printedRows left right (List.range (k + 1)) = printedRows left right (List.range k) ++
      if differs left right (rowAddresses (max left.size right.size) k) = true then
        [rowAt left right k (rowAddresses (max left.size right.size) k)]
      else [] := by
  simp only [printedRows, List.range_succ, List.filter_append, List.map_append, List.filter_cons,
    List.filter_nil]
  split <;> rfl

/-- Writing the printed rows makes one image the other, row by row. -/
theorem foldl_patch_range (left right : Array UInt8)
    (hk : k ≤ (max left.size right.size + rowSize - 1) / rowSize) :
    (printedRows left right (List.range k)).foldl Row.patch (continued left right) =
      (continued right left).take (k * rowSize) ++ (continued left right).drop (k * rowSize) := by
  induction k with
  | zero => simp [printedRows]
  | succ k ih =>
    rw [printedRows_range_succ, List.foldl_append, ih (by omega), Nat.succ_mul]
    split
    · next hd =>
      have hlen : (continued left right).length = (continued right left).length := by
        rw [length_continued, length_continued, max_comm]
      have ha : k * rowSize ≤ (continued left right).length := by
        rw [length_continued]
        unfold rowSize at *
        omega
      exact patch_step hlen ha (compares_rowAt hd).right
    · next hd => exact agree_step (not_not.1 (mt (differs_eq_true_iff left right k).2 hd))

theorem foldl_patch_rows (left right : Array UInt8) :
    (printedRows left right (rows (max left.size right.size))).foldl Row.patch
      (continued left right) = continued right left := by
  have hall : max left.size right.size ≤
      (max left.size right.size + rowSize - 1) / rowSize * rowSize := by
    unfold rowSize
    omega
  rw [rows, foldl_patch_range left right le_rfl, List.take_of_length_le, List.drop_of_length_le,
    List.append_nil]
  · rwa [length_continued]
  · rwa [length_continued, max_comm]

theorem compares_of_mem_printedRows {ks : List Nat} (h : row ∈ printedRows left right ks) :
    row.Compares (continued left right) (continued right left) := by
  obtain ⟨k, hk, rfl⟩ := List.mem_map.1 h
  exact compares_rowAt (List.mem_filter.1 hk).2

theorem diff_eq_empty_iff : diff left right = "" ↔
    printedRows left right (rows (max left.size right.size)) = [] := by
  have h := repeated_printedRows left right
  rw [← String.toList_eq_nil_iff]
  constructor
  · intro he
    rw [he] at h
    exact rows_unique h .nil
  · intro he
    rw [he] at h
    generalize (diff left right).toList = cs at h
    cases h
    rfl

/-- A printed difference says one list of rows. There are none if and only if the images agree;
writing them into the left-hand image gives the right-hand one; and each of them shows both images
at its address, with exactly the bytes in red that differ, of which there are some. -/
theorem diff_loses_nothing (left right : Array UInt8) : ∃ rows : List Row,
    (∀ rows', Repeated RowText (diff left right).toList rows' ↔ rows' = rows) ∧
    (diff left right = "" ↔ continued left right = continued right left) ∧
    rows.foldl Row.patch (continued left right) = continued right left ∧
    ∀ row ∈ rows, row.Compares (continued left right) (continued right left) := by
  have hrows := repeated_printedRows left right
  refine ⟨_, fun rows' ↦ ⟨fun h ↦ rows_unique h hrows, ?_⟩, ?_, foldl_patch_rows left right,
    fun row ↦ compares_of_mem_printedRows⟩
  · rintro rfl
    exact hrows
  · rw [diff_eq_empty_iff]
    constructor
    · intro h
      simpa [h] using foldl_patch_rows left right
    · intro h
      refine List.eq_nil_iff_forall_not_mem.2 fun row hrow ↦ ?_
      exact (compares_of_mem_printedRows hrow).differs (by rw [h])

end SimtMachine.Dump
