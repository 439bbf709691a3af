/-!
# Memory images

Program and data memory both have 256 cells, so that a byte addresses a cell and no address is
out of range.
-/

namespace SimtMachine

abbrev addressSpace : Nat := 256

/-- The content of a memory. -/
abbrev Image (α : Type) := Vector α addressSpace

namespace Image

variable {α : Type}

/-- The image that starts with `xs` and is filled up with the default value. Elements past the
last cell are dropped. -/
def ofArray [Inhabited α] (xs : Array α) : Image α :=
  Vector.ofFn fun i ↦ xs[i.val]?.getD default

/-- The cell that a byte addresses. -/
def cell (a : UInt8) : Fin addressSpace :=
  ⟨a.toNat, a.toNat_lt⟩

theorem cell_inj {a b : UInt8} : cell a = cell b ↔ a = b := by
  rw [cell, cell, Fin.mk.injEq, UInt8.toNat_inj]

def read (m : Image α) (a : UInt8) : α :=
  m[cell a]

/-- Bytes address all cells. -/
theorem ext_read {m m' : Image α} (h : ∀ a, m.read a = m'.read a) : m = m' := by
  refine Vector.ext fun i hi ↦ ?_
  have hc := h (UInt8.ofNat i)
  have hv : (cell (UInt8.ofNat i)).val = i := Nat.mod_eq_of_lt hi
  simpa only [read, Fin.getElem_fin, hv] using hc

def write (m : Image α) (a : UInt8) (v : α) : Image α :=
  Vector.set m (cell a).val v (cell a).isLt

theorem read_write (m : Image α) (a b : UInt8) (v : α) :
    (m.write a v).read b = if b = a then v else m.read b := by
  simp only [read, write, Fin.getElem_fin, Vector.getElem_set, Fin.val_inj, cell_inj,
    eq_comm (b := b)]

@[simp] theorem read_write_self (m : Image α) (a : UInt8) (v : α) : (m.write a v).read a = v := by
  simp [read_write]

theorem read_write_of_ne (m : Image α) {a b : UInt8} (v : α) (h : b ≠ a) :
    (m.write a v).read b = m.read b := by
  simp [read_write, h]

end Image

end SimtMachine
