import SimtMachine.Text.Ansi
import SimtMachine.Text.Numeral

/-!
# Memory dumps

Memory contents as text in rows of eight bytes: one image up to its last non-zero row, or the rows
in which two images differ, side by side and with the differing bytes in red. An image is continued
by zeros past its end.
-/

namespace SimtMachine.Dump

/-- Bytes in a row. -/
def rowSize : Nat := 8

def byteAt (m : Array UInt8) (i : Nat) : UInt8 := m[i]?.getD 0

def byteText (b : UInt8) : String := Numeral.hex 2 b.toNat

/-- The addresses of row number `k` of an image with `size` bytes. -/
def rowAddresses (size k : Nat) : List Nat :=
  List.range' (k * rowSize) (min size ((k + 1) * rowSize) - k * rowSize)

/-- The numbers of the rows of an image with `size` bytes. -/
def rows (size : Nat) : List Nat :=
  List.range ((size + rowSize - 1) / rowSize)

/-- The byte of the right-hand image at an address, in red if the left-hand image has another. -/
def rightByte (left right : Array UInt8) (i : Nat) : String :=
  let text := " " ++ byteText (byteAt right i)
  if byteAt left i = byteAt right i then text else (Ansi.Style.bold .red).paint text

/-- The row with the given addresses of both images, or nothing if they agree there. -/
def diffRow (left right : Array UInt8) (k : Nat) (addresses : List Nat) : String :=
  if addresses.all fun i ↦ byteAt left i = byteAt right i then ""
  else
    Numeral.address (k * rowSize) ++ ": " ++
      String.join (addresses.map fun i ↦ byteText (byteAt left i) ++ " ") ++ "->" ++
      String.join (addresses.map (rightByte left right)) ++ "\n"

/-- The rows in which two images differ. -/
def diff (left right : Array UInt8) : String :=
  let size := max left.size right.size
  String.join ((rows size).map fun k ↦ diffRow left right k (rowAddresses size k))

/-- The number of the last row with a byte other than zero, or of the first row. -/
def lastRow (m : Array UInt8) : Nat :=
  ((List.range m.size).filter fun i ↦ byteAt m i ≠ 0).getLast?.getD 0 / rowSize

def imageRow (m : Array UInt8) (k : Nat) : String :=
  (Ansi.Style.plain .green).paint (Numeral.address (k * rowSize) ++ ":") ++
    String.join ((rowAddresses m.size k).map fun i ↦ " " ++ byteText (byteAt m i)) ++ "\n"

/-- An image up to its last row that is not zero. The first row is always there. -/
def image (m : Array UInt8) : String :=
  String.join ((List.range (lastRow m + 1)).map (imageRow m))

end SimtMachine.Dump
