import MatrixAccelerator.Model.Driver
import MatrixAccelerator.Model.Fp16ToFloat

/-!
# The driver's print-out

The last stage of `main`: the words read out of C, printed row by row in decimal with two
places and in hexadecimal.  A `float` is the number it stands for; that no operation on the
way rounds is a theorem.
-/

set_option autoImplicit false

namespace MatrixAccelerator.Model.Driver

/-- The cast `(int)`: towards zero. -/
def castInt (f : ℚ) : ℤ := f.num.tdiv f.den

/-- `int_part`. -/
def intPart (fVal : ℚ) : ℤ := castInt fVal

/-- `abs_val`. -/
def absVal (fVal : ℚ) : ℚ := if fVal < 0 then -fVal else fVal

/-- `frac_part`.
RTL: Software/matrix_accel_SW/source.c:131 -/
def fracPart (fVal : ℚ) : ℤ := castInt ((absVal fVal - castInt (absVal fVal)) * 100)

/-! ## The conversions of `printf` -/

/-- `%d`. -/
def percentD (n : ℤ) : List Char :=
  if n < 0 then '-' :: Nat.toDigits 10 n.natAbs else Nat.toDigits 10 n.natAbs

/-- `%X`. -/
def percentX (n : ℕ) : List Char := (Nat.toDigits 16 n).map Char.toUpper

/-- ` (Hex: 0x%04X) | `. -/
def hexTail (fp16Res : Word) : List Char :=
  [' ', '(', 'H', 'e', 'x', ':', ' ', '0', 'x'] ++
    (List.leftpad 4 '0' (percentX fp16Res.toNat) ++ [')', ' ', '|', ' '])

/-- One element of C.
RTL: Software/matrix_accel_SW/source.c:127-137 -/
def printElement (fp16Res : Word) : List Char :=
  let fVal := fp16ToFloat fp16Res
  if fVal < 0 ∧ intPart fVal = 0 then
    [' ', '-'] ++ percentD (intPart fVal) ++ ['.'] ++
      List.leftpad 2 '0' (percentD (fracPart fVal)) ++ hexTail fp16Res
  else
    List.leftpad 3 ' ' (percentD (intPart fVal)) ++ ['.'] ++
      List.leftpad 2 '0' (percentD (fracPart fVal)) ++ hexTail fp16Res

/-- The text of the two loops.
RTL: Software/matrix_accel_SW/source.c:119-140 -/
def printC {N : ℕ} (C : Fin N → Fin N → Word) : List Char :=
  (List.finRange N).flatMap fun i =>
    ['R', 'o', 'w', ' '] ++ List.leftpad 2 ' ' (percentD (i.val : ℤ)) ++ [':', ' '] ++
      ((List.finRange N).flatMap fun j => printElement (C i j)) ++ ['\n']

end MatrixAccelerator.Model.Driver
