import MatrixAccelerator.Library.PrintedText
import MatrixAccelerator.Model.Fp16
import Mathlib.Algebra.Field.Rat

/-!
# Reading the print-out

What a reader of the driver's text sees: the numeral before each `(Hex:`, and the four
digits after it.
-/

set_option autoImplicit false

namespace MatrixAccelerator.Interface

open MatrixAccelerator.Library MatrixAccelerator.Model

/-- The letters between words. -/
def isBlank (c : Char) : Bool := c == ' ' || c == '\n'

/-- The value of a decimal digit. -/
def decimalValue (c : Char) : ℕ := c.toNat - '0'.toNat

/-- The value of a capital hexadecimal digit. -/
def hexValue (c : Char) : ℕ :=
  if c.toNat ≤ '9'.toNat then c.toNat - '0'.toNat else c.toNat - 'A'.toNat + 10

/-- `12.50`. -/
def readUnsigned (w : List Char) : ℚ :=
  readDigits decimalValue 10 (w.takeWhile (· ≠ '.')) +
    readDigits decimalValue 10 ((w.dropWhile (· ≠ '.')).drop 1) / 100

/-- `12.50` or `-12.50`. -/
def readDecimal : List Char → ℚ
  | [] => 0
  | c :: w => if c = '-' then -readUnsigned w else readUnsigned (c :: w)

/-- `0x4A40)`. -/
def readHex (w : List Char) : Word :=
  BitVec.ofNat 16 (readDigits hexValue 16 ((w.drop 2).takeWhile (· ≠ ')')))

/-- The word after which the hexadecimal digits stand. -/
def hexWord : List Char := ['(', 'H', 'e', 'x', ':']

/-- The elements among the words of a text. -/
def readElements : List (List Char) → List (ℚ × Word)
  | v :: t :: h :: rest =>
    if t = hexWord then (readDecimal v, readHex h) :: readElements rest
    else readElements (t :: h :: rest)
  | _ => []

/-- The elements of a print-out, in order. -/
def readPrintout (text : List Char) : List (ℚ × Word) := readElements (wordsOf isBlank text)

/-- A number single precision holds: a single-precision operation whose exact result is one
returns it. -/
def IsSingle (q : ℚ) : Prop :=
  ∃ m e : ℤ, m.natAbs < 2 ^ 24 ∧ -149 ≤ e ∧ e ≤ 104 ∧ q = m * 2 ^ e

end MatrixAccelerator.Interface
