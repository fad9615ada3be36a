import MatrixAccelerator.Model.Fp16
import Mathlib.Data.Rat.Defs

/-!
# `fp16_to_float` and `fp16_to_real`

The driver's decoding of a word into a single-precision number, and the testbench's into a
real.  Every value they build is a number of its format exactly, so the model gives the
number itself; the two zeros are one rational.
-/

set_option autoImplicit false

namespace MatrixAccelerator.Model

/-- The number a single-precision word with the fields `sign`, `exp` and `frac` stands for,
for an exponent field that is neither zero nor full. -/
def float32 (sign : Bool) (exp frac : ℕ) : ℚ :=
  (if sign then -1 else 1) * (1 + (frac : ℚ) / 2 ^ 23) * 2 ^ ((exp : ℤ) - 127)

/-- `fp16_to_float`.  Infinities and NaNs print as zero.
RTL: Software/matrix_accel_SW/source.c:39-59 -/
def fp16ToFloat (fp16 : Word) : ℚ :=
  let sign := signBit fp16
  let exp := (expField fp16).toNat
  let frac := (fracField fp16).toNat
  if exp = 0 then
    if frac = 0 then 0
    else
      let res : ℚ := frac / 1024 * (1 / 16384)
      if sign then -res else res
  else if exp = 0x1F then 0
  else float32 sign (exp + 127 - 15) (frac <<< 13)

/-- `fp16_to_real`.  Infinities and NaNs read as 99999.
RTL: tb_systolic_3x3.v:67-97 -/
def fp16ToReal (fp16Val : Word) : ℚ :=
  let sign := signBit fp16Val
  let exp := (expField fp16Val).toNat
  let frac := (fracField fp16Val).toNat
  let finalVal : ℚ :=
    if exp = 0 then
      if frac = 0 then 0 else frac / 1024 * 2 ^ (-14 : ℤ)
    else if exp = 0x1F then 99999
    else (1 + frac / 1024) * 2 ^ ((exp : ℤ) - 15)
  if sign then -finalVal else finalVal

end MatrixAccelerator.Model
