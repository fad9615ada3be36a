import Mathlib.Data.Nat.Notation

/-!
# The combinational half-precision units

`fp16_mult.v`, `fp16_add.v` and `fp16_mac.v`, wire by wire.  Every wire keeps the
width the source declares, so the places where an exponent or a mantissa wraps are
the places where it wraps in the circuit.  Both units flush an operand whose exponent
field is zero to a zero mantissa, and both bypass the arithmetic when the fifteen
magnitude bits of an operand are zero; the two tests disagree on subnormals.
-/

set_option autoImplicit false

namespace MatrixAccelerator.Model

/-- A sixteen-bit bus lane. -/
abbrev Word := BitVec 16

/-- `a[15]`. -/
def signBit (a : Word) : Bool := a.getLsbD 15

/-- `a[14:10]`. -/
def expField (a : Word) : BitVec 5 := a.extractLsb' 10 5

/-- `a[9:0]`. -/
def fracField (a : Word) : BitVec 10 := a.extractLsb' 0 10

/-- `a[14:0]`, the bits the zero short-cuts test. -/
def magnitudeBits (a : Word) : BitVec 15 := a.extractLsb' 0 15

/-- `(|exp_a) ? {1'b1, a[9:0]} : 11'd0`, the mantissa with its hidden bit.
RTL: fp16_mult.v:15-16, fp16_add.v:14-15 -/
def mantissa (a : Word) : BitVec 11 :=
  if expField a = 0#5 then 0#11 else 1#1 ++ fracField a

/-- The three assignments to `result[15]`, `result[14:10]` and `result[9:0]`. -/
def assemble (sign : Bool) (exp : BitVec 5) (frac : BitVec 10) : Word :=
  BitVec.ofBool sign ++ exp ++ frac

namespace Fp16Mult

/-- `exp_sum`, six bits wide; the bias is subtracted modulo 64.
RTL: fp16_mult.v:25 -/
def expSum (a b : Word) : BitVec 6 :=
  (expField a).setWidth 6 + (expField b).setWidth 6 - 15#6

/-- `mant_mult`, the full 22-bit product.
RTL: fp16_mult.v:26 -/
def mantMult (a b : Word) : BitVec 22 :=
  (mantissa a).setWidth 22 * (mantissa b).setWidth 22

end Fp16Mult

open Fp16Mult in
/-- The multiplier.  Only the low five bits of `exp_sum` reach the result, and the
mantissa below the ten kept bits is dropped.
RTL: fp16_mult.v:9-48 -/
def fp16Mult (a b : Word) : Word :=
  if magnitudeBits a = 0#15 ∨ magnitudeBits b = 0#15 then 0#16
  else if (mantMult a b).getLsbD 21 then
    assemble (xor (signBit a) (signBit b)) ((expSum a b).setWidth 5 + 1#5)
      ((mantMult a b).extractLsb' 11 10)
  else
    assemble (xor (signBit a) (signBit b)) ((expSum a b).setWidth 5)
      ((mantMult a b).extractLsb' 10 10)

namespace Fp16Add

/-- `{exp_a, mant_a} > {exp_b, mant_b}`.
RTL: fp16_add.v:18 -/
def aIsLarger (a b : Word) : Bool :=
  decide (expField b ++ mantissa b < expField a ++ mantissa a)

/-- The operand whose fields are `sign_large`, `exp_large` and `mant_large`.
RTL: fp16_add.v:20-22 -/
def large (a b : Word) : Word := if aIsLarger a b then a else b

/-- The operand whose fields are `sign_small`, `exp_small` and `mant_small`.
RTL: fp16_add.v:24-26 -/
def small (a b : Word) : Word := if aIsLarger a b then b else a

/-- `exp_diff`. -/
def expDiff (a b : Word) : BitVec 5 := expField (large a b) - expField (small a b)

/-- `aligned_large`, the larger mantissa over two guard bits. -/
def alignedLarge (a b : Word) : BitVec 13 := mantissa (large a b) ++ 0#2

/-- `aligned_small`; the bits shifted out are lost, there is no sticky bit.
RTL: fp16_add.v:33 -/
def alignedSmall (a b : Word) : BitVec 13 :=
  (mantissa (small a b) ++ 0#2) >>> (expDiff a b).toNat

/-- `mant_sum`, one carry bit wider than the aligned mantissas.
RTL: fp16_add.v:36-39 -/
def mantSum (a b : Word) : BitVec 14 :=
  if signBit (large a b) = signBit (small a b) then
    (alignedLarge a b).setWidth 14 + (alignedSmall a b).setWidth 14
  else
    (alignedLarge a b).setWidth 14 - (alignedSmall a b).setWidth 14

/-- The priority encoder `shift_left`.  Its last branch also takes the sums whose
leading one is below bit 2.
RTL: fp16_add.v:42-57 -/
def shiftLeft (m : BitVec 14) : BitVec 4 :=
  if m.getLsbD 13 then 0
  else if m.getLsbD 12 then 1
  else if m.getLsbD 11 then 2
  else if m.getLsbD 10 then 3
  else if m.getLsbD 9 then 4
  else if m.getLsbD 8 then 5
  else if m.getLsbD 7 then 6
  else if m.getLsbD 6 then 7
  else if m.getLsbD 5 then 8
  else if m.getLsbD 4 then 9
  else if m.getLsbD 3 then 10
  else 11

/-- `normalized_mant = mant_sum << (shift_left ? (shift_left - 1) : 0)`. -/
def normalizedMant (m : BitVec 14) : BitVec 14 :=
  m <<< (if shiftLeft m = 0 then 0 else (shiftLeft m).toNat - 1)

/-- `normalized_exp = exp_large + 1 - shift_left`, kept to five bits.
RTL: fp16_add.v:60 -/
def normalizedExp (a b : Word) : BitVec 5 :=
  expField (large a b) + 1#5 - (shiftLeft (mantSum a b)).setWidth 5

end Fp16Add

open Fp16Add in
/-- The adder.
RTL: fp16_add.v:9-84 -/
def fp16Add (a b : Word) : Word :=
  if magnitudeBits a = 0#15 then b
  else if magnitudeBits b = 0#15 then a
  else if mantSum a b = 0#14 then 0#16
  else if (mantSum a b).getLsbD 13 then
    assemble (signBit (large a b)) (expField (large a b) + 1#5)
      ((mantSum a b).extractLsb' 3 10)
  else
    assemble (signBit (large a b)) (normalizedExp a b)
      ((normalizedMant (mantSum a b)).extractLsb' 2 10)

/-- The multiply-accumulate of one processing element: the product is the first
operand of the adder, the accumulator the second.
RTL: fp16_mac.v:9-21 -/
def fp16Mac (valA valB accIn : Word) : Word := fp16Add (fp16Mult valA valB) accIn

end MatrixAccelerator.Model
