import MatrixAccelerator.Library.Accumulation
import MatrixAccelerator.Model.Top

/-!
# The product the accelerator is for

An element of the result is the accumulation of one row of A against one column of B in
the circuit's own arithmetic, in increasing index from `0x0000`: `macFold` over the
operand pairs of that element.  A zero word is a neutral operand of the
multiply-accumulate on either side, whatever the other operand is.
-/

set_option autoImplicit false

namespace MatrixAccelerator.Interface

open MatrixAccelerator.Library MatrixAccelerator.Model

/-- `acc := fp16_add(fp16_mult(x, y), acc)` over a list of operand pairs. -/
def macFold (acc : Word) (ps : List (Word × Word)) : Word :=
  accumulate (fun x y acc => fp16Add (fp16Mult x y) acc) acc ps

/-- The operand pairs of element `(i, j)` from index `c` on, when `u` edges later the
memories hold `A u` and `B u` and the index is `c + u`. -/
def operandsFrom {N : ℕ} (c : ℕ) (A B : ℕ → Fin (N * N) → Word) (i j : Fin N) :
    List (Word × Word) :=
  ((List.finRange N).drop c).map fun k => (A (k.val - c) (cell i k), B (k.val - c) (cell k j))

/-- The operand pairs of element `(i, j)` when step `k` reads the memories `A k` and
`B k`. -/
def operandsAt {N : ℕ} (A B : ℕ → Fin (N * N) → Word) (i j : Fin N) : List (Word × Word) :=
  (List.finRange N).map fun k => (A k.val (cell i k), B k.val (cell k j))

/-- The operand pairs of element `(i, j)` of the product of two fixed memories. -/
def operands {N : ℕ} (A B : Fin (N * N) → Word) (i j : Fin N) : List (Word × Word) :=
  (List.finRange N).map fun k => (A (cell i k), B (cell k j))

/-- Element `(i, j)` of the product. -/
def productEntry {N : ℕ} (A B : Fin (N * N) → Word) (i j : Fin N) : Word :=
  macFold 0#16 (operands A B i j)

theorem macFold_eq_accumulate : macFold = accumulate fp16Mac := rfl

theorem macFold_append (acc : Word) (ps qs : List (Word × Word)) :
    macFold acc (ps ++ qs) = macFold (macFold acc ps) qs :=
  accumulate_append _ acc ps qs

theorem magnitudeBits_zero : magnitudeBits 0#16 = 0#15 := by decide

theorem fp16Mult_zero_left (b : Word) : fp16Mult 0#16 b = 0#16 :=
  if_pos (Or.inl magnitudeBits_zero)

theorem fp16Mult_zero_right (a : Word) : fp16Mult a 0#16 = 0#16 :=
  if_pos (Or.inr magnitudeBits_zero)

theorem fp16Add_zero_left (b : Word) : fp16Add 0#16 b = b := if_pos magnitudeBits_zero

/-- The zero word is neutral on both operand wires of a processing element.
RTL: fp16_mult.v:31-32, fp16_add.v:65-66 -/
theorem fp16Mac_neutral : NeutralOperands fp16Mac 0#16 0#16 where
  left b c := by rw [fp16Mac, fp16Mult_zero_left, fp16Add_zero_left]
  right a c := by rw [fp16Mac, fp16Mult_zero_right, fp16Add_zero_left]

theorem operandsFrom_zero {N : ℕ} (A B : ℕ → Fin (N * N) → Word) (i j : Fin N) :
    operandsFrom 0 A B i j = operandsAt A B i j := rfl

/-- From memories that stay as they are these are the last operands. -/
theorem operandsFrom_const {N : ℕ} (c : ℕ) (A B : Fin (N * N) → Word) (i j : Fin N) :
    operandsFrom c (fun _ => A) (fun _ => B) i j = (operands A B i j).drop c := by
  rw [operandsFrom, operands, List.map_drop]

/-- The pairs from index `c` on, as the first pairs of a stream that shows them. -/
theorem operandsFrom_eq_range {N : ℕ} (c : ℕ) (A B : ℕ → Fin (N * N) → Word) (i j : Fin N)
    (p : ℕ → Word × Word)
    (hp : ∀ u (h : c + u < N), p u = (A u (cell i ⟨c + u, h⟩), B u (cell ⟨c + u, h⟩ j))) :
    (List.range (N - c)).map p = operandsFrom c A B i j := by
  apply List.ext_getElem (by simp [operandsFrom])
  intro u hu _
  have hlt : c + u < N := by
    rw [List.length_map, List.length_range] at hu
    omega
  simp only [operandsFrom, List.getElem_map, List.getElem_range, List.getElem_drop,
    List.getElem_finRange, hp u hlt, Fin.val_cast, Nat.add_sub_cancel_left]
  rfl

end MatrixAccelerator.Interface
