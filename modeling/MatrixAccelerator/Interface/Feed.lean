import MatrixAccelerator.Interface.MatrixProduct

/-!
# What a run is fed

On count `c` a run is fed column `c` of A and row `c` of B as they are held then, and zeros
past the last.  Zeros count for nothing, so over any stretch of counts an element takes the
operands of the indices in it (`macFold_upTo`).
-/

set_option autoImplicit false

namespace MatrixAccelerator.Interface

open MatrixAccelerator.Library MatrixAccelerator.Model

variable {N : ℕ}

/-- Column `c` of A and row `c` of B, and zeros past the last. -/
def columnAndRow (A B : Fin N → Fin N → Word) (c : ℕ) : (Fin N → Word) × (Fin N → Word) :=
  (fun i => if h : c < N then A i ⟨c, h⟩ else 0#16, fun j => if h : c < N then B ⟨c, h⟩ j else 0#16)

/-- Past the last index zeros are fed. -/
theorem columnAndRow_past (A B : Fin N → Fin N → Word) {c : ℕ} (hc : N ≤ c) (g : Fin N) :
    (columnAndRow A B c).1 g = 0#16 ∧ (columnAndRow A B c).2 g = 0#16 :=
  ⟨dif_neg (Nat.not_lt_of_le hc), dif_neg (Nat.not_lt_of_le hc)⟩

/-- The words a run is fed on each count. -/
abbrev Feed (N : ℕ) := ℕ → (Fin N → Word) × (Fin N → Word)

namespace Feed

/-- Nothing has been fed yet. -/
def nothing : Feed N := fun _ => (fun _ => 0#16, fun _ => 0#16)

/-- What has been fed by count `t`, when the matrices are `A k` and `B k` on count `k`. -/
def upTo (A B : ℕ → Fin N → Fin N → Word) (t : ℕ) : Feed N := fun k =>
  if k < t then columnAndRow (A k) (B k) k else nothing k

/-- The pair of element `(i, j)`. -/
def pair (fed : Feed N) (i j : Fin N) (k : ℕ) : Word × Word := ((fed k).1 i, (fed k).2 j)

/-- Feeding on count `t` what the matrices hold then goes on to count `t + 1`. -/
theorem update_upTo (A B : ℕ → Fin N → Fin N → Word) (t : ℕ) :
    Function.update (upTo A B t) t (columnAndRow (A t) (B t) t) = upTo A B (t + 1) := by
  funext k
  by_cases hk : k = t
  · subst hk
    rw [Function.update_self, upTo, if_pos (Nat.lt_succ_self k)]
  · rw [Function.update_of_ne hk]
    unfold upTo
    congr 1
    exact propext (by omega)

/-- Past the last index the pair of an element begins with a zero. -/
theorem pair_upTo_past (A B : ℕ → Fin N → Fin N → Word) (t : ℕ) (i j : Fin N) {k : ℕ}
    (hk : N ≤ k) : (pair (upTo A B t) i j k).1 = 0#16 := by
  simp only [pair, upTo]
  split
  · exact (columnAndRow_past _ _ hk i).1
  · rfl

/-- **A stretch of the feed.**  The counts from `d` to `m` bring the operands of the indices
from `d` to `m`. -/
theorem macFold_upTo (A B : ℕ → Fin N → Fin N → Word) (acc : Word) (i j : Fin N) {d m t : ℕ}
    (hm : m ≤ t) :
    macFold acc (((List.range m).drop d).map (pair (upTo A B t) i j)) =
      macFold acc
        ((((List.finRange N).map fun k => (A k.val i k, B k.val k j)).take m).drop d) := by
  have hcut := fp16Mac_neutral.accumulate_range_le (fun u => pair (upTo A B t) i j (d + u))
    (m := min m N - d) (n := m - d) (by omega)
    (fun u hu hlt => Or.inl (pair_upTo_past A B t i j (by omega))) acc
  have hdrop : ((List.range m).drop d).map (pair (upTo A B t) i j) =
      (List.range (m - d)).map fun u => pair (upTo A B t) i j (d + u) := by
    apply List.ext_getElem (by simp)
    intro u _ _
    simp only [List.getElem_map, List.getElem_drop, List.getElem_range]
  rw [hdrop]
  refine hcut.trans ?_
  rw [macFold_eq_accumulate]
  congr 1
  apply List.ext_getElem
  · simp only [List.length_map, List.length_range, List.length_drop, List.length_take,
      List.length_finRange]
  · intro u hu _
    rw [List.length_map, List.length_range] at hu
    have hlt : d + u < N := by omega
    simp only [List.getElem_map, List.getElem_range, List.getElem_drop, List.getElem_take,
      List.getElem_finRange, pair, upTo, columnAndRow, if_pos (show d + u < t by omega),
      dif_pos hlt]
    rfl

end Feed

end MatrixAccelerator.Interface
