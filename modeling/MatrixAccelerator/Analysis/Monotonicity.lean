import MatrixAccelerator.Analysis.ErrorBound
import MatrixAccelerator.Analysis.OperandLaws
import MatrixAccelerator.Analysis.RoundTowardZero

/-!
# Larger operands, larger results

On non-negative words both units truncate: their result is the greatest half-precision number
up to the exact one (`Truncates`).  Truncation keeps the order, so it is kept by a step of the
accumulation, by an element of the product, and by a run.
-/

set_option autoImplicit false

namespace MatrixAccelerator.Analysis

open MatrixAccelerator.Library MatrixAccelerator.Model MatrixAccelerator.Interface

/-- `r` is `+0` or positive, and the greatest half-precision number that does not exceed `x`. -/
structure Truncates (x : ℚ) (r : Word) : Prop where
  nonNegative : NonNegative r
  greatest : IsGreatest {v | v ∈ finiteValues ∧ v ≤ x} (fp16ToFloat r)

namespace Truncates

variable {x y : ℚ} {r r' : Word}

/-- A truncated number is no larger. -/
theorem le (h : Truncates x r) : fp16ToFloat r ≤ x := h.greatest.1.2

/-- Truncation is monotone. -/
theorem mono (h : Truncates x r) (h' : Truncates y r') (hxy : x ≤ y) :
    fp16ToFloat r ≤ fp16ToFloat r' :=
  h'.greatest.2 ⟨h.greatest.1.1, h.le.trans hxy⟩

/-- A word is the truncation of its own value. -/
theorem self (h : NonNegative r) : Truncates (fp16ToFloat r) r := by
  have hexp : exponent r ≤ 30 := by
    rcases h with rfl | ⟨hn, _⟩
    · decide
    · exact hn.2
  exact ⟨h, ⟨⟨r, hexp, rfl⟩, le_refl _⟩, fun v hv => hv.2⟩

/-- Leading digits are a truncation. -/
theorem of_leading {m k : ℕ} (hr : Normal r) (hs : signBit r = false)
    (h : Leading 10 m (significand r) (exponent r + k)) :
    Truncates ((m : ℚ) / 2 ^ (25 + k)) r := by
  have hpos : (0 : ℚ) ≤ (m : ℚ) / 2 ^ (25 + k) := by positivity
  have hround := RoundsTowardZero.of_leading hr h (abs_of_nonneg hpos)
  have hgreatest := hround.greatest
  rw [abs_of_nonneg hpos, abs_of_pos (fp16ToFloat_pos hr hs)] at hgreatest
  exact ⟨Or.inr ⟨hr, hs⟩, hgreatest⟩

end Truncates

/-- The multiplier truncates. -/
theorem fp16Mult_truncates {p : Word × Word} (hp : BoundedPair p)
    (hhigh : fp16ToFloat p.1 * fp16ToFloat p.2 < 2 ^ 16) :
    Truncates (fp16ToFloat p.1 * fp16ToFloat p.2) (fp16Mult p.1 p.2) := by
  have hzero := fp16ToFloat_of_zero magnitudeBits_zero
  have hself : Truncates 0 0#16 := hzero ▸ Truncates.self (Or.inl rfl)
  rcases hp.left with ha | ⟨ha, hsa⟩
  · rwa [ha, fp16Mult_zero_left, hzero, zero_mul]
  rcases hp.right with hb | ⟨hb, hsb⟩
  · rwa [hb, fp16Mult_zero_right, hzero, mul_zero]
  have hpos : 0 < fp16ToFloat p.1 * fp16ToFloat p.2 :=
    mul_pos (fp16ToFloat_pos ha hsa) (fp16ToFloat_pos hb hsb)
  have hlow := hp.product hpos.ne'
  have hproduct := abs_fp16ToFloat_mul ha hb
  rw [abs_of_pos hpos] at hproduct
  rw [hproduct] at hlow hhigh ⊢
  obtain ⟨hnormal, hsign, hlead⟩ := fp16Mult_normal ha hb ((one_div_le_div_iff _ 36 14).mp hlow)
    ((div_lt_two_pow_iff _ 50 16).mp hhigh)
  exact Truncates.of_leading hnormal (by rw [hsign, hsa, hsb]; rfl) hlead

/-- The adder truncates. -/
theorem fp16Add_truncates {a b : Word} (ha : NonNegative a) (hb : NonNegative b)
    (hhigh : fp16ToFloat a + fp16ToFloat b < 2 ^ 16) :
    Truncates (fp16ToFloat a + fp16ToFloat b) (fp16Add a b) := by
  have hzero := fp16ToFloat_of_zero magnitudeBits_zero
  rcases ha with rfl | ⟨ha, hsa⟩
  · rw [fp16Add_zero_left, hzero, zero_add]
    exact Truncates.self hb
  rcases hb with rfl | ⟨hb, hsb⟩
  · rw [fp16Add, if_neg (magnitudeBits_ne_zero ha.1), if_pos magnitudeBits_zero, hzero, add_zero]
    exact Truncates.self (Or.inr ⟨ha, hsa⟩)
  have hsum := abs_fp16ToFloat_add ha hb (hsa.trans hsb.symm)
  rw [abs_of_pos (add_pos (fp16ToFloat_pos ha hsa) (fp16ToFloat_pos hb hsb))] at hsum
  rw [hsum] at hhigh ⊢
  obtain ⟨hnormal, hsign, hlead⟩ := fp16Add_like_signs ha hb (hsa.trans hsb.symm)
    ((div_lt_two_pow_iff _ 25 16).mp hhigh)
  exact Truncates.of_leading (k := 0) hnormal (hsign.trans hsa) hlead

/-- Operand pairs of which one is below the other. -/
structure PairLe (p q : Word × Word) : Prop where
  lower : BoundedPair p
  upper : BoundedPair q
  left : fp16ToFloat p.1 ≤ fp16ToFloat q.1
  right : fp16ToFloat p.2 ≤ fp16ToFloat q.2

/-- Larger operands have the larger exact product. -/
theorem PairLe.product_le {p q : Word × Word} (h : PairLe p q) :
    fp16ToFloat p.1 * fp16ToFloat p.2 ≤ fp16ToFloat q.1 * fp16ToFloat q.2 :=
  mul_le_mul h.left h.right h.lower.right.nonneg h.upper.left.nonneg

/-- **The step lemma.**  A step over the larger pair, from the larger sum, gives the larger
sum. -/
theorem fp16Mac_mono {p q : Word × Word} (h : PairLe p q) {c d : Word} (hc : NonNegative c)
    (hd : NonNegative d) (hcd : fp16ToFloat c ≤ fp16ToFloat d)
    (hhigh : fp16ToFloat q.1 * fp16ToFloat q.2 + fp16ToFloat d < 2 ^ 16) :
    fp16ToFloat (fp16Mac p.1 p.2 c) ≤ fp16ToFloat (fp16Mac q.1 q.2 d) := by
  have hproduct := h.product_le
  have hdpos := hd.nonneg
  have hmultq := fp16Mult_truncates h.upper (by linarith)
  have hmultp := fp16Mult_truncates h.lower (by linarith)
  have hmult := hmultp.mono hmultq hproduct
  have hbelow := hmultq.le
  have haddq := fp16Add_truncates hmultq.nonNegative hd (by linarith)
  have haddp := fp16Add_truncates hmultp.nonNegative hc (by linarith)
  exact haddp.mono haddq (add_le_add hmult hcd)

section Fold

variable {ι : Type*} {p q : ι → Word × Word}

/-- Larger operands have the larger exact dot product. -/
theorem exactDot_mono {l : List ι} (hpairs : ∀ k ∈ l, PairLe (p k) (q k)) :
    exactDot (l.map p) ≤ exactDot (l.map q) := by
  induction l with
  | nil => exact le_refl _
  | cons k l ih =>
    have hhead := (hpairs k List.mem_cons_self).product_le
    have htail := ih fun k' hk' => hpairs k' (List.mem_cons_of_mem k hk')
    have hcons : ∀ f : ι → Word × Word, exactDot ((k :: l).map f) =
        fp16ToFloat (f k).1 * fp16ToFloat (f k).2 + exactDot (l.map f) := fun f => List.sum_cons
    rw [hcons, hcons]
    exact add_le_add hhead htail

/-- INTERNAL: **The run lemma.**  The larger operands accumulate to the larger word. -/
theorem macFold_mono {l : List ι} (hpairs : ∀ k ∈ l, PairLe (p k) (q k))
    (hhigh : exactDot (l.map q) < 2 ^ 16) :
    fp16ToFloat (macFold 0#16 (l.map p)) ≤ fp16ToFloat (macFold 0#16 (l.map q)) := by
  induction l using List.reverseRecOn with
  | nil => exact le_refl _
  | append_singleton l k ih =>
    have hinit : ∀ k' ∈ l, PairLe (p k') (q k') := fun k' hk' =>
      hpairs k' (List.mem_append_left [k] hk')
    have hlast := hpairs k (List.mem_append_right l List.mem_cons_self)
    rw [List.map_append, List.map_singleton, exactDot_concat] at hhigh
    have hproduct : 0 ≤ fp16ToFloat (q k).1 * fp16ToFloat (q k).2 :=
      mul_nonneg hlast.upper.left.nonneg hlast.upper.right.nonneg
    have hrest : exactDot (l.map q) < 2 ^ 16 := by linarith
    obtain ⟨hc, -⟩ := macFold_nonnegative
      (List.forall_mem_map.mpr fun k' hk' => (hinit k' hk').lower)
      (lt_of_le_of_lt (exactDot_mono hinit) hrest)
    obtain ⟨hd, hround⟩ := macFold_nonnegative
      (List.forall_mem_map.mpr fun k' hk' => (hinit k' hk').upper) hrest
    have hupper := hround.upper
    have hstep := fp16Mac_mono hlast hc hd (ih hinit hrest) (by linarith)
    rw [macFold_eq_accumulate] at hstep ⊢
    rwa [List.map_append, List.map_append, List.map_singleton, List.map_singleton,
      accumulate_concat, accumulate_concat]

end Fold

/-- **The monotone run.**  Two accelerators in any idle states with non-negative operands,
those of one nowhere larger than those of the other: once both have run, an element of the
result of one is at most that of the other, where no product falls below the normal range
and the larger exact dot product is below `2 ^ 16`.
RTL: matrix_accel_top_systolic_array.v:49-177, fp16_add.v:17-84, fp16_mult.v:15-48 -/
theorem monotone_run (N : ℕ) (hN : 1 ≤ N ∧ N ≤ 84) (s s' : MatrixAccelTop N)
    (hs : ReachableTop N s) (hs' : ReachableTop N s')
    (hidle : s.fsm.stateCalc = false ∧ s.fsm.stateDrain = false)
    (hidle' : s'.fsm.stateCalc = false ∧ s'.fsm.stateDrain = false) (i j : Fin N)
    (hpairs : ∀ k, PairLe (s.memA (cell i k), s.memB (cell k j))
      (s'.memA (cell i k), s'.memB (cell k j)))
    (hdot : ∑ k, fp16ToFloat (s'.memA (cell i k)) * fp16ToFloat (s'.memB (cell k j)) < 2 ^ 16)
    (e0 e0' : AvsCycle) (he0 : e0.clrPeSig = true) (he0' : e0'.clrPeSig = true)
    (l l' : List AvsCycle) (hl : ∀ bus ∈ l, bus.clrPeSig = false ∧ ¬ WindowWrite N bus)
    (hl' : ∀ bus ∈ l', bus.clrPeSig = false ∧ ¬ WindowWrite N bus)
    (hlong : 5 * N + 4 ≤ l.length) (hlong' : 5 * N + 4 ≤ l'.length) :
    fp16ToFloat ((run MatrixAccelTop.step (s.step e0) l).memC (cell i j)) ≤
      fp16ToFloat ((run MatrixAccelTop.step (s'.step e0') l').memC (cell i j)) := by
  rw [memC_of_run hN.2 hs hidle he0 hl hlong, memC_of_run hN.2 hs' hidle' he0' hl' hlong']
  refine macFold_mono (fun k _ => hpairs k) ?_
  have hsum := exactDot_operands s'.memA s'.memB i j
  rw [← hsum] at hdot
  exact hdot

/-- Ones against ones, and twos against ones. -/
theorem monotone_run_ones :
    fp16ToFloat ((run MatrixAccelTop.step
        ((loadedTop (fun _ => 0x3C00#16) fun _ => 0x3C00#16).step Driver.startWrite)
          (List.replicate 19 default)).memC (cell 0 0)) ≤
      fp16ToFloat ((run MatrixAccelTop.step
        ((loadedTop (fun _ => 0x4000#16) fun _ => 0x3C00#16).step Driver.startWrite)
          (List.replicate 19 default)).memC (cell 0 0)) := by
  have hone : fp16ToFloat 0x3C00#16 = 1 := by
    rw [fp16ToFloat_positive (by decide) (by decide), (by decide : magnitude 0x3C00#16 = 2 ^ 25)]
    norm_num
  have htwo : fp16ToFloat 0x4000#16 = 2 := by
    rw [fp16ToFloat_positive (by decide) (by decide), (by decide : magnitude 0x4000#16 = 2 ^ 26)]
    norm_num
  refine monotone_run 3 (by decide) _ _ (loadedTop_reachable _ _) (loadedTop_reachable _ _)
    (loadedTop_idle _ _) (loadedTop_idle _ _) 0 0 (fun k => ?_) ?_ Driver.startWrite
    Driver.startWrite (by decide) (by decide) _ _ (quiet_replicate 19) (quiet_replicate 19)
    (by decide) (by decide)
  · rw [(loadedTop_memories _ _).1, (loadedTop_memories _ _).2, (loadedTop_memories _ _).1,
      (loadedTop_memories _ _).2]
    refine ⟨⟨Or.inr (by decide), Or.inr (by decide), fun _ => ?_⟩,
      ⟨Or.inr (by decide), Or.inr (by decide), fun _ => ?_⟩, ?_, le_refl _⟩
    · rw [hone]
      norm_num
    · rw [hone, htwo]
      norm_num
    · rw [hone, htwo]
      norm_num
  · rw [(loadedTop_memories _ _).1, (loadedTop_memories _ _).2]
    simp only [hone, htwo, Fin.sum_univ_three]
    norm_num

end MatrixAccelerator.Analysis
