import MatrixAccelerator.Analysis.DriverRun
import MatrixAccelerator.Analysis.MultiplierValue
import MatrixAccelerator.Analysis.SubnormalProduct

/-!
# Laws of the operands

The multiplier commutes, so a run over the transposed operands in exchanged places makes
the transposed result, bit for bit.  An operand that selects rows or columns with ones and
zero words makes the rows or columns of the other operand, its subnormals and negative
zeros turned into zero words; the identity is one of them.
-/

set_option autoImplicit false

namespace MatrixAccelerator.Analysis

open MatrixAccelerator.Library MatrixAccelerator.Model MatrixAccelerator.Interface

/-! ## The adder on exchanged operands -/

/-- A word is assembled from its fields. -/
theorem eq_assemble (w : Word) : w = assemble (signBit w) (expField w) (fracField w) := by
  apply BitVec.eq_of_getLsbD_eq
  intro i hi
  rw [getLsbD_assemble, fracField, BitVec.getLsbD_extractLsb', expField,
    BitVec.getLsbD_extractLsb', signBit]
  rcases Nat.lt_or_ge i 10 with hlow | hhigh
  · rw [if_pos hlow, decide_eq_true hlow, Bool.true_and, Nat.zero_add]
  · rw [if_neg (by omega)]
    rcases Nat.lt_or_ge i 15 with hmid | htop
    · have hsum : 10 + (i - 10) = i := by omega
      rw [if_pos hmid, decide_eq_true (by omega : i - 10 < 5), Bool.true_and, hsum]
    · have heq : i = 15 := by omega
      rw [if_neg (by omega), heq, decide_eq_true rfl, Bool.true_and]

/-- Words with equal fields are equal. -/
theorem word_ext {a b : Word} (hsign : signBit a = signBit b) (hexp : expField a = expField b)
    (hfrac : fracField a = fracField b) : a = b := by
  rw [eq_assemble a, hsign, hexp, hfrac, ← eq_assemble b]

/-- Operands with different keys are ordered the same way from either side. -/
theorem large_small_swap {a b : Word} (h : expField a ++ mantissa a ≠ expField b ++ mantissa b) :
    Fp16Add.large a b = Fp16Add.large b a ∧ Fp16Add.small a b = Fp16Add.small b a := by
  have hne : (expField a ++ mantissa a).toNat ≠ (expField b ++ mantissa b).toNat := fun heq =>
    h (BitVec.eq_of_toNat_eq heq)
  unfold Fp16Add.large Fp16Add.small Fp16Add.aIsLarger
  simp only [BitVec.lt_def, decide_eq_true_eq]
  rcases Nat.lt_or_gt_of_ne hne with hlt | hgt
  · rw [if_neg (by omega), if_pos hlt, if_neg (by omega), if_pos hlt]
    exact ⟨rfl, rfl⟩
  · rw [if_pos hgt, if_neg (by omega), if_pos hgt, if_neg (by omega)]
    exact ⟨rfl, rfl⟩

/-- Two words with one key are one word, have opposite signs, or have no mantissa; their sum
is then zero from either side. -/
theorem mantSum_of_key {a b : Word} (h : expField a ++ mantissa a = expField b ++ mantissa b)
    (hne : a ≠ b) : Fp16Add.mantSum a b = 0#14 := by
  have hexp : expField a = expField b := by
    rw [← BitVec.extractLsb'_append_eq_left (a := expField a) (b := mantissa a), h,
      BitVec.extractLsb'_append_eq_left]
  have hmant : mantissa a = mantissa b := by
    rw [← BitVec.extractLsb'_append_eq_right (a := expField a) (b := mantissa a), h,
      BitVec.extractLsb'_append_eq_right]
  have hnot : Fp16Add.aIsLarger a b = false := by
    rw [Fp16Add.aIsLarger, h]
    exact decide_eq_false (BitVec.lt_irrefl _)
  have hsmall : Fp16Add.alignedSmall a b = mantissa b ++ 0#2 := by
    rw [Fp16Add.alignedSmall, Fp16Add.expDiff, Fp16Add.large, Fp16Add.small, hnot]
    simp only [Bool.false_eq_true, if_false, hexp, hmant, BitVec.sub_self]
    exact BitVec.ushiftRight_zero _
  have hlarge : Fp16Add.alignedLarge a b = mantissa b ++ 0#2 := by
    rw [Fp16Add.alignedLarge, Fp16Add.large, hnot]
    rfl
  rw [Fp16Add.mantSum, hsmall, hlarge]
  split
  · next hsign =>
    -- words of one sign that differ under one key differ in fraction bits the flush hides
    have hflushed : expField b = 0#5 := by
      by_contra hnormal
      rw [mantissa, mantissa, if_neg hnormal, if_neg (hexp ▸ hnormal)] at hmant
      have hfrac := (BitVec.append_right_inj 1#1).mp hmant
      rw [Fp16Add.large, Fp16Add.small, hnot] at hsign
      exact hne (word_ext hsign.symm hexp hfrac)
    rw [mantissa, if_pos hflushed]
    rfl
  · exact BitVec.sub_self _

/-- The adder commutes when neither operand is zero. -/
theorem fp16Add_swap {a b : Word} (ha : magnitudeBits a ≠ 0#15) (hb : magnitudeBits b ≠ 0#15) :
    fp16Add a b = fp16Add b a := by
  by_cases hab : a = b
  · rw [hab]
  · by_cases hkey : expField a ++ mantissa a = expField b ++ mantissa b
    · unfold fp16Add
      rw [if_neg ha, if_neg hb, if_pos (mantSum_of_key hkey hab), if_neg hb, if_neg ha,
        if_pos (mantSum_of_key hkey.symm fun h => hab h.symm)]
    · obtain ⟨hlarge, hsmall⟩ := large_small_swap hkey
      have hmant : Fp16Add.mantSum a b = Fp16Add.mantSum b a := by
        unfold Fp16Add.mantSum Fp16Add.alignedLarge Fp16Add.alignedSmall Fp16Add.expDiff
        rw [hlarge, hsmall]
      unfold fp16Add Fp16Add.normalizedExp
      rw [if_neg ha, if_neg hb, if_neg hb, if_neg ha, hmant, hlarge]

/-- **The adder commutes except on two zeros.**  A zero addend hands the other one on, so two
zeros of different sign give the second.
RTL: fp16_add.v:63-84 -/
theorem fp16Add_comm_iff (a b : Word) :
    fp16Add a b = fp16Add b a ↔ (magnitudeBits a = 0#15 → magnitudeBits b = 0#15 → a = b) := by
  by_cases ha : magnitudeBits a = 0#15
  · by_cases hb : magnitudeBits b = 0#15
    · unfold fp16Add
      rw [if_pos ha, if_pos hb]
      exact ⟨fun h _ _ => h.symm, fun h => (h ha hb).symm⟩
    · unfold fp16Add
      rw [if_pos ha, if_neg hb, if_pos ha]
      exact ⟨fun _ _ h => absurd h hb, fun _ => rfl⟩
  · refine ⟨fun _ h => absurd h ha, fun _ => ?_⟩
    by_cases hb : magnitudeBits b = 0#15
    · unfold fp16Add
      rw [if_neg ha, if_pos hb, if_pos hb]
    · exact fp16Add_swap ha hb

/-! ## The transposed run -/

section Runs

variable {N : ℕ}

/-- The operands of the transposed element, in exchanged places. -/
theorem productEntry_transposed {A B A' B' : Fin (N * N) → Word}
    (hA : ∀ i k, A' (cell i k) = B (cell k i)) (hB : ∀ i k, B' (cell i k) = A (cell k i))
    (i j : Fin N) : productEntry A' B' j i = productEntry A B i j := by
  have hpairs : List.Forall₂ (fun p q : Word × Word => q = (p.2, p.1)) (operands A' B' j i)
      (operands A B i j) := by
    unfold operands
    rw [List.forall₂_map_left_iff, List.forall₂_map_right_iff]
    exact List.forall₂_same.mpr fun k _ => by rw [hA, hB]
  unfold productEntry macFold
  apply accumulate_relates (R := fun c c' => c = c') _ _ rfl hpairs
  rintro p - c c' rfl rfl
  rw [fp16Mult_comm]

/-- The root copy as the driver has loaded it. -/
def loadedTop (A B : Fin (3 * 3) → Word) : MatrixAccelTop 3 :=
  run MatrixAccelTop.step (MatrixAccelTop.reset 3)
    (cyclesBeforeStart (fun _ => []) A B)

/-- The loaded accelerator holds both matrices. -/
theorem loadedTop_memories (A B : Fin (3 * 3) → Word) :
    (loadedTop A B).memA = A ∧ (loadedTop A B).memB = B :=
  loaded_operands (by decide) A B _ _

theorem loadedTop_idle (A B : Fin (3 * 3) → Word) :
    (loadedTop A B).fsm.stateCalc = false ∧ (loadedTop A B).fsm.stateDrain = false :=
  (phase_eq_idle_iff _).mp (idle_at_start (by decide) (reset_cleanPipeline 3) A B _)

theorem loadedTop_reachable (A B : Fin (3 * 3) → Word) : ReachableTop 3 (loadedTop A B) :=
  Reachable.refl.run_of _

theorem quiet_replicate (n : ℕ) :
    ∀ bus ∈ List.replicate n (default : AvsCycle), bus.clrPeSig = false ∧ ¬ WindowWrite N bus := by
  intro bus hbus
  rw [List.eq_of_mem_replicate hbus]
  exact quiet_of_not_write rfl

/-- INTERNAL: What a run from any idle state leaves in `mem_C`. -/
theorem memC_of_run (hN : N ≤ 84) {s : MatrixAccelTop N} (hs : ReachableTop N s)
    (hidle : s.fsm.stateCalc = false ∧ s.fsm.stateDrain = false) {e0 : AvsCycle}
    (he0 : e0.clrPeSig = true) {l : List AvsCycle}
    (hl : ∀ bus ∈ l, bus.clrPeSig = false ∧ ¬ WindowWrite N bus) (hlong : 5 * N + 4 ≤ l.length)
    (i j : Fin N) :
    (run MatrixAccelTop.step (s.step e0) l).memC (cell i j) = productEntry s.memA s.memB i j := by
  have hclean := cleanPipeline_of_reachable hN hs
  have hphase := (phase_eq_idle_iff s.fsm).mpr hidle
  exact ((run_from_idle hN hclean hphase he0 hl).2 hlong).2.2 i j

/-- **The transposed run.**  Two accelerators in any idle states, one with the transposed
operands of the other in exchanged places: once both have run, the result of one is the
transposed result of the other, bit for bit, whatever else their buses carry.
RTL: matrix_accel_top_systolic_array.v:49-177, fp16_mult.v:24-48 -/
theorem transposed_run (N : ℕ) (hN : 1 ≤ N ∧ N ≤ 84) (s s' : MatrixAccelTop N)
    (hs : ReachableTop N s) (hs' : ReachableTop N s')
    (hidle : s.fsm.stateCalc = false ∧ s.fsm.stateDrain = false)
    (hidle' : s'.fsm.stateCalc = false ∧ s'.fsm.stateDrain = false)
    (hA : ∀ i k, s'.memA (cell i k) = s.memB (cell k i))
    (hB : ∀ i k, s'.memB (cell i k) = s.memA (cell k i)) (e0 e0' : AvsCycle)
    (he0 : e0.clrPeSig = true) (he0' : e0'.clrPeSig = true) (l l' : List AvsCycle)
    (hl : ∀ bus ∈ l, bus.clrPeSig = false ∧ ¬ WindowWrite N bus)
    (hl' : ∀ bus ∈ l', bus.clrPeSig = false ∧ ¬ WindowWrite N bus)
    (hlong : 5 * N + 4 ≤ l.length) (hlong' : 5 * N + 4 ≤ l'.length) (i j : Fin N) :
    (run MatrixAccelTop.step (s'.step e0') l').memC (cell j i) =
      (run MatrixAccelTop.step (s.step e0) l).memC (cell i j) := by
  rw [memC_of_run hN.2 hs hidle he0 hl hlong, memC_of_run hN.2 hs' hidle' he0' hl' hlong']
  exact productEntry_transposed hA hB i j

/-- The driver's matrices. -/
theorem transposed_run_driver :
    (run MatrixAccelTop.step ((loadedTop (fun k => Driver.matrixBFp16 (cell k.modNat k.divNat))
        fun k => Driver.matrixAFp16 (cell k.modNat k.divNat)).step Driver.startWrite)
          (List.replicate 19 default)).memC (cell 1 0) =
      (run MatrixAccelTop.step ((loadedTop Driver.matrixAFp16 Driver.matrixBFp16).step
        Driver.startWrite) (List.replicate 19 default)).memC (cell 0 1) :=
  transposed_run 3 (by decide) _ _ (loadedTop_reachable _ _) (loadedTop_reachable _ _)
    (loadedTop_idle _ _) (loadedTop_idle _ _)
    (by rw [(loadedTop_memories _ _).1, (loadedTop_memories _ _).2]; decide)
    (by rw [(loadedTop_memories _ _).2, (loadedTop_memories _ _).1]; decide)
    Driver.startWrite Driver.startWrite (by decide) (by decide) _ _ (quiet_replicate 19)
    (quiet_replicate 19) (by decide) (by decide) 0 1

/-! ## Selecting rows and columns -/

/-- The word a selected element comes out as. -/
def flushed (w : Word) : Word := if expField w = 0#5 then 0#16 else w

/-- A product with one is the other factor, subnormals cut to a signed zero. -/
theorem fp16Mult_one {a : Word} (ha : magnitudeBits a ≠ 0#15) :
    (expField a = 0#5 → magnitudeBits (fp16Mult a 0x3C00#16) = 0#15) ∧
      (expField a ≠ 0#5 → fp16Mult a 0x3C00#16 = a) := by
  have hone : significand 0x3C00#16 = 1024 ∧ exponent 0x3C00#16 = 15 ∧
      signBit 0x3C00#16 = false := by decide
  obtain ⟨hsign, hexp, hfrac⟩ := fp16Mult_fields ha (by decide : magnitudeBits 0x3C00#16 ≠ 0#15)
  have hsig : significand a < 2 ^ 11 := (mantissa a).isLt
  have hcarry : productCarry a 0x3C00#16 = 0 := by
    rw [productCarry, hone.1, if_neg (by omega)]
  have hlt : exponent a < 32 := (expField a).isLt
  rw [hcarry, hone.1] at hfrac
  rw [hcarry, hone.2.1] at hexp
  rw [hone.2.2, Bool.xor_false] at hsign
  have hdiv : significand a * 1024 / 2 ^ (10 + 0) = significand a :=
    Nat.mul_div_cancel _ (Nat.two_pow_pos 10)
  rw [hdiv] at hfrac
  constructor
  · intro hzero
    have hexp0 : exponent a = 0 := by rw [exponent, hzero]; rfl
    apply BitVec.eq_of_toNat_eq
    rw [toNat_magnitudeBits, hexp, hfrac, significand_eq_zero hexp0, hexp0]
    rfl
  · intro hnormal
    have hpos : 1 ≤ exponent a := Nat.pos_of_ne_zero fun h0 => hnormal (BitVec.eq_of_toNat_eq h0)
    refine word_ext hsign (BitVec.eq_of_toNat_eq ?_) (BitVec.eq_of_toNat_eq ?_)
    · change exponent _ = exponent a
      omega
    · have hbound := (fracField a).isLt
      rw [hfrac, significand_eq hpos]
      omega

/-- One step over a factor one, from a cleared sum. -/
theorem fp16Mac_one (a : Word) : fp16Mac a 0x3C00#16 0#16 = flushed a := by
  unfold fp16Mac flushed
  by_cases ha : magnitudeBits a = 0#15
  · have hexp : expField a = 0#5 := by
      have hnat := toNat_magnitudeBits a
      rw [ha, BitVec.toNat_ofNat] at hnat
      apply BitVec.eq_of_toNat_eq
      change exponent a = 0
      omega
    rw [if_pos hexp, fp16Mult, if_pos (Or.inl ha), fp16Add_zero_left]
  · obtain ⟨hzero, hnormal⟩ := fp16Mult_one ha
    by_cases hexp : expField a = 0#5
    · rw [if_pos hexp, fp16Add, if_pos (hzero hexp)]
    · rw [if_neg hexp, hnormal hexp, fp16Add, if_neg ha, if_pos magnitudeBits_zero]

/-- Multiplying one by a word and adding to zero gives the word, flushed. -/
theorem one_fp16Mac (b : Word) : fp16Mac 0x3C00#16 b 0#16 = flushed b := by
  rw [fp16Mac, fp16Mult_comm]
  exact fp16Mac_one b

/-- A selecting column picks an element of the row. -/
theorem productEntry_select {A B : Fin (N * N) → Word} {π : Fin N → Fin N}
    (hB : ∀ k j, B (cell k j) = if k = π j then 0x3C00#16 else 0#16) (i j : Fin N) :
    productEntry A B i j = flushed (A (cell i (π j))) := by
  rw [productEntry, macFold_eq_accumulate, operands,
    fp16Mac_neutral.accumulate_single (List.nodup_finRange N) (List.mem_finRange (π j)), hB,
    if_pos rfl, fp16Mac_one]
  intro k _ hk
  exact Or.inr ((hB k j).trans (if_neg hk))

/-- A selecting row picks an element of the column. -/
theorem productEntry_selected {A B : Fin (N * N) → Word} {π : Fin N → Fin N}
    (hA : ∀ i k, A (cell i k) = if k = π i then 0x3C00#16 else 0#16) (i j : Fin N) :
    productEntry A B i j = flushed (B (cell (π i) j)) := by
  rw [productEntry, macFold_eq_accumulate, operands,
    fp16Mac_neutral.accumulate_single (List.nodup_finRange N) (List.mem_finRange (π i)), hA,
    if_pos rfl, one_fp16Mac]
  intro k _ hk
  exact Or.inl ((hA i k).trans (if_neg hk))

/-- **The selecting run.**  After a run from any idle state whose B has in every column a one
in row `π j` and zero words elsewhere, column `j` of the result is column `π j` of A, with
subnormals and negative zeros cut to the zero word and every other word unchanged; for the
identity the result is A.  An A of such rows selects rows of B.
RTL: matrix_accel_top_systolic_array.v:49-177, fp16_mac.v:9-21 -/
theorem selecting_run (N : ℕ) (hN : 1 ≤ N ∧ N ≤ 84) (s : MatrixAccelTop N)
    (hs : ReachableTop N s) (hidle : s.fsm.stateCalc = false ∧ s.fsm.stateDrain = false)
    (π : Fin N → Fin N) (e0 : AvsCycle) (he0 : e0.clrPeSig = true) (l : List AvsCycle)
    (hl : ∀ bus ∈ l, bus.clrPeSig = false ∧ ¬ WindowWrite N bus)
    (hlong : 5 * N + 4 ≤ l.length) (i j : Fin N) :
    ((∀ k j, s.memB (cell k j) = if k = π j then 0x3C00#16 else 0#16) →
      (run MatrixAccelTop.step (s.step e0) l).memC (cell i j) =
        flushed (s.memA (cell i (π j)))) ∧
    ((∀ i k, s.memA (cell i k) = if k = π i then 0x3C00#16 else 0#16) →
      (run MatrixAccelTop.step (s.step e0) l).memC (cell i j) =
        flushed (s.memB (cell (π i) j))) := by
  rw [memC_of_run hN.2 hs hidle he0 hl hlong]
  exact ⟨fun hB => productEntry_select hB i j, fun hA => productEntry_selected hA i j⟩

/-- The driver's A times the identity. -/
theorem selecting_run_identity :
    (run MatrixAccelTop.step ((loadedTop Driver.matrixAFp16
        fun k => if k.val % 4 = 0 then 0x3C00#16 else 0#16).step Driver.startWrite)
          (List.replicate 19 default)).memC (cell 1 2) =
      flushed ((loadedTop Driver.matrixAFp16
        fun k => if k.val % 4 = 0 then 0x3C00#16 else 0#16).memA (cell 1 2)) :=
  (selecting_run 3 (by decide) _ (loadedTop_reachable _ _) (loadedTop_idle _ _) id
    Driver.startWrite (by decide) _ (quiet_replicate 19) (by decide) 1 2).1
    (by rw [(loadedTop_memories _ _).2]; decide)

end Runs

end MatrixAccelerator.Analysis
