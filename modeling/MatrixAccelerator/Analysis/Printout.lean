import MatrixAccelerator.Interface.Magnitude
import MatrixAccelerator.Interface.PrintoutReader
import MatrixAccelerator.Model.Printout
import Mathlib.Data.Rat.Floor
import Mathlib.Tactic.Linarith
import Mathlib.Tactic.Ring

/-!
# The print-out reads back

From the text the driver prints, every word of C can be read back, next to its value
cut to hundredths towards zero.
-/

set_option autoImplicit false

namespace MatrixAccelerator.Analysis

open MatrixAccelerator.Library MatrixAccelerator.Model MatrixAccelerator.Model.Driver
  MatrixAccelerator.Interface

/-! ## The casts -/

/-- The cast of a number that is not negative is its floor. -/
theorem castInt_of_nonneg {f : ℚ} (h : 0 ≤ f) : castInt f = ⌊f⌋ := by
  rw [castInt, Rat.floor_def', Int.tdiv_eq_ediv_of_nonneg (Rat.num_nonneg.mpr h)]

/-- The cast drops the fraction of either sign alike. -/
theorem castInt_neg (f : ℚ) : castInt (-f) = -castInt f := by
  rw [castInt, Rat.neg_num, Rat.neg_den, Int.neg_tdiv, castInt]

/-- The conditional of the source is the absolute value. -/
theorem absVal_eq (f : ℚ) : absVal f = |f| := by
  unfold absVal
  split
  · next h => rw [abs_of_neg h]
  · next h => rw [abs_of_nonneg (not_lt.mp h)]

/-- The cast by the sign of the number. -/
theorem castInt_eq (f : ℚ) : castInt f = if f < 0 then -⌊|f|⌋ else ⌊|f|⌋ := by
  split
  · next h =>
    have hneg := castInt_of_nonneg (abs_nonneg f)
    rw [abs_of_neg h, castInt_neg] at hneg
    rw [abs_of_neg h, ← hneg, neg_neg]
  · next h => rw [abs_of_nonneg (not_lt.mp h), castInt_of_nonneg (not_lt.mp h)]

/-- The two parts of the magnitude. -/
theorem parts_eq (f : ℚ) :
    (intPart f).natAbs = ⌊|f|⌋.natAbs ∧ fracPart f = ⌊(|f| - ⌊|f|⌋) * 100⌋ := by
  have hfract : 0 ≤ (|f| - ⌊|f|⌋) * 100 := mul_nonneg (Int.fract_nonneg |f|) (by norm_num)
  constructor
  · rw [intPart, castInt_eq]
    split
    · exact Int.natAbs_neg _
    · rfl
  · rw [fracPart, absVal_eq, castInt_of_nonneg (abs_nonneg f), castInt_of_nonneg hfract]

/-- The parts make up the magnitude cut to hundredths. -/
theorem hundredths_eq (f : ℚ) : ⌊100 * |f|⌋ = 100 * ⌊|f|⌋ + ⌊(|f| - ⌊|f|⌋) * 100⌋ := by
  have hsplit : 100 * |f| = (|f| - ⌊|f|⌋) * 100 + ((100 * ⌊|f|⌋ : ℤ) : ℚ) := by
    push_cast
    ring
  rw [hsplit, Int.floor_add_intCast, add_comm]

/-! ## The digits -/

/-- A decimal digit is read back, and is none of the separators. -/
theorem decimal_digit : ∀ d < 10, decimalValue (id d.digitChar) = d ∧
    isBlank d.digitChar = false ∧ d.digitChar ≠ '.' ∧ d.digitChar ≠ '-' ∧ d.digitChar ≠ '(' := by
  decide

/-- A capital hexadecimal digit is read back, and is none of the separators. -/
theorem hex_digit : ∀ d < 16, hexValue d.digitChar.toUpper = d ∧
    isBlank d.digitChar.toUpper = false ∧ d.digitChar.toUpper ≠ ')' := by
  decide

/-- Printed decimal digits are read back. -/
theorem readDigits_decimal (n : ℕ) : readDigits decimalValue 10 (Nat.toDigits 10 n) = n := by
  have hread : readDigits decimalValue 10 ((Nat.toDigits 10 n).map id) = n :=
    readDigits_toDigits (by decide : 1 < 10) (fun d hd => (decimal_digit d hd).1) n
  rwa [List.map_id] at hread

/-- What no letter of a decimal numeral is. -/
theorem decimal_letters {n : ℕ} {c : Char} (h : c ∈ Nat.toDigits 10 n) :
    isBlank c = false ∧ c ≠ '.' ∧ c ≠ '-' ∧ c ≠ '(' := by
  obtain ⟨d, hd, rfl⟩ := exists_of_mem_toDigits (by decide : 1 < 10) h
  exact (decimal_digit d hd).2

/-- What no letter of a padded decimal numeral is. -/
theorem padded_letters {n k : ℕ} {c : Char} (h : c ∈ List.leftpad k '0' (Nat.toDigits 10 n)) :
    isBlank c = false ∧ c ≠ '.' := by
  rcases List.mem_append.mp h with h | h
  · rw [List.eq_of_mem_replicate h]
    decide
  · exact ⟨(decimal_letters h).1, (decimal_letters h).2.1⟩

/-- The letters of the code are neither blanks nor the bracket. -/
theorem hex_letters {n : ℕ} {c : Char} (h : c ∈ List.leftpad 4 '0' (percentX n)) :
    isBlank c = false ∧ c ≠ ')' := by
  rcases List.mem_append.mp h with h | h
  · rw [List.eq_of_mem_replicate h]
    decide
  · obtain ⟨c', hc', rfl⟩ := List.mem_map.mp h
    obtain ⟨d, hd, rfl⟩ := exists_of_mem_toDigits (by decide : 1 < 16) hc'
    exact (hex_digit d hd).2

/-! ## The words of an element -/

/-- The numeral of a value, without the blanks before it. -/
def valueWord (fVal : ℚ) : List Char :=
  (if fVal < 0 then ['-'] else []) ++ (Nat.toDigits 10 (intPart fVal).natAbs ++
    '.' :: List.leftpad 2 '0' (Nat.toDigits 10 (fracPart fVal).natAbs))

/-- The hexadecimal word. -/
def codeWord (fp16Res : Word) : List Char :=
  '0' :: 'x' :: (List.leftpad 4 '0' (percentX fp16Res.toNat) ++ [')'])

theorem percentD_of_nonneg {n : ℤ} (h : 0 ≤ n) : percentD n = Nat.toDigits 10 n.natAbs :=
  if_neg (not_lt.mpr h)

/-- The fraction printed is not negative. -/
theorem fracPart_nonneg (f : ℚ) : 0 ≤ fracPart f := by
  rw [(parts_eq f).2]
  exact Int.floor_nonneg.mpr (mul_nonneg (Int.fract_nonneg |f|) (by norm_num))

/-- The sign is on the integer part, or printed in front of it. -/
theorem intPart_neg_iff {f : ℚ} (h : ¬(f < 0 ∧ intPart f = 0)) : intPart f < 0 ↔ f < 0 := by
  have hfloor : 0 ≤ ⌊|f|⌋ := Int.floor_nonneg.mpr (abs_nonneg f)
  rw [intPart, castInt_eq] at *
  by_cases hneg : f < 0
  · rw [if_pos hneg] at h ⊢
    have hne : -⌊|f|⌋ ≠ 0 := fun h0 => h ⟨hneg, h0⟩
    exact ⟨fun _ => hneg, fun _ => by omega⟩
  · rw [if_neg hneg]
    exact ⟨fun hlt => absurd hlt (not_lt.mpr hfloor), fun hlt => absurd hlt hneg⟩

/-- An element is its numeral after blanks, and the tail. -/
theorem wordsOf_printElement (w : Word) (text : List Char) :
    wordsOf isBlank (printElement w ++ text) =
      wordsOf isBlank (valueWord (fp16ToFloat w) ++ (hexTail w ++ text)) := by
  unfold printElement valueWord
  simp only [percentD_of_nonneg (fracPart_nonneg _)]
  by_cases h : fp16ToFloat w < 0 ∧ intPart (fp16ToFloat w) = 0
  · rw [if_pos h, if_pos h.1, h.2]
    simp only [List.append_assoc, List.cons_append, List.nil_append]
    rw [wordsOf_blank isBlank (by decide)]
    rfl
  · rw [if_neg h]
    simp only [List.append_assoc]
    rw [wordsOf_leftpad isBlank (by decide), percentD]
    simp only [intPart_neg_iff h]
    split
    · simp only [List.cons_append, List.nil_append]
    · simp only [List.cons_append, List.nil_append]

/-- There is no blank in a printed value. -/
theorem valueWord_letters (f : ℚ) : ∀ c ∈ valueWord f, isBlank c = false := by
  intro c hc
  simp only [valueWord, List.mem_append, List.mem_cons] at hc
  rcases hc with h | h | rfl | h
  · split at h
    · rw [List.mem_singleton.mp h]
      decide
    · exact absurd h List.not_mem_nil
  · exact (decimal_letters h).1
  · decide
  · exact (padded_letters h).1

/-- There is no blank in a printed code. -/
theorem codeWord_letters (w : Word) : ∀ c ∈ codeWord w, isBlank c = false := by
  intro c hc
  simp only [codeWord, List.mem_append, List.mem_cons, List.not_mem_nil, or_false] at hc
  rcases hc with rfl | rfl | h | rfl
  · decide
  · decide
  · exact (hex_letters h).1
  · decide

/-- A fixed word of the text is checked letter by letter. -/
theorem letters_of_all {w : List Char} (h : (w.all fun c => !isBlank c) = true) :
    ∀ c ∈ w, isBlank c = false := by
  intro c hc
  have hblank := List.all_eq_true.mp h c hc
  rwa [Bool.not_eq_true'] at hblank

/-- The words of an element. -/
def elementWords (w : Word) : List (List Char) :=
  [valueWord (fp16ToFloat w), hexWord, codeWord w, ['|']]

/-- The words of a printed element. -/
theorem wordsOf_element (w : Word) (text : List Char) :
    wordsOf isBlank (printElement w ++ text) = elementWords w ++ wordsOf isBlank text := by
  have htail : hexTail w ++ text =
      ' ' :: (hexWord ++ ' ' :: (codeWord w ++ ' ' :: (['|'] ++ ' ' :: text))) := by
    simp only [hexTail, hexWord, codeWord, List.append_assoc, List.cons_append, List.nil_append]
  have hvalue : valueWord (fp16ToFloat w) ≠ [] := fun h => by
    have hdot : '.' ∈ valueWord (fp16ToFloat w) := by simp [valueWord]
    rw [h] at hdot
    exact absurd hdot List.not_mem_nil
  rw [wordsOf_printElement, htail, wordsOf_word isBlank (valueWord_letters _) hvalue (by decide),
    wordsOf_word isBlank (w := hexWord) (letters_of_all rfl) (by decide) (by decide),
    wordsOf_word isBlank (codeWord_letters w) (List.cons_ne_nil _ _) (by decide),
    wordsOf_word isBlank (w := ['|']) (letters_of_all rfl) (by decide) (by decide)]
  rfl

/-! ## Reading an element -/

/-- The code is read back as the word. -/
theorem readHex_codeWord (w : Word) : readHex (codeWord w) = w := by
  have hdigits : (((codeWord w).drop 2).takeWhile (· ≠ ')')) =
      List.leftpad 4 '0' (percentX w.toNat) := by
    have hdrop : (codeWord w).drop 2 = List.leftpad 4 '0' (percentX w.toNat) ++ [')'] := rfl
    rw [hdrop, List.takeWhile_append_of_pos]
    · simp
    · intro c hc
      exact decide_eq_true (hex_letters hc).2
  rw [readHex, hdigits, readDigits_leftpad _ _ (by decide), percentX,
    readDigits_toDigits (by decide) fun d hd => (hex_digit d hd).1]
  exact BitVec.ofNat_toNat 16 w

/-- A value is read back from its integer and its two digits. -/
theorem readUnsigned_parts (n r : ℕ) :
    readUnsigned (Nat.toDigits 10 n ++ '.' :: List.leftpad 2 '0' (Nat.toDigits 10 r)) =
      n + r / 100 := by
  have hpos : ∀ c ∈ Nat.toDigits 10 n, decide (c ≠ '.') = true := fun c hc =>
    decide_eq_true (decimal_letters hc).2.1
  have htake : (Nat.toDigits 10 n ++ '.' :: List.leftpad 2 '0' (Nat.toDigits 10 r)).takeWhile
      (· ≠ '.') = Nat.toDigits 10 n := by
    rw [List.takeWhile_append_of_pos hpos]
    simp
  have hdrop : (Nat.toDigits 10 n ++ '.' :: List.leftpad 2 '0' (Nat.toDigits 10 r)).dropWhile
      (· ≠ '.') = '.' :: List.leftpad 2 '0' (Nat.toDigits 10 r) := by
    rw [List.dropWhile_append_of_pos hpos]
    simp
  rw [readUnsigned, htake, hdrop, List.drop_succ_cons, List.drop_zero, readDigits_decimal,
    readDigits_leftpad _ _ (by decide), readDigits_decimal]

/-- The numeral reads as the value cut to hundredths. -/
theorem readDecimal_valueWord (f : ℚ) :
    readDecimal (valueWord f) = (castInt (100 * f) : ℚ) / 100 := by
  have hfloor : 0 ≤ ⌊|f|⌋ := Int.floor_nonneg.mpr (abs_nonneg f)
  obtain ⟨hint, hfrac⟩ := parts_eq f
  have hunsigned : readUnsigned (Nat.toDigits 10 (intPart f).natAbs ++
      '.' :: List.leftpad 2 '0' (Nat.toDigits 10 (fracPart f).natAbs)) =
        (⌊100 * |f|⌋ : ℚ) / 100 := by
    have hfrac0 := fracPart_nonneg f
    rw [readUnsigned_parts, hint, hundredths_eq, ← hfrac, Nat.cast_natAbs, Nat.cast_natAbs,
      abs_of_nonneg hfloor, abs_of_nonneg hfrac0]
    push_cast
    ring
  have hmagnitude : |100 * f| = 100 * |f| := by
    rw [abs_mul, abs_of_pos (by norm_num : (0 : ℚ) < 100)]
  rw [castInt_eq, hmagnitude]
  by_cases hneg : f < 0
  · rw [valueWord, if_pos hneg, if_pos (by linarith), List.singleton_append, readDecimal,
      if_pos rfl, hunsigned]
    push_cast
    ring
  · rw [valueWord, if_neg hneg, if_neg (by linarith), List.nil_append]
    rw [← hunsigned]
    obtain ⟨c, l, hcl⟩ := List.exists_cons_of_ne_nil (toDigits_ne_nil (by decide : 1 < 10)
      (intPart f).natAbs)
    have hc : c ≠ '-' := (decimal_letters (hcl ▸ List.mem_cons_self)).2.2.1
    rw [hcl, List.cons_append, readDecimal, if_neg hc]

/-! ## Reading the text -/

/-- After any word, `ws` reads as `out`. -/
def ReadsAs (ws : List (List Char)) (out : List (ℚ × Word)) : Prop :=
  ∀ x, readElements (x :: ws) = out

/-- Words before the code of an element are skipped. -/
theorem readElements_skip {x y : List Char} (h : y ≠ hexWord) (ws : List (List Char)) :
    readElements (x :: y :: ws) = readElements (y :: ws) := by
  cases ws with
  | nil => rfl
  | cons z ws => rw [readElements, if_neg h]

/-- A printed value is not taken for a code. -/
theorem valueWord_ne (f : ℚ) : valueWord f ≠ hexWord := fun h => by
  have hdot : '.' ∈ valueWord f := by simp [valueWord]
  rw [h] at hdot
  exact absurd hdot (by decide)

namespace ReadsAs

variable {ws : List (List Char)} {out : List (ℚ × Word)}

/-- A printed element reads as its value and its word. -/
theorem element (h : ReadsAs ws out) (w : Word) :
    ReadsAs (elementWords w ++ ws) (((castInt (100 * fp16ToFloat w) : ℚ) / 100, w) :: out) := by
  intro x
  simp only [elementWords, List.cons_append, List.nil_append]
  rw [readElements_skip (valueWord_ne _), readElements, if_pos rfl, readDecimal_valueWord,
    readHex_codeWord, h]

/-- The label of a row is skipped. -/
theorem label (h : ReadsAs ws out) (n : ℕ) :
    ReadsAs (['R', 'o', 'w'] :: (Nat.toDigits 10 n ++ [':']) :: ws) out := by
  intro x
  have hlabel : Nat.toDigits 10 n ++ [':'] ≠ hexWord := fun heq => by
    have hmem : '(' ∈ Nat.toDigits 10 n ++ [':'] := by rw [heq]; decide
    rcases List.mem_append.mp hmem with hdigit | hcolon
    · exact (decimal_letters hdigit).2.2.2 rfl
    · exact absurd hcolon (by decide)
  rw [readElements_skip (by decide), readElements_skip hlabel, h]

/-- What holds of one piece of the text holds of all of them. -/
theorem flatMap {β : Type*} {words : β → List (List Char)} {elements : β → List (ℚ × Word)}
    (hpiece : ∀ b ws out, ReadsAs ws out → ReadsAs (words b ++ ws) (elements b ++ out))
    (h : ReadsAs ws out) (l : List β) :
    ReadsAs (l.flatMap words ++ ws) (l.flatMap elements ++ out) := by
  induction l with
  | nil => exact h
  | cons b l ih =>
    rw [List.flatMap_cons, List.flatMap_cons, List.append_assoc, List.append_assoc]
    exact hpiece b _ _ ih

end ReadsAs

variable {N : ℕ}

/-- The words of a row. -/
def rowWords (C : Fin N → Fin N → Word) (i : Fin N) : List (List Char) :=
  ['R', 'o', 'w'] :: (Nat.toDigits 10 i.val ++ [':']) ::
    (List.finRange N).flatMap fun j => elementWords (C i j)

/-- The words of the whole print-out. -/
theorem wordsOf_printC (C : Fin N → Fin N → Word) (text : List Char) :
    wordsOf isBlank (printC C ++ text) =
      (List.finRange N).flatMap (rowWords C) ++ wordsOf isBlank text := by
  apply wordsOf_flatMap
  intro i text
  have hletters : ∀ c ∈ Nat.toDigits 10 i.val ++ [':'], isBlank c = false := by
    intro c hc
    rcases List.mem_append.mp hc with h | h
    · exact (decimal_letters h).1
    · rw [List.mem_singleton.mp h]
      decide
  have hrow : ∀ tail : List Char, ['R', 'o', 'w', ' '] ++ tail = ['R', 'o', 'w'] ++ ' ' :: tail :=
    fun _ => rfl
  have hlabel : ∀ tail : List Char, Nat.toDigits 10 i.val ++ ([':', ' '] ++ tail) =
      (Nat.toDigits 10 i.val ++ [':']) ++ ' ' :: tail := by
    intro tail
    rw [List.append_assoc]
    rfl
  have helements := wordsOf_flatMap isBlank (fun j => wordsOf_element (C i j)) (List.finRange N)
    (['\n'] ++ text)
  rw [percentD_of_nonneg (Int.natCast_nonneg _), Int.natAbs_natCast]
  simp only [List.append_assoc]
  rw [hrow, wordsOf_word isBlank (letters_of_all rfl) (List.cons_ne_nil _ _) (by decide),
    wordsOf_leftpad isBlank (by decide), hlabel,
    wordsOf_word isBlank hletters (List.append_ne_nil_of_right_ne_nil _ (List.cons_ne_nil _ _))
      (by decide), helements, List.singleton_append, wordsOf_blank isBlank (by decide), rowWords,
    List.cons_append, List.cons_append]

/-- **The print-out reads back.**  From the text of the print-out every element can be read
again, in order: its word from the hexadecimal digits, and from the decimal ones its value
cut to hundredths towards zero.
RTL: Software/matrix_accel_SW/source.c:119-140 -/
theorem printout_reads_back (N : ℕ) (C : Fin N → Fin N → Word) :
    readPrintout (printC C) = (readOrder N).map fun p =>
      ((castInt (100 * fp16ToFloat (C p.1 p.2)) : ℚ) / 100, C p.1 p.2) := by
  have hreads : ReadsAs ((List.finRange N).flatMap (rowWords C) ++ [])
      (((List.finRange N).flatMap fun i => (List.finRange N).flatMap fun j =>
        [((castInt (100 * fp16ToFloat (C i j)) : ℚ) / 100, C i j)]) ++ []) := by
    apply ReadsAs.flatMap _ (fun _ => rfl)
    intro i ws out h
    exact ReadsAs.label (ReadsAs.flatMap (fun j _ _ hj => hj.element (C i j)) h _) i.val
  have hstart : readElements ([] :: ((List.finRange N).flatMap (rowWords C) ++ [])) =
      readElements ((List.finRange N).flatMap (rowWords C) ++ []) := by
    cases List.finRange N with
    | nil => rfl
    | cons i l => exact readElements_skip (by decide) _
  have hwords : wordsOf isBlank (printC C) = (List.finRange N).flatMap (rowWords C) ++ [] := by
    rw [← List.append_nil (printC C), wordsOf_printC]
    rfl
  rw [readPrintout, hwords, ← hstart, hreads, List.append_nil, readOrder, List.map_flatMap]
  congr 1
  funext i
  rw [List.map_map, ← List.map_eq_flatMap]
  rfl

/-! ## No operation rounds -/

/-- Twenty-four digits, scaled, are a single-precision number. -/
theorem isSingle_scaled {m n : ℕ} (hm : m < 2 ^ 24) (hn : n ≤ 100) :
    IsSingle ((m * 2 ^ n : ℕ) / 2 ^ 24) := by
  refine ⟨m, (n : ℤ) - 24, hm, by omega, by omega, ?_⟩
  · rw [zpow_sub₀ (by norm_num), zpow_natCast]
    push_cast
    rw [mul_div_assoc]
    rfl

/-- So is an integer of twenty-four digits. -/
theorem isSingle_natCast {m : ℕ} (hm : m < 2 ^ 24) : IsSingle (m : ℚ) :=
  ⟨m, 0, hm, by omega, by omega, by rw [zpow_zero, mul_one, Int.cast_natCast]⟩

theorem isSingle_neg {q : ℚ} (h : IsSingle q) : IsSingle (-q) := by
  obtain ⟨m, e, hm, hlow, hhigh, rfl⟩ := h
  refine ⟨-m, e, by rwa [Int.natAbs_neg], hlow, hhigh, ?_⟩
  push_cast
  ring

/-- The sign of a single-precision number does not matter. -/
theorem isSingle_of_abs {q : ℚ} (h : IsSingle |q|) : IsSingle q := by
  rcases abs_choice q with habs | habs
  · rwa [habs] at h
  · rw [habs] at h
    rw [← neg_neg q]
    exact isSingle_neg h

/-- The magnitude of a value: eleven digits, scaled. -/
theorem abs_eq_scaled (w : Word) :
    ∃ s n : ℕ, s < 2 ^ 11 ∧ n ≤ 29 ∧ |fp16ToFloat w| = (s * 2 ^ n : ℕ) / 2 ^ 24 := by
  have hfrac : (fracField w).toNat < 2 ^ 10 := (fracField w).isLt
  have hexp : (expField w).toNat < 2 ^ 5 := (expField w).isLt
  by_cases hzero : (expField w).toNat = 0
  · refine ⟨(fracField w).toNat, 0, by omega, by omega, ?_⟩
    have hnonneg : (0 : ℚ) ≤ ((fracField w).toNat : ℚ) / 1024 * (1 / 16384) := by positivity
    simp only [fp16ToFloat, hzero, if_true]
    split
    · next h => simp [h]
    · split
      · rw [abs_neg, abs_of_nonneg hnonneg]
        push_cast
        ring
      · rw [abs_of_nonneg hnonneg]
        push_cast
        ring
  · by_cases hfull : (expField w).toNat = 0x1F
    · refine ⟨0, 0, by omega, by omega, ?_⟩
      simp [fp16ToFloat, hfull]
    · have hnormal : Normal w := ⟨Nat.pos_of_ne_zero hzero, by rw [exponent]; omega⟩
      obtain ⟨n, hn⟩ := Nat.exists_eq_add_of_le' hnormal.1
      have hbound := hnormal.2
      refine ⟨significand w, n, (significand_bounds hnormal.1).2, by omega, ?_⟩
      rw [fp16ToFloat_eq (Or.inr hnormal), abs_div, ← Int.cast_abs, Int.abs_eq_natAbs,
        signedMagnitude, natAbs_withSign, magnitude, hn, abs_of_pos (by norm_num)]
      push_cast
      ring

/-- The rest below the binary point has no more digits. -/
theorem mod_scaled (s n : ℕ) : ∃ r ≤ s, s * 2 ^ n % 2 ^ 24 = r * 2 ^ n := by
  rcases Nat.le_total n 24 with hle | hge
  · refine ⟨s % 2 ^ (24 - n), Nat.mod_le _ _, ?_⟩
    rw [← Nat.mul_mod_mul_right, ← Nat.pow_add, Nat.sub_add_cancel hle]
  · refine ⟨0, Nat.zero_le s, ?_⟩
    rw [Nat.zero_mul]
    exact Nat.mod_eq_zero_of_dvd (Dvd.dvd.mul_left (Nat.pow_dvd_pow 2 hge) s)

/-- **The print-out is exact.**  The value, its magnitude, the integer part cut off it, the
rest and the rest times 100 are numbers of single precision, so no `float` operation of the
print-out rounds; and the casts stay in range: `int_part` in seventeen bits and `frac_part`
below 100.
RTL: Software/matrix_accel_SW/source.c:127-131 -/
theorem printout_exact (fp16Res : Word) :
    let fVal := fp16ToFloat fp16Res
    IsSingle fVal ∧ IsSingle (absVal fVal) ∧ IsSingle (castInt (absVal fVal)) ∧
      IsSingle (absVal fVal - castInt (absVal fVal)) ∧
      IsSingle ((absVal fVal - castInt (absVal fVal)) * 100) ∧
      |intPart fVal| < 2 ^ 16 ∧ 0 ≤ fracPart fVal ∧ fracPart fVal < 100 := by
  intro fVal
  obtain ⟨s, n, hs, hn, habs⟩ := abs_eq_scaled fp16Res
  obtain ⟨r, hr, hmod⟩ := mod_scaled s n
  have hfloor : ⌊|fVal|⌋ = ((s * 2 ^ n / 2 ^ 24 : ℕ) : ℤ) := by
    rw [habs]
    exact_mod_cast Rat.floor_natCast_div_natCast (s * 2 ^ n) (2 ^ 24)
  -- both parts are whole multiples of the unit `2 ^ n / 2 ^ 24`
  have hfract : |fVal| - ⌊|fVal|⌋ = (r * 2 ^ n : ℕ) / 2 ^ 24 := by
    have hsplit : ((s * 2 ^ n : ℕ) : ℚ) =
        2 ^ 24 * ((s * 2 ^ n / 2 ^ 24 : ℕ) : ℚ) + (r * 2 ^ n : ℕ) := by
      rw [← hmod]
      exact_mod_cast (Nat.div_add_mod (s * 2 ^ n) (2 ^ 24)).symm
    rw [hfloor, habs, hsplit, Int.cast_natCast]
    ring
  have hsmall : s * 2 ^ n / 2 ^ 24 < 2 ^ 16 := by
    have hpow : 2 ^ n ≤ 2 ^ 29 := Nat.pow_le_pow_right Nat.two_pos hn
    have hmul : s * 2 ^ n ≤ s * 2 ^ 29 := Nat.mul_le_mul_left s hpow
    omega
  have hcast : castInt (absVal fVal) = ⌊|fVal|⌋ := by
    rw [absVal_eq, castInt_of_nonneg (abs_nonneg fVal)]
  rw [hcast, absVal_eq, hfract]
  have hsingle : IsSingle |fVal| := by
    rw [habs]
    exact isSingle_scaled (by omega) (by omega)
  refine ⟨isSingle_of_abs hsingle, hsingle, ?_, isSingle_scaled (by omega) (by omega), ?_, ?_,
    fracPart_nonneg fVal, ?_⟩
  · rw [hfloor, Int.cast_natCast]
    exact isSingle_natCast (by omega)
  · have htimes := isSingle_scaled (m := 100 * r) (n := n) (by omega) (by omega)
    have heq : ((r * 2 ^ n : ℕ) / 2 ^ 24 * 100 : ℚ) = (100 * r * 2 ^ n : ℕ) / 2 ^ 24 := by
      push_cast
      ring
    rwa [heq]
  · rw [Int.abs_eq_natAbs, (parts_eq fVal).1, hfloor]
    exact_mod_cast hsmall
  · rw [(parts_eq fVal).2]
    have hlt := Int.fract_lt_one |fVal|
    rw [Int.floor_lt]
    push_cast
    rw [Int.fract] at hlt
    linarith

end MatrixAccelerator.Analysis
