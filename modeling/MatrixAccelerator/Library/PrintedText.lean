import Mathlib.Data.List.Basic

/-!
# Reading a printed text back

A text is read by cutting it at its blanks and reading the digits of its words.  Numerals
may be padded with blanks or zeros, and may be in any base with any shape of digits.
-/

set_option autoImplicit false

namespace MatrixAccelerator.Library

/-! ## Words -/

section Words

variable {α : Type*} (blank : α → Bool)

/-- The words of a text that follows the letters `word` of a word begun. -/
def wordsFrom (word : List α) : List α → List (List α)
  | [] => if word.isEmpty then [] else [word]
  | c :: text =>
    if blank c then (if word.isEmpty then [] else [word]) ++ wordsFrom [] text
    else wordsFrom (word ++ [c]) text

/-- The words of a text. -/
def wordsOf (text : List α) : List (List α) := wordsFrom blank [] text

/-- Letters before a text join the word that has been begun. -/
theorem wordsFrom_append {word w : List α} (hw : ∀ c ∈ w, blank c = false) (text : List α) :
    wordsFrom blank word (w ++ text) = wordsFrom blank (word ++ w) text := by
  induction w generalizing word with
  | nil => rw [List.nil_append, List.append_nil]
  | cons c w ih =>
    have hc := hw c List.mem_cons_self
    rw [List.cons_append, wordsFrom, if_neg (Bool.eq_false_iff.mp hc),
      ih fun d hd => hw d (List.mem_cons_of_mem c hd), List.append_assoc, List.singleton_append]

/-- A leading blank is skipped. -/
theorem wordsOf_blank {c : α} (hc : blank c = true) (text : List α) :
    wordsOf blank (c :: text) = wordsOf blank text := by
  rw [wordsOf, wordsFrom, if_pos hc]
  rfl

/-- A word ends at the blank after it. -/
theorem wordsOf_word {w : List α} (hw : ∀ c ∈ w, blank c = false) (hne : w ≠ []) {c : α}
    (hc : blank c = true) (text : List α) :
    wordsOf blank (w ++ c :: text) = w :: wordsOf blank text := by
  have hempty : ¬ w.isEmpty = true := fun h => hne (List.isEmpty_iff.mp h)
  rw [wordsOf, wordsFrom_append blank hw, List.nil_append, wordsFrom, if_pos hc, if_neg hempty]
  rfl

/-- Padding with blanks is skipped. -/
theorem wordsOf_leftpad {c : α} (hc : blank c = true) (n : ℕ) (w text : List α) :
    wordsOf blank (List.leftpad n c w ++ text) = wordsOf blank (w ++ text) := by
  rw [List.leftpad, List.append_assoc]
  induction n - w.length with
  | zero => rfl
  | succ k ih => rw [List.replicate_succ, List.cons_append, wordsOf_blank blank hc, ih]

/-- A text made of pieces has the words of the pieces, if each piece ends a word. -/
theorem wordsOf_flatMap {β : Type*} {piece : β → List α} {words : β → List (List α)}
    (h : ∀ x text, wordsOf blank (piece x ++ text) = words x ++ wordsOf blank text) (l : List β)
    (text : List α) :
    wordsOf blank (l.flatMap piece ++ text) = l.flatMap words ++ wordsOf blank text := by
  induction l with
  | nil => rfl
  | cons x l ih =>
    rw [List.flatMap_cons, List.flatMap_cons, List.append_assoc, h, ih, List.append_assoc]

end Words

/-! ## Numerals -/

section Numerals

variable (value : Char → ℕ) (b : ℕ)

/-- The number the digits stand for in base `b`. -/
def readDigits (l : List Char) : ℕ := l.foldl (fun n c => b * n + value c) 0

/-- The last digit counts once, the ones before it `b` times as much. -/
theorem readDigits_append (l : List Char) (c : Char) :
    readDigits value b (l ++ [c]) = b * readDigits value b l + value c := by
  rw [readDigits, List.foldl_append]
  rfl

/-- **The numeral rule.**  A numeral reads back as its number, in whatever shape its digits
are printed. -/
theorem readDigits_toDigits {value : Char → ℕ} {b : ℕ} {shape : Char → Char} (hb : 1 < b)
    (hvalue : ∀ d < b, value (shape d.digitChar) = d) (n : ℕ) :
    readDigits value b ((Nat.toDigits b n).map shape) = n := by
  induction n using Nat.strongRecOn with
  | ind n ih =>
    rcases Nat.lt_or_ge n b with hlt | hge
    · rw [Nat.toDigits_of_lt_base hlt, List.map_singleton, readDigits, List.foldl_cons,
        List.foldl_nil, hvalue n hlt, Nat.mul_zero, Nat.zero_add]
    · have hpos : 0 < n := Nat.lt_of_lt_of_le (Nat.lt_of_succ_lt hb) hge
      rw [Nat.toDigits_of_base_le hb hge, List.map_append, List.map_singleton, readDigits_append,
        ih (n / b) (Nat.div_lt_self hpos hb), hvalue _ (Nat.mod_lt n (Nat.lt_of_succ_lt hb)),
        Nat.div_add_mod]

/-- Padding with zeros does not change the number read. -/
theorem readDigits_leftpad {c : Char} (hc : value c = 0) (n : ℕ) (l : List Char) :
    readDigits value b (List.leftpad n c l) = readDigits value b l := by
  rw [List.leftpad, readDigits, List.foldl_append]
  have hzeros : ∀ k, (List.replicate k c).foldl (fun n c => b * n + value c) 0 = 0 := by
    intro k
    induction k with
    | zero => rfl
    | succ k ih => rw [List.replicate_succ, List.foldl_cons, hc, Nat.mul_zero, ih]
  rw [hzeros]
  rfl

/-- Every digit of a numeral is one of the base's. -/
theorem exists_of_mem_toDigits {b : ℕ} (hb : 1 < b) {n : ℕ} {c : Char}
    (h : c ∈ Nat.toDigits b n) : ∃ d < b, c = d.digitChar := by
  induction n using Nat.strongRecOn with
  | ind n ih =>
    rcases Nat.lt_or_ge n b with hlt | hge
    · rw [Nat.toDigits_of_lt_base hlt, List.mem_singleton] at h
      exact ⟨n, hlt, h⟩
    · have hpos : 0 < n := Nat.lt_of_lt_of_le (Nat.lt_of_succ_lt hb) hge
      rw [Nat.toDigits_of_base_le hb hge, List.mem_append, List.mem_singleton] at h
      rcases h with h | h
      · exact ih (n / b) (Nat.div_lt_self hpos hb) h
      · exact ⟨n % b, Nat.mod_lt n (Nat.lt_of_succ_lt hb), h⟩

/-- Every number has a digit. -/
theorem toDigits_ne_nil {b : ℕ} (hb : 1 < b) (n : ℕ) : Nat.toDigits b n ≠ [] := by
  rcases Nat.lt_or_ge n b with hlt | hge
  · rw [Nat.toDigits_of_lt_base hlt]
    exact List.cons_ne_nil _ _
  · rw [Nat.toDigits_of_base_le hb hge]
    exact List.append_ne_nil_of_right_ne_nil _ (List.cons_ne_nil _ _)

end Numerals

end MatrixAccelerator.Library
