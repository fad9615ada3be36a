import Mathlib.Data.List.Basic
import Mathlib.Data.List.Forall2
import Mathlib.Data.List.Nodup
import Mathlib.Data.List.Range

/-!
# Accumulating a list of operand pairs

`accumulate mac acc ps` folds a multiply-accumulate over operand pairs, oldest first.
When the operation has neutral operands, pairs that hold one of them may be dropped or
inserted anywhere; this is what makes zero padding of a data stream harmless.  Two
accumulations over related pairs are compared by what one pair preserves
(`accumulate_relates`), and a property latches if no pair loses it (`latches_iff`).
-/

set_option autoImplicit false

namespace MatrixAccelerator.Library

variable {α β γ : Type*}

/-- The accumulator after the operand pairs `ps`, taken in order. -/
def accumulate (mac : α → β → γ → γ) (acc : γ) (ps : List (α × β)) : γ :=
  ps.foldl (fun c p => mac p.1 p.2 c) acc

section Lemmas

variable (mac : α → β → γ → γ) (acc : γ)

@[simp] theorem accumulate_nil : accumulate mac acc [] = acc := rfl

@[simp] theorem accumulate_cons (p : α × β) (ps : List (α × β)) :
    accumulate mac acc (p :: ps) = accumulate mac (mac p.1 p.2 acc) ps := rfl

theorem accumulate_append (ps qs : List (α × β)) :
    accumulate mac acc (ps ++ qs) = accumulate mac (accumulate mac acc ps) qs :=
  List.foldl_append

theorem accumulate_concat (ps : List (α × β)) (p : α × β) :
    accumulate mac acc (ps ++ [p]) = mac p.1 p.2 (accumulate mac acc ps) :=
  accumulate_append mac acc ps [p]

/-- **The invariant rule of an accumulation.**  What holds of the start, and survives the
next pair of any prefix, holds at the end; the invariant sees the pairs taken so far. -/
theorem accumulate_invariant {I : List (α × β) → γ → Prop} {ps : List (α × β)} (hnil : I [] acc)
    (hstep : ∀ qs p c, qs ++ [p] <+: ps → I qs c → I (qs ++ [p]) (mac p.1 p.2 c)) :
    I ps (accumulate mac acc ps) := by
  induction ps using List.reverseRecOn with
  | nil => exact hnil
  | append_singleton ps p ih =>
    rw [accumulate_concat]
    refine hstep ps p _ List.prefix_rfl (ih fun qs q c hq => hstep qs q c ?_)
    exact hq.trans (List.prefix_append ps [p])

/-- **The two-run rule.**  Accumulations over related pairs stay related if one pair keeps
them so. -/
theorem accumulate_relates {R : γ → γ → Prop} {S : α × β → α × β → Prop} {acc' : γ}
    {ps qs : List (α × β)} (hacc : R acc acc') (hpairs : List.Forall₂ S ps qs)
    (hstep : ∀ p q c c', S p q → R c c' → R (mac p.1 p.2 c) (mac q.1 q.2 c')) :
    R (accumulate mac acc ps) (accumulate mac acc' qs) :=
  List.rel_foldl (fun c c' hc p q hpq => hstep p q c c' hpq hc) hacc hpairs

/-- Once `P` holds of an accumulator on the way, it holds of the last one. -/
def Latches (P : γ → Prop) (ps : List (α × β)) : Prop :=
  ∀ qs, qs <+: ps → P (accumulate mac acc qs) → P (accumulate mac acc ps)

/-- **The latch rule.**  A property latches over every prefix if and only if no single pair
loses it. -/
theorem latches_iff {P : γ → Prop} {ps : List (α × β)} :
    (∀ qs, qs <+: ps → Latches mac acc P qs) ↔
      ∀ qs p, qs ++ [p] <+: ps → P (accumulate mac acc qs) →
        P (mac p.1 p.2 (accumulate mac acc qs)) := by
  constructor
  · intro h qs p hp hqs
    have hlast := h (qs ++ [p]) hp qs (List.prefix_append qs [p]) hqs
    rwa [accumulate_concat] at hlast
  · intro h qs hqs rs hrs hP
    obtain ⟨ts, rfl⟩ := hrs
    induction ts using List.reverseRecOn with
    | nil => rwa [List.append_nil]
    | append_singleton ts p ih =>
      rw [← List.append_assoc] at hqs ⊢
      rw [accumulate_concat]
      exact h (rs ++ ts) p hqs (ih ((List.prefix_append (rs ++ ts) [p]).trans hqs))

end Lemmas

/-- `z` on the left or `w` on the right leaves the accumulator alone. -/
structure NeutralOperands (mac : α → β → γ → γ) (z : α) (w : β) : Prop where
  left : ∀ b c, mac z b c = c
  right : ∀ a c, mac a w c = c

namespace NeutralOperands

variable {mac : α → β → γ → γ} {z : α} {w : β}

/-- Pairs with a neutral operand leave the accumulator as it is. -/
theorem accumulate_eq (h : NeutralOperands mac z w) {ps : List (α × β)}
    (hps : ∀ p ∈ ps, p.1 = z ∨ p.2 = w) (acc : γ) : accumulate mac acc ps = acc := by
  induction ps generalizing acc with
  | nil => rfl
  | cons p ps ih =>
    have hp : mac p.1 p.2 acc = acc := by
      rcases hps p (List.mem_cons_self) with hp | hp
      · rw [hp, h.left]
      · rw [hp, h.right]
    rw [accumulate_cons, hp]
    exact ih (fun q hq => hps q (List.mem_cons_of_mem p hq)) acc

/-- Of pairs that are neutral but for one, the one counts. -/
theorem accumulate_single (h : NeutralOperands mac z w) {ι : Type*} {l : List ι} (hnodup : l.Nodup)
    {k : ι} (hk : k ∈ l) (p : ι → α × β) (hp : ∀ i ∈ l, i ≠ k → (p i).1 = z ∨ (p i).2 = w)
    (acc : γ) : accumulate mac acc (l.map p) = mac (p k).1 (p k).2 acc := by
  obtain ⟨l₁, l₂, rfl⟩ := List.append_of_mem hk
  have hapart := List.nodup_middle.mp hnodup
  rw [List.nodup_cons, List.mem_append, not_or] at hapart
  have hneutral : ∀ l' : List ι, (∀ i ∈ l', i ∈ l₁ ++ k :: l₂ ∧ i ≠ k) → ∀ acc,
      accumulate mac acc (l'.map p) = acc := by
    intro l' hl' acc
    apply h.accumulate_eq
    intro q hq
    obtain ⟨i, hi, rfl⟩ := List.mem_map.mp hq
    exact hp i (hl' i hi).1 (hl' i hi).2
  rw [List.map_append, accumulate_append, List.map_cons, accumulate_cons, hneutral, hneutral]
  · intro i hi
    exact ⟨List.mem_append_left _ hi, fun heq => hapart.1.1 (heq ▸ hi)⟩
  · intro i hi
    exact ⟨List.mem_append_right _ (List.mem_cons_of_mem k hi), fun heq => hapart.1.2 (heq ▸ hi)⟩

/-- A stream of pairs may be cut after its last pair without a neutral operand. -/
theorem accumulate_range_le (h : NeutralOperands mac z w) (p : ℕ → α × β) {m n : ℕ}
    (hmn : m ≤ n) (hp : ∀ s, m ≤ s → s < n → (p s).1 = z ∨ (p s).2 = w) (acc : γ) :
    accumulate mac acc ((List.range n).map p) = accumulate mac acc ((List.range m).map p) := by
  obtain ⟨d, rfl⟩ := Nat.exists_eq_add_of_le hmn
  rw [List.range_add, List.map_append, accumulate_append, List.map_map]
  apply h.accumulate_eq
  intro q hq
  obtain ⟨s, hs, rfl⟩ := List.mem_map.mp hq
  have := List.mem_range.mp hs
  exact hp (m + s) (by omega) (by omega)

/-- A stream that opens with neutral operands may start at its first other pair. -/
theorem accumulate_range_add (h : NeutralOperands mac z w) (p : ℕ → α × β) (d n : ℕ)
    (hp : ∀ s < d, (p s).1 = z ∨ (p s).2 = w) (acc : γ) :
    accumulate mac acc ((List.range (d + n)).map p) =
      accumulate mac acc ((List.range n).map fun s => p (d + s)) := by
  rw [List.range_add, List.map_append, accumulate_append, List.map_map]
  congr 1
  apply h.accumulate_eq
  intro q hq
  obtain ⟨s, hs, rfl⟩ := List.mem_map.mp hq
  exact hp s (List.mem_range.mp hs)

end NeutralOperands

end MatrixAccelerator.Library
