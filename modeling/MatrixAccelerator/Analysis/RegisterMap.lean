import MatrixAccelerator.Analysis.StartRuns
import Mathlib.Data.List.GetD

/-!
# The operand memories along a run

`mem_A` and `mem_B` are written by the bus alone, so after any run they are the fold of
the bus cycles over their contents before it, whatever phase the machine is in.  While no
cycle writes them, a run computes the product of what they hold (`run_from_idle`).
-/

set_option autoImplicit false

namespace MatrixAccelerator.Analysis

open MatrixAccelerator.Library MatrixAccelerator.Model MatrixAccelerator.Interface

variable {N : ℕ}

/-- The cycle writes a word of the A or of the B window. -/
def WindowWrite (N : ℕ) (bus : AvsCycle) : Prop :=
  bus.write = true ∧
    (0x400 ≤ bus.address.toNat ∧ bus.address.toNat < 0x400 + N * N ∨
      0x800 ≤ bus.address.toNat ∧ bus.address.toNat < 0x800 + N * N)

/-- A cycle that writes no window leaves both operand memories alone. -/
theorem write_of_not_window {bus : AvsCycle} (h : ¬ WindowWrite N bus)
    (mem : Fin (N * N) → Word) :
    MatrixAccelTop.writeA bus mem = mem ∧ MatrixAccelTop.writeB bus mem = mem := by
  constructor
  · exact dif_neg fun hw => h ⟨hw.1, Or.inl hw.2⟩
  · exact dif_neg fun hw => h ⟨hw.1, Or.inr hw.2.2⟩

/-- A START writes no window. -/
theorem not_windowWrite_of_start {bus : AvsCycle} (h : bus.clrPeSig = true) :
    ¬ WindowWrite N bus := by
  simp only [AvsCycle.clrPeSig, Bool.and_eq_true, decide_eq_true_eq] at h
  rintro ⟨-, hwin⟩
  rw [h.1.2, BitVec.toNat_ofNat, Nat.zero_mod] at hwin
  omega

/-- The operand memories take the writes of the bus and nothing else. -/
theorem operands_run (s : MatrixAccelTop N) (l : List AvsCycle) :
    (run MatrixAccelTop.step s l).memA =
        l.foldl (fun mem bus => MatrixAccelTop.writeA bus mem) s.memA ∧
      (run MatrixAccelTop.step s l).memB =
        l.foldl (fun mem bus => MatrixAccelTop.writeB bus mem) s.memB :=
  ⟨(List.foldl_hom MatrixAccelTop.memA fun _ _ => rfl).symm,
    (List.foldl_hom MatrixAccelTop.memB fun _ _ => rfl).symm⟩

/-- Without a write to a window the operands stay. -/
theorem operands_trace_const (s : MatrixAccelTop N) {traffic : ℕ → AvsCycle} {t : ℕ}
    (h : ∀ u < t, ¬ WindowWrite N (traffic u)) :
    (topTrace s traffic t).memA = s.memA ∧ (topTrace s traffic t).memB = s.memB := by
  constructor
  · apply trace_const MatrixAccelTop.step s MatrixAccelTop.memA
    exact fun u hu => (write_of_not_window (h u hu) _).1
  · apply trace_const MatrixAccelTop.step s MatrixAccelTop.memB
    exact fun u hu => (write_of_not_window (h u hu) _).2

/-- What holds of a list and of the default cycle holds at every place. -/
theorem forall_getD {P : AvsCycle → Prop} (hd : P default) {l : List AvsCycle}
    (hl : ∀ bus ∈ l, P bus) (t : ℕ) : P (l.getD t default) := by
  by_cases ht : t < l.length
  · rw [List.getD_eq_getElem _ _ ht]
    exact hl _ (List.getElem_mem ht)
  · rw [List.getD_eq_default _ _ (Nat.le_of_not_lt ht)]
    exact hd

/-- A list without a START is a stream without one. -/
theorem noStart_getD {l : List AvsCycle} (hl : ∀ bus ∈ l, bus.clrPeSig = false) (n : ℕ) :
    NoStart (fun t => l.getD t default) n := fun t _ =>
  forall_getD (P := fun bus => bus.clrPeSig = false) rfl hl t

/-- Without a START an idle accelerator stays idle. -/
theorem idle_run (hN : N ≤ 84) {s : MatrixAccelTop N} (h : WellPhased N s.fsm)
    (hp : phase s.fsm = Phase.idle) {l : List AvsCycle} (hl : ∀ bus ∈ l, bus.clrPeSig = false) :
    phase (run MatrixAccelTop.step s l).fsm = Phase.idle := by
  rw [run_eq_trace]
  exact phase_idle_trace hN h hp (noStart_getD hl l.length)

/-- **A run from idle over fixed operands.**  After a START in idle, cycles without a START
and without a window write lead to `ctrl_done` from edge `5 * N + 4` on and not before, with
the product in `mem_C` and the machine idle again. -/
theorem run_from_idle (hN : N ≤ 84) {s : MatrixAccelTop N} (h : CleanPipeline s)
    (hp : phase s.fsm = Phase.idle) {e0 : AvsCycle} (he0 : e0.clrPeSig = true)
    {l : List AvsCycle} (hl : ∀ bus ∈ l, bus.clrPeSig = false ∧ ¬ WindowWrite N bus) :
    (l.length < 5 * N + 4 → (run MatrixAccelTop.step (s.step e0) l).fsm.ctrlDone = false) ∧
      (5 * N + 4 ≤ l.length →
        phase (run MatrixAccelTop.step (s.step e0) l).fsm = Phase.idle ∧
        (run MatrixAccelTop.step (s.step e0) l).fsm.ctrlDone = true ∧
        ∀ i j, (run MatrixAccelTop.step (s.step e0) l).memC (cell i j) =
          productEntry s.memA s.memB i j) := by
  have hcycle : ∀ t, (l.getD t default).clrPeSig = false ∧ ¬ WindowWrite N (l.getD t default) :=
    forall_getD (P := fun bus => bus.clrPeSig = false ∧ ¬ WindowWrite N bus)
      ⟨rfl, fun hw => Bool.noConfusion hw.1⟩ hl
  have hq := noStart_getD fun bus hb => (hl bus hb).1
  obtain ⟨hstart, hcleared⟩ := start_of_idle hN h hp he0
  have hwell := (h.step hN e0).wellPhased
  obtain ⟨hend, hdone, hbefore, hmem⟩ := run_completes hN hwell hstart (hq _)
  simp only [Nat.sub_zero] at hend hdone hbefore hmem
  rw [run_eq_trace]
  constructor
  · intro hlt
    exact (hbefore _ hlt).2.trans hcleared
  · intro hge
    obtain ⟨d, hd⟩ := Nat.exists_eq_add_of_le hge
    obtain ⟨hidle, hset, hkept⟩ := idle_holds hN
      (wellPhased_trace hN hwell (fun t => l.getD t default) (5 * N + 4)) hend
      (NoStart.shift (hq (5 * N + 4 + d)))
    rw [hd, trace_add]
    refine ⟨hidle, hset.trans hdone, fun i j => ?_⟩
    have hheld : ∀ u, (topTrace (s.step e0) (fun t => l.getD t default) u).memA = s.memA ∧
        (topTrace (s.step e0) (fun t => l.getD t default) u).memB = s.memB := by
      intro u
      have hstep := write_of_not_window (N := N) (not_windowWrite_of_start he0)
      exact ⟨(operands_trace_const _ fun t _ => (hcycle t).2).1.trans (hstep _).1,
        (operands_trace_const _ fun t _ => (hcycle t).2).2.trans (hstep _).2⟩
    rw [hkept, hmem, macFold_of_idle_start hN h hp he0 (hq _)]
    simp only [hheld]
    rfl

end MatrixAccelerator.Analysis
