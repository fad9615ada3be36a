import MatrixAccelerator.Library.LatestWrite
import MatrixAccelerator.Model.Top

/-!
# The register map as a store

The windows of A and B are as long as the matrices, and their bases are fixed 1024 words
apart.  Beyond `N = 32` the first words of the B window are words of the A window too, and
the A window is decoded first: `mem_A` is a faithful store at every `N`, and `mem_B` is one
in the words that only its own window reaches, while the others never leave zero.
-/

set_option autoImplicit false

namespace MatrixAccelerator.Analysis

open MatrixAccelerator.Library MatrixAccelerator.Model

variable {N : ℕ}

/-- The cycle writes the word address `a`. -/
def writesWord (a : ℕ) (bus : AvsCycle) : Bool := bus.write && decide (bus.address.toNat = a)

/-- The low half of the last write to the word address `a`, and zero if there is none. -/
def lastWrite (l : List AvsCycle) (a : ℕ) : Word :=
  latest (writesWord a) (fun bus => bus.writedata.extractLsb' 0 16) 0#16 l

/-- After the bus cycles `l` from reset, `mem_A` and `mem_B` are what was last written to
their windows, a cycle that writes another address leaves a word alone, and only the last
writes matter, so that the order of writes to different addresses does not. -/
structure FaithfulStore (N : ℕ) (l : List AvsCycle) : Prop where
  memA : ∀ i, (run MatrixAccelTop.step (MatrixAccelTop.reset N) l).memA i =
    lastWrite l (0x400 + i.val)
  memB : ∀ i, (run MatrixAccelTop.step (MatrixAccelTop.reset N) l).memB i =
    lastWrite l (0x800 + i.val)
  frameA : ∀ bus i, writesWord (0x400 + i.val) bus = false →
    ((run MatrixAccelTop.step (MatrixAccelTop.reset N) l).step bus).memA i =
      (run MatrixAccelTop.step (MatrixAccelTop.reset N) l).memA i
  frameB : ∀ bus i, writesWord (0x800 + i.val) bus = false →
    ((run MatrixAccelTop.step (MatrixAccelTop.reset N) l).step bus).memB i =
      (run MatrixAccelTop.step (MatrixAccelTop.reset N) l).memB i
  order : ∀ l', (∀ a, lastWrite l' a = lastWrite l a) →
    (run MatrixAccelTop.step (MatrixAccelTop.reset N) l').memA =
        (run MatrixAccelTop.step (MatrixAccelTop.reset N) l).memA ∧
      (run MatrixAccelTop.step (MatrixAccelTop.reset N) l').memB =
        (run MatrixAccelTop.step (MatrixAccelTop.reset N) l).memB

/-- A cycle writes the word at an address. -/
theorem writesWord_iff (a : ℕ) (bus : AvsCycle) :
    writesWord a bus = true ↔ bus.write = true ∧ bus.address.toNat = a := by
  rw [writesWord, Bool.and_eq_true, decide_eq_true_iff]

/-- The index of a word in a window, by its address. -/
theorem eq_index_iff {base a : ℕ} (h : base ≤ a) (ha : a - base < N * N) (i : Fin (N * N)) :
    i = ⟨a - base, ha⟩ ↔ a = base + i.val := by
  rw [Fin.ext_iff]
  exact eq_comm.trans (Nat.sub_eq_iff_eq_add' h)

/-- INTERNAL: One cycle, as one word of `mem_A` sees it.
RTL: matrix_accel_top_systolic_array.v:160-161 -/
theorem writeA_apply (bus : AvsCycle) (mem : Fin (N * N) → Word) (i : Fin (N * N)) :
    MatrixAccelTop.writeA bus mem i =
      if writesWord (0x400 + i.val) bus then bus.writedata.extractLsb' 0 16 else mem i := by
  have hi := i.isLt
  unfold MatrixAccelTop.writeA
  split
  · next hwin =>
    obtain ⟨hw, hlow, hhigh⟩ := hwin
    rw [Function.update_apply]
    apply if_congr _ rfl rfl
    rw [eq_index_iff hlow, writesWord_iff]
    exact (and_iff_right hw).symm
  · next hwin =>
    rw [if_neg]
    intro hhit
    obtain ⟨hw, ha⟩ := (writesWord_iff _ _).mp hhit
    exact hwin ⟨hw, by omega, by omega⟩

/-- INTERNAL: One cycle, as one word of `mem_B` sees it.
RTL: matrix_accel_top_systolic_array.v:160-163 -/
theorem writeB_apply (bus : AvsCycle) (mem : Fin (N * N) → Word) (i : Fin (N * N)) :
    MatrixAccelTop.writeB bus mem i =
      if writesWord (0x800 + i.val) bus ∧ N * N ≤ 0x400 + i.val then
        bus.writedata.extractLsb' 0 16
      else mem i := by
  have hi := i.isLt
  unfold MatrixAccelTop.writeB
  split
  · next hwin =>
    obtain ⟨hw, hA, hlow, hhigh⟩ := hwin
    rw [Function.update_apply]
    apply if_congr _ rfl rfl
    rw [eq_index_iff hlow, writesWord_iff]
    constructor
    · intro ha
      exact ⟨⟨hw, ha⟩, by omega⟩
    · exact fun h => h.1.2
  · next hwin =>
    rw [if_neg]
    rintro ⟨hhit, hown⟩
    obtain ⟨hw, ha⟩ := (writesWord_iff _ _).mp hhit
    exact hwin ⟨hw, by omega, by omega, by omega⟩

/-- **The operand memories as stores.**  At every `N`, `mem_A` holds the last writes of its
window, and `mem_B` those of its window outside the window of A.
RTL: matrix_accel_top_systolic_array.v:150-163 -/
theorem memories_run (l : List AvsCycle) (i : Fin (N * N)) :
    (run MatrixAccelTop.step (MatrixAccelTop.reset N) l).memA i = lastWrite l (0x400 + i.val) ∧
      (run MatrixAccelTop.step (MatrixAccelTop.reset N) l).memB i =
        if N * N ≤ 0x400 + i.val then lastWrite l (0x800 + i.val) else 0#16 := by
  constructor
  · exact run_eq_latest (fun s : MatrixAccelTop N => s.memA i)
      (fun s bus => writeA_apply bus s.memA i) (MatrixAccelTop.reset N) l
  · split
    · next hown =>
      apply run_eq_latest (fun s : MatrixAccelTop N => s.memB i)
      intro s bus
      refine (writeB_apply bus s.memB i).trans ?_
      simp only [hown, and_true]
    · next hshared =>
      -- no cycle writes a word that the window of A covers
      apply Reachable.invariant (P := fun s : MatrixAccelTop N => s.memB i = 0#16) rfl ?_ ⟨l, rfl⟩
      intro s bus hs
      refine (writeB_apply bus s.memB i).trans ?_
      rw [if_neg fun h => hshared h.2, hs]

/-- A word of B is its last write, unless the A window covers it and that write was not zero. -/
theorem memB_eq_lastWrite_iff (l : List AvsCycle) (i : Fin (N * N)) :
    (run MatrixAccelTop.step (MatrixAccelTop.reset N) l).memB i = lastWrite l (0x800 + i.val) ↔
      (0x400 + i.val < N * N → lastWrite l (0x800 + i.val) = 0#16) := by
  rw [(memories_run l i).2]
  split
  · next hown => exact iff_of_true rfl fun hlt => absurd hlt (Nat.not_lt_of_le hown)
  · next hshared => exact ⟨fun h _ => h.symm, fun h => (h (Nat.lt_of_not_le hshared)).symm⟩

/-- INTERNAL: Frames and the order of writes are not affected by the overlap. -/
theorem faithfulStore_of_memB {l : List AvsCycle}
    (hB : ∀ i, (run MatrixAccelTop.step (MatrixAccelTop.reset N) l).memB i =
      lastWrite l (0x800 + i.val)) : FaithfulStore N l where
  memA i := (memories_run l i).1
  memB := hB
  frameA bus i hbus := by
    refine (writeA_apply bus _ i).trans ?_
    rw [hbus]
    rfl
  frameB bus i hbus := by
    refine (writeB_apply bus _ i).trans ?_
    rw [hbus]
    rfl
  order l' hl' := by
    constructor
    · funext i
      rw [(memories_run l' i).1, (memories_run l i).1, hl']
    · funext i
      rw [(memories_run l' i).2, (memories_run l i).2, hl']

/-- **When the register map is a faithful store.**  After any bus cycles from reset, if and
only if the windows do not overlap, or nothing but zeros was last written to the words of
the B window that the A window covers.
RTL: matrix_accel_top_systolic_array.v:150-177 -/
theorem faithful_store_iff (N : ℕ) (l : List AvsCycle) :
    FaithfulStore N l ↔ N ≤ 32 ∨
      ∀ i : Fin (N * N), 0x400 + i.val < N * N → lastWrite l (0x800 + i.val) = 0#16 := by
  constructor
  · exact fun h => Or.inr fun i => (memB_eq_lastWrite_iff l i).mp (h.memB i)
  · rintro (hN | hzero)
    · have hsmall : N * N ≤ 32 * 32 := Nat.mul_le_mul hN hN
      refine faithfulStore_of_memB fun i => (memB_eq_lastWrite_iff l i).mpr fun hshared => ?_
      omega
    · exact faithfulStore_of_memB fun i => (memB_eq_lastWrite_iff l i).mpr (hzero i)

/-- At `N = 33` a write of the first word of B is lost, and lands in `mem_A`. -/
theorem write_lost :
    0xC00 + 33 * 33 ≤ 0x4000 ∧
      (run MatrixAccelTop.step (MatrixAccelTop.reset 33)
        [⟨0x800#14, true, 0x3C00#32, false⟩]).memA ⟨0x400, by decide⟩ = 0x3C00#16 ∧
      (run MatrixAccelTop.step (MatrixAccelTop.reset 33)
        [⟨0x800#14, true, 0x3C00#32, false⟩]).memB ⟨0, by decide⟩ = 0#16 ∧
      ¬ FaithfulStore 33 [⟨0x800#14, true, 0x3C00#32, false⟩] := by
  have hwrite : lastWrite [⟨0x800#14, true, 0x3C00#32, false⟩] 0x800 = 0x3C00#16 := by decide
  refine ⟨by decide, ?_, ?_, fun h => ?_⟩
  · rw [(memories_run _ _).1]
    exact hwrite
  · rw [(memories_run _ _).2]
    rfl
  · have hmem := (memB_eq_lastWrite_iff _ _).mp (h.memB ⟨0, by decide⟩) (by decide)
    exact absurd (hwrite.symm.trans hmem) (by decide)

end MatrixAccelerator.Analysis
