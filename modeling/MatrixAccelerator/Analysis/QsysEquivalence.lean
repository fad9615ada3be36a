import MatrixAccelerator.Analysis.DriverRun
import MatrixAccelerator.Analysis.QsysRun

/-!
# The two copies of the accelerator

A history is a list of complete runs, the same loads and START for both copies, each copy
waiting for its own `ctrl_done`.  After every run the root copy shows the product of the
operands, and the Qsys copy the same fold begun at what its accumulators were left with
(`complete_run`).  So the two agree on a history exactly if these residues never show
(`copies_agree_iff`); on one run after reset they do, and on a second run they need not.
-/

set_option autoImplicit false

namespace MatrixAccelerator.Analysis

open MatrixAccelerator.Library MatrixAccelerator.Model MatrixAccelerator.Interface

variable {N : ℕ}

/-- The bus cycles of one run on both copies: whatever precedes START, START, and the wait
of each copy. -/
structure CompleteRun where
  loads : List AvsCycle
  start : AvsCycle
  rootWait : List AvsCycle
  qsysWait : List AvsCycle

namespace CompleteRun

/-- The root copy after the run. -/
def root (r : CompleteRun) (s : MatrixAccelTop N) : MatrixAccelTop N :=
  run MatrixAccelTop.step s (r.loads ++ r.start :: r.rootWait)

/-- The Qsys copy after the run. -/
def qsys (r : CompleteRun) (q : Qsys.MatrixAccelTop N) : Qsys.MatrixAccelTop N :=
  run Qsys.MatrixAccelTop.step q (r.loads ++ r.start :: r.qsysWait)

/-- The operand memory A at the START. -/
def loadedA (r : CompleteRun) (A : Fin (N * N) → Word) : Fin (N * N) → Word :=
  r.loads.foldl (fun mem bus => MatrixAccelTop.writeA bus mem) A

/-- The operand memory B at the START. -/
def loadedB (r : CompleteRun) (B : Fin (N * N) → Word) : Fin (N * N) → Word :=
  r.loads.foldl (fun mem bus => MatrixAccelTop.writeB bus mem) B

/-- One START, no window write after it, and `ctrl_done` set in both copies at the end. -/
structure Legal (r : CompleteRun) (s : MatrixAccelTop N) (q : Qsys.MatrixAccelTop N) : Prop where
  loads : ∀ bus ∈ r.loads, bus.clrPeSig = false
  start : r.start.clrPeSig = true
  rootWait : ∀ bus ∈ r.rootWait, bus.clrPeSig = false ∧ ¬ WindowWrite N bus
  qsysWait : ∀ bus ∈ r.qsysWait, bus.clrPeSig = false ∧ ¬ WindowWrite N bus
  rootDone : (r.root s).fsm.ctrlDone = true
  qsysDone : (r.qsys q).fsm.ctrlDone = true

end CompleteRun

/-- Every run of the history is legal where it starts. -/
def LegalHistory : MatrixAccelTop N → Qsys.MatrixAccelTop N → List CompleteRun → Prop
  | _, _, [] => True
  | s, q, r :: rs => r.Legal s q ∧ LegalHistory (r.root s) (r.qsys q) rs

/-- The read access to word `i * N + j` of the C window. -/
def readC (i j : Fin N) : AvsCycle :=
  Driver.iord32Direct Driver.accelMemC ((i.val * N + j.val) * 4)

/-- What the root copy's C window reads after each run. -/
def rootResults : MatrixAccelTop N → List CompleteRun → List (Fin N → Fin N → BitVec 32)
  | _, [] => []
  | s, r :: rs => (fun i j => ((r.root s).step (readC i j)).avsReaddata) :: rootResults (r.root s) rs

/-- What the Qsys copy's C window reads after each run. -/
def qsysResults : Qsys.MatrixAccelTop N → List CompleteRun → List (Fin N → Fin N → BitVec 32)
  | _, [] => []
  | q, r :: rs => (fun i j => ((r.qsys q).step (readC i j)).avsReaddata) :: qsysResults (r.qsys q) rs

/-- In no run of the history do the accumulators `acc` left over from the runs before it
change an element of the product, when the memories held `A` and `B` before the history. -/
def ResidueHarmless (A B : Fin (N * N) → Word) (acc : Fin N → Fin N → Word) :
    List CompleteRun → Prop
  | [] => True
  | r :: rs =>
    (∀ i j, macFold (acc i j) (operands (r.loadedA A) (r.loadedB B) i j) =
        productEntry (r.loadedA A) (r.loadedB B) i j) ∧
      ResidueHarmless (r.loadedA A) (r.loadedB B)
        (fun i j => macFold (acc i j) (operands (r.loadedA A) (r.loadedB B) i j)) rs

/-- What each copy answers to a read of element `(i, j)`. -/
theorem readC_word (hN : N ≤ 32) (s : MatrixAccelTop N) (q : Qsys.MatrixAccelTop N)
    (i j : Fin N) :
    (s.step (readC i j)).avsReaddata = 0#16 ++ s.memC (cell i j) ∧
      (q.step (readC i j)).avsReaddata = 0#16 ++ (q.array i j).cOut := by
  have hsquare : N * N ≤ 0x400 := Nat.mul_le_mul hN hN
  have hcell := (cell i j).isLt
  have hj := j.isLt
  have haddr : (readC i j).address.toNat = 0xC00 + (cell i j).val :=
    (access_address (0xC00 + (cell i j).val) (by omega) 0#32 Driver.accelMemC _
      (by simp only [Driver.accelMemC, cell]; omega)).2
  refine ⟨read_cWindow s rfl haddr, ?_⟩
  have hne : (readC i j).address ≠ 0#14 := by
    intro h0
    rw [h0, BitVec.toNat_ofNat, Nat.zero_mod] at haddr
    omega
  have hwin : 0xC00 ≤ (readC i j).address.toNat ∧
      (readC i j).address.toNat < 0xC00 + N * N := by omega
  have hword : (⟨(readC i j).address.toNat - 0xC00, by omega⟩ : Fin (N * N)) = cell i j :=
    Fin.ext (by simp only; omega)
  obtain ⟨hrow, hcol⟩ := cell_inj.mp (cell_divNat_modNat (cell i j))
  have hread : (readC i j).read = true := rfl
  simp only [Qsys.MatrixAccelTop.avsReaddata, Qsys.MatrixAccelTop.step,
    Qsys.MatrixAccelTop.readdataNext, hread, if_true, if_neg hne, dif_pos hwin, hword,
    Qsys.MatrixAccelTop.memCFlat, hrow, hcol]

theorem append_zero_inj {x y : Word} (h : 0#16 ++ x = 0#16 ++ y) : x = y := by
  rw [← low_half_append x, h, low_half_append]

/-- The two copies between runs: the root copy idle, the Qsys copy at rest, the operand
memories equal. -/
structure Paired (s : MatrixAccelTop N) (q : Qsys.MatrixAccelTop N) : Prop where
  reachable : ReachableTop N s
  idle : phase s.fsm = Phase.idle
  atRest : AtRest q
  memA : s.memA = q.memA
  memB : s.memB = q.memB

/-- Out of reset the two copies hold the same words. -/
theorem reset_paired (N : ℕ) :
    Paired (MatrixAccelTop.reset N) (Qsys.MatrixAccelTop.reset N) :=
  ⟨Reachable.refl, rfl, reset_atRest N, rfl, rfl⟩

/-- The operands of a run are those its loads leave, since nothing is written after them. -/
theorem CompleteRun.operands_of_run {r : CompleteRun} (hs : r.start.clrPeSig = true)
    {wait : List AvsCycle} (hw : ∀ bus ∈ wait, bus.clrPeSig = false ∧ ¬ WindowWrite N bus)
    (A B : Fin (N * N) → Word) :
    (r.loads ++ r.start :: wait).foldl (fun mem bus => MatrixAccelTop.writeA bus mem) A =
        r.loadedA A ∧
      (r.loads ++ r.start :: wait).foldl (fun mem bus => MatrixAccelTop.writeB bus mem) B =
        r.loadedB B := by
  have hno : ∀ bus ∈ r.start :: wait, ¬ WindowWrite N bus := by
    intro bus hb
    rcases List.mem_cons.mp hb with rfl | hb
    · exact not_windowWrite_of_start hs
    · exact (hw bus hb).2
  constructor
  · rw [List.foldl_append]
    exact foldl_ignored _ _ (fun bus hb m => (write_of_not_window (hno bus hb) m).1) _
  · rw [List.foldl_append]
    exact foldl_ignored _ _ (fun bus hb m => (write_of_not_window (hno bus hb) m).2) _

/-- **One complete run of both copies.**  It leads from paired states to paired states;
the root copy then holds the product of the operands, and the Qsys copy their fold begun
at its old accumulators. -/
theorem complete_run (hN : N ≤ 84) {s : MatrixAccelTop N} {q : Qsys.MatrixAccelTop N}
    (hp : Paired s q) {r : CompleteRun} (hr : r.Legal s q) :
    Paired (r.root s) (r.qsys q) ∧
      (r.qsys q).memA = r.loadedA q.memA ∧ (r.qsys q).memB = r.loadedB q.memB ∧
      ∀ i j, (r.root s).memC (cell i j) = productEntry (r.loadedA q.memA) (r.loadedB q.memB) i j ∧
        ((r.qsys q).array i j).cOut =
          macFold (q.array i j).cOut (operands (r.loadedA q.memA) (r.loadedB q.memB) i j) := by
  have hclean := cleanPipeline_of_reachable hN (hp.reachable.run_of r.loads)
  have hidle := idle_run hN (cleanPipeline_of_reachable hN hp.reachable).wellPhased hp.idle hr.loads
  obtain ⟨hmemA, hmemB⟩ := operands_run s r.loads
  obtain ⟨hqmemA, hqmemB⟩ := qsys_operands_run q r.loads
  obtain ⟨hqcalc, -, hqgrid⟩ := qsys_idle_run hp.atRest.stateCalc hr.loads
  have hrest : AtRest (run Qsys.MatrixAccelTop.step q r.loads) :=
    ⟨hqcalc, by rw [hqgrid]; exact hp.atRest.forward, by rw [hqgrid]; exact hp.atRest.lanes⟩
  have hroot : r.root s =
      run MatrixAccelTop.step ((run MatrixAccelTop.step s r.loads).step r.start) r.rootWait :=
    run_append _ _ _ _
  have hqsys : r.qsys q = run Qsys.MatrixAccelTop.step
      ((run Qsys.MatrixAccelTop.step q r.loads).step r.start) r.qsysWait := run_append _ _ _ _
  obtain ⟨hearly, hlate⟩ := run_from_idle hN hclean hidle hr.start hr.rootWait
  obtain ⟨hqearly, hqlate⟩ := qsys_run_from_rest hN hrest hr.start hr.qsysWait
  rw [← hroot] at hearly hlate
  rw [← hqsys] at hqearly hqlate
  -- a wait that ends with the done bit is as long as the run
  have hlong : 5 * N + 4 ≤ r.rootWait.length := by
    by_contra hlt
    exact absurd hr.rootDone (by rw [hearly (by omega)]; exact Bool.false_ne_true)
  have hqlong : 3 * N + 3 ≤ r.qsysWait.length := by
    by_contra hlt
    exact absurd hr.qsysDone (by rw [hqearly (by omega)]; exact Bool.false_ne_true)
  obtain ⟨hidle', -, hmemC⟩ := hlate hlong
  obtain ⟨hrest', -, hcOut⟩ := hqlate hqlong
  obtain ⟨hendA, hendB⟩ := operands_run s (r.loads ++ r.start :: r.rootWait)
  rw [(CompleteRun.operands_of_run hr.start hr.rootWait s.memA s.memB).1, hp.memA] at hendA
  rw [(CompleteRun.operands_of_run hr.start hr.rootWait s.memA s.memB).2, hp.memB] at hendB
  obtain ⟨hqendA, hqendB⟩ := qsys_operands_run q (r.loads ++ r.start :: r.qsysWait)
  rw [(CompleteRun.operands_of_run hr.start hr.qsysWait q.memA q.memB).1] at hqendA
  rw [(CompleteRun.operands_of_run hr.start hr.qsysWait q.memA q.memB).2] at hqendB
  refine ⟨⟨hp.reachable.run_of _, hidle', hrest', hendA.trans hqendA.symm,
    hendB.trans hqendB.symm⟩, hqendA, hqendB, fun i j => ⟨?_, ?_⟩⟩
  · rw [hmemC, hmemA, hmemB, hp.memA, hp.memB]
    rfl
  · have hacc := congrArg (fun g => g.acc i j) hqgrid
    rw [hcOut, hqmemA, hqmemB]
    exact congrArg (fun acc => macFold acc _) hacc

/-- INTERNAL: Two copies in paired states agree on a history exactly if no residue shows. -/
theorem results_agree_iff (hN : N ≤ 32) {s : MatrixAccelTop N} {q : Qsys.MatrixAccelTop N}
    (hp : Paired s q) {h : List CompleteRun} (hh : LegalHistory s q h) :
    rootResults s h = qsysResults q h ↔
      ResidueHarmless q.memA q.memB (fun i j => (q.array i j).cOut) h := by
  induction h generalizing s q with
  | nil => simp [rootResults, qsysResults, ResidueHarmless]
  | cons r rs ih =>
    obtain ⟨hr, hrs⟩ := hh
    obtain ⟨hp', hmemA, hmemB, hwords⟩ := complete_run (by omega) hp hr
    have hrest := ih hp' hrs
    have hacc : (fun i j => ((r.qsys q).array i j).cOut) = fun i j =>
        macFold (q.array i j).cOut (operands (r.loadedA q.memA) (r.loadedB q.memB) i j) :=
      funext fun i => funext fun j => (hwords i j).2
    rw [hmemA, hmemB, hacc] at hrest
    have hhead : ((fun i j : Fin N => ((r.root s).step (readC i j)).avsReaddata) =
          fun i j => ((r.qsys q).step (readC i j)).avsReaddata) ↔
        ∀ i j, macFold (q.array i j).cOut (operands (r.loadedA q.memA) (r.loadedB q.memB) i j) =
          productEntry (r.loadedA q.memA) (r.loadedB q.memB) i j := by
      simp only [(readC_word hN (r.root s) (r.qsys q) _ _).1,
        (readC_word hN (r.root s) (r.qsys q) _ _).2, (hwords _ _).1, (hwords _ _).2]
      constructor
      · intro heq i j
        exact (append_zero_inj (congrFun (congrFun heq i) j)).symm
      · intro heq
        funext i j
        rw [heq i j]
    rw [rootResults, qsysResults, List.cons.injEq, ResidueHarmless, hrest, hhead]

/-- **When the two copies agree.**  On every history of complete runs after reset, the
words read from the C window after each run are the same in both copies if and only if in
no run the accumulators left over in the Qsys copy change an element of the product.
RTL: system/synthesis/submodules/matrix_accel_top_systolic_array.v:38-123,
system/synthesis/submodules/pe_fp16.v:12-32, matrix_accel_top_systolic_array.v:49-177,
pe_fp16.v:24-46 -/
theorem copies_agree_iff (N : ℕ) (hN : 1 ≤ N ∧ N ≤ 32) (h : List CompleteRun)
    (hh : LegalHistory (MatrixAccelTop.reset N) (Qsys.MatrixAccelTop.reset N) h) :
    rootResults (MatrixAccelTop.reset N) h = qsysResults (Qsys.MatrixAccelTop.reset N) h ↔
      ResidueHarmless (fun _ : Fin (N * N) => 0#16) (fun _ => 0#16) (fun _ _ => 0#16) h :=
  results_agree_iff hN.2 (reset_paired N) hh

/-- One word of A and B set to 1.0, a START, and the shortest wait of each copy, for
`N = 1`. -/
def onesRun : CompleteRun where
  loads := [Driver.iowr32Direct Driver.accelMemA 0 0x3C00#32,
    Driver.iowr32Direct Driver.accelMemB 0 0x3C00#32]
  start := Driver.startWrite
  rootWait := List.replicate 9 default
  qsysWait := List.replicate 6 default

/-- Two such runs are complete in both copies. -/
theorem onesRun_legal : LegalHistory (MatrixAccelTop.reset 1) (Qsys.MatrixAccelTop.reset 1)
    [onesRun, onesRun] := by
  refine ⟨⟨by decide, by decide, ?_, ?_, by decide, by decide⟩,
    ⟨by decide, by decide, ?_, ?_, by decide, by decide⟩, trivial⟩
  all_goals
    intro bus hb
    rw [List.eq_of_mem_replicate hb]
    exact ⟨rfl, fun hw => Bool.noConfusion hw.1⟩

/-- A driver's run of its matrices with the shortest wait of each copy, for `N = 2`. -/
def shortestRun (A B : Fin (2 * 2) → Word) : CompleteRun where
  loads := Driver.loadWrites A B
  start := Driver.startWrite
  rootWait := List.replicate 14 default
  qsysWait := List.replicate 9 default

/-- A run on small operands and one on the pair of matrices are complete in both copies. -/
theorem shortestRun_legal : LegalHistory (MatrixAccelTop.reset 2) (Qsys.MatrixAccelTop.reset 2)
    [shortestRun (fun _ => 0x2000#16) fun _ => 0x2000#16, shortestRun pairA pairB] := by
  refine ⟨⟨by decide, by decide, ?_, ?_, by decide, by decide⟩,
    ⟨by decide, by decide, ?_, ?_, by decide, by decide⟩, trivial⟩
  all_goals
    intro bus hb
    rw [List.eq_of_mem_replicate hb]
    exact ⟨rfl, fun hw => Bool.noConfusion hw.1⟩

/-- The sums of `2 ^ -7 * 2 ^ -7` that the first run leaves in the Qsys copy are lost in the
alignment of the second one. -/
theorem copies_agree_iff_absorbed :
    rootResults (MatrixAccelTop.reset 2)
        [shortestRun (fun _ => 0x2000#16) fun _ => 0x2000#16, shortestRun pairA pairB] =
      qsysResults (Qsys.MatrixAccelTop.reset 2)
        [shortestRun (fun _ => 0x2000#16) fun _ => 0x2000#16, shortestRun pairA pairB] := by
  refine (copies_agree_iff 2 (by decide) _ shortestRun_legal).mpr ⟨?_, ?_, trivial⟩
  · decide
  · decide

/-- `1.0 * 1.0` computed twice reads 1.0 in the root copy and 2.0 in the Qsys copy. -/
theorem copies_disagree :
    LegalHistory (MatrixAccelTop.reset 1) (Qsys.MatrixAccelTop.reset 1) [onesRun, onesRun] ∧
      rootResults (MatrixAccelTop.reset 1) [onesRun, onesRun] ≠
        qsysResults (Qsys.MatrixAccelTop.reset 1) [onesRun, onesRun] := by
  refine ⟨onesRun_legal, fun heq => ?_⟩
  have hsecond := ((results_agree_iff (by decide) (reset_paired 1) onesRun_legal).mp heq).2.1 0 0
  exact absurd hsecond (by decide)

end MatrixAccelerator.Analysis
