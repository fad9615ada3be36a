import MatrixAccelerator.Library.Accumulation
import MatrixAccelerator.Library.DelayLine

/-!
# The output-stationary systolic grid

An `N × N` grid of multiply-accumulate cells.  Operands of the left stream enter row
`i` behind a line of `i` registers and move right one cell an edge; operands of the top
stream enter column `j` behind a line of `j` registers and move down.  Cell `(i, j)`
accumulates in place.  Nothing here fixes the operand types or the operation.

`acc_trace` gives every accumulator after any number of edges, from any register
contents, as a fold over the operand pairs that arrived.  `acc_trace_of_clear` is the
streaming law: behind cleared registers the pairs of the two streams meet in order,
`i + j` edges late, each exactly once.  `acc_trace_of_forward_clear` says what is
accumulated when the triangles of delay registers still hold operands, and `clear_trace`
how many neutral operands flush them.  `settled` is what a cell will hold once the grid is
flushed; seen so, an edge accumulates the pair it feeds (`settled_step`).
-/

set_option autoImplicit false

namespace MatrixAccelerator.Library

open DelayLine

/-- The registers of the grid and of the two triangles of delay lines before it. -/
@[ext] structure Grid (N : ℕ) (α β γ : Type*) where
  laneA : (i : Fin N) → Fin i → α
  laneB : (j : Fin N) → Fin j → β
  right : Fin N → Fin N → α
  down : Fin N → Fin N → β
  acc : Fin N → Fin N → γ

namespace Grid

variable {N : ℕ} {α β γ : Type*}

/-- The wires of row `i`, from the end of its delay line past its last cell. -/
def rowWire (g : Grid N α β γ) (x : Fin N → α) (i : Fin N) : Fin (N + 1) → α :=
  taps (output (x i) (g.laneA i)) (g.right i)

/-- The wires of column `j`, from the end of its delay line past its last cell. -/
def colWire (g : Grid N α β γ) (y : Fin N → β) (j : Fin N) : Fin (N + 1) → β :=
  taps (output (y j) (g.laneB j)) (fun i => g.down i j)

/-- One edge: every line shifts and every cell accumulates its two input wires. -/
def step (mac : α → β → γ → γ) (g : Grid N α β γ) (xy : (Fin N → α) × (Fin N → β)) :
    Grid N α β γ where
  laneA i := shift (g.laneA i) (xy.1 i)
  laneB j := shift (g.laneB j) (xy.2 j)
  right i j := g.rowWire xy.1 i j.castSucc
  down i j := g.colWire xy.2 j i.castSucc
  acc i j := mac (g.rowWire xy.1 i j.castSucc) (g.colWire xy.2 j i.castSucc) (g.acc i j)

/-- The pair cell `(i, j)` reads on edge `t` of a run from `g` on the streams `xy`. -/
def arrived (g : Grid N α β γ) (xy : ℕ → (Fin N → α) × (Fin N → β)) (i j : Fin N) (t : ℕ) :
    α × β :=
  (carried (g.right i) (fun s => carried (g.laneA i) (fun u => (xy u).1 i) s (Fin.last _)) t
      j.castSucc,
    carried (fun i => g.down i j)
      (fun s => carried (g.laneB j) (fun u => (xy u).2 j) s (Fin.last _)) t i.castSucc)

section Trace

variable (mac : α → β → γ → γ) (g : Grid N α β γ) (xy : ℕ → (Fin N → α) × (Fin N → β))

/-- The lines of the triangles move on their own. -/
theorem laneA_trace (t : ℕ) (i : Fin N) :
    (trace (step mac) g xy t).laneA i = trace shift (g.laneA i) (fun u => (xy u).1 i) t :=
  trace_simulates (step mac) g (fun g => g.laneA i) fun _ _ => rfl

/-- Lane `j` of the columns is a delay line fed by word `j` of the stream. -/
theorem laneB_trace (t : ℕ) (j : Fin N) :
    (trace (step mac) g xy t).laneB j = trace shift (g.laneB j) (fun u => (xy u).2 j) t :=
  trace_simulates (step mac) g (fun g => g.laneB j) fun _ _ => rfl

/-- The output of a row's lane is the word carried to its end. -/
theorem output_laneA_trace (t : ℕ) (i : Fin N) :
    output ((xy t).1 i) ((trace (step mac) g xy t).laneA i) =
      carried (g.laneA i) (fun u => (xy u).1 i) t (Fin.last _) := by
  rw [laneA_trace]
  exact taps_trace (g.laneA i) (fun u => (xy u).1 i) t (Fin.last _)

/-- The output of a column's lane is the word carried to its end. -/
theorem output_laneB_trace (t : ℕ) (j : Fin N) :
    output ((xy t).2 j) ((trace (step mac) g xy t).laneB j) =
      carried (g.laneB j) (fun u => (xy u).2 j) t (Fin.last _) := by
  rw [laneB_trace]
  exact taps_trace (g.laneB j) (fun u => (xy u).2 j) t (Fin.last _)

/-- The forwarding registers of a row are a delay line behind the row's triangle line. -/
theorem right_trace (t : ℕ) (i : Fin N) :
    (trace (step mac) g xy t).right i =
      trace shift (g.right i)
        (fun s => carried (g.laneA i) (fun u => (xy u).1 i) s (Fin.last _)) t := by
  apply trace_simulates (step mac) g (fun g => g.right i)
  intro t _
  rw [← output_laneA_trace mac g xy t i]
  rfl

/-- So are those of a column, behind the column's. -/
theorem down_trace (t : ℕ) (j : Fin N) :
    (fun i => (trace (step mac) g xy t).down i j) =
      trace shift (fun i => g.down i j)
        (fun s => carried (g.laneB j) (fun u => (xy u).2 j) s (Fin.last _)) t := by
  apply trace_simulates (step mac) g (fun g i => g.down i j)
  intro t _
  rw [← output_laneB_trace mac g xy t j]
  rfl

/-- What the wire left of cell `(i, j)` shows has arrived at the cell. -/
theorem rowWire_trace (t : ℕ) (i j : Fin N) :
    (trace (step mac) g xy t).rowWire (xy t).1 i j.castSucc = (arrived g xy i j t).1 := by
  rw [rowWire, output_laneA_trace, right_trace]
  exact taps_trace (g.right i)
    (fun s => carried (g.laneA i) (fun u => (xy u).1 i) s (Fin.last _)) t j.castSucc

/-- What the wire above cell `(i, j)` shows has arrived at the cell. -/
theorem colWire_trace (t : ℕ) (i j : Fin N) :
    (trace (step mac) g xy t).colWire (xy t).2 j i.castSucc = (arrived g xy i j t).2 := by
  rw [colWire, output_laneB_trace, down_trace]
  exact taps_trace (fun i => g.down i j)
    (fun s => carried (g.laneB j) (fun u => (xy u).2 j) s (Fin.last _)) t i.castSucc

/-- **The accumulation law.**  An accumulator folds the pairs that arrive at its cell. -/
theorem acc_trace (t : ℕ) (i j : Fin N) :
    (trace (step mac) g xy t).acc i j =
      accumulate mac (g.acc i j) ((List.range t).map (arrived g xy i j)) := by
  induction t with
  | zero => rfl
  | succ t ih =>
    have hcell : (trace (step mac) g xy (t + 1)).acc i j =
        mac ((trace (step mac) g xy t).rowWire (xy t).1 i j.castSucc)
          ((trace (step mac) g xy t).colWire (xy t).2 j i.castSucc)
          ((trace (step mac) g xy t).acc i j) := rfl
    rw [hcell, rowWire_trace, colWire_trace, ih, List.range_succ, List.map_append,
      List.map_singleton, accumulate_concat]

end Trace

section Clear

variable {mac : α → β → γ → γ} {z : α} {w : β} {g : Grid N α β γ}
  {xy : ℕ → (Fin N → α) × (Fin N → β)} {i j : Fin N}

/-- The forwarding registers hold nothing but the neutral operands. -/
structure ForwardClear (g : Grid N α β γ) (z : α) (w : β) : Prop where
  right : ∀ i j, g.right i j = z
  down : ∀ i j, g.down i j = w

/-- The triangles hold nothing but the neutral operands. -/
structure LanesClear (g : Grid N α β γ) (z : α) (w : β) : Prop where
  laneA : ∀ i k, g.laneA i k = z
  laneB : ∀ j k, g.laneB j k = w

/-- From `i + j` edges on, cell `(i, j)` reads what entered both streams `i + j` edges
ago. -/
theorem arrived_add (g : Grid N α β γ) (xy : ℕ → (Fin N → α) × (Fin N → β)) (i j : Fin N)
    (s : ℕ) : arrived g xy i j (i.val + j.val + s) = ((xy s).1 i, (xy s).2 j) := by
  have hi := i.isLt
  have hj := j.isLt
  simp only [arrived, carried, Fin.val_castSucc, Fin.val_last]
  rw [dif_neg (by omega), dif_neg (by omega), dif_neg (by omega), dif_neg (by omega),
    show i.val + j.val + s - j.val - i.val = s by omega,
    show i.val + j.val + s - i.val - j.val = s by omega]

/-- Before that, one of the two wires is still clear, or both show what their triangle
line held at the same distance from its end. -/
theorem arrived_of_lt (xy : ℕ → (Fin N → α) × (Fin N → β)) (h : ForwardClear g z w) {s : ℕ}
    (hs : s < i.val + j.val) :
    ((arrived g xy i j s).1 = z ∨ (arrived g xy i j s).2 = w) ∨
      ∃ (m : ℕ) (ha : m < i.val) (hb : m < j.val), m = i.val + j.val - 1 - s ∧
        arrived g xy i j s = (g.laneA i ⟨m, ha⟩, g.laneB j ⟨m, hb⟩) := by
  have hi := i.isLt
  have hj := j.isLt
  by_cases hsj : s < j.val
  · left; left
    simp only [arrived, carried, Fin.val_castSucc]
    rw [dif_pos hsj, h.right]
  by_cases hsi : s < i.val
  · left; right
    simp only [arrived, carried, Fin.val_castSucc]
    rw [dif_pos hsi, h.down]
  · right
    refine ⟨i.val + j.val - 1 - s, by omega, by omega, rfl, ?_⟩
    simp only [arrived, carried, Fin.val_castSucc, Fin.val_last]
    rw [dif_neg hsj, dif_pos (by omega), dif_neg hsi, dif_pos (by omega)]
    congr 3 <;> omega

/-- From a clear grid nothing that counts arrives before `i + j` edges. -/
theorem arrived_of_clear (h : ForwardClear g z w) (hl : LanesClear g z w) {s : ℕ}
    (hs : s < i.val + j.val) :
    (arrived g xy i j s).1 = z ∨ (arrived g xy i j s).2 = w := by
  rcases arrived_of_lt xy h hs with h' | ⟨m, ha, hb, -, h'⟩
  · exact h'
  · exact Or.inl (by rw [h']; exact hl.laneA i ⟨m, ha⟩)

/-- **The streaming law.**  Behind cleared registers, after `t` edges cell `(i, j)` has
accumulated the first `t - (i + j)` pairs of row stream `i` and column stream `j`. -/
theorem acc_trace_of_clear (xy : ℕ → (Fin N → α) × (Fin N → β)) (i j : Fin N)
    (hn : NeutralOperands mac z w) (h : ForwardClear g z w) (hl : LanesClear g z w) (t : ℕ) :
    (trace (step mac) g xy t).acc i j =
      accumulate mac (g.acc i j)
        ((List.range (t - (i.val + j.val))).map fun s => ((xy s).1 i, (xy s).2 j)) := by
  rw [acc_trace]
  rcases Nat.le_total t (i.val + j.val) with ht | ht
  · rw [Nat.sub_eq_zero_of_le ht, List.range_zero, List.map_nil, accumulate_nil]
    apply hn.accumulate_eq
    intro p hp
    obtain ⟨s, hs, rfl⟩ := List.mem_map.mp hp
    exact arrived_of_clear h hl (lt_of_lt_of_le (List.mem_range.mp hs) ht)
  · conv_lhs => rw [← Nat.add_sub_cancel' ht]
    rw [hn.accumulate_range_add _ _ _ (fun s hs => arrived_of_clear h hl hs)]
    simp only [arrived_add]

/-- **The flushing law.**  Once both streams have shown the neutral operands for `2 * N`
edges, nothing else is left outside the accumulators. -/
theorem clear_trace (mac : α → β → γ → γ) (g : Grid N α β γ)
    (xy : ℕ → (Fin N → α) × (Fin N → β)) {K t : ℕ}
    (hxy : ∀ s, K ≤ s → s < t → ∀ k, (xy s).1 k = z ∧ (xy s).2 k = w)
    (ht : K + 2 * N ≤ t) :
    ForwardClear (trace (step mac) g xy t) z w ∧ LanesClear (trace (step mac) g xy t) z w := by
  refine ⟨⟨fun i j => ?_, fun i j => ?_⟩, ⟨fun i k => ?_, fun j k => ?_⟩⟩
  · have hi := i.isLt
    have hj := j.isLt
    rw [right_trace, trace_apply, dif_neg (by omega)]
    simp only [carried, Fin.val_last]
    rw [dif_neg (by omega)]
    exact (hxy _ (by omega) (by omega) i).1
  · have hi := i.isLt
    have hj := j.isLt
    rw [congrFun (down_trace mac g xy t j) i, trace_apply, dif_neg (by omega)]
    simp only [carried, Fin.val_last]
    rw [dif_neg (by omega)]
    exact (hxy _ (by omega) (by omega) j).2
  · have hi := i.isLt
    have hk := k.isLt
    rw [laneA_trace, trace_apply, dif_neg (by omega)]
    exact (hxy _ (by omega) (by omega) i).1
  · have hj := j.isLt
    have hk := k.isLt
    rw [laneB_trace, trace_apply, dif_neg (by omega)]
    exact (hxy _ (by omega) (by omega) j).2

/-- The pairs the two triangle lines of cell `(i, j)` hold at equal distance from their
inputs, the oldest first. -/
def lanePairs (g : Grid N α β γ) (i j : Fin N) : List (α × β) :=
  List.ofFn fun m : Fin (min i.val j.val) =>
    (g.laneA i ⟨min i.val j.val - 1 - m.val, by omega⟩,
      g.laneB j ⟨min i.val j.val - 1 - m.val, by omega⟩)

/-- **Restart over filled triangles.**  With only the forwarding registers clear, cell
`(i, j)` first accumulates the pairs its two triangle lines hold, then the streams. -/
theorem acc_trace_of_forward_clear (xy : ℕ → (Fin N → α) × (Fin N → β)) (i j : Fin N)
    (hn : NeutralOperands mac z w) (h : ForwardClear g z w) (K : ℕ) :
    (trace (step mac) g xy (i.val + j.val + K)).acc i j =
      accumulate mac (g.acc i j)
        (g.lanePairs i j ++ (List.range K).map fun s => ((xy s).1 i, (xy s).2 j)) := by
  have hij : i.val + j.val = max i.val j.val + min i.val j.val := by omega
  rw [acc_trace, List.range_add, List.map_append, accumulate_append, accumulate_append,
    List.map_map]
  have hstream : (arrived g xy i j ∘ fun x => i.val + j.val + x) =
      fun s => ((xy s).1 i, (xy s).2 j) := funext fun s => arrived_add g xy i j s
  rw [hstream]
  congr 1
  -- the first `max i j` edges read a clear wire, the other `min i j` the lane contents
  rw [hij, hn.accumulate_range_add]
  · congr 1
    rw [lanePairs]
    apply List.ext_getElem (by simp)
    intro m hm hm'
    have hmin : m < min i.val j.val := by simpa using hm
    rw [List.getElem_map, List.getElem_range, List.getElem_ofFn]
    simp only [arrived, carried, Fin.val_castSucc, Fin.val_last]
    rw [dif_neg (by omega), dif_pos (by omega), dif_neg (by omega), dif_pos (by omega)]
    congr 3 <;> omega
  · intro s hs
    have hlt : s < i.val + j.val := by omega
    rcases arrived_of_lt xy h hlt with h' | ⟨m, ha, hb, hm, -⟩
    · exact h'
    · omega

end Clear

/-! ## What a cell settles to -/

section Settle

variable (mac : α → β → γ → γ) (z : α) (w : β) {g : Grid N α β γ} {i j : Fin N}

/-- What cell `(i, j)` holds once all that is on its way to it has met there, if nothing but
the neutral operands follows. -/
def settled (g : Grid N α β γ) (i j : Fin N) : γ :=
  (trace (step mac) g (fun _ => (fun _ => z, fun _ => w)) (i.val + j.val)).acc i j

/-- What reaches cell `(i, j)` within `i + j` edges is in the grid already. -/
theorem arrived_congr (g : Grid N α β γ) (xy xy' : ℕ → (Fin N → α) × (Fin N → β)) {t : ℕ}
    (ht : t < i.val + j.val) : arrived g xy i j t = arrived g xy' i j t := by
  have hi := i.isLt
  have hj := j.isLt
  simp only [arrived, carried, Fin.val_castSucc, Fin.val_last]
  apply Prod.ext
  · by_cases htj : t < j.val
    · simp only [dif_pos htj]
    · simp only [dif_neg htj, dif_pos (show t - j.val < i.val by omega)]
  · by_cases hti : t < i.val
    · simp only [dif_pos hti]
    · simp only [dif_neg hti, dif_pos (show t - i.val < j.val by omega)]

/-- **One edge, settled.**  An edge accumulates the pair that it feeds: the lines between the
feeder and the cell do not show. -/
theorem settled_step (xy : (Fin N → α) × (Fin N → β)) :
    settled mac z w (step mac g xy) i j = mac (xy.1 i) (xy.2 j) (settled mac z w g i j) := by
  -- the fed pair, and then the neutral operands
  let fed : ℕ → (Fin N → α) × (Fin N → β) :=
    fun t => if t = 0 then xy else (fun _ => z, fun _ => w)
  have hfirst : settled mac z w (step mac g xy) i j =
      (trace (step mac) g fed (i.val + j.val + 1)).acc i j := by
    rw [trace_succ']
    rfl
  have hbefore : (List.range (i.val + j.val)).map (arrived g fed i j) =
      (List.range (i.val + j.val)).map (arrived g (fun _ => (fun _ => z, fun _ => w)) i j) := by
    apply List.map_congr_left
    intro t ht
    exact arrived_congr g _ _ (List.mem_range.mp ht)
  have hlast : arrived g fed i j (i.val + j.val) = (xy.1 i, xy.2 j) := arrived_add g fed i j 0
  rw [hfirst, acc_trace, List.range_succ, List.map_append, List.map_singleton, accumulate_concat,
    hbefore, hlast, settled, acc_trace]

variable {mac z w}

/-- **A cleared array, settled.**  Only the pairs in the two triangle lines are left. -/
theorem settled_of_forwardClear (hn : NeutralOperands mac z w) (h : ForwardClear g z w) :
    settled mac z w g i j = accumulate mac (g.acc i j) (g.lanePairs i j) := by
  have hflush := acc_trace_of_forward_clear (fun _ => (fun _ => z, fun _ => w)) i j hn h 0
  rwa [Nat.add_zero, List.range_zero, List.map_nil, List.append_nil] at hflush

/-- **Nothing on its way.**  Behind a row that shows nothing but the neutral operand left of
the cell, the accumulator is what it settles to. -/
theorem settled_of_row_clear (hn : NeutralOperands mac z w) (hlane : ∀ k, g.laneA i k = z)
    (hright : ∀ k : Fin N, k.val < j.val → g.right i k = z) :
    settled mac z w g i j = g.acc i j := by
  rw [settled, acc_trace]
  apply hn.accumulate_eq
  intro p hp
  obtain ⟨t, -, rfl⟩ := List.mem_map.mp hp
  left
  simp only [arrived, carried, Fin.val_castSucc, Fin.val_last]
  split
  · exact hright _ (show j.val - 1 - t < j.val by omega)
  · split
    · exact hlane _
    · rfl

/-- **The lanes remember.**  Triangle lines that have seen the streams `x` and `y` for `n`
edges hold side by side the last `min i j` pairs of these. -/
theorem accumulate_lanePairs (hn : NeutralOperands mac z w) {x : ℕ → α} {y : ℕ → β} {n : ℕ}
    (hA : ∀ k : Fin i.val, g.laneA i k = if k.val < n then x (n - 1 - k.val) else z)
    (hB : ∀ k : Fin j.val, g.laneB j k = if k.val < n then y (n - 1 - k.val) else w) (acc : γ) :
    accumulate mac acc (g.lanePairs i j) =
      accumulate mac acc
        (((List.range n).drop (n - min i.val j.val)).map fun t => (x t, y t)) := by
  -- the lines are read from their far ends, of which the first have seen nothing yet
  let seen : ℕ → α × β := fun m =>
    if min i.val j.val - 1 - m < n then
      (x (n - 1 - (min i.val j.val - 1 - m)), y (n - 1 - (min i.val j.val - 1 - m)))
    else (z, w)
  have hlines : g.lanePairs i j =
      (List.range (min i.val j.val - n + (n - (n - min i.val j.val)))).map seen := by
    apply List.ext_getElem
    · rw [lanePairs, List.length_ofFn, List.length_map, List.length_range]
      omega
    · intro m _ _
      simp only [lanePairs, List.getElem_ofFn, List.getElem_map, List.getElem_range, hA, hB, seen]
      split <;> rfl
  rw [hlines, hn.accumulate_range_add]
  · congr 1
    apply List.ext_getElem (by simp)
    intro m hm _
    rw [List.length_map, List.length_range] at hm
    simp only [List.getElem_map, List.getElem_range, List.getElem_drop, seen]
    rw [if_pos (by omega)]
    congr 2 <;> omega
  · intro m hm
    left
    simp only [seen]
    rw [if_neg (by omega)]

end Settle

end Grid

end MatrixAccelerator.Library
