import MatrixAccelerator.Library.RoundRobin
import MatrixAccelerator.Model.CmdXbarMux
import Mathlib.Data.List.Nodup
import Mathlib.Data.List.FinRange

/-!
# The arbiter goes round

`{~request, ~request}` is added to the pointer: the carry runs from the pointer over every
place that does not ask, so the first place that does is the one the sum leaves standing.
The arbiter is the round of the library, with its pointer in one-hot form, for any number of
requesters.
-/

set_option autoImplicit false

namespace MatrixAccelerator.Analysis

open MatrixAccelerator.Library MatrixAccelerator.Model

/-! ## The adder -/

/-- The ripple-carry adder is the sum of the words, which is what a wide one is. -/
theorem arbAdder_sum {w : ℕ} (x y : BitVec w) {k : ℕ} (hk : k < w) :
    ArbAdder.sum x.getLsbD y.getLsbD k = (x + y).getLsbD k := by
  have hcout : ∀ k, ArbAdder.cout x.getLsbD y.getLsbD k = BitVec.carry (k + 1) x y false := by
    intro k
    induction k with
    | zero =>
      rw [ArbAdder.cout, BitVec.carry_succ, BitVec.carry_zero]
      cases x.getLsbD 0 <;> cases y.getLsbD 0 <;> rfl
    | succ k ih =>
      rw [ArbAdder.cout, ih, BitVec.carry_succ (k + 1)]
      cases x.getLsbD (k + 1) <;> cases y.getLsbD (k + 1) <;>
        cases BitVec.carry (k + 1) x y false <;> rfl
  rw [BitVec.getLsbD_add hk]
  cases k with
  | zero => rw [ArbAdder.sum, BitVec.carry_zero, Bool.xor_false]
  | succ k => rw [ArbAdder.sum, hcout, Bool.xor_assoc]

/-- From a single bit the carry runs over the ones behind it. -/
theorem cout_iff {a b : ℕ → Bool} {p : ℕ} (hb : ∀ k, b k = decide (k = p)) (k : ℕ) :
    ArbAdder.cout a b k = true ↔ p ≤ k ∧ ∀ j, p ≤ j → j ≤ k → a j = true := by
  induction k with
  | zero =>
    rw [ArbAdder.cout, hb, Bool.and_eq_true, decide_eq_true_eq]
    constructor
    · rintro ⟨ha, rfl⟩
      exact ⟨Nat.le_refl 0, fun j _ hj => Nat.le_zero.mp hj ▸ ha⟩
    · rintro ⟨hp, hall⟩
      exact ⟨hall 0 hp (Nat.le_refl 0), (Nat.le_zero.mp hp).symm⟩
  | succ k ih =>
    rw [ArbAdder.cout, hb, Bool.or_eq_true, Bool.and_eq_true, Bool.and_eq_true, ih,
      decide_eq_true_eq]
    -- the carry starts at bit `p` and runs on through the ones of `a`
    rcases Nat.lt_trichotomy (k + 1) p with hlt | heq | hgt
    · constructor
      · rintro (⟨_, rfl⟩ | ⟨⟨hp, _⟩, _⟩) <;> omega
      · rintro ⟨hp, _⟩
        omega
    · constructor
      · rintro (⟨ha, _⟩ | ⟨⟨hp, _⟩, _⟩)
        · refine ⟨Nat.le_of_eq heq.symm, fun j hpj hj => ?_⟩
          have hjk : j = k + 1 := by omega
          rwa [hjk]
        · omega
      · rintro ⟨_, hall⟩
        exact Or.inl ⟨hall (k + 1) (Nat.le_of_eq heq.symm) (Nat.le_refl _), heq⟩
    · have hne : decide (k + 1 = p) = false := decide_eq_false (by omega)
      rw [hne, Bool.xor_false]
      constructor
      · rintro (⟨_, heq⟩ | ⟨⟨hp, hall⟩, ha⟩)
        · omega
        · refine ⟨by omega, fun j hpj hj => ?_⟩
          rcases Nat.lt_or_eq_of_le hj with hj | rfl
          · exact hall j hpj (Nat.le_of_lt_succ hj)
          · exact ha
      · rintro ⟨_, hall⟩
        exact Or.inr ⟨⟨by omega, fun j hpj hj => hall j hpj (by omega)⟩,
          hall (k + 1) (by omega) (Nat.le_refl _)⟩

/-- Of the zeros of the addend the sum sets the first one from the bit on. -/
theorem sum_iff {a b : ℕ → Bool} {p : ℕ} (hb : ∀ k, b k = decide (k = p)) {k : ℕ}
    (hk : a k = false) :
    ArbAdder.sum a b k = true ↔ p ≤ k ∧ ∀ j, p ≤ j → j < k → a j = true := by
  cases k with
  | zero =>
    rw [ArbAdder.sum, hk, hb, Bool.false_xor, decide_eq_true_eq]
    exact ⟨fun h => ⟨Nat.le_of_eq h.symm, fun j _ hj => absurd hj (Nat.not_lt_zero j)⟩,
      fun h => (Nat.le_zero.mp h.1).symm⟩
  | succ k =>
    rw [ArbAdder.sum, hk, hb, Bool.false_xor]
    have hcout := cout_iff (a := a) hb k
    by_cases heq : k + 1 = p
    · have hfalse : ArbAdder.cout a b k = false := by
        rw [← Bool.not_eq_true, hcout]
        omega
      rw [hfalse, decide_eq_true heq]
      exact ⟨fun _ => ⟨Nat.le_of_eq heq.symm, fun j _ _ => by omega⟩, fun _ => rfl⟩
    · rw [decide_eq_false heq, Bool.false_xor, hcout]
      constructor
      · rintro ⟨hp, hall⟩
        exact ⟨by omega, fun j hpj hj => hall j hpj (Nat.le_of_lt_succ hj)⟩
      · rintro ⟨hp, hall⟩
        exact ⟨by omega, fun j hpj hj => hall j hpj (Nat.lt_succ_of_le hj)⟩

/-! ## The arbiter -/

section Arbiter

variable {n : ℕ}

/-- The arbiter whose pointer stands at `p`. -/
def pointing (p : Fin (n + 2)) : Arbitrator n := ⟨fun i => decide (i = p)⟩

/-- One edge under a round. -/
def arbStep (s : Arbitrator n) (r : Round (n + 2)) : Arbitrator n := s.step r.asks r.advance

/-- The requesters the grant vector names, where the grant is taken. -/
def granted (s : Arbitrator n) (r : Round (n + 2)) : List (Fin (n + 2)) :=
  if r.advance then (List.finRange (n + 2)).filter fun i => s.grant r.asks i else []

/-- The padded pointer has its one at the place it points to. -/
theorem padded_pointing (p : Fin (n + 2)) (k : ℕ) :
    Arbitrator.padded (pointing p).topPriorityReg k = decide (k = p.val) := by
  unfold Arbitrator.padded pointing
  split
  · exact decide_eq_decide.mpr Fin.ext_iff
  · have hp := p.isLt
    exact (decide_eq_false (by omega)).symm

/-- The doubled request repeats itself after one round. -/
theorem doubled_val (request : Fin (n + 2) → Bool) (i : Fin (n + 2)) :
    Arbitrator.doubled request i.val = request i ∧
      Arbitrator.doubled request (i.val + (n + 2)) = request i := by
  unfold Arbitrator.doubled
  have hval := Nat.mod_eq_of_lt i.isLt
  have hround : (i.val + (n + 2)) % (n + 2) = i.val := by rw [Nat.add_mod_right, hval]
  exact ⟨congrArg request (Fin.ext hval), congrArg request (Fin.ext hround)⟩

/-- The doubled vector names the first place from the pointer on that asks. -/
theorem grantDoubleVector_iff (p : Fin (n + 2)) (request : Fin (n + 2) → Bool) (k : ℕ) :
    (pointing p).grantDoubleVector request k = true ↔
      Arbitrator.doubled request k = true ∧ p.val ≤ k ∧
        ∀ j, p.val ≤ j → j < k → Arbitrator.doubled request j = false := by
  unfold Arbitrator.grantDoubleVector
  rw [Bool.and_eq_true]
  refine and_congr_right fun hk => ?_
  rw [sum_iff (padded_pointing p) (by rw [hk]; rfl)]
  simp only [Bool.not_eq_true']

/-- The grant goes to the one whose turn it is. -/
theorem grant_pointing (p : Fin (n + 2)) (request : Fin (n + 2) → Bool) (i : Fin (n + 2)) :
    (pointing p).grant request i = decide (serve p request = some i) := by
  have hspec := after_spec p i
  have hi := i.isLt
  rw [Bool.eq_iff_iff, decide_eq_true_eq, serve_eq_some_iff, Arbitrator.grant, Bool.or_eq_true,
    grantDoubleVector_iff, grantDoubleVector_iff, (doubled_val request i).1,
    (doubled_val request i).2]
  constructor
  · rintro (⟨hasks, hp, hbefore⟩ | ⟨hasks, hp, hbefore⟩)
    · exact ⟨hasks, fun d hd => hbefore (p.val + d) (by omega) (by omega)⟩
    · exact ⟨hasks, fun d hd => hbefore (p.val + d) (by omega) (by omega)⟩
  · rintro ⟨hasks, hbefore⟩
    have hfalse : ∀ j, p.val ≤ j → j < p.val + after p i →
        Arbitrator.doubled request j = false := by
      intro j hpj hj
      obtain ⟨d, rfl⟩ := Nat.exists_eq_add_of_le hpj
      exact hbefore d (by omega)
    rcases hspec with ⟨hle, hsum⟩ | ⟨hlt, hsum⟩
    · exact Or.inl ⟨hasks, hle, fun j hpj hj => hfalse j hpj (by omega)⟩
    · exact Or.inr ⟨hasks, by omega, fun j hpj hj => hfalse j hpj (by omega)⟩

/-- A grant rotated to the left is a pointer behind who is granted. -/
theorem rotated_grant (w : Fin (n + 2)) :
    Arbitrator.rotated (fun i => decide (some w = some i)) = (pointing (next w)).topPriorityReg := by
  funext i
  have hw := w.isLt
  have hi := i.isLt
  have hnext := val_next w
  unfold Arbitrator.rotated pointing
  refine decide_eq_decide.mpr ?_
  rw [Option.some.injEq, Fin.ext_iff, Fin.ext_iff]
  show w.val = (i.val + (n + 1)) % (n + 2) ↔ i.val = (next w).val
  have hmod : (i.val + (n + 1)) % (n + 2) = if i.val = 0 then n + 1 else i.val - 1 := by
    split
    · rw [‹i.val = 0›, Nat.zero_add, Nat.mod_eq_of_lt (Nat.lt_succ_self _)]
    · have hsum : i.val + (n + 1) = i.val - 1 + (n + 2) := by omega
      rw [hsum, Nat.add_mod_right, Nat.mod_eq_of_lt (by omega)]
  rw [hmod, hnext]
  split <;> split <;> omega

/-- One edge is one round. -/
theorem arbStep_pointing (p : Fin (n + 2)) (r : Round (n + 2)) :
    arbStep (pointing p) r = pointing (Round.step p r) := by
  have hgrant : (pointing p).grant r.asks = fun i => decide (serve p r.asks = some i) :=
    funext fun i => grant_pointing p r.asks i
  unfold arbStep Arbitrator.step Round.step
  rw [hgrant]
  cases r.advance with
  | false => rfl
  | true =>
    cases hserve : serve p r.asks with
    | none =>
      have hany : (List.finRange (n + 2)).any r.asks = false := by
        rw [List.any_eq_false]
        intro i _ hi
        obtain ⟨w, hw⟩ := serve_isSome (p := p) hi
        rw [hserve] at hw
        cases hw
      rw [hany]
      rfl
    | some w =>
      have hany : (List.finRange (n + 2)).any r.asks = true :=
        List.any_eq_true.mpr ⟨w, List.mem_finRange w, (serve_eq_some_iff.mp hserve).1⟩
      rw [hany, if_pos rfl, if_pos rfl, rotated_grant]
      rfl

/-- The grants of the arbiter are the turns of the round. -/
theorem granted_pointing (p : Fin (n + 2)) (r : Round (n + 2)) :
    granted (pointing p) r = Round.turn p r := by
  unfold granted Round.turn
  simp only [grant_pointing]
  cases r.advance with
  | false => rfl
  | true =>
    cases hserve : serve p r.asks with
    | none => simp
    | some w =>
      have heq : (fun i => decide (some w = some i)) = fun i => i == w := by
        funext i
        rw [beq_eq_decide]
        exact decide_eq_decide.mpr ⟨fun h => (Option.some.inj h).symm, fun h => h ▸ rfl⟩
      rw [heq, if_pos rfl, if_pos rfl, List.filter_beq, List.count_eq_one_of_mem
        (List.nodup_finRange _) (List.mem_finRange w)]
      rfl

/-- The arbiter is the round, with its pointer in one-hot form. -/
theorem trace_pointing (p : Fin (n + 2)) (input : ℕ → Round (n + 2)) (t : ℕ) :
    trace arbStep (pointing p) input t = pointing (trace Round.step p input t) := by
  induction t with
  | zero => rfl
  | succ t ih => rw [trace_succ, ih, arbStep_pointing, trace_succ]

/-- In every run of rounds the arbiter grants what the round serves. -/
theorem emitted_pointing (p : Fin (n + 2)) (input : ℕ → Round (n + 2)) (t : ℕ) :
    emitted arbStep granted (pointing p) input t = emitted Round.step Round.turn p input t := by
  induction t with
  | zero => rfl
  | succ t ih => rw [emitted, emitted, ih, trace_pointing, granted_pointing]

/-- Out of reset the arbiter points to the first requester. -/
theorem reset_eq_pointing (n : ℕ) : Arbitrator.reset n = pointing 0 :=
  congrArg Arbitrator.mk (funext fun _ => decide_eq_decide.mpr (Fin.ext_iff (b := 0)).symm)

/-- **The arbiter goes round.**  From reset on, for any number of requesters, the pointer is
one-hot at the place of the round, and the grant names exactly the first requester from it on;
who has the turns is what the round says.
RTL: system/synthesis/submodules/altera_merlin_arbitrator.sv:160-207 -/
theorem arbitrator_goes_round (n : ℕ) (input : ℕ → Round (n + 2)) (t : ℕ) :
    let s := trace arbStep (Arbitrator.reset n) input t
    let p := trace Round.step 0 input t
    (∀ i, s.topPriorityReg i = decide (i = p)) ∧
      (∀ i, s.grant (input t).asks i = true ↔ (input t).asks i = true ∧
        ∀ j, (input t).asks j = true → after p i ≤ after p j) ∧
      emitted arbStep granted (Arbitrator.reset n) input t =
        emitted Round.step Round.turn 0 input t := by
  rw [reset_eq_pointing, trace_pointing]
  refine ⟨fun i => rfl, fun i => ?_, emitted_pointing 0 input t⟩
  rw [grant_pointing, decide_eq_true_eq]
  constructor
  · exact fun h => ⟨(serve_eq_some_iff.mp h).1, fun j hj => after_serve_le h hj⟩
  · rintro ⟨hasks, hleast⟩
    obtain ⟨w, hw⟩ := serve_isSome (p := trace Round.step 0 input t) hasks
    have hle := after_serve_le hw hasks
    have hge := hleast w (serve_eq_some_iff.mp hw).1
    rwa [eq_of_after_eq (Nat.le_antisymm hge hle)]

/-- **Nobody is overtaken twice.**  From any moment on, while a requester asks and is not
granted, the grants taken go to different requesters, so they are fewer than all.
RTL: system/synthesis/submodules/altera_merlin_arbitrator.sv:160-207 -/
theorem arbitrator_overtakes_once (n : ℕ) (input : ℕ → Round (n + 2)) (t d : ℕ)
    (i : Fin (n + 2)) (hasks : ∀ u < d, (input (t + u)).asks i = true)
    (hwaits : i ∉ emitted arbStep granted (trace arbStep (Arbitrator.reset n) input t)
      (fun u => input (t + u)) d) :
    (emitted arbStep granted (trace arbStep (Arbitrator.reset n) input t)
        (fun u => input (t + u)) d).Nodup ∧
      (emitted arbStep granted (trace arbStep (Arbitrator.reset n) input t)
        (fun u => input (t + u)) d).length ≤ n + 1 := by
  rw [reset_eq_pointing, trace_pointing, emitted_pointing] at hwaits ⊢
  obtain ⟨hnodup, hlen⟩ := Round.turns_nodup hasks hwaits
  exact ⟨hnodup, Nat.le_of_lt_succ hlen⟩

/-- Three requesters that all ask: the last one sees the two others pass. -/
theorem arbitrator_overtakes_once_three :
    (emitted arbStep granted (trace arbStep (Arbitrator.reset 1)
        (fun _ => Round.mk (fun _ => true) true) 0) (fun _ => Round.mk (fun _ => true) true) 2).Nodup ∧
      (emitted arbStep granted (trace arbStep (Arbitrator.reset 1)
        (fun _ => Round.mk (fun _ => true) true) 0)
          (fun _ => Round.mk (fun _ => true) true) 2).length ≤ 2 :=
  arbitrator_overtakes_once 1 (fun _ => Round.mk (fun _ => true) true) 0 2 2
    (fun _ _ => rfl) (by decide)

end Arbiter

/-! ## The multiplexer -/

/-- The beats that pass the sinks in one cycle. -/
def beats (s : CmdXbarMux) (c : MuxCycle) : List (Fin 2 × MuxSink) :=
  ((List.finRange 2).filter fun i => (c.sink i).valid && s.sinkReady c i).map fun i => (i, c.sink i)

/-- The beat that passes the source. -/
def sourceBeats (s : CmdXbarMux) (c : MuxCycle) : List (BitVec 95) :=
  if s.srcValid c && c.srcReady then [s.srcPayload c] else []

/-- The sink whose beat is the last of a packet, or of a locked row of packets. -/
def finished (s : CmdXbarMux) (c : MuxCycle) : List (Fin 2) :=
  if s.lastCycle c then (List.finRange 2).filter s.savedGrant else []

/-- Who holds the multiplexer, and where the arbiter points: behind the holder. -/
structure Held (s : CmdXbarMux) (holder : Option (Fin 2)) (p : Fin 2) : Prop where
  grant : s.savedGrant = fun i => decide (holder = some i)
  arb : s.arb = pointing p
  idle : holder = none → s.packetInProgress = false
  behind : ∀ k, holder = some k → p = next k
  flag : s.shareCountZeroFlag = true

namespace Held

variable {s : CmdXbarMux} {holder : Option (Fin 2)} {p : Fin 2}

/-- The next grant is the one the round serves. -/
theorem nextGrant_eq (h : Held s holder p) (c : MuxCycle) :
    s.nextGrant c = fun i => decide (serve p (s.request c) = some i) := by
  unfold CmdXbarMux.nextGrant
  rw [h.arb]
  exact funext fun i => grant_pointing p _ i

/-- A free multiplexer offers nothing. -/
theorem srcValid_none (h : Held s none p) (c : MuxCycle) : s.srcValid c = false := by
  unfold CmdXbarMux.srcValid
  rw [h.grant]
  rfl

/-- A held multiplexer offers what its holder offers. -/
theorem srcValid_some {k : Fin 2} (h : Held s (some k) p) (c : MuxCycle) :
    s.srcValid c = (c.sink k).valid := by
  unfold CmdXbarMux.srcValid
  rw [h.grant]
  match k with
  | 0 => exact Bool.or_false _
  | 1 => exact Bool.false_or _

/-- The or of the two payloads is that of the holder. -/
theorem srcPayload_some {k : Fin 2} (h : Held s (some k) p) (c : MuxCycle) :
    s.srcPayload c = (c.sink k).payload := by
  unfold CmdXbarMux.srcPayload
  rw [h.grant]
  match k with
  | 0 => exact BitVec.or_zero
  | 1 => exact BitVec.zero_or

/-- Only the holder's sink is ready. -/
theorem sinkReady_eq (h : Held s holder p) (c : MuxCycle) (i : Fin 2) :
    s.sinkReady c i = (c.srcReady && decide (holder = some i)) := by
  unfold CmdXbarMux.sinkReady
  rw [h.grant]

/-- The grant is renewed in a free cycle and in a last cycle. -/
theorem updateGrant_eq (h : Held s holder p) (c : MuxCycle) :
    s.updateGrant c = ((!s.packetInProgress && !s.srcValid c) || s.lastCycle c) := by
  unfold CmdXbarMux.updateGrant
  rw [h.flag, Bool.and_true]

/-- One edge: on an update the arbiter's round decides who holds the multiplexer next. -/
theorem step (h : Held s holder p) (c : MuxCycle) :
    Held (s.step c) (if s.updateGrant c then serve p (s.request c) else holder)
      (Round.step p ⟨s.request c, s.updateGrant c⟩) := by
  have harb : (s.step c).arb = pointing (Round.step p ⟨s.request c, s.updateGrant c⟩) := by
    rw [← arbStep_pointing, ← h.arb]
    rfl
  cases hupdate : s.updateGrant c with
  | false =>
    rw [hupdate] at harb
    refine ⟨?_, harb, ?_, h.behind, ?_⟩
    · simp only [CmdXbarMux.step, hupdate, Bool.false_eq_true, if_false, h.grant]
    · rintro rfl
      rw [h.updateGrant_eq, h.srcValid_none, h.idle rfl] at hupdate
      cases hupdate
    · simp only [CmdXbarMux.step, hupdate, Bool.false_eq_true, if_false, h.flag, Bool.true_or,
        ite_self]
  | true =>
    rw [hupdate] at harb
    refine ⟨?_, harb, fun _ => ?_, fun k hk => ?_, ?_⟩
    · simp only [CmdXbarMux.step, hupdate, if_true, h.nextGrant_eq]
    · rw [h.updateGrant_eq, Bool.or_eq_true, Bool.and_eq_true, Bool.not_eq_true',
        Bool.not_eq_true'] at hupdate
      unfold CmdXbarMux.step
      rcases hupdate with ⟨hidle, hvalid⟩ | hlast
      · simp only [hidle, hvalid, Bool.false_eq_true, if_false, ite_self]
      · simp only [hlast, if_true]
    · rw [if_pos rfl] at hk
      simp only [Round.step, if_true, hk, Option.map_some, Option.getD_some]
    · simp only [CmdXbarMux.step, hupdate, if_true]

/-- Out of reset nobody holds the multiplexer. -/
theorem reset : Held CmdXbarMux.reset none 0 :=
  ⟨rfl, reset_eq_pointing 0, fun _ => rfl, fun _ hk => (nomatch hk), rfl⟩

/-- At any time of a run somebody or nobody holds it. -/
theorem trace_held (h : Held s holder p) (input : ℕ → MuxCycle) (t : ℕ) :
    ∃ holder' p', Held (trace CmdXbarMux.step s input t) holder' p' := by
  induction t with
  | zero => exact ⟨holder, p, h⟩
  | succ t ih =>
    obtain ⟨_, _, hheld⟩ := ih
    exact ⟨_, _, hheld.step (input t)⟩

/-- In every cycle what passes the source is what passes the holder's sink. -/
theorem beats_some {k : Fin 2} (h : Held s (some k) p) (c : MuxCycle) :
    beats s c = if (c.sink k).valid && c.srcReady then [(k, c.sink k)] else [] := by
  have hfilter : (fun i => (c.sink i).valid && s.sinkReady c i) =
      fun i => ((c.sink k).valid && c.srcReady) && (i == k) := by
    funext i
    rw [h.sinkReady_eq, beq_eq_decide, Bool.and_assoc]
    by_cases hik : i = k
    · rw [hik, decide_eq_true rfl, decide_eq_true rfl]
    · rw [decide_eq_false hik, decide_eq_false fun heq => hik (Option.some.inj heq).symm]
      simp only [Bool.and_false]
  unfold beats
  rw [hfilter]
  cases (c.sink k).valid && c.srcReady with
  | false => simp
  | true => match k with
    | 0 => rfl
    | 1 => rfl

/-- Nothing passes a free multiplexer. -/
theorem beats_none (h : Held s none p) (c : MuxCycle) : beats s c = [] := by
  unfold beats
  simp [h.sinkReady_eq]

/-- What passes the source is what passes the sinks. -/
theorem sourceBeats_eq (h : Held s holder p) (c : MuxCycle) :
    sourceBeats s c = (beats s c).map fun b => b.2.payload := by
  unfold sourceBeats
  cases holder with
  | none =>
    rw [h.srcValid_none, h.beats_none]
    rfl
  | some k =>
    rw [h.srcValid_some, h.beats_some, h.srcPayload_some]
    split <;> rfl

/-- Who holds the multiplexer during a packet keeps it to the last cycle. -/
theorem keeps {k : Fin 2} (h : Held s (some k) p) {c : MuxCycle}
    (hbusy : s.packetInProgress = true ∨ s.srcValid c = true) (hlast : s.lastCycle c = false) :
    Held (s.step c) (some k) p ∧ (s.step c).packetInProgress = true := by
  have hupdate : s.updateGrant c = false := by
    rw [h.updateGrant_eq, hlast, Bool.or_false, Bool.and_eq_false_iff, Bool.not_eq_false',
      Bool.not_eq_false']
    exact hbusy
  have hstep := h.step c
  rw [hupdate] at hstep
  refine ⟨hstep, ?_⟩
  simp only [CmdXbarMux.step, hlast, Bool.false_eq_true, if_false]
  rcases hbusy with hbusy | hbusy
  · rw [hbusy, ite_self]
  · rw [if_pos hbusy]

end Held

/-- INTERNAL: Who holds the multiplexer at any time of a run. -/
theorem exists_held (input : ℕ → MuxCycle) (t : ℕ) :
    ∃ holder p, Held (trace CmdXbarMux.step CmdXbarMux.reset input t) holder p :=
  Held.reset.trace_held input t

/-- A beat that passes is the holder's. -/
theorem eq_of_mem_beats {s : CmdXbarMux} {holder : Option (Fin 2)} {p i : Fin 2}
    (h : Held s holder p) {c : MuxCycle} {k : MuxSink} (hmem : (i, k) ∈ beats s c) :
    holder = some i ∧ s.srcValid c = true := by
  cases holder with
  | none =>
    rw [h.beats_none] at hmem
    exact absurd hmem List.not_mem_nil
  | some j =>
    rw [h.beats_some] at hmem
    split at hmem
    · rename_i hpass
      rw [h.srcValid_some]
      obtain ⟨hij, _⟩ := Prod.mk.injEq .. ▸ List.mem_singleton.mp hmem
      exact ⟨congrArg some hij.symm, (Bool.and_eq_true_iff.mp hpass).1⟩
    · exact absurd hmem List.not_mem_nil

/-- **Packets pass whole.**  From reset on, under any traffic, what leaves the multiplexer is
what passed its sinks, beat for beat in that order, and between two beats of different sinks
there is a last cycle.
RTL: system/synthesis/submodules/system_cmd_xbar_mux.sv:105-301 -/
theorem cmdXbarMux_passes_whole (input : ℕ → MuxCycle) (t : ℕ) :
    emitted CmdXbarMux.step sourceBeats CmdXbarMux.reset input t =
        (emitted CmdXbarMux.step beats CmdXbarMux.reset input t).map (fun b => b.2.payload) ∧
      ∀ u v i j k l, u ≤ v →
        (i, k) ∈ beats (trace CmdXbarMux.step CmdXbarMux.reset input u) (input u) →
        (j, l) ∈ beats (trace CmdXbarMux.step CmdXbarMux.reset input v) (input v) →
        (∀ w, u ≤ w → w < v →
          (trace CmdXbarMux.step CmdXbarMux.reset input w).lastCycle (input w) = false) →
        i = j := by
  constructor
  · induction t with
    | zero => rfl
    | succ t ih =>
      obtain ⟨_, _, hheld⟩ := exists_held input t
      rw [emitted, emitted, ih, hheld.sourceBeats_eq, List.map_append]
  · intro u v i j k l huv hu hv hlast
    obtain ⟨n, rfl⟩ := Nat.exists_eq_add_of_le huv
    -- from the first of the two beats on the holder does not change
    have hkeeps : ∀ m ≤ n, ∃ p, Held (trace CmdXbarMux.step CmdXbarMux.reset input (u + m))
        (some i) p ∧ ((trace CmdXbarMux.step CmdXbarMux.reset input (u + m)).packetInProgress =
          true ∨ (trace CmdXbarMux.step CmdXbarMux.reset input (u + m)).srcValid
            (input (u + m)) = true) := by
      intro m
      induction m with
      | zero =>
        intro _
        obtain ⟨holder, p, hheld⟩ := exists_held input u
        obtain ⟨rfl, hvalid⟩ := eq_of_mem_beats hheld hu
        exact ⟨p, hheld, Or.inr hvalid⟩
      | succ m ih =>
        intro hm
        obtain ⟨p, hheld, hbusy⟩ := ih (by omega)
        obtain ⟨hnext, hprogress⟩ := hheld.keeps hbusy (hlast (u + m) (by omega) (by omega))
        exact ⟨p, hnext, Or.inl hprogress⟩
    obtain ⟨p, hheld, _⟩ := hkeeps n (Nat.le_refl n)
    exact Option.some.inj (eq_of_mem_beats hheld hv).1

/-! ### Waiting -/

/-- With two requesters the next of one is the other. -/
theorem next_of_ne {k i : Fin 2} (h : k ≠ i) : next k = i := by
  apply Fin.ext
  have hval : k.val ≠ i.val := fun heq => h (Fin.ext heq)
  have hk := k.isLt
  have hi := i.isLt
  rw [val_next]
  split <;> omega

/-- A sink that asks is next when the other one lets go. -/
theorem serve_behind {s : CmdXbarMux} {k i p : Fin 2} (h : Held s (some k) p) (hne : k ≠ i)
    {asks : Fin 2 → Bool} (hasks : asks i = true) : serve p asks = some i := by
  rw [h.behind k rfl, next_of_ne hne, serve_eq_some_iff, after_self]
  exact ⟨hasks, fun d hd => absurd hd (Nat.not_lt_zero d)⟩

theorem request_of_valid (s : CmdXbarMux) {c : MuxCycle} {i : Fin 2}
    (h : (c.sink i).valid = true) : s.request c i = true := by
  rw [CmdXbarMux.request, h, Bool.true_or]

/-- In a last cycle a beat passes. -/
theorem lastCycle_passes {s : CmdXbarMux} {c : MuxCycle} (h : s.lastCycle c = true) :
    s.srcValid c = true ∧ c.srcReady = true := by
  unfold CmdXbarMux.lastCycle at h
  simp only [Bool.and_eq_true] at h
  exact h.1.1

/-- The last cycle is the holder's. -/
theorem finished_some {s : CmdXbarMux} {k p : Fin 2} (h : Held s (some k) p) (c : MuxCycle) :
    finished s c = if s.lastCycle c then [k] else [] := by
  have hfilter : (List.finRange 2).filter (fun i => decide (some k = some i)) = [k] := by
    match k with
    | 0 => rfl
    | 1 => rfl
  unfold finished
  rw [h.grant, hfilter]

/-- What is still to pass before `i`, of those who wait for one round. -/
def toPass (i : Fin 2) (s : CmdXbarMux) : ℕ := if s.savedGrant i then 0 else 1

theorem toPass_le (i : Fin 2) (s : CmdXbarMux) : toPass i s ≤ 1 := by
  unfold toPass
  split <;> omega

/-- A holder other than `i` is ahead of it. -/
theorem toPass_some {s : CmdXbarMux} {k i p : Fin 2} (h : Held s (some k) p) :
    toPass i s = if k = i then 0 else 1 := by
  unfold toPass
  rw [h.grant]
  simp only [Option.some.injEq, decide_eq_true_eq]

/-- A last cycle of the other sink while `i` waits gives the turn to `i`. -/
theorem toPass_step {s : CmdXbarMux} {holder : Option (Fin 2)} {p i : Fin 2}
    (h : Held s holder p) {c : MuxCycle} (hvalid : (c.sink i).valid = true)
    (hwaits : i ∉ finished s c) :
    (finished s c).length + toPass i (s.step c) ≤ toPass i s := by
  cases holder with
  | none =>
    have hlast : s.lastCycle c = false := by
      rw [← Bool.not_eq_true]
      intro hlast
      have hsrc := (lastCycle_passes hlast).1
      rw [h.srcValid_none] at hsrc
      cases hsrc
    have hone : toPass i s = 1 := by
      unfold toPass
      rw [h.grant]
      rfl
    unfold finished
    rw [hlast, hone]
    have hle := toPass_le i (s.step c)
    simpa using hle
  | some k =>
    rw [finished_some h] at hwaits ⊢
    rw [toPass_some h]
    by_cases hki : k = i
    · subst hki
      cases hlast : s.lastCycle c with
      | true =>
        rw [hlast] at hwaits
        exact absurd (List.mem_singleton_self k) hwaits
      | false =>
        obtain ⟨hnext, _⟩ := h.keeps (Or.inr (by rw [h.srcValid_some, hvalid])) hlast
        rw [toPass_some hnext, if_pos rfl]
        exact Nat.le_refl 0
    · -- the other sink holds the grant: `i` is served after its last cycle
      rw [if_neg hki]
      cases hlast : s.lastCycle c with
      | false =>
        have hle := toPass_le i (s.step c)
        simpa using hle
      | true =>
        have hnext := h.step c
        rw [h.updateGrant_eq, hlast, Bool.or_true, if_pos rfl,
          serve_behind h hki (request_of_valid s hvalid)] at hnext
        rw [toPass_some hnext, if_pos rfl, if_pos rfl]
        exact Nat.le_refl 1

/-- **A waiting master is overtaken once.**  From any moment of any run on, while a sink offers
and has no last cycle, the other sink has at most one, however long the packets are.  The last
cycle is that of a packet, or of a row of packets that the lock holds together.
RTL: system/synthesis/submodules/system_cmd_xbar_mux.sv:105-301 -/
theorem cmdXbarMux_overtakes_once (input : ℕ → MuxCycle) (t d : ℕ) (i : Fin 2)
    (hvalid : ∀ u < d, ((input (t + u)).sink i).valid = true)
    (hwaits : i ∉ emitted CmdXbarMux.step finished
      (trace CmdXbarMux.step CmdXbarMux.reset input t) (fun u => input (t + u)) d) :
    (emitted CmdXbarMux.step finished (trace CmdXbarMux.step CmdXbarMux.reset input t)
      (fun u => input (t + u)) d).length ≤ 1 := by
  have hrun : (emitted CmdXbarMux.step finished
      (trace CmdXbarMux.step CmdXbarMux.reset input t) (fun u => input (t + u)) d).length +
        toPass i (trace CmdXbarMux.step CmdXbarMux.reset input (t + d)) ≤ 1 := by
    induction d with
    | zero =>
      rw [emitted, List.length_nil, Nat.zero_add]
      exact toPass_le i _
    | succ d ih =>
      rw [emitted, List.mem_append, not_or, ← trace_add] at hwaits
      have hbefore := ih (fun u hu => hvalid u (Nat.lt_succ_of_lt hu)) hwaits.1
      obtain ⟨_, _, hheld⟩ := exists_held input (t + d)
      have hstep := toPass_step hheld (hvalid d (Nat.lt_succ_self d)) hwaits.2
      rw [emitted, List.length_append, ← trace_add, ← Nat.add_assoc, trace_succ]
      omega
  omega

/-- Both masters offer a packet of one beat, and the slave is ready. -/
def bothOffer (_ : ℕ) : MuxCycle where
  sink _ := ⟨true, 0#89, 1#4, true, true⟩
  srcReady := true

/-- The second master out of reset. -/
theorem cmdXbarMux_overtakes_once_reset :
    (emitted CmdXbarMux.step finished (trace CmdXbarMux.step CmdXbarMux.reset bothOffer 0)
      (fun u => bothOffer (0 + u)) 2).length ≤ 1 :=
  cmdXbarMux_overtakes_once bothOffer 0 2 1 (fun _ _ => rfl) (by decide)

/-- The ready cycles before `i` is served, by who holds the multiplexer. -/
def readyCycles (i : Fin 2) : Option (Fin 2) → ℕ
  | none => 2
  | some k => if k = i then 0 else 1

theorem readyCycles_some_le (i k : Fin 2) : readyCycles i (some k) ≤ 1 := by
  show (if k = i then 0 else 1) ≤ 1
  split <;> omega

/-- What the masters offer: packets of one beat without a lock. -/
def SingleBeats (c : MuxCycle) : Prop :=
  ∀ k, (c.sink k).valid = true → (c.sink k).endofpacket = true ∧ (c.sink k).lock = false

/-- Bit 0 of a payload is the end of the packet. -/
theorem payload_eop (k : MuxSink) : k.payload.getLsbD 0 = k.endofpacket := by
  unfold MuxSink.payload
  rw [BitVec.getLsbD_append]
  cases k.endofpacket <;> rfl

/-- A packet of one beat ends when it passes. -/
theorem lastCycle_single {s : CmdXbarMux} {k p : Fin 2} (h : Held s (some k) p) {c : MuxCycle}
    (hsingle : SingleBeats c) : s.lastCycle c = ((c.sink k).valid && c.srcReady) := by
  have hlock : (((c.sink 0).lock && s.savedGrant 0) || ((c.sink 1).lock && s.savedGrant 1)) =
      (c.sink k).lock := by
    rw [h.grant]
    match k with
    | 0 => simp
    | 1 => simp
  unfold CmdXbarMux.lastCycle
  rw [h.srcValid_some, h.srcPayload_some, payload_eop, hlock]
  cases hvalid : (c.sink k).valid with
  | false => rfl
  | true =>
    obtain ⟨heop, hfree⟩ := hsingle k hvalid
    rw [heop, hfree, Bool.and_true, Bool.not_false, Bool.and_true]

/-- A packet in progress is one the holder still offers. -/
def Offered (s : CmdXbarMux) (holder : Option (Fin 2)) (c : MuxCycle) : Prop :=
  s.packetInProgress = true → ∃ k, holder = some k ∧ (c.sink k).valid = true

/-- If the holder offers nothing, no packet is in progress. -/
theorem Offered.idle {s : CmdXbarMux} {k : Fin 2} {c : MuxCycle} (h : Offered s (some k) c)
    (hvalid : (c.sink k).valid = false) : s.packetInProgress = false := by
  rw [← Bool.not_eq_true]
  intro hprogress
  obtain ⟨k', hk', hvalid'⟩ := h hprogress
  rw [← Option.some.inj hk', hvalid] at hvalid'
  cases hvalid'

section Single

variable {s : CmdXbarMux} {k p : Fin 2} (h : Held s (some k) p) {c : MuxCycle}
  (hsingle : SingleBeats c) (hoffered : Offered s (some k) c)

include h hsingle hoffered

/-- The holder of single beats goes on offering, or passes, or lets go. -/
theorem updateGrant_single : s.updateGrant c = (!(c.sink k).valid || c.srcReady) := by
  rw [h.updateGrant_eq, lastCycle_single h hsingle, h.srcValid_some]
  cases hvalid : (c.sink k).valid with
  | true => rw [Bool.not_true, Bool.and_false, Bool.true_and]
  | false =>
    rw [hoffered.idle hvalid]
    rfl

/-- A packet of one beat is in progress while it is offered and not taken. -/
theorem packetInProgress_single :
    (s.step c).packetInProgress = ((c.sink k).valid && !c.srcReady) := by
  unfold CmdXbarMux.step
  rw [lastCycle_single h hsingle, h.srcValid_some]
  cases hvalid : (c.sink k).valid with
  | true => cases c.srcReady <;> rfl
  | false => exact hoffered.idle hvalid

end Single

section Serving

variable {s : CmdXbarMux} {holder : Option (Fin 2)} {p i : Fin 2} (h : Held s holder p)
  {c c' : MuxCycle} (hsingle : SingleBeats c) (hoffered : Offered s holder c)

include h hsingle hoffered

/-- A packet that stays in progress did not pass, so its master holds it. -/
theorem offered_step (hholds : ∀ k, (c.sink k).valid = true → s.sinkReady c k = false →
    (c'.sink k).valid = true) :
    Offered (s.step c) (if s.updateGrant c then serve p (s.request c) else holder) c' := by
  intro hprogress
  cases holder with
  | none =>
    simp only [CmdXbarMux.step, h.srcValid_none, h.idle rfl, Bool.false_eq_true, if_false,
      ite_self] at hprogress
  | some k =>
    rw [packetInProgress_single h hsingle hoffered, Bool.and_eq_true, Bool.not_eq_true']
      at hprogress
    obtain ⟨hvalid, hready⟩ := hprogress
    rw [updateGrant_single h hsingle hoffered, hvalid, hready]
    refine ⟨k, rfl, hholds k hvalid ?_⟩
    rw [h.sinkReady_eq, hready, Bool.false_and]

/-- A ready cycle in which `i` waits brings its turn nearer. -/
theorem readyCycles_step (hvalid : (c.sink i).valid = true) (hwaits : s.sinkReady c i = false) :
    (if c.srcReady then 1 else 0) +
        readyCycles i (if s.updateGrant c then serve p (s.request c) else holder) ≤
      readyCycles i holder := by
  have hasks := request_of_valid s hvalid
  cases holder with
  | none =>
    obtain ⟨w, hw⟩ := serve_isSome (p := p) hasks
    have hupdate : s.updateGrant c = true := by
      rw [h.updateGrant_eq, h.srcValid_none, h.idle rfl]
      rfl
    -- the grant goes to a sink in this cycle, ready or not
    have hle := readyCycles_some_le i w
    have htwo : readyCycles i none = 2 := rfl
    have hbit : (if c.srcReady = true then 1 else 0) ≤ 1 := by split <;> omega
    rw [hupdate, if_pos rfl, hw]
    omega
  | some k =>
    rw [updateGrant_single h hsingle hoffered]
    by_cases hki : k = i
    · subst hki
      have hready : c.srcReady = false := by
        rwa [h.sinkReady_eq, decide_eq_true rfl, Bool.and_true] at hwaits
      rw [hvalid, hready]
      exact Nat.le_of_eq (Nat.zero_add _)
    · have hone : readyCycles i (some k) = 1 := if_neg hki
      rw [serve_behind h hki hasks, hone]
      cases c.srcReady with
      | true =>
        rw [Bool.or_true, if_pos rfl, if_pos rfl]
        exact Nat.le_of_eq (congrArg (1 + ·) (if_pos rfl))
      | false =>
        rw [if_neg Bool.false_ne_true, Nat.zero_add]
        split
        · exact readyCycles_some_le i i
        · exact readyCycles_some_le i k

end Serving

/-- **No master starves.**  With the packets the masters send, of one beat and held until they
pass, a sink that offers is served by the third ready cycle of the slave, from any moment of
any run on, whatever the other master does.
RTL: system/synthesis/submodules/system_cmd_xbar_mux.sv:105-301 -/
theorem cmdXbarMux_serves (input : ℕ → MuxCycle) (hsingle : ∀ u, SingleBeats (input u))
    (hholds : ∀ u k, ((input u).sink k).valid = true →
      (trace CmdXbarMux.step CmdXbarMux.reset input u).sinkReady (input u) k = false →
        ((input (u + 1)).sink k).valid = true)
    (t d : ℕ) (i : Fin 2) (hvalid : ∀ u < d, ((input (t + u)).sink i).valid = true)
    (hwaits : ∀ u < d, (trace CmdXbarMux.step CmdXbarMux.reset input (t + u)).sinkReady
      (input (t + u)) i = false) :
    (List.range d).countP (fun u => (input (t + u)).srcReady) ≤ 2 := by
  have hstart : ∀ t, ∃ holder p,
      Held (trace CmdXbarMux.step CmdXbarMux.reset input t) holder p ∧
        Offered (trace CmdXbarMux.step CmdXbarMux.reset input t) holder (input t) := by
    intro t
    induction t with
    | zero => exact ⟨none, 0, Held.reset, fun h => nomatch h⟩
    | succ t ih =>
      obtain ⟨_, _, hheld, hoffered⟩ := ih
      exact ⟨_, _, hheld.step (input t), offered_step hheld (hsingle t) hoffered (hholds t)⟩
  -- by induction on the cycles waited: the ready ones and those still owed stay at most two
  have hrun : ∃ holder p,
      Held (trace CmdXbarMux.step CmdXbarMux.reset input (t + d)) holder p ∧
        Offered (trace CmdXbarMux.step CmdXbarMux.reset input (t + d)) holder (input (t + d)) ∧
        (List.range d).countP (fun u => (input (t + u)).srcReady) + readyCycles i holder ≤ 2 := by
    induction d with
    | zero =>
      obtain ⟨holder, p, hheld, hoffered⟩ := hstart t
      refine ⟨holder, p, hheld, hoffered, ?_⟩
      cases holder with
      | none => exact Nat.le_refl 2
      | some k =>
        have hle := readyCycles_some_le i k
        rw [List.range_zero, List.countP_nil]
        omega
    | succ d ih =>
      obtain ⟨holder, p, hheld, hoffered, hcount⟩ :=
        ih (fun u hu => hvalid u (Nat.lt_succ_of_lt hu))
          fun u hu => hwaits u (Nat.lt_succ_of_lt hu)
      refine ⟨_, _, hheld.step (input (t + d)),
        offered_step hheld (hsingle (t + d)) hoffered (hholds (t + d)), ?_⟩
      have hstep := readyCycles_step hheld (hsingle (t + d)) hoffered
        (hvalid d (Nat.lt_succ_self d)) (hwaits d (Nat.lt_succ_self d))
      rw [List.range_succ, List.countP_append, List.countP_singleton]
      omega
  obtain ⟨_, _, _, _, hcount⟩ := hrun
  omega

/-- The second master out of reset. -/
theorem cmdXbarMux_serves_reset :
    (List.range 2).countP (fun u => (bothOffer (0 + u)).srcReady) ≤ 2 :=
  cmdXbarMux_serves bothOffer (fun _ _ _ => ⟨rfl, BitVec.getLsbD_zero⟩) (fun _ _ _ _ => rfl) 0 2 1
    (fun _ _ => rfl) (by decide)

end MatrixAccelerator.Analysis
