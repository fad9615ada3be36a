import MatrixAccelerator.Library.EventLog

/-!
# Turns in a round

`m` members take turns from a pointer on, going round.  `after p i` counts the places from
`p` to `i`; the first of those that ask is served, and the pointer moves behind it.  A member
that waits sees the turns of the others at growing places before its own, so each of them
has at most one (`turns_nodup`).
-/

set_option autoImplicit false

namespace MatrixAccelerator.Library

variable {m : ℕ}

/-! ## Places -/

/-- The places from `p` on to `i`. -/
def after (p i : Fin m) : ℕ := if p.val ≤ i.val then i.val - p.val else i.val + m - p.val

theorem mod_lt_of_fin (p : Fin m) (k : ℕ) : k % m < m :=
  Nat.mod_lt k (Nat.lt_of_le_of_lt (Nat.zero_le p.val) p.isLt)

/-- The member `d` places behind `p`. -/
def place (p : Fin m) (d : ℕ) : Fin m := ⟨(p.val + d) % m, mod_lt_of_fin p _⟩

/-- The member behind `i`. -/
def next (i : Fin m) : Fin m := place i 1

/-- What `after` counts, with the places that go round. -/
theorem after_spec (p i : Fin m) :
    (p.val ≤ i.val ∧ p.val + after p i = i.val) ∨ (i.val < p.val ∧ p.val + after p i = i.val + m) := by
  have hp := p.isLt
  unfold after
  split <;> omega

/-- The distance between two places is less than a round. -/
theorem after_lt (p i : Fin m) : after p i < m := by
  have hp := p.isLt
  have hi := i.isLt
  have hspec := after_spec p i
  omega

theorem after_self (p : Fin m) : after p p = 0 := by
  unfold after
  rw [if_pos (Nat.le_refl _), Nat.sub_self]

/-- The place at distance `d`, with the turn over the end written out. -/
theorem val_place {p : Fin m} {d : ℕ} (hd : d < m) :
    (place p d).val = if p.val + d < m then p.val + d else p.val + d - m := by
  have hp := p.isLt
  unfold place
  split
  · exact Nat.mod_eq_of_lt ‹_›
  · have hge : m ≤ p.val + d := by omega
    have hlt : p.val + d - m < m := by omega
    exact (Nat.mod_eq_sub_mod hge).trans (Nat.mod_eq_of_lt hlt)

/-- Going the distance to `i` arrives at `i`. -/
theorem place_after (p i : Fin m) : place p (after p i) = i := by
  have hi := i.isLt
  have hspec := after_spec p i
  apply Fin.ext
  rw [val_place (after_lt p i)]
  split <;> omega

/-- The place at distance `d` is at distance `d`. -/
theorem after_place {p : Fin m} {d : ℕ} (hd : d < m) : after p (place p d) = d := by
  have hp := p.isLt
  have hspec := after_spec p (place p d)
  rw [val_place hd] at hspec
  split at hspec <;> omega

theorem eq_of_after_eq {p i j : Fin m} (h : after p i = after p j) : i = j := by
  rw [← place_after p i, h, place_after]

/-- The next place, with the turn over the end written out. -/
theorem val_next (i : Fin m) : (next i).val = if i.val + 1 = m then 0 else i.val + 1 := by
  have hi := i.isLt
  show (i.val + 1) % m = _
  split
  · rw [‹i.val + 1 = m›, Nat.mod_self]
  · exact Nat.mod_eq_of_lt (by omega)

/-- Behind a member before `i` there is one place less to go to `i`. -/
theorem after_next {p w i : Fin m} (h : after p w < after p i) :
    after p (next w) = after p w + 1 ∧ after (next w) i + (after p w + 1) = after p i := by
  have hw := w.isLt
  have hi := i.isLt
  have hpw := after_spec p w
  have hpi := after_spec p i
  have hpn := after_spec p (next w)
  have hni := after_spec (next w) i
  rw [val_next] at hpn hni
  split at hpn <;> split at hni <;> omega

/-- Going on from `q`, a place on the way from `p` to `i`. -/
theorem after_trans {p q w i : Fin m} (hq : after p q + after q i = after p i)
    (hw : after q w ≤ after q i) : after p w = after p q + after q w := by
  have hi := after_lt p i
  have hpq := after_spec p q
  have hqw := after_spec q w
  have hpw := after_spec p w
  have hw' := w.isLt
  omega

/-! ## The turn -/

/-- The member whose turn it is: the first from `p` on that asks. -/
def serve (p : Fin m) (asks : Fin m → Bool) : Option (Fin m) :=
  ((List.range m).find? fun d => asks (place p d)).map (place p)

/-- The one served asks, and nobody between the pointer and it does. -/
theorem serve_eq_some_iff {p i : Fin m} {asks : Fin m → Bool} :
    serve p asks = some i ↔ asks i = true ∧ ∀ d < after p i, asks (place p d) = false := by
  unfold serve
  rw [Option.map_eq_some_iff]
  simp only [List.find?_range_eq_some, List.mem_range, Bool.not_eq_true']
  constructor
  · rintro ⟨d, ⟨hasks, hd, hbefore⟩, rfl⟩
    rw [after_place hd]
    exact ⟨hasks, hbefore⟩
  · rintro ⟨hasks, hbefore⟩
    refine ⟨after p i, ⟨?_, after_lt p i, hbefore⟩, place_after p i⟩
    rwa [place_after]

/-- Nobody who asks is before the one who is served. -/
theorem after_serve_le {p w i : Fin m} {asks : Fin m → Bool} (hw : serve p asks = some w)
    (hi : asks i = true) : after p w ≤ after p i := by
  refine Nat.le_of_not_lt fun hlt => ?_
  have hfalse := (serve_eq_some_iff.mp hw).2 (after p i) hlt
  rw [place_after, hi] at hfalse
  cases hfalse

/-- If anybody asks, somebody is served. -/
theorem serve_isSome {p i : Fin m} {asks : Fin m → Bool} (hi : asks i = true) :
    ∃ w, serve p asks = some w := by
  cases hserve : serve p asks with
  | some w => exact ⟨w, rfl⟩
  | none =>
    unfold serve at hserve
    rw [Option.map_eq_none_iff, List.find?_eq_none] at hserve
    refine absurd ?_ (hserve (after p i) (List.mem_range.mpr (after_lt p i)))
    rwa [place_after]

/-! ## Rounds -/

/-- Who asks, and whether somebody gets the turn. -/
structure Round (m : ℕ) where
  asks : Fin m → Bool
  advance : Bool

namespace Round

/-- Who has the turn. -/
def turn (p : Fin m) (r : Round m) : List (Fin m) :=
  if r.advance then (serve p r.asks).toList else []

/-- The pointer moves behind who had the turn. -/
def step (p : Fin m) (r : Round m) : Fin m :=
  if r.advance then ((serve p r.asks).map next).getD p else p

/-- INTERNAL: What the turns look like from the first pointer, while `i` waits. -/
theorem turns_sorted {p i : Fin m} {input : ℕ → Round m} {t : ℕ}
    (hasks : ∀ u < t, (input u).asks i = true) (hnot : i ∉ emitted step turn p input t) :
    ((emitted step turn p input t).map (after p)).Pairwise (· < ·) ∧
      (∀ w ∈ emitted step turn p input t, after p w < after p (trace step p input t)) ∧
      (emitted step turn p input t).length ≤ after p (trace step p input t) ∧
      after p (trace step p input t) + after (trace step p input t) i = after p i := by
  induction t with
  | zero =>
    refine ⟨List.Pairwise.nil, fun w hw => absurd hw List.not_mem_nil, Nat.zero_le _, ?_⟩
    rw [trace_zero, after_self, Nat.zero_add]
  | succ t ih =>
    rw [emitted, List.mem_append, not_or] at hnot
    obtain ⟨hsorted, hbelow, hlen, hway⟩ := ih (fun u hu => hasks u (Nat.lt_succ_of_lt hu)) hnot.1
    have hiasks := hasks t (Nat.lt_succ_self t)
    have hnow := hnot.2
    rw [emitted, trace_succ]
    unfold turn step at *
    cases hadvance : (input t).advance with
    | false =>
      simp only [Bool.false_eq_true, if_false, List.append_nil]
      exact ⟨hsorted, hbelow, hlen, hway⟩
    | true =>
      obtain ⟨w, hw⟩ := serve_isSome (p := trace step p input t) hiasks
      unfold step at hw
      rw [hadvance, if_pos rfl, hw] at hnow
      simp only [if_true, hw, Option.toList_some, Option.map_some, Option.getD_some]
      -- the one who is served stands before `i`, who is not
      have hne : i ≠ w := fun heq => hnow (heq ▸ List.mem_singleton_self i)
      have hle := after_serve_le hw hiasks
      have hlt := Nat.lt_of_le_of_ne hle fun heq => hne (eq_of_after_eq heq).symm
      have hplace := after_trans hway hle
      have hfromp : after p w < after p i := by omega
      obtain ⟨hnext, hleft⟩ := after_next hfromp
      refine ⟨?_, ?_, ?_, ?_⟩
      · rw [List.map_append, List.pairwise_append]
        refine ⟨hsorted, List.pairwise_singleton _ _, fun a ha b hb => ?_⟩
        obtain ⟨v, hv, rfl⟩ := List.mem_map.mp ha
        have hvlt := hbelow v hv
        rw [List.map_singleton, List.mem_singleton] at hb
        omega
      · intro v hv
        rcases List.mem_append.mp hv with hv | hv
        · have hvlt := hbelow v hv
          omega
        · rw [List.mem_singleton.mp hv]
          omega
      · rw [List.length_append, List.length_singleton]
        omega
      · omega

/-- **The rule of the round.**  While a member asks and waits, no other has the turn twice. -/
theorem turns_nodup {p i : Fin m} {input : ℕ → Round m} {t : ℕ}
    (hasks : ∀ u < t, (input u).asks i = true) (hnot : i ∉ emitted step turn p input t) :
    (emitted step turn p input t).Nodup ∧ (emitted step turn p input t).length < m := by
  obtain ⟨hsorted, _, hlen, hway⟩ := turns_sorted hasks hnot
  have hi := after_lt p i
  exact ⟨(hsorted.imp fun h => Nat.ne_of_lt h).of_map (after p) fun _ _ hne heq => hne (by rw [heq]),
    by omega⟩

end Round

end MatrixAccelerator.Library
