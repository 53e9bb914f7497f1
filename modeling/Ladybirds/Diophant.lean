import Mathlib
import Ladybirds.Range

/-! # Periodic windows

Two windows, `wnd1` open once in every `period1` from time `0` and `wnd2` once in every
`period2` from time `offset`, are open together exactly when a difference of their positions,
less `offset`, is a multiple of the periods' greatest common divisor (Bézout). The model
computes in the `int` arithmetic of the source; a failed assertion or an overflow gives `none`.
-/

namespace Ladybirds

namespace Diophant

/-- `Modulo`: the remainder of the truncating `%`, moved into `0 … b-1`. -/
def modulo (a b : Int) : Int :=
  let remainder := a.tmod b
  if remainder < 0 then remainder + b else remainder

private theorem neg_lt_tmod (a : Int) {b : Int} (hb : 0 < b) : -b < a.tmod b := by
  obtain ⟨m, rfl⟩ := Int.eq_ofNat_of_zero_le hb.le
  cases a with
  | ofNat n => simp only [Int.tmod, Int.ofNat_eq_coe]; omega
  | negSucc n =>
    have := Nat.mod_lt n.succ (show 0 < m by omega)
    simp only [Int.tmod, Int.ofNat_eq_coe]
    omega

/-- For a positive divisor, `Modulo` is the Euclidean remainder. -/
theorem modulo_eq_emod (a : Int) {b : Int} (hb : 0 < b) : modulo a b = a % b := by
  have hlt := Int.tmod_lt_of_pos a hb
  have hgt := neg_lt_tmod a hb
  have hmod : a % b = a.tmod b % b := by
    conv_lhs => rw [← Int.tmod_add_tdiv a b]
    exact Int.add_mul_emod_self_left _ _ _
  rw [modulo, hmod]
  split_ifs with h
  · rw [← Int.add_emod_self, Int.emod_eq_of_lt (by omega) (by omega)]
  · exact (Int.emod_eq_of_lt (by omega) hlt).symm

/-- The loop of `Gcd`: each round reduces `i1` modulo `i2`, then `i2` modulo `i1`, and returns
the other operand once a remainder is `0`. The second operand falls in every round, so `i2`
rounds are enough; `none` when the fuel runs out. -/
def gcdLoop : Nat → Nat → Nat → Option Nat
  | 0, _, _ => none
  | fuel + 1, i1, i2 =>
    let i1 := i1 % i2
    if i1 = 0 then some i2
    else
      let i2 := i2 % i1
      if i2 = 0 then some i1 else gcdLoop fuel i1 i2

/-- `Gcd`, which asserts that both arguments are positive; on positive operands the `%=` of
the source is the remainder of natural numbers. -/
def gcd (i1 i2 : Int) : Option Int :=
  if 0 < i1 ∧ 0 < i2 then (gcdLoop i2.toNat i1.toNat i2.toNat).map fun n : Nat => (n : Int)
  else none

theorem gcd_mod_left (a b : Nat) : Nat.gcd (a % b) b = Nat.gcd a b := by
  rw [← Nat.gcd_rec, Nat.gcd_comm]

/-- Euclid's loop returns the greatest common divisor once it has a round per unit of `i2`. -/
theorem gcdLoop_eq :
    ∀ fuel i1 i2, 0 < i2 → i2 ≤ fuel → gcdLoop fuel i1 i2 = some (Nat.gcd i1 i2)
  | 0, _, _, h, hf => absurd h (by omega)
  | fuel + 1, i1, i2, h, hf => by
    simp only [gcdLoop]
    split_ifs with h1 h2
    · rw [Nat.gcd_eq_right (Nat.dvd_of_mod_eq_zero h1)]
    · rw [← gcd_mod_left, Nat.gcd_eq_left (Nat.dvd_of_mod_eq_zero h2)]
    · have := Nat.mod_lt i1 h
      have := Nat.mod_lt i2 (Nat.pos_of_ne_zero h1)
      rw [gcdLoop_eq fuel _ _ (Nat.pos_of_ne_zero h2) (by omega), Nat.gcd_comm (i1 % i2),
        gcd_mod_left, Nat.gcd_comm i2, gcd_mod_left]

theorem gcd_eq {i1 i2 : Int} (h1 : 0 < i1) (h2 : 0 < i2) :
    gcd i1 i2 = some ↑(Int.gcd i1 i2) := by
  rw [gcd, if_pos ⟨h1, h2⟩, gcdLoop_eq _ _ _ (by omega) le_rfl, Option.map_some', Int.gcd,
    show i1.toNat = i1.natAbs by omega, show i2.toNat = i2.natAbs by omega]

/-- On two positive numbers `Gcd` returns a positive common divisor that every common divisor
divides. -/
theorem gcd_greatest {i1 i2 : Int} (h1 : 0 < i1) (h2 : 0 < i2) :
    ∃ g, gcd i1 i2 = some g ∧ 0 < g ∧ g ∣ i1 ∧ g ∣ i2 ∧ ∀ d, d ∣ i1 → d ∣ i2 → d ∣ g :=
  ⟨_, gcd_eq h1 h2, Int.ofNat_pos.2 (Int.gcd_pos_of_ne_zero_left _ h1.ne'), Int.gcd_dvd_left,
    Int.gcd_dvd_right, fun _ => Int.dvd_gcd⟩

example : gcd 84 36 = some 12 := by decide

theorem gcd_eightyFour_thirtySix : 0 < (84 : Int) ∧ 0 < (36 : Int) ∧
    ∃ g, gcd 84 36 = some g ∧ 0 < g ∧ g ∣ 84 ∧ g ∣ 36 ∧ ∀ d, d ∣ 84 → d ∣ 36 → d ∣ g :=
  ⟨by decide, by decide, gcd_greatest (by decide) (by decide)⟩

/-- Both windows are open at time `t`: `wnd1` in the current period of `period1`, and `wnd2` in
that of `period2`, whose periods start at `offset`. -/
def BothOpen (wnd1 : Range) (period1 : Int) (wnd2 : Range) (period2 offset t : Int) : Prop :=
  t % period1 ∈ wnd1 ∧ (t - offset) % period2 ∈ wnd2

instance (wnd1 : Range) (period1 : Int) (wnd2 : Range) (period2 offset t : Int) :
    Decidable (BothOpen wnd1 period1 wnd2 period2 offset t) :=
  inferInstanceAs (Decidable (_ ∧ _))

/-- `PeriodicWindowOverlap`; `none` where an assertion fails or an `int` overflows. -/
def periodicWindowOverlap (wnd1 : Range) (period1 : Int) (wnd2 : Range) (period2 offset : Int) :
    Option Bool :=
  if h : 0 ≤ period1 ∧ 0 ≤ period2 then
    if (Range.beginEnd 0 period1 h.1).contains wnd1 &&
        (Range.beginEnd 0 period2 h.2).contains wnd2 then do
      let gcd ← gcd period1 period2
      let lb ← checkedInt (wnd1.lo - wnd2.hi) >>= fun d => checkedInt (d - offset)
      let ub ← checkedInt (wnd1.hi - wnd2.lo) >>= fun d => checkedInt (d - offset)
      let test ← checkedInt (ub - lb) >>= fun w => checkedInt (modulo lb gcd + w)
      pure (decide (test > gcd))
    else none
  else none

section Windows

variable {wnd1 wnd2 : Range} {period1 period2 offset : Int}

/-- With periods and offset below `2 ^ 30` together, no `int` overflows. -/
theorem periodicWindowOverlap_eq (hc1 : 0 ≤ wnd1.lo ∧ wnd1.hi ≤ period1)
    (hc2 : 0 ≤ wnd2.lo ∧ wnd2.hi ≤ period2) (hp1 : 0 < period1) (hp2 : 0 < period2)
    (hb : period1 + period2 + |offset| < 2 ^ 30) :
    periodicWindowOverlap wnd1 period1 wnd2 period2 offset =
      some (decide (modulo (wnd1.lo - wnd2.hi - offset) (Int.gcd period1 period2) +
        ((wnd1.hi - wnd2.lo - offset) - (wnd1.lo - wnd2.hi - offset)) >
          Int.gcd period1 period2)) := by
  have hcon : ((Range.beginEnd 0 period1 hp1.le).contains wnd1 &&
      (Range.beginEnd 0 period2 hp2.le).contains wnd2) = true := by
    simp [Range.contains, Range.beginEnd, hc1, hc2]
  have hg : (0 : Int) < Int.gcd period1 period2 :=
    Int.ofNat_pos.2 (Int.gcd_pos_of_ne_zero_left _ hp1.ne')
  have hg1 : (Int.gcd period1 period2 : Int) ≤ period1 := Int.le_of_dvd hp1 Int.gcd_dvd_left
  have hm := modulo_eq_emod (wnd1.lo - wnd2.hi - offset) hg
  have := Int.emod_nonneg (wnd1.lo - wnd2.hi - offset) hg.ne'
  have := Int.emod_lt_of_pos (wnd1.lo - wnd2.hi - offset) hg
  have := wnd1.le
  have := wnd2.le
  have := le_abs_self offset
  have := neg_abs_le offset
  rw [periodicWindowOverlap, dif_pos ⟨hp1.le, hp2.le⟩, if_pos hcon, gcd_eq hp1 hp2]
  simp (disch := omega) only [Option.bind_eq_bind, Option.some_bind, checkedInt_of_le]
  rfl

/-- The test of `PeriodicWindowOverlap`: the first multiple of `g` above `lb` lies below `ub`. -/
theorem emod_add_gt_iff {g : Int} (hg : 0 < g) (lb ub : Int) :
    lb % g + (ub - lb) > g ↔ ∃ k, lb < g * k ∧ g * k < ub := by
  have hdiv := Int.emod_add_ediv lb g
  have hr := Int.emod_nonneg lb hg.ne'
  have hr' := Int.emod_lt_of_pos lb hg
  constructor
  · intro h
    refine ⟨lb / g + 1, ?_, ?_⟩ <;> rw [mul_add, mul_one] <;> omega
  · rintro ⟨k, hlo, hhi⟩
    have hq : lb / g < k := Int.lt_of_mul_lt_mul_left (by omega) hg.le
    have : g * (lb / g + 1) ≤ g * k := Int.mul_le_mul_of_nonneg_left (by omega) hg.le
    rw [mul_add, mul_one] at this
    omega

/-- A time at which both windows are open gives a multiple of the greatest common divisor
strictly between the least and the greatest difference of positions. -/
theorem exists_multiple_of_bothOpen {t : Int}
    (h : BothOpen wnd1 period1 wnd2 period2 offset t) :
    ∃ k, wnd1.lo - wnd2.hi - offset < Int.gcd period1 period2 * k ∧
      Int.gcd period1 period2 * k < wnd1.hi - wnd2.lo - offset := by
  obtain ⟨⟨hx1, hx2⟩, hy1, hy2⟩ := h
  obtain ⟨a, ha⟩ := Int.gcd_dvd_left (a := period1) (b := period2)
  obtain ⟨b, hb⟩ := Int.gcd_dvd_right (a := period1) (b := period2)
  have e1 := Int.emod_add_ediv t period1
  have e2 := Int.emod_add_ediv (t - offset) period2
  generalize t / period1 = q1 at e1
  generalize (t - offset) / period2 = q2 at e2
  have hk : (Int.gcd period1 period2 : Int) * (b * q2 - a * q1) =
      period2 * q2 - period1 * q1 := by
    linear_combination q1 * ha - q2 * hb
  exact ⟨b * q2 - a * q1, by rw [hk]; omega, by rw [hk]; omega⟩

/-- Conversely, such a multiple gives a time at which both non-empty windows are open: Bézout's
coefficients place it, and adding a multiple of both periods makes it non-negative. -/
theorem bothOpen_of_multiple {k : Int} (hne1 : wnd1.lo < wnd1.hi) (hne2 : wnd2.lo < wnd2.hi)
    (hc1 : 0 ≤ wnd1.lo ∧ wnd1.hi ≤ period1) (hc2 : 0 ≤ wnd2.lo ∧ wnd2.hi ≤ period2)
    (hlo : wnd1.lo - wnd2.hi - offset < Int.gcd period1 period2 * k)
    (hhi : Int.gcd period1 period2 * k < wnd1.hi - wnd2.lo - offset) :
    ∃ t, 0 ≤ t ∧ BothOpen wnd1 period1 wnd2 period2 offset t := by
  -- positions `x` in `wnd1` and `y` in `wnd2` with `x - y - offset = gcd * k`
  obtain ⟨x, y, hx1, hx2, hy1, hy2, hxy⟩ : ∃ x y, wnd1.lo ≤ x ∧ x < wnd1.hi ∧ wnd2.lo ≤ y ∧
      y < wnd2.hi ∧ y = x - (Int.gcd period1 period2 * k + offset) :=
    ⟨max wnd1.lo (Int.gcd period1 period2 * k + offset + wnd2.lo), _, by omega, by omega,
      by omega, by omega, rfl⟩
  have hbez := Int.gcd_eq_gcd_ab period1 period2
  -- a time of any sign at which both windows are open
  have h₁ : (x + period1 * -(period1.gcdA period2 * k)) % period1 = x := by
    rw [Int.add_mul_emod_self_left, Int.emod_eq_of_lt (by omega) (by omega)]
  have h₂ : (x + period1 * -(period1.gcdA period2 * k) - offset) % period2 = y := by
    rw [show x + period1 * -(period1.gcdA period2 * k) - offset =
        y + period2 * (period1.gcdB period2 * k) by rw [hxy]; linear_combination k * hbez,
      Int.add_mul_emod_self_left, Int.emod_eq_of_lt (by omega) (by omega)]
  generalize x + period1 * -(period1.gcdA period2 * k) = t₀ at h₁ h₂
  -- shifted by `|t₀|` hyperperiods
  have hshift : |t₀| ≤ period1 * (period2 * |t₀|) :=
    (le_mul_of_one_le_left (abs_nonneg t₀) (by omega : (1 : Int) ≤ period2)).trans
      (le_mul_of_one_le_left (mul_nonneg (by omega) (abs_nonneg t₀)) (by omega))
  refine ⟨t₀ + period1 * (period2 * |t₀|), by linarith [neg_abs_le t₀], ?_, ?_⟩
  · rw [Int.add_mul_emod_self_left, h₁]
    exact ⟨hx1, hx2⟩
  · rw [show t₀ + period1 * (period2 * |t₀|) - offset = t₀ - offset + period2 * (period1 * |t₀|)
      by ring, Int.add_mul_emod_self_left, h₂]
    exact ⟨hy1, hy2⟩

/-- For non-empty windows that lie inside their periods, and periods and offset small enough
for the `int` arithmetic, `PeriodicWindowOverlap` answers, and answers `true` exactly when both
windows are open at some time `t ≥ 0`. -/
theorem periodicWindowOverlap_iff (hne1 : wnd1.isEmpty = false) (hne2 : wnd2.isEmpty = false)
    (hc1 : 0 ≤ wnd1.lo ∧ wnd1.hi ≤ period1) (hc2 : 0 ≤ wnd2.lo ∧ wnd2.hi ≤ period2)
    (hb : period1 + period2 + |offset| < 2 ^ 30) :
    ∃ b, periodicWindowOverlap wnd1 period1 wnd2 period2 offset = some b ∧
      (b = true ↔ ∃ t, 0 ≤ t ∧ BothOpen wnd1 period1 wnd2 period2 offset t) := by
  have hlt1 : wnd1.lo < wnd1.hi := by simpa [Range.isEmpty] using hne1
  have hlt2 : wnd2.lo < wnd2.hi := by simpa [Range.isEmpty] using hne2
  have hg : (0 : Int) < Int.gcd period1 period2 :=
    Int.ofNat_pos.2 (Int.gcd_pos_of_ne_zero_left _ (by omega))
  refine ⟨_, periodicWindowOverlap_eq hc1 hc2 (by omega) (by omega) hb, ?_⟩
  rw [decide_eq_true_iff, modulo_eq_emod _ hg, emod_add_gt_iff hg]
  exact ⟨fun ⟨_, hlo, hhi⟩ => bothOpen_of_multiple hlt1 hlt2 hc1 hc2 hlo hhi,
    fun ⟨_, _, ht⟩ => exists_multiple_of_bothOpen ht⟩

/-- At `offset = INT_MIN`, `lb` leaves `int`. -/
example : periodicWindowOverlap ⟨1, 2, by decide⟩ 3 ⟨0, 1, by decide⟩ 3 (-2147483648) = none := by
  decide

/-- An empty window still reports an overlap: the windows must be non-empty. -/
example : periodicWindowOverlap ⟨3, 3, le_rfl⟩ 10 ⟨0, 5, by decide⟩ 10 0 = some true := by
  decide

end Windows

/-- A window of two time units in every four, and one of two units in every six. -/
def twoInFour : Range := ⟨0, 2, by decide⟩

def twoInSix : Range := ⟨1, 3, by decide⟩

example : periodicWindowOverlap twoInFour 4 twoInSix 6 3 = some true := by decide

theorem twoInFour_twoInSix_overlap : twoInFour.isEmpty = false ∧ twoInSix.isEmpty = false ∧
    (0 ≤ twoInFour.lo ∧ twoInFour.hi ≤ 4) ∧ (0 ≤ twoInSix.lo ∧ twoInSix.hi ≤ 6) ∧
    (4 + 6 + |(3 : Int)| < 2 ^ 30) ∧
    ∃ b, periodicWindowOverlap twoInFour 4 twoInSix 6 3 = some b ∧
      (b = true ↔ ∃ t, 0 ≤ t ∧ BothOpen twoInFour 4 twoInSix 6 3 t) :=
  ⟨by decide, by decide, by decide, by decide, by norm_num,
    periodicWindowOverlap_iff (by decide) (by decide) (by decide) (by decide) (by norm_num)⟩

end Diophant

end Ladybirds
