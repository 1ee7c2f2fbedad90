import Mathlib.Algebra.Order.Field.Power
import Mathlib.Data.Rat.Floor
import Mathlib.Tactic.FieldSimp
import Mathlib.Tactic.Linarith
import Mathlib.Tactic.NormNum
import Mathlib.Tactic.Positivity
import Mathlib.Tactic.Ring
import Splittable.Numeric.Binary64

/-!
# Rounding is monotone

A greater magnitude is never rounded to a smaller number.  Within one spacing that is the
monotonicity of rounding to integers; across two spacings a power of two lies in between, which
both sides reach without rounding.

* `floorLog2_spec`      : the binary logarithm;
* `nearest_mono`        : rounding of magnitudes is monotone;
* `fits_nearest`        : a rounded magnitude is held exactly, unless it is too large;
* `value?_ofInt`        : an integer of moderate size becomes a finite number;
* `zero_le_sub`         : a difference is not negative if the numbers are in order.
-/

namespace Splittable

/-! ## The binary logarithm -/

theorem floorLog2_spec {q : ℚ} (hq : 0 < q) :
    (2 : ℚ) ^ floorLog2 q ≤ q ∧ q < (2 : ℚ) ^ (floorLog2 q + 1) := by
  have hnum : 0 < q.num := Rat.num_pos.2 hq
  have hn₁ := Nat.log2_self_le (show q.num.natAbs ≠ 0 by omega)
  have hn₂ := Nat.lt_log2_self (n := q.num.natAbs)
  have hd₁ := Nat.log2_self_le q.den_nz
  have hd₂ := Nat.lt_log2_self (n := q.den)
  have hquot : q = (q.num.natAbs : ℚ) / q.den := by
    have habs : ((q.num.natAbs : ℤ) : ℚ) = q.num := by
      rw [Int.natAbs_of_nonneg hnum.le]
    rw [← Int.cast_natCast q.num.natAbs, habs, Rat.num_div_den]
  unfold floorLog2
  generalize q.num.natAbs.log2 = a at *
  generalize q.den.log2 = b at *
  have hn₁' : (2 : ℚ) ^ (a : ℤ) ≤ q.num.natAbs := by exact_mod_cast hn₁
  have hn₂' : (q.num.natAbs : ℚ) < 2 ^ ((a : ℤ) + 1) := by exact_mod_cast hn₂
  have hd₁' : (2 : ℚ) ^ (b : ℤ) ≤ q.den := by exact_mod_cast hd₁
  have hd₂' : (q.den : ℚ) < 2 ^ ((b : ℤ) + 1) := by exact_mod_cast hd₂
  have hden : (0 : ℚ) < q.den := by exact_mod_cast q.pos
  have hupper : q < (2 : ℚ) ^ ((a : ℤ) - b + 1) := by
    rw [hquot, div_lt_iff₀ hden]
    calc (q.num.natAbs : ℚ) < 2 ^ ((a : ℤ) + 1) := hn₂'
      _ = 2 ^ ((a : ℤ) - b + 1) * 2 ^ (b : ℤ) := by rw [← zpow_add₀ two_ne_zero]; congr 1; ring
      _ ≤ 2 ^ ((a : ℤ) - b + 1) * q.den := by gcongr
  have hlower : (2 : ℚ) ^ ((a : ℤ) - b - 1) ≤ q := by
    rw [hquot, le_div_iff₀ hden]
    calc (2 : ℚ) ^ ((a : ℤ) - b - 1) * q.den ≤ 2 ^ ((a : ℤ) - b - 1) * 2 ^ ((b : ℤ) + 1) := by
          gcongr
      _ = 2 ^ (a : ℤ) := by rw [← zpow_add₀ two_ne_zero]; congr 1; ring
      _ ≤ q.num.natAbs := hn₁'
  dsimp only
  split
  · exact ⟨‹_›, hupper⟩
  · refine ⟨hlower, ?_⟩
    rw [sub_add_cancel]
    exact not_le.1 ‹_›

theorem floorLog2_lt {q : ℚ} (hq : 0 < q) {k : ℤ} (h : q < (2 : ℚ) ^ k) : floorLog2 q < k :=
  (zpow_lt_zpow_iff_right₀ one_lt_two).1 ((floorLog2_spec hq).1.trans_lt h)

theorem le_floorLog2 {q : ℚ} (hq : 0 < q) {k : ℤ} (h : (2 : ℚ) ^ k ≤ q) : k ≤ floorLog2 q :=
  Int.lt_add_one_iff.1
    ((zpow_lt_zpow_iff_right₀ one_lt_two).1 (h.trans_lt (floorLog2_spec hq).2))

/-! ## Rounding to integers -/

theorem floor_le_roundHalfEven (q : ℚ) : q.floor ≤ roundHalfEven q := by
  unfold roundHalfEven
  dsimp only
  split
  · exact le_rfl
  split
  · omega
  split <;> omega

theorem roundHalfEven_le_floor_add_one (q : ℚ) : roundHalfEven q ≤ q.floor + 1 := by
  unfold roundHalfEven
  dsimp only
  split
  · omega
  split
  · exact le_rfl
  split <;> omega

@[simp] theorem roundHalfEven_intCast (n : ℤ) : roundHalfEven n = n := by
  simp [roundHalfEven]

/-- **Rounding to integers is monotone.** -/
theorem roundHalfEven_mono {q r : ℚ} (h : q ≤ r) : roundHalfEven q ≤ roundHalfEven r := by
  have hfloor := Rat.floor_monotone h
  rcases hfloor.lt_or_eq with hlt | heq
  · have h₁ := roundHalfEven_le_floor_add_one q
    have h₂ := floor_le_roundHalfEven r
    omega
  · -- both lie between the same two integers
    unfold roundHalfEven
    dsimp only
    rw [heq]
    have hrest : q - (r.floor : ℚ) ≤ r - (r.floor : ℚ) := by linarith
    split <;> split <;> (try split) <;> (try split) <;> first | omega | (exfalso; linarith)

/-! ## Spacings -/

theorem spacing_pos (q : ℚ) : 0 < spacing q := by
  unfold spacing
  positivity

theorem floorLog2_mono {q r : ℚ} (hq : 0 < q) (h : q ≤ r) : floorLog2 q ≤ floorLog2 r :=
  le_floorLog2 (hq.trans_le h) ((floorLog2_spec hq).1.trans h)

theorem spacingExponent_mono {q r : ℚ} (hq : 0 < q) (h : q ≤ r) :
    spacingExponent q ≤ spacingExponent r := by
  have hlog := floorLog2_mono hq h
  unfold spacingExponent
  omega

@[simp] theorem nearest_zero : nearest 0 = 0 := by
  have hround := roundHalfEven_intCast 0
  rw [Int.cast_zero] at hround
  rw [nearest, zero_div, hround, Int.cast_zero, zero_mul]

theorem le_nearest {q : ℚ} {n : ℤ} (h : n * spacing q ≤ q) : n * spacing q ≤ nearest q := by
  have hn : (n : ℚ) ≤ q / spacing q := (le_div_iff₀ (spacing_pos q)).2 h
  have hround := roundHalfEven_mono hn
  rw [roundHalfEven_intCast] at hround
  unfold nearest
  exact mul_le_mul_of_nonneg_right (by exact_mod_cast hround) (spacing_pos q).le

theorem nearest_le {q : ℚ} {n : ℤ} (h : q ≤ n * spacing q) : nearest q ≤ n * spacing q := by
  have hn : q / spacing q ≤ (n : ℚ) := (div_le_iff₀ (spacing_pos q)).2 h
  have hround := roundHalfEven_mono hn
  rw [roundHalfEven_intCast] at hround
  unfold nearest
  exact mul_le_mul_of_nonneg_right (by exact_mod_cast hround) (spacing_pos q).le

theorem nearest_nonneg {q : ℚ} (hq : 0 ≤ q) : 0 ≤ nearest q := by
  have h := le_nearest (q := q) (n := 0) (by simpa using hq)
  simpa using h

/-- A power of two that is not finer than the spacing is a multiple of it. -/
theorem exists_mul_spacing (q : ℚ) {k : ℤ} (h : spacingExponent q ≤ k) :
    ∃ n : ℤ, (2 : ℚ) ^ k = n * spacing q := by
  obtain ⟨d, hd⟩ := Int.le.dest h
  refine ⟨2 ^ d, ?_⟩
  unfold spacing
  rw [← hd, zpow_add₀ two_ne_zero, zpow_natCast, mul_comm]
  push_cast
  rfl

theorem nearest_le_two_zpow {q : ℚ} {k : ℤ} (hk : spacingExponent q ≤ k) (h : q ≤ (2 : ℚ) ^ k) :
    nearest q ≤ (2 : ℚ) ^ k := by
  obtain ⟨n, hn⟩ := exists_mul_spacing q hk
  rw [hn] at h ⊢
  exact nearest_le h

theorem two_zpow_le_nearest {q : ℚ} {k : ℤ} (hk : spacingExponent q ≤ k) (h : (2 : ℚ) ^ k ≤ q) :
    (2 : ℚ) ^ k ≤ nearest q := by
  obtain ⟨n, hn⟩ := exists_mul_spacing q hk
  rw [hn] at h ⊢
  exact le_nearest h

/-- **Rounding of magnitudes is monotone.** -/
theorem nearest_mono {q r : ℚ} (hq : 0 ≤ q) (h : q ≤ r) : nearest q ≤ nearest r := by
  rcases hq.lt_or_eq with hq | rfl
  · rcases (spacingExponent_mono hq h).lt_or_eq with hlt | heq
    · -- the power of two at the lower end of the spacing of `r`
      have hr := hq.trans_le h
      have hexp : spacingExponent r = floorLog2 r - 52 := by
        unfold spacingExponent at hlt ⊢
        omega
      have hbelow : q ≤ (2 : ℚ) ^ floorLog2 r := by
        apply (floorLog2_spec hq).2.le.trans
        apply zpow_le_zpow_right₀ one_le_two
        unfold spacingExponent at hlt
        omega
      calc nearest q ≤ (2 : ℚ) ^ floorLog2 r := nearest_le_two_zpow (by omega) hbelow
        _ ≤ nearest r := two_zpow_le_nearest (by omega) (floorLog2_spec hr).1
    · have hround := roundHalfEven_mono (div_le_div_of_nonneg_right h (spacing_pos q).le)
      have hspacing : spacing r = spacing q := by rw [spacing, spacing, heq]
      unfold nearest
      rw [hspacing]
      exact mul_le_mul_of_nonneg_right (by exact_mod_cast hround) (spacing_pos q).le
  · rw [nearest_zero]
    exact nearest_nonneg h

/-! ## Rounded magnitudes are held exactly -/

/-- What a magnitude is rounded to has a spacing of at most one more binary place. -/
theorem spacingExponent_nearest_le {q : ℚ} (hq : 0 < q) (hn : 0 < nearest q) :
    spacingExponent (nearest q) ≤ spacingExponent q ∨
      nearest q = (2 : ℚ) ^ (spacingExponent q + 53) := by
  have hbound : nearest q ≤ (2 : ℚ) ^ (spacingExponent q + 53) := by
    refine nearest_le_two_zpow (by omega) ((floorLog2_spec hq).2.le.trans ?_)
    apply zpow_le_zpow_right₀ one_le_two
    unfold spacingExponent
    omega
  rcases hbound.lt_or_eq with hlt | heq
  · left
    have hlog := floorLog2_lt hn hlt
    unfold spacingExponent at hlog ⊢
    omega
  · exact Or.inr heq

/-- **A rounded magnitude is held exactly**, unless it is too large. -/
theorem fits_nearest {q : ℚ} (hq : 0 ≤ q) (hlt : nearest q < (2 : ℚ) ^ (1024 : ℤ)) :
    Fits (nearest q) := by
  refine ⟨nearest_nonneg hq, hlt, ?_⟩
  have hden : ∀ n : ℤ, nearest q = n * spacing (nearest q) →
      (nearest q / spacing (nearest q)).den = 1 := by
    intro n hn
    have hpos := spacing_pos (nearest q)
    have hquot : nearest q / spacing (nearest q) = n := by
      rw [div_eq_iff hpos.ne']
      exact hn
    rw [hquot, Rat.den_intCast]
  rcases (nearest_nonneg hq).lt_or_eq with hpos | hzero
  · have hq' : 0 < q := by
      rcases hq.lt_or_eq with h | rfl
      · exact h
      · simp at hpos
    rcases spacingExponent_nearest_le hq' hpos with hle | heq
    · -- a multiple of a coarser spacing
      obtain ⟨n, hn⟩ := exists_mul_spacing (nearest q) hle
      apply hden (roundHalfEven (q / spacing q) * n)
      push_cast
      rw [mul_assoc, ← hn]
      rfl
    · -- a power of two
      have hexp : spacingExponent (nearest q) ≤ spacingExponent q + 53 := by
        have hlog : floorLog2 (nearest q) < spacingExponent q + 53 + 1 := by
          apply floorLog2_lt hpos
          rw [heq]
          exact zpow_lt_zpow_right₀ one_lt_two (by omega)
        unfold spacingExponent at hlog ⊢
        omega
      obtain ⟨n, hn⟩ := exists_mul_spacing (nearest q) hexp
      exact hden n (heq.trans hn)
  · exact hden 0 (by simp [← hzero])

/-! ## Numbers -/

namespace Binary64

/-- The value that a rational is rounded to, its sign kept. -/
def rounded (q : ℚ) : ℚ :=
  if q < 0 then -nearest (-q) else nearest q

theorem rounded_mono {q r : ℚ} (h : q ≤ r) : rounded q ≤ rounded r := by
  unfold rounded
  split <;> split
  · exact neg_le_neg (nearest_mono (by linarith) (by linarith))
  · have h₁ := nearest_nonneg (q := -q) (by linarith)
    have h₂ := nearest_nonneg (q := r) (by linarith)
    linarith
  · linarith
  · exact nearest_mono (by linarith) h

theorem ofMagnitude_eq {q : ℚ} (negative : Bool) (h : Fits (nearest q)) :
    ofMagnitude negative q = .finite negative (nearest q) h := by
  unfold ofMagnitude
  rw [dif_pos h]

theorem fits_of_le {q : ℚ} (hq : 0 ≤ q) (h : q ≤ (2 : ℚ) ^ (1023 : ℤ)) : Fits (nearest q) := by
  apply fits_nearest hq
  have hself : nearest ((2 : ℚ) ^ (1023 : ℤ)) ≤ (2 : ℚ) ^ (1023 : ℤ) := by
    refine nearest_le_two_zpow ?_ le_rfl
    have hlog : floorLog2 ((2 : ℚ) ^ (1023 : ℤ)) < 1024 :=
      floorLog2_lt (by positivity) (zpow_lt_zpow_right₀ one_lt_two (by omega))
    unfold spacingExponent
    omega
  calc nearest q ≤ nearest ((2 : ℚ) ^ (1023 : ℤ)) := nearest_mono hq h
    _ ≤ (2 : ℚ) ^ (1023 : ℤ) := hself
    _ < (2 : ℚ) ^ (1024 : ℤ) := zpow_lt_zpow_right₀ one_lt_two (by omega)

/-- A rational of moderate size becomes a finite number of its rounded value. -/
theorem value?_round (zeroNegative : Bool) {q : ℚ} (h : |q| ≤ (2 : ℚ) ^ (1023 : ℤ)) :
    (round zeroNegative q).value? = some (rounded q) := by
  have habs := abs_le.1 h
  unfold round rounded
  split
  · rw [ofMagnitude_eq _ (fits_of_le (by linarith) (by linarith))]
    rfl
  split
  · subst q
    rw [ofMagnitude_eq _ (fits_of_le le_rfl (by positivity))]
    cases zeroNegative <;> simp [value?]
  · rename_i hneg hzero
    have hpos : 0 ≤ q := not_lt.1 hneg
    rw [ofMagnitude_eq _ (fits_of_le hpos habs.2)]
    rfl

theorem value?_ofInt {n : ℤ} (h : |n| ≤ 2 ^ 63) : (ofInt n).value? = some (rounded n) := by
  refine value?_round false ?_
  have hcast : |(n : ℚ)| ≤ (2 : ℚ) ^ (63 : ℤ) := by exact_mod_cast h
  exact hcast.trans (zpow_le_zpow_right₀ one_le_two (by omega))

theorem zero_eq : ∃ h, zero = .finite false 0 h := by
  have hfits : Fits (nearest 0) := fits_of_le le_rfl (by positivity)
  have hzero : zero = .finite false (nearest 0) hfits := by
    unfold zero ofInt round
    rw [if_neg (by norm_num), if_pos (by norm_num), ofMagnitude_eq _ hfits]
  refine ⟨nearest_zero ▸ hfits, ?_⟩
  rw [hzero]
  simp

theorem zero_le_finite {m : ℚ} (h : Fits m) : zero ≤ .finite false m h := by
  obtain ⟨h₀, heq⟩ := zero_eq
  rw [heq]
  exact decide_eq_true h.1

theorem zero_le_ofMagnitude {q : ℚ} : zero ≤ ofMagnitude false q := by
  unfold ofMagnitude
  split
  · exact zero_le_finite _
  · obtain ⟨h₀, heq⟩ := zero_eq
    rw [heq]
    rfl

theorem zero_le_round (zeroNegative : Bool) {q : ℚ} (hq : 0 ≤ q) : zero ≤ round zeroNegative q := by
  unfold round
  rw [if_neg (not_lt.2 hq)]
  split
  · have hfits : Fits (nearest 0) := fits_of_le le_rfl (by positivity)
    obtain ⟨h₀, heq⟩ := zero_eq
    rw [ofMagnitude_eq _ hfits, heq]
    cases zeroNegative <;> exact decide_eq_true (by simp)
  · exact zero_le_ofMagnitude

theorem value?_eq_some {x : Binary64} {q : ℚ} (h : x.value? = some q) :
    ∃ s m hm, x = .finite s m hm ∧ (if s then -m else m) = q := by
  cases x with
  | nan => cases h
  | infinite s => cases h
  | finite s m hm => cases s <;> exact ⟨_, m, hm, rfl, by simpa [value?] using h⟩

theorem le_iff {x y : Binary64} {a b : ℚ} (hx : x.value? = some a) (hy : y.value? = some b) :
    x ≤ y ↔ a ≤ b := by
  obtain ⟨s, m, hm, rfl, rfl⟩ := value?_eq_some hx
  obtain ⟨t, n, hn, rfl, rfl⟩ := value?_eq_some hy
  exact decide_eq_true_iff

theorem value?_zero : zero.value? = some 0 := by
  obtain ⟨hfits, heq⟩ := zero_eq
  rw [heq]
  rfl

/-- **A difference is not negative if the numbers are in order.** -/
theorem zero_le_sub {x y : Binary64} {a b : ℚ} (hx : x.value? = some a) (hy : y.value? = some b)
    (h : b ≤ a) : zero ≤ x - y := by
  obtain ⟨s, m, hm, rfl, rfl⟩ := value?_eq_some hx
  obtain ⟨t, n, hn, rfl, rfl⟩ := value?_eq_some hy
  apply zero_le_round _
  cases t <;> simp at h ⊢ <;> linarith

end Binary64

end Splittable
