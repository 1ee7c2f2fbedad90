import Splittable.Proofs.Numeric.Exactness

/-!
# A share of a count

A count of up to 53 bits is held exactly, so only its product with a fraction is rounded.  The
integers around the product are held as well, and rounding does not carry it past them; a fraction
that is held and lies below one is so far below that the product does not round up to the count.

* `le_one_sub_of_fits`      : what is held below one is at least `2 ^ -53` below;
* `nearest_mul_lt`          : a share below one of a count is rounded to less than the count;
* `floor_nearest`           : rounding before the floor moves it by one at most;
* `nearest_mul_mono`        : a greater fraction has no smaller share, whatever the count.
-/

namespace Splittable

variable {q φ γ : ℚ} {n : ℤ}

theorem Binary64.fits_of_value? {x : Binary64} (h : x.value? = some q) (hq : 0 ≤ q) : Fits q := by
  obtain ⟨s, m, hm, -, hvalue⟩ := value?_eq_some h
  cases s with
  | false =>
    obtain rfl : m = q := hvalue
    exact hm
  | true =>
    -- only the negative zero
    obtain rfl : m = 0 := by
      have hm₀ := hm.1
      simp only [if_true] at hvalue
      linarith
    obtain rfl : q = 0 := by simpa using hvalue.symm
    exact hm

/-- A fraction that is held and lies below one is at least one spacing below: from one half on the
spacing is `2 ^ -53`. -/
theorem le_one_sub_of_fits (h : Fits φ) (hlt : φ < 1) : φ ≤ 1 - 1 / 2 ^ 53 := by
  rcases lt_or_ge φ (1 / 2) with hsmall | hlarge
  · have hhalf : (1 : ℚ) / 2 ≤ 1 - 1 / 2 ^ 53 := by norm_num
    exact hsmall.le.trans hhalf
  · have hφ : 0 < φ := by linarith
    have hlow : -1 ≤ floorLog2 φ := le_floorLog2 hφ (by norm_num; linarith)
    have hhigh : floorLog2 φ < 0 := floorLog2_lt hφ (by rwa [zpow_zero])
    have hspacing : spacing φ = 1 / 2 ^ 53 := by
      have hexp : spacingExponent φ = -53 := by
        unfold spacingExponent
        omega
      rw [spacing, hexp]
      norm_num
    -- a multiple of the spacing below one is at least one multiple below
    have hmultiple : φ = (φ / spacing φ).num * spacing φ := by
      rw [Rat.coe_int_num_of_den_eq_one h.2.2, div_mul_cancel₀ _ (spacing_pos φ).ne']
    rw [hspacing] at hmultiple
    generalize (φ / (1 / 2 ^ 53)).num = m at hmultiple
    have hm : m < 2 ^ 53 := by
      have hcast : (m : ℚ) < 2 ^ 53 := by
        rw [hmultiple] at hlt
        linarith
      exact_mod_cast hcast
    have hm' : (m : ℚ) ≤ 2 ^ 53 - 1 := by exact_mod_cast Int.le_sub_one_of_lt hm
    rw [hmultiple]
    linarith

/-- **A share below one of a count is rounded to less than the count.** -/
theorem nearest_mul_lt (hn : 0 < n) (h : Fits φ) (hlt : φ < 1) : nearest (n * φ) < n := by
  have hone : (1 : ℚ) ≤ n := by exact_mod_cast hn
  have hφ := h.1
  have hshare := le_one_sub_of_fits h hlt
  rcases lt_or_ge ((n : ℚ) * φ) 1 with hsmall | hlarge
  · have hle : nearest (n * φ) ≤ 1 := by
      have hbound := nearest_le_of_le_two_zpow (q := n * φ) (k := 0) (by omega)
        (mul_nonneg (by linarith) hφ) (by rw [zpow_zero]; exact hsmall.le)
      rwa [zpow_zero] at hbound
    rcases hone.lt_or_eq with hcount | hcount
    · exact hle.trans_lt hcount
    · -- the share of a single one is the fraction, which is held
      rw [← hcount, one_mul, nearest_of_fits h]
      exact hlt
  · have hproduct : (n : ℚ) * φ ≤ n - n / 2 ^ 53 := by nlinarith
    have hround := (nearest_bounds hlarge).2
    have hgap : (0 : ℚ) < n / 2 ^ 53 / 2 ^ 53 := by positivity
    calc nearest (n * φ) ≤ n * φ + n * φ / 2 ^ 53 := hround
      _ ≤ (n - n / 2 ^ 53) + (n - n / 2 ^ 53) / 2 ^ 53 := by gcongr
      _ < n := by
        rw [sub_div]
        linarith

theorem intCast_le_nearest (hn : 0 ≤ n) (hle : n ≤ 2 ^ 53) (h : n ≤ q) : n ≤ nearest q := by
  rw [← nearest_intCast hn hle]
  exact nearest_mono (by exact_mod_cast hn) h

theorem nearest_le_intCast (hq : 0 ≤ q) (hle : n ≤ 2 ^ 53) (h : q ≤ n) : nearest q ≤ n := by
  have hn : 0 ≤ n := by exact_mod_cast hq.trans h
  rw [← nearest_intCast hn hle]
  exact nearest_mono hq h

/-- **The floor of a rounded magnitude** of up to 53 bits is its own floor, or one more. -/
theorem floor_nearest (hq : 0 ≤ q) (h : q ≤ 2 ^ 53) :
    (nearest q).floor = q.floor ∨ (nearest q).floor = q.floor + 1 := by
  have hfloor : 0 ≤ q.floor := Rat.le_floor_iff.2 (by exact_mod_cast hq)
  have hbelow : ((q.floor : ℤ) : ℚ) ≤ q := Rat.floor_le q
  have habove : q < ((q.floor + 1 : ℤ) : ℚ) := Rat.lt_floor_add_one q
  have hlow : q.floor ≤ (nearest q).floor := by
    refine Rat.le_floor_iff.2 (intCast_le_nearest hfloor ?_ hbelow)
    exact_mod_cast hbelow.trans h
  have hhigh : nearest q ≤ ((q.floor + 1 : ℤ) : ℚ) := by
    rcases le_or_gt (q.floor + 1) (2 ^ 53) with hle | hgt
    · exact nearest_le_intCast hq hle habove.le
    · have hbound := nearest_le_intCast (n := 2 ^ 53) hq le_rfl (by exact_mod_cast h)
      exact hbound.trans (by exact_mod_cast hgt.le)
  have hle : (nearest q).floor ≤ q.floor + 1 := by
    have hcast : ((nearest q).floor : ℚ) ≤ ((q.floor + 1 : ℤ) : ℚ) := (Rat.floor_le _).trans hhigh
    exact_mod_cast hcast
  omega

/-- A greater fraction has no smaller share, whatever the count. -/
theorem nearest_mul_mono (hn : 0 ≤ n) (hφ : 0 ≤ φ) (h : φ ≤ γ) :
    nearest (nearest n * φ) ≤ nearest (nearest n * γ) := by
  have hcount : 0 ≤ nearest n := nearest_nonneg (by exact_mod_cast hn)
  exact nearest_mono (mul_nonneg hcount hφ) (mul_le_mul_of_nonneg_left h hcount)

end Splittable
