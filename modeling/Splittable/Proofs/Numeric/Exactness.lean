import Splittable.Proofs.Numeric.Fractions

/-!
# How far rounding moves a magnitude

A magnitude moves by at most half the spacing around it, and one that binary64 holds does not move
at all.  Integers are held up to 53 bits; beyond that they are still rounded to integers.

* `abs_nearest_sub_le`   : half a spacing, and of a magnitude from one on `2 ^ -53` of it;
* `nearest_lt_one`       : what is rounded up to one is very near to it;
* `nearest_of_fits`      : what is held is not moved;
* `nearest_intCast`      : neither is an integer of up to 53 bits;
* `exists_nearest_eq`    : an integer is rounded to an integer.
-/

namespace Splittable

variable {q : ℚ} {n : ℤ}

/-! ## The distance -/

theorem abs_roundHalfEven_sub_le (q : ℚ) : |(roundHalfEven q : ℚ) - q| ≤ 1 / 2 := by
  have hlow : ((q.floor : ℤ) : ℚ) ≤ q := Rat.floor_le q
  have hhigh : q < ((q.floor + 1 : ℤ) : ℚ) := Rat.lt_floor_add_one q
  push_cast at hhigh
  unfold roundHalfEven
  dsimp only
  rw [abs_le]
  split
  · constructor <;> linarith
  split
  · push_cast
    constructor <;> linarith
  · -- a tie: either neighbour is half a unit away
    split <;> push_cast <;> constructor <;> linarith

/-- **A magnitude moves by at most half the spacing around it.** -/
theorem abs_nearest_sub_le (q : ℚ) : |nearest q - q| ≤ spacing q / 2 := by
  have hpos := spacing_pos q
  have hround := abs_roundHalfEven_sub_le (q / spacing q)
  have hdiff : nearest q - q =
      ((roundHalfEven (q / spacing q) : ℚ) - q / spacing q) * spacing q := by
    rw [sub_mul, div_mul_cancel₀ _ hpos.ne']
    rfl
  rw [hdiff, abs_mul, abs_of_pos hpos]
  nlinarith

/-- From one on there are at least 52 binary places below the leading one. -/
theorem spacing_le_div (h : 1 ≤ q) : spacing q ≤ q / 2 ^ 52 := by
  have hq : 0 < q := zero_lt_one.trans_le h
  have hlog : 0 ≤ floorLog2 q := le_floorLog2 hq (by simpa using h)
  have hexp : spacingExponent q = floorLog2 q - 52 := by
    unfold spacingExponent
    omega
  have hle := (floorLog2_spec hq).1
  rw [spacing, hexp, zpow_sub₀ two_ne_zero]
  gcongr
  norm_num

theorem nearest_bounds (h : 1 ≤ q) :
    q - q / 2 ^ 53 ≤ nearest q ∧ nearest q ≤ q + q / 2 ^ 53 := by
  have habs := abs_le.1 (abs_nearest_sub_le q)
  have hspacing := spacing_le_div h
  constructor <;> linarith

/-- Below one the spacing is at most `2 ^ -53`, so only what is within half of that is rounded up
to one. -/
theorem nearest_lt_one (hq : 0 < q) (h : q < 1 - 1 / 2 ^ 54) : nearest q < 1 := by
  have hlog : floorLog2 q < 0 := floorLog2_lt hq (by rw [zpow_zero]; linarith)
  have hspacing : spacing q ≤ (2 : ℚ) ^ (-53 : ℤ) := by
    apply zpow_le_zpow_right₀ one_le_two
    unfold spacingExponent
    omega
  have hdistance := (abs_le.1 (abs_nearest_sub_le q)).2
  norm_num at hspacing h
  linarith

/-! ## What is held -/

theorem nearest_of_mul (h : q = n * spacing q) : nearest q = q :=
  le_antisymm ((nearest_le h.le).trans_eq h.symm) (h.trans_le (le_nearest h.symm.le))

/-- **What binary64 holds is not moved.** -/
theorem nearest_of_fits (h : Fits q) : nearest q = q := by
  apply nearest_of_mul (n := (q / spacing q).num)
  rw [Rat.coe_int_num_of_den_eq_one h.2.2, div_mul_cancel₀ _ (spacing_pos q).ne']

theorem nearest_nearest (hq : 0 ≤ q) (h : q ≤ (2 : ℚ) ^ (1023 : ℤ)) :
    nearest (nearest q) = nearest q :=
  nearest_of_fits (Binary64.fits_of_le hq h)

theorem nearest_intCast_of_spacing (h : spacingExponent n ≤ 0) : nearest n = n := by
  obtain ⟨m, hm⟩ := exists_mul_spacing (n : ℚ) h
  apply nearest_of_mul (n := n * m)
  push_cast
  rw [mul_assoc, ← hm]
  simp

/-- **An integer of up to 53 bits is not moved.** -/
theorem nearest_intCast (hn : 0 ≤ n) (h : n ≤ 2 ^ 53) : nearest n = n := by
  rcases h.lt_or_eq with hlt | rfl
  · rcases hn.lt_or_eq with hpos | rfl
    · apply nearest_intCast_of_spacing
      have hlog : floorLog2 (n : ℚ) < 53 :=
        floorLog2_lt (by exact_mod_cast hpos) (by exact_mod_cast hlt)
      unfold spacingExponent
      omega
    · simp
  · have hpower := nearest_two_zpow (k := 53) (by omega)
    norm_num at hpower ⊢
    exact hpower

/-- An integer is rounded to an integer: its spacing is an integer, or divides one. -/
theorem exists_nearest_eq (n : ℤ) : ∃ m : ℤ, nearest n = m := by
  rcases le_total (spacingExponent (n : ℚ)) 0 with hle | hge
  · exact ⟨n, nearest_intCast_of_spacing hle⟩
  · obtain ⟨k, hk⟩ := Int.eq_ofNat_of_zero_le hge
    refine ⟨roundHalfEven (n / spacing n) * 2 ^ k, ?_⟩
    rw [nearest, spacing, hk]
    push_cast
    rfl

end Splittable
