import Splittable.Proofs.Numeric.Rounding

/-!
# A fraction of a count

A count is multiplied by a number from zero to one.  The count is rounded when it becomes a binary64
number and the product is rounded once more, so the result can pass the count; it stays a finite
number, and no power of two that bounds the count is passed.

* `nearest_two_zpow`   : powers of two are not rounded;
* `inUnit_iff`         : the numbers from zero to one are finite;
* `value?_ofInt_mul`   : the value of the product;
* `nearest_mul_bounds` : where that value lies.
-/

namespace Splittable

/-- A power of two that is not too small is not rounded. -/
theorem nearest_two_zpow {k : ℤ} (hk : -1074 ≤ k) : nearest ((2 : ℚ) ^ k) = (2 : ℚ) ^ k := by
  have hlog : floorLog2 ((2 : ℚ) ^ k) < k + 1 :=
    floorLog2_lt (by positivity) (zpow_lt_zpow_right₀ one_lt_two (by omega))
  have hexp : spacingExponent ((2 : ℚ) ^ k) ≤ k := by
    unfold spacingExponent
    omega
  exact le_antisymm (nearest_le_two_zpow hexp le_rfl) (two_zpow_le_nearest hexp le_rfl)

/-- A magnitude below a power of two is not rounded past it, whatever its spacing. -/
theorem nearest_le_of_le_two_zpow {q : ℚ} {k : ℤ} (hk : -1074 ≤ k) (hq : 0 ≤ q)
    (h : q ≤ (2 : ℚ) ^ k) : nearest q ≤ (2 : ℚ) ^ k :=
  (nearest_mono hq h).trans_eq (nearest_two_zpow hk)

namespace Binary64

variable {n : ℤ} {f : Binary64} {φ : ℚ}

theorem one_eq : ∃ h, one = .finite false 1 h := by
  have hself : nearest 1 = 1 := by simpa using nearest_two_zpow (k := 0) (by omega)
  have hfits : Fits (nearest 1) :=
    fits_of_le zero_le_one (one_le_zpow₀ one_le_two (by omega))
  have hone : one = .finite false (nearest 1) hfits := by
    unfold one ofInt round
    rw [if_neg (by norm_num), if_neg (by norm_num), ← ofMagnitude_eq _ hfits]
    simp
  refine ⟨hself ▸ hfits, ?_⟩
  rw [hone]
  simp [hself]

theorem value?_one : one.value? = some 1 := by
  obtain ⟨hfits, heq⟩ := one_eq
  rw [heq]
  rfl

/-- **The numbers from zero to one are finite**, with values from zero to one. -/
theorem inUnit_iff : f.InUnit ↔ ∃ φ, f.value? = some φ ∧ 0 ≤ φ ∧ φ ≤ 1 := by
  obtain ⟨h₀, hzero⟩ := zero_eq
  obtain ⟨h₁, hone⟩ := one_eq
  unfold InUnit
  cases f with
  | nan =>
    rw [hzero]
    exact iff_of_false (fun h => nomatch h.1) (fun ⟨_, h, _⟩ => nomatch h)
  | infinite s =>
    rw [hzero, hone]
    refine iff_of_false (fun h => ?_) (fun ⟨_, h, _⟩ => nomatch h)
    -- infinity of either sign is beyond one of the two ends
    cases s with
    | false => exact nomatch h.2
    | true => exact nomatch h.1
  | finite s m hm =>
    have hvalue : (Binary64.finite s m hm).value? = some (if s then -m else m) := by
      cases s <;> rfl
    rw [le_iff value?_zero hvalue, le_iff hvalue value?_one, hvalue]
    simp

theorem ofInt_eq (hn : 0 ≤ n) (h : (n : ℚ) ≤ (2 : ℚ) ^ (1023 : ℤ)) :
    ∃ hfits, ofInt n = .finite false (nearest n) hfits := by
  have hn' : (0 : ℚ) ≤ n := by exact_mod_cast hn
  refine ⟨fits_of_le hn' h, ?_⟩
  unfold ofInt round
  rw [if_neg (not_lt.2 hn')]
  split
  · rename_i hzero
    rw [← ofMagnitude_eq, hzero]
  · rw [← ofMagnitude_eq]

/-- **Where the fraction of a count lies.** -/
theorem nearest_mul_bounds {k : ℤ} (hk : -1074 ≤ k) (hn : 0 ≤ n) (h : (n : ℚ) ≤ (2 : ℚ) ^ k)
    (hφ : 0 ≤ φ) (hφ' : φ ≤ 1) :
    0 ≤ nearest n * φ ∧ nearest n * φ ≤ (2 : ℚ) ^ k ∧
      0 ≤ nearest (nearest n * φ) ∧ nearest (nearest n * φ) ≤ (2 : ℚ) ^ k := by
  have hn' : (0 : ℚ) ≤ n := by exact_mod_cast hn
  have hcount := nearest_nonneg hn'
  have hcount' := nearest_le_of_le_two_zpow hk hn' h
  have hlow : 0 ≤ nearest n * φ := mul_nonneg hcount hφ
  have hhigh : nearest n * φ ≤ (2 : ℚ) ^ k :=
    (mul_le_of_le_one_right hcount hφ').trans hcount'
  exact ⟨hlow, hhigh, nearest_nonneg hlow, nearest_le_of_le_two_zpow hk hlow hhigh⟩

/-- **The fraction of a count**: the count is rounded, and then the product. -/
theorem value?_ofInt_mul (hn : 0 ≤ n) (h : (n : ℚ) ≤ (2 : ℚ) ^ (1023 : ℤ))
    (hf : f.value? = some φ) (hφ : 0 ≤ φ) (hφ' : φ ≤ 1) :
    (ofInt n * f).value? = some (nearest (nearest n * φ)) := by
  obtain ⟨hcount, hofInt⟩ := ofInt_eq hn h
  obtain ⟨hlow, hhigh, -, -⟩ := nearest_mul_bounds (by omega) hn h hφ hφ'
  obtain ⟨s, m, hm, rfl, hvalue⟩ := value?_eq_some hf
  have hproduct : ofInt n * .finite s m hm = ofMagnitude s (nearest n * m) := by
    rw [hofInt]
    show ofMagnitude (false != s) (nearest n * m) = _
    simp
  rw [hproduct]
  cases s with
  | false =>
    obtain rfl : m = φ := by simpa using hvalue
    rw [ofMagnitude_eq _ (fits_of_le hlow hhigh)]
    rfl
  | true =>
    -- a number from zero to one is negative only as the negative zero
    obtain rfl : m = 0 := by
      have hneg : -m = φ := by simpa using hvalue
      have hm₀ := hm.1
      linarith
    obtain rfl : φ = 0 := by simpa using hvalue.symm
    rw [ofMagnitude_eq _ (fits_of_le hlow hhigh)]
    simp [value?]

end Binary64

end Splittable
