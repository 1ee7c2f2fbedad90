import Splittable.Proofs.Numeric.Exactness

/-!
# Results by value

What comparisons, `clamp` and the operations come to, in terms of the exact values of their
operands: a comparison compares the values, and an operation rounds the exact result once.

* `lt_iff`, `value?_clamp`                 : comparison, and what is held between two numbers;
* `value?_add`, `value?_sub`, `value?_div` : operations;
* `rounded_rounded`                        : what has been rounded is not moved again;
* `rounded_intCast`, `value?_ofInt_exact`  : integers of up to 53 bits are held exactly;
* `ofInt_congr`                            : integers that are rounded alike are the same number;
* `ofInt_sub_ofInt`                        : differences of integers, up to the sign of zero.
-/

namespace Splittable.Binary64

variable {x y low high : Binary64} {a b l u : ℚ} {m n : ℤ}

/-! ## Comparison -/

theorem lt_iff (hx : x.value? = some a) (hy : y.value? = some b) : x < y ↔ a < b := by
  have hle := le_iff hy hx
  obtain ⟨s, m, hm, rfl, rfl⟩ := value?_eq_some hx
  obtain ⟨t, n, hn, rfl, rfl⟩ := value?_eq_some hy
  rw [← not_le, ← hle]
  show (!(Binary64.finite t n hn).ble (.finite s m hm)) = true ↔
    ¬(Binary64.finite t n hn).ble (.finite s m hm) = true
  simp

theorem one_inUnit : one.InUnit :=
  inUnit_iff.2 ⟨1, value?_one, zero_le_one, le_rfl⟩

theorem value?_clamp (hx : x.value? = some a) (hlow : low.value? = some l)
    (hhigh : high.value? = some u) : (x.clamp low high).value? = some (min (max a l) u) := by
  have hraised : (if x < low then low else x).value? = some (max a l) := by
    split
    · rename_i hlt
      rw [max_eq_right ((lt_iff hx hlow).1 hlt).le, hlow]
    · rename_i hnot
      rw [max_eq_left (not_lt.1 (mt (lt_iff hx hlow).2 hnot)), hx]
  unfold clamp
  dsimp only
  generalize (if x < low then low else x) = raised at hraised ⊢
  split
  · rename_i hlt
    rw [min_eq_right ((lt_iff hhigh hraised).1 hlt).le, hhigh]
  · rename_i hnot
    rw [min_eq_left (not_lt.1 (mt (lt_iff hhigh hraised).2 hnot)), hraised]

theorem clamp_eq_self (hlow : ¬ x < low) (hhigh : ¬ high < x) : x.clamp low high = x := by
  simp only [clamp, if_neg hlow, if_neg hhigh]

theorem clamp_eq_low (hx : x < low) (hlow : ¬ high < low) : x.clamp low high = low := by
  simp only [clamp, if_pos hx, if_neg hlow]

/-! ## Operations -/

theorem value?_add (hx : x.value? = some a) (hy : y.value? = some b)
    (h : |a + b| ≤ (2 : ℚ) ^ (1023 : ℤ)) : (x + y).value? = some (rounded (a + b)) := by
  obtain ⟨s, m, hm, rfl, rfl⟩ := value?_eq_some hx
  obtain ⟨t, n, hn, rfl, rfl⟩ := value?_eq_some hy
  exact value?_round _ h

theorem value?_neg (hx : x.value? = some a) : x.neg.value? = some (-a) := by
  obtain ⟨s, m, hm, rfl, rfl⟩ := value?_eq_some hx
  cases s <;> simp [neg, value?]

theorem value?_sub (hx : x.value? = some a) (hy : y.value? = some b)
    (h : |a - b| ≤ (2 : ℚ) ^ (1023 : ℤ)) : (x - y).value? = some (rounded (a - b)) := by
  rw [sub_eq_add_neg] at h ⊢
  exact value?_add hx (value?_neg hy) h

/-- The quotient of two numbers that are not negative. -/
theorem value?_div (hx : x.value? = some a) (hy : y.value? = some b) (ha : 0 ≤ a) (hb : 0 < b)
    (h : a / b ≤ (2 : ℚ) ^ (1023 : ℤ)) : (x / y).value? = some (nearest (a / b)) := by
  obtain ⟨s, m, hm, rfl, hvx⟩ := value?_eq_some hx
  obtain ⟨t, n, hn, rfl, hvy⟩ := value?_eq_some hy
  have hn₀ := hn.1
  have hm₀ := hm.1
  -- a divisor that is positive is not negative, and a dividend that is not negative is, as one
  -- with a sign, the negative zero
  obtain rfl : t = false := by
    cases t with
    | false => rfl
    | true =>
      simp only [if_true] at hvy
      linarith
  obtain rfl : n = b := hvy
  obtain rfl : m = a := by
    cases s with
    | false => exact hvx
    | true =>
      simp only [if_true] at hvx
      linarith
  have hquotient : Binary64.finite s m hm / .finite false n hn = ofMagnitude s (m / n) := by
    show (if n = 0 then _ else ofMagnitude (s != false) (m / n)) = _
    rw [if_neg hb.ne', Bool.bne_false]
  rw [hquotient, ofMagnitude_eq _ (fits_of_le (div_nonneg ha hb.le) h)]
  cases s with
  | false => rfl
  | true =>
    obtain rfl : m = 0 := by
      simp only [if_true] at hvx
      linarith
    simp [value?]

/-! ## Integers -/

theorem rounded_of_nonneg (h : 0 ≤ a) : rounded a = nearest a :=
  if_neg (not_lt.2 h)

theorem rounded_of_neg (h : a < 0) : rounded a = -nearest (-a) :=
  if_pos h

theorem rounded_nonneg (h : 0 ≤ a) : 0 ≤ rounded a := by
  rw [rounded_of_nonneg h]
  exact nearest_nonneg h

theorem rounded_neg (a : ℚ) : rounded (-a) = -rounded a := by
  rcases lt_trichotomy a 0 with hneg | rfl | hpos
  · rw [rounded_of_neg hneg, rounded_of_nonneg (by linarith), neg_neg]
  · rw [neg_zero, rounded_of_nonneg le_rfl, nearest_zero, neg_zero]
  · rw [rounded_of_nonneg hpos.le, rounded_of_neg (by linarith), neg_neg]

theorem rounded_rounded (h : |a| ≤ (2 : ℚ) ^ (1023 : ℤ)) : rounded (rounded a) = rounded a := by
  have hnonneg : ∀ b : ℚ, 0 ≤ b → b ≤ (2 : ℚ) ^ (1023 : ℤ) → rounded (rounded b) = rounded b := by
    intro b hb hle
    rw [rounded_of_nonneg hb, rounded_of_nonneg (nearest_nonneg hb), nearest_nearest hb hle]
  obtain ⟨hlow, hhigh⟩ := abs_le.1 h
  rcases le_total 0 a with ha | ha
  · exact hnonneg a ha hhigh
  · have hopposite := hnonneg (-a) (by linarith) (by linarith)
    rwa [rounded_neg, rounded_neg, neg_inj] at hopposite

theorem abs_rounded_le {k : ℤ} (hk : -1074 ≤ k) (h : |a| ≤ (2 : ℚ) ^ k) :
    |rounded a| ≤ (2 : ℚ) ^ k := by
  obtain ⟨hlow, hhigh⟩ := abs_le.1 h
  rcases lt_or_ge a 0 with hneg | hnonneg
  · rw [rounded_of_neg hneg, abs_neg, abs_of_nonneg (nearest_nonneg (by linarith))]
    exact nearest_le_of_le_two_zpow hk (by linarith) (by linarith)
  · rw [rounded_of_nonneg hnonneg, abs_of_nonneg (nearest_nonneg hnonneg)]
    exact nearest_le_of_le_two_zpow hk hnonneg hhigh

/-- **An integer of up to 53 bits is not moved.** -/
theorem rounded_intCast (h : |n| ≤ 2 ^ 53) : rounded n = n := by
  obtain ⟨hlow, hhigh⟩ := abs_le.1 h
  rcases lt_or_ge n 0 with hneg | hnonneg
  · have hself := nearest_intCast (n := -n) (by omega) (by omega)
    push_cast at hself
    rw [rounded_of_neg (by exact_mod_cast hneg), hself, neg_neg]
  · rw [rounded_of_nonneg (by exact_mod_cast hnonneg), nearest_intCast hnonneg hhigh]

theorem value?_ofInt_exact (h : |n| ≤ 2 ^ 53) : (ofInt n).value? = some (n : ℚ) := by
  rw [value?_ofInt (h.trans (by norm_num)), rounded_intCast h]

/-- An integer is rounded to an integer. -/
theorem exists_rounded_eq (n : ℤ) : ∃ m : ℤ, rounded n = m := by
  unfold rounded
  split
  · obtain ⟨m, hm⟩ := exists_nearest_eq (-n)
    push_cast at hm
    exact ⟨-m, by rw [hm, Int.cast_neg]⟩
  · exact exists_nearest_eq n

theorem rounded_intCast_neg_iff : rounded n < 0 ↔ n < 0 := by
  constructor
  · intro h
    by_contra hnot
    exact absurd (rounded_nonneg (a := n) (by exact_mod_cast not_lt.1 hnot)) (not_le.2 h)
  · intro h
    have hle : (n : ℚ) ≤ ((-1 : ℤ) : ℚ) := by exact_mod_cast Int.le_sub_one_of_lt h
    have hmono := rounded_mono hle
    rw [rounded_intCast (n := -1) (by decide)] at hmono
    push_cast at hmono
    linarith

theorem rounded_intCast_pos (h : 0 < n) : 1 ≤ rounded n := by
  have hmono := rounded_mono (show ((1 : ℤ) : ℚ) ≤ n by exact_mod_cast h)
  rw [rounded_intCast (n := 1) (by decide)] at hmono
  simpa using hmono

theorem ofInt_eq_signed (h : |n| ≤ 2 ^ 63) :
    ∃ magnitude hfits, ofInt n = .finite (decide (n < 0)) magnitude hfits ∧
      (if decide (n < 0) then -magnitude else magnitude) = rounded n := by
  have hvalue := value?_ofInt h
  obtain ⟨s, magnitude, hfits, heq, hsigned⟩ := value?_eq_some hvalue
  have hs : s = decide (n < 0) := by
    unfold ofInt round ofMagnitude at heq
    split at heq
    · rename_i hneg
      have hneg' : n < 0 := by exact_mod_cast hneg
      split at heq
      · cases heq
        simp [hneg']
      · cases heq
    · rename_i hnot
      have hnot' : ¬ n < 0 := by
        intro hlt
        exact hnot (by exact_mod_cast hlt)
      split at heq <;> split at heq <;> cases heq <;> simp [hnot']
  subst hs
  exact ⟨magnitude, hfits, heq, hsigned⟩

/-- Integers that are rounded alike become the same number. -/
theorem ofInt_congr (hm : |m| ≤ 2 ^ 63) (hn : |n| ≤ 2 ^ 63) (h : rounded m = rounded n) :
    ofInt m = ofInt n := by
  obtain ⟨p, hp, hmeq, hmvalue⟩ := ofInt_eq_signed hm
  obtain ⟨q, hq, hneq, hnvalue⟩ := ofInt_eq_signed hn
  have hsign : decide (m < 0) = decide (n < 0) := by
    rw [decide_eq_decide, ← rounded_intCast_neg_iff (n := m), ← rounded_intCast_neg_iff (n := n), h]
  have hpq : p = q := by
    rw [← hmvalue, ← hnvalue, hsign] at h
    cases hs : decide (n < 0) <;> simpa [hs] using h
  subst hpq
  rw [hmeq, hneq, hsign]

theorem round_zero_sign {s : Bool} {q : ℚ} (h : q = 0 → s = false) : round s q = round false q := by
  unfold round
  split
  · rfl
  split
  · rw [h ‹_›]
  · rfl

/-- The difference of two integers of 64 bits is that of their roundings, rounded; a difference of
zero is the positive zero. -/
theorem ofInt_sub_ofInt_eq (hm : |m| ≤ 2 ^ 63) (hn : |n| ≤ 2 ^ 63) :
    ofInt m - ofInt n = round false (rounded m - rounded n) := by
  obtain ⟨p, hp, hmeq, hmvalue⟩ := ofInt_eq_signed hm
  obtain ⟨q, hq, hneq, hnvalue⟩ := ofInt_eq_signed hn
  have hsub : ofInt m - ofInt n =
      round (decide (m < 0) && !decide (n < 0)) (rounded m - rounded n) := by
    rw [hmeq, hneq, ← hmvalue, ← hnvalue, sub_eq_add_neg]
    show round _ (_ + if !decide (n < 0) then -q else q) = _
    cases decide (n < 0) <;> simp
  rw [hsub]
  refine round_zero_sign fun hzero => ?_
  have hsame : m < 0 ↔ n < 0 := by
    rw [← rounded_intCast_neg_iff (n := m), ← rounded_intCast_neg_iff (n := n), sub_eq_zero.1 hzero]
  simp [hsame]

/-- **The difference of two integers of up to 53 bits is not moved** before it is rounded. -/
theorem ofInt_sub_ofInt (hm : |m| ≤ 2 ^ 53) (hn : |n| ≤ 2 ^ 53) :
    ofInt m - ofInt n = ofInt (m - n) := by
  rw [ofInt_sub_ofInt_eq (hm.trans (by norm_num)) (hn.trans (by norm_num)), rounded_intCast hm,
    rounded_intCast hn, ofInt]
  push_cast
  rfl

end Splittable.Binary64
