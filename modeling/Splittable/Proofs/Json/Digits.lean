import Splittable.Json.Reader
import Splittable.Json.Writer
import Splittable.Proofs.Numeric.Rounding

/-!
# Digits

A number is written by its digits, without leading zeros, and the digits give the number back.  The
digits of a binary64 number are those of a decimal that reads back, which is not zero unless the
number is.

* `ofDigits_digitsOf`          : the digits of a number give it back;
* `head?_digitsOf`             : they begin with no zero, unless the number is zero;
* `Numeral.WellFormed`         : a number as the grammar has it;
* `wellFormed_ofInt`, `wellFormed_ofDecimal` : integers and decimals are written so;
* `int?_ofInt`                 : an integer is read as itself;
* `shortest_pos`               : the shortest decimal of a positive magnitude is positive.
-/

namespace Splittable

/-! ## The digits of a number -/

namespace Decimal

theorem digitsOf_lt (n : Nat) : ∀ d ∈ digitsOf n, d < 10 := by
  induction n using digitsOf.induct with
  | case1 n h =>
    rw [digitsOf, if_pos h]
    simpa using h
  | case2 n h ih =>
    rw [digitsOf, if_neg h]
    intro d hd
    rcases List.mem_append.1 hd with hd | hd
    · exact ih d hd
    · rw [List.mem_singleton.1 hd]
      exact Nat.mod_lt n (by decide)

theorem digitsOf_ne_nil (n : Nat) : digitsOf n ≠ [] := by
  rw [digitsOf]
  split <;> simp

theorem head_digitsOf {n : Nat} {ds : List Nat} (h : digitsOf n = 0 :: ds) : n = 0 ∧ ds = [] := by
  induction n using digitsOf.induct generalizing ds with
  | case1 n hn =>
    rw [digitsOf, if_pos hn] at h
    simpa [eq_comm] using h
  | case2 n hn ih =>
    rw [digitsOf, if_neg hn] at h
    cases hhead : digitsOf (n / 10) with
    | nil => exact absurd hhead (digitsOf_ne_nil _)
    | cons e es =>
      rw [hhead, List.cons_append, List.cons.injEq] at h
      obtain ⟨hzero, -⟩ := ih (by rw [hhead, h.1])
      omega

theorem head?_digitsOf {n : Nat} (h : 0 < n) : (digitsOf n).head? ≠ some 0 := by
  intro hhead
  obtain ⟨ds, hds⟩ := List.head?_eq_some_iff.1 hhead
  have hzero := (head_digitsOf hds).1
  omega

/-- **The digits of a number give it back.** -/
theorem ofDigits_digitsOf (n : Nat) : ofDigits (digitsOf n) = n := by
  induction n using digitsOf.induct with
  | case1 n h =>
    rw [digitsOf, if_pos h]
    simp [ofDigits]
  | case2 n h ih =>
    rw [digitsOf, if_neg h]
    simp only [ofDigits, List.foldl_append, List.foldl_cons, List.foldl_nil] at ih ⊢
    rw [ih]
    omega

/-! ## Decimals of a magnitude -/

theorem strip_pos {d : Decimal} (h : 0 < d.digits) : 0 < d.strip.digits := by
  induction d using strip.induct with
  | case1 d hd ih =>
    rw [strip, dif_pos hd]
    exact ih (Nat.div_pos (Nat.le_of_dvd hd.1 (Nat.dvd_of_mod_eq_zero hd.2)) (by decide))
  | case2 d hd =>
    rw [strip, dif_neg hd]
    exact h

theorem digits_pos_of_readsAs {d : Decimal} {m : ℚ} (hm : 0 < m) (h : d.readsAs m = true) :
    0 < d.digits := by
  rw [readsAs, decide_eq_true_iff] at h
  by_contra hnot
  have hzero : d.digits = 0 := by omega
  rw [value, hzero, Nat.cast_zero, zero_mul, nearest_zero] at h
  exact hm.ne h

/-- What is taken on a grid reads back. -/
theorem readsAs_of_onGrid {tie : DecimalTie} {m : ℚ} {count : Nat} {d : Decimal}
    (h : onGrid tie m count = some d) : d.readsAs m = true := by
  unfold onGrid at h
  dsimp only at h
  split at h
  · cases h
  · cases h
    assumption
  · cases h
    assumption
  · split at h
    · cases h
      assumption
    split at h
    · cases h
      assumption
    split at h
    · cases h
      assumption
    split at h <;> cases h <;> assumption

/-- **The shortest decimal of a positive magnitude is positive.** -/
theorem shortest_pos (tie : DecimalTie) {m : ℚ} (hm : 0 < m) : 0 < (shortest tie m).digits := by
  apply strip_pos
  cases hfound : (List.range' 1 17).findSome? (onGrid tie m) with
  | some d =>
    obtain ⟨count, -, hgrid⟩ := List.exists_of_findSome?_eq_some hfound
    exact digits_pos_of_readsAs hm (readsAs_of_onGrid hgrid)
  | none =>
    have hnum : 0 < m.num.natAbs := Int.natAbs_pos.2 (Rat.num_pos.2 hm).ne'
    exact Nat.mul_pos hnum (Nat.pow_pos (by decide))

end Decimal

/-! ## Numbers as the grammar has them -/

/-- The digits of a number as it may be written: some before the point and a zero only alone, and
some in the exponent if there is one. -/
structure Numeral.WellFormed (n : Numeral) : Prop where
  whole : ∀ d ∈ n.whole, d < 10
  nonempty : n.whole ≠ []
  leading : ∀ ds, n.whole = 0 :: ds → ds = []
  places : ∀ d ∈ n.places, d < 10
  exponent : ∀ sign ds, n.exponent = some (sign, ds) → ds ≠ [] ∧ ∀ d ∈ ds, d < 10

namespace Numeral

theorem wellFormed_ofInt (n : Int) : (ofInt n).WellFormed where
  whole := Decimal.digitsOf_lt _
  nonempty := Decimal.digitsOf_ne_nil _
  leading _ h := (Decimal.head_digitsOf h).2
  places := by simp [ofInt]
  exponent := nofun

/-- **An integer is read as itself.** -/
theorem int?_ofInt (n : Int) : (ofInt n).int? = some n := by
  unfold int? ofInt
  simp only [List.isEmpty_nil, Option.isNone_none, Bool.and_self, if_true,
    Decimal.ofDigits_digitsOf]
  split
  · rename_i hneg
    have hneg' : n < 0 := by simpa using hneg
    rw [if_neg (by omega), Option.some.injEq]
    omega
  · rename_i hnot
    have hnot' : ¬ n < 0 := by simpa using hnot
    rw [Option.some.injEq]
    omega

/-- The digits of a positive decimal before and after the point. -/
theorem positional_spec {d : Decimal} (h : 0 < d.digits) :
    (∀ e ∈ d.positional.1, e < 10) ∧ d.positional.1 ≠ [] ∧
      (d.positional.1 = [0] ∨ d.positional.1.head? ≠ some 0) ∧ ∀ e ∈ d.positional.2, e < 10 := by
  have hlt := Decimal.digitsOf_lt d.digits
  have hne := Decimal.digitsOf_ne_nil d.digits
  have hhead := Decimal.head?_digitsOf h
  have hzeros : ∀ k, ∀ e ∈ List.replicate k 0, e < 10 := by
    intro k e he
    rw [List.eq_of_mem_replicate he]
    decide
  unfold Decimal.positional
  dsimp only
  split
  · refine ⟨fun e he => ?_, by simp [hne], Or.inr ?_, by simp⟩
    · rcases List.mem_append.1 he with he | he
      · exact hlt e he
      · exact hzeros _ e he
    · rwa [List.head?_append_of_ne_nil _ hne]
  split
  · rename_i hplaces
    rw [List.splitAt_eq]
    dsimp only
    have hcount : (Decimal.digitsOf d.digits).length - (-d.exponent).toNat ≠ 0 := by omega
    refine ⟨fun e he => hlt e (List.mem_of_mem_take he), by simp [hcount, hne], Or.inr ?_,
      fun e he => hlt e (List.mem_of_mem_drop he)⟩
    rwa [List.head?_take, if_neg hcount]
  · refine ⟨by simp, by simp, Or.inl rfl, fun e he => ?_⟩
    rcases List.mem_append.1 he with he | he
    · exact hzeros _ e he
    · exact hlt e he

theorem wellFormed_ofDecimal (negative : Bool) {d : Decimal} (h : 0 < d.digits) :
    (ofDecimal negative d).WellFormed := by
  have hlt := Decimal.digitsOf_lt d.digits
  obtain ⟨hwhole, hnonempty, hleading, hplaces⟩ := positional_spec h
  unfold ofDecimal
  dsimp only
  split
  · refine ⟨hwhole, hnonempty, fun ds heq => ?_, fun e he => ?_, nofun⟩
    · dsimp only at heq
      rcases hleading with hzero | hhead
      · rw [hzero, List.cons.injEq] at heq
        exact heq.2.symm
      · rw [heq] at hhead
        exact absurd rfl hhead
    · dsimp only at he
      split at he
      · rw [List.mem_singleton.1 he]
        decide
      · exact hplaces e he
  · refine ⟨fun e he => hlt e (List.mem_of_mem_take he),
      by simp [Decimal.digitsOf_ne_nil], fun ds heq => ?_,
      fun e he => hlt e (List.mem_of_mem_drop he), fun sign ds heq => ?_⟩
    · have hhead := congrArg List.head? heq
      rw [List.head?_take, if_neg one_ne_zero] at hhead
      exact absurd hhead (Decimal.head?_digitsOf h)
    · obtain ⟨-, rfl⟩ := Prod.mk.inj (Option.some.inj heq)
      exact ⟨Decimal.digitsOf_ne_nil _, Decimal.digitsOf_lt _⟩

end Numeral

end Splittable
