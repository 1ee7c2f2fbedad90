import Splittable.Proofs.Numeric.Shares
import Splittable.Proofs.Tracker.Cutting

/-!
# Where a split falls

The split point lies behind the cursor by the fraction of the unclaimed work, rounded on the way:
the width once, the product once, and the product down.  All three are monotone, so a greater
fraction never keeps less.  Up to 53 bits of unclaimed work only the product is rounded, and that
moves the split point by one offset at most and never up to the end.

* `parts`, `CutsAt`       : the two parts that meet at a point; a split that falls there;
* `exists_cutsAt`         : a tracker that is not done is cut somewhere, at every fraction;
* `CutsAt.mono`           : a greater fraction never keeps less;
* `CutsAt.near`, `CutsAt.lt_stop` : up to 53 bits of unclaimed work;
* `points_after_history`  : all of it, after any history.
-/

namespace Splittable.Tracker

/-- The unclaimed work in two parts that meet at `p`. -/
def parts (t : Tracker) (p : Offset) : Split :=
  ⟨⟨t.cursor, p⟩, ⟨p, t.span.stop⟩⟩

/-- A split at the fraction `f` is granted and falls at `p`. -/
def CutsAt (t : Tracker) (f : Binary64) (p : Offset) : Prop :=
  (t.split f).1 = .ok (t.parts p)

variable {t : Tracker} {f g : Binary64} {p q : Offset} {φ γ : ℚ}

/-- The distance from the cursor to where the exact value of a fraction makes a split fall. -/
def distanceTo (t : Tracker) (φ : ℚ) : ℤ :=
  max 0 (min (nearest (nearest t.unclaimed * φ)).floor t.unclaimed)

/-- **A tracker that is not done is cut somewhere**, at every fraction. -/
theorem exists_cutsAt (h : t.Consistent) (hdone : t.isDone = false) (hf : f.value? = some φ)
    (hφ : 0 ≤ φ) (hφ' : φ ≤ 1) :
    t.cursor < t.span.stop ∧ ∃ p, t.CutsAt f p ∧ p.toInt = t.cursor.toInt + t.distanceTo φ := by
  have hspec := split_spec h.ordered f
  have hopen : ¬(t.stopped = true ∨ t.span.stop ≤ t.cursor) := by
    rw [← isDone_iff h, hdone]
    exact Bool.false_ne_true
  generalize houtcome : t.split f = outcome at hspec
  obtain ⟨result, t'⟩ := outcome
  dsimp only at hspec
  cases hspec with
  | invalid hinvalid => exact absurd (Binary64.inUnit_iff.2 ⟨φ, hf, hφ, hφ'⟩) hinvalid
  | nothing _ hnothing => exact absurd hnothing hopen
  | cut point _ _ hcursor _ _ hvalue =>
    refine ⟨hcursor, point, by rw [CutsAt, houtcome, parts], ?_⟩
    rw [hvalue, (splitDistance_eq hcursor hf hφ hφ').2, distanceTo]

/-- A split falls at one point only. -/
theorem CutsAt.unique (hp : t.CutsAt f p) (hq : t.CutsAt f q) : p = q := by
  have hsame := Except.ok.inj (hp.symm.trans hq)
  exact congrArg (fun s => s.primary.stop) hsame

theorem CutsAt.toInt_eq (h : t.Consistent) (hdone : t.isDone = false) (hf : f.value? = some φ)
    (hφ : 0 ≤ φ) (hφ' : φ ≤ 1) (hp : t.CutsAt f p) :
    p.toInt = t.cursor.toInt + t.distanceTo φ := by
  obtain ⟨-, p', hp', hvalue⟩ := exists_cutsAt h hdone hf hφ hφ'
  rwa [hp.unique hp']

/-! ## Order -/

theorem distanceTo_mono (hwidth : 0 ≤ t.unclaimed) (hφ : 0 ≤ φ) (h : φ ≤ γ) :
    t.distanceTo φ ≤ t.distanceTo γ := by
  have hfloor := Rat.floor_monotone (nearest_mul_mono hwidth hφ h)
  unfold distanceTo
  omega

/-- **A greater fraction never keeps less.** -/
theorem CutsAt.mono (h : t.Consistent) (hdone : t.isDone = false) (hf : f.value? = some φ)
    (hg : g.value? = some γ) (hφ : 0 ≤ φ) (hle : φ ≤ γ) (hγ : γ ≤ 1) (hp : t.CutsAt f p)
    (hq : t.CutsAt g q) : p ≤ q := by
  obtain ⟨hcursor, -⟩ := exists_cutsAt h hdone hf hφ (hle.trans hγ)
  have hdistance := distanceTo_mono (unclaimed_bounds hcursor).1.le hφ hle
  rw [Offset.le_iff, hp.toInt_eq h hdone hf hφ (hle.trans hγ),
    hq.toInt_eq h hdone hg (hφ.trans hle) hγ]
  omega

theorem cutsAt_cursor (h : t.Consistent) (hdone : t.isDone = false) (hf : f.value? = some 0) :
    t.CutsAt f t.cursor := by
  obtain ⟨hcursor, p, hp, hvalue⟩ := exists_cutsAt h hdone hf le_rfl zero_le_one
  have hwidth := (unclaimed_bounds hcursor).1
  have hzero : t.distanceTo 0 = 0 := by
    rw [distanceTo, mul_zero, nearest_zero, show (0 : ℚ).floor = 0 from rfl]
    omega
  obtain rfl : p = t.cursor := by
    rw [Offset.eq_iff, hvalue, hzero, add_zero]
  exact hp

/-! ## Up to 53 bits of unclaimed work -/

/-- The exact share of the unclaimed work. -/
theorem share_bounds (hcursor : t.cursor < t.span.stop) (hφ : 0 ≤ φ) (hφ' : φ ≤ 1) :
    0 ≤ (t.unclaimed : ℚ) * φ ∧ (t.unclaimed : ℚ) * φ ≤ t.unclaimed := by
  have hwidth : (0 : ℚ) ≤ t.unclaimed := by exact_mod_cast (unclaimed_bounds hcursor).1.le
  exact ⟨mul_nonneg hwidth hφ, mul_le_of_le_one_right hwidth hφ'⟩

/-- **The documented split point, or the next one**: only the product is rounded. -/
theorem CutsAt.near (h : t.Consistent) (hdone : t.isDone = false)
    (hsmall : t.unclaimed ≤ 2 ^ 53) (hf : f.value? = some φ) (hφ : 0 ≤ φ) (hφ' : φ ≤ 1)
    (hp : t.CutsAt f p) :
    p.toInt = t.cursor.toInt + (t.unclaimed * φ).floor ∨
      p.toInt = t.cursor.toInt + (t.unclaimed * φ).floor + 1 := by
  obtain ⟨hcursor, -⟩ := exists_cutsAt h hdone hf hφ hφ'
  have hwidth := (unclaimed_bounds hcursor).1.le
  obtain ⟨hlow, hhigh⟩ := share_bounds hcursor hφ hφ'
  have hbound : (t.unclaimed : ℚ) * φ ≤ 2 ^ 53 := hhigh.trans (by exact_mod_cast hsmall)
  have hround := floor_nearest hlow hbound
  have hfloor : 0 ≤ (t.unclaimed * φ : ℚ).floor := Rat.le_floor_iff.2 (by exact_mod_cast hlow)
  have hfloor' : (t.unclaimed * φ : ℚ).floor ≤ t.unclaimed := by
    exact_mod_cast (Rat.floor_le _).trans hhigh
  rw [hp.toInt_eq h hdone hf hφ hφ', distanceTo, nearest_intCast hwidth hsmall]
  omega

/-- **A fraction below one hands back something.** -/
theorem CutsAt.lt_stop (h : t.Consistent) (hdone : t.isDone = false)
    (hsmall : t.unclaimed ≤ 2 ^ 53) (hf : f.value? = some φ) (hφ : 0 ≤ φ) (hφ' : φ < 1)
    (hp : t.CutsAt f p) : p < t.span.stop := by
  obtain ⟨hcursor, -⟩ := exists_cutsAt h hdone hf hφ hφ'.le
  have hwidth := (unclaimed_bounds hcursor).1
  have hfits : Fits φ := Binary64.fits_of_value? hf hφ
  have hless : (nearest (t.unclaimed * φ)).floor < t.unclaimed := by
    exact_mod_cast (Rat.floor_le _).trans_lt (nearest_mul_lt hwidth hfits hφ')
  rw [Offset.lt_iff, hp.toInt_eq h hdone hf hφ hφ'.le, distanceTo,
    nearest_intCast hwidth.le hsmall]
  unfold unclaimed at hless hwidth ⊢
  omega

/-! ## After a history -/

/-- **Where splits fall.**  After any history of a tracker that is not done, a split at any fraction
from zero to one is granted, and a greater fraction never keeps less.  At zero, of either sign, it
falls at the cursor, and so does a checkpoint.  With unclaimed work of up to 53 bits it falls where
the exact share of that work, rounded down, lies behind the cursor, or one offset later; and a
fraction below one hands back at least one offset. -/
theorem points_after_history (span : Span) (uses : List Use)
    (hdone : ((new span).after uses).isDone = false) :
    let t := (new span).after uses
    (∀ f : Binary64, f.InUnit → ∃ φ p, f.value? = some φ ∧ t.CutsAt f p ∧
      (t.unclaimed ≤ 2 ^ 53 →
        (p.toInt = t.cursor.toInt + (t.unclaimed * φ).floor ∨
          p.toInt = t.cursor.toInt + (t.unclaimed * φ).floor + 1) ∧
        (φ < 1 → (t.parts p).hasResidual = true))) ∧
    (∀ f g p q, f.InUnit → g.InUnit → f ≤ g → t.CutsAt f p → t.CutsAt g q → p ≤ q) ∧
    (∀ f, f.value? = some 0 → t.CutsAt f t.cursor) ∧
    t.checkpoint.1 = .ok (t.parts t.cursor) := by
  intro t
  have h : t.Consistent := after_consistent span uses
  refine ⟨fun f hf => ?_, fun f g p q hf hg hle hp hq => ?_, fun f hf => cutsAt_cursor h hdone hf,
    cutsAt_cursor h hdone Binary64.value?_zero⟩
  · obtain ⟨φ, hvalue, hφ, hφ'⟩ := Binary64.inUnit_iff.1 hf
    obtain ⟨-, p, hp, -⟩ := exists_cutsAt h hdone hvalue hφ hφ'
    refine ⟨φ, p, hvalue, hp, fun hsmall => ⟨hp.near h hdone hsmall hvalue hφ hφ', fun hlt => ?_⟩⟩
    have hstop := hp.lt_stop h hdone hsmall hvalue hφ hlt
    simp [Split.hasResidual, parts, Span.isEmpty, Int64.not_le.2 hstop]
  · obtain ⟨φ, hφvalue, hφ, -⟩ := Binary64.inUnit_iff.1 hf
    obtain ⟨γ, hγvalue, -, hγ⟩ := Binary64.inUnit_iff.1 hg
    exact hp.mono h hdone hφvalue hγvalue hφ ((Binary64.le_iff hφvalue hγvalue).1 hle) hγ hq

/-- Of ten offsets three tenths are kept, although the binary64 number is below three tenths: the
product is rounded up to three. -/
theorem points_after_history_next :
    let t := (new ⟨0, 12⟩).after [.claim 1]
    let f := Binary64.round false (3 / 10)
    t.isDone = false ∧ f.InUnit ∧ t.unclaimed ≤ 2 ^ 53 ∧
      ∃ φ p, f.value? = some φ ∧ (t.unclaimed * φ).floor = 2 ∧ t.CutsAt f p ∧
        p.toInt = t.cursor.toInt + 3 ∧ (t.parts p).hasResidual = true := by
  intro t f
  have hdone : t.isDone = false := by decide +kernel
  have hf : f.InUnit := by decide +kernel
  have hsmall : t.unclaimed ≤ 2 ^ 53 := by decide +kernel
  obtain ⟨hcuts, -⟩ := points_after_history ⟨0, 12⟩ [.claim 1] hdone
  obtain ⟨φ, p, hvalue, hp, hnear⟩ := hcuts f hf
  obtain ⟨-, hresidual⟩ := hnear hsmall
  have hfive : t.CutsAt f 5 := by
    unfold CutsAt
    decide +kernel
  have hφ : f.value? = some (5404319552844595 / 2 ^ 54) := by decide +kernel
  obtain rfl : φ = 5404319552844595 / 2 ^ 54 := Option.some.inj (hvalue.symm.trans hφ)
  obtain rfl := hp.unique hfive
  exact ⟨hdone, hf, hsmall, _, _, hvalue, by decide +kernel, hp, by decide +kernel,
    hresidual (by norm_num)⟩

end Splittable.Tracker
