import Splittable.Proofs.Tracker.Reports

/-!
# When progress reports completion

A progress can report that nothing remains, or that the share of what is done is one, while an
offset can still be claimed: neighbouring offsets may be rounded to the same number, and a share
that is near enough to one is rounded to it.  These are the only two causes, and neither arises
where the bounds have at most 53 bits.

* `congr_of_rest_eq_zero`       : when nothing remains;
* `Reported.fraction_eq_one`    : what a share of one says about the values of a progress;
* `rest_small`                  : how little remains then;
* `completion_after_history`    : what a reported completion means;
* `completion_before_the_end`   : two trackers that are not done although completion is reported.
-/

namespace Splittable.Tracker

open Binary64 (rounded)

variable {t : Tracker} {progress : Progress}

/-! ## Nothing remains -/

theorem one_le_ahead (h : rounded t.cursor.toInt < rounded t.span.stop.toInt) : 1 ≤ t.ahead := by
  obtain ⟨a, ha⟩ := Binary64.exists_rounded_eq t.span.stop.toInt
  obtain ⟨b, hb⟩ := Binary64.exists_rounded_eq t.cursor.toInt
  rw [ahead, ha, hb, ← Int.cast_sub]
  rw [ha, hb] at h
  exact Binary64.rounded_intCast_pos (sub_pos.2 (by exact_mod_cast h))

/-- **If nothing remains before the end is reached**, the end and the cursor are the same number. -/
theorem congr_of_rest_eq_zero (hrest : t.rest = 0) (hcursor : t.cursor < t.span.stop) :
    Binary64.ofInt t.span.stop.toInt = .ofInt t.cursor.toInt := by
  have hle := rounded_mono_offset (Int64.le_of_lt hcursor)
  refine Binary64.ofInt_congr t.span.stop.abs_toInt_le t.cursor.abs_toInt_le ?_
  refine le_antisymm (not_lt.1 fun hlt => ?_) hle
  have hone := one_le_ahead hlt
  have hahead : t.ahead ≤ t.rest := le_max_right _ _
  linarith

/-- What remains is at least one, or nothing. -/
theorem one_le_rest (h : 0 < t.rest) : 1 ≤ t.rest := by
  have hahead : 0 < t.ahead := by
    by_contra hnot
    rw [rest, max_eq_left (not_lt.1 hnot)] at h
    exact lt_irrefl 0 h
  refine le_trans (one_le_ahead (not_le.1 fun hle => ?_)) (le_max_right _ _)
  -- a difference that is not positive is not rounded to a positive number
  have hnonpos := Binary64.rounded_mono (sub_nonpos.2 hle)
  rw [Binary64.rounded_of_nonneg le_rfl, nearest_zero] at hnonpos
  exact absurd hahead (not_lt.2 hnonpos)

/-! ## The share that is done -/

/-- What is done and what remains together, as a number. -/
def whole (t : Tracker) : ℚ :=
  rounded (t.past + t.rest)

theorem rounded_width (t : Tracker) : rounded t.width = t.width :=
  Binary64.rounded_rounded
    ((abs_sub_offsets _ _).trans (zpow_le_zpow_right₀ one_le_two (by omega)))

theorem rounded_rest (t : Tracker) : rounded t.rest = t.rest := by
  have hahead : rounded t.ahead = t.ahead := Binary64.rounded_rounded
    ((abs_sub_offsets _ _).trans (zpow_le_zpow_right₀ one_le_two (by omega)))
  rcases le_total t.ahead 0 with hle | hge
  · rw [rest, max_eq_left hle, Binary64.rounded_of_nonneg le_rfl, nearest_zero]
  · rw [rest, max_eq_right hge, hahead]

theorem Placed.rounded_past (h : t.Placed) : rounded t.past = t.past :=
  Binary64.rounded_rounded
    (h.abs_width_sub_rest_le.trans (zpow_le_zpow_right₀ one_le_two (by omega)))

theorem past_le_width (t : Tracker) : t.past ≤ t.width :=
  (Binary64.rounded_mono (sub_le_self _ t.rest_nonneg)).trans_eq t.rounded_width

theorem Placed.past_le_whole (h : t.Placed) : t.past ≤ t.whole :=
  h.rounded_past.symm.trans_le (Binary64.rounded_mono (le_add_of_nonneg_right t.rest_nonneg))

theorem Placed.rest_le_whole (h : t.Placed) : t.rest ≤ t.whole :=
  t.rounded_rest.symm.trans_le (Binary64.rounded_mono (le_add_of_nonneg_left h.past_nonneg))

theorem Reported.value?_total (h : t.Placed) (hr : Reported t progress) :
    progress.total.value? = some t.whole := by
  apply Binary64.value?_add hr.done hr.remaining
  have hwidth := (abs_le.1 (abs_width_le t)).2
  have hpower : (2 : ℚ) ^ (64 : ℤ) + 2 ^ (64 : ℤ) ≤ 2 ^ (1023 : ℤ) := by
    calc (2 : ℚ) ^ (64 : ℤ) + 2 ^ (64 : ℤ) = 2 ^ (65 : ℤ) := by norm_num
      _ ≤ 2 ^ (1023 : ℤ) := zpow_le_zpow_right₀ one_le_two (by omega)
  rw [abs_of_nonneg (add_nonneg h.past_nonneg t.rest_nonneg)]
  exact (add_le_add (t.past_le_width.trans hwidth) (h.rest_le_width.trans hwidth)).trans hpower

/-- **A share of one** means that nothing remains, or that what is done is within half a unit of the
last place of the whole. -/
theorem Reported.fraction_eq_one (h : t.Placed) (hr : Reported t progress)
    (hone : progress.fractionCompleted.value? = some 1) :
    t.rest = 0 ∨ t.whole - t.whole / 2 ^ 54 ≤ t.past := by
  have htotal := hr.value?_total h
  rcases le_or_gt t.whole 0 with hle | hpos
  · exact Or.inl (le_antisymm (h.rest_le_whole.trans hle) t.rest_nonneg)
  right
  have hnot : ¬ progress.total ≤ .zero := by
    rw [Binary64.le_iff htotal Binary64.value?_zero]
    exact not_le.2 hpos
  have hshare : t.past / t.whole ≤ 1 := (div_le_one hpos).2 h.past_le_whole
  have hquotient := Binary64.value?_div hr.done htotal h.past_nonneg hpos
    (hshare.trans (one_le_zpow₀ one_le_two (by omega)))
  rw [Progress.fractionCompleted, if_neg hnot,
    Binary64.value?_clamp hquotient Binary64.value?_zero Binary64.value?_one,
    Option.some.injEq, max_eq_left (nearest_nonneg (div_nonneg h.past_nonneg hpos.le))] at hone
  have hnearest : 1 ≤ nearest (t.past / t.whole) := hone.symm.trans_le (min_le_left _ _)
  by_contra hlt
  have hnear : t.past / t.whole < 1 - 1 / 2 ^ 54 := by
    rw [div_lt_iff₀ hpos]
    linarith [not_le.1 hlt]
  rcases (div_nonneg h.past_nonneg hpos.le).lt_or_eq with hshare' | hzero
  · exact absurd (nearest_lt_one hshare' hnear) (not_lt.2 hnearest)
  · rw [← hzero, nearest_zero] at hnearest
    exact absurd hnearest (by norm_num)

theorem rest_small (h : t.Placed) (hpos : 0 < t.rest)
    (hshare : t.whole - t.whole / 2 ^ 54 ≤ t.past) : t.rest * 2 ^ 52 ≤ t.width := by
  have hsum : 1 ≤ t.past + t.rest := by
    have hone := one_le_rest hpos
    have hpast := h.past_nonneg
    linarith
  have hwhole := (nearest_bounds hsum).1
  rw [← Binary64.rounded_of_nonneg (by linarith), show rounded (t.past + t.rest) = t.whole from rfl]
    at hwhole
  have hpast := t.past_le_width
  norm_num at hshare hwhole ⊢
  linarith

/-- Where the offsets are moderate a share of one is reached at the end only. -/
theorem reached_of_fraction (h : t.Placed) (hm : t.span.Moderate)
    (hprogress : t.progress = some progress) (hr : Reported t progress)
    (hone : progress.fractionCompleted.value? = some 1) :
    t.span.stop ≤ t.cursor := by
  obtain ⟨hdone, hremaining⟩ := counts_moderate h hm
  obtain rfl := Option.some.inj (hprogress.symm.trans (progress_moderate h hm))
  have hpast := Option.some.inj (hr.done.symm.trans (Binary64.value?_ofInt_exact hdone))
  have hrest := Option.some.inj (hr.remaining.symm.trans (Binary64.value?_ofInt_exact hremaining))
  have hcursor := Offset.le_iff.1 h.ordered.start_le_cursor
  have hwidth := abs_le.1 hm.width
  by_contra hnot
  have hlt := Offset.lt_iff.1 (Int64.not_le.1 hnot)
  rw [min_eq_left hlt.le] at hpast
  rw [max_eq_right (by omega)] at hrest
  have hwhole : t.whole = ((t.span.stop.toInt - t.span.start.toInt : ℤ) : ℚ) := by
    rw [whole, hpast, hrest, ← Int.cast_add, Binary64.rounded_intCast (by rw [abs_le]; omega)]
    congr 1
    omega
  rcases hr.fraction_eq_one h hone with hzero | hshare
  · rw [hrest] at hzero
    have : t.span.stop.toInt - t.cursor.toInt = 0 := by exact_mod_cast hzero
    omega
  · -- one offset is more than half a unit of the last place of at most `2 ^ 53` of them
    have hone' : ((1 : ℤ) : ℚ) ≤ (t.span.stop.toInt - t.cursor.toInt : ℤ) := by
      exact_mod_cast (by omega : 1 ≤ t.span.stop.toInt - t.cursor.toInt)
    have hmost : ((t.span.stop.toInt - t.span.start.toInt : ℤ) : ℚ) ≤ (2 ^ 53 : ℤ) := by
      exact_mod_cast hwidth.2
    rw [hwhole, hpast] at hshare
    push_cast at hshare hone' hmost
    norm_num at hshare hmost
    linarith

/-! ## Every history -/

/-- **What a reported completion means.**  In every state of a tracker whose bounds are in order: if
nothing remains, the tracker is done or its end and its cursor become the same binary64 number.  If
the share of what is done is one, then so it is as well, or what remains is at most `2 ^ -52` of the
size of the span.  Where the bounds and their distance have at most 53 bits, either report means
that the tracker is done. -/
theorem completion_after_history (span : Span) (hspan : span.start ≤ span.stop) (uses : List Use) :
    let t := (new span).after uses
    ∃ progress remaining size, t.progress = some progress ∧
      progress.remaining.value? = some remaining ∧ t.span.size.value? = some size ∧
      (remaining = 0 → t.isDone = true ∨
        Binary64.ofInt t.span.stop.toInt = .ofInt t.cursor.toInt) ∧
      (progress.fractionCompleted.value? = some 1 → t.isDone = true ∨
        Binary64.ofInt t.span.stop.toInt = .ofInt t.cursor.toInt ∨
        0 < remaining ∧ remaining * 2 ^ 52 ≤ size) ∧
      (t.span.Moderate →
        remaining = 0 ∨ progress.fractionCompleted.value? = some 1 → t.isDone = true) := by
  intro t
  have h : t.Placed := (placed_new hspan).after uses
  have hdone : t.span.stop ≤ t.cursor → t.isDone = true :=
    fun hle => (isDone_iff (after_consistent span uses)).2 (Or.inr hle)
  obtain ⟨progress, hprogress, hreported⟩ := h.exists_reported
  have hnothing : t.rest = 0 → t.isDone = true ∨
      Binary64.ofInt t.span.stop.toInt = .ofInt t.cursor.toInt := by
    intro hrest
    by_cases hcursor : t.span.stop ≤ t.cursor
    · exact Or.inl (hdone hcursor)
    · exact Or.inr (congr_of_rest_eq_zero hrest (Int64.not_le.1 hcursor))
  refine ⟨progress, t.rest, t.width, hprogress, hreported.remaining, value?_size t, hnothing,
    fun hone => ?_, fun hm hreport => ?_⟩
  · rcases t.rest_nonneg.lt_or_eq with hpos | hzero
    · rcases hreported.fraction_eq_one h hone with hzero | hshare
      · exact absurd hzero hpos.ne'
      · exact Or.inr (Or.inr ⟨hpos, rest_small h hpos hshare⟩)
    · exact (hnothing hzero.symm).imp_right Or.inl
  · apply hdone
    rcases hreport with hzero | hone
    · -- moderate offsets that become the same number are the same
      have hremaining := hreported.remaining
      obtain rfl := Option.some.inj (hprogress.symm.trans (progress_moderate h hm))
      rw [Binary64.value?_ofInt_exact (counts_moderate h hm).2, hzero, Option.some.injEq]
        at hremaining
      have hle : max 0 (t.span.stop.toInt - t.cursor.toInt) = 0 := by exact_mod_cast hremaining
      rw [Offset.le_iff]
      omega
    · exact reached_of_fraction h hm hprogress hreported hone

/-- One offset of thirty-two is left: neither report is made. -/
theorem completion_after_history_last :
    let t := (new ⟨-16, 16⟩).after [.claim 14]
    (-16 : Offset) ≤ 16 ∧ t.span.Moderate ∧ t.isDone = false ∧
      ∃ progress remaining, t.progress = some progress ∧
        progress.remaining.value? = some remaining ∧ remaining ≠ 0 ∧
        progress.fractionCompleted.value? ≠ some 1 := by
  intro t
  obtain ⟨progress, remaining, size, hprogress, hremaining, -, -, -, hexact⟩ :=
    completion_after_history ⟨-16, 16⟩ (by decide) [.claim 14]
  have hspan : t.span = ⟨-16, 16⟩ := by decide +kernel
  have hm : t.span.Moderate := by
    rw [hspan]
    exact ⟨by decide, by decide, by decide⟩
  have hopen : t.isDone = false := by decide +kernel
  have hnot : ¬(remaining = 0 ∨ progress.fractionCompleted.value? = some 1) := fun hreport =>
    absurd (hexact hm hreport) (by rw [show (new ⟨-16, 16⟩).after _ = t from rfl, hopen]; simp)
  exact ⟨by decide, hm, hopen, progress, remaining, hprogress, hremaining, not_or.1 hnot⟩

/-- **Completion can be reported before the end.**  At `2 ^ 53` the end is rounded down to the
cursor, so that nothing remains.  In a span of `2 ^ 60 + 1` offsets the last one remains, and the
share of the others is rounded to one.  Neither tracker is done, and both grant the offset. -/
theorem completion_before_the_end :
    let near := new ⟨9007199254740992, 9007199254740993⟩
    let wide := (new ⟨-1152921504606846976, 1⟩).after [.claim (-1)]
    near.progress.map (fun p => (p.remaining.value?, p.fractionCompleted.value?)) =
        some (some 0, some 1) ∧
      near.isDone = false ∧ (near.claim 9007199254740992).1 = true ∧
      wide.progress.map (fun p => (p.remaining.value?, p.fractionCompleted.value?)) =
        some (some 1, some 1) ∧
      wide.isDone = false ∧ (wide.claim 0).1 = true := by
  decide +kernel

end Splittable.Tracker
