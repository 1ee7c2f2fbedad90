import Splittable.Proofs.Numeric.Values
import Splittable.Proofs.Tracker.Histories

/-!
# Progress through a history

The end of the span and the cursor are rounded before they are subtracted, and the cursor can lie
past the end.  Rounding is monotone, so the order of the two is all that matters: a progress always
exists, what remains only shrinks, and a claim only adds to what is done.  Where the bounds have at
most 53 bits nothing is rounded at all.

* `Placed`                  : the bounds of the span and the cursor are in order;
* `Onward`                  : the end only moves down and the cursor only moves up;
* `Reported`                : the values of a progress;
* `progress_moderate`       : the progress where nothing is rounded;
* `progress_after_history`  : the laws of progress in every history.
-/

namespace Splittable

/-! ## Spans of moderate offsets -/

/-- The bounds and their distance have at most 53 bits, so that binary64 holds them exactly. -/
structure Span.Moderate (s : Span) : Prop where
  start : |s.start.toInt| ≤ 2 ^ 53
  stop : |s.stop.toInt| ≤ 2 ^ 53
  width : |s.stop.toInt - s.start.toInt| ≤ 2 ^ 53

namespace Tracker

open Binary64 (rounded)

variable {t t' : Tracker} {progress : Progress}

/-! ## The order of bounds and cursor -/

/-- The bounds of the span are in order, and no attempt lies before the span. -/
structure Placed (t : Tracker) : Prop where
  ordered : t.Ordered
  bounds : t.span.start ≤ t.span.stop

theorem placed_new {span : Span} (h : span.start ≤ span.stop) : (new span).Placed :=
  ⟨ordered_new span, h⟩

theorem Placed.use (h : t.Placed) (u : Use) : (t.use u).Placed := by
  cases u with
  | claim p => exact ⟨h.ordered.claim p, by rw [Tracker.use, claim_span]; exact h.bounds⟩
  | split f => exact ⟨h.ordered.split f, h.ordered.split_bounds h.bounds f⟩
  | checkpoint => exact ⟨h.ordered.split .zero, h.ordered.split_bounds h.bounds .zero⟩
  | fail reason => exact ⟨h.ordered.fail reason, h.bounds⟩

theorem Placed.after (h : t.Placed) (uses : List Use) : (t.after uses).Placed :=
  after_induction (fun _ u ht => ht.use u) h uses

/-- The start stays, the end of the span does not move up and the cursor does not move down. -/
structure Onward (t t' : Tracker) : Prop where
  start : t'.span.start = t.span.start
  stop : t'.span.stop ≤ t.span.stop
  cursor : t.cursor ≤ t'.cursor

namespace Onward

theorem refl (t : Tracker) : Onward t t :=
  ⟨rfl, Int64.le_refl _, Int64.le_refl _⟩

theorem trans {u : Tracker} (h : Onward t t') (h' : Onward t' u) : Onward t u :=
  ⟨h'.start.trans h.start, Int64.le_trans h'.stop h.stop, Int64.le_trans h.cursor h'.cursor⟩

theorem claim (t : Tracker) (p : Offset) : Onward t (t.claim p).2 := by
  have hspec := claim_spec t p
  generalize (t.claim p).1 = granted, (t.claim p).2 = t' at hspec ⊢
  cases hspec with
  | stopped | beforeStart | backwards => exact ⟨rfl, Int64.le_refl _, Int64.le_refl _⟩
  | exhausted _ hp hlast | granted _ hp hlast =>
    exact ⟨rfl, Int64.le_refl _, Int64.le_trans (cursor_le hp hlast) (Offset.le_after p)⟩

theorem split (h : t.Ordered) (f : Binary64) : Onward t (t.split f).2 := by
  have hspec := split_spec h f
  generalize (t.split f).1 = result, (t.split f).2 = t' at hspec ⊢
  cases hspec with
  | invalid | nothing => exact refl t
  | cut _ _ _ _ _ hhigh => exact ⟨rfl, hhigh, Int64.le_refl _⟩

theorem use (h : t.Ordered) (u : Use) : Onward t (t.use u) := by
  cases u with
  | claim p => exact claim t p
  | split f => exact split h f
  | checkpoint => exact split h .zero
  | fail reason => exact ⟨rfl, Int64.le_refl _, Int64.le_refl _⟩

theorem after (h : t.Placed) (uses : List Use) : Onward t (t.after uses) := by
  have hkept := after_induction (P := fun u => u.Placed ∧ Onward t u)
    (fun _ u hu => ⟨hu.1.use u, hu.2.trans (use hu.1.ordered u)⟩) ⟨h, refl t⟩ uses
  exact hkept.2

theorem moderate (h : Onward t t') (ht' : t'.Placed) (hm : t.span.Moderate) :
    t'.span.Moderate := by
  obtain ⟨hstart, hstop, hwidth⟩ := hm
  have hle := Offset.le_iff.1 h.stop
  have hbounds := Offset.le_iff.1 ht'.bounds
  rw [h.start] at hbounds
  rw [abs_le] at hstart hstop hwidth
  constructor <;> (try rw [h.start]) <;> rw [abs_le] <;> omega

end Onward

/-! ## The values of a progress -/

/-- The unclaimed work as a number, negative if the cursor is past the end. -/
def ahead (t : Tracker) : ℚ :=
  rounded (rounded t.span.stop.toInt - rounded t.cursor.toInt)

/-- The whole of the span as a number. -/
def width (t : Tracker) : ℚ :=
  rounded (rounded t.span.stop.toInt - rounded t.span.start.toInt)

/-- The unclaimed work as a number, with nothing left past the end. -/
def rest (t : Tracker) : ℚ :=
  max 0 t.ahead

/-- The whole without the unclaimed work as a number. -/
def past (t : Tracker) : ℚ :=
  rounded (t.width - t.rest)

theorem rounded_mono_offset {p q : Offset} (h : p ≤ q) :
    rounded p.toInt ≤ rounded q.toInt :=
  Binary64.rounded_mono (by exact_mod_cast Offset.le_iff.1 h)

theorem abs_rounded_offset (p : Offset) : |rounded p.toInt| ≤ (2 : ℚ) ^ (63 : ℤ) :=
  Binary64.abs_rounded_le (by omega) (by exact_mod_cast p.abs_toInt_le)

theorem abs_sub_offsets (p q : Offset) :
    |rounded p.toInt - rounded q.toInt| ≤ (2 : ℚ) ^ (64 : ℤ) := by
  have hp := abs_le.1 (abs_rounded_offset p)
  have hq := abs_le.1 (abs_rounded_offset q)
  have htwice : (2 : ℚ) ^ (64 : ℤ) = 2 ^ (63 : ℤ) + 2 ^ (63 : ℤ) := by norm_num
  rw [htwice, abs_le]
  constructor <;> linarith

theorem value?_sub_offsets (p q : Offset) :
    (Binary64.ofInt p.toInt - Binary64.ofInt q.toInt).value? =
      some (rounded (rounded p.toInt - rounded q.toInt)) :=
  Binary64.value?_sub (Binary64.value?_ofInt p.abs_toInt_le) (Binary64.value?_ofInt q.abs_toInt_le)
    ((abs_sub_offsets p q).trans (zpow_le_zpow_right₀ one_le_two (by omega)))

theorem value?_size (t : Tracker) : t.span.size.value? = some t.width :=
  value?_sub_offsets _ _

theorem Placed.width_nonneg (h : t.Placed) : 0 ≤ t.width :=
  Binary64.rounded_nonneg (sub_nonneg.2 (rounded_mono_offset h.bounds))

theorem rest_nonneg (t : Tracker) : 0 ≤ t.rest :=
  le_max_left _ _

theorem Placed.rest_le_width (h : t.Placed) : t.rest ≤ t.width :=
  max_le h.width_nonneg
    (Binary64.rounded_mono (sub_le_sub_left (rounded_mono_offset h.ordered.start_le_cursor) _))

theorem Placed.past_nonneg (h : t.Placed) : 0 ≤ t.past :=
  Binary64.rounded_nonneg (sub_nonneg.2 h.rest_le_width)

theorem abs_width_le (t : Tracker) : |t.width| ≤ (2 : ℚ) ^ (64 : ℤ) :=
  Binary64.abs_rounded_le (by omega) (abs_sub_offsets _ _)

theorem Placed.abs_width_sub_rest_le (h : t.Placed) : |t.width - t.rest| ≤ (2 : ℚ) ^ (64 : ℤ) := by
  have hwidth := (abs_le.1 (abs_width_le t)).2
  rw [abs_of_nonneg (sub_nonneg.2 h.rest_le_width)]
  exact (sub_le_self _ t.rest_nonneg).trans hwidth

/-- The values of a progress: what remains is what lies ahead, and nothing past the end; what is
done is the rest of the whole. -/
structure Reported (t : Tracker) (progress : Progress) : Prop where
  remaining : progress.remaining.value? = some t.rest
  done : progress.done.value? = some t.past

/-- **Where the bounds are in order a progress exists**, with these values. -/
theorem Placed.exists_reported (h : t.Placed) :
    ∃ progress, t.progress = some progress ∧ Reported t progress := by
  have hclamp := Binary64.value?_clamp (value?_sub_offsets t.span.stop t.cursor)
    Binary64.value?_zero (value?_size t)
  rw [max_comm, show max 0 (rounded _) = t.rest from rfl, min_eq_left h.rest_le_width] at hclamp
  refine ⟨_, if_pos (Span.zero_le_size h.bounds), hclamp, ?_⟩
  exact Binary64.value?_sub (value?_size t) hclamp
    (h.abs_width_sub_rest_le.trans (zpow_le_zpow_right₀ one_le_two (by omega)))

/-- What remains only shrinks. -/
theorem Onward.rest_le (h : Onward t t') : t'.rest ≤ t.rest := by
  have hahead : t'.ahead ≤ t.ahead :=
    Binary64.rounded_mono (sub_le_sub (rounded_mono_offset h.stop) (rounded_mono_offset h.cursor))
  exact max_le_max_left 0 hahead

/-! ## Where nothing is rounded -/

/-- What lies ahead of a cursor that is not past the end is held between zero and the size
already. -/
theorem clamp_ahead_of_le (h : t.Placed) (hm : t.span.Moderate)
    (hle : t.cursor.toInt ≤ t.span.stop.toInt) :
    (Binary64.ofInt t.span.stop.toInt - .ofInt t.cursor.toInt).clamp .zero t.span.size =
      .ofInt (t.span.stop.toInt - t.cursor.toInt) := by
  obtain ⟨hstart, hstop, hwidth⟩ := hm
  have hcursor := Offset.le_iff.1 h.ordered.start_le_cursor
  have hsize : t.span.size = .ofInt (t.span.stop.toInt - t.span.start.toInt) :=
    Binary64.ofInt_sub_ofInt hstop hstart
  have hsizeValue := Binary64.value?_ofInt_exact hwidth
  rw [abs_le] at hstart hstop hwidth
  have hvalue := Binary64.value?_ofInt_exact (n := t.span.stop.toInt - t.cursor.toInt)
    (abs_le.2 (by omega))
  rw [hsize, Binary64.ofInt_sub_ofInt (abs_le.2 hstop) (abs_le.2 (by omega))]
  apply Binary64.clamp_eq_self
  · rw [Binary64.lt_iff hvalue Binary64.value?_zero, not_lt]
    exact_mod_cast (by omega : 0 ≤ t.span.stop.toInt - t.cursor.toInt)
  · rw [Binary64.lt_iff hsizeValue hvalue, not_lt]
    exact_mod_cast (by omega :
      t.span.stop.toInt - t.cursor.toInt ≤ t.span.stop.toInt - t.span.start.toInt)

/-- What lies ahead of a cursor past the end is raised to zero, whatever the offsets. -/
theorem clamp_ahead_of_gt (h : t.Placed) (hgt : t.span.stop.toInt < t.cursor.toInt) :
    (Binary64.ofInt t.span.stop.toInt - .ofInt t.cursor.toInt).clamp .zero t.span.size =
      .zero := by
  have hnot : ¬ t.span.size < .zero := by
    rw [Binary64.lt_iff (value?_size t) Binary64.value?_zero, not_lt]
    exact h.width_nonneg
  have horder : rounded t.span.stop.toInt ≤ rounded t.cursor.toInt :=
    Binary64.rounded_mono (by exact_mod_cast hgt.le)
  rcases (sub_nonpos.2 horder).lt_or_eq with hneg | hzero
  · apply Binary64.clamp_eq_low _ hnot
    rw [Binary64.lt_iff (value?_sub_offsets _ _) Binary64.value?_zero]
    obtain ⟨a, ha⟩ := Binary64.exists_rounded_eq t.span.stop.toInt
    obtain ⟨b, hb⟩ := Binary64.exists_rounded_eq t.cursor.toInt
    rw [ha, hb, ← Int.cast_sub] at hneg ⊢
    exact Binary64.rounded_intCast_neg_iff.2 (by exact_mod_cast hneg)
  · -- the cursor is rounded to the same number as the end
    rw [Binary64.ofInt_sub_ofInt_eq t.span.stop.abs_toInt_le t.cursor.abs_toInt_le, hzero]
    apply Binary64.clamp_eq_self _ hnot
    rw [Binary64.lt_iff Binary64.value?_zero Binary64.value?_zero]
    exact lt_irrefl 0

/-- **The progress of a span of moderate offsets** counts the offsets on either side of the
cursor. -/
theorem progress_moderate (h : t.Placed) (hm : t.span.Moderate) :
    t.progress = some ⟨.ofInt (min t.cursor.toInt t.span.stop.toInt - t.span.start.toInt),
      .ofInt (max 0 (t.span.stop.toInt - t.cursor.toInt))⟩ := by
  have hcursor := Offset.le_iff.1 h.ordered.start_le_cursor
  have hclamp : (Binary64.ofInt t.span.stop.toInt - .ofInt t.cursor.toInt).clamp .zero
      t.span.size = .ofInt (max 0 (t.span.stop.toInt - t.cursor.toInt)) := by
    rcases le_or_gt t.cursor.toInt t.span.stop.toInt with hle | hgt
    · rw [clamp_ahead_of_le h hm hle, max_eq_right (by omega)]
    · rw [clamp_ahead_of_gt h hgt, max_eq_left (by omega)]
      rfl
  have hsize : t.span.size = .ofInt (t.span.stop.toInt - t.span.start.toInt) :=
    Binary64.ofInt_sub_ofInt hm.stop hm.start
  have hwidth := abs_le.1 hm.width
  have hdone : t.span.size - .ofInt (max 0 (t.span.stop.toInt - t.cursor.toInt)) =
      .ofInt (min t.cursor.toInt t.span.stop.toInt - t.span.start.toInt) := by
    rw [hsize, Binary64.ofInt_sub_ofInt hm.width (abs_le.2 (by omega))]
    congr 1
    omega
  unfold progress
  dsimp only
  rw [if_pos (Span.zero_le_size h.bounds), hclamp, hdone]

theorem counts_moderate (h : t.Placed) (hm : t.span.Moderate) :
    |min t.cursor.toInt t.span.stop.toInt - t.span.start.toInt| ≤ 2 ^ 53 ∧
      |max 0 (t.span.stop.toInt - t.cursor.toInt)| ≤ 2 ^ 53 := by
  have hcursor := Offset.le_iff.1 h.ordered.start_le_cursor
  have hbounds := Offset.le_iff.1 h.bounds
  have hwidth := abs_le.1 hm.width
  constructor <;> rw [abs_le] <;> omega

theorem done_split (h : t.Placed) (hm : t.span.Moderate) (f : Binary64) :
    (t.split f).2.progress.map (·.done) = t.progress.map (·.done) := by
  have h' : (t.split f).2.Placed := h.use (.split f)
  have honward := Onward.split h.ordered f
  rw [progress_moderate h hm, progress_moderate h' (honward.moderate h' hm), honward.start]
  simp only [Option.map_some]
  have hspec := split_spec h.ordered f
  generalize (t.split f).1 = result, (t.split f).2 = t' at hspec ⊢
  cases hspec with
  | invalid | nothing => rfl
  | cut point _ _ hcursor hlow =>
    -- the cursor is neither past the old end nor past the new one
    rw [Offset.lt_iff] at hcursor
    rw [Offset.le_iff] at hlow
    show some (Binary64.ofInt (min t.cursor.toInt point.toInt - _)) = _
    rw [min_eq_left hlow, min_eq_left hcursor.le]

/-! ## Every history -/

/-- **Progress through a history.**  In every state of a tracker whose bounds are in order a
progress exists; what remains lies between zero and the size of the span, and what is done is not
negative.  What remains never grows again, and a claim never takes back what is done.  Where the
bounds and their distance have at most 53 bits, and so in every state that follows, the progress
counts the offsets before the cursor, but not past the end, and the offsets from the cursor to the
end, both exactly; a split then never changes what is done. -/
theorem progress_after_history (span : Span) (hspan : span.start ≤ span.stop) (uses : List Use) :
    let t := (new span).after uses
    ∃ progress, t.progress = some progress ∧
      .zero ≤ progress.remaining ∧ progress.remaining ≤ t.span.size ∧ .zero ≤ progress.done ∧
      (∀ more, ∃ later, (t.after more).progress = some later ∧
        later.remaining ≤ progress.remaining) ∧
      (∀ p, ∃ later, (t.claim p).2.progress = some later ∧ progress.done ≤ later.done) ∧
      (span.Moderate → t.span.Moderate) ∧
      (t.span.Moderate →
        progress.done.value? = some ↑(min t.cursor.toInt t.span.stop.toInt - t.span.start.toInt) ∧
        progress.remaining.value? = some ↑(max 0 (t.span.stop.toInt - t.cursor.toInt)) ∧
        ∀ f, ∃ later, (t.split f).2.progress = some later ∧ later.done = progress.done) := by
  intro t
  have h : t.Placed := (placed_new hspan).after uses
  obtain ⟨progress, hprogress, hreported⟩ := h.exists_reported
  have hzero := Binary64.value?_zero
  refine ⟨progress, hprogress, ?_, ?_, ?_, fun more => ?_, fun p => ?_,
    (Onward.after (placed_new hspan) uses).moderate h, fun hm => ?_⟩
  · exact (Binary64.le_iff hzero hreported.remaining).2 t.rest_nonneg
  · exact (Binary64.le_iff hreported.remaining (value?_size t)).2 h.rest_le_width
  · exact (Binary64.le_iff hzero hreported.done).2 h.past_nonneg
  · obtain ⟨later, hlater, hreported'⟩ := (h.after more).exists_reported
    refine ⟨later, hlater, (Binary64.le_iff hreported'.remaining hreported.remaining).2 ?_⟩
    exact (Onward.after h more).rest_le
  · obtain ⟨later, hlater, hreported'⟩ := (h.use (.claim p)).exists_reported
    refine ⟨later, hlater, (Binary64.le_iff hreported.done hreported'.done).2 ?_⟩
    have hwidth : (t.claim p).2.width = t.width := by rw [width, width, claim_span]
    apply Binary64.rounded_mono
    rw [show t.use (.claim p) = (t.claim p).2 from rfl, hwidth]
    exact sub_le_sub_left (Onward.claim t p).rest_le _
  · have hcounts := counts_moderate h hm
    obtain rfl := Option.some.inj (hprogress.symm.trans (progress_moderate h hm))
    refine ⟨Binary64.value?_ofInt_exact hcounts.1, Binary64.value?_ofInt_exact hcounts.2,
      fun f => ?_⟩
    obtain ⟨later, hlater, -⟩ := (h.use (.split f)).exists_reported
    have hdone := done_split h hm f
    rw [hprogress, show (t.split f).2.progress = some later from hlater] at hdone
    exact ⟨later, hlater, Option.some.inj hdone⟩

/-- Of eight offsets a split at one half hands back three; a claim far past the end exhausts the
five that are left. -/
theorem progress_after_history_eight :
    let t := (new ⟨0, 8⟩).after [.claim 1, .split (.round false (1 / 2)), .claim 40]
    (0 : Offset) ≤ 8 ∧ t.span.Moderate ∧ ∃ progress, t.progress = some progress ∧
      progress.remaining ≤ t.span.size ∧
      progress.done.value? = some 5 ∧ progress.remaining.value? = some 0 := by
  intro t
  obtain ⟨progress, hprogress, -, hsize, -, -, -, hmoderate, hexact⟩ :=
    progress_after_history ⟨0, 8⟩ (by decide)
      [.claim 1, .split (.round false (1 / 2)), .claim 40]
  have hspan : t.span = ⟨0, 5⟩ := by decide +kernel
  have hcursor : t.cursor = 41 := by decide +kernel
  have hm : t.span.Moderate := hmoderate ⟨by decide, by decide, by decide⟩
  obtain ⟨hdone, hremaining, -⟩ := hexact hm
  refine ⟨by decide, hm, progress, hprogress, hsize, hdone.trans ?_, hremaining.trans ?_⟩
  · rw [show (new ⟨0, 8⟩).after _ = t from rfl, hspan, hcursor]
    rfl
  · rw [show (new ⟨0, 8⟩).after _ = t from rfl, hspan, hcursor]
    rfl

end Tracker

end Splittable
