import Splittable.Coordination.Rehearsal
import Splittable.Proofs.Offset.Runs
import Splittable.Proofs.Span.Partition

/-!
# What an examination shows

The fields of an outcome can be anything.  An examination compares them one after the other, and
what it builds on the way rests on what it has compared already: the bounds of the span that should
be left are in order because the primary lies in the whole.  Nothing bounds the number of offsets
that should have been emitted, so the list of them need not exist.

* `Joined`, `Divides`   : outcomes whose parts belong together, and outcomes that divide their span;
* `Differs`             : the first thing in which an outcome differs from such a division;
* `Examined`            : what an examination can come to;
* `Divides.enumerates`  : the offsets of an outcome that divides its span;
* `examine_spec`        : what an examination finds, and when it breaks off.
-/

namespace Splittable.RehearsalOutcome

/-- The parts of the split meet, and they lie in the span up to its end. -/
structure Joined (o : RehearsalOutcome) : Prop where
  meets : o.split.primary.stop = o.split.residual.start
  ends : o.split.residual.stop = o.whole.stop
  start_le : o.whole.start ≤ o.split.primary.start
  ordered : o.split.primary.start ≤ o.split.primary.stop
  le_stop : o.split.primary.stop ≤ o.whole.stop

/-- The outcome divides its span at `p`, with the cursor at `c` when the split took the lock: every
offset before `p` was emitted, and the split handed back the rest. -/
structure Divides (o : RehearsalOutcome) (c p : Offset) : Prop where
  start_le : o.whole.start ≤ c
  le_point : c ≤ p
  le_stop : p ≤ o.whole.stop
  emitted : o.emitted = Offset.run o.whole.start p
  primary : o.split.primary = ⟨c, p⟩
  residual : o.split.residual = ⟨p, o.whole.stop⟩
  final : o.final = ⟨o.whole.start, p⟩

variable {o : RehearsalOutcome} {c p : Offset}

theorem Divides.joined (h : o.Divides c p) : o.Joined where
  meets := by rw [h.primary, h.residual]
  ends := by rw [h.residual]
  start_le := by rw [h.primary]; exact h.start_le
  ordered := by rw [h.primary]; exact h.le_point
  le_stop := by rw [h.primary]; exact h.le_stop

/-- **Emitted and handed back, every offset of the span comes once**, in order. -/
theorem Divides.enumerates (h : o.Divides c p) :
    o.emitted ++ Offset.run o.split.residual.start o.split.residual.stop =
      Offset.run o.whole.start o.whole.stop := by
  rw [h.emitted, h.residual]
  exact Offset.run_append (Int64.le_trans h.start_le h.le_point) h.le_stop

/-! ## The first difference -/

/-- All that is compared before the cursor agrees. -/
structure Agrees (o : RehearsalOutcome) : Prop extends Joined o where
  emitted : o.emitted = Offset.run o.whole.start o.split.primary.stop
  final : o.final = ⟨o.whole.start, o.split.primary.stop⟩

/-- The first thing in which the outcome differs from a division of its span. -/
inductive Differs (o : RehearsalOutcome) : Discrepancy → Prop where
  | apart : o.split.primary.stop ≠ o.split.residual.start → Differs o (.apart o.split)
  | residualEnd : o.split.primary.stop = o.split.residual.start →
      o.split.residual.stop ≠ o.whole.stop → Differs o (.residualEnd o.split.residual o.whole)
  | primaryOutside : o.split.primary.stop = o.split.residual.start →
      o.split.residual.stop = o.whole.stop → ¬ o.Joined →
      Differs o (.primaryOutside o.split.primary o.whole)
  | emitted : o.Joined → o.emitted ≠ Offset.run o.whole.start o.split.primary.stop →
      Differs o (.emitted o.emitted o.whole.start o.split.primary.stop)
  | final : o.Joined → o.emitted = Offset.run o.whole.start o.split.primary.stop →
      o.final ≠ ⟨o.whole.start, o.split.primary.stop⟩ →
      Differs o (.final o.final o.whole.start o.split.primary.stop)
  | cursor (c : Offset) : o.Agrees → o.cursor? = some c → o.split.primary.start ≠ c →
      Differs o (.cursor o.interleaving o.split.primary.start c)

theorem Divides.agrees (h : o.Divides c p) : o.Agrees where
  toJoined := h.joined
  emitted := by rw [h.primary]; exact h.emitted
  final := by rw [h.primary]; exact h.final

theorem Divides.not_differs (h : o.Divides c p) (hcursor : o.cursor? = some c) (d : Discrepancy) :
    ¬ o.Differs d := by
  intro hdiffers
  cases hdiffers with
  | apart hne => exact hne h.joined.meets
  | residualEnd _ hne => exact hne h.joined.ends
  | primaryOutside _ _ hnot => exact hnot h.joined
  | emitted _ hne => exact hne h.agrees.emitted
  | final _ _ hne => exact hne h.agrees.final
  | cursor c' _ hcursor' hne =>
    cases hcursor.symm.trans hcursor'
    exact hne (by rw [h.primary])

/-- The bounds are in order because the primary lies in the whole. -/
theorem checked_of_joined (h : o.Joined) : Span.checked o.whole.start o.split.primary.stop =
    .ok ⟨o.whole.start, o.split.primary.stop⟩ :=
  if_neg (Int64.not_lt.2 (Int64.le_trans h.start_le h.ordered))

theorem isContiguous_iff : o.split.isContiguous = true ↔
    o.split.primary.stop = o.split.residual.start :=
  decide_eq_true_iff

/-- What is left to examine where the parts belong together. -/
theorem examine_of_joined (h : o.Joined) : o.examine =
    if ¬ Offset.fits o.whole.start o.split.primary.stop then
      .error (.crowded o.whole.start o.split.primary.stop)
    else if o.emitted ≠ Offset.run o.whole.start o.split.primary.stop then
      .ok (.error (.emitted o.emitted o.whole.start o.split.primary.stop))
    else if o.final ≠ ⟨o.whole.start, o.split.primary.stop⟩ then
      .ok (.error (.final o.final o.whole.start o.split.primary.stop))
    else o.cursor?.elim (.error (.last o.block)) fun c =>
      if o.split.primary.start ≠ c then
        .ok (.error (.cursor o.interleaving o.split.primary.start c))
      else .ok (.ok ()) := by
  unfold examine
  dsimp only
  rw [if_neg (not_not.2 (isContiguous_iff.2 h.meets)), if_neg (not_not.2 h.ends),
    if_neg (not_not.2 ⟨h.start_le, h.ordered, h.le_stop⟩), checked_of_joined h]
  simp only [Offset.isRun_iff]
  cases o.cursor? <;> rfl

/-- **A first difference is found**, unless there are too many offsets. -/
theorem examine_of_differs {d : Discrepancy} (h : o.Differs d)
    (hfits : o.Joined → Offset.fits o.whole.start o.split.primary.stop = true) :
    o.examine = .ok (.error d) := by
  cases h with
  | apart hne =>
    unfold examine
    exact if_pos (isContiguous_iff.not.2 hne)
  | residualEnd hmeets hne =>
    unfold examine
    dsimp only
    rw [if_neg (not_not.2 (isContiguous_iff.2 hmeets)), if_pos hne]
  | primaryOutside hmeets hends hnot =>
    unfold examine
    dsimp only
    rw [if_neg (not_not.2 (isContiguous_iff.2 hmeets)), if_neg (not_not.2 hends), if_pos]
    exact fun ⟨hstart, hordered, hstop⟩ => hnot ⟨hmeets, hends, hstart, hordered, hstop⟩
  | emitted hjoined hne =>
    rw [examine_of_joined hjoined, if_neg (not_not.2 (hfits hjoined)), if_pos hne]
  | final hjoined hrun hne =>
    rw [examine_of_joined hjoined, if_neg (not_not.2 (hfits hjoined)), if_neg (not_not.2 hrun),
      if_pos hne]
  | cursor c hagrees hcursor hne =>
    have hjoined := hagrees.toJoined
    rw [examine_of_joined hjoined, if_neg (not_not.2 (hfits hjoined)),
      if_neg (not_not.2 hagrees.emitted), if_neg (not_not.2 hagrees.final), hcursor]
    exact if_pos hne

/-! ## What an examination can come to -/

/-- What an examination can come to: it finds the first difference, there are too many offsets, no
offset comes after the block position, or the outcome divides its span. -/
inductive Examined (o : RehearsalOutcome) : Except Breakdown (Except Discrepancy Unit) → Prop where
  | rejected (d : Discrepancy) : o.Differs d →
      (o.Joined → Offset.fits o.whole.start o.split.primary.stop = true) →
      Examined o (.ok (.error d))
  | crowded : o.Joined → Offset.fits o.whole.start o.split.primary.stop = false →
      Examined o (.error (.crowded o.whole.start o.split.primary.stop))
  | last : o.Agrees → Offset.fits o.whole.start o.split.primary.stop = true → o.cursor? = none →
      Examined o (.error (.last o.block))
  | accepted (c p : Offset) : Offset.fits o.whole.start o.split.primary.stop = true →
      o.cursor? = some c → o.Divides c p → Examined o (.ok (.ok ()))

/-- **An examination comes to one of these.** -/
theorem examined (o : RehearsalOutcome) : Examined o o.examine := by
  by_cases hjoined : o.Joined
  · rw [examine_of_joined hjoined]
    split
    · rename_i hmany
      exact .crowded hjoined (by simpa using hmany)
    rename_i hfits
    rw [Decidable.not_not] at hfits
    split
    · rename_i hother
      exact .rejected _ (.emitted hjoined hother) fun _ => hfits
    rename_i hrun
    rw [Decidable.not_not] at hrun
    split
    · rename_i hleft
      exact .rejected _ (.final hjoined hrun hleft) fun _ => hfits
    rename_i hfinal
    rw [Decidable.not_not] at hfinal
    have hagrees : o.Agrees := ⟨hjoined, hrun, hfinal⟩
    cases hcursor : o.cursor? with
    | none => exact .last hagrees hfits hcursor
    | some c =>
      by_cases hseen : o.split.primary.start = c
      · rw [Option.elim_some, if_neg (not_not.2 hseen)]
        refine .accepted c o.split.primary.stop hfits hcursor ?_
        refine ⟨hseen ▸ hjoined.start_le, hseen ▸ hjoined.ordered, hjoined.le_stop, hrun, ?_, ?_,
          hfinal⟩
        · rw [← hseen]
        · rw [hjoined.meets, ← hjoined.ends]
      · rw [Option.elim_some, if_pos hseen]
        exact .rejected _ (.cursor c hagrees hcursor hseen) fun _ => hfits
  · -- one of the first three comparisons fails
    have hfound : ∀ d, o.Differs d → Examined o o.examine := fun d hd => by
      rw [examine_of_differs hd fun h => absurd h hjoined]
      exact .rejected d hd fun h => absurd h hjoined
    by_cases hmeets : o.split.primary.stop = o.split.residual.start
    · by_cases hends : o.split.residual.stop = o.whole.stop
      · exact hfound _ (.primaryOutside hmeets hends hjoined)
      · exact hfound _ (.residualEnd hmeets hends)
    · exact hfound _ (.apart hmeets)

/-! ## What is accepted -/

theorem fits_iff_length (h : o.emitted = Offset.run o.whole.start p) :
    Offset.fits o.whole.start p = true ↔ o.emitted.length ≤ Offset.room := by
  rw [h, Offset.length_run, Offset.fits, decide_eq_true_eq]

/-- **An examination accepts exactly the outcomes that divide their span**, if there is a list of
what they emitted. -/
theorem examine_eq_ok_iff : o.examine = .ok (.ok ()) ↔ o.emitted.length ≤ Offset.room ∧
    ∃ c p, o.cursor? = some c ∧ o.Divides c p := by
  have hspec := o.examined
  constructor
  · intro h
    rw [h] at hspec
    cases hspec with
    | accepted c p hfits hcursor hdivides =>
      have hfits' : Offset.fits o.whole.start p = true := by
        simpa [hdivides.primary] using hfits
      exact ⟨(fits_iff_length hdivides.emitted).1 hfits', c, p, hcursor, hdivides⟩
  · rintro ⟨hroom, c, p, hcursor, hdivides⟩
    generalize o.examine = result at hspec
    cases hspec with
    | rejected d hdiffers => exact absurd hdiffers (hdivides.not_differs hcursor d)
    | crowded _ hmany =>
      rw [hdivides.primary, (fits_iff_length hdivides.emitted).2 hroom] at hmany
      cases hmany
    | last _ _ hnone => cases hcursor.symm.trans hnone
    | accepted => rfl

/-! ## What breaks off -/

theorem examine_eq_crowded_iff {start stop : Offset} :
    o.examine = .error (.crowded start stop) ↔ o.Joined ∧ start = o.whole.start ∧
      stop = o.split.primary.stop ∧ Offset.fits start stop = false := by
  have hspec := o.examined
  constructor
  · intro h
    rw [h] at hspec
    cases hspec with
    | crowded hjoined hmany => exact ⟨hjoined, rfl, rfl, hmany⟩
  · rintro ⟨hjoined, rfl, rfl, hmany⟩
    generalize o.examine = result at hspec
    cases hspec with
    | rejected d _ hfits =>
      rw [hfits hjoined] at hmany
      cases hmany
    | crowded => rfl
    | last _ hfits | accepted _ _ hfits =>
      rw [hfits] at hmany
      cases hmany

theorem cursor?_eq_none_iff : o.cursor? = none ↔
    o.interleaving = .claimBlocksSplit ∧ o.block = Int64.maxValue := by
  unfold cursor?
  cases o.interleaving <;> simp

theorem examine_eq_error_iff {d : Discrepancy} : o.examine = .ok (.error d) ↔
    o.Differs d ∧ (o.Joined → Offset.fits o.whole.start o.split.primary.stop = true) := by
  refine ⟨fun h => ?_, fun ⟨hdiffers, hfits⟩ => examine_of_differs hdiffers hfits⟩
  have hspec := o.examined
  rw [h] at hspec
  cases hspec with
  | rejected _ hdiffers hfits => exact ⟨hdiffers, hfits⟩

/-- **What an examination shows.**  It reports the first thing in which the outcome differs from a
division of its span, or it breaks off: never over inverted bounds, over the block position only if
that is the last offset and the claim has the lock first, and exactly if the parts belong together
and are too long for a list of their offsets.  It accepts exactly the outcomes that divide their
span, as far as there can be a list of what they emitted, and then every offset is emitted or handed
back, once. -/
theorem examine_spec (o : RehearsalOutcome) :
    (∀ d, o.examine = .ok (.error d) ↔
      o.Differs d ∧ (o.Joined → Offset.fits o.whole.start o.split.primary.stop = true)) ∧
    (∀ bounds, o.examine ≠ .error (.inverted bounds)) ∧
    (∀ block, o.examine = .error (.last block) →
      o.interleaving = .claimBlocksSplit ∧ o.block = Int64.maxValue) ∧
    (∀ start stop, o.examine = .error (.crowded start stop) ↔ o.Joined ∧ start = o.whole.start ∧
      stop = o.split.primary.stop ∧ Offset.fits start stop = false) ∧
    (o.examine = .ok (.ok ()) ↔ o.emitted.length ≤ Offset.room ∧
      ∃ c p, o.cursor? = some c ∧ o.Divides c p) ∧
    (o.examine = .ok (.ok ()) →
      let all := o.emitted ++ Offset.run o.split.residual.start o.split.residual.stop
      all = Offset.run o.whole.start o.whole.stop ∧ all.Nodup ∧ ∀ q, q ∈ all ↔ q ∈ o.whole) := by
  have hspec := o.examined
  refine ⟨fun _ => examine_eq_error_iff, fun bounds h => ?_, fun block h => ?_,
    fun _ _ => examine_eq_crowded_iff, examine_eq_ok_iff, fun h => ?_⟩
  · rw [h] at hspec
    cases hspec
  · rw [h] at hspec
    cases hspec with
    | last _ _ hnone => exact cursor?_eq_none_iff.1 hnone
  · obtain ⟨_, c, p, _, hdivides⟩ := examine_eq_ok_iff.1 h
    dsimp only
    rw [hdivides.enumerates]
    exact ⟨rfl, Offset.nodup_run _ _, fun q => Offset.mem_run⟩

/-- The widest span, handed back to its last offset with nothing emitted: that is the first
difference, and the examination breaks off before it comes to it. -/
theorem examine_widest :
    let whole : Span := ⟨Int64.minValue, Int64.maxValue⟩
    let o : RehearsalOutcome :=
      ⟨.nonBlocking, whole, 0, [], ⟨whole, ⟨Int64.maxValue, Int64.maxValue⟩⟩, whole⟩
    o.examine = .error (.crowded Int64.minValue Int64.maxValue) ∧
      o.Differs (.emitted [] Int64.minValue Int64.maxValue) := by
  refine ⟨by decide +kernel, .emitted ⟨rfl, rfl, ?_, ?_, ?_⟩ ?_⟩
  · decide +kernel
  · decide +kernel
  · decide +kernel
  · rw [ne_eq, ← Offset.isRun_iff]
    decide +kernel

end Splittable.RehearsalOutcome
