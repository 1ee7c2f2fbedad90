import Splittable.Proofs.Coordination.Interleavings
import Splittable.Proofs.Coordination.Verification

/-!
# What a rehearsal returns

A rehearsal that is performed in any order of steps returns what one claim after the other and then
the split return on a tracker that nobody else uses.

* `Tracker.claimed`        : a tracker after the claims before an offset;
* `Rehearsal.Returns`      : what a rehearsal can return, in whatever order the movers step;
* `run_division`           : the outcome of a rehearsal divides its span;
* `Rehearsal.outcome_spec` : when a rehearsal succeeds, and with what.
-/

namespace Splittable

/-! ## The claims before the split -/

/-- A tracker that nobody else uses, after claims of every offset before `p`. -/
def Tracker.claimed (span : Span) (p : Offset) : Tracker :=
  (Offset.run span.start p).foldl (fun t q => (t.claim q).2) (.new span)

/-- **All these claims are granted.** -/
theorem Tracker.claimed_eq (span : Span) {p : Offset} (hstart : span.start ≤ p)
    (hstop : p ≤ span.stop) : claimed span p = reached span p := by
  obtain ⟨n, hn⟩ : ∃ n : Nat, p.toInt = span.start.toInt + n := by
    have hle := Offset.le_iff.1 hstart
    exact ⟨(p.toInt - span.start.toInt).toNat, by omega⟩
  induction n generalizing p with
  | zero =>
    have heq : p = span.start := by
      rw [Offset.eq_iff]
      omega
    rw [heq, claimed, Offset.run_self, new_eq_reached]
    rfl
  | succ n ih =>
    have hlt : span.start < p := by
      rw [Offset.lt_iff]
      omega
    have hpred := toInt_sub_one hlt
    have hbelow : p - 1 < p := by
      rw [Offset.lt_iff]
      omega
    have hnext : p - 1 + 1 = p := by
      rw [Offset.eq_iff, Offset.toInt_add_one hbelow]
      omega
    have hlow : span.start ≤ p - 1 := by
      rw [Offset.le_iff]
      omega
    have hhigh : p - 1 < span.stop := by
      rw [Offset.lt_iff]
      rw [Offset.le_iff] at hstop
      omega
    have hprevious := ih hlow (Int64.le_of_lt hhigh) (by omega)
    rw [← hnext, claimed, Offset.run_succ hlow hhigh, List.foldl_append]
    rw [claimed] at hprevious
    rw [hprevious]
    exact congrArg Prod.snd (claim_reached span hlow hhigh)

namespace Rehearsal

variable {r : Rehearsal}

/-! ## Every way to return -/

/-- What a rehearsal can return: it is refused, or performed by some schedule to its end without a
timeout. -/
inductive Returns (r : Rehearsal) (order : Interleaving) :
    Except RehearsalError RehearsalOutcome → Prop where
  | fraction : ¬ r.fraction.InUnit → Returns r order (.error (.fraction r.fraction))
  | block : r.fraction.InUnit → r.block < r.span.start ∨ r.span.stop < r.block →
      Returns r order (.error (.block r.block r.span))
  | performed (schedule : List Mover) (p : Performance) : r.Valid → .timeout ∉ schedule →
      (Performance.start r order).play schedule = some p → p.isOver = true →
      Returns r order (p.result order)

theorem valid_of_not_outside (hfraction : r.fraction.InUnit)
    (hblock : ¬ (r.block < r.span.start ∨ r.span.stop < r.block)) : r.Valid := by
  rw [not_or] at hblock
  exact ⟨hfraction, Int64.not_lt.1 hblock.1, Int64.not_lt.1 hblock.2⟩

/-- **There is one thing to return**, whatever the order of steps. -/
theorem returns_iff {order : Interleaving} {result : Except RehearsalError RehearsalOutcome} :
    r.Returns order result ↔ result = r.run order := by
  constructor
  · intro h
    cases h with
    | fraction hnot => rw [run, if_pos hnot]
    | block hfraction hout => rw [run, if_neg (not_not.2 hfraction), if_pos hout]
    | performed schedule p hr htimeout hplay hover =>
      rw [run_expected hr]
      exact Performance.result_of_play hr htimeout hplay hover
  · rintro rfl
    by_cases hfraction : r.fraction.InUnit
    · by_cases hblock : r.block < r.span.start ∨ r.span.stop < r.block
      · rw [run, if_neg (not_not.2 hfraction), if_pos hblock]
        exact .block hfraction hblock
      · have hr := valid_of_not_outside hfraction hblock
        obtain ⟨schedule, p, htimeout, hplay, hover, hrun⟩ := exists_play hr order
        rw [hrun]
        exact .performed schedule p hr htimeout hplay hover
    · rw [run, if_pos hfraction]
      exact .fraction hfraction

theorem valid_of_run {order : Interleaving} {o : RehearsalOutcome} (h : r.run order = .ok o) :
    r.Valid := by
  unfold run at h
  split at h
  · cases h
  · split at h
    · cases h
    · exact valid_of_not_outside (not_not.1 ‹_›) ‹_›

/-! ## When it succeeds, and with what -/

theorem expectedCursor_eq {order : Interleaving} {o : RehearsalOutcome} {p : Offset}
    (horder : o.interleaving = order) (hwhole : o.whole = r.span) (hblock : o.block = r.block)
    (hp : p.toInt = r.cursorAt order) : o.expectedCursor = p := by
  rw [Offset.eq_iff, hp]
  unfold RehearsalOutcome.expectedCursor
  rw [horder, hwhole, hblock]
  cases order with
  | nonBlocking | splitBlocksClaim => rfl
  | claimBlocksSplit =>
    have hbelow : r.block < p := by
      rw [Offset.lt_iff, hp]
      exact Int.lt_succ _
    exact Offset.toInt_add_one hbelow

/-- **What a successful rehearsal returns** is what the split returns after the claims before it on
a tracker that nobody else uses, and every offset up to where that cuts the span. -/
theorem run_division {order : Interleaving} {o : RehearsalOutcome} (h : r.run order = .ok o) :
    o.interleaving = order ∧ o.whole = r.span ∧ o.block = r.block ∧
      o.expectedCursor.toInt = r.cursorAt order ∧ o.expectedCursor < r.span.stop ∧
      ((Tracker.claimed r.span o.expectedCursor).split r.fraction).1 = .ok o.split ∧
      o.Divides o.expectedCursor o.split.primary.stop := by
  have hr := valid_of_run h
  rw [run_expected hr, expected] at h
  rcases verdict_spec hr order with ⟨_, fault, hverdict⟩ |
    ⟨p, point, hp, hstart, _, hlt, hlow, hhigh, hverdict⟩
  · rw [hverdict] at h
    cases h
  · have hclaimed := Tracker.claimed_eq r.span hstart (Int64.le_of_lt hlt)
    have hsplit : ((Tracker.claimed r.span p).split r.fraction).1 =
        .ok ⟨⟨p, point⟩, ⟨point, r.span.stop⟩⟩ := by
      rw [hclaimed, ← seen_eq hr hp hlt]
      exact congrArg Prod.fst hverdict
    rw [hverdict] at h
    obtain ⟨order', whole, block, emitted, split, final⟩ := o
    cases h
    have hcursor := expectedCursor_eq (o := ⟨order, r.span, r.block,
      Offset.run r.span.start point, ⟨⟨p, point⟩, ⟨point, r.span.stop⟩⟩, ⟨r.span.start, point⟩⟩)
      rfl rfl rfl hp
    rw [hcursor]
    exact ⟨rfl, rfl, rfl, hp, hlt, hsplit, hstart, hlow, hhigh, rfl, rfl, rfl, rfl⟩

/-- The examination finds the cursor: an offset comes after the block position, if the claim of that
was granted. -/
theorem cursor?_of_run {order : Interleaving} {o : RehearsalOutcome} (h : r.run order = .ok o) :
    o.cursor? = some o.expectedCursor := by
  obtain ⟨horder, _, hblock, hcursor, _⟩ := run_division h
  unfold RehearsalOutcome.cursor?
  cases hi : o.interleaving with
  | nonBlocking | splitBlocksClaim => rfl
  | claimBlocksSplit =>
    have hnext : o.block ≠ Int64.maxValue := by
      intro hlast
      have hbelow := o.expectedCursor.toInt_lt
      rw [hcursor, ← horder, hi, cursorAt, ← hblock, hlast] at hbelow
      exact absurd hbelow (by decide)
    simp only [if_neg hnext, RehearsalOutcome.expectedCursor, hi]

/-- **The outcome of a rehearsal is accepted** if there is a list of what was emitted. -/
theorem examine_of_run {order : Interleaving} {o : RehearsalOutcome} (h : r.run order = .ok o) :
    o.examine = .ok (.ok ()) ↔ o.emitted.length ≤ Offset.room := by
  obtain ⟨_, _, _, _, _, _, hdivides⟩ := run_division h
  rw [RehearsalOutcome.examine_eq_ok_iff]
  exact and_iff_left ⟨_, _, cursor?_of_run h, hdivides⟩

/-- **A rehearsal succeeds exactly if** its settings are valid and there is work left to split. -/
theorem exists_ok_iff {order : Interleaving} :
    (∃ o, r.run order = .ok o) ↔ r.fraction.InUnit ∧ r.span.start ≤ r.block ∧
      r.block ≤ r.span.stop ∧ r.cursorAt order < r.span.stop.toInt := by
  constructor
  · rintro ⟨o, h⟩
    have hr := valid_of_run h
    obtain ⟨_, _, _, hcursor, hlt, _⟩ := run_division h
    refine ⟨hr.fraction, hr.start_le, hr.le_stop, ?_⟩
    rw [← hcursor]
    exact Offset.lt_iff.1 hlt
  · rintro ⟨hfraction, hstart, hstop, hcursor⟩
    have hr : r.Valid := ⟨hfraction, hstart, hstop⟩
    rw [run_expected hr, expected]
    rcases verdict_spec hr order with ⟨hle, _⟩ | ⟨p, point, _, _, _, _, _, _, hverdict⟩
    · omega
    · rw [hverdict]
      exact ⟨_, rfl⟩

/-- **A rehearsal in any order of steps is one claim after the other and then the split.**  It
returns one thing, whatever the schedule; it succeeds exactly if the settings are valid and the
cursor of its order is before the end of the span; and then the split, the offsets emitted and the
final span are those of a tracker that nobody else uses.  They divide the span, and the examination
accepts them if there is a list of what was emitted. -/
theorem outcome_spec (r : Rehearsal) (order : Interleaving) :
    (∀ result, r.Returns order result ↔ result = r.run order) ∧
    ((∃ o, r.run order = .ok o) ↔ r.fraction.InUnit ∧ r.span.start ≤ r.block ∧
      r.block ≤ r.span.stop ∧ r.cursorAt order < r.span.stop.toInt) ∧
    ∀ o, r.run order = .ok o →
      o.interleaving = order ∧ o.whole = r.span ∧ o.block = r.block ∧
        o.expectedCursor.toInt = r.cursorAt order ∧
        ((Tracker.claimed r.span o.expectedCursor).split r.fraction).1 = .ok o.split ∧
        o.emitted = Offset.run r.span.start o.split.primary.stop ∧
        o.final = ⟨r.span.start, o.split.primary.stop⟩ ∧
        o.Divides o.expectedCursor o.split.primary.stop ∧
        (o.examine = .ok (.ok ()) ↔ o.emitted.length ≤ Offset.room) := by
  refine ⟨fun _ => returns_iff, exists_ok_iff, ?_⟩
  intro o h
  obtain ⟨horder, hwhole, hblock, hcursor, _, hsplit, hdivides⟩ := run_division h
  rw [← hwhole] at hsplit ⊢
  exact ⟨horder, rfl, hblock, hcursor, hsplit, hdivides.emitted, hdivides.final, hdivides,
    examine_of_run h⟩

/-- Four offsets, of which the first two are claimed before the split. -/
theorem outcome_spec_four :
    let r : Rehearsal := ⟨⟨0, 4⟩, .zero, 1, 100⟩
    (r.fraction.InUnit ∧ r.span.start ≤ r.block ∧ r.block ≤ r.span.stop ∧
      r.cursorAt .claimBlocksSplit < r.span.stop.toInt) ∧
    ∃ o, r.run .claimBlocksSplit = .ok o ∧ o.expectedCursor.toInt = 2 ∧
      ((Tracker.claimed r.span o.expectedCursor).split r.fraction).1 = .ok o.split ∧
      o.emitted = Offset.run r.span.start o.split.primary.stop ∧ o.examine = .ok (.ok ()) := by
  intro r
  have hsettings : r.fraction.InUnit ∧ r.span.start ≤ r.block ∧ r.block ≤ r.span.stop ∧
      r.cursorAt .claimBlocksSplit < r.span.stop.toInt := by
    decide +kernel
  obtain ⟨_, hsucceeds, hwith⟩ := outcome_spec r .claimBlocksSplit
  obtain ⟨o, h⟩ := hsucceeds.2 hsettings
  obtain ⟨_, hwhole, _, hcursor, hsplit, hemitted, _, hdivides, hexamine⟩ := hwith o h
  refine ⟨hsettings, o, h, hcursor, hsplit, hemitted, hexamine.2 ?_⟩
  have hstop : o.split.primary.stop.toInt ≤ 4 := by
    have hle := hdivides.le_stop
    rw [hwhole] at hle
    exact Offset.le_iff.1 hle
  have hroom : Offset.room = 1152921504606846975 := by decide
  have hstart : r.span.start.toInt = 0 := rfl
  rw [hemitted, Offset.length_run, hstart, hroom]
  omega

end Rehearsal

end Splittable
