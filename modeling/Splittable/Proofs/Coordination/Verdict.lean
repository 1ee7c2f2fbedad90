import Splittable.Coordination.Rehearsal
import Splittable.Proofs.Tracker.Counting

/-!
# What a rehearsal comes to

The order of a rehearsal fixes the tracker that the split finds: with nothing claimed, with the
claims before the block position, or with that one as well.  What the split does there, and with it
the whole outcome, does not depend on anything else.

* `Rehearsal.seen`         : the tracker that the split finds;
* `Rehearsal.verdict_spec` : whether there is anything left to split, and where it is cut;
* `Rehearsal.expected`     : the result of the rehearsal.
-/

namespace Splittable.Rehearsal

/-- What is checked before a rehearsal begins. -/
structure Valid (r : Rehearsal) : Prop where
  fraction : r.fraction.InUnit
  start_le : r.span.start ≤ r.block
  le_stop : r.block ≤ r.span.stop

/-- The tracker that the split finds. -/
def seen (r : Rehearsal) : Interleaving → Tracker
  | .nonBlocking => .new r.span
  | .claimBlocksSplit => ((Tracker.reached r.span r.block).claim r.block).2
  | .splitBlocksClaim => .reached r.span r.block

/-- The offset of the cursor there, one past the last offset if everything is claimed. -/
def cursorAt (r : Rehearsal) : Interleaving → Int
  | .nonBlocking => r.span.start.toInt
  | .claimBlocksSplit => r.block.toInt + 1
  | .splitBlocksClaim => r.block.toInt

/-- The split of that tracker, and the tracker after it. -/
def verdict (r : Rehearsal) (order : Interleaving) : Except Fault Split × Tracker :=
  (r.seen order).split r.fraction

/-- The result of the rehearsal in any order of steps. -/
def expected (r : Rehearsal) (order : Interleaving) : Except RehearsalError RehearsalOutcome :=
  match (r.verdict order).1 with
  | .error fault => .error (.performance order r.span (.splitRefused fault))
  | .ok split =>
    .ok {
      interleaving := order
      whole := r.span
      block := r.block
      emitted := Offset.run r.span.start split.primary.stop
      split := split
      final := ⟨r.span.start, split.primary.stop⟩ }

variable {r : Rehearsal}

/-- **The split finds a tracker that is claimed up to the cursor**, or one that is exhausted. -/
theorem seen_spec (h : r.Valid) (order : Interleaving) :
    (∃ p : Offset, p.toInt = r.cursorAt order ∧ r.span.start ≤ p ∧
      (order ≠ .nonBlocking → r.block ≤ p) ∧ r.seen order = .reached r.span p) ∨
    r.span.stop.toInt ≤ r.cursorAt order ∧ r.seen order = .exhausted r.span := by
  cases order with
  | nonBlocking =>
    exact Or.inl ⟨r.span.start, rfl, Int64.le_refl _, fun hne => absurd rfl hne,
      Tracker.new_eq_reached r.span⟩
  | splitBlocksClaim =>
    exact Or.inl ⟨r.block, rfl, h.start_le, fun _ => Int64.le_refl _, rfl⟩
  | claimBlocksSplit =>
    have hstart := Offset.le_iff.1 h.start_le
    by_cases hlt : r.block < r.span.stop
    · have hnext := Offset.toInt_add_one hlt
      refine Or.inl ⟨r.block + 1, hnext, ?_, fun _ => ?_, ?_⟩
      · rw [Offset.le_iff]
        omega
      · rw [Offset.le_iff]
        omega
      · rw [seen, Tracker.claim_reached r.span h.start_le hlt]
    · have hstop : r.block = r.span.stop := by
        have hle := Offset.le_iff.1 h.le_stop
        rw [Offset.lt_iff] at hlt
        rw [Offset.eq_iff]
        omega
      have hordered : r.span.start ≤ r.span.stop := by
        rw [← hstop]
        exact h.start_le
      refine Or.inr ⟨?_, ?_⟩
      · rw [cursorAt, hstop]
        omega
      · rw [seen, hstop, Tracker.claim_reached_stop r.span hordered]

theorem seen_eq (h : r.Valid) {order : Interleaving} {p : Offset} (hp : p.toInt = r.cursorAt order)
    (hlt : p < r.span.stop) : r.seen order = .reached r.span p := by
  rcases seen_spec h order with ⟨q, hq, _, _, hseen⟩ | ⟨hstop, _⟩
  · rw [hseen, Offset.eq_iff.2 (hp.trans hq.symm)]
  · rw [Offset.lt_iff, hp] at hlt
    omega

/-- **The split is refused exactly if there is nothing left from the cursor on.**  Otherwise it cuts
the span somewhere from the cursor to the end. -/
theorem verdict_spec (h : r.Valid) (order : Interleaving) :
    (r.span.stop.toInt ≤ r.cursorAt order ∧
      ∃ fault, r.verdict order = (.error fault, r.seen order)) ∨
    ∃ p point : Offset, p.toInt = r.cursorAt order ∧ r.span.start ≤ p ∧
      (order ≠ .nonBlocking → r.block ≤ p) ∧ p < r.span.stop ∧ p ≤ point ∧ point ≤ r.span.stop ∧
      r.verdict order =
        (.ok ⟨⟨p, point⟩, ⟨point, r.span.stop⟩⟩, .reached ⟨r.span.start, point⟩ p) := by
  rcases seen_spec h order with ⟨p, hp, hstart, hblock, hseen⟩ | ⟨hstop, hseen⟩
  · rw [verdict, hseen]
    rcases Tracker.split_reached r.span hstart h.fraction with ⟨hle, fault, hsplit⟩ |
      ⟨point, hlt, hlow, hhigh, hsplit⟩
    · rw [← hp, ← Offset.le_iff]
      exact Or.inl ⟨hle, fault, hsplit⟩
    · exact Or.inr ⟨p, point, hp, hstart, hblock, hlt, hlow, hhigh, hsplit⟩
  · obtain ⟨fault, hsplit⟩ := Tracker.split_exhausted r.span
      (Int64.le_trans h.start_le h.le_stop) r.fraction
    rw [verdict, hseen]
    exact Or.inl ⟨hstop, fault, hsplit⟩

/-- The span after the split reaches the block position, unless the split goes first. -/
theorem verdict_span (h : r.Valid) (order : Interleaving) :
    ∃ point, (r.verdict order).2.span = ⟨r.span.start, point⟩ ∧ r.span.start ≤ point ∧
      point ≤ r.span.stop ∧ (order ≠ .nonBlocking → r.block ≤ point) ∧
      ∀ split, (r.verdict order).1 = .ok split → split.primary.stop = point := by
  rcases verdict_spec h order with ⟨_, fault, hverdict⟩ |
    ⟨p, point, _, hstart, hblock, _, hlow, hhigh, hverdict⟩
  · rw [hverdict]
    refine ⟨r.span.stop, ?_, Int64.le_trans h.start_le h.le_stop, Int64.le_refl _,
      fun _ => h.le_stop, nofun⟩
    rcases seen_spec h order with ⟨_, _, _, _, hseen⟩ | ⟨_, hseen⟩ <;> rw [hseen] <;> rfl
  · rw [hverdict]
    refine ⟨point, rfl, Int64.le_trans hstart hlow, hhigh,
      fun hne => Int64.le_trans (hblock hne) hlow, ?_⟩
    intro split hsplit
    cases hsplit
    rfl

end Splittable.Rehearsal
