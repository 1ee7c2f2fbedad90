import Splittable.Proofs.Coordination.Processing
import Splittable.Proofs.Coordination.Splitting
import Splittable.Proofs.Coordination.Stages
import Splittable.Proofs.Coordination.Verdict

/-!
# The director and the threads

What holds in every state of a performance has two parts.  One is about the threads alone and holds
to the end, whatever the director does.  The other ties the threads to the cues that are left and
holds as long as the director goes on; it is lost when the time runs out.

* `Acting`             : the threads, whether they are directed or not;
* `Directed`           : the tokens, the split and the cues that are left;
* `Acting.process`, `Acting.divide`     : the steps of the threads;
* `Directed.process`, `Directed.divide` : the same under direction.
-/

namespace Splittable.Performance

/-- Whether the claim checkpoints are skipped: the primary ends before the block position. -/
def skips (p : Performance) : Bool :=
  match p.split with
  | some split => decide (split.primary.stop < p.rehearsal.block)
  | none => false

/-- The processing thread `t` and the splitting thread `u` at their levels. -/
structure Acting (r : Rehearsal) (t u : Thread) (levels : Nat → Nat) (p : Performance) : Prop where
  rehearsal : p.rehearsal = r
  block : p.signals.block = r.block
  kept : p.signals.kept = true
  controlled : p.signals.controlled = p.ending.isNone
  threads : p.signals.threads = [t, u]
  coherent : p.signals.Coherent
  processes : Processes r.span.start r.block p.signals.tracker t (levels 0)
  divides : Divides r.fraction u (levels 1)

/-- What ties the threads to the cues that are left. -/
structure Directed (r : Rehearsal) (order : Interleaving) (t u : Thread) (levels : Nat → Nat)
    (p : Performance) : Prop where
  stage : (p.cues, p.skips) ∈ Cue.stages order
  tokens : Tokens p.signals.gates (Cue.ahead p.cues p.skips) levels
  processing : .startProcessing ∈ p.cues ↔ levels 0 = 0
  splitting : .startSplitting ∈ p.cues ↔ levels 1 = 0
  unsplit : levels 1 ≠ 12 → p.signals.tracker.span = r.span
  split : levels 1 = 12 → u.answers = [.split (r.verdict order).1] ∧
    p.signals.tracker.span = (r.verdict order).2.span
  unjoined : .joinSplitting ∈ p.cues → p.split = none
  joined : .joinSplitting ∉ p.cues → levels 1 = 12 ∧
    ∃ split, p.split = some split ∧ (r.verdict order).1 = .ok split
  ended : .joinProcessing ∉ p.cues → t.isOver = true

variable {r : Rehearsal} {order : Interleaving} {t u : Thread} {levels : Nat → Nat}
  {p : Performance} {s' : Signals}

/-! ## The threads alone -/

namespace Acting

theorem at_processing (h : Acting r t u levels p) : p.signals.threads[0]? = some t := by
  rw [h.threads]
  rfl

theorem at_splitting (h : Acting r t u levels p) : p.signals.threads[1]? = some u := by
  rw [h.threads]
  rfl

theorem suits_processing (h : Acting r t u levels p) : t.spot.Suits r.block t.work := by
  rw [← h.block]
  exact h.coherent.suits 0 t h.at_processing

theorem suits_splitting (h : Acting r t u levels p) : u.spot.Suits r.block u.work := by
  rw [← h.block]
  exact h.coherent.suits 1 u h.at_splitting

theorem process (h : Acting r t u levels p) (hstep : p.signals.stepThread 0 = some s') :
    ∃ t' n, t.isOver = false ∧ Processes.Stepped r.span.start p.signals t (levels 0) s' t' n ∧
      Acting r t' u (Function.update levels 0 n) { p with signals := s' } := by
  obtain ⟨t₀, ht, hmove⟩ := Signals.stepThread_iff.1 hstep
  cases h.at_processing.symm.trans ht
  have hprocesses := h.processes
  rw [← h.block] at hprocesses
  obtain ⟨t', n, hstepped⟩ := hprocesses.step (h.coherent.suits 0 t ht) hmove
  obtain ⟨hblock, hcontrolled, hkept⟩ := hmove.frame
  refine ⟨t', n, hmove.not_over, hstepped, h.rehearsal, hblock.trans h.block, hkept.trans h.kept,
    hcontrolled.trans h.controlled, ?_, h.coherent.step hstep, ?_, ?_⟩
  · show s'.threads = [t', u]
    rw [hstepped.threads, h.threads]
    rfl
  · rw [Function.update_self, ← h.block]
    exact hstepped.processes
  · rw [Function.update_of_ne (by decide)]
    exact h.divides

theorem divide (h : Acting r t u levels p) (hstep : p.signals.stepThread 1 = some s') :
    ∃ u' n, u.isOver = false ∧ Divides.Stepped r.fraction p.signals u (levels 1) s' u' n ∧
      (t.isOver = false →
        t.claimCost s'.tracker.span r.block ≤ t.claimCost p.signals.tracker.span r.block) ∧
      Acting r t u' (Function.update levels 1 n) { p with signals := s' } := by
  obtain ⟨u₀, hu, hmove⟩ := Signals.stepThread_iff.1 hstep
  cases h.at_splitting.symm.trans hu
  obtain ⟨u', n, hstepped⟩ := h.divides.step (h.coherent.suits 1 u hu) hmove
  obtain ⟨hblock, hcontrolled, hkept⟩ := hmove.frame
  have hprocesses : Processes r.span.start r.block s'.tracker t (levels 0) ∧
      (t.isOver = false →
        t.claimCost s'.tracker.span r.block ≤ t.claimCost p.signals.tracker.span r.block) := by
    rcases hstepped.tracker with ⟨_, htracker⟩ | ⟨_, _, htracker, _⟩
    · rw [htracker]
      exact ⟨h.processes, fun _ => Nat.le_refl _⟩
    · rw [htracker]
      exact h.processes.split r.fraction
  refine ⟨u', n, hmove.not_over, hstepped, hprocesses.2, h.rehearsal, hblock.trans h.block,
    hkept.trans h.kept, hcontrolled.trans h.controlled, ?_, h.coherent.step hstep, ?_, ?_⟩
  · show s'.threads = [t, u']
    rw [hstepped.threads, h.threads]
    rfl
  · rw [Function.update_of_ne (by decide)]
    exact hprocesses.1
  · rw [Function.update_self]
    exact hstepped.divides

theorem stepThread_none (h : Acting r t u levels p) {i : Nat} (hi : 2 ≤ i) :
    p.signals.stepThread i = none := by
  unfold Signals.stepThread
  have hnone : p.signals.threads[i]? = none := by
    rw [h.threads]
    exact List.getElem?_eq_none hi
  rw [hnone]

theorem finish (h : Acting r t u levels p) (ending : Except PerformanceError Unit) :
    Acting r t u levels (p.finish ending) :=
  ⟨h.rehearsal, h.block, h.kept, rfl, h.threads, h.coherent.dropControl, h.processes, h.divides⟩

end Acting

/-! ## Steps of the threads under direction -/

/-- A thread that is still to be started has nothing to do, and the tracker is unclaimed before the
processing thread is. -/
theorem Directed.unstarted_processing (d : Directed r order t u levels p)
    (h : Acting r t u levels p) (hmem : .startProcessing ∈ p.cues) :
    levels 0 = 0 ∧ t = .idle ∧
      p.signals.tracker = .new ⟨r.span.start, p.signals.tracker.span.stop⟩ := by
  have hzero := d.processing.1 hmem
  have hprocesses := h.processes
  rw [hzero] at hprocesses
  exact ⟨hzero, hprocesses.idle_of_zero⟩

theorem Directed.unstarted_splitting (d : Directed r order t u levels p)
    (h : Acting r t u levels p) (hmem : .startSplitting ∈ p.cues) : levels 1 = 0 ∧ u = .idle := by
  have hzero := d.splitting.1 hmem
  have hdivides := h.divides
  rw [hzero] at hdivides
  exact ⟨hzero, hdivides.idle_of_zero⟩

/-- The span shrinks by the split only, which leaves the block position in it unless it goes
first. -/
theorem Directed.span (d : Directed r order t u levels p) (hr : r.Valid) :
    r.span.start ≤ p.signals.tracker.span.stop ∧ p.signals.tracker.span.stop ≤ r.span.stop ∧
      (order ≠ .nonBlocking → r.block ≤ p.signals.tracker.span.stop) := by
  by_cases hlevel : levels 1 = 12
  · obtain ⟨point, hspan, hstart, hstop, hblock, _⟩ := Rehearsal.verdict_span hr order
    rw [(d.split hlevel).2, hspan]
    exact ⟨hstart, hstop, hblock⟩
  · rw [d.unsplit hlevel]
    exact ⟨Int64.le_trans hr.start_le hr.le_stop, Int64.le_refl _, fun _ => hr.le_stop⟩

/-- **The split finds the tracker that its order provides for**: by the cues that are left, the
processing thread can be at no other level. -/
theorem seen_of_effect (h : Acting r t u levels p) (d : Directed r order t u levels p)
    (hr : r.Valid) (hlevel : levels 1 = 11) : p.signals.tracker = r.seen order := by
  have hspan := d.unsplit (by omega)
  have hjoin : .joinSplitting ∈ p.cues := by
    by_contra hnot
    have := (d.joined hnot).1
    omega
  have hrelease : .release .splitLocked ∉ Cue.ahead p.cues p.skips := by
    intro hmem
    have hle : levels 1 ≤ 7 + 3 := (d.tokens .splitLocked).unreleased hmem
    omega
  have heffect := Cue.stage_effect order _ d.stage hjoin hrelease
  cases order with
  | nonBlocking =>
    obtain ⟨_, _, htracker⟩ := d.unstarted_processing h heffect
    rw [htracker, hspan]
    rfl
  | claimBlocksSplit =>
    have hge : 12 + 2 ≤ levels 0 := (d.tokens .claimVisible).awaited heffect.1
    have hle : levels 0 ≤ 12 + 3 := (d.tokens .claimVisible).unreleased heffect.2
    have htracker := h.processes.visible h.suits_processing hr.start_le (by omega) (by omega)
    rw [hspan] at htracker
    exact htracker
  | splitBlocksClaim =>
    have hge : 2 + 2 ≤ levels 0 := (d.tokens .claimStarted).awaited heffect.1
    have hle : levels 0 ≤ 7 + 3 := (d.tokens .claimLocked).unreleased heffect.2
    have htracker := h.processes.reached h.suits_processing (by omega) (by omega)
    rw [hspan] at htracker
    exact htracker

theorem Directed.process {t' : Thread} {n : Nat} (h : Acting r t u levels p)
    (d : Directed r order t u levels p) (hending : p.ending = none) (hover : t.isOver = false)
    (hstepped : Processes.Stepped r.span.start p.signals t (levels 0) s' t' n) :
    Directed r order t' u (Function.update levels 0 n) { p with signals := s' } := by
  have hcontrolled : p.signals.controlled = true := by rw [h.controlled, hending]; rfl
  have hother : Function.update levels 0 n 1 = levels 1 := Function.update_of_ne (by decide) _ _
  have hadvance := hstepped.advance
  rw [hcontrolled] at hadvance
  have hpos : levels 0 ≠ 0 := by
    intro hzero
    have hprocesses := h.processes
    rw [hzero] at hprocesses
    rw [hprocesses.idle_of_zero.1] at hover
    cases hover
  refine ⟨d.stage, d.tokens.advance hadvance, ?_, ?_, ?_, ?_, d.unjoined, ?_, ?_⟩
  · rw [Function.update_self]
    have hle := hadvance.le
    exact iff_of_false (fun hmem => hpos (d.processing.1 hmem)) (by omega)
  · rw [hother]
    exact d.splitting
  · rw [hother]
    exact fun hne => hstepped.span.trans (d.unsplit hne)
  · rw [hother]
    exact fun heq => ⟨(d.split heq).1, hstepped.span.trans (d.split heq).2⟩
  · rw [hother]
    exact d.joined
  · intro hnot
    rw [d.ended hnot] at hover
    cases hover

theorem Directed.divide {u' : Thread} {n : Nat} (hr : r.Valid) (h : Acting r t u levels p)
    (d : Directed r order t u levels p) (hending : p.ending = none) (hover : u.isOver = false)
    (hstepped : Divides.Stepped r.fraction p.signals u (levels 1) s' u' n) :
    Directed r order t u' (Function.update levels 1 n) { p with signals := s' } := by
  have hcontrolled : p.signals.controlled = true := by rw [h.controlled, hending]; rfl
  have hother : Function.update levels 1 n 0 = levels 0 := Function.update_of_ne (by decide) _ _
  have hadvance := hstepped.advance
  rw [hcontrolled] at hadvance
  obtain ⟨hpos, hle⟩ := h.divides.level_of_not_over h.suits_splitting hover
  refine ⟨d.stage, d.tokens.advance hadvance, ?_, ?_, ?_, ?_, d.unjoined, ?_, d.ended⟩
  · rw [hother]
    exact d.processing
  · rw [Function.update_self]
    have hrises := hadvance.le
    exact iff_of_false (fun hmem => by have := d.splitting.1 hmem; omega) (by omega)
  · rw [Function.update_self]
    intro hne
    rcases hstepped.tracker with ⟨_, htracker⟩ | ⟨_, heq, _⟩
    · exact (congrArg Tracker.span htracker).trans (d.unsplit (by omega))
    · exact absurd heq hne
  · rw [Function.update_self]
    intro heq
    rcases hstepped.tracker with ⟨hle, _⟩ | ⟨hlevel, _, htracker, hanswers⟩
    · omega
    · have hseen := seen_of_effect h d hr hlevel
      rw [hseen] at htracker hanswers
      exact ⟨hanswers, congrArg Tracker.span htracker⟩
  · intro hnot
    have := (d.joined hnot).1
    omega

end Splittable.Performance
