import Splittable.Proofs.Coordination.Cues

/-!
# Nobody waits for good

A thread that cannot step waits for a token of release, or for the lock under which somebody waits
for one.  The director waits for a thread only when the tokens that this thread needs are put
already, so one of the three can always step.

* `release_of_stuck`   : what a thread waits for when nobody can step;
* `Acting.exists_step` : somebody can step until the performance is over.
-/

namespace Splittable.Performance

variable {r : Rehearsal} {order : Interleaving} {t u v : Thread} {levels : Nat → Nat}
  {p : Performance} {i : Nat} {c : Checkpoint}

/-! ## What the threads wait for -/

theorem Acting.thread_cases (h : Acting r t u levels p) (hv : p.signals.threads[i]? = some v) :
    i = 0 ∧ v = t ∨ i = 1 ∧ v = u := by
  rw [h.threads] at hv
  match i with
  | 0 => exact Or.inl ⟨rfl, (Option.some.inj hv).symm⟩
  | 1 => exact Or.inr ⟨rfl, (Option.some.inj hv).symm⟩
  | i + 2 => simp at hv

theorem Acting.level_of_held (h : Acting r t u levels p) {x : Passage}
    (hi : p.signals.spotOf i = .held c x) : c.side = i ∧ levels i = c.entry + x.rank := by
  obtain ⟨v, hv, hspot⟩ := Signals.exists_of_spotOf (s := p.signals) (j := i) (by rw [hi]; simp)
  rw [hi] at hspot
  rcases h.thread_cases hv with ⟨rfl, rfl⟩ | ⟨rfl, rfl⟩
  · exact h.processes.level_of_held h.suits_processing hspot
  · exact h.divides.level_of_held h.suits_splitting hspot

/-- A thread that waits for the control waits for a release that is ahead. -/
theorem release_of_awaits (h : Acting r t u levels p) (d : Directed r order t u levels p)
    (hawaits : p.signals.AwaitsControl i c) :
    c.side = i ∧ .release c ∈ Cue.ahead p.cues p.skips ∧ levels i = c.entry + 3 := by
  rcases hawaits with ⟨hspot, harrival⟩ | ⟨hspot, hrelease⟩
  · obtain ⟨hside, hlevel⟩ := h.level_of_held hspot
    have hge := ((d.tokens c).arrival.1 harrival).2
    rw [hside, hlevel] at hge
    simp only [Passage.rank] at hge
    omega
  · obtain ⟨hside, hlevel⟩ := h.level_of_held hspot
    refine ⟨hside, ?_, hlevel⟩
    by_contra hnot
    have hput := (d.tokens c).release.2 ⟨hnot, by rw [hside, hlevel]; simp [Passage.rank]⟩
    rw [hrelease] at hput
    cases hput

/-- **What a thread waits for when nobody can step**: a release of its own, or the lock under which
the other thread waits for one. -/
theorem release_of_stuck (h : Acting r t u levels p) (d : Directed r order t u levels p)
    (hstuck : ∀ i, p.signals.stepThread i = none) (hv : p.signals.threads[i]? = some v)
    (hover : v.isOver = false) :
    ∃ c, .release c ∈ Cue.ahead p.cues p.skips ∧ levels c.side = c.entry + 3 ∧
      (c.side = i ∨ c.side ≠ i ∧ c ∈ [Checkpoint.claimLocked, .splitLocked] ∧
        (v.spot = .locking ∨ v.spot = .outside ∧ ∃ next, v.work = .inspect next)) := by
  obtain ⟨_, k, c, hawaits, hwhere⟩ := h.coherent.stuck hstuck hv hover
  obtain ⟨hside, hrelease, hlevel⟩ := release_of_awaits h d hawaits
  refine ⟨c, hrelease, by rw [hside, hlevel], ?_⟩
  by_cases hi : c.side = i
  · exact Or.inl hi
  · refine Or.inr ⟨hi, ?_⟩
    rcases hwhere with ⟨x, hx⟩ | ⟨hunder, hspot⟩
    · exact absurd (h.level_of_held ((Signals.spotOf_eq hv).trans hx)).1 hi
    · refine ⟨?_, hspot⟩
      cases c with
      | claimLocked | splitLocked => simp
      | claimStarted | claimVisible | splitStarted => cases hunder

theorem Acting.level_of_waiting (h : Acting r t u levels p)
    (hspot : t.spot = .locking ∨ t.spot = .outside ∧ ∃ next, t.work = .inspect next) :
    levels 0 ≤ 6 ∨ levels 0 = 16 := by
  have hfree : t.spot.isFree = true := by
    rcases hspot with hspot | ⟨hspot, _⟩ <;> rw [hspot] <;> rfl
  have hlevel := h.processes.level_of_free hfree
  rcases hspot with hspot | ⟨hspot, _⟩ <;>
    simp only [hspot, reduceCtorEq, and_false, and_true, false_or] at hlevel <;> omega

/-! ## What the director waits for -/

variable (hr : r.Valid) (h : Acting r t u levels p) (d : Directed r order t u levels p)
  (hstuck : ∀ i, p.signals.stepThread i = none) {rest : List Cue}

include hr d in
theorem Directed.stop_of_split {split : Split} (hsplit : p.split = some split) :
    p.signals.tracker.span.stop = split.primary.stop := by
  have hjoin : .joinSplitting ∉ p.cues := by
    intro hmem
    rw [d.unjoined hmem] at hsplit
    cases hsplit
  obtain ⟨hlevel, split', hsplit', hverdict⟩ := d.joined hjoin
  rw [hsplit] at hsplit'
  cases hsplit'
  obtain ⟨point, hspan, _, _, _, hprimary⟩ := Rehearsal.verdict_span hr order
  rw [(d.split hlevel).2, hspan, hprimary split hverdict]

include hr h d in
theorem Directed.not_over_of_await (hcues : p.cues = .await c :: rest)
    (hlevel : levels c.side < c.entry + 2) (hv : p.signals.threads[c.side]? = some v) :
    v.isOver = false := by
  have hstage := d.stage
  rw [hcues] at hstage
  obtain ⟨hstarted, hskips, hjoin⟩ := Cue.stage_await_started order c _ hstage rfl
  by_contra hover
  rw [Bool.not_eq_false] at hover
  rcases h.thread_cases hv with ⟨hside, rfl⟩ | ⟨hside, rfl⟩
  · rw [hside] at hstarted hlevel
    have hne : levels 0 ≠ 0 := by
      rw [Ne, ← d.processing, hcues]
      exact hstarted
    have hentry : c.entry ≤ 12 := by cases c <;> decide
    rcases (h.processes.finished hover hne).2.2 with hpassed | hstop
    · omega
    · -- the block position is still in the span, since it is not skipped
      by_cases horder : order = .nonBlocking
      · obtain ⟨_, split, hsplit, _⟩ := d.joined (by rw [hcues]; exact hjoin hside horder)
        rw [d.stop_of_split hr hsplit] at hstop
        simp [skips, hsplit, h.rehearsal, hstop] at hskips
      · exact absurd ((d.span hr).2.2 horder) (Int64.not_le.2 hstop)
  · rw [hside] at hstarted hlevel
    have hentry : c.entry ≤ 7 := by cases c <;> first | decide | cases hside
    rcases h.divides.level_of_over hover with hzero | hdone
    · rw [← d.splitting, hcues] at hzero
      exact hstarted hzero
    · omega

include h d hstuck in
/-- The director who awaits a thread does not wait for good. -/
theorem Directed.not_stuck_await (hcues : p.cues = .await c :: rest)
    (hlevel : levels c.side < c.entry + 2) (hv : p.signals.threads[c.side]? = some v)
    (hover : v.isOver = false) : False := by
  have hstage := d.stage
  obtain ⟨e, hrelease, he, hwhere⟩ := release_of_stuck h d hstuck hv hover
  have hawaited := (d.tokens (Checkpoint.lockedOf c.side)).awaited
  have hunreleased := (d.tokens (Checkpoint.startedOf e.side)).unreleased
  rw [hcues] at hstage hrelease hawaited hunreleased
  rcases hwhere with hside | ⟨hside, hunder, hspot⟩
  · have hle := Cue.stage_await_own order c _ hstage rfl e e.mem_all hside hrelease
    rw [hside] at he
    omega
  · rcases Cue.stage_await_other order c _ hstage rfl e hunder hside hrelease with
      hahead | hlocked | rfl
    · have hle := hunreleased hahead
      rw [e.startedOf_side.1, e.startedOf_side.2, he] at hle
      have hentry : e.entry = 7 := by
        simp only [List.mem_cons, List.not_mem_nil, or_false] at hunder
        rcases hunder with rfl | rfl <;> rfl
      omega
    · have hge := hawaited hlocked
      rw [c.lockedOf_side.1, c.lockedOf_side.2] at hge
      have hentry : c.entry ≤ 12 := by cases c <;> decide
      rcases h.thread_cases hv with ⟨hzero, rfl⟩ | ⟨hone, rfl⟩
      · rw [hzero] at hge hlevel
        have hwaiting := h.level_of_waiting hspot
        omega
      · rw [hone] at hge
        have hwaiting := h.divides.level_of_waiting hspot
        omega
    · rcases h.thread_cases hv with ⟨hzero, rfl⟩ | ⟨hone, rfl⟩
      · cases hzero
      · have hwaiting := h.divides.level_of_waiting hspot
        rw [hone, hwaiting] at hlevel
        simp [Checkpoint.entry] at hlevel

include h d hstuck in
theorem Directed.over_of_joinSplitting (hcues : p.cues = .joinSplitting :: rest) :
    u.isOver = true := by
  have hstage := d.stage
  have hawaited := (d.tokens .splitLocked).awaited
  rw [hcues] at hstage hawaited
  obtain ⟨hskips, _, _, hlocked, hstarted, hreleased⟩ :=
    Cue.stage_joinSplitting order _ hstage rfl
  dsimp only at hskips
  by_contra hover
  rw [Bool.not_eq_true] at hover
  obtain ⟨c, hrelease, hlevel, hside | ⟨hside, _, hspot⟩⟩ :=
    release_of_stuck h d hstuck h.at_splitting hover
  · rw [hcues, hskips] at hrelease
    cases c with
    | splitStarted => exact hstarted hrelease
    | splitLocked => exact hreleased hrelease
    | claimStarted | claimLocked | claimVisible => cases hside
  · rw [hskips] at hawaited
    have hge : 7 + 2 ≤ levels 1 := hawaited hlocked
    have hwaiting := h.divides.level_of_waiting hspot
    omega

include hr h d hstuck in
theorem Directed.over_of_joinProcessing (hcues : p.cues = .joinProcessing :: rest) :
    t.isOver = true := by
  have hstage := d.stage
  rw [hcues] at hstage
  obtain ⟨_, _, _, _, hreleases⟩ := Cue.stage_joinProcessing order _ hstage rfl
  by_contra hover
  rw [Bool.not_eq_true] at hover
  obtain ⟨c, hrelease, hlevel, _⟩ := release_of_stuck h d hstuck h.at_processing hover
  rw [hcues] at hrelease
  obtain ⟨hside, hskips⟩ := hreleases c c.mem_all hrelease
  rw [hside] at hlevel
  -- skipping, the thread never comes to a checkpoint
  cases hsplit : p.split with
  | none => simp [skips, hsplit] at hskips
  | some split =>
    have hstop : p.signals.tracker.span.stop < r.block := by
      rw [d.stop_of_split hr hsplit]
      simpa [skips, hsplit, h.rehearsal] using hskips
    have hearly := h.processes.early h.suits_processing hstop
    omega

/-! ## Somebody can step -/

include h d in
theorem Directed.release_of_head (hcues : p.cues = .release c :: rest) :
    ∃ result, p.signals.release? c = some result := by
  have hstage := d.stage
  have htokens := d.tokens
  rw [hcues] at hstage htokens
  obtain ⟨_, _, hmem, _⟩ := Cue.stage_release_next order c _ hstage rfl
  exact ⟨_, (Signals.release?_iff h.not_closed).2 ⟨htokens.release_free hmem, rfl⟩⟩

include hr h d hstuck in
/-- A thread that is awaited has arrived, if nobody else can step. -/
theorem Directed.await_of_stuck (hcues : p.cues = .await c :: rest) :
    ∃ result, p.signals.await? c = some result := by
  have hstage := d.stage
  have htokens := d.tokens
  rw [hcues] at hstage htokens
  obtain ⟨_, _, hmem, _⟩ := Cue.stage_await_next order c _ hstage rfl
  cases harrival : (p.signals.gates.get c).arrival with
  | true => exact ⟨_, (Signals.await?_iff h.not_closed).2 ⟨harrival, rfl⟩⟩
  | false =>
    have hlevel : levels c.side < c.entry + 2 := by
      by_contra hge
      have harrived := (htokens c).arrival.2 ⟨hmem, Nat.not_lt.1 hge⟩
      rw [harrival] at harrived
      cases harrived
    obtain ⟨v, hv⟩ : ∃ v, p.signals.threads[c.side]? = some v := by
      cases c with
      | claimStarted | claimLocked | claimVisible => exact ⟨t, h.at_processing⟩
      | splitStarted | splitLocked => exact ⟨u, h.at_splitting⟩
    have hover := d.not_over_of_await hr h hcues hlevel hv
    exact (d.not_stuck_await h hstuck hcues hlevel hv hover).elim

/-! ## Somebody can step -/

include hr h d hstuck in
theorem Directed.exists_conducts : ∃ q, p.Conducts q := by
  cases hcues : p.cues with
  | nil => exact ⟨_, .finish hcues⟩
  | cons cue rest =>
    cases cue with
    | startProcessing => exact ⟨_, .startProcessing rest hcues⟩
    | startSplitting => exact ⟨_, .startSplitting rest hcues⟩
    | passClaimIfReached => exact ⟨_, .passClaim rest hcues⟩
    | await c =>
      obtain ⟨result, hawait⟩ := d.await_of_stuck hr h hstuck hcues
      exact ⟨_, .await c rest _ hcues hawait⟩
    | release c =>
      obtain ⟨result, hrelease⟩ := d.release_of_head h hcues
      exact ⟨_, .release c rest _ hcues hrelease⟩
    | joinSplitting =>
      have hover := d.over_of_joinSplitting h hstuck hcues
      exact ⟨_, .joinSplitting rest u hcues ((joined?_iff h.at_splitting).2 ⟨rfl, hover⟩)⟩
    | joinProcessing =>
      have hover := d.over_of_joinProcessing hr h hstuck hcues
      exact ⟨_, .joinProcessing rest t hcues ((joined?_iff h.at_processing).2 ⟨rfl, hover⟩)⟩

include hr h in
/-- **Somebody can step until the performance is over**, and it need not be the time that runs
out. -/
theorem Acting.exists_step (hd : p.ending = none → Directed r order t u levels p)
    (hover : p.isOver = false) : ∃ m, m ≠ .timeout ∧ (p.step m).isSome = true := by
  by_contra hnone
  have hstuck : ∀ i, p.signals.stepThread i = none := by
    intro i
    cases hstep : p.signals.stepThread i with
    | none => rfl
    | some s => exact absurd ⟨.thread i, by simp, by simp [step, hstep]⟩ hnone
  cases hending : p.ending with
  | some ending =>
    have hall : ∀ v ∈ p.signals.threads, v.isOver = true := by
      intro v hv
      obtain ⟨i, hi⟩ := List.mem_iff_getElem?.1 hv
      by_contra hnot
      have hcontrolled := (h.coherent.stuck hstuck hi (by simpa using hnot)).1
      rw [h.controlled, hending] at hcontrolled
      cases hcontrolled
    have htrue : p.isOver = true := by
      simp only [isOver, hending, Option.isSome_some, Bool.true_and, List.all_eq_true]
      exact hall
    rw [htrue] at hover
    cases hover
  | none =>
    obtain ⟨q, hq⟩ := (hd hending).exists_conducts hr h hstuck
    have hstep : p.step .director = some q := stepDirector_iff.2 ⟨hending, hq⟩
    exact hnone ⟨.director, by simp, by simp [hstep]⟩

end Splittable.Performance
