import Splittable.Proofs.Coordination.Waiting

/-!
# Every order of steps

A performance takes one step after the other, in any order that the movers allow.  The steps that
are left become fewer with each of them, so every run comes to its end, and without a timeout to
the same end as any other.

* `Sound.step`, `Settled.step` : what every step keeps;
* `Sound.cost_lt`              : every step leaves fewer of them;
* `Performance.play`           : a performance by a schedule;
* `Rehearsal.run_expected`     : the rehearsal comes to the expected result;
* `Rehearsal.interleavings`    : no deadlock, no lost token, one thread under the lock, one result.
-/

namespace Splittable

namespace Performance

variable {r : Rehearsal} {order : Interleaving} {t u v : Thread} {levels : Nat → Nat}
  {p q : Performance} {m : Mover} {s' : Signals}

/-! ## What every step keeps -/

theorem not_over_of_step (hstep : p.step m = some q) : p.isOver = false := by
  cases m with
  | director =>
    have hending := (stepDirector_iff.1 hstep).1
    simp [isOver, hending]
  | timeout =>
    cases hending : p.ending with
    | none => simp [isOver, hending]
    | some ending => simp [step, stepTimeout, hending] at hstep
  | thread i =>
    obtain ⟨s', hs, _⟩ := Option.map_eq_some_iff.1 hstep
    obtain ⟨v, hv, hmove⟩ := Signals.stepThread_iff.1 hs
    have hall : p.signals.threads.all (·.isOver) = false := by
      rw [List.all_eq_false]
      exact ⟨v, List.mem_of_getElem? hv, by simp [hmove.not_over]⟩
    simp [isOver, hall]

theorem stepTimeout_eq (hstep : p.stepTimeout = some q) :
    p.ending = none ∧ p.cues ≠ [] ∧ ∃ error, q = p.finish (.error error) := by
  unfold stepTimeout at hstep
  split at hstep
  · rename_i hending hcues
    cases hstep
    exact ⟨hending, by rw [hcues]; simp, _, rfl⟩
  · cases hstep

/-- **Every step keeps the threads at their levels.** -/
theorem Sound.step (hr : r.Valid) (h : Sound r order p) (hstep : p.step m = some q) :
    Sound r order q := by
  obtain ⟨t, u, levels, h, d⟩ := h
  cases m with
  | director =>
    obtain ⟨hending, hq⟩ := stepDirector_iff.1 hstep
    exact ((d hending).conducts hr h hending hq).1
  | timeout =>
    obtain ⟨_, _, error, rfl⟩ := stepTimeout_eq hstep
    exact ⟨t, u, levels, h.finish _, nofun⟩
  | thread i =>
    obtain ⟨s', hs, rfl⟩ := Option.map_eq_some_iff.1 hstep
    match i with
    | 0 =>
      obtain ⟨t', n, hover, hstepped, h'⟩ := h.process hs
      exact ⟨t', u, _, h', fun hending => (d hending).process h hending hover hstepped⟩
    | 1 =>
      obtain ⟨u', n, hover, hstepped, _, h'⟩ := h.divide hs
      exact ⟨t, u', _, h', fun hending => (d hending).divide hr h hending hover hstepped⟩
    | i + 2 =>
      rw [h.stepThread_none (Nat.le_add_left 2 i)] at hs
      cases hs

/-- **Every step but a timeout keeps the result** that a director has who has ended. -/
theorem Settled.step (hr : r.Valid) (h : Sound r order p) (hsettled : Settled r order p)
    (hm : m ≠ .timeout) (hstep : p.step m = some q) : Settled r order q := by
  cases m with
  | director =>
    obtain ⟨t, u, levels, h, d⟩ := h
    obtain ⟨hending, hq⟩ := stepDirector_iff.1 hstep
    exact ((d hending).conducts hr h hending hq).2
  | timeout => exact absurd rfl hm
  | thread i =>
    obtain ⟨s', hs, rfl⟩ := Option.map_eq_some_iff.1 hstep
    intro ending hending
    have hending' : p.ending = some ending := hending
    obtain ⟨hresult, hover⟩ := hsettled ending hending'
    cases ending with
    | error error =>
      refine ⟨?_, nofun⟩
      rw [← hresult]
      simp only [result, hending']
    | ok done =>
      -- after a good end both threads are over, so none of them steps
      obtain ⟨v, hv, hmove⟩ := Signals.stepThread_iff.1 hs
      have hnot := hmove.not_over
      rw [hover rfl v (List.mem_of_getElem? hv)] at hnot
      cases hnot

theorem sound_start (r : Rehearsal) (order : Interleaving) : Sound r order (start r order) := by
  obtain ⟨hstage, hahead, hprocessing, hsplitting, hjoin, hjoin'⟩ := Cue.stage_script order
  refine ⟨.idle, .idle, fun _ => 0, ⟨rfl, rfl, rfl, rfl, rfl, ?_, .idle rfl, .idle⟩, fun _ => ?_⟩
  · apply Signals.coherent_of_outside rfl rfl
    intro v hv
    have hmem : v ∈ [Thread.idle, .idle] := hv
    have hidle : v = .idle := by simpa using hmem
    rw [hidle]
    rfl
  · refine ⟨hstage, ?_, iff_of_true hprocessing rfl, iff_of_true hsplitting rfl, fun _ => rfl,
      nofun, fun _ => rfl, fun hnot => absurd hjoin hnot, fun hnot => absurd hjoin' hnot⟩
    intro c
    obtain ⟨hawait, hrelease⟩ := hahead c c.mem_all
    have hclear : (start r order).signals.gates.get c = .clear := by cases c <;> rfl
    rw [hclear]
    exact ⟨iff_of_false nofun fun hlevel => absurd hlevel.2 (by simp),
      iff_of_false nofun fun hnot => hnot.1 hrelease, fun hnot => absurd hawait hnot,
      fun _ => Nat.zero_le _⟩

/-! ## Every step leaves fewer of them -/

/-- A bound for the steps that a cue leads to, for a span of that length. -/
def cueCost (length : Nat) : Cue → Nat
  | .startProcessing => 4 * length + 20
  | .startSplitting => 12
  | .passClaimIfReached => 7
  | .await _ | .release _ | .joinSplitting | .joinProcessing => 1

/-- A bound for the steps that the threads have left. -/
def threadCost (p : Performance) : Nat :=
  match p.signals.threads with
  | [t, u] =>
    (if t.isOver then 0 else t.claimCost p.signals.tracker.span p.rehearsal.block) + u.splitCost
  | _ => 0

/-- A bound for the steps that are left. -/
def cost (p : Performance) : Nat :=
  p.threadCost + (p.cues.map (cueCost p.rehearsal.span.length)).sum +
    if p.ending.isNone then 1 else 0

theorem Acting.threadCost_eq (h : Acting r t u levels p) : p.threadCost =
    (if t.isOver then 0 else t.claimCost p.signals.tracker.span r.block) + u.splitCost := by
  simp only [threadCost, h.threads, h.rehearsal]

theorem cost_finish (p : Performance) (ending : Except PerformanceError Unit) :
    (p.finish ending).cost = p.threadCost := rfl

theorem cost_cues {cue : Cue} {rest : List Cue} (hending : p.ending = none)
    (hcues : p.cues = cue :: rest) : p.cost = p.threadCost +
      (cueCost p.rehearsal.span.length cue +
        (rest.map (cueCost p.rehearsal.span.length)).sum) + 1 := by
  simp only [cost, hending, hcues, List.map_cons, List.sum_cons, Option.isNone_none, if_true]

theorem cueCost_pos (length : Nat) (cue : Cue) : 0 < cueCost length cue := by
  cases cue <;> simp [cueCost]

theorem cost_lt_of_cues {cue : Cue} {rest : List Cue} (hending : p.ending = none)
    (hcues : p.cues = cue :: rest) (hrest : q.cues = rest) (hr : q.rehearsal = p.rehearsal)
    (hthreads : q.threadCost = p.threadCost) : q.cost < p.cost := by
  have hpos := cueCost_pos p.rehearsal.span.length cue
  rw [cost_cues hending hcues, cost, hrest, hr, hthreads]
  split <;> omega

/-- A count that starts is paid for by its cue. -/
theorem claimCost_start {span : Span} (block : Offset) (h₁ : r.span.start = span.start)
    (h₂ : span.stop ≤ r.span.stop) :
    (Thread.start .count).claimCost span block ≤ 4 * r.span.length + 19 := by
  have hlevel : 0 < (Thread.start .count).claimLevel span block := Processes.level_pos _
  have hstop := Offset.le_iff.1 h₂
  simp only [Thread.claimCost, Thread.share, Thread.start, Work.count, Work.upcoming_inspect,
    Span.length, ← h₁] at hlevel ⊢
  omega

section Director

variable {rest : List Cue} (hr : r.Valid) (h : Acting r t u levels p)
  (d : Directed r order t u levels p) (hending : p.ending = none)

include hr h d hending in
theorem Directed.cost_lt_startProcessing (hcues : p.cues = .startProcessing :: rest) :
    ({ p with cues := rest }.give Performance.processing .count).cost < p.cost := by
  obtain ⟨_, hidle, htracker⟩ :=
    d.unstarted_processing h (by rw [hcues]; exact List.mem_cons_self)
  have hstart : r.span.start = p.signals.tracker.span.start := by
    rw [htracker]
    rfl
  have hcount := claimCost_start r.block hstart (d.span hr).2.1
  have hcost : p.threadCost = u.splitCost := by
    rw [h.threadCost_eq, hidle]
    exact Nat.zero_add _
  have hnext : ({ p with cues := rest }.give Performance.processing .count).threadCost =
      (Thread.start .count).claimCost p.signals.tracker.span r.block + u.splitCost := by
    simp only [threadCost, give, h.threads, h.rehearsal, Performance.processing, List.set]
    rfl
  rw [cost_cues hending hcues, cost, hnext, hcost, h.rehearsal]
  simp only [give, cueCost, hending, Option.isNone_none, if_true]
  omega

include h d hending in
theorem Directed.cost_lt_startSplitting {f : Binary64} (hcues : p.cues = .startSplitting :: rest) :
    ({ p with cues := rest }.give Performance.splitting
      (.split f fun _ => .finish (.ok ()))).cost < p.cost := by
  obtain ⟨_, hidle⟩ := d.unstarted_splitting h (by rw [hcues]; exact List.mem_cons_self)
  have hnext : ({ p with cues := rest }.give Performance.splitting
      (.split f fun _ => .finish (.ok ()))).threadCost = p.threadCost + 11 := by
    rw [h.threadCost_eq, hidle]
    simp only [threadCost, give, h.threads, h.rehearsal, Performance.splitting, List.set]
    rfl
  rw [cost_cues hending hcues, cost, hnext]
  simp only [give, cueCost, hending, Option.isNone_none, if_true]
  omega

include hending in
theorem cost_lt_conclude (hcues : p.cues = .joinSplitting :: rest) (answers : List Answer) :
    ({ p with cues := rest }.conclude answers).cost < p.cost := by
  unfold conclude
  split
  · exact cost_lt_of_cues hending hcues rfl rfl rfl
  · rw [cost_finish, cost_cues hending hcues]
    show p.threadCost < _
    omega
  · exact cost_lt_of_cues hending hcues rfl rfl rfl

include hending in
theorem cost_lt_branch (hcues : p.cues = .passClaimIfReached :: rest) :
    (p.branch rest).cost < p.cost := by
  have hpass : ({ p with cues := Cue.passClaim ++ rest } : Performance).cost < p.cost := by
    rw [cost_cues hending hcues]
    simp only [cost, List.map_append, List.sum_append, hending, Option.isNone_none, if_true]
    show p.threadCost + (6 + _) + 1 < p.threadCost + (7 + _) + 1
    omega
  unfold branch
  split
  · split
    · exact hpass
    · exact cost_lt_of_cues hending hcues rfl rfl rfl
  · exact cost_lt_of_cues hending hcues rfl rfl rfl

include hr h d hending in
/-- **Every step of the director** leaves fewer of them. -/
theorem Directed.cost_lt (hq : p.Conducts q) : q.cost < p.cost := by
  cases hq with
  | finish hcues =>
    rw [cost_finish, cost, hcues, hending]
    simp
  | startProcessing rest hcues => exact d.cost_lt_startProcessing hr h hending hcues
  | startSplitting rest hcues => exact d.cost_lt_startSplitting h hending hcues
  | await c rest result hcues hawait =>
    obtain ⟨_, rfl⟩ := (Signals.await?_iff h.not_closed).1 hawait
    exact cost_lt_of_cues hending hcues rfl rfl rfl
  | release c rest result hcues hrelease =>
    obtain ⟨_, rfl⟩ := (Signals.release?_iff h.not_closed).1 hrelease
    exact cost_lt_of_cues hending hcues rfl rfl rfl
  | joinSplitting rest v hcues => exact cost_lt_conclude hending hcues v.answers
  | passClaim rest hcues => exact cost_lt_branch hending hcues
  | joinProcessing rest v hcues => exact cost_lt_of_cues hending hcues rfl rfl rfl

end Director

/-- **Every step leaves fewer of them.** -/
theorem Sound.cost_lt (hr : r.Valid) (h : Sound r order p) (hstep : p.step m = some q) :
    q.cost < p.cost := by
  obtain ⟨t, u, levels, h, d⟩ := h
  cases m with
  | director =>
    obtain ⟨hending, hq⟩ := stepDirector_iff.1 hstep
    exact (d hending).cost_lt hr h hending hq
  | timeout =>
    obtain ⟨hending, _, error, rfl⟩ := stepTimeout_eq hstep
    rw [cost_finish, cost, hending]
    simp only [Option.isNone_none, if_true]
    omega
  | thread i =>
    obtain ⟨s', hs, rfl⟩ := Option.map_eq_some_iff.1 hstep
    have hthreads : ({ p with signals := s' } : Performance).threadCost < p.threadCost →
        ({ p with signals := s' } : Performance).cost < p.cost := by
      intro hlt
      simp only [cost]
      omega
    apply hthreads
    match i with
    | 0 =>
      obtain ⟨t', n, hover, hstepped, h'⟩ := h.process hs
      have hcost := hstepped.cost
      rw [h.block] at hcost
      rw [h'.threadCost_eq, h.threadCost_eq, hover]
      dsimp only
      split <;> simp <;> omega
    | 1 =>
      obtain ⟨u', n, hover, hstepped, hclaim, h'⟩ := h.divide hs
      have hcost := hstepped.cost
      rw [h'.threadCost_eq, h.threadCost_eq]
      dsimp only
      cases hover' : t.isOver with
      | true => simpa using hcost
      | false =>
        have hle := hclaim hover'
        simp only [Bool.false_eq_true, if_false]
        omega
    | i + 2 =>
      rw [h.stepThread_none (Nat.le_add_left 2 i)] at hs
      cases hs

theorem cost_start (r : Rehearsal) (order : Interleaving) : (start r order).cost ≤ r.steps := by
  cases order <;> simp [cost, start, threadCost, Cue.script, Cue.pass, cueCost, Rehearsal.steps,
    Thread.isOver, Thread.idle, Thread.start, Thread.splitCost] <;> omega

/-! ## Whole runs -/

/-- A performance by a schedule; none if somebody cannot step when it is their turn. -/
def play (p : Performance) (schedule : List Mover) : Option Performance :=
  schedule.foldlM step p

/-- **A run keeps the threads at their levels**, and it is paid for by the steps that were left. -/
theorem Sound.play {schedule : List Mover} (hr : r.Valid) (h : Sound r order p)
    (hplay : p.play schedule = some q) : Sound r order q ∧ schedule.length + q.cost ≤ p.cost := by
  induction schedule generalizing p with
  | nil =>
    cases hplay
    exact ⟨h, by simp⟩
  | cons m schedule ih =>
    obtain ⟨p', hstep, hplay⟩ := Option.bind_eq_some_iff.1 hplay
    obtain ⟨hq, hcost⟩ := ih (h.step hr hstep) hplay
    have hlt := h.cost_lt hr hstep
    refine ⟨hq, ?_⟩
    rw [List.length_cons]
    omega

/-- **A run without a timeout keeps the result** that a director has who has ended. -/
theorem Settled.play {schedule : List Mover} (hr : r.Valid) (h : Sound r order p)
    (hsettled : Settled r order p) (htimeout : .timeout ∉ schedule)
    (hplay : p.play schedule = some q) : Settled r order q := by
  induction schedule generalizing p with
  | nil =>
    cases hplay
    exact hsettled
  | cons m schedule ih =>
    obtain ⟨p', hstep, hplay⟩ := Option.bind_eq_some_iff.1 hplay
    have hm : m ≠ .timeout := fun heq => htimeout (heq ▸ List.mem_cons_self)
    exact ih (h.step hr hstep) (hsettled.step hr h hm hstep)
      (fun hmem => htimeout (List.mem_cons_of_mem _ hmem)) hplay

theorem Settled.result_eq (h : Settled r order p) (hover : p.isOver = true) :
    p.result order = r.expected order := by
  cases hending : p.ending with
  | none => simp [isOver, hending] at hover
  | some ending => exact (h ending hending).1

theorem settled_start (r : Rehearsal) (order : Interleaving) : Settled r order (start r order) :=
  nofun

/-! ## The run of a rehearsal -/

/-- The movers who are asked before the time. -/
def workers : List Mover :=
  [.thread processing, .thread splitting, .director]

theorem movers_eq : movers = workers ++ [.timeout] := rfl

theorem Sound.exists_worker (hr : r.Valid) (h : Sound r order p) (hover : p.isOver = false) :
    ∃ q, workers.findSome? p.step = some q := by
  obtain ⟨t, u, levels, h, d⟩ := h
  obtain ⟨m, hm, hstep⟩ := h.exists_step hr d hover
  refine Option.isSome_iff_exists.1 (List.findSome?_isSome_iff.2 ⟨m, ?_, hstep⟩)
  match m with
  | .director | .thread 0 | .thread 1 => simp [workers, processing, splitting]
  | .timeout => exact absurd rfl hm
  | .thread (i + 2) =>
    have hnone : p.step (.thread (i + 2)) = none := by
      simp [Performance.step, h.stepThread_none (Nat.le_add_left 2 i)]
    rw [hnone] at hstep
    cases hstep

/-- The time is asked last, so it runs out for nobody. -/
theorem Sound.next (hr : r.Valid) (h : Sound r order p) (hnext : movers.findSome? p.step = some q) :
    ∃ m, m ≠ .timeout ∧ p.step m = some q := by
  obtain ⟨_, _, hstep⟩ := List.exists_of_findSome?_eq_some hnext
  obtain ⟨q', hq'⟩ := h.exists_worker hr (not_over_of_step hstep)
  rw [movers_eq, List.findSome?_append, hq'] at hnext
  cases hnext
  obtain ⟨m, hm, hstep⟩ := List.exists_of_findSome?_eq_some hq'
  refine ⟨m, ?_, hstep⟩
  rintro rfl
  exact absurd hm (by decide)

theorem Sound.advance_plays (hr : r.Valid) (fuel : Nat) (h : Sound r order p) :
    ∃ schedule, .timeout ∉ schedule ∧ p.play schedule = some (p.advance fuel) := by
  induction fuel generalizing p with
  | zero => exact ⟨[], List.not_mem_nil, rfl⟩
  | succ fuel ih =>
    rw [Performance.advance]
    cases hnext : movers.findSome? p.step with
    | none => exact ⟨[], List.not_mem_nil, rfl⟩
    | some q =>
      obtain ⟨m, hm, hstep⟩ := h.next hr hnext
      obtain ⟨schedule, htimeout, hplay⟩ := ih (h.step hr hstep)
      refine ⟨m :: schedule, ?_, Option.bind_eq_some_iff.2 ⟨q, hstep, hplay⟩⟩
      intro hmem
      rcases List.mem_cons.1 hmem with heq | hmem
      · exact hm heq.symm
      · exact htimeout hmem

/-- **With enough steps the performance comes to its end.** -/
theorem Sound.advance_over (hr : r.Valid) (fuel : Nat) (h : Sound r order p)
    (hfuel : p.cost ≤ fuel) : (p.advance fuel).isOver = true := by
  induction fuel generalizing p with
  | zero =>
    show p.isOver = true
    by_contra hnot
    obtain ⟨q, hq⟩ := h.exists_worker hr (by simpa using hnot)
    obtain ⟨m, _, hstep⟩ := List.exists_of_findSome?_eq_some hq
    have hlt := h.cost_lt hr hstep
    omega
  | succ fuel ih =>
    rw [Performance.advance]
    cases hnext : movers.findSome? p.step with
    | none =>
      show p.isOver = true
      by_contra hnot
      obtain ⟨q, hq⟩ := h.exists_worker hr (by simpa using hnot)
      rw [movers_eq, List.findSome?_append, hq] at hnext
      cases hnext
    | some q =>
      obtain ⟨m, _, hstep⟩ := h.next hr hnext
      have hlt := h.cost_lt hr hstep
      exact ih (h.step hr hstep) (by omega)

/-- **A complete run without a timeout comes to the expected result.** -/
theorem result_of_play {schedule : List Mover} (hr : r.Valid) (htimeout : .timeout ∉ schedule)
    (hplay : (start r order).play schedule = some p) (hover : p.isOver = true) :
    p.result order = r.expected order :=
  ((settled_start r order).play hr (sound_start r order) htimeout hplay).result_eq hover

end Performance

namespace Rehearsal

open Performance

variable {r : Rehearsal}

theorem Valid.not_outside (hr : r.Valid) :
    ¬ (r.block < r.span.start ∨ r.span.stop < r.block) := by
  rintro (hlt | hlt)
  · exact Int64.not_le.2 hlt hr.start_le
  · exact Int64.not_le.2 hlt hr.le_stop

/-- **The rehearsal is one of the complete runs**, without a timeout. -/
theorem exists_play (hr : r.Valid) (order : Interleaving) :
    ∃ schedule p, .timeout ∉ schedule ∧ (Performance.start r order).play schedule = some p ∧
      p.isOver = true ∧ r.run order = p.result order := by
  have hsound := sound_start r order
  obtain ⟨schedule, htimeout, hplay⟩ := hsound.advance_plays hr r.steps
  refine ⟨schedule, _, htimeout, hplay, hsound.advance_over hr _ (cost_start r order), ?_⟩
  rw [run, if_neg (not_not.2 hr.fraction), if_neg hr.not_outside]

theorem run_expected (hr : r.Valid) (order : Interleaving) : r.run order = r.expected order := by
  obtain ⟨schedule, p, htimeout, hplay, hover, hrun⟩ := exists_play hr order
  rw [hrun, result_of_play hr htimeout hplay hover]

/-- **Whatever the order of steps**, whether the time runs out on the way or not: until the end
somebody can step without the time running out; a token of release finds room; at most one thread
is under the lock; the steps come to an end, at which the director and both threads are at theirs;
and if the time did not run out, the result there is the one of the rehearsal. -/
theorem interleavings (hr : r.Valid) (order : Interleaving) (schedule : List Mover)
    (p : Performance) (hplay : (Performance.start r order).play schedule = some p) :
    (p.isOver = false → ∃ m, m ≠ .timeout ∧ (p.step m).isSome = true) ∧
    (∀ c rest, p.ending = none → p.cues = .release c :: rest →
      (p.signals.gates.get c).release = false) ∧
    (∀ i j, (p.signals.spotOf i).UnderLock → (p.signals.spotOf j).UnderLock → i = j) ∧
    schedule.length ≤ r.steps ∧
    ((∀ m, p.step m = none) → p.ending.isSome = true ∧ p.signals.threads.length = 2 ∧
      ∀ t ∈ p.signals.threads, t.isOver = true) ∧
    (.timeout ∉ schedule → p.isOver = true → p.result order = r.run order) := by
  obtain ⟨hsound, hcost⟩ := (sound_start r order).play hr hplay
  have hsteps := cost_start r order
  obtain ⟨t, u, levels, h, d⟩ := hsound
  have hmoves := h.exists_step hr d
  refine ⟨hmoves, ?_, fun _ _ => h.coherent.unique, by omega, ?_, ?_⟩
  · intro c rest hending hcues
    obtain ⟨result, hrelease⟩ := (d hending).release_of_head h hcues
    exact ((Signals.release?_iff h.not_closed).1 hrelease).1
  · intro hstuck
    have hover : p.isOver = true := by
      by_contra hnot
      obtain ⟨m, _, hstep⟩ := hmoves (by simpa using hnot)
      rw [hstuck m] at hstep
      cases hstep
    obtain ⟨hending, hthreads⟩ := Bool.and_eq_true_iff.1 hover
    exact ⟨hending, congrArg List.length h.threads, List.all_eq_true.1 hthreads⟩
  · intro htimeout hover
    rw [run_expected hr]
    exact result_of_play hr htimeout hplay hover

/-- A split at the start of two offsets, with a run to the end that waits for the splitting thread
at its checkpoints. -/
theorem interleavings_two :
    let r : Rehearsal := ⟨⟨0, 2⟩, .zero, 1, 100⟩
    let schedule : List Mover :=
      [.director, .thread 1, .thread 1, .thread 1, .thread 1, .director, .director, .thread 1,
        .thread 1, .thread 1, .thread 1, .thread 1, .director, .director, .thread 1, .thread 1,
        .director, .director, .thread 0, .thread 0, .thread 0, .thread 0, .director, .director,
        .director]
    r.Valid ∧ ∃ p, (Performance.start r .nonBlocking).play schedule = some p ∧
      (∀ i j, (p.signals.spotOf i).UnderLock → (p.signals.spotOf j).UnderLock → i = j) ∧
      p.result .nonBlocking = r.run .nonBlocking := by
  intro r schedule
  have hr : r.Valid := ⟨by decide +kernel, by decide, by decide⟩
  have hover : ((Performance.start r .nonBlocking).play schedule).any (·.isOver) = true := by
    decide +kernel
  obtain ⟨p, hplay, hover⟩ := (Option.any_eq_true _ _).1 hover
  have hall := interleavings hr .nonBlocking schedule p hplay
  exact ⟨hr, p, hplay, hall.2.2.1, hall.2.2.2.2.2 (by decide) hover⟩

end Rehearsal

end Splittable
