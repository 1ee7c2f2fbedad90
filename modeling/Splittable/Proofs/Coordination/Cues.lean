import Splittable.Proofs.Coordination.Direction

/-!
# The steps of the director

Each cue that can come next leads from one directed state to another, or to the end of the director
with the expected result.

* `Sound`             : what holds in every state of a performance;
* `Settled`           : a director who has ended has the expected result;
* `Directed.conducts` : the steps of the director.
-/

namespace Splittable.Performance

variable {r : Rehearsal} {order : Interleaving} {t u : Thread} {levels : Nat → Nat}
  {p q : Performance} {cue : Cue} {rest : List Cue}

/-! ## Steps of the director -/

/-- The director when the splitting thread was joined with these answers. -/
def conclude (p : Performance) (answers : List Answer) : Performance :=
  match answers.getLast? with
  | some (.split (.ok split)) => { p with split := some split }
  | some (.split (.error fault)) => p.finish (.error (.splitRefused fault))
  | _ => p

/-- The director at the branch, with the rest of the cues. -/
def branch (p : Performance) (rest : List Cue) : Performance :=
  match p.split with
  | some split =>
    if p.rehearsal.block ≤ split.primary.stop then { p with cues := Cue.passClaim ++ rest }
    else { p with cues := rest }
  | none => { p with cues := rest }

/-- The steps of a director who has not ended, one case for each cue. -/
inductive Conducts (p : Performance) : Performance → Prop where
  | finish : p.cues = [] → Conducts p (p.finish (.ok ()))
  | startProcessing (rest : List Cue) : p.cues = .startProcessing :: rest →
      Conducts p ({ p with cues := rest }.give processing .count)
  | startSplitting (rest : List Cue) : p.cues = .startSplitting :: rest →
      Conducts p ({ p with cues := rest }.give splitting
        (.split p.rehearsal.fraction fun _ => .finish (.ok ())))
  | await (c : Checkpoint) (rest : List Cue) (result : Except ControlError Signals) :
      p.cues = .await c :: rest → p.signals.await? c = some result →
      Conducts p ({ p with cues := rest }.follow result)
  | release (c : Checkpoint) (rest : List Cue) (result : Except ControlError Signals) :
      p.cues = .release c :: rest → p.signals.release? c = some result →
      Conducts p ({ p with cues := rest }.follow result)
  | joinSplitting (rest : List Cue) (t : Thread) : p.cues = .joinSplitting :: rest →
      p.joined? splitting = some t → Conducts p ({ p with cues := rest }.conclude t.answers)
  | passClaim (rest : List Cue) : p.cues = .passClaimIfReached :: rest →
      Conducts p (p.branch rest)
  | joinProcessing (rest : List Cue) (t : Thread) : p.cues = .joinProcessing :: rest →
      p.joined? processing = some t → Conducts p { p with cues := rest }

theorem stepDirector_iff : p.stepDirector = some q ↔ p.ending = none ∧ p.Conducts q := by
  obtain ⟨r, signals, cues, split, ending⟩ := p
  constructor
  · intro h
    cases ending with
    | some ending => cases h
    | none =>
      refine ⟨rfl, ?_⟩
      cases cues with
      | nil =>
        cases h
        exact .finish rfl
      | cons cue rest =>
        cases cue with
        | startProcessing =>
          cases h
          exact .startProcessing rest rfl
        | startSplitting =>
          cases h
          exact .startSplitting rest rfl
        | await c =>
          obtain ⟨result, hresult, rfl⟩ := Option.map_eq_some_iff.1 h
          exact .await c rest result rfl hresult
        | release c =>
          obtain ⟨result, hresult, rfl⟩ := Option.map_eq_some_iff.1 h
          exact .release c rest result rfl hresult
        | joinSplitting =>
          obtain ⟨t, ht, rfl⟩ := Option.map_eq_some_iff.1 h
          exact .joinSplitting rest t rfl ht
        | passClaimIfReached =>
          have hbranch :
              branch ⟨r, signals, .passClaimIfReached :: rest, split, none⟩ rest = q := by
            cases split with
            | none => exact Option.some.inj h
            | some split =>
              simp only [stepDirector] at h
              unfold branch
              dsimp only
              split at h <;> simp_all
          rw [← hbranch]
          exact .passClaim rest rfl
        | joinProcessing =>
          obtain ⟨t, ht, rfl⟩ := Option.map_eq_some_iff.1 h
          exact .joinProcessing rest t rfl ht
  · rintro ⟨hending, h⟩
    cases hending
    cases h with
    | finish hc | startProcessing _ hc | startSplitting _ hc => cases hc; rfl
    | await c rest result hc hresult | release c rest result hc hresult =>
      cases hc
      exact Option.map_eq_some_iff.2 ⟨result, hresult, rfl⟩
    | joinSplitting rest t hc ht | joinProcessing rest t hc ht =>
      cases hc
      exact Option.map_eq_some_iff.2 ⟨t, ht, rfl⟩
    | passClaim rest hc =>
      cases hc
      cases split with
      | none => rfl
      | some split =>
        simp only [stepDirector, branch]
        split <;> rfl

/-- A director who has ended has the expected result, and a good one only after both threads. -/
def Settled (r : Rehearsal) (order : Interleaving) (p : Performance) : Prop :=
  ∀ ending, p.ending = some ending → p.result order = r.expected order ∧
    (ending = .ok () → ∀ t ∈ p.signals.threads, t.isOver = true)

/-- What holds in every state: both threads are at their levels, and directed until the director
ends. -/
def Sound (r : Rehearsal) (order : Interleaving) (p : Performance) : Prop :=
  ∃ t u levels, Acting r t u levels p ∧ (p.ending = none → Directed r order t u levels p)

/-- What a step of the director leads to. -/
def Leads (r : Rehearsal) (order : Interleaving) (q : Performance) : Prop :=
  Sound r order q ∧ Settled r order q

theorem Directed.leads (h : Acting r t u levels q) (hending : q.ending = none)
    (d : Directed r order t u levels q) : Leads r order q := by
  refine ⟨⟨t, u, levels, h, fun _ => d⟩, ?_⟩
  intro ending hsome
  rw [hending] at hsome
  cases hsome

/-! ## Cues that leave the threads alone -/

/-- The cues that start and join the threads. -/
def threadCues : List Cue :=
  [.startProcessing, .startSplitting, .joinSplitting, .joinProcessing]

theorem mem_rest_iff (h : cue ∉ threadCues) :
    ∀ c ∈ threadCues, (c ∈ rest ↔ c ∈ cue :: rest) := by
  intro c hc
  rw [List.mem_cons]
  constructor
  · exact Or.inr
  · rintro (rfl | hmem)
    · exact absurd hc h
    · exact hmem

theorem mem_passClaim_iff :
    ∀ c ∈ threadCues, (c ∈ Cue.passClaim ++ rest ↔ c ∈ Cue.passClaimIfReached :: rest) := by
  intro c hc
  rw [List.mem_append, ← mem_rest_iff (by decide) c hc]
  have hnot : c ∉ Cue.passClaim := by
    intro hmem
    simp only [threadCues, List.mem_cons, List.not_mem_nil, or_false] at hc
    rcases hc with rfl | rfl | rfl | rfl <;> exact absurd hmem (by decide)
  simp [hnot]

/-- Cues are done, and nothing that has to do with starting and joining threads. -/
theorem Directed.replace (d : Directed r order t u levels p) (hsplit : q.split = p.split)
    (htracker : q.signals.tracker = p.signals.tracker)
    (hstage : (q.cues, q.skips) ∈ Cue.stages order)
    (htokens : Tokens q.signals.gates (Cue.ahead q.cues q.skips) levels)
    (hcues : ∀ c ∈ threadCues, (c ∈ q.cues ↔ c ∈ p.cues)) : Directed r order t u levels q := by
  refine ⟨hstage, htokens, ?_, ?_, ?_, ?_, ?_, ?_, ?_⟩
  · rw [hcues _ (by decide)]
    exact d.processing
  · rw [hcues _ (by decide)]
    exact d.splitting
  · rw [htracker]
    exact d.unsplit
  · rw [htracker]
    exact d.split
  · rw [hcues _ (by decide), hsplit]
    exact d.unjoined
  · rw [hcues _ (by decide), hsplit]
    exact d.joined
  · rw [hcues _ (by decide)]
    exact d.ended

section Step

variable (h : Acting r t u levels p) (d : Directed r order t u levels p)
  (hending : p.ending = none) (hcues : p.cues = cue :: rest)

theorem Acting.token (h : Acting r t u levels p) {c : Checkpoint} {g : Gate}
    (harriving : g.arriving = (p.signals.gates.get c).arriving)
    (hleaving : g.leaving = (p.signals.gates.get c).leaving) :
    Acting r t u levels
      { p with cues := rest, signals := { p.signals with gates := p.signals.gates.set c g } } :=
  ⟨h.rehearsal, h.block, h.kept, h.controlled, h.threads, h.coherent.token harriving hleaving,
    h.processes, h.divides⟩

theorem Acting.not_closed (h : Acting r t u levels p) : p.signals.closed = false := by
  simp [Signals.closed, h.kept]

include h d hending in
theorem Directed.await {c : Checkpoint} (hcues : p.cues = .await c :: rest)
    {result : Except ControlError Signals} (hawait : p.signals.await? c = some result) :
    Leads r order ({ p with cues := rest }.follow result) := by
  have hstage := d.stage
  rw [hcues] at hstage
  obtain ⟨hnext, hnot, _, hothers, hreleases⟩ :=
    Cue.stage_await_next order c _ hstage rfl
  obtain ⟨harrival, rfl⟩ := (Signals.await?_iff h.not_closed).1 hawait
  refine Directed.leads (h.token rfl rfl) hending (d.replace rfl rfl hnext ?_ ?_)
  · have htokens := d.tokens
    rw [hcues] at htokens
    exact htokens.await harrival hnot hothers hreleases
  · rw [hcues]
    exact mem_rest_iff (by simp [threadCues])

include h d hending in
theorem Directed.release {c : Checkpoint} (hcues : p.cues = .release c :: rest)
    {result : Except ControlError Signals} (hrelease : p.signals.release? c = some result) :
    Leads r order ({ p with cues := rest }.follow result) := by
  have hstage := d.stage
  rw [hcues] at hstage
  obtain ⟨hnext, hnot, hmem, hawaits, hothers⟩ := Cue.stage_release_next order c _ hstage rfl
  obtain ⟨_, rfl⟩ := (Signals.release?_iff h.not_closed).1 hrelease
  refine Directed.leads (h.token rfl rfl) hending (d.replace rfl rfl hnext ?_ ?_)
  · have htokens := d.tokens
    rw [hcues] at htokens
    exact htokens.release hmem hnot hawaits hothers
  · rw [hcues]
    exact mem_rest_iff (by simp [threadCues])

theorem Acting.joined {split : Option Split} (h : Acting r t u levels p) :
    Acting r t u levels { p with cues := rest, split := split } :=
  ⟨h.rehearsal, h.block, h.kept, h.controlled, h.threads, h.coherent, h.processes, h.divides⟩

theorem Acting.cues (h : Acting r t u levels p) : Acting r t u levels { p with cues := rest } :=
  h.joined

include h d hending in
theorem Directed.branch (hcues : p.cues = .passClaimIfReached :: rest) :
    Leads r order (p.branch rest) := by
  have hstage := d.stage
  have htokens := d.tokens
  rw [hcues] at hstage htokens
  obtain ⟨hjoin, hreached, hskipped, hstart, hstart', hover⟩ :=
    Cue.stage_passClaim order _ hstage rfl
  dsimp only [List.tail_cons] at hreached hskipped hover
  obtain ⟨_, split, hsplit, _⟩ := d.joined (by rw [hcues]; exact hjoin)
  have hbranch : p.branch rest = if p.rehearsal.block ≤ split.primary.stop then
      { p with cues := Cue.passClaim ++ rest } else { p with cues := rest } := by
    rw [Performance.branch, hsplit]
  rw [hbranch]
  by_cases hblock : p.rehearsal.block ≤ split.primary.stop
  · rw [if_pos hblock]
    have hskips : p.skips = false := by simp [skips, hsplit, hblock]
    obtain ⟨hnext, hagree⟩ := hreached hskips
    refine Directed.leads h.cues hending (d.replace rfl rfl hnext (htokens.of_agree hagree) ?_)
    rw [hcues]
    exact mem_passClaim_iff
  · rw [if_neg hblock]
    have hskips : p.skips = true := by simp [skips, hsplit, Int64.not_le.1 hblock]
    obtain ⟨hnext, hagree⟩ := hskipped hskips
    refine Directed.leads h.cues hending (d.replace rfl rfl hnext (htokens.of_agree hagree) ?_)
    rw [hcues]
    exact mem_rest_iff (by decide)

/-! ## Cues that start a thread -/

include h d hending in
theorem Directed.startSplitting (hcues : p.cues = .startSplitting :: rest) :
    Leads r order ({ p with cues := rest }.give Performance.splitting
      (.split r.fraction fun _ => .finish (.ok ()))) := by
  have hstage := d.stage
  have htokens := d.tokens
  rw [hcues] at hstage htokens
  obtain ⟨hnext, hnot, hjoin, hagree⟩ := Cue.stage_startSplitting order _ hstage rfl
  dsimp only [List.tail_cons] at hnot hjoin
  obtain ⟨hzero, hidle⟩ := d.unstarted_splitting h (by rw [hcues]; exact List.mem_cons_self)
  have hother : Function.update levels 1 1 0 = levels 0 := Function.update_of_ne (by decide) _ _
  have hself : Function.update levels 1 1 1 = 1 := Function.update_self _ _ _
  refine Directed.leads (?_ : Acting r t (.start (.split r.fraction fun _ => .finish (.ok ())))
    (Function.update levels 1 1) _) hending ?_
  · refine ⟨h.rehearsal, h.block, h.kept, h.controlled, ?_, ?_, ?_, ?_⟩
    · show p.signals.threads.set 1 _ = _
      rw [h.threads]
      rfl
    · show (p.signals.put 1 (.start _)).Coherent
      apply h.coherent.aside h.at_splitting <;>
        simp [hidle, Thread.idle, Thread.start, Spot.Suits, Spot.UnderLock]
    · rw [hother]
      exact h.processes
    · rw [hself]
      exact .calling .outside (by simp)
  · have hadvance : Advance true 1 p.signals.gates (levels 1) p.signals.gates 1 :=
      .quiet (Or.inr ⟨by omega, Or.inl hzero⟩)
    refine ⟨hnext, (htokens.of_agree hagree).advance hadvance, ?_, ?_, ?_, ?_, ?_, ?_, ?_⟩
    · rw [hother, ← d.processing, hcues]
      simp [give]
    · rw [hself]
      exact iff_of_false hnot (by decide)
    · exact fun _ => d.unsplit (by omega)
    · rw [hself]
      exact fun heq => by cases heq
    · exact fun _ => d.unjoined (by rw [hcues]; exact List.mem_cons_of_mem _ hjoin)
    · exact fun hnot => absurd hjoin hnot
    · intro hover
      apply d.ended
      rw [hcues]
      simpa [give] using hover

include h d hending in
theorem Directed.startProcessing (hr : r.Valid) (hcues : p.cues = .startProcessing :: rest) :
    Leads r order ({ p with cues := rest }.give Performance.processing .count) := by
  have hstage := d.stage
  have htokens := d.tokens
  rw [hcues] at hstage htokens
  obtain ⟨hnext, hnot, hjoin, hagree⟩ := Cue.stage_startProcessing order _ hstage rfl
  dsimp only [List.tail_cons] at hnot hjoin
  obtain ⟨hzero, hidle, htracker⟩ :=
    d.unstarted_processing h (by rw [hcues]; exact List.mem_cons_self)
  have hother : Function.update levels 0 1 1 = levels 1 := Function.update_of_ne (by decide) _ _
  have hself : Function.update levels 0 1 0 = 1 := Function.update_self _ _ _
  refine Directed.leads (?_ : Acting r (.start .count) u (Function.update levels 0 1) _) hending ?_
  · refine ⟨h.rehearsal, h.block, h.kept, h.controlled, ?_, ?_, ?_, ?_⟩
    · show p.signals.threads.set 0 _ = _
      rw [h.threads]
      rfl
    · show (p.signals.put 0 (.start _)).Coherent
      apply h.coherent.aside h.at_processing <;>
        simp [hidle, Thread.idle, Thread.start, Spot.Suits, Spot.UnderLock]
    · rw [hself]
      exact Processes.begin hr.start_le htracker (d.span hr).1
    · rw [hother]
      exact h.divides
  · have hadvance : Advance true 0 p.signals.gates (levels 0) p.signals.gates 1 :=
      .quiet (Or.inr ⟨by omega, Or.inl hzero⟩)
    refine ⟨hnext, (htokens.of_agree hagree).advance hadvance, ?_, ?_, ?_, ?_, ?_, ?_, ?_⟩
    · rw [hself]
      exact iff_of_false hnot (by decide)
    · rw [hother, ← d.splitting, hcues]
      simp [give]
    · rw [hother]
      exact d.unsplit
    · rw [hother]
      exact d.split
    · intro hmem
      exact d.unjoined (by rw [hcues]; exact List.mem_cons_of_mem _ hmem)
    · rw [hother]
      intro hnot
      apply d.joined
      rw [hcues]
      simpa [give] using hnot
    · exact fun hnot => absurd hjoin hnot

/-! ## Cues that join a thread -/

include h d hending in
theorem Directed.joinProcessing (hcues : p.cues = .joinProcessing :: rest)
    (hover : t.isOver = true) : Leads r order { p with cues := rest } := by
  have hstage := d.stage
  have htokens := d.tokens
  rw [hcues] at hstage htokens
  obtain ⟨hnil, hnext, hstart, hagree, _⟩ := Cue.stage_joinProcessing order _ hstage rfl
  refine Directed.leads h.cues hending
    ⟨hnext, htokens.of_agree hagree, ?_, ?_, d.unsplit, d.split, ?_, ?_, fun _ => hover⟩
  · rw [← d.processing, hcues]
    simp
  · rw [← d.splitting, hcues]
    simp
  · intro hmem
    exact d.unjoined (by rw [hcues]; exact List.mem_cons_of_mem _ hmem)
  · intro hnot
    apply d.joined
    rw [hcues]
    simpa using hnot

include h d hending in
theorem Directed.joinSplitting (hr : r.Valid) (hcues : p.cues = .joinSplitting :: rest)
    (hover : u.isOver = true) :
    Leads r order ({ p with cues := rest }.conclude u.answers) := by
  have hstage := d.stage
  have htokens := d.tokens
  rw [hcues] at hstage htokens
  obtain ⟨hskips, hnot, hstart, _, _, _⟩ := Cue.stage_joinSplitting order _ hstage rfl
  have hlevel : levels 1 = 12 := by
    refine (h.divides.level_of_over hover).resolve_left fun hzero => hstart ?_
    rw [← hcues]
    exact d.splitting.2 hzero
  obtain ⟨hanswers, hspan⟩ := d.split hlevel
  simp only [conclude, hanswers, List.getLast?_singleton]
  cases hverdict : (r.verdict order).1 with
  | error fault =>
    refine ⟨⟨t, u, levels, h.cues.finish _, nofun⟩, ?_⟩
    intro ending hsome
    cases hsome
    refine ⟨?_, nofun⟩
    simp only [result, finish, Rehearsal.expected, hverdict]
    rw [h.rehearsal]
  | ok split =>
    obtain ⟨point, _, _, _, hblock, hprimary⟩ := Rehearsal.verdict_span hr order
    have hfirst : ∀ skips, skips = decide (split.primary.stop < p.rehearsal.block) →
        (skips = true → order = .nonBlocking) := by
      intro skips hskips hlt
      rw [hskips, h.rehearsal, hprimary split hverdict, decide_eq_true_eq] at hlt
      by_contra hne
      exact absurd (hblock hne) (Int64.not_le.2 hlt)
    obtain ⟨hnext, hagree⟩ := Cue.stage_joinSplitting_next order _ hstage rfl _ (hfirst _ rfl)
    dsimp only at hskips
    rw [hskips] at htokens
    refine Directed.leads h.joined hending
      ⟨hnext, htokens.of_agree hagree, ?_, ?_, d.unsplit, d.split, fun hmem => absurd hmem hnot,
        fun _ => ⟨hlevel, split, rfl, hverdict⟩, ?_⟩
    · rw [← d.processing, hcues]
      simp
    · rw [← d.splitting, hcues]
      simp
    · intro hover
      apply d.ended
      rw [hcues]
      simpa using hover

/-! ## The end of the director -/

include h d in
theorem Directed.finish (hr : r.Valid) (hcues : p.cues = []) :
    Leads r order (p.finish (.ok ())) := by
  refine ⟨⟨t, u, levels, h.finish _, nofun⟩, ?_⟩
  intro ending hsome
  cases hsome
  have hover := d.ended (by rw [hcues]; exact List.not_mem_nil)
  obtain ⟨hlevel, split, hsplit, hverdict⟩ := d.joined (by rw [hcues]; exact List.not_mem_nil)
  obtain ⟨hanswers, hspan⟩ := d.split hlevel
  obtain ⟨point, hpoint, _, _, _, hprimary⟩ := Rehearsal.verdict_span hr order
  have hlevel₀ : levels 0 ≠ 0 := by
    rw [Ne, ← d.processing, hcues]
    exact List.not_mem_nil
  obtain ⟨hemitted, hfault, _⟩ := h.processes.finished hover hlevel₀
  have hstop : p.signals.tracker.span = ⟨r.span.start, split.primary.stop⟩ := by
    rw [hspan, hpoint, hprimary split hverdict]
  rw [hstop] at hemitted
  have hthread : p.signals.threads[Performance.processing]? = some t := h.at_processing
  refine ⟨?_, ?_⟩
  · simp only [result, Performance.finish, Signals.dropControl, hsplit, hthread, hfault,
      Rehearsal.expected, hverdict, hemitted, hstop, h.rehearsal]
  · intro _ v hv
    have hmem : v ∈ [t, u] := h.threads ▸ hv
    rcases List.mem_cons.1 hmem with rfl | hmem
    · exact hover
    · rw [List.mem_singleton.1 hmem]
      by_contra hnot
      have hle := h.divides.level_of_not_over h.suits_splitting (by simpa using hnot)
      omega

end Step

theorem joined?_iff {i : Nat} {v w : Thread} (h : p.signals.threads[i]? = some w) :
    p.joined? i = some v ↔ v = w ∧ w.isOver = true := by
  rw [joined?, h, Option.filter_eq_some_iff, Option.some.injEq]
  constructor
  · rintro ⟨rfl, hover⟩
    exact ⟨rfl, hover⟩
  · rintro ⟨rfl, hover⟩
    exact ⟨rfl, hover⟩

/-- **Every step of the director** keeps the direction or ends with the expected result. -/
theorem Directed.conducts (hr : r.Valid) (h : Acting r t u levels p)
    (d : Directed r order t u levels p) (hending : p.ending = none) (hq : p.Conducts q) :
    Leads r order q := by
  cases hq with
  | finish hcues => exact d.finish h hr hcues
  | startProcessing rest hcues => exact d.startProcessing h hending hr hcues
  | startSplitting rest hcues =>
    have hfraction : p.rehearsal.fraction = r.fraction := by rw [h.rehearsal]
    rw [hfraction]
    exact d.startSplitting h hending hcues
  | await c rest result hcues hawait => exact d.await h hending hcues hawait
  | release c rest result hcues hrelease => exact d.release h hending hcues hrelease
  | joinSplitting rest v hcues hv =>
    obtain ⟨rfl, hover⟩ := (joined?_iff h.at_splitting).1 hv
    exact d.joinSplitting h hending hr hcues hover
  | passClaim rest hcues => exact d.branch h hending hcues
  | joinProcessing rest v hcues hv =>
    obtain ⟨_, hover⟩ := (joined?_iff h.at_processing).1 hv
    exact d.joinProcessing h hending hcues hover

end Splittable.Performance
