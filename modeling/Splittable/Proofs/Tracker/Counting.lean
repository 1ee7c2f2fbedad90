import Splittable.Proofs.Work.Alone

/-!
# Counting through a span

The work that claims and emits every offset of a span in order, on a tracker that may be split at
any time.  What is left of the work, what was emitted and the state of the tracker belong together
in four ways; every request of the work leads from one of them to another, and a split only moves
the end of the span.

* `Tracker.reached`, `Tracker.exhausted` : the states a tracker is in while it is counted through;
* `Counting`                             : the four ways;
* `Counting.claim`, `.emit`, `.inspect`  : the steps of the work;
* `Counting.split`                       : a split at any time;
* `process_count_eq`, `process_count`    : counting with nobody else around.
-/

namespace Splittable

/-! ## The tracker -/

namespace Tracker

/-- A tracker on which the offsets of the span below `p` were claimed one after the other. -/
def reached (span : Span) (p : Offset) : Tracker :=
  ⟨span, if p = span.start then none else some (p - 1), false, none⟩

/-- A tracker on which every offset of the span was claimed, and the end of the span as well. -/
def exhausted (span : Span) : Tracker :=
  ⟨span, some span.stop, true, none⟩

theorem new_eq_reached (span : Span) : new span = reached span span.start := by
  simp [new, reached]

theorem toInt_sub_one {p q : Offset} (h : q < p) : (p - 1).toInt = p.toInt - 1 := by
  have hlt := Offset.lt_iff.1 h
  have h₁ := q.le_toInt
  have h₂ := p.toInt_lt
  rw [Int64.toInt_sub, show (1 : Int64).toInt = 1 by decide,
    Int.bmod_eq_of_le (by omega) (by omega)]

theorem lastAttempted_reached {span : Span} {p last : Offset} (hp : span.start ≤ p)
    (h : (reached span p).lastAttempted = some last) :
    last < p ∧ last + 1 = p ∧ span.start ≤ last := by
  simp only [reached] at h
  split at h
  · cases h
  · rename_i hne
    cases h
    have hlt : span.start < p := by
      rw [Offset.lt_iff]
      have hle := Offset.le_iff.1 hp
      have hne' : p.toInt ≠ span.start.toInt := fun h => hne (Offset.eq_iff.2 h)
      omega
    have hpred := toInt_sub_one hlt
    have hless : p - 1 < p := by
      rw [Offset.lt_iff]
      omega
    refine ⟨hless, ?_, ?_⟩
    · rw [Offset.eq_iff, Offset.toInt_add_one hless]
      omega
    · rw [Offset.le_iff]
      rw [Offset.lt_iff] at hlt
      omega

theorem cursor_reached (span : Span) {p : Offset} (hp : span.start ≤ p) :
    (reached span p).cursor = p := by
  unfold cursor
  split
  · rename_i last hlast
    obtain ⟨hless, hsucc, _⟩ := lastAttempted_reached hp hlast
    rw [Offset.after_of_lt hless, hsucc]
  · rename_i hlast
    simp only [reached] at hlast
    split at hlast
    · exact ‹p = span.start›.symm
    · cases hlast

theorem ordered_reached (span : Span) {p : Offset} (hp : span.start ≤ p) :
    (reached span p).Ordered :=
  fun _ h => (lastAttempted_reached hp h).2.2

theorem ordered_exhausted (span : Span) (h : span.start ≤ span.stop) :
    (exhausted span).Ordered := by
  intro last hlast
  cases hlast
  exact h

/-- **The next offset is granted** below the end of the span. -/
theorem claim_reached (span : Span) {p : Offset} (hp : span.start ≤ p) (hstop : p < span.stop) :
    (reached span p).claim p = (true, reached span (p + 1)) := by
  have hne : p + 1 ≠ span.start := by
    intro h
    have hle := Offset.le_iff.1 hp
    have heq := Offset.eq_iff.1 h
    rw [Offset.toInt_add_one hstop] at heq
    omega
  have hpred : p + 1 - 1 = p := by grind
  have hclaim : (reached span p).claim p =
      (true, { reached span p with lastAttempted := some p }) :=
    claim_of_order rfl hp (fun _ h => (lastAttempted_reached hp h).1) hstop
  rw [hclaim]
  simp [reached, hne, hpred]

/-- **The end of the span is refused** and exhausts the tracker. -/
theorem claim_reached_stop (span : Span) (h : span.start ≤ span.stop) :
    (reached span span.stop).claim span.stop = (false, exhausted span) :=
  claim_of_end rfl h (fun _ hl => (lastAttempted_reached h hl).1) (Int64.le_refl _)

theorem split_exhausted (span : Span) (h : span.start ≤ span.stop) (f : Binary64) :
    ∃ fault, (exhausted span).split f = (.error fault, exhausted span) := by
  have hspec := split_spec (ordered_exhausted span h) f
  generalize (exhausted span).split f = outcome at hspec ⊢
  obtain ⟨result, t⟩ := outcome
  dsimp only at hspec
  cases hspec with
  | invalid => exact ⟨_, rfl⟩
  | nothing => exact ⟨_, rfl⟩
  | cut _ _ hs => cases hs

/-- A split of a tracker that is counted through cuts the span at an offset from the cursor to the
end, unless there is nothing left to claim. -/
theorem split_reached (span : Span) {p : Offset} (hp : span.start ≤ p) {f : Binary64}
    (hf : f.InUnit) :
    (span.stop ≤ p ∧ ∃ fault, (reached span p).split f = (.error fault, reached span p)) ∨
    ∃ point, p < span.stop ∧ p ≤ point ∧ point ≤ span.stop ∧ (reached span p).split f =
      (.ok ⟨⟨p, point⟩, ⟨point, span.stop⟩⟩, reached ⟨span.start, point⟩ p) := by
  have hspec := split_spec (ordered_reached span hp) f
  have hcursor := cursor_reached span hp
  generalize (reached span p).split f = outcome at hspec ⊢
  obtain ⟨result, t⟩ := outcome
  dsimp only at hspec
  cases hspec with
  | invalid hnot => exact absurd hf hnot
  | nothing _ hnothing =>
    rw [hcursor] at hnothing
    exact Or.inl ⟨hnothing.resolve_left (by simp [reached]), _, rfl⟩
  | cut point _ _ hlt hlow hhigh =>
    rw [hcursor] at hlt hlow
    exact Or.inr ⟨point, hlt, hlow, hhigh, by rw [hcursor]; rfl⟩

theorem checkDone_exhausted (span : Span) : (exhausted span).checkDone = .ok () := by
  have hle : span.stop ≤ (exhausted span).cursor := Offset.le_after span.stop
  exact if_pos (Or.inr hle)

end Tracker

/-! ## The work -/

/-- What is left of counting once the claim of `p` is answered. -/
def Work.answered (fuel : Nat) (p : Offset) (granted : Bool) : Work Offset :=
  if granted then .emit p (countFrom fuel (p + 1)) else .finish (.ok ())

theorem Work.countFrom_succ (fuel : Nat) (p : Offset) :
    countFrom (fuel + 1) p = .claim p (answered fuel p) := rfl

/-- What is left of counting from `start` to `stop`, what was emitted, and the tracker.  There is
always fuel for the claims that are left, so that counting ends with a claim that is refused and
never for lack of fuel. -/
inductive Counting (start stop : Offset) : Work Offset → List Offset → Tracker → Prop where
  | begin : start ≤ stop →
      Counting start stop (.inspect fun t => .countFrom (t.span.length + 1) t.span.start) []
        (.reached ⟨start, stop⟩ start)
  | claiming (fuel : Nat) (p : Offset) : start ≤ p → p ≤ stop →
      (stop.toInt - p.toInt).toNat ≤ fuel →
      Counting start stop (.claim p (Work.answered fuel p)) (Offset.run start p)
        (.reached ⟨start, stop⟩ p)
  | emitting (fuel : Nat) (p : Offset) : start ≤ p → p < stop →
      (stop.toInt - p.toInt).toNat ≤ fuel →
      Counting start stop (.emit p (.countFrom fuel (p + 1))) (Offset.run start p)
        (.reached ⟨start, stop⟩ (p + 1))
  | done : start ≤ stop →
      Counting start stop (.finish (.ok ())) (Offset.run start stop) (.exhausted ⟨start, stop⟩)

namespace Counting

variable {start stop p : Offset} {emitted : List Offset} {t : Tracker}

theorem count_new (h : start ≤ stop) : Counting start stop .count [] (.new ⟨start, stop⟩) := by
  rw [Tracker.new_eq_reached]
  exact .begin h

theorem le {work : Work Offset} (h : Counting start stop work emitted t) : start ≤ stop := by
  cases h with
  | begin h => exact h
  | claiming _ _ h₁ h₂ => exact Int64.le_trans h₁ h₂
  | emitting _ _ h₁ h₂ => exact Int64.le_of_lt (Int64.lt_of_le_of_lt h₁ h₂)
  | done h => exact h

theorem span_eq {work : Work Offset} (h : Counting start stop work emitted t) :
    t.span = ⟨start, stop⟩ := by
  cases h <;> rfl

theorem ordered {work : Work Offset} (h : Counting start stop work emitted t) : t.Ordered := by
  cases h with
  | begin => exact Tracker.ordered_reached _ (Int64.le_refl _)
  | claiming _ _ h₁ => exact Tracker.ordered_reached _ h₁
  | emitting _ p h₁ h₂ =>
    exact Tracker.ordered_reached ⟨start, stop⟩ (Int64.le_trans h₁ (Offset.le_add_one h₂))
  | done h => exact Tracker.ordered_exhausted ⟨start, stop⟩ h

theorem inspect {next : Tracker → Work Offset} (h : Counting start stop (.inspect next) emitted t) :
    Counting start stop (next t) emitted t := by
  cases h with
  | begin h =>
    dsimp only
    rw [Work.countFrom_succ, ← Offset.run_self start]
    refine .claiming _ start (Int64.le_refl start) h ?_
    simp only [Tracker.reached, Span.length]
    omega

/-- **A claim is granted until the end of the span.** -/
theorem claim {next : Bool → Work Offset} (h : Counting start stop (.claim p next) emitted t) :
    Counting start stop (next (t.claim p).1) emitted (t.claim p).2 := by
  cases h with
  | claiming fuel _ h₁ h₂ hfuel =>
    by_cases hlt : p < stop
    · rw [Tracker.claim_reached ⟨start, stop⟩ h₁ hlt]
      exact .emitting fuel p h₁ hlt hfuel
    · obtain rfl : p = stop := Int64.le_antisymm h₂ (Int64.not_lt.1 hlt)
      rw [Tracker.claim_reached_stop ⟨start, p⟩ h₁]
      exact .done h₁

theorem emit {next : Work Offset} (h : Counting start stop (.emit p next) emitted t) :
    Counting start stop next (emitted ++ [p]) t := by
  cases h with
  | emitting fuel _ h₁ h₂ hfuel =>
    have hlt := Offset.lt_iff.1 h₂
    have hnext := Offset.toInt_add_one h₂
    obtain ⟨fuel, rfl⟩ : ∃ f, fuel = f + 1 := ⟨fuel - 1, by omega⟩
    rw [Work.countFrom_succ, ← Offset.run_succ h₁ h₂]
    exact .claiming fuel (p + 1) (Int64.le_trans h₁ (Offset.le_add_one h₂))
      (Offset.add_one_le h₂) (by omega)

theorem shrink {work : Work Offset} {point : Offset} (h : Counting start stop work emitted t)
    (hcursor : t.cursor ≤ point) (hpoint : point ≤ stop) (hs : t.stopped = false) :
    Counting start point work emitted { t with span := ⟨start, point⟩ } := by
  have hp := Offset.le_iff.1 hpoint
  cases h with
  | begin =>
    rw [Tracker.cursor_reached ⟨start, stop⟩ (Int64.le_refl _)] at hcursor
    exact .begin hcursor
  | claiming fuel q h₁ _ hfuel =>
    rw [Tracker.cursor_reached ⟨start, stop⟩ h₁] at hcursor
    exact .claiming fuel q h₁ hcursor (by omega)
  | emitting fuel q h₁ h₂ hfuel =>
    have hnext := Offset.toInt_add_one h₂
    have hq : start ≤ q + 1 := Int64.le_trans h₁ (Offset.le_add_one h₂)
    rw [Tracker.cursor_reached ⟨start, stop⟩ hq, Offset.le_iff] at hcursor
    refine .emitting fuel q h₁ ?_ (by omega)
    rw [Offset.lt_iff]
    omega
  | done => cases hs

/-- **A split is refused and changes nothing, or it cuts the span** at a point from the cursor to
the end, and counting goes on to there. -/
theorem split {work : Work Offset} (h : Counting start stop work emitted t) (f : Binary64) :
    (∃ fault, t.split f = (.error fault, t)) ∨
    ∃ point, t.cursor < stop ∧ t.cursor ≤ point ∧ point ≤ stop ∧
      t.split f = (.ok ⟨⟨t.cursor, point⟩, ⟨point, stop⟩⟩, { t with span := ⟨start, point⟩ }) ∧
      Counting start point work emitted { t with span := ⟨start, point⟩ } := by
  have hspec := Tracker.split_spec h.ordered f
  have hspan := h.span_eq
  generalize t.split f = outcome at hspec ⊢
  obtain ⟨result, t'⟩ := outcome
  dsimp only at hspec
  cases hspec with
  | invalid => exact Or.inl ⟨_, rfl⟩
  | nothing => exact Or.inl ⟨_, rfl⟩
  | cut point _ hs hlt hlow hhigh =>
    rw [hspan] at hlt hhigh
    refine Or.inr ⟨point, hlt, hlow, hhigh, ?_, h.shrink hlow hhigh hs⟩
    rw [hspan]

theorem finish {result : Except Chain Unit} (h : Counting start stop (.finish result) emitted t) :
    result = .ok () ∧ emitted = Offset.run start stop ∧ t = .exhausted ⟨start, stop⟩ := by
  cases h with
  | done => exact ⟨rfl, rfl, rfl⟩

/-! What comes next can be read off from what is left of the work. -/

theorem of_inspect {next : Tracker → Work Offset}
    (h : Counting start stop (.inspect next) emitted t) : ∃ after, next t = .claim start after := by
  cases h with
  | begin => exact ⟨_, rfl⟩

theorem of_claim {next : Bool → Work Offset} (h : Counting start stop (.claim p next) emitted t) :
    start ≤ p ∧ p ≤ stop ∧ t = .reached ⟨start, stop⟩ p ∧
      (p < stop ∧ t.claim p = (true, .reached ⟨start, stop⟩ (p + 1)) ∧
          (∃ after, next true = .emit p after) ∨
        p = stop ∧ t.claim p = (false, .exhausted ⟨start, stop⟩) ∧
          next false = .finish (.ok ())) := by
  cases h with
  | claiming fuel _ h₁ h₂ =>
    refine ⟨h₁, h₂, rfl, ?_⟩
    by_cases hlt : p < stop
    · exact Or.inl ⟨hlt, Tracker.claim_reached ⟨start, stop⟩ h₁ hlt, _, rfl⟩
    · obtain rfl : p = stop := Int64.le_antisymm h₂ (Int64.not_lt.1 hlt)
      exact Or.inr ⟨rfl, Tracker.claim_reached_stop ⟨start, p⟩ h₁, rfl⟩

theorem of_emit {next : Work Offset} (h : Counting start stop (.emit p next) emitted t) :
    start ≤ p ∧ p < stop ∧ t = .reached ⟨start, stop⟩ (p + 1) ∧
      ∃ after, next = .claim (p + 1) after := by
  cases h with
  | emitting fuel _ h₁ h₂ hfuel =>
    have hlt := Offset.lt_iff.1 h₂
    obtain ⟨fuel, rfl⟩ : ∃ f, fuel = f + 1 := ⟨fuel - 1, by omega⟩
    exact ⟨h₁, h₂, rfl, _, rfl⟩

end Counting

/-! ## Nobody else around -/

/-- The next offset is claimed and emitted, and so on until the end of the span is refused. -/
theorem Work.countFrom_run (span : Span) {fuel : Nat} {p : Offset} (hp : span.start ≤ p)
    (hstop : p ≤ span.stop) (hfuel : (span.stop.toInt - p.toInt).toNat < fuel) (n : Tally) :
    (countFrom fuel p).run (.reached span p) n =
      ⟨Offset.run p span.stop, .ok (), .exhausted span,
        n + ⟨(Offset.run p span.stop).length, 1, 0, 0, 0⟩⟩ := by
  induction fuel generalizing p n with
  | zero => omega
  | succ fuel ih =>
    rw [countFrom_succ]
    by_cases hlt : p < span.stop
    · have hnext := Offset.toInt_add_one hlt
      have hless := Offset.lt_iff.1 hlt
      have hp' : span.start ≤ p + 1 := Int64.le_trans hp (Offset.le_add_one hlt)
      simp only [Work.run, Tracker.claim_reached span hp hlt, answered, if_true]
      rw [ih hp' (Offset.add_one_le hlt) (by omega), Offset.run_cons hlt, Tally.countClaim_add]
      rfl
    · obtain rfl : p = span.stop := Int64.le_antisymm hstop (Int64.not_lt.1 hlt)
      simp only [Work.run, Tracker.claim_reached_stop span hp, answered, Offset.run_self,
        List.length_nil]
      rfl

/-- **Counting through a span of its own** emits every offset of it and leaves no fault; every
offset is a claim that is granted, and one claim is refused. -/
theorem process_count_eq {span : Span} (h : span.start ≤ span.stop) (n : Tally) :
    process .count (.new span) n =
      ((Tracker.exhausted span).progress.map fun progress =>
          ⟨Offset.run span.start span.stop, span, progress, none⟩,
        .exhausted span, n + ⟨(Offset.run span.start span.stop).length, 1, 0, 0, 0⟩) := by
  have hrun := Work.countFrom_run span (Int64.le_refl _) h (Nat.lt_succ_self _) n
  have hlength : (span.stop.toInt - span.start.toInt).toNat = span.length := by
    rw [Offset.le_iff] at h
    unfold Span.length
    omega
  rw [hlength] at hrun
  rw [Tracker.new_eq_reached]
  simp only [process, Work.count, Work.run]
  rw [show (Tracker.reached span span.start).span = span from rfl, hrun]
  simp only [judge, Tracker.checkDone_exhausted]
  rfl

theorem process_count {span : Span} (h : span.start ≤ span.stop) (n : Tally) :
    ∃ progress, (process .count (.new span) n).1 =
      some ⟨Offset.run span.start span.stop, span, progress, none⟩ := by
  obtain ⟨progress, hprogress⟩ := Tracker.exists_progress (t := .exhausted span) h
  exact ⟨progress, by rw [process_count_eq h, hprogress, Option.map_some]⟩

end Splittable
