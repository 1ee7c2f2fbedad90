import Mathlib.Data.Nat.Find
import Mathlib.Order.Basic
import Splittable.Proofs.Tracker.Histories

/-!
# Which claims are granted

Claims are granted for as long as a history is in order: nothing failed, and every offset lies in
the span as it is at that moment and past the one that was claimed before it.  The first claim that
is out of order, or a failure before it, stops the tracker for good.

* `InOrder`, `exists_longest`   : histories in order, and the longest beginning that is;
* `InOrder.state`               : what such a history leaves behind;
* `claim_granted_iff`           : the condition for a claim to be granted then;
* `use_of_stopped`              : what can still happen to a tracker that has stopped;
* `recorded`, `after_fault`     : the first fault is kept;
* `claims_of_history`           : the claims that are granted, and what the others leave behind.
-/

namespace Splittable.Tracker

variable {t : Tracker} {span : Span} {uses : List Use} {u : Use} {p : Offset} {k n : Nat}

/-! ## Histories in order -/

/-- The offset that is claimed. -/
def Use.claimed? : Use → Option Offset
  | .claim p => some p
  | _ => none

/-- The offset that a history claimed last. -/
def lastClaimed (uses : List Use) : Option Offset :=
  (uses.filterMap Use.claimed?).getLast?

/-- The tracker of a span after the first `k` operations of a history. -/
def stateAt (span : Span) (uses : List Use) (k : Nat) : Tracker :=
  (new span).after (uses.take k)

/-- The history is in order: nothing fails, and every offset that is claimed lies in the span as it
is at that moment, past the offset claimed before it. -/
structure InOrder (span : Span) (uses : List Use) : Prop where
  noFailure : ∀ reason, .fail reason ∉ uses
  claims : ∀ k p, uses[k]? = some (.claim p) →
    span.start ≤ p ∧ (∀ q, lastClaimed (uses.take k) = some q → q < p) ∧
      p < (stateAt span uses k).span.stop

/-- The first `n` operations are the longest beginning of the history that is in order. -/
def Longest (span : Span) (uses : List Use) (n : Nat) : Prop :=
  InOrder span (uses.take n) ∧ ∀ m ≤ uses.length, InOrder span (uses.take m) → m ≤ n

theorem inOrder_nil (span : Span) : InOrder span [] :=
  ⟨fun _ => List.not_mem_nil, nofun⟩

theorem exists_longest (span : Span) (uses : List Use) :
    ∃ n ≤ uses.length, Longest span uses n := by
  classical
  have hzero : InOrder span (uses.take 0) := by simpa using inOrder_nil span
  refine ⟨Nat.findGreatest (fun n => InOrder span (uses.take n)) uses.length,
    Nat.findGreatest_le _, ?_, fun m hm h => Nat.le_findGreatest hm h⟩
  exact Nat.findGreatest_spec (P := fun n => InOrder span (uses.take n)) (Nat.zero_le _) hzero

theorem getElem?_take_iff : (uses.take n)[k]? = some u ↔ k < n ∧ uses[k]? = some u := by
  rw [List.getElem?_take]
  split <;> simp [*]

theorem take_succ (hu : uses[k]? = some u) : uses.take (k + 1) = uses.take k ++ [u] := by
  rw [List.take_add_one, hu]
  rfl

theorem stateAt_succ (hu : uses[k]? = some u) :
    stateAt span uses (k + 1) = (stateAt span uses k).use u := by
  simp [stateAt, after, take_succ hu]

theorem stateAt_take {j : Nat} (h : j ≤ k) :
    stateAt span (uses.take k) j = stateAt span uses j := by
  rw [stateAt, stateAt, List.take_take, Nat.min_eq_left h]

theorem stateAt_le (span : Span) (uses : List Use) {j k : Nat} (h : j ≤ k) :
    ∃ more, stateAt span uses k = (stateAt span uses j).after more := by
  obtain ⟨d, rfl⟩ := Nat.exists_eq_add_of_le h
  exact ⟨(uses.drop j).take d, by simp [stateAt, after, List.take_add]⟩

/-- What is left to ask of the operation after a history in order. -/
theorem inOrder_succ (h : InOrder span (uses.take k)) (hu : uses[k]? = some u)
    (hfail : ∀ reason, u ≠ .fail reason)
    (hclaim : ∀ p, u = .claim p → span.start ≤ p ∧
      (∀ q, lastClaimed (uses.take k) = some q → q < p) ∧ p < (stateAt span uses k).span.stop) :
    InOrder span (uses.take (k + 1)) where
  noFailure reason hmem := by
    rw [take_succ hu] at hmem
    rcases List.mem_append.1 hmem with hmem | hmem
    · exact h.noFailure reason hmem
    · exact hfail reason (List.mem_singleton.1 hmem).symm
  claims j p hp := by
    obtain ⟨hj, hp'⟩ := getElem?_take_iff.1 hp
    rw [List.take_take, Nat.min_eq_left hj.le, stateAt_take hj.le]
    rcases Nat.lt_succ_iff_lt_or_eq.1 hj with hlt | rfl
    · have hclaims := h.claims j p (getElem?_take_iff.2 ⟨hlt, hp'⟩)
      rwa [List.take_take, Nat.min_eq_left hlt.le, stateAt_take hlt.le] at hclaims
    · exact hclaim p (Option.some.inj (hu.symm.trans hp'))

/-! ## What a history in order leaves behind -/

theorem split_frame (t : Tracker) (f : Binary64) :
    ∃ stop, (t.split f).2 = { t with span := ⟨t.span.start, stop⟩ } := by
  unfold split
  split
  · exact ⟨_, rfl⟩
  split
  · exact ⟨_, rfl⟩
  dsimp only
  split
  · exact ⟨_, rfl⟩
  split
  · exact ⟨_, rfl⟩
  · rename_i hcut
    unfold Span.cutAt at hcut
    split at hcut
    · cases hcut
    · cases hcut
      exact ⟨_, rfl⟩

/-- **What a history in order leaves behind**: a tracker that has not stopped, without a fault, that
begins where it began and attempted last what was claimed last. -/
structure Running (span : Span) (uses : List Use) (t : Tracker) : Prop where
  stopped : t.stopped = false
  fault : t.fault = none
  start : t.span.start = span.start
  last : t.lastAttempted = lastClaimed uses

theorem Running.split (h : Running span uses t) (f : Binary64) :
    Running span uses (t.split f).2 := by
  obtain ⟨stop, heq⟩ := split_frame t f
  rw [heq]
  exact ⟨h.stopped, h.fault, h.start, h.last⟩

theorem lastClaimed_append (uses : List Use) (u : Use) :
    lastClaimed (uses ++ [u]) = u.claimed?.or (lastClaimed uses) := by
  cases u <;> simp [lastClaimed, Use.claimed?, List.filterMap_append]

theorem InOrder.state (h : InOrder span uses) (hk : k ≤ uses.length) :
    Running span (uses.take k) (stateAt span uses k) := by
  induction k with
  | zero => exact ⟨rfl, rfl, rfl, rfl⟩
  | succ k ih =>
    have hrun := ih (by omega)
    have hu : uses[k]? = some uses[k] := List.getElem?_eq_getElem (by omega)
    rw [stateAt_succ hu, take_succ hu]
    generalize uses[k] = u at hu ⊢
    cases u with
    | claim p =>
      obtain ⟨hp, hlast, hstop⟩ := h.claims k p hu
      rw [← hrun.last] at hlast
      have hclaim := claim_of_order hrun.stopped (hrun.start ▸ hp) hlast hstop
      simp only [use, hclaim]
      exact ⟨hrun.stopped, hrun.fault, hrun.start, by simp [lastClaimed_append, Use.claimed?]⟩
    | split f =>
      obtain ⟨hs, hfault, hstart, hlast⟩ := hrun.split f
      exact ⟨hs, hfault, hstart, hlast.trans (by simp [lastClaimed_append, Use.claimed?])⟩
    | checkpoint =>
      obtain ⟨hs, hfault, hstart, hlast⟩ := hrun.split .zero
      exact ⟨hs, hfault, hstart, hlast.trans (by simp [lastClaimed_append, Use.claimed?])⟩
    | fail reason => exact absurd (List.mem_of_getElem? hu) (h.noFailure reason)

/-- **After a history in order a claim is granted exactly if it is in order.** -/
theorem claim_granted_iff (h : Running span uses t) :
    (t.claim p).1 = true ↔ span.start ≤ p ∧ (∀ q, lastClaimed uses = some q → q < p) ∧
      p < t.span.stop := by
  rw [← h.last, ← h.start]
  constructor
  · intro hgranted
    have hspec := claim_spec t p
    generalize (t.claim p).1 = granted, (t.claim p).2 = t' at hspec hgranted
    cases hspec with
    | granted _ hp hlast hstop => exact ⟨hp, hlast, hstop⟩
    | _ => cases hgranted
  · rintro ⟨hp, hlast, hstop⟩
    rw [claim_of_order h.stopped hp hlast hstop]

/-! ## Trackers that have stopped -/

theorem stopped_of_refused (h : (t.claim p).1 = false) : (t.claim p).2.stopped = true := by
  have hspec := claim_spec t p
  generalize (t.claim p).1 = granted, (t.claim p).2 = t' at hspec h ⊢
  cases hspec with
  | stopped hs => exact hs
  | beforeStart | backwards | exhausted => rfl
  | granted => cases h

theorem claim_of_stopped (hs : t.stopped = true) (p : Offset) : t.claim p = (false, t) := by
  rw [claim, if_pos hs]

theorem split_of_stopped (hs : t.stopped = true) (f : Binary64) : (t.split f).2 = t := by
  unfold split
  split
  · rfl
  · rw [if_pos (Or.inl hs)]

/-- Two states of a tracker that differ in the fault at most. -/
structure SamePlace (t t' : Tracker) : Prop where
  span : t'.span = t.span
  cursor : t'.cursor = t.cursor
  lastAttempted : t'.lastAttempted = t.lastAttempted

/-- **A tracker that has stopped** stays stopped and in its place. -/
theorem use_of_stopped (hs : t.stopped = true) (u : Use) :
    (t.use u).stopped = true ∧ SamePlace t (t.use u) := by
  cases u with
  | claim p => rw [use, claim_of_stopped hs]; exact ⟨hs, rfl, rfl, rfl⟩
  | split f => rw [use, split_of_stopped hs]; exact ⟨hs, rfl, rfl, rfl⟩
  | checkpoint => rw [use, checkpoint, split_of_stopped hs]; exact ⟨hs, rfl, rfl, rfl⟩
  | fail reason => exact ⟨rfl, rfl, rfl, rfl⟩

theorem after_of_stopped (hs : t.stopped = true) (uses : List Use) :
    (t.after uses).stopped = true ∧ SamePlace t (t.after uses) := by
  refine after_induction (P := fun t' => t'.stopped = true ∧ SamePlace t t') (fun t' u h => ?_)
    ⟨hs, rfl, rfl, rfl⟩ uses
  obtain ⟨hs', hplace⟩ := use_of_stopped h.1 u
  exact ⟨hs', hplace.span.trans h.2.span, hplace.cursor.trans h.2.cursor,
    hplace.lastAttempted.trans h.2.lastAttempted⟩

/-! ## The fault -/

/-- Where a work fails: at the last attempted offset, if there is one. -/
def place (t : Tracker) : String :=
  (t.lastAttempted.map toString).getD "none"

/-- The fault that an operation records where there is none yet: a tracker that has not stopped
records a claim before its span and one that is not past the last attempt, and every tracker a
failure, at the last attempt. -/
def recording (t : Tracker) : Use → Option Fault
  | .claim p =>
    if t.stopped then none
    else if p < t.span.start then some (.claimBeforeStart (toString p) (toString t.span))
    else match t.lastAttempted with
      | some last =>
        if p ≤ last then some (.nonMonotonicClaim (toString p) (toString last)) else none
      | none => none
  | .split _ | .checkpoint => none
  | .fail reason => some (.processing t.place reason)

/-- The faults that a history records, in the order in which it does. -/
def recorded : Tracker → List Use → List Fault
  | _, [] => []
  | t, u :: uses => (t.recording u).toList ++ (t.use u).recorded uses

theorem record_fault (t : Tracker) (fault : Fault) :
    (t.record fault).fault = t.fault.or (some fault) := by
  unfold record
  cases t.fault <;> rfl

theorem recording_claim (hs : t.stopped = false) (hp : t.span.start ≤ p)
    (hlast : ∀ last, t.lastAttempted = some last → last < p) : t.recording (.claim p) = none := by
  have hstart := Int64.not_lt.2 hp
  cases hattempted : t.lastAttempted with
  | none => simp only [recording, hs, hstart, hattempted, Bool.false_eq_true, if_false]
  | some last =>
    have hpast := Int64.not_le.2 (hlast last hattempted)
    simp only [recording, hs, hstart, hattempted, hpast, Bool.false_eq_true, if_false]

/-- **An operation records a fault only where there is none.** -/
theorem use_fault (t : Tracker) (u : Use) : (t.use u).fault = t.fault.or (t.recording u) := by
  cases u with
  | claim p =>
    have hspec := claim_spec t p
    rw [use]
    generalize (t.claim p).1 = granted, (t.claim p).2 = t' at hspec ⊢
    cases hspec with
    | stopped hs => simp [recording, hs]
    | beforeStart hs hlt => simp [recording, record_fault, hs, hlt]
    | backwards last hs hp hlast hle =>
      simp [recording, record_fault, hs, Int64.not_lt.2 hp, hlast, hle]
    | exhausted hs hp hlast | granted hs hp hlast => simp [recording_claim hs hp hlast]
  | split f | checkpoint =>
    rw [recording, Option.or_none]
    exact split_fault t _
  | fail reason =>
    rw [recording, use, fail, record_fault, place]
    cases t.lastAttempted <;> rfl

/-- **The first fault that is recorded is kept.** -/
theorem after_fault (t : Tracker) (uses : List Use) :
    (t.after uses).fault = t.fault.or (t.recorded uses).head? := by
  induction uses generalizing t with
  | nil => simp [after, recorded]
  | cons u uses ih =>
    rw [show t.after (u :: uses) = (t.use u).after uses from rfl, ih, use_fault, recorded]
    cases t.recording u <;> simp

/-! ## Whole histories -/

/-- What the first claim that is out of order leaves behind: the fault of a claim before the start,
that of a claim not past the last attempt, or the claimed offset as the last attempt. -/
structure Breaks (t : Tracker) (p : Offset) (t' : Tracker) : Prop where
  early : p < t.span.start → SamePlace t t' ∧
    t'.fault = some (.claimBeforeStart (toString p) (toString t.span))
  backwards : t.span.start ≤ p → ∀ last, t.lastAttempted = some last → p ≤ last →
    SamePlace t t' ∧ t'.fault = some (.nonMonotonicClaim (toString p) (toString last))
  beyond : t.span.start ≤ p → (∀ last, t.lastAttempted = some last → last < p) →
    t'.fault = none ∧ t'.lastAttempted = some p

theorem Running.breaks (h : Running span uses t) : Breaks t p (t.claim p).2 := by
  have hspec := claim_spec t p
  have hfault := h.fault
  generalize (t.claim p).1 = granted, (t.claim p).2 = t' at hspec ⊢
  cases hspec with
  | stopped hs => rw [h.stopped] at hs; cases hs
  | beforeStart _ hlt =>
    have hnot := Int64.not_le.2 hlt
    exact ⟨fun _ => ⟨⟨rfl, rfl, rfl⟩, by simp [record, hfault]⟩, fun hp => absurd hp hnot,
      fun hp => absurd hp hnot⟩
  | backwards last _ hp hlast hle =>
    refine ⟨fun hlt => absurd hp (Int64.not_le.2 hlt), fun _ last' hlast' _ => ?_,
      fun _ hpast => absurd (hpast last hlast) (Int64.not_lt.2 hle)⟩
    cases hlast.symm.trans hlast'
    exact ⟨⟨rfl, rfl, rfl⟩, by simp [record, hfault]⟩
  | exhausted _ hp hpast | granted _ hp hpast =>
    exact ⟨fun hlt => absurd hp (Int64.not_le.2 hlt),
      fun _ last hlast hle => absurd (hpast last hlast) (Int64.not_lt.2 hle),
      fun _ _ => ⟨hfault, rfl⟩⟩

/-- The operation after the longest beginning in order is a failure or a claim, and in either case
it stops the tracker. -/
theorem Longest.stops (h : Longest span uses n) (hn : n < uses.length) (hu : uses[n]? = some u) :
    ((∃ reason, u = .fail reason) ∨
      ∃ p, u = .claim p ∧ ((stateAt span uses n).claim p).1 = false) ∧
    (stateAt span uses (n + 1)).stopped = true := by
  have hrun := h.1.state (k := n) (by simp; omega)
  rw [stateAt_take (Nat.le_refl n), List.take_take, Nat.min_self] at hrun
  have hnot : ¬ InOrder span (uses.take (n + 1)) := fun hin => by
    have := h.2 (n + 1) hn hin
    omega
  rw [stateAt_succ hu]
  cases u with
  | claim p =>
    have hrefused : ((stateAt span uses n).claim p).1 = false := by
      rw [← Bool.not_eq_true, claim_granted_iff hrun]
      intro horder
      exact hnot (inOrder_succ h.1 hu nofun fun q hq => by cases hq; exact horder)
    exact ⟨Or.inr ⟨p, rfl, hrefused⟩, stopped_of_refused hrefused⟩
  | split | checkpoint => exact absurd (inOrder_succ h.1 hu nofun nofun) hnot
  | fail reason => exact ⟨Or.inl ⟨reason, rfl⟩, rfl⟩

theorem Longest.stopped (h : Longest span uses n) (hn : n < k) (hk : k ≤ uses.length) :
    (stateAt span uses k).stopped = true ∧
      SamePlace (stateAt span uses (n + 1)) (stateAt span uses k) := by
  have hlt : n < uses.length := by omega
  obtain ⟨more, hmore⟩ := stateAt_le span uses (show n + 1 ≤ k from hn)
  rw [hmore]
  exact after_of_stopped (h.stops hlt (List.getElem?_eq_getElem hlt)).2 more

/-- **The claims of a history.**  The claims that are granted are those of the longest beginning of
the history that is in order.  What comes after it, if anything, is a failure or a claim that is out
of order; such a claim leaves behind the fault of its kind and moves nothing, or it lies at or
beyond the end, leaves no fault and becomes the last attempt.  From then on no claim is granted, and
span, cursor and last attempt stay as they are.  Through the whole history the fault is the first
one that was recorded, and once there is one it stays. -/
theorem claims_of_history (span : Span) (uses : List Use) :
    ∃ n ≤ uses.length, Longest span uses n ∧
      (∀ k p, uses[k]? = some (.claim p) →
        (((stateAt span uses k).claim p).1 = true ↔ k < n)) ∧
      (∀ u, uses[n]? = some u → (∃ reason, u = .fail reason) ∨ ∃ p, u = .claim p) ∧
      (∀ p, uses[n]? = some (.claim p) →
        Breaks (stateAt span uses n) p (stateAt span uses (n + 1))) ∧
      (∀ k, n < k → k ≤ uses.length → (∀ p, ((stateAt span uses k).claim p).1 = false) ∧
        SamePlace (stateAt span uses (n + 1)) (stateAt span uses k)) ∧
      (∀ k, (stateAt span uses k).fault = ((new span).recorded (uses.take k)).head?) ∧
      ∀ j k fault, j ≤ k → (stateAt span uses j).fault = some fault →
        (stateAt span uses k).fault = some fault := by
  obtain ⟨n, hn, hlongest⟩ := exists_longest span uses
  have hrun : ∀ k ≤ n, Running span (uses.take k) (stateAt span uses k) := by
    intro k hk
    have hstate := hlongest.1.state (k := k) (by simp; omega)
    rwa [stateAt_take hk, List.take_take, Nat.min_eq_left hk] at hstate
  have hrefused : ∀ k, n < k → k ≤ uses.length →
      ∀ p, ((stateAt span uses k).claim p).1 = false := by
    intro k hlt hk p
    rw [claim_of_stopped (hlongest.stopped hlt hk).1]
  refine ⟨n, hn, hlongest, fun k p hp => ?_, fun u hu => ?_, fun p hp => ?_,
    fun k hlt hk => ⟨hrefused k hlt hk, (hlongest.stopped hlt hk).2⟩, fun k => ?_,
    fun j k fault hjk hfault => ?_⟩
  · have hk : k < uses.length := (List.getElem?_eq_some_iff.1 hp).1
    constructor
    · intro hgranted
      rcases Nat.lt_trichotomy k n with hlt | rfl | hlt
      · exact hlt
      · -- the claim right after the longest beginning in order is refused
        rcases (hlongest.stops hk hp).1 with ⟨reason, hreason⟩ | ⟨q, hq, hq'⟩
        · cases hreason
        · cases hq
          rw [hgranted] at hq'
          cases hq'
      · rw [hrefused k hlt hk.le p] at hgranted
        cases hgranted
    · intro hlt
      have hclaims := hlongest.1.claims k p (getElem?_take_iff.2 ⟨hlt, hp⟩)
      rw [List.take_take, Nat.min_eq_left hlt.le, stateAt_take hlt.le] at hclaims
      exact (claim_granted_iff (hrun k hlt.le)).2 hclaims
  · have hlt : n < uses.length := (List.getElem?_eq_some_iff.1 hu).1
    exact (hlongest.stops hlt hu).1.imp_right fun ⟨p, hp, _⟩ => ⟨p, hp⟩
  · rw [stateAt_succ hp]
    exact (hrun n le_rfl).breaks
  · exact after_fault (new span) (uses.take k)
  · obtain ⟨more, hmore⟩ := stateAt_le span uses hjk
    rw [hmore, after_fault, hfault]
    rfl

end Splittable.Tracker
