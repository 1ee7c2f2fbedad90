import Mathlib.Data.List.Defs
import Splittable.Proofs.Coordination.Levels

/-!
# What is ahead of the director

The director goes through the cues of a script from the first to the last and branches once, so
there are finitely many lists of cues it can have left.  What has to hold of each of them for the
threads to meet the director at every checkpoint is checked here, list by list.

* `Cue.stages`     : the lists of cues that can be left;
* `Cue.ahead`      : what is still awaited and released from there;
* `stage_await_own` : whoever is awaited is not kept waiting by a later cue;
* `stage_effect`   : where the processing thread is held when the split takes effect.
-/

namespace Splittable

namespace Cue

/-- What is still awaited and released.  The claim checkpoints count as ahead for good once they are
skipped. -/
def ahead (cues : List Cue) (skips : Bool) : List Cue :=
  cues.flatMap (fun cue => if cue = .passClaimIfReached then passClaim else [cue]) ++
    if skips then passClaim else []

/-- The cues that can be left, with whether the claim checkpoints are skipped. -/
def stages : Interleaving → List (List Cue × Bool)
  | .nonBlocking =>
    (script .nonBlocking).tails.map (·, false) ++
      (passClaim ++ [Cue.joinProcessing]).tails.map (·, false) ++
      [Cue.startProcessing, .passClaimIfReached, .joinProcessing].tails.map (·, true)
  | order => (script order).tails.map (·, false)

/-- The same checkpoints are awaited and released. -/
def Agree (cues cues' : List Cue) : Prop :=
  ∀ c ∈ Checkpoint.all, (.await c ∈ cues ↔ .await c ∈ cues') ∧
    (.release c ∈ cues ↔ .release c ∈ cues')

instance (cues cues' : List Cue) : Decidable (Agree cues cues') :=
  inferInstanceAs (Decidable (∀ c ∈ Checkpoint.all, _))

/-- The cue that starts a thread. -/
def startOf : Nat → Cue
  | 0 => .startProcessing
  | _ => .startSplitting

end Cue

theorem Checkpoint.mem_all (c : Checkpoint) : c ∈ all := by
  cases c <;> decide

/-- The checkpoints of a thread before the lock and under it. -/
def Checkpoint.startedOf : Nat → Checkpoint
  | 0 => .claimStarted
  | _ => .splitStarted

def Checkpoint.lockedOf : Nat → Checkpoint
  | 0 => .claimLocked
  | _ => .splitLocked

theorem Checkpoint.startedOf_side (c : Checkpoint) :
    (startedOf c.side).side = c.side ∧ (startedOf c.side).entry = 2 := by
  cases c <;> decide

theorem Checkpoint.lockedOf_side (c : Checkpoint) :
    (lockedOf c.side).side = c.side ∧ (lockedOf c.side).entry = 7 := by
  cases c <;> decide

namespace Cue

open Checkpoint

variable (order : Interleaving)

theorem stage_script : (script order, false) ∈ stages order ∧
    (∀ c ∈ all, .await c ∈ ahead (script order) false ∧ .release c ∈ ahead (script order) false) ∧
    .startProcessing ∈ script order ∧ .startSplitting ∈ script order ∧
    .joinSplitting ∈ script order ∧ .joinProcessing ∈ script order := by
  cases order <;> decide

/-! ## Starting and joining the threads -/

theorem stage_startProcessing :
    ∀ st ∈ stages order, st.1.head? = some .startProcessing →
      (st.1.tail, st.2) ∈ stages order ∧ .startProcessing ∉ st.1.tail ∧
        .joinProcessing ∈ st.1.tail ∧ Agree (ahead st.1.tail st.2) (ahead st.1 st.2) := by
  cases order <;> decide

theorem stage_startSplitting :
    ∀ st ∈ stages order, st.1.head? = some .startSplitting →
      (st.1.tail, st.2) ∈ stages order ∧ .startSplitting ∉ st.1.tail ∧
        .joinSplitting ∈ st.1.tail ∧ Agree (ahead st.1.tail st.2) (ahead st.1 st.2) := by
  cases order <;> decide

/-- The splitting thread is joined when nothing keeps it: it had the lock before, and everything of
its own is released. -/
theorem stage_joinSplitting :
    ∀ st ∈ stages order, st.1.head? = some .joinSplitting →
      st.2 = false ∧ .joinSplitting ∉ st.1.tail ∧ .startSplitting ∉ st.1 ∧
        .await .splitLocked ∉ ahead st.1 false ∧
        .release .splitStarted ∉ ahead st.1 false ∧ .release .splitLocked ∉ ahead st.1 false := by
  cases order <;> decide

/-- Only a director who lets the split go first can skip the claim checkpoints. -/
theorem stage_joinSplitting_next :
    ∀ st ∈ stages order, st.1.head? = some .joinSplitting →
      ∀ skips, (skips = true → order = .nonBlocking) →
        (st.1.tail, skips) ∈ stages order ∧ Agree (ahead st.1.tail skips) (ahead st.1 false) := by
  cases order <;> decide

theorem stage_passClaim :
    ∀ st ∈ stages order, st.1.head? = some .passClaimIfReached →
      .joinSplitting ∉ st.1 ∧
      (st.2 = false → (passClaim ++ st.1.tail, st.2) ∈ stages order ∧
        Agree (ahead (passClaim ++ st.1.tail) st.2) (ahead st.1 st.2)) ∧
      (st.2 = true → (st.1.tail, st.2) ∈ stages order ∧
        Agree (ahead st.1.tail st.2) (ahead st.1 st.2)) ∧
      .startProcessing ∉ st.1 ∧ .startSplitting ∉ st.1 ∧ .joinProcessing ∈ st.1.tail := by
  cases order <;> decide

/-- The processing thread is joined last, when nothing of either thread is ahead that is not
skipped. -/
theorem stage_joinProcessing :
    ∀ st ∈ stages order, st.1.head? = some .joinProcessing →
      st.1.tail = [] ∧ (st.1.tail, st.2) ∈ stages order ∧ .startProcessing ∉ st.1 ∧
        Agree (ahead st.1.tail st.2) (ahead st.1 st.2) ∧
        ∀ d ∈ all, .release d ∈ ahead st.1 st.2 → d.side = 0 ∧ st.2 = true := by
  cases order <;> decide

/-! ## Awaiting and releasing checkpoints -/

theorem stage_await_next (c : Checkpoint) :
    ∀ st ∈ stages order, st.1.head? = some (.await c) →
      (st.1.tail, st.2) ∈ stages order ∧
      .await c ∉ ahead st.1.tail st.2 ∧ .await c ∈ ahead st.1 st.2 ∧
      (∀ d ∈ all, d ≠ c → (.await d ∈ ahead st.1.tail st.2 ↔ .await d ∈ ahead st.1 st.2)) ∧
      ∀ d ∈ all, .release d ∈ ahead st.1.tail st.2 ↔ .release d ∈ ahead st.1 st.2 := by
  cases order <;> cases c <;> decide

theorem stage_await_started (c : Checkpoint) :
    ∀ st ∈ stages order, st.1.head? = some (.await c) →
      startOf c.side ∉ st.1 ∧ st.2 = false ∧
        (c.side = 0 → order = .nonBlocking → .joinSplitting ∉ st.1) := by
  cases order <;> cases c <;> decide

theorem stage_await_own (c : Checkpoint) :
    ∀ st ∈ stages order, st.1.head? = some (.await c) →
      ∀ d ∈ all, d.side = c.side → .release d ∈ ahead st.1 st.2 → c.entry ≤ d.entry := by
  cases order <;> cases c <;> decide

/-- A thread that is awaited does not wait for the lock while the other one is held under it. -/
theorem stage_await_other (c : Checkpoint) :
    ∀ st ∈ stages order, st.1.head? = some (.await c) →
      ∀ d ∈ [Checkpoint.claimLocked, .splitLocked], d.side ≠ c.side →
        .release d ∈ ahead st.1 st.2 → .release (startedOf d.side) ∈ ahead st.1 st.2 ∨
          .await (lockedOf c.side) ∉ ahead st.1 st.2 ∨ c = .splitStarted := by
  cases order <;> cases c <;> decide

theorem stage_release_next (c : Checkpoint) :
    ∀ st ∈ stages order, st.1.head? = some (.release c) →
      (st.1.tail, st.2) ∈ stages order ∧ .release c ∉ ahead st.1.tail st.2 ∧
      .release c ∈ ahead st.1 st.2 ∧
      (∀ d ∈ all, .await d ∈ ahead st.1.tail st.2 ↔ .await d ∈ ahead st.1 st.2) ∧
      ∀ d ∈ all, d ≠ c →
        (.release d ∈ ahead st.1.tail st.2 ↔ .release d ∈ ahead st.1 st.2) := by
  cases order <;> cases c <;> decide

/-! ## When the split takes effect -/

/-- Where the order holds the processing thread once the split is released under the lock: not
started, at its last checkpoint, or between its first one and the effect of the claim. -/
theorem stage_effect :
    ∀ st ∈ stages order, .joinSplitting ∈ st.1 → .release .splitLocked ∉ ahead st.1 st.2 →
      match order with
      | .nonBlocking => .startProcessing ∈ st.1
      | .claimBlocksSplit =>
        .await .claimVisible ∉ ahead st.1 st.2 ∧ .release .claimVisible ∈ ahead st.1 st.2
      | .splitBlocksClaim =>
        .await .claimStarted ∉ ahead st.1 st.2 ∧ .release .claimLocked ∈ ahead st.1 st.2 := by
  cases order <;> decide

end Cue

/-! ## Tokens that the director takes and puts -/

namespace Signals

variable {s : Signals} {c : Checkpoint} {result : Except ControlError Signals}

theorem await?_iff (h : s.closed = false) : s.await? c = some result ↔
    (s.gates.get c).arrival = true ∧
      result = .ok { s with gates := s.gates.set c { s.gates.get c with arrival := false } } := by
  simp only [await?, h]
  cases (s.gates.get c).arrival <;> simp [eq_comm]

theorem release?_iff (h : s.closed = false) : s.release? c = some result ↔
    (s.gates.get c).release = false ∧
      result = .ok { s with gates := s.gates.set c { s.gates.get c with release := true } } := by
  simp only [release?, h]
  cases (s.gates.get c).release <;> simp [eq_comm]

end Signals

namespace Tokens

variable {gates : Gates} {ahead ahead' : List Cue} {levels : Nat → Nat} {c : Checkpoint}

theorem of_agree (h : Tokens gates ahead levels) (ha : Cue.Agree ahead' ahead) :
    Tokens gates ahead' levels := by
  intro c
  obtain ⟨hawait, hrelease⟩ := ha c c.mem_all
  rw [hawait, hrelease]
  exact h c

theorem await (h : Tokens gates ahead levels) (harrival : (gates.get c).arrival = true)
    (hc : .await c ∉ ahead')
    (hawait : ∀ d ∈ Checkpoint.all, d ≠ c → (.await d ∈ ahead' ↔ .await d ∈ ahead))
    (hrelease : ∀ d ∈ Checkpoint.all, .release d ∈ ahead' ↔ .release d ∈ ahead) :
    Tokens (gates.set c { gates.get c with arrival := false }) ahead' levels := by
  intro d
  rw [hrelease d d.mem_all]
  by_cases hd : c = d
  · subst hd
    rw [Gates.get_set]
    have hfollows := h c
    exact ⟨iff_of_false Bool.false_ne_true fun hnot => hc hnot.1, hfollows.release,
      fun _ => (hfollows.arrival.1 harrival).2, hfollows.unreleased⟩
  · rw [Gates.get_set_of_ne _ _ hd, hawait d d.mem_all (Ne.symm hd)]
    exact h d

theorem release (h : Tokens gates ahead levels) (hc : .release c ∈ ahead)
    (hc' : .release c ∉ ahead')
    (hawait : ∀ d ∈ Checkpoint.all, .await d ∈ ahead' ↔ .await d ∈ ahead)
    (hrelease : ∀ d ∈ Checkpoint.all, d ≠ c → (.release d ∈ ahead' ↔ .release d ∈ ahead)) :
    Tokens (gates.set c { gates.get c with release := true }) ahead' levels := by
  intro d
  rw [hawait d d.mem_all]
  by_cases hd : c = d
  · subst hd
    rw [Gates.get_set]
    have hfollows := h c
    exact ⟨hfollows.arrival, iff_of_true rfl ⟨hc', hfollows.unreleased hc⟩, hfollows.awaited,
      fun hnot => absurd hnot hc'⟩
  · rw [Gates.get_set_of_ne _ _ hd, hrelease d d.mem_all (Ne.symm hd)]
    exact h d

/-- **A release never finds its slot full.** -/
theorem release_free (h : Tokens gates ahead levels) (hc : .release c ∈ ahead) :
    (gates.get c).release = false := by
  cases hfull : (gates.get c).release with
  | false => rfl
  | true => exact absurd hc ((h c).release.1 hfull).1

end Tokens

end Splittable
