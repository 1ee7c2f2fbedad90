import Splittable.Coordination.Rehearsal
import Splittable.Proofs.Coordination.Coherence
import Mathlib.Logic.Function.Basic
import Mathlib.Tactic.ByContra

/-!
# How far the threads have come

The processing thread of a rehearsal comes to the claim checkpoints once, the splitting thread to
the split checkpoints once.  The level of a thread says how far it is on that way; every step
leaves it where it is or raises it, and the tokens at a gate can be read off from the level and
from the cues that are ahead.

* `Gate.Follows`, `Tokens` : the tokens at the gates;
* `Advance`                : what a step of a thread does to its level and to the gates;
* `Tokens.advance`         : the tokens follow the levels.
-/

namespace Splittable

/-! ## Levels -/

/-- The level of a thread that comes to a checkpoint. -/
def Checkpoint.entry : Checkpoint → Nat
  | .claimStarted | .splitStarted => 2
  | .claimLocked | .splitLocked => 7
  | .claimVisible => 12

/-- The thread that comes to a checkpoint in a rehearsal. -/
def Checkpoint.side : Checkpoint → Nat
  | .claimStarted | .claimLocked | .claimVisible => Performance.processing
  | .splitStarted | .splitLocked => Performance.splitting

def Passage.rank : Passage → Nat
  | .toArrive => 0
  | .arriving => 1
  | .toLeave => 2
  | .leaving => 3

/-- The level of a thread after a step through the gate of a checkpoint. -/
def Checkpoint.levelAt (c : Checkpoint) : Option Passage → Nat
  | some x => c.entry + x.rank
  | none => c.entry + 4

/-- The level of a thread in a call that is held. -/
def Spot.level : Spot → Nat
  | .outside => 1
  | .held c x => c.entry + x.rank
  | .locking => 6
  | .inside => 11

theorem Gate.Moves.levelAt_lt {controlled : Bool} {i : Nat} {g g' : Gate} {x : Passage}
    {y : Option Passage} (h : Gate.Moves controlled i g x g' y) (c : Checkpoint) :
    c.entry + x.rank < c.levelAt y ∧ c.levelAt y ≤ c.entry + 4 := by
  cases h <;> simp [Checkpoint.levelAt, Passage.rank]

theorem Checkpoint.level_spot {c : Checkpoint} (h : c ≠ .claimVisible) (y : Option Passage) :
    (c.spot y).level = c.levelAt y := by
  cases y with
  | some y => rfl
  | none => cases c <;> first | rfl | exact absurd rfl h

theorem Passage.rank_le (x : Passage) : x.rank ≤ 3 := by
  cases x <;> simp [rank]

/-! ## Tokens -/

/-- The tokens at the gate of a checkpoint that is entered at `entry`, by the level of its thread
and by what the director still does there. -/
structure Gate.Follows (g : Gate) (awaits releases : Prop) (entry level : Nat) : Prop where
  arrival : g.arrival = true ↔ awaits ∧ entry + 2 ≤ level
  release : g.release = true ↔ ¬ releases ∧ level ≤ entry + 3
  awaited : ¬ awaits → entry + 2 ≤ level
  unreleased : releases → level ≤ entry + 3

namespace Gate.Follows

variable {g g' : Gate} {awaits releases : Prop} {entry level level' : Nat}

theorem quiet (h : g.Follows awaits releases entry level)
    (harrival : entry + 2 ≤ level' ↔ entry + 2 ≤ level)
    (hrelease : level' ≤ entry + 3 ↔ level ≤ entry + 3) : g.Follows awaits releases entry level' :=
  ⟨by rw [harrival]; exact h.arrival, by rw [hrelease]; exact h.release,
    by rw [harrival]; exact h.awaited, by rw [hrelease]; exact h.unreleased⟩

/-- A step through the gate takes and leaves the tokens that go with it. -/
theorem move {i : Nat} {x : Passage} {y : Option Passage}
    (h : g.Follows awaits releases entry (entry + x.rank)) (hg : Gate.Moves true i g x g' y) :
    g'.Follows awaits releases entry (match y with | some y => entry + y.rank | none => entry + 4)
    := by
  cases hg with
  | skip hc | escape hc => cases hc
  | queue =>
    have hnext : g.Follows awaits releases entry (entry + 1) :=
      h.quiet (by simp [Passage.rank]) (by simp [Passage.rank])
    exact ⟨hnext.arrival, hnext.release, hnext.awaited, hnext.unreleased⟩
  | turn =>
    have hnext : g.Follows awaits releases entry (entry + 3) :=
      h.quiet (by simp [Passage.rank]) (by simp [Passage.rank])
    exact ⟨hnext.arrival, hnext.release, hnext.awaited, hnext.unreleased⟩
  | arrive =>
    have hawaits : awaits := by
      by_contra hnot
      have hlevel := h.awaited hnot
      simp only [Passage.rank] at hlevel
      omega
    refine ⟨iff_of_true rfl ⟨hawaits, Nat.le_refl _⟩, ?_, fun _ => Nat.le_refl _, ?_⟩
    · have hrelease := h.release
      simp only [Passage.rank] at hrelease ⊢
      rw [hrelease]
      simp
    · intro _
      simp [Passage.rank]
  | leave hr =>
    have hnot := (h.release.1 hr).1
    refine ⟨?_, iff_of_false (by simp) (by simp), fun _ => by simp, fun hrel => absurd hrel hnot⟩
    have harrival := h.arrival
    simp only [Passage.rank] at harrival ⊢
    rw [harrival]
    simp

end Gate.Follows

/-- The tokens at all gates. -/
def Tokens (gates : Gates) (ahead : List Cue) (levels : Nat → Nat) : Prop :=
  ∀ c, (gates.get c).Follows (.await c ∈ ahead) (.release c ∈ ahead) c.entry (levels c.side)

/-- What a step of the thread `i` at the level `n` does to the gates and the level. -/
inductive Advance (controlled : Bool) (i : Nat) (gates : Gates) (n : Nat) : Gates → Nat → Prop where
  | quiet {n' : Nat} : n' = n ∨ n' = n + 1 ∧ (n = 0 ∨ n = 1 ∨ n = 6 ∨ n = 11) →
      Advance controlled i gates n gates n'
  | pass {c : Checkpoint} {x : Passage} {g : Gate} {y : Option Passage} : c.side = i →
      n = c.entry + x.rank → Gate.Moves controlled i (gates.get c) x g y →
      Advance controlled i gates n (gates.set c g) (c.levelAt y)

theorem Advance.le {controlled : Bool} {i n n' : Nat} {gates gates' : Gates}
    (h : Advance controlled i gates n gates' n') : n ≤ n' := by
  cases h with
  | quiet hn => omega
  | @pass c x g y _ hn hg =>
    rw [hn]
    exact Nat.le_of_lt (hg.levelAt_lt c).1

theorem Tokens.advance {gates gates' : Gates} {ahead : List Cue} {levels : Nat → Nat} {i n : Nat}
    (h : Tokens gates ahead levels) (ha : Advance true i gates (levels i) gates' n) :
    Tokens gates' ahead (Function.update levels i n) := by
  intro d
  have hd := h d
  by_cases hi : d.side = i
  · subst hi
    rw [Function.update_self]
    cases ha with
    | quiet hn =>
      apply hd.quiet <;> cases d <;> simp only [Checkpoint.entry] <;>
        constructor <;> intro hle <;> omega
    | @pass c x g y hside hx hg =>
      by_cases hcd : c = d
      · subst hcd
        rw [Gates.get_set]
        rw [hx] at hd
        have := hd.move hg
        cases y <;> exact this
      · rw [Gates.get_set_of_ne _ _ hcd]
        -- the levels of two gates on the same way do not meet
        apply hd.quiet <;> rw [hx] <;> cases c <;> cases d <;>
          first
          | exact absurd rfl hcd
          | exact absurd hside (by decide)
          | (cases hg <;> simp [Checkpoint.levelAt, Checkpoint.entry, Passage.rank])
  · rw [Function.update_of_ne hi]
    cases ha with
    | quiet => exact hd
    | @pass c x g y hside hx hg =>
      have hcd : c ≠ d := by
        rintro rfl
        exact hi hside
      rw [Gates.get_set_of_ne _ _ hcd]
      exact hd

end Splittable
