import Splittable.Proofs.Coordination.Levels

/-!
# The splitting thread of a rehearsal

The thread makes one call and is held at both split checkpoints.

* `Divides`      : the thread and its level;
* `Divides.step` : a step of the thread, the last of which is the split.
-/

namespace Splittable

/-- The splitting thread of a rehearsal and its level, before it is started and from then on. -/
inductive Divides (f : Binary64) : Thread → Nat → Prop where
  | idle : Divides f .idle 0
  | calling (spot : Spot) : (∀ x, spot ≠ .held .claimVisible x) →
      Divides f ⟨.split f fun _ => .finish (.ok ()), spot, [], []⟩ spot.level
  | done (result : Except Fault Split) :
      Divides f ⟨.finish (.ok ()), .outside, [], [.split result]⟩ 12

/-- A bound for the steps of the splitting thread. -/
def Thread.splitCost (t : Thread) : Nat :=
  match t.work with
  | .split _ _ => 12 - t.spot.level
  | _ => 0

/-- What a step of the splitting thread does. -/
structure Divides.Stepped (f : Binary64) (s : Signals) (t : Thread) (n : Nat) (s' : Signals)
    (t' : Thread) (n' : Nat) : Prop where
  threads : s'.threads = s.threads.set 1 t'
  divides : Divides f t' n'
  advance : Advance s.controlled 1 s.gates n s'.gates n'
  cost : t'.splitCost < t.splitCost
  tracker : n' ≤ 11 ∧ s'.tracker = s.tracker ∨
    n = 11 ∧ n' = 12 ∧ s'.tracker = (s.tracker.split f).2 ∧
      t'.answers = [.split (s.tracker.split f).1]

/-- **Every step of the splitting thread** keeps its level or raises it; the last one splits the
tracker. -/
theorem Divides.step {f : Binary64} {s s' : Signals} {t : Thread} {n : Nat} (h : Divides f t n)
    (hsuits : t.spot.Suits s.block t.work) (hmove : s.Moves 1 t s') :
    ∃ t' n', Stepped f s t n s' t' n' := by
  cases h with
  | idle | done => cases hmove <;> simp_all [Thread.idle, Thread.start, Work.IsCall]
  | calling spot hspot =>
    cases hmove with
    | emit hs hw | look hs hw | claim hs hw => cases hw
    | call hs =>
      cases hs
      exact ⟨_, _, rfl, .calling _ (by simp [Signals.callSpot]),
        .quiet (Or.inr ⟨rfl, Or.inr (Or.inl rfl)⟩), (by decide : 10 < 11),
        Or.inl ⟨(by decide : 2 ≤ 11), rfl⟩⟩
    | @pass c x g y hs hg =>
      cases hs
      have hrises := hg.levelAt_lt c
      have hsplit : c.side = 1 ∧ c.entry ≤ 7 ∧ (c.spot y).level = c.levelAt y := by
        cases c with
        | claimStarted | claimLocked =>
          obtain ⟨next, hnext⟩ := hsuits
          cases hnext
        | claimVisible => exact absurd rfl (hspot x)
        | splitStarted | splitLocked => exact ⟨rfl, by decide, Checkpoint.level_spot (by simp) y⟩
      obtain ⟨hside, hentry, hlevel⟩ := hsplit
      refine ⟨_, _, rfl, .calling (c.spot y) ?_, ?_, ?_, Or.inl ⟨by omega, rfl⟩⟩
      · refine Checkpoint.spot_ne c ?_ y
        rintro rfl
        cases hside
      · rw [hlevel]
        exact .pass hside rfl hg
      · show 12 - (c.spot y).level < 12 - (c.entry + x.rank)
        omega
    | lock hs hl =>
      cases hs
      exact ⟨_, _, rfl, .calling _ (by simp [Signals.lockedSpot]),
        .quiet (Or.inr ⟨rfl, Or.inr (Or.inr (Or.inl rfl))⟩), (by decide : 5 < 6),
        Or.inl ⟨(by decide : 7 ≤ 11), rfl⟩⟩
    | split hs hw =>
      cases hs
      cases hw
      exact ⟨_, _, rfl, .done _, .quiet (Or.inr ⟨rfl, Or.inr (Or.inr (Or.inr rfl))⟩),
        (by decide : 0 < 1), Or.inr ⟨rfl, rfl, rfl, rfl⟩⟩

namespace Divides

variable {f : Binary64} {t : Thread} {n : Nat} {block : Offset}

theorem idle_of_zero (h : Divides f t 0) : t = .idle := by
  generalize hn : 0 = n at h
  cases h with
  | idle => rfl
  | done => cases hn
  | calling spot =>
    cases spot with
    | outside | locking | inside => cases hn
    | held c x => cases c <;> simp [Spot.level, Checkpoint.entry] at hn <;> omega

theorem level_of_held {c : Checkpoint} {x : Passage} (h : Divides f t n)
    (hsuits : t.spot.Suits block t.work) (hs : t.spot = .held c x) :
    c.side = 1 ∧ n = c.entry + x.rank := by
  cases h with
  | idle | done => cases hs
  | calling spot hspot =>
    cases hs
    cases c with
    | splitStarted | splitLocked => exact ⟨rfl, rfl⟩
    | claimVisible => exact absurd rfl (hspot x)
    | claimStarted | claimLocked =>
      obtain ⟨next, hnext⟩ := hsuits
      cases hnext

/-- The call is under way until it has taken effect. -/
theorem level_of_not_over (h : Divides f t n) (hsuits : t.spot.Suits block t.work)
    (hover : t.isOver = false) : 1 ≤ n ∧ n ≤ 11 := by
  cases h with
  | idle | done => cases hover
  | calling spot hspot =>
    cases spot with
    | outside | locking | inside => decide
    | held c x =>
      have hx := x.rank_le
      cases c with
      | splitStarted | splitLocked =>
        simp only [Spot.level, Checkpoint.entry]
        omega
      | claimVisible => exact absurd rfl (hspot x)
      | claimStarted | claimLocked =>
        obtain ⟨next, hnext⟩ := hsuits
        cases hnext

theorem level_of_over (h : Divides f t n) (hover : t.isOver = true) : n = 0 ∨ n = 12 := by
  cases h with
  | idle => exact Or.inl rfl
  | done => exact Or.inr rfl
  | calling => cases hover

theorem level_of_waiting (h : Divides f t n)
    (hs : t.spot = .locking ∨ t.spot = .outside ∧ ∃ next, t.work = .inspect next) : n = 6 := by
  cases h with
  | idle | done => rcases hs with hs | ⟨_, next, hs⟩ <;> cases hs
  | calling =>
    rcases hs with hs | ⟨_, next, hs⟩
    · cases hs
      rfl
    · cases hs

end Divides

end Splittable
