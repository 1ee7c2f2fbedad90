import Splittable.Proofs.Coordination.Levels
import Splittable.Proofs.Tracker.Counting

/-!
# The processing thread of a rehearsal

The thread counts through the span and is held on its way at the claim of the block position only.
Its level, what is left of its work and the tracker belong together; a split that comes in between
changes nothing but the end of the span.

* `Processes`       : the thread, its level and the tracker;
* `Processes.step`  : a step of the thread;
* `Processes.split` : a split of the tracker by somebody else;
* `reached`, `visible`, `early`, `finished` : what a level says about the tracker.
-/

namespace Splittable

/-! ## Levels and costs -/

/-- The offset that a count claims next, one past the span when it is over. -/
def Work.upcoming (span : Span) : Work Offset → Int
  | .inspect _ => span.start.toInt
  | .claim p _ => p.toInt
  | .emit p _ => p.toInt + 1
  | .finish _ | .split _ _ => span.stop.toInt + 1

@[simp] theorem Work.upcoming_inspect (span : Span) (next : Tracker → Work Offset) :
    (Work.inspect next).upcoming span = span.start.toInt := rfl

@[simp] theorem Work.upcoming_claim (span : Span) (p : Offset) (next : Bool → Work Offset) :
    (Work.claim p next).upcoming span = p.toInt := rfl

@[simp] theorem Work.upcoming_emit (span : Span) (p : Offset) (next : Work Offset) :
    (Work.emit p next).upcoming span = p.toInt + 1 := rfl

@[simp] theorem Work.upcoming_finish (span : Span) (result : Except Chain Unit) :
    (Work.finish result : Work Offset).upcoming span = span.stop.toInt + 1 := rfl

/-- The level of the processing thread at a spot, before it claims `upcoming`: only the claim of
`block` goes through the gates. -/
def Spot.claimLevel (upcoming block : Int) (spot : Spot) : Nat :=
  if upcoming < block then 1
  else if upcoming = block then spot.level
  else match spot with
    | .held c x => c.entry + x.rank
    | _ => 16

def Thread.claimLevel (span : Span) (block : Offset) (t : Thread) : Nat :=
  t.spot.claimLevel (t.work.upcoming span) block.toInt

/-- The steps that are left of a claim at a spot, its output not counted. -/
def Spot.share : Spot → Int
  | .inside => 1
  | .locking | .held .claimLocked _ => 2
  | _ => 3

def Thread.share (t : Thread) : Int :=
  match t.work with
  | .claim _ _ => t.spot.share
  | _ => 4

/-- A bound for the steps of the processing thread: four for each offset, and those through the
gates. -/
def Thread.claimCost (span : Span) (block : Offset) (t : Thread) : Nat :=
  (4 * (span.stop.toInt - t.work.upcoming span) + t.share).toNat + (16 - t.claimLevel span block)

/-- The processing thread of a rehearsal and its level, before it is started and from then on. -/
inductive Processes (start block : Offset) (tracker : Tracker) : Thread → Nat → Prop where
  | idle : tracker = .new ⟨start, tracker.span.stop⟩ → Processes start block tracker .idle 0
  | counting {t : Thread} : Counting start tracker.span.stop t.work t.emitted tracker →
      (∀ x, t.spot = .held .claimVisible x → t.work.upcoming tracker.span = block.toInt + 1) →
      Processes start block tracker t (t.claimLevel tracker.span block)

@[simp] theorem Spot.claimLevel_self (spot : Spot) (block : Int) :
    spot.claimLevel block block = spot.level := by
  simp [claimLevel]

/-- Whether a thread at the spot is at no gate. -/
def Spot.isFree : Spot → Bool
  | .held _ _ => false
  | _ => true

theorem Spot.claimLevel_free {spot spot' : Spot} {upcoming block : Int} (hne : upcoming ≠ block)
    (h : spot.isFree = true) (h' : spot'.isFree = true) :
    spot.claimLevel upcoming block = spot'.claimLevel upcoming block := by
  cases spot <;> cases spot' <;> simp_all [claimLevel, isFree]

theorem Spot.claimLevel_next {upcoming block : Int} (hne : upcoming ≠ block) :
    Spot.outside.claimLevel (upcoming + 1) block = Spot.inside.claimLevel upcoming block := by
  unfold claimLevel
  by_cases hlt : upcoming < block
  · by_cases hnext : upcoming + 1 = block
    · simp [hlt, hnext, level]
    · have hbelow : upcoming + 1 < block := by omega
      simp [hlt, hbelow]
  · have h₁ : ¬ upcoming + 1 < block := by omega
    have h₂ : upcoming + 1 ≠ block := by omega
    simp [hlt, hne, h₁, h₂]

theorem Spot.claimLevel_visible (block : Int) (y : Option Passage) :
    (Checkpoint.claimVisible.spot y).claimLevel (block + 1) block =
      Checkpoint.claimVisible.levelAt y := by
  have h₁ : ¬ block + 1 < block := by omega
  have h₂ : block + 1 ≠ block := by omega
  simp only [claimLevel, h₁, h₂, if_false]
  cases y <;> rfl

theorem Processes.begin {start block : Offset} {tracker : Tracker} (hblock : start ≤ block)
    (htracker : tracker = .new ⟨start, tracker.span.stop⟩) (hstop : start ≤ tracker.span.stop) :
    Processes start block tracker (.start .count) 1 := by
  have hcounting : Counting start tracker.span.stop .count [] tracker := by
    have hnew := Counting.count_new hstop
    rw [← htracker] at hnew
    exact hnew
  have hstart : tracker.span.start = start := congrArg Span.start hcounting.span_eq
  have hlevel : (Thread.start .count).claimLevel tracker.span block = 1 := by
    have hle := Offset.le_iff.1 hblock
    simp only [Thread.claimLevel, Thread.start, Work.count, Work.upcoming_inspect, hstart]
    by_cases hlt : start.toInt < block.toInt
    · simp [Spot.claimLevel, hlt]
    · have heq : start.toInt = block.toInt := by omega
      rw [heq, Spot.claimLevel_self]
      rfl
  rw [← hlevel]
  exact .counting hcounting fun _ hvisible => by cases hvisible

theorem Thread.claimCost_lt {span : Span} {block : Offset} {t t' : Thread}
    (hupcoming : t'.work.upcoming span = t.work.upcoming span) (hshare : t'.share ≤ t.share)
    (hlt : t.claimLevel span block < t'.claimLevel span block)
    (hle : t'.claimLevel span block ≤ 16) :
    t'.claimCost span block < t.claimCost span block := by
  unfold claimCost
  rw [hupcoming]
  omega

/-- What a step of the processing thread does. -/
structure Processes.Stepped (start : Offset) (s : Signals) (t : Thread) (n : Nat) (s' : Signals)
    (t' : Thread) (n' : Nat) : Prop where
  threads : s'.threads = s.threads.set 0 t'
  span : s'.tracker.span = s.tracker.span
  processes : Processes start s.block s'.tracker t' n'
  advance : Advance s.controlled 0 s.gates n s'.gates n'
  cost : t'.claimCost s'.tracker.span s.block < t.claimCost s.tracker.span s.block

namespace Processes

variable {start : Offset} {s : Signals} {t : Thread} {n : Nat} {emitted : List Offset}
  {answers : List Answer}

theorem stepped_emit {p : Offset} {next : Work Offset}
    (h : Counting start s.tracker.span.stop (.emit p next) emitted s.tracker) :
    let t : Thread := ⟨.emit p next, .outside, emitted, answers⟩
    let t' : Thread := ⟨next, .outside, emitted ++ [p], answers⟩
    Stepped start s t (t.claimLevel s.tracker.span s.block) (s.put 0 t') t'
      (t'.claimLevel s.tracker.span s.block) := by
  obtain ⟨h₁, h₂, ht, after, rfl⟩ := h.of_emit
  have hnext := Offset.toInt_add_one h₂
  have hlt := Offset.lt_iff.1 h₂
  refine ⟨rfl, rfl, .counting h.emit (by simp), .quiet (Or.inl ?_), ?_⟩
  · simp only [Thread.claimLevel, Work.upcoming_claim, Work.upcoming_emit, hnext]
  · simp only [Thread.claimCost, Thread.claimLevel, Work.upcoming_claim, Work.upcoming_emit,
      hnext, Thread.share, Signals.put, Spot.share]
    omega

theorem stepped_look {next : Tracker → Work Offset}
    (h : Counting start s.tracker.span.stop (.inspect next) emitted s.tracker) :
    let t : Thread := ⟨.inspect next, .outside, emitted, answers⟩
    let t' : Thread := ⟨next s.tracker, .outside, emitted, answers⟩
    Stepped start s t (t.claimLevel s.tracker.span s.block) (s.put 0 t') t'
      (t'.claimLevel s.tracker.span s.block) := by
  obtain ⟨after, hafter⟩ := h.of_inspect
  have hle := Offset.le_iff.1 h.le
  have hstart : s.tracker.span.start = start := congrArg Span.start h.span_eq
  refine ⟨rfl, rfl, .counting h.inspect (by simp), .quiet (Or.inl ?_), ?_⟩
  · simp only [Thread.claimLevel, hafter, Work.upcoming_claim, Work.upcoming_inspect, hstart]
  · simp only [Thread.claimCost, Thread.claimLevel, Work.upcoming_claim, Work.upcoming_inspect,
      hafter, Thread.share, Signals.put, hstart, Spot.share]
    omega

/-- The claim of the block position goes on to the next spot of a held call, any other claim to
the next spot without a gate. -/
theorem stepped_approach {p : Offset} {next : Bool → Work Offset} {spot spot' : Spot} {s' : Signals}
    (h : Counting start s.tracker.span.stop (.claim p next) emitted s.tracker)
    (hat : p = s.block → spot'.level = spot.level + 1 ∧ (spot.level = 1 ∨ spot.level = 6) ∧
      spot'.share ≤ spot.share)
    (hapart : p ≠ s.block → spot.isFree = true ∧ spot'.isFree = true ∧ spot'.share < spot.share)
    (hvisible : ∀ x, spot' ≠ .held .claimVisible x) (hshare : 0 < spot.share)
    (hthreads : s'.threads = s.threads.set 0 ⟨.claim p next, spot', emitted, answers⟩)
    (htracker : s'.tracker = s.tracker) (hgates : s'.gates = s.gates) :
    let t : Thread := ⟨.claim p next, spot, emitted, answers⟩
    let t' : Thread := ⟨.claim p next, spot', emitted, answers⟩
    Stepped start s t (t.claimLevel s.tracker.span s.block) s' t'
      (t'.claimLevel s.tracker.span s.block) := by
  obtain ⟨h₁, h₂, ht, _⟩ := h.of_claim
  have hstop := Offset.le_iff.1 h₂
  refine ⟨hthreads, by rw [htracker], ?_, ?_, ?_⟩
  · rw [htracker]
    exact .counting h fun x hx => absurd hx (hvisible x)
  · rw [hgates]
    refine .quiet ?_
    by_cases hp : p = s.block
    · obtain ⟨hlevel, hentry, _⟩ := hat hp
      subst hp
      simp only [Thread.claimLevel, Work.upcoming_claim, Spot.claimLevel_self]
      omega
    · obtain ⟨hfree, hfree', _⟩ := hapart hp
      exact Or.inl (Spot.claimLevel_free (fun h => hp (Offset.eq_iff.2 h)) hfree' hfree)
  · rw [htracker]
    by_cases hp : p = s.block
    · obtain ⟨hlevel, hentry, hless⟩ := hat hp
      subst hp
      simp only [Thread.claimCost, Thread.claimLevel, Work.upcoming_claim, Spot.claimLevel_self,
        Thread.share]
      omega
    · obtain ⟨hfree, hfree', hless⟩ := hapart hp
      have hlevel := Spot.claimLevel_free (fun h => hp (Offset.eq_iff.2 h)) hfree' hfree
      simp only [Thread.claimCost, Thread.claimLevel, Work.upcoming_claim, Thread.share, hlevel]
      omega

theorem stepped_pass {c : Checkpoint} {x : Passage} {g : Gate} {y : Option Passage}
    {work : Work Offset} (h : Counting start s.tracker.span.stop work emitted s.tracker)
    (hvisible : ∀ x', Spot.held c x = .held .claimVisible x' →
      work.upcoming s.tracker.span = s.block.toInt + 1)
    (hsuits : (Spot.held c x).Suits s.block work)
    (hg : Gate.Moves s.controlled 0 (s.gates.get c) x g y) :
    let t : Thread := ⟨work, .held c x, emitted, answers⟩
    let t' : Thread := ⟨work, c.spot y, emitted, answers⟩
    Stepped start s t (t.claimLevel s.tracker.span s.block)
      (Signals.put { s with gates := s.gates.set c g } 0 t') t'
      (t'.claimLevel s.tracker.span s.block) := by
  have hside : c.side = 0 := by
    cases c with
    | splitStarted | splitLocked =>
      obtain ⟨f, next, rfl⟩ := hsuits
      cases h
    | claimStarted | claimLocked | claimVisible => rfl
  have hlevels : ∀ z, (c.spot z).claimLevel (work.upcoming s.tracker.span) s.block.toInt =
      c.levelAt z := by
    intro z
    cases c with
    | splitStarted | splitLocked => cases hside
    | claimStarted | claimLocked =>
      obtain ⟨next, rfl⟩ := hsuits
      rw [Work.upcoming_claim, Spot.claimLevel_self, Checkpoint.level_spot (by simp)]
    | claimVisible =>
      rw [hvisible x rfl]
      exact Spot.claimLevel_visible s.block.toInt z
  have hrises := hg.levelAt_lt c
  have hentry : c.entry ≤ 12 := by cases c <;> decide
  have hold : (Spot.held c x).claimLevel (work.upcoming s.tracker.span) s.block.toInt =
      c.entry + x.rank := hlevels (some x)
  refine ⟨rfl, rfl, .counting h ?_, ?_, ?_⟩
  · intro z hz
    cases c with
    | claimVisible => exact hvisible x rfl
    | claimStarted | claimLocked | splitStarted | splitLocked =>
      exact absurd hz (Checkpoint.spot_ne _ (by simp) y z)
  · simp only [Thread.claimLevel, hlevels]
    exact .pass hside hold hg
  · refine Thread.claimCost_lt rfl ?_ ?_ ?_
    · have hshare : (c.spot y).share ≤ (Spot.held c x).share := by
        cases c <;> cases y <;> simp [Spot.share, Checkpoint.spot, Checkpoint.beyond]
      cases work <;> simp [Thread.share, hshare]
    · simp only [Thread.claimLevel, Signals.put, hlevels, hold]
      exact hrises.1
    · simp only [Thread.claimLevel, Signals.put, hlevels]
      omega

/-- The effect of a claim moves the work on by one offset, whether the claim is granted or not. -/
theorem stepped_claim {p : Offset} {next : Bool → Work Offset}
    (h : Counting start s.tracker.span.stop (.claim p next) emitted s.tracker) :
    let t : Thread := ⟨.claim p next, .inside, emitted, answers⟩
    let t' := Signals.answered t (s.claimedSpot p) (next (s.tracker.claim p).1)
      (.claimed (s.tracker.claim p).1)
    Stepped start s t (t.claimLevel s.tracker.span s.block)
      (Signals.put { s with tracker := (s.tracker.claim p).2, lock := none } 0 t') t'
      (t'.claimLevel s.tracker.span s.block) := by
  intro t t'
  obtain ⟨h₁, h₂, ht, hclaim⟩ := h.of_claim
  have hstop := Offset.le_iff.1 h₂
  have hspan : (s.tracker.claim p).2.span = s.tracker.span := Tracker.claim_span _ _
  obtain ⟨hupcoming, hshare⟩ : t'.work.upcoming s.tracker.span = p.toInt + 1 ∧ t'.share = 4 := by
    rcases hclaim with ⟨_, hclaim, after, hafter⟩ | ⟨rfl, hclaim, hafter⟩ <;>
      simp [t', Signals.answered, hclaim, hafter, Thread.share]
  have hcounting := h.claim
  rw [← hspan] at hcounting
  have hlevel : t'.claimLevel s.tracker.span s.block = t.claimLevel s.tracker.span s.block ∨
      t'.claimLevel s.tracker.span s.block = t.claimLevel s.tracker.span s.block + 1 ∧
        t.claimLevel s.tracker.span s.block = 11 := by
    unfold Thread.claimLevel
    rw [hupcoming]
    by_cases hp : p = s.block
    · subst hp
      have hspot : t'.spot = .held .claimVisible .toArrive := if_pos rfl
      have hvisible := Spot.claimLevel_visible s.block.toInt (some .toArrive)
      refine Or.inr ⟨?_, ?_⟩
      · rw [hspot, Work.upcoming_claim, Spot.claimLevel_self]
        exact hvisible
      · rw [Work.upcoming_claim, Spot.claimLevel_self]
        rfl
    · have hspot : t'.spot = .outside := if_neg hp
      rw [hspot]
      exact Or.inl (Spot.claimLevel_next fun h => hp (Offset.eq_iff.2 h))
  refine ⟨rfl, hspan, ?_, ?_, ?_⟩
  · have hvisible : ∀ x, t'.spot = .held .claimVisible x →
        t'.work.upcoming (s.tracker.claim p).2.span = s.block.toInt + 1 := by
      intro x hx
      by_cases hp : p = s.block
      · rw [hspan, hupcoming, hp]
      · have hspot : t'.spot = .outside := if_neg hp
        rw [hspot] at hx
        cases hx
    have hnew := Processes.counting hcounting hvisible
    rw [hspan] at hnew
    exact hnew
  · exact .quiet (by omega)
  · show t'.claimCost (s.tracker.claim p).2.span s.block < _
    rw [hspan]
    unfold Thread.claimCost
    rw [hupcoming, hshare]
    show _ < (4 * (s.tracker.span.stop.toInt - p.toInt) + 1).toNat + _
    omega

end Processes

open Processes in
/-- **Every step of the processing thread** keeps its level or raises it, and makes what is left of
its work shorter. -/
theorem Processes.step {start : Offset} {s s' : Signals} {t : Thread} {n : Nat}
    (h : Processes start s.block s.tracker t n) (hsuits : t.spot.Suits s.block t.work)
    (hmove : s.Moves 0 t s') : ∃ t' n', Stepped start s t n s' t' n' := by
  cases h with
  | idle => cases hmove <;> simp_all [Thread.idle, Thread.start, Work.IsCall]
  | counting hc hv =>
    obtain ⟨work, spot, emitted, answers⟩ := t
    cases hmove with
    | emit hs hw =>
      cases hs
      cases hw
      exact ⟨_, _, stepped_emit hc⟩
    | look hs hw hl =>
      cases hs
      cases hw
      exact ⟨_, _, stepped_look hc⟩
    | call hs hcall =>
      cases hs
      cases work with
      | finish | emit | inspect => cases hcall
      | split => cases hc
      | claim p next =>
        refine ⟨_, _, stepped_approach (s := s) hc ?_ ?_ ?_ (by decide) rfl rfl rfl⟩
        · intro hp
          simp [Signals.callSpot, hp, Spot.level, Checkpoint.entry, Passage.rank, Spot.share]
        · intro hp
          simp [Signals.callSpot, hp, Spot.isFree, Spot.share]
        · intro x
          by_cases hp : p = s.block <;> simp [Signals.callSpot, hp]
    | pass hs hg =>
      cases hs
      exact ⟨_, _, stepped_pass hc hv hsuits hg⟩
    | lock hs hl =>
      cases hs
      cases work with
      | finish | emit | inspect => cases hsuits
      | split => cases hc
      | claim p next =>
        refine ⟨_, _, stepped_approach (s := s) hc ?_ ?_ ?_ (by decide) rfl rfl rfl⟩
        · intro hp
          simp [Signals.lockedSpot, hp, Spot.level, Checkpoint.entry, Passage.rank, Spot.share]
        · intro hp
          simp [Signals.lockedSpot, hp, Spot.isFree, Spot.share]
        · intro x
          by_cases hp : p = s.block <;> simp [Signals.lockedSpot, hp]
    | claim hs hw =>
      cases hs
      cases hw
      exact ⟨_, _, stepped_claim hc⟩
    | split hs hw =>
      cases hw
      cases hc

/-- A split of the tracker leaves the processing thread where it is, with no more work than
before. -/
theorem Processes.split {start block : Offset} {tracker : Tracker} {t : Thread} {n : Nat}
    (h : Processes start block tracker t n) (f : Binary64) :
    Processes start block (tracker.split f).2 t n ∧
      (t.isOver = false →
        t.claimCost (tracker.split f).2.span block ≤ t.claimCost tracker.span block) := by
  have hordered : tracker.Ordered := by
    cases h with
    | idle htracker =>
      rw [htracker]
      exact Tracker.ordered_new _
    | counting hc => exact hc.ordered
  have hspec := Tracker.split_spec hordered f
  generalize tracker.split f = outcome at hspec ⊢
  obtain ⟨result, tracker'⟩ := outcome
  dsimp only at hspec ⊢
  cases hspec with
  | invalid | nothing => exact ⟨h, fun _ => Nat.le_refl _⟩
  | cut point _ hs hlt hlow hhigh =>
    have hpoint := Offset.le_iff.1 hhigh
    cases h with
    | idle htracker =>
      refine ⟨.idle ?_, fun hover => by cases hover⟩
      rw [htracker]
      rfl
    | counting hc hv =>
      have hshrunk := hc.shrink hlow hhigh hs
      have hstart : tracker.span.start = start := congrArg Span.start hc.span_eq
      have hupcoming : t.work.upcoming ⟨start, point⟩ = t.work.upcoming tracker.span := by
        cases hw : t.work with
        | finish result =>
          rw [hw] at hc
          obtain ⟨_, _, htracker⟩ := hc.finish
          rw [htracker] at hs
          cases hs
        | split f next =>
          rw [hw] at hc
          cases hc
        | inspect next => exact congrArg Int64.toInt hstart.symm
        | claim | emit => rfl
      rw [hstart]
      have hlevel : t.claimLevel ⟨start, point⟩ block = t.claimLevel tracker.span block := by
        rw [Thread.claimLevel, hupcoming]
        rfl
      refine ⟨?_, ?_⟩
      · rw [← hlevel]
        exact .counting hshrunk fun x hx => hupcoming.trans (hv x hx)
      · intro _
        rw [Thread.claimCost, Thread.claimCost, hlevel, hupcoming]
        dsimp only
        omega

/-! ## Where counting is -/

namespace Counting

variable {start stop block : Offset} {tracker : Tracker} {work : Work Offset}
  {emitted : List Offset}

theorem upcoming_le (h : Counting start stop work emitted tracker) :
    work.upcoming tracker.span ≤ stop.toInt ∨ ∃ result, work = .finish result := by
  cases work with
  | inspect next =>
    have hstart : tracker.span.start.toInt = start.toInt := by rw [h.span_eq]
    have hle := Offset.le_iff.1 h.le
    rw [Work.upcoming_inspect]
    omega
  | claim p next => exact Or.inl (Offset.le_iff.1 h.of_claim.2.1)
  | emit p next =>
    have hlt := Offset.lt_iff.1 h.of_emit.2.1
    rw [Work.upcoming_emit]
    omega
  | finish result => exact Or.inr ⟨result, rfl⟩
  | split f next => cases h

theorem claimed_of_upcoming (h : Counting start stop work emitted tracker) (hle : start ≤ block)
    (hupcoming : work.upcoming tracker.span = block.toInt + 1) :
    tracker = ((Tracker.reached ⟨start, stop⟩ block).claim block).2 := by
  have hbelow := Offset.le_iff.1 hle
  cases work with
  | inspect next =>
    have hstart : tracker.span.start.toInt = start.toInt := by rw [h.span_eq]
    rw [Work.upcoming_inspect] at hupcoming
    omega
  | claim p next =>
    rw [Work.upcoming_claim] at hupcoming
    obtain ⟨_, hstop, htracker, _⟩ := h.of_claim
    have hlt : block < stop := by
      rw [Offset.le_iff] at hstop
      rw [Offset.lt_iff]
      omega
    have hp : p = block + 1 := by
      rw [Offset.eq_iff, Offset.toInt_add_one hlt]
      exact hupcoming
    rw [Tracker.claim_reached ⟨start, stop⟩ hle hlt, ← hp]
    exact htracker
  | emit p next =>
    rw [Work.upcoming_emit] at hupcoming
    obtain ⟨_, hlt, htracker, _⟩ := h.of_emit
    have hp : p = block := by
      rw [Offset.eq_iff]
      omega
    subst hp
    rw [Tracker.claim_reached ⟨start, stop⟩ hle hlt]
    exact htracker
  | finish result =>
    rw [Work.upcoming_finish, h.span_eq] at hupcoming
    have hstop : block = stop := by
      rw [Offset.eq_iff]
      dsimp only at hupcoming
      omega
    rw [hstop, Tracker.claim_reached_stop ⟨start, stop⟩ h.le]
    exact h.finish.2.2
  | split f next => cases h

end Counting

/-! ## What a level says -/

theorem Checkpoint.rank_of_side {c : Checkpoint} (h : c.side = 0) (x : Passage) :
    2 ≤ c.entry + x.rank ∧ c.entry + x.rank ≤ 15 ∧
      (c ≠ .claimVisible → c.entry + x.rank ≤ 10) ∧
      (c = .claimVisible → 12 ≤ c.entry + x.rank) := by
  have hx := x.rank_le
  cases c with
  | splitStarted | splitLocked => cases h
  | claimStarted | claimLocked | claimVisible =>
    simp [entry]
    omega

namespace Processes

variable {start block : Offset} {tracker : Tracker} {t : Thread} {n : Nat}

theorem level_pos {span : Span} (t : Thread) : 0 < t.claimLevel span block := by
  unfold Thread.claimLevel Spot.claimLevel
  have hentry : ∀ c : Checkpoint, 0 < c.entry := by intro c; cases c <;> decide
  split
  · exact Nat.one_pos
  · split
    · cases t.spot with
      | held c x => exact Nat.add_pos_left (hentry c) _
      | outside | locking | inside => decide
    · split
      · exact Nat.add_pos_left (hentry _) _
      · decide

theorem idle_of_zero (h : Processes start block tracker t 0) :
    t = .idle ∧ tracker = .new ⟨start, tracker.span.stop⟩ := by
  generalize hn : 0 = n at h
  cases h with
  | idle htracker => exact ⟨rfl, htracker⟩
  | counting => exact absurd hn (Nat.ne_of_lt (level_pos t))

theorem level_of_held {c : Checkpoint} {x : Passage} (h : Processes start block tracker t n)
    (hsuits : t.spot.Suits block t.work) (hs : t.spot = .held c x) :
    c.side = 0 ∧ n = c.entry + x.rank := by
  cases h with
  | idle => cases hs
  | counting hc hv =>
    rw [hs] at hsuits
    have hlevel : t.claimLevel tracker.span block =
        (Spot.held c x).claimLevel (t.work.upcoming tracker.span) block.toInt := by
      rw [Thread.claimLevel, hs]
    cases c with
    | claimStarted | claimLocked =>
      obtain ⟨next, hw⟩ := hsuits
      rw [hlevel, hw, Work.upcoming_claim, Spot.claimLevel_self]
      exact ⟨rfl, rfl⟩
    | claimVisible =>
      rw [hlevel, hv x hs]
      exact ⟨rfl, Spot.claimLevel_visible block.toInt (some x)⟩
    | splitStarted | splitLocked =>
      obtain ⟨f, next, hw⟩ := hsuits
      rw [hw] at hc
      cases hc

theorem level_of_free (h : Processes start block tracker t n) (hs : t.spot.isFree = true) :
    n = 0 ∨ n = 1 ∨ n = 6 ∧ t.spot = .locking ∨ n = 11 ∧ t.spot = .inside ∨ n = 16 := by
  cases h with
  | idle => exact Or.inl rfl
  | counting =>
    unfold Thread.claimLevel Spot.claimLevel
    split
    · exact Or.inr (Or.inl rfl)
    · cases hspot : t.spot with
      | held c x => rw [hspot] at hs; cases hs
      | outside | locking | inside =>
        split <;> simp [Spot.level]

variable (h : Processes start block tracker t n) (hsuits : t.spot.Suits block t.work)
include h hsuits

/-- From the first checkpoint to the effect the claim of the block position is under way. -/
theorem claims_block (h₁ : 2 ≤ n) (h₂ : n ≤ 11) : ∃ next, t.work = .claim block next := by
  cases hs : t.spot with
  | held c x =>
    obtain ⟨hside, hn⟩ := h.level_of_held hsuits hs
    have hrank := Checkpoint.rank_of_side hside x
    rw [hs] at hsuits
    cases c with
    | claimStarted | claimLocked => exact hsuits
    | claimVisible =>
      have := hrank.2.2.2 rfl
      omega
    | splitStarted | splitLocked => cases hside
  | outside | locking | inside =>
    have hfree := h.level_of_free (by rw [hs]; rfl)
    simp only [hs, reduceCtorEq, and_false, false_or, and_true] at hfree
    cases h with
    | idle => omega
    | @counting t hc hv =>
      have hupcoming : t.work.upcoming tracker.span = block.toInt := by
        by_contra hne
        simp only [Thread.claimLevel, Spot.claimLevel, hs, hne, if_false] at h₁ h₂
        split at h₁ <;> simp_all
      rw [hs] at hsuits
      cases hw : t.work with
      | claim p next =>
        rw [hw, Work.upcoming_claim] at hupcoming
        rw [Offset.eq_iff.2 hupcoming]
        exact ⟨next, rfl⟩
      | split f next =>
        rw [hw] at hc
        cases hc
      | finish | emit | inspect =>
        first
        | omega
        | (rw [hw] at hsuits; cases hsuits)

theorem reached (h₁ : 2 ≤ n) (h₂ : n ≤ 11) : tracker = .reached tracker.span block := by
  obtain ⟨next, hw⟩ := h.claims_block hsuits h₁ h₂
  cases h with
  | idle => omega
  | counting hc =>
    rw [hw] at hc
    rw [hc.span_eq]
    exact hc.of_claim.2.2.1

theorem held_visible (h₁ : 12 ≤ n) (h₂ : n ≤ 15) : ∃ x, t.spot = .held .claimVisible x := by
  cases hs : t.spot with
  | held c x =>
    obtain ⟨hside, hn⟩ := h.level_of_held hsuits hs
    by_cases hc : c = .claimVisible
    · exact ⟨x, by rw [hc]⟩
    · have hrank := (Checkpoint.rank_of_side hside x).2.2.1 hc
      omega
  | outside | locking | inside =>
    have hfree := h.level_of_free (by rw [hs]; rfl)
    omega

theorem visible (hle : start ≤ block) (h₁ : 12 ≤ n) (h₂ : n ≤ 15) :
    tracker = ((Tracker.reached tracker.span block).claim block).2 := by
  obtain ⟨x, hs⟩ := h.held_visible hsuits h₁ h₂
  cases h with
  | idle => cases hs
  | counting hc hv =>
    rw [hc.span_eq]
    exact hc.claimed_of_upcoming hle (hv x hs)

/-- The block position is never claimed behind the end of the span. -/
theorem early (hstop : tracker.span.stop < block) : n ≤ 1 := by
  have hlt := Offset.lt_iff.1 hstop
  cases h with
  | idle => exact Nat.zero_le 1
  | @counting t hc hv =>
    unfold Thread.claimLevel Spot.claimLevel
    by_cases hbefore : t.work.upcoming tracker.span < block.toInt
    · rw [if_pos hbefore]
    · rcases hc.upcoming_le with hle | ⟨result, hw⟩
      · omega
      · -- counting is over, right before the block position
        rw [hw, Work.upcoming_finish] at hbefore
        have hupcoming : tracker.span.stop.toInt + 1 = block.toInt := by omega
        rw [hw, Work.upcoming_finish, if_neg hbefore, if_pos hupcoming]
        rw [hw] at hsuits hv
        cases hs : t.spot with
        | outside => exact Nat.le_refl 1
        | locking | inside => rw [hs] at hsuits; cases hsuits
        | held c x =>
          rw [hs] at hsuits
          cases c with
          | claimVisible =>
            have hnext := hv x hs
            rw [Work.upcoming_finish] at hnext
            omega
          | claimStarted | claimLocked => obtain ⟨next, hnext⟩ := hsuits; cases hnext
          | splitStarted | splitLocked => obtain ⟨f, next, hnext⟩ := hsuits; cases hnext

omit hsuits in
/-- A thread that is over has emitted everything, and it has passed the checkpoints unless the block
position is behind the end of the span. -/
theorem finished (hover : t.isOver = true) (hn : n ≠ 0) :
    t.emitted = Offset.run start tracker.span.stop ∧ tracker.fault = none ∧
      (n = 16 ∨ tracker.span.stop < block) := by
  cases h with
  | idle => exact absurd rfl hn
  | counting hc hv =>
    obtain ⟨work, spot, emitted, answers⟩ := t
    cases work with
    | finish result =>
      cases spot with
      | outside =>
        obtain ⟨_, hemitted, htracker⟩ := hc.finish
        refine ⟨hemitted, by rw [htracker]; rfl, ?_⟩
        by_cases hstop : tracker.span.stop < block
        · exact Or.inr hstop
        · have hge := Offset.lt_iff.not.1 hstop
          have h₁ : ¬ tracker.span.stop.toInt + 1 < block.toInt := by omega
          have h₂ : ¬ tracker.span.stop.toInt + 1 = block.toInt := by omega
          simp [Thread.claimLevel, Spot.claimLevel, h₁, h₂]
      | held | locking | inside => cases hover
    | claim | split | emit | inspect => cases hover

end Processes

end Splittable
