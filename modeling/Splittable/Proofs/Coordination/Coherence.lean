import Splittable.Coordination.Signals

/-!
# Who holds what

The lock of a tracker and the two places at each gate are held by at most one thread each.  Who
holds them can be read off from where the threads are, in every state that the threads and the
control can reach, however many threads there are.

* `Signals.stepThread_iff` : the steps of a thread, one case for each kind;
* `Signals.Coherent`       : the lock and the places belong to the threads that are there;
* `Coherent.step`          : every step of a thread keeps that;
* `Coherent.stuck`         : whom a thread waits for when nobody can step.
-/

namespace Splittable

/-! ## Steps -/

/-- The steps of the thread `i` through a gate, with the gate after each and how far the thread is
then. -/
inductive Gate.Moves (controlled : Bool) (i : Nat) (g : Gate) :
    Passage → Gate → Option Passage → Prop where
  | queue : g.arriving = none →
      Moves controlled i g .toArrive { g with arriving := some i } (some .arriving)
  | skip : controlled = false → Moves controlled i g .arriving { g with arriving := none } none
  | arrive : controlled = true → g.arrival = false →
      Moves controlled i g .arriving { g with arrival := true, arriving := none } (some .toLeave)
  | turn : g.leaving = none →
      Moves controlled i g .toLeave { g with leaving := some i } (some .leaving)
  | leave : g.release = true →
      Moves controlled i g .leaving { g with release := false, leaving := none } none
  | escape : controlled = false → g.release = false →
      Moves controlled i g .leaving { g with leaving := none } none

theorem Gate.step_iff {controlled : Bool} {i : Nat} {g g' : Gate} {x : Passage}
    {y : Option Passage} :
    g.step controlled i x = some (g', y) ↔ Gate.Moves controlled i g x g' y := by
  constructor
  · intro h
    cases x with
    | toArrive =>
      simp only [step] at h
      split at h
      · cases h
        exact .queue (Option.isNone_iff_eq_none.1 ‹_›)
      · cases h
    | arriving =>
      simp only [step] at h
      split at h
      · rename_i hc
        cases h
        exact .skip (by simpa using hc)
      · split at h
        · cases h
        · rename_i hc ha
          cases h
          exact .arrive (by simpa using hc) (by simpa using ha)
    | toLeave =>
      simp only [step] at h
      split at h
      · cases h
        exact .turn (Option.isNone_iff_eq_none.1 ‹_›)
      · cases h
    | leaving =>
      simp only [step] at h
      split at h
      · cases h
        exact .leave ‹_›
      · split at h
        · cases h
        · rename_i hr hc
          cases h
          exact .escape (by simpa using hc) (by simpa using hr)
  · intro h
    cases h <;> simp_all [step]

/-- Where a thread is after a step through the gate of a checkpoint. -/
def Checkpoint.spot (c : Checkpoint) : Option Passage → Spot
  | some x => .held c x
  | none => c.beyond

/-- Whether the next step is a call of the tracker. -/
def Work.IsCall {Output : Type} : Work Output → Prop
  | .claim _ _ | .split _ _ => True
  | _ => False

namespace Signals

/-- The state with another thread in the place of the thread `i`. -/
def put (s : Signals) (i : Nat) (t : Thread) : Signals :=
  { s with threads := s.threads.set i t }

/-- The thread `t` after its call took effect, with the rest of its work and the answer. -/
def answered (t : Thread) (spot : Spot) (work : Work Offset) (answer : Answer) : Thread :=
  { t with work := work, spot := spot, answers := t.answers ++ [answer] }

/-- Where a claim goes from the lock. -/
def claimedSpot (s : Signals) (p : Offset) : Spot :=
  if p = s.block then .held .claimVisible .toArrive else .outside

/-- The steps of the thread `i`, which is `t`. -/
inductive Moves (s : Signals) (i : Nat) (t : Thread) : Signals → Prop where
  | emit {p : Offset} {next : Work Offset} : t.spot = .outside → t.work = .emit p next →
      Moves s i t (s.put i { t with emitted := t.emitted ++ [p], work := next })
  | look {next : Tracker → Work Offset} : t.spot = .outside → t.work = .inspect next →
      s.lock = none → Moves s i t (s.put i { t with work := next s.tracker })
  | call : t.spot = .outside → t.work.IsCall →
      Moves s i t (s.put i { t with spot := s.callSpot t.work })
  | pass {c : Checkpoint} {x : Passage} {g : Gate} {y : Option Passage} : t.spot = .held c x →
      Gate.Moves s.controlled i (s.gates.get c) x g y →
      Moves s i t (put { s with gates := s.gates.set c g } i
        { t with spot := c.spot y })
  | lock : t.spot = .locking → s.lock = none →
      Moves s i t (put { s with lock := some i } i { t with spot := s.lockedSpot t.work })
  | claim {p : Offset} {next : Bool → Work Offset} : t.spot = .inside → t.work = .claim p next →
      Moves s i t (put { s with tracker := (s.tracker.claim p).2, lock := none } i
        (answered t (s.claimedSpot p) (next (s.tracker.claim p).1)
          (.claimed (s.tracker.claim p).1)))
  | split {f : Binary64} {next : Except Fault Split → Work Offset} : t.spot = .inside →
      t.work = .split f next →
      Moves s i t (put { s with tracker := (s.tracker.split f).2, lock := none } i
        (answered t .outside (next (s.tracker.split f).1) (.split (s.tracker.split f).1)))

/-- **A step of a thread is one of those moves.** -/
theorem stepThread_iff {s s' : Signals} {i : Nat} :
    s.stepThread i = some s' ↔ ∃ t, s.threads[i]? = some t ∧ Moves s i t s' := by
  unfold stepThread
  cases hi : s.threads[i]? with
  | none => simp
  | some t =>
    obtain ⟨work, spot, emitted, answers⟩ := t
    simp only [Option.some.injEq, exists_eq_left']
    cases spot with
    | outside =>
      constructor
      · intro h
        obtain ⟨t', ht, rfl⟩ := Option.map_eq_some_iff.1 h
        cases work with
        | finish => cases ht
        | emit => cases ht; exact .emit rfl rfl
        | inspect =>
          simp only [stepOutside] at ht
          split at ht
          · cases ht
            exact .look rfl rfl (Option.isNone_iff_eq_none.1 ‹_›)
          · cases ht
        | claim => cases ht; exact .call rfl trivial
        | split => cases ht; exact .call rfl trivial
      · intro h
        cases h with
        | emit _ hw => cases hw; rfl
        | look _ hw hl => cases hw; simp [stepOutside, hl, put]
        | call _ hc =>
          cases work with
          | claim | split => rfl
          | finish | emit | inspect => cases hc
        | pass hs | lock hs | claim hs | split hs => cases hs
    | held c x =>
      constructor
      · intro h
        obtain ⟨⟨g, y⟩, hg, rfl⟩ := Option.map_eq_some_iff.1 h
        exact .pass rfl (Gate.step_iff.1 hg)
      · intro h
        cases h with
        | pass hs hg =>
          cases hs
          show Option.map _ (Gate.step _ _ _ _) = _
          rw [Gate.step_iff.2 hg]
          rfl
        | emit hs | look hs | call hs | lock hs | claim hs | split hs => cases hs
    | locking =>
      constructor
      · intro h
        simp only at h
        split at h
        · cases h
          exact .lock rfl (Option.isNone_iff_eq_none.1 ‹_›)
        · cases h
      · intro h
        cases h with
        | lock _ hl => simp [hl, put]
        | emit hs | look hs | call hs | pass hs | claim hs | split hs => cases hs
    | inside =>
      constructor
      · intro h
        obtain ⟨⟨tracker, t'⟩, ht, rfl⟩ := Option.map_eq_some_iff.1 h
        cases work with
        | claim => cases ht; exact .claim rfl rfl
        | split => cases ht; exact .split rfl rfl
        | finish | emit | inspect => cases ht
      · intro h
        cases h with
        | claim _ hw => cases hw; rfl
        | split _ hw => cases hw; rfl
        | emit hs | look hs | call hs | pass hs | lock hs => cases hs

theorem Moves.frame {s s' : Signals} {i : Nat} {t : Thread} (h : s.Moves i t s') :
    s'.block = s.block ∧ s'.controlled = s.controlled ∧ s'.kept = s.kept := by
  cases h <;> exact ⟨rfl, rfl, rfl⟩

theorem Moves.not_over {s s' : Signals} {i : Nat} {t : Thread} (h : s.Moves i t s') :
    t.isOver = false := by
  unfold Thread.isOver
  cases h with
  | emit _ hw | look _ hw | claim _ hw | split _ hw => rw [hw]
  | pass hs | lock hs => rw [hs]; cases t.work <;> rfl
  | call _ hc => cases hw : t.work <;> simp_all [Work.IsCall]

end Signals

/-! ## Holders -/

/-- The checkpoints at which a thread has the lock. -/
def Checkpoint.UnderLock : Checkpoint → Prop
  | .claimLocked | .splitLocked => True
  | _ => False

def Spot.UnderLock : Spot → Prop
  | .held c _ => c.UnderLock
  | .inside => True
  | _ => False

/-- Whether a thread with this work can be at the spot. -/
def Spot.Suits (block : Offset) (work : Work Offset) : Spot → Prop
  | .held .claimStarted _ | .held .claimLocked _ => ∃ next, work = .claim block next
  | .held .splitStarted _ | .held .splitLocked _ => ∃ f next, work = .split f next
  | .locking | .inside => work.IsCall
  | .outside | .held .claimVisible _ => True

theorem Checkpoint.spot_underLock (c : Checkpoint) (y : Option Passage) :
    (c.spot y).UnderLock ↔ c.UnderLock := by
  cases y with
  | some y => exact Iff.rfl
  | none => cases c <;> simp [spot, beyond, UnderLock, Spot.UnderLock]

theorem Checkpoint.spot_suits {c : Checkpoint} {x : Passage} {block : Offset} {work : Work Offset}
    (h : (Spot.held c x).Suits block work) (y : Option Passage) : (c.spot y).Suits block work := by
  cases y with
  | some y => cases c <;> exact h
  | none =>
    cases c with
    | claimVisible => trivial
    | claimStarted | claimLocked => obtain ⟨next, rfl⟩ := h; trivial
    | splitStarted | splitLocked => obtain ⟨f, next, rfl⟩ := h; trivial

theorem Checkpoint.spot_ne (c : Checkpoint) {d : Checkpoint} (h : c ≠ d) (y : Option Passage)
    (z : Passage) : c.spot y ≠ .held d z := by
  cases y with
  | some y => simp [spot, h]
  | none => cases c <;> simp [spot, beyond]

namespace Signals

/-- Where the thread `j` is; a thread that does not exist is outside. -/
def spotOf (s : Signals) (j : Nat) : Spot :=
  match s.threads[j]? with
  | some t => t.spot
  | none => .outside

variable {s s' : Signals} {i j : Nat} {t t' : Thread}

theorem spotOf_eq (h : s.threads[j]? = some t) : s.spotOf j = t.spot := by
  simp [spotOf, h]

theorem exists_of_spotOf (h : s.spotOf j ≠ .outside) :
    ∃ t, s.threads[j]? = some t ∧ t.spot = s.spotOf j := by
  unfold spotOf at h ⊢
  split at h
  · rename_i t ht
    exact ⟨t, ht, rfl⟩
  · exact absurd rfl h

theorem threads_put (h : s.threads[i]? = some t) (j : Nat) :
    (s.put i t').threads[j]? = if j = i then some t' else s.threads[j]? := by
  obtain ⟨hlt, _⟩ := List.getElem?_eq_some_iff.1 h
  by_cases hj : j = i
  · subst hj
    simp [put, hlt]
  · rw [if_neg hj]
    exact List.getElem?_set_ne (Ne.symm hj)

theorem spotOf_put (h : s.threads[i]? = some t) (j : Nat) :
    (s.put i t').spotOf j = if j = i then t'.spot else s.spotOf j := by
  unfold spotOf
  rw [threads_put h]
  by_cases hj : j = i <;> simp [hj]

/-- What has room for one thread belongs to the thread that is there. -/
def HeldBy (holder : Option Nat) (spots : Nat → Spot) (There : Spot → Prop) : Prop :=
  ∀ j, holder = some j ↔ There (spots j)

namespace HeldBy

variable {holder : Option Nat} {spots : Nat → Spot} {There : Spot → Prop} {spot : Spot}

theorem keep (h : HeldBy holder spots There) (hi : There spot ↔ There (spots i)) :
    HeldBy holder (fun j => if j = i then spot else spots j) There := by
  intro j
  by_cases hj : j = i
  · subst hj
    simp [hi, h j]
  · simp [hj, h j]

theorem take (h : HeldBy none spots There) (hi : There spot) :
    HeldBy (some i) (fun j => if j = i then spot else spots j) There := by
  intro j
  by_cases hj : j = i
  · simp [hj, hi]
  · have hnot := h j
    simp only [reduceCtorEq, false_iff] at hnot
    simp [hj, hnot, Ne.symm hj]

theorem leave (h : HeldBy holder spots There) (hi : There (spots i)) (hnot : ¬ There spot) :
    HeldBy none (fun j => if j = i then spot else spots j) There := by
  intro j
  by_cases hj : j = i
  · simp [hj, hnot]
  · -- the thread that leaves was the only one
    have hholder := (h i).2 hi
    have hother : ¬ There (spots j) := by
      intro hthere
      have := (h j).2 hthere
      rw [hholder] at this
      exact hj (Option.some.inj this).symm
    simp [hj, hother]

end HeldBy

/-- The lock and the places at the gates belong to the threads that are there, and every thread is
where its work can be. -/
structure Coherent (s : Signals) : Prop where
  lock : HeldBy s.lock s.spotOf Spot.UnderLock
  arriving : ∀ c, HeldBy (s.gates.get c).arriving s.spotOf (· = .held c .arriving)
  leaving : ∀ c, HeldBy (s.gates.get c).leaving s.spotOf (· = .held c .leaving)
  suits : ∀ (j : Nat) (t : Thread), s.threads[j]? = some t → t.spot.Suits s.block t.work

/-- **At most one thread is under the lock.** -/
theorem Coherent.unique {k : Nat} (h : s.Coherent) (hj : (s.spotOf j).UnderLock)
    (hk : (s.spotOf k).UnderLock) : j = k :=
  Option.some.inj (((h.lock j).2 hj).symm.trans ((h.lock k).2 hk))

theorem coherent_of_outside (hlock : s.lock = none) (hgates : s.gates = .clear)
    (h : ∀ t ∈ s.threads, t.spot = .outside) : s.Coherent := by
  have hspots : ∀ j, s.spotOf j = .outside := by
    intro j
    unfold spotOf
    split
    · rename_i t ht
      exact h t (List.mem_of_getElem? ht)
    · rfl
  refine ⟨?_, ?_, ?_, ?_⟩
  · intro j
    rw [hlock, hspots j]
    exact iff_of_false nofun nofun
  · intro c j
    rw [hgates, hspots j]
    cases c <;> exact iff_of_false nofun nofun
  · intro c j
    rw [hgates, hspots j]
    cases c <;> exact iff_of_false nofun nofun
  · intro j t ht
    rw [h t (List.mem_of_getElem? ht)]
    trivial

/-! ## Every step keeps it -/

/-- What is left to show when the thread `i` changes, and the lock or the gates with it. -/
theorem coherent_put {p : Signals} (h : s.Coherent) (hi : s.threads[i]? = some t)
    (hthreads : p.threads = s.threads) (hblock : p.block = s.block)
    (hsuits : t'.spot.Suits s.block t'.work)
    (hlock : HeldBy p.lock (fun j => if j = i then t'.spot else s.spotOf j) Spot.UnderLock)
    (harriving : ∀ c, HeldBy (p.gates.get c).arriving
      (fun j => if j = i then t'.spot else s.spotOf j) (· = .held c .arriving))
    (hleaving : ∀ c, HeldBy (p.gates.get c).leaving
      (fun j => if j = i then t'.spot else s.spotOf j) (· = .held c .leaving)) :
    (p.put i t').Coherent := by
  have hip : p.threads[i]? = some t := by rw [hthreads, hi]
  have hspots : (p.put i t').spotOf = fun j => if j = i then t'.spot else s.spotOf j := by
    funext j
    rw [spotOf_put hip]
    simp [spotOf, hthreads]
  refine ⟨by rw [hspots]; exact hlock, by rw [hspots]; exact harriving,
    by rw [hspots]; exact hleaving, ?_⟩
  intro j u hu
  rw [threads_put hip] at hu
  show u.spot.Suits p.block u.work
  rw [hblock]
  by_cases hj : j = i
  · rw [if_pos hj] at hu
    cases hu
    exact hsuits
  · rw [if_neg hj, hthreads] at hu
    exact h.suits j u hu

section Keeps

variable (h : s.Coherent) (hi : s.threads[i]? = some t)
include h hi

theorem Coherent.aside (hs : t.spot = .outside) (hsuits : t'.spot.Suits s.block t'.work)
    (hlock : ¬ t'.spot.UnderLock) (harriving : ∀ c, t'.spot ≠ .held c .arriving)
    (hleaving : ∀ c, t'.spot ≠ .held c .leaving) : (s.put i t').Coherent := by
  have hspot : s.spotOf i = .outside := (spotOf_eq hi).trans hs
  refine coherent_put h hi rfl rfl hsuits (h.lock.keep ?_) (fun c => (h.arriving c).keep ?_)
    (fun c => (h.leaving c).keep ?_)
  · rw [hspot]
    exact iff_of_false hlock (by simp [Spot.UnderLock])
  · simp [hspot, harriving c]
  · simp [hspot, hleaving c]

theorem Coherent.call (hs : t.spot = .outside) (hc : t.work.IsCall) :
    (s.put i { t with spot := s.callSpot t.work }).Coherent := by
  obtain ⟨work, spot, emitted, answers⟩ := t
  cases work with
  | finish | emit | inspect => cases hc
  | split f next =>
    refine h.aside hi hs ⟨f, next, rfl⟩ ?_ ?_ ?_ <;>
      simp [callSpot, Spot.UnderLock, Checkpoint.UnderLock]
  | claim p next =>
    by_cases hp : p = s.block
    · subst hp
      apply h.aside hi hs <;>
        simp [callSpot, Spot.UnderLock, Checkpoint.UnderLock, Spot.Suits]
    · apply h.aside hi hs <;>
        simp [callSpot, hp, Spot.UnderLock, Spot.Suits, Work.IsCall]

theorem Coherent.pass {c : Checkpoint} {x : Passage} {g : Gate} {y : Option Passage}
    (hs : t.spot = .held c x) (hg : Gate.Moves s.controlled i (s.gates.get c) x g y) :
    (Signals.put { s with gates := s.gates.set c g } i
      { t with spot := c.spot y }).Coherent := by
  have hspot : s.spotOf i = .held c x := (spotOf_eq hi).trans hs
  have hsuits := h.suits i t hi
  rw [hs] at hsuits
  have harriving := h.arriving c
  have hleaving := h.leaving c
  have hbeyond : ∀ z, c.beyond ≠ .held c z := by
    intro z
    cases c <;> simp [Checkpoint.beyond]
  refine coherent_put h hi rfl rfl (Checkpoint.spot_suits hsuits y) (h.lock.keep ?_) ?_ ?_
  · rw [hspot]
    exact c.spot_underLock y
  · intro d
    by_cases hd : c = d
    · subst hd
      rw [Gates.get_set]
      cases hg with
      | queue hfree =>
        rw [hfree] at harriving
        exact harriving.take rfl
      | skip => exact harriving.leave hspot (hbeyond _)
      | arrive => exact harriving.leave hspot (by simp [Checkpoint.spot])
      | turn => exact harriving.keep (by simp [hspot, Checkpoint.spot])
      | leave | escape => exact harriving.keep (by simp [hspot, Checkpoint.spot, hbeyond])
    · rw [Gates.get_set_of_ne _ _ hd]
      exact (h.arriving d).keep (by simp [hspot, c.spot_ne hd, hd])
  · intro d
    by_cases hd : c = d
    · subst hd
      rw [Gates.get_set]
      cases hg with
      | queue => exact hleaving.keep (by simp [hspot, Checkpoint.spot])
      | skip => exact hleaving.keep (by simp [hspot, Checkpoint.spot, hbeyond])
      | arrive => exact hleaving.keep (by simp [hspot, Checkpoint.spot])
      | turn hfree =>
        rw [hfree] at hleaving
        exact hleaving.take rfl
      | leave | escape => exact hleaving.leave hspot (hbeyond _)
    · rw [Gates.get_set_of_ne _ _ hd]
      exact (h.leaving d).keep (by simp [hspot, c.spot_ne hd, hd])

theorem Coherent.take (hs : t.spot = .locking) (hl : s.lock = none) :
    (Signals.put { s with lock := some i } i { t with spot := s.lockedSpot t.work }).Coherent := by
  have hspot : s.spotOf i = .locking := (spotOf_eq hi).trans hs
  have hsuits := h.suits i t hi
  rw [hs] at hsuits
  have hlock := h.lock
  rw [hl] at hlock
  obtain ⟨work, spot, emitted, answers⟩ := t
  cases work with
  | finish | emit | inspect => cases hsuits
  | split f next =>
    refine coherent_put h hi rfl rfl ⟨f, next, rfl⟩ (hlock.take trivial)
      (fun c => (h.arriving c).keep ?_) (fun c => (h.leaving c).keep ?_) <;>
      simp [hspot, lockedSpot]
  | claim p next =>
    by_cases hp : p = s.block
    · subst hp
      refine coherent_put h hi rfl rfl ?_ (hlock.take ?_) (fun c => (h.arriving c).keep ?_)
        (fun c => (h.leaving c).keep ?_) <;>
        simp [hspot, lockedSpot, Spot.UnderLock, Checkpoint.UnderLock, Spot.Suits]
    · refine coherent_put h hi rfl rfl ?_ (hlock.take ?_) (fun c => (h.arriving c).keep ?_)
        (fun c => (h.leaving c).keep ?_) <;>
        simp [hspot, lockedSpot, hp, Spot.UnderLock, Spot.Suits, Work.IsCall]

theorem Coherent.giveBack {tracker : Tracker} (hs : t.spot = .inside)
    (hfree : t'.spot = .outside ∨ t'.spot = .held .claimVisible .toArrive) :
    (Signals.put { s with tracker := tracker, lock := none } i t').Coherent := by
  have hspot : s.spotOf i = .inside := (spotOf_eq hi).trans hs
  refine coherent_put h hi rfl rfl ?_ (h.lock.leave ?_ ?_) (fun c => (h.arriving c).keep ?_)
    (fun c => (h.leaving c).keep ?_) <;>
    rcases hfree with hfree | hfree <;>
    simp [hspot, hfree, Spot.UnderLock, Checkpoint.UnderLock, Spot.Suits]

end Keeps

/-- **Every step of a thread keeps it.** -/
theorem Coherent.step (h : s.Coherent) (hstep : s.stepThread i = some s') : s'.Coherent := by
  obtain ⟨t, hi, hmove⟩ := stepThread_iff.1 hstep
  cases hmove with
  | emit hs | look hs =>
    apply h.aside hi hs <;> simp [hs, Spot.Suits, Spot.UnderLock]
  | call hs hc => exact h.call hi hs hc
  | pass hs hg => exact h.pass hi hs hg
  | lock hs hl => exact h.take hi hs hl
  | claim hs hw =>
    apply h.giveBack hi hs
    unfold answered claimedSpot
    dsimp only
    split
    · exact Or.inr rfl
    · exact Or.inl rfl
  | split hs => exact h.giveBack hi hs (Or.inl rfl)

theorem Coherent.token (h : s.Coherent) {c : Checkpoint} {g : Gate}
    (harriving : g.arriving = (s.gates.get c).arriving)
    (hleaving : g.leaving = (s.gates.get c).leaving) :
    Coherent { s with gates := s.gates.set c g } := by
  refine ⟨h.lock, ?_, ?_, h.suits⟩
  · intro d
    by_cases hd : c = d
    · subst hd
      show HeldBy ((s.gates.set c g).get c).arriving _ _
      rw [Gates.get_set, harriving]
      exact h.arriving c
    · show HeldBy ((s.gates.set c g).get d).arriving _ _
      rw [Gates.get_set_of_ne _ _ hd]
      exact h.arriving d
  · intro d
    by_cases hd : c = d
    · subst hd
      show HeldBy ((s.gates.set c g).get c).leaving _ _
      rw [Gates.get_set, hleaving]
      exact h.leaving c
    · show HeldBy ((s.gates.set c g).get d).leaving _ _
      rw [Gates.get_set_of_ne _ _ hd]
      exact h.leaving d

theorem Coherent.dropControl (h : s.Coherent) : s.dropControl.Coherent :=
  ⟨h.lock, h.arriving, h.leaving, h.suits⟩

/-! ## Who waits for whom -/

/-- The thread `k` waits at the gate of `c` for the control. -/
def AwaitsControl (s : Signals) (k : Nat) (c : Checkpoint) : Prop :=
  s.spotOf k = .held c .arriving ∧ (s.gates.get c).arrival = true ∨
    s.spotOf k = .held c .leaving ∧ (s.gates.get c).release = false

section Stuck

variable (h : s.Coherent) (hstuck : ∀ k, s.stepThread k = none)
include h hstuck

/-- If nobody can step, a thread at a gate waits there for the control, or behind one that does. -/
theorem Coherent.stuck_held {c : Checkpoint} {x : Passage} (hj : s.spotOf j = .held c x) :
    s.controlled = true ∧ ∃ k, s.AwaitsControl k c := by
  have hmove : ∀ k y g z, s.spotOf k = .held c y →
      ¬ Gate.Moves s.controlled k (s.gates.get c) y g z := by
    intro k y g z hk hg
    obtain ⟨t, ht, hspot⟩ := exists_of_spotOf (by rw [hk]; simp)
    have hstep := stepThread_iff.2 ⟨t, ht, .pass (hspot.trans hk) hg⟩
    rw [hstuck k] at hstep
    cases hstep
  have harriving : ∀ k, s.spotOf k = .held c .arriving →
      s.controlled = true ∧ ∃ k, s.AwaitsControl k c := by
    intro k hk
    cases hc : s.controlled with
    | false => exact absurd (.skip hc) (hmove k _ _ _ hk)
    | true =>
      refine ⟨rfl, k, Or.inl ⟨hk, ?_⟩⟩
      cases ha : (s.gates.get c).arrival with
      | true => rfl
      | false => exact absurd (.arrive hc ha) (hmove k _ _ _ hk)
  have hleaving : ∀ k, s.spotOf k = .held c .leaving →
      s.controlled = true ∧ ∃ k, s.AwaitsControl k c := by
    intro k hk
    cases hr : (s.gates.get c).release with
    | true => exact absurd (.leave hr) (hmove k _ _ _ hk)
    | false =>
      cases hc : s.controlled with
      | false => exact absurd (.escape hc hr) (hmove k _ _ _ hk)
      | true => exact ⟨rfl, k, Or.inr ⟨hk, hr⟩⟩
  cases x with
  | toArrive =>
    cases ha : (s.gates.get c).arriving with
    | none => exact absurd (.queue ha) (hmove j _ _ _ hj)
    | some k => exact harriving k ((h.arriving c k).1 ha)
  | arriving => exact harriving j hj
  | toLeave =>
    cases hl : (s.gates.get c).leaving with
    | none => exact absurd (.turn hl) (hmove j _ _ _ hj)
    | some k => exact hleaving k ((h.leaving c k).1 hl)
  | leaving => exact hleaving j hj

theorem Coherent.stuck_not_inside (ht : s.threads[j]? = some t) : t.spot ≠ .inside := by
  intro hspot
  have hsuits := h.suits j t ht
  rw [hspot] at hsuits
  have hnone := hstuck j
  cases hw : t.work with
  | finish | emit | inspect => rw [hw] at hsuits; cases hsuits
  | claim p next =>
    rw [stepThread_iff.2 ⟨t, ht, .claim hspot hw⟩] at hnone
    cases hnone
  | split f next =>
    rw [stepThread_iff.2 ⟨t, ht, .split hspot hw⟩] at hnone
    cases hnone

/-- If nobody can step and somebody has the lock, somebody waits for the control under it. -/
theorem Coherent.stuck_lock {k : Nat} (hl : s.lock = some k) :
    s.controlled = true ∧ ∃ k c, c.UnderLock ∧ s.AwaitsControl k c := by
  have hunder := (h.lock k).1 hl
  cases hk : s.spotOf k with
  | outside | locking => rw [hk] at hunder; cases hunder
  | held c x =>
    rw [hk] at hunder
    obtain ⟨hcontrolled, k, hawaits⟩ := h.stuck_held hstuck hk
    exact ⟨hcontrolled, k, c, hunder, hawaits⟩
  | inside =>
    obtain ⟨t, ht, hspot⟩ := exists_of_spotOf (s := s) (j := k) (by rw [hk]; simp)
    exact absurd (hspot.trans hk) (h.stuck_not_inside hstuck ht)

/-- **If nobody can step, a thread that is not over waits for the control**, or for somebody who
does, at the same gate or under the lock. -/
theorem Coherent.stuck (ht : s.threads[j]? = some t) (hover : t.isOver = false) :
    s.controlled = true ∧ ∃ k c, s.AwaitsControl k c ∧
      ((∃ x, t.spot = .held c x) ∨
        c.UnderLock ∧
          (t.spot = .locking ∨ t.spot = .outside ∧ ∃ next, t.work = .inspect next)) := by
  have hnone : ∀ s', ¬ Moves s j t s' := by
    intro s' hmove
    have hstep := stepThread_iff.2 ⟨t, ht, hmove⟩
    rw [hstuck j] at hstep
    cases hstep
  cases hs : t.spot with
  | outside =>
    cases hw : t.work with
    | finish => simp [Thread.isOver, hs, hw] at hover
    | emit p next => exact absurd (.emit hs hw) (hnone _)
    | inspect next =>
      cases hl : s.lock with
      | none => exact absurd (.look hs hw hl) (hnone _)
      | some k =>
        obtain ⟨hcontrolled, k, c, hunder, hawaits⟩ := h.stuck_lock hstuck hl
        exact ⟨hcontrolled, k, c, hawaits, Or.inr ⟨hunder, Or.inr ⟨rfl, next, rfl⟩⟩⟩
    | claim | split => exact absurd (.call hs (by rw [hw]; trivial)) (hnone _)
  | locking =>
    cases hl : s.lock with
    | none => exact absurd (.lock hs hl) (hnone _)
    | some k =>
      obtain ⟨hcontrolled, k, c, hunder, hawaits⟩ := h.stuck_lock hstuck hl
      exact ⟨hcontrolled, k, c, hawaits, Or.inr ⟨hunder, Or.inl rfl⟩⟩
  | held c x =>
    obtain ⟨hcontrolled, k, hawaits⟩ := h.stuck_held hstuck ((spotOf_eq ht).trans hs)
    exact ⟨hcontrolled, k, c, hawaits, Or.inl ⟨x, rfl⟩⟩
  | inside => exact absurd hs (h.stuck_not_inside hstuck ht)

end Stuck

end Signals

end Splittable
