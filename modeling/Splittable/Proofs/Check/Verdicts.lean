import Mathlib.Data.List.Chain
import Splittable.Check
import Splittable.Proofs.Offset.Runs
import Splittable.Proofs.Tracker.Histories

/-!
# What the checks find

Each check passes exactly what it says, and what it reports is the first thing that is wrong.  The
offsets that are expected are listed before anything is compared, so where they are more than a list
has room for, nothing is said about the offsets that came.

* `DiffersFirstAt`, `DecreasesFirstAt` : where two lists part, and where one list first decreases;
* `checkContiguous_eq_ok_iff`, `checkContiguous_eq_error_iff` : the offsets of a range;
* `checkMonotonic_eq_ok_iff`, `checkMonotonic_eq_error_iff`   : offsets that never decrease;
* `checkPartition_eq_ok_iff`, `checkPartition_split`          : a split, and one of a tracker;
* `checks_spec`            : the three checks on any input;
* `checkContiguous_widest` : a count that is not reported.
-/

namespace Splittable

variable {ps qs : List Offset} {start stop p q : Offset} {i k : Nat} {n : Int}

/-- The lists agree before the place `i` and differ there. -/
def DiffersFirstAt (ps qs : List Offset) (i : Nat) : Prop :=
  i < ps.length ∧ ps.take i = qs.take i ∧ ps[i]? ≠ qs[i]?

/-- Up to the place `i` the offsets never decrease; there is `p`, and after it `q`, which is
less. -/
def DecreasesFirstAt (ps : List Offset) (i : Nat) (p q : Offset) : Prop :=
  (ps.take (i + 1)).Pairwise (· ≤ ·) ∧ ps[i]? = some p ∧ ps[i + 1]? = some q ∧ q < p

/-! ## Counting offsets -/

/-- The offsets are `n`, `n + 1` and so on. -/
def CountsFrom (n : Int) (ps : List Offset) : Prop :=
  ∀ (j : Nat) p, ps[j]? = some p → p.toInt = n + j

theorem countsFrom_nil : CountsFrom n [] := by
  intro j p h
  simp at h

theorem countsFrom_cons : CountsFrom n (p :: ps) ↔ p.toInt = n ∧ CountsFrom (n + 1) ps := by
  constructor
  · intro h
    refine ⟨by simpa using h 0 p rfl, fun j q hq => ?_⟩
    have hq' := h (j + 1) q (by simpa using hq)
    push_cast at hq'
    omega
  · rintro ⟨hp, h⟩ j q hq
    cases j with
    | zero =>
      obtain rfl : p = q := by simpa using hq
      simpa using hp
    | succ j =>
      have hq' := h j q (by simpa using hq)
      push_cast
      omega

theorem firstMismatch_eq_none_iff : firstMismatch k n ps = none ↔ CountsFrom n ps := by
  induction ps generalizing k n with
  | nil => simp [firstMismatch, countsFrom_nil]
  | cons p ps ih =>
    rw [countsFrom_cons, firstMismatch]
    split
    · rename_i hp
      simp [hp, ih]
    · rename_i hp
      simp [hp]

theorem firstMismatch_eq_some_iff :
    firstMismatch k n ps = some i ↔
      ∃ j p, i = k + j ∧ CountsFrom n (ps.take j) ∧ ps[j]? = some p ∧ p.toInt ≠ n + j := by
  induction ps generalizing k n with
  | nil => simp [firstMismatch]
  | cons p ps ih =>
    rw [firstMismatch]
    split
    · rename_i hp
      rw [ih]
      constructor
      · rintro ⟨j, q, rfl, hcounts, hq, hne⟩
        refine ⟨j + 1, q, by omega, countsFrom_cons.2 ⟨hp, hcounts⟩, by simpa using hq, ?_⟩
        push_cast
        omega
      · rintro ⟨j, q, rfl, hcounts, hq, hne⟩
        cases j with
        | zero =>
          obtain rfl : p = q := by simpa using hq
          exact absurd hp (by simpa using hne)
        | succ j =>
          refine ⟨j, q, by omega, (countsFrom_cons.1 hcounts).2, by simpa using hq, ?_⟩
          push_cast at hne
          omega
    · rename_i hp
      constructor
      · intro h
        obtain rfl : k = i := by simpa using h
        exact ⟨0, p, rfl, countsFrom_nil, rfl, by simpa using hp⟩
      · rintro ⟨j, q, rfl, hcounts, -⟩
        cases j with
        | zero => rfl
        | succ j => exact absurd (countsFrom_cons.1 hcounts).1 hp

theorem getElem?_run (h : i < (Offset.run start stop).length) :
    (Offset.run start stop)[i]? = some p ↔ p.toInt = start.toInt + i := by
  rw [Offset.length_run] at h
  have hplace : (Offset.run start stop)[i]? = some (Int64.ofInt (start.toInt + i)) := by
    simp [Offset.run, h]
  rw [hplace, Option.some.injEq, Offset.eq_iff, Offset.toInt_place h]
  exact eq_comm

theorem countsFrom_iff (h : ps.length ≤ (Offset.run start stop).length) :
    CountsFrom start.toInt ps ↔ ps = (Offset.run start stop).take ps.length := by
  constructor
  · intro hcounts
    refine List.ext_getElem? fun j => ?_
    rcases lt_or_ge j ps.length with hj | hj
    · rw [List.getElem?_take_of_lt hj, List.getElem?_eq_getElem hj, eq_comm,
        getElem?_run (hj.trans_le h)]
      exact hcounts j _ (List.getElem?_eq_getElem hj)
    · rw [List.getElem?_eq_none hj, List.getElem?_take_eq_none hj]
  · intro heq j p hp
    have hj : j < ps.length := (List.getElem?_eq_some_iff.1 hp).1
    rw [heq, List.getElem?_take_of_lt hj] at hp
    exact (getElem?_run (hj.trans_le h)).1 hp

/-! ## The offsets of a range -/

theorem offsetCount_eq (start stop : Offset) :
    offsetCount start stop = (Offset.run start stop).length :=
  (Offset.length_run start stop).symm

/-- Among as many offsets as there should be, the first mismatch is where they part from the run. -/
theorem firstMismatch_run (h : ps.length = (Offset.run start stop).length) :
    firstMismatch 0 start.toInt ps = some i ↔ DiffersFirstAt ps (Offset.run start stop) i := by
  rw [firstMismatch_eq_some_iff]
  have htake : ∀ j, j < ps.length → (CountsFrom start.toInt (ps.take j) ↔
      ps.take j = (Offset.run start stop).take j) := by
    intro j hj
    have hlength : (ps.take j).length = j := by
      rw [List.length_take]
      omega
    have hle : (ps.take j).length ≤ (Offset.run start stop).length := by omega
    rw [countsFrom_iff hle, hlength]
  constructor
  · rintro ⟨j, p, rfl, hcounts, hp, hne⟩
    have hj : j < ps.length := (List.getElem?_eq_some_iff.1 hp).1
    rw [Nat.zero_add]
    refine ⟨hj, (htake j hj).1 hcounts, fun heq => hne ?_⟩
    exact (getElem?_run (h ▸ hj)).1 (heq ▸ hp)
  · rintro ⟨hi, hbefore, hdiffers⟩
    have hp := List.getElem?_eq_getElem hi
    refine ⟨i, ps[i], (Nat.zero_add i).symm, (htake i hi).2 hbefore, hp, fun heq => hdiffers ?_⟩
    rw [hp, (getElem?_run (h ▸ hi)).2 heq]

theorem checkContiguous_of_crowded (hfits : Offset.fits start stop = false) :
    checkContiguous ps start stop = .error (.crowded start stop) := by
  rw [checkContiguous, if_pos (by simp [hfits])]

theorem checkContiguous_of_length_ne (hfits : Offset.fits start stop = true)
    (h : ps.length ≠ (Offset.run start stop).length) :
    checkContiguous ps start stop = .error (.count ps start stop) := by
  rw [checkContiguous, if_neg (not_not_intro hfits), offsetCount_eq, if_pos h]

theorem checkContiguous_of_length_eq (hfits : Offset.fits start stop = true)
    (h : ps.length = (Offset.run start stop).length) :
    checkContiguous ps start stop =
      match firstMismatch 0 start.toInt ps with
      | some index => .error (.mismatch index ps)
      | none => .ok () := by
  have hcount : ps.length = offsetCount start stop := by rw [offsetCount_eq, h]
  cases hmismatch : firstMismatch 0 start.toInt ps <;>
    simp [checkContiguous, hfits, hcount, hmismatch]

/-- **What the check reports**: that there are too many offsets, else their number if it is wrong,
else the first place at which they are. -/
theorem checkContiguous_eq_error_iff {v : Violation} :
    checkContiguous ps start stop = .error v ↔
      (Offset.fits start stop = false ∧ v = .crowded start stop) ∨
      (Offset.fits start stop = true ∧ ps.length ≠ (Offset.run start stop).length ∧
        v = .count ps start stop) ∨
      (Offset.fits start stop = true ∧ ps.length = (Offset.run start stop).length ∧
        ∃ i, DiffersFirstAt ps (Offset.run start stop) i ∧ v = .mismatch i ps) := by
  cases hfits : Offset.fits start stop with
  | false => simp [checkContiguous_of_crowded hfits, eq_comm (a := v)]
  | true =>
    by_cases h : ps.length = (Offset.run start stop).length
    · simp only [checkContiguous_of_length_eq hfits h, ← firstMismatch_run h, h]
      cases firstMismatch 0 start.toInt ps <;> simp [eq_comm (a := v)]
    · simp [checkContiguous_of_length_ne hfits h, h, -Offset.length_run, eq_comm (a := v)]

/-- **The check passes exactly the run**, as far as there is room for it. -/
theorem checkContiguous_eq_ok_iff :
    checkContiguous ps start stop = .ok () ↔
      ps = Offset.run start stop ∧ ps.length ≤ Offset.room := by
  have hroom : Offset.fits start stop = true ↔ (Offset.run start stop).length ≤ Offset.room := by
    rw [Offset.fits, Offset.length_run, decide_eq_true_iff]
  cases hfits : Offset.fits start stop with
  | false =>
    rw [checkContiguous_of_crowded hfits]
    refine iff_of_false nofun ?_
    rintro ⟨rfl, hlength⟩
    rw [hroom.2 hlength] at hfits
    cases hfits
  | true =>
    by_cases h : ps.length = (Offset.run start stop).length
    · have hnone : firstMismatch 0 start.toInt ps = none ↔ ps = Offset.run start stop := by
        rw [firstMismatch_eq_none_iff, countsFrom_iff h.le, List.take_of_length_le h.ge]
      rw [checkContiguous_of_length_eq hfits h, ← hnone, h, and_iff_left (hroom.1 hfits)]
      cases firstMismatch 0 start.toInt ps <;> simp
    · rw [checkContiguous_of_length_ne hfits h]
      refine iff_of_false nofun ?_
      rintro ⟨rfl, -⟩
      exact h rfl

/-! ## Offsets that never decrease -/

theorem firstDecrease_eq_none_iff : firstDecrease ps = none ↔ ps.Pairwise (· ≤ ·) := by
  rw [← List.isChain_iff_pairwise]
  induction ps using firstDecrease.induct with
  | case1 p q rest hlt =>
    rw [firstDecrease, if_pos hlt, List.isChain_cons_cons]
    simp [Int64.not_le.2 hlt]
  | case2 p q rest hle ih =>
    rw [firstDecrease, if_neg hle, List.isChain_cons_cons, ih]
    simp [Int64.not_lt.1 hle]
  | case3 ps hshort =>
    rw [firstDecrease]
    · rcases ps with _ | ⟨p, _ | ⟨q, rest⟩⟩
      · simp
      · simp
      · exact absurd rfl (hshort p q rest)
    · exact hshort

theorem firstDecrease_eq_some_iff :
    firstDecrease ps = some (p, q) ↔ ∃ i, DecreasesFirstAt ps i p q := by
  unfold DecreasesFirstAt
  simp only [← List.isChain_iff_pairwise]
  induction ps using firstDecrease.induct with
  | case1 a b rest hlt =>
    rw [firstDecrease, if_pos hlt]
    constructor
    · intro h
      obtain ⟨rfl, rfl⟩ : a = p ∧ b = q := by simpa using h
      exact ⟨0, by simp, rfl, rfl, hlt⟩
    · rintro ⟨i, hchain, ha, hb, -⟩
      cases i with
      | zero =>
        obtain rfl : a = p := by simpa using ha
        obtain rfl : b = q := by simpa using hb
        rfl
      | succ i => exact absurd (List.isChain_cons_cons.1 hchain).1 (Int64.not_le.2 hlt)
  | case2 a b rest hle ih =>
    rw [firstDecrease, if_neg hle, ih]
    constructor
    · rintro ⟨i, hchain, ha, hb, hlt⟩
      exact ⟨i + 1, List.isChain_cons_cons.2 ⟨Int64.not_lt.1 hle, hchain⟩, ha, hb, hlt⟩
    · rintro ⟨i, hchain, ha, hb, hlt⟩
      cases i with
      | zero =>
        obtain rfl : a = p := by simpa using ha
        obtain rfl : b = q := by simpa using hb
        exact absurd hlt hle
      | succ i => exact ⟨i, (List.isChain_cons_cons.1 hchain).2, ha, hb, hlt⟩
  | case3 ps hshort =>
    rw [firstDecrease]
    · rcases ps with _ | ⟨a, _ | ⟨b, rest⟩⟩
      · simp
      · simp
      · exact absurd rfl (hshort a b rest)
    · exact hshort

/-- **The check passes exactly the offsets that never decrease.** -/
theorem checkMonotonic_eq_ok_iff : checkMonotonic ps = .ok () ↔ ps.Pairwise (· ≤ ·) := by
  rw [← firstDecrease_eq_none_iff]
  unfold checkMonotonic
  cases firstDecrease ps <;> simp

/-- **What the check reports**: the first decrease. -/
theorem checkMonotonic_eq_error_iff {v : Violation} :
    checkMonotonic ps = .error v ↔
      ∃ i p q, DecreasesFirstAt ps i p q ∧ v = .decrease p q ps := by
  have hfound : checkMonotonic ps = .error v ↔
      ∃ p q, firstDecrease ps = some (p, q) ∧ v = .decrease p q ps := by
    unfold checkMonotonic
    rcases firstDecrease ps with _ | ⟨a, b⟩
    · simp
    · simp [eq_comm]
  simp only [hfound, firstDecrease_eq_some_iff]
  constructor
  · rintro ⟨p, q, ⟨i, hi⟩, hv⟩
    exact ⟨i, p, q, hi, hv⟩
  · rintro ⟨i, p, q, hi, hv⟩
    exact ⟨p, q, ⟨i, hi⟩, hv⟩

/-! ## Splits -/

/-- **The check passes exactly the splits of what is not claimed.** -/
theorem checkPartition_eq_ok_iff {whole : Span} {cursor : Offset} {s : Split} :
    checkPartition whole cursor s = .ok () ↔
      s.primary.start = cursor ∧ s.primary.stop = s.residual.start ∧
        s.residual.stop = whole.stop ∧ s.primary.start ≤ s.primary.stop ∧
        s.primary.stop ≤ whole.stop := by
  unfold checkPartition
  dsimp only
  split
  · rename_i hstart
    exact iff_of_false nofun fun h => hstart h.1
  split
  · rename_i hmeet
    exact iff_of_false nofun fun h => hmeet h.2.1
  split
  · rename_i hend
    exact iff_of_false nofun fun h => hend h.2.2.1
  split
  · rename_i hinside
    exact iff_of_false nofun fun h => hinside h.2.2.2
  · rename_i hstart hmeet hend hinside
    exact iff_of_true rfl
      ⟨not_not.1 hstart, not_not.1 hmeet, not_not.1 hend, not_not.1 hinside⟩

/-- **What a split of a tracker gives passes.** -/
theorem checkPartition_split {t : Tracker} (h : t.Ordered) {f : Binary64} {s : Split}
    (hs : (t.split f).1 = .ok s) : checkPartition t.span t.cursor s = .ok () := by
  have hspec := Tracker.split_spec h f
  generalize (t.split f).1 = result, (t.split f).2 = t' at hspec hs
  cases hspec with
  | invalid | nothing => cases hs
  | cut point _ _ _ hlow hhigh =>
    cases hs
    exact checkPartition_eq_ok_iff.2 ⟨rfl, rfl, rfl, hlow, hhigh⟩

/-! ## The three checks -/

/-- **What the checks find.**  The offsets of a range pass exactly if they are that range, in a list
that has room for them.  Otherwise, if the offsets that are expected are too many for a list, that
is reported and nothing else; else their number if it differs, and else the first place that does.
Offsets pass as never decreasing exactly if no earlier one is greater than a later one; otherwise
the first decrease is reported.  What a split of a tracker gives, after any history, passes as a
division of what was not claimed. -/
theorem checks_spec (ps : List Offset) (start stop : Offset) (span : Span)
    (uses : List Tracker.Use) :
    (checkContiguous ps start stop = .ok () ↔
      ps = Offset.run start stop ∧ ps.length ≤ Offset.room) ∧
    (∀ v, checkContiguous ps start stop = .error v ↔
      (Offset.fits start stop = false ∧ v = .crowded start stop) ∨
      (Offset.fits start stop = true ∧ ps.length ≠ (Offset.run start stop).length ∧
        v = .count ps start stop) ∨
      (Offset.fits start stop = true ∧ ps.length = (Offset.run start stop).length ∧
        ∃ i, DiffersFirstAt ps (Offset.run start stop) i ∧ v = .mismatch i ps)) ∧
    (checkMonotonic ps = .ok () ↔ ps.Pairwise (· ≤ ·)) ∧
    (∀ v, checkMonotonic ps = .error v ↔
      ∃ i p q, DecreasesFirstAt ps i p q ∧ v = .decrease p q ps) ∧
    (∀ whole cursor s, checkPartition whole cursor s = .ok () ↔
      s.primary.start = cursor ∧ s.primary.stop = s.residual.start ∧
        s.residual.stop = whole.stop ∧ s.primary.start ≤ s.primary.stop ∧
        s.primary.stop ≤ whole.stop) ∧
    (∀ f s, (((Tracker.new span).after uses).split f).1 = .ok s →
      let t := (Tracker.new span).after uses
      checkPartition t.span t.cursor s = .ok ()) :=
  ⟨checkContiguous_eq_ok_iff, fun _ => checkContiguous_eq_error_iff, checkMonotonic_eq_ok_iff,
    fun _ => checkMonotonic_eq_error_iff, fun _ _ _ => checkPartition_eq_ok_iff,
    fun _ _ h => checkPartition_split (Tracker.after_consistent span uses).ordered h⟩

/-- No offset came of the widest range: the number differs, and it is not what is reported. -/
theorem checkContiguous_widest :
    checkContiguous [] Int64.minValue Int64.maxValue =
        .error (.crowded Int64.minValue Int64.maxValue) ∧
      offsetCount Int64.minValue Int64.maxValue = 18446744073709551615 := by
  decide +kernel

end Splittable
