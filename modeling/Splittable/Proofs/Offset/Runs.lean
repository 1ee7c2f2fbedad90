import Splittable.Offset

/-!
# Runs of consecutive offsets

`Offset.run start stop` lists `start`, `start + 1`, …, `stop - 1`; it is what a work that claims
every offset of a span emits, and what an outcome is verified against.

* `run_append`     : runs that meet are one run;
* `run_succ`       : a run is extended by the offset at its end;
* `mem_run`        : the offsets of a run, each of which comes once (`nodup_run`);
* `isRun_iff`      : the check of a list offset by offset accepts exactly the run.
-/

namespace Splittable.Offset

/-! ## Offsets as integers -/

theorem le_iff {p q : Offset} : p ≤ q ↔ p.toInt ≤ q.toInt := Int64.le_iff_toInt_le

theorem lt_iff {p q : Offset} : p < q ↔ p.toInt < q.toInt := Int64.lt_iff_toInt_lt

theorem eq_iff {p q : Offset} : p = q ↔ p.toInt = q.toInt := Int64.toInt_inj.symm

theorem after_of_lt {p q : Offset} (h : p < q) : p.after = p + 1 := by
  have hne : p ≠ Int64.maxValue := by
    rintro rfl
    have h₁ := lt_iff.1 h
    have h₂ := q.toInt_le
    omega
  simp [after, hne]

theorem le_after (p : Offset) : p ≤ p.after := by
  unfold after
  split
  · exact Int64.le_refl p
  · rename_i hne
    have hlt : p < Int64.maxValue := by
      have h₁ := p.toInt_le
      have h₂ : p.toInt ≠ Int64.maxValue.toInt := fun h => hne (eq_iff.2 h)
      rw [lt_iff]
      omega
    rw [le_iff, toInt_add_one hlt]
    omega

theorem lt_of_after_lt {p q : Offset} (h : p.after < q) : p < q := by
  have h₁ := le_iff.1 (le_after p)
  have h₂ := lt_iff.1 h
  rw [lt_iff]
  omega

/-- The next offset is greater unless there is none. -/
theorem lt_after_of_after_lt {p q : Offset} (h : p.after < q) : p < p.after := by
  have hlt := lt_of_after_lt h
  rw [after_of_lt hlt, lt_iff, toInt_add_one hlt]
  omega

theorem le_add_one {p q : Offset} (h : p < q) : p ≤ p + 1 := by
  rw [le_iff, toInt_add_one h]
  omega

theorem add_one_le {p q : Offset} (h : p < q) : p + 1 ≤ q := by
  have hlt := lt_iff.1 h
  rw [le_iff, toInt_add_one h]
  omega

theorem ofInt?_eq_some {n : Int} (low high : Offset) (hlow : low.toInt ≤ n)
    (hhigh : n ≤ high.toInt) : ∃ p : Offset, ofInt? n = some p ∧ p.toInt = n := by
  have h₁ := low.minValue_le_toInt
  have h₂ := high.toInt_le
  refine ⟨Int64.ofInt n, if_pos ⟨by omega, by omega⟩, ?_⟩
  have h₃ := low.le_toInt
  have h₄ := high.toInt_lt
  exact Int64.toInt_ofInt_of_le (by omega) (by omega)

/-! ## Runs -/

/-- The offsets `start`, `start + 1`, …, `stop - 1`. -/
def run (start stop : Offset) : List Offset :=
  (List.range (stop.toInt - start.toInt).toNat).map fun (i : Nat) => Int64.ofInt (start.toInt + i)

/-- The offset `i` places after the start of a run has the integer value it should. -/
theorem toInt_place {start stop : Offset} {i : Nat} (h : i < (stop.toInt - start.toInt).toNat) :
    (Int64.ofInt (start.toInt + i)).toInt = start.toInt + i := by
  have h₁ := start.le_toInt
  have h₂ := stop.toInt_lt
  exact Int64.toInt_ofInt_of_le (by omega) (by omega)

@[simp] theorem length_run (start stop : Offset) :
    (run start stop).length = (stop.toInt - start.toInt).toNat := by
  simp [run]

theorem run_eq_nil {start stop : Offset} (h : stop ≤ start) : run start stop = [] := by
  have hle := le_iff.1 h
  rw [← List.length_eq_zero_iff, length_run]
  omega

@[simp] theorem run_self (p : Offset) : run p p = [] :=
  run_eq_nil (Int64.le_refl p)

theorem mem_run {p start stop : Offset} : p ∈ run start stop ↔ start ≤ p ∧ p < stop := by
  simp only [run, List.mem_map, List.mem_range, le_iff, lt_iff]
  constructor
  · rintro ⟨i, hi, rfl⟩
    rw [toInt_place hi]
    omega
  · rintro ⟨hlow, hhigh⟩
    have hi : (p.toInt - start.toInt).toNat < (stop.toInt - start.toInt).toNat := by omega
    refine ⟨_, hi, eq_iff.2 ?_⟩
    rw [toInt_place hi]
    omega

theorem nodup_run (start stop : Offset) : (run start stop).Nodup := by
  unfold run List.Nodup
  rw [List.pairwise_map]
  refine List.nodup_range.imp_of_mem fun hi hj hne heq => hne ?_
  have hvalue := eq_iff.1 heq
  rw [toInt_place (List.mem_range.1 hi), toInt_place (List.mem_range.1 hj)] at hvalue
  omega

/-- **Runs that meet are one run.** -/
theorem run_append {start middle stop : Offset} (h₁ : start ≤ middle) (h₂ : middle ≤ stop) :
    run start middle ++ run middle stop = run start stop := by
  rw [le_iff] at h₁ h₂
  have hlen : (stop.toInt - start.toInt).toNat =
      (middle.toInt - start.toInt).toNat + (stop.toInt - middle.toInt).toNat := by omega
  simp only [run, hlen, List.range_add, List.map_append, List.map_map]
  congr 1
  refine List.map_congr_left fun i _ => ?_
  simp only [Function.comp]
  congr 1
  omega

theorem run_singleton {p q : Offset} (h : p < q) : run p (p + 1) = [p] := by
  simp [run, toInt_add_one h, show p.toInt + 1 - p.toInt = 1 by omega]

theorem run_succ {start p q : Offset} (h : start ≤ p) (hp : p < q) :
    run start (p + 1) = run start p ++ [p] := by
  rw [← run_append h (le_add_one hp), run_singleton hp]

theorem run_cons {start stop : Offset} (h : start < stop) :
    run start stop = start :: run (start + 1) stop := by
  rw [← run_append (le_add_one h) (add_one_le h), run_singleton h]
  rfl

/-- **The check offset by offset accepts exactly the run.** -/
theorem isRun_iff {start stop : Offset} {ps : List Offset} :
    isRun start stop ps = true ↔ ps = run start stop := by
  induction ps generalizing start with
  | nil =>
    simp only [isRun, decide_eq_true_eq]
    constructor
    · intro h
      exact (run_eq_nil h).symm
    · intro h
      have hlen := congrArg List.length h
      rw [length_run, List.length_nil] at hlen
      rw [le_iff]
      omega
  | cons p ps ih =>
    simp only [isRun, Bool.and_eq_true, decide_eq_true_eq, ih]
    constructor
    · rintro ⟨⟨rfl, hlt⟩, hps⟩
      rw [run_cons hlt, hps, after_of_lt hlt]
    · intro h
      have hlt : start < stop := by
        refine Int64.not_le.1 fun hle => ?_
        rw [run_eq_nil hle] at h
        cases h
      rw [run_cons hlt] at h
      obtain ⟨rfl, hps⟩ := List.cons.inj h
      exact ⟨⟨rfl, hlt⟩, by rw [hps, after_of_lt hlt]⟩

end Splittable.Offset
