import Mathlib.Data.List.Perm.Basic
import Splittable.Proofs.Offset.Runs
import Splittable.Span

/-!
# Partitions of a span

A span is read as the set of its offsets.  A list of spans is a partition of a whole if no two of
them share an offset and together they hold exactly the offsets of the whole.

* `Partition.of_perm` : the order of the parts does not matter;
* `Partition.cut`     : cutting one part in two keeps a partition;
* `Partition.keep`    : so does handing back what was cut off, unless it is empty;
* `Partition.unique`  : an offset lies in one part only.
-/

namespace Splittable

namespace Span

instance : Membership Offset Span := ⟨fun s p => s.start ≤ p ∧ p < s.stop⟩

theorem mem_iff {s : Span} {p : Offset} : p ∈ s ↔ s.start ≤ p ∧ p < s.stop := Iff.rfl

/-- No offset lies in both. -/
def Apart (a b : Span) : Prop :=
  ∀ p, p ∈ a → p ∉ b

theorem Apart.symm {a b : Span} (h : Apart a b) : Apart b a :=
  fun p hb ha => h p ha hb

theorem mem_cut {a m b p : Offset} (h₁ : a ≤ m) (h₂ : m ≤ b) :
    p ∈ Span.mk a b ↔ p ∈ Span.mk a m ∨ p ∈ Span.mk m b := by
  simp only [mem_iff, Offset.le_iff, Offset.lt_iff] at *
  omega

theorem apart_cut (a m b : Offset) : Apart ⟨a, m⟩ ⟨m, b⟩ := by
  intro p h₁ h₂
  simp only [mem_iff, Offset.le_iff, Offset.lt_iff] at *
  omega

end Span

/-- The parts divide the whole: no two of them share an offset, and together they hold exactly the
offsets of the whole. -/
structure Partition (whole : Span) (parts : List Span) : Prop where
  apart : parts.Pairwise Span.Apart
  covers : ∀ p, p ∈ whole ↔ ∃ s ∈ parts, p ∈ s

namespace Partition

variable {whole : Span} {parts : List Span}

theorem single (whole : Span) : Partition whole [whole] :=
  ⟨List.pairwise_singleton _ _, fun p => by simp⟩

theorem of_perm {parts' : List Span} (h : Partition whole parts) (hp : parts.Perm parts') :
    Partition whole parts' := by
  refine ⟨(hp.pairwise_iff Span.Apart.symm).1 h.apart, fun p => ?_⟩
  rw [h.covers p]
  constructor
  · rintro ⟨s, hs, hmem⟩
    exact ⟨s, hp.mem_iff.1 hs, hmem⟩
  · rintro ⟨s, hs, hmem⟩
    exact ⟨s, hp.mem_iff.2 hs, hmem⟩

/-- **Cutting a part in two keeps a partition.** -/
theorem cut {a m b : Offset} (h : Partition whole (⟨a, b⟩ :: parts)) (h₁ : a ≤ m) (h₂ : m ≤ b) :
    Partition whole (⟨a, m⟩ :: ⟨m, b⟩ :: parts) := by
  obtain ⟨hfirst, hrest⟩ := List.pairwise_cons.1 h.apart
  have hleft : ∀ s ∈ parts, Span.Apart ⟨a, m⟩ s :=
    fun s hs p hp => hfirst s hs p ((Span.mem_cut h₁ h₂).2 (Or.inl hp))
  have hright : ∀ s ∈ parts, Span.Apart ⟨m, b⟩ s :=
    fun s hs p hp => hfirst s hs p ((Span.mem_cut h₁ h₂).2 (Or.inr hp))
  refine ⟨?_, fun p => ?_⟩
  · refine List.pairwise_cons.2 ⟨fun s hs => ?_, List.pairwise_cons.2 ⟨hright, hrest⟩⟩
    rcases List.mem_cons.1 hs with rfl | hs
    · exact Span.apart_cut a m b
    · exact hleft s hs
  · rw [h.covers p]
    simp only [List.mem_cons, exists_eq_or_imp, Span.mem_cut h₁ h₂, or_assoc]

theorem drop {s : Span} (h : Partition whole (s :: parts)) (hs : ∀ p, p ∉ s) :
    Partition whole parts := by
  refine ⟨(List.pairwise_cons.1 h.apart).2, fun p => ?_⟩
  rw [h.covers p]
  simp only [List.mem_cons, exists_eq_or_imp]
  exact or_iff_right (hs p)

/-- **Handing back what was cut off a part keeps a partition**, whether or not what is empty is
handed back. -/
theorem keep {a m b : Offset} (h : Partition whole (⟨a, b⟩ :: parts)) (h₁ : a ≤ m) (h₂ : m ≤ b) :
    Partition whole (⟨a, m⟩ :: (parts ++ if !(Span.mk m b).isEmpty then [⟨m, b⟩] else [])) := by
  have hcut := h.cut h₁ h₂
  split
  · exact hcut.of_perm ((List.perm_append_singleton _ parts).symm.cons _)
  · rename_i hempty
    rw [List.append_nil]
    refine (hcut.of_perm (List.Perm.swap _ _ _)).drop fun p hp => ?_
    have hle : b ≤ m := by simpa [Span.isEmpty] using hempty
    exact Int64.not_le.2 hp.2 (Int64.le_trans hle hp.1)

/-- An offset lies in one part only. -/
theorem unique (h : Partition whole parts) {i j : Nat} {a b : Span} {p : Offset}
    (hi : parts[i]? = some a) (hj : parts[j]? = some b) (ha : p ∈ a) (hb : p ∈ b) : i = j := by
  obtain ⟨hilt, rfl⟩ := List.getElem?_eq_some_iff.1 hi
  obtain ⟨hjlt, rfl⟩ := List.getElem?_eq_some_iff.1 hj
  have hpair := List.pairwise_iff_getElem.1 h.apart
  rcases Nat.lt_trichotomy i j with hlt | heq | hlt
  · exact absurd hb (hpair i j hilt hjlt hlt p ha)
  · exact heq
  · exact absurd ha (hpair j i hjlt hilt hlt p hb)

end Partition

end Splittable
