import Splittable.Proofs.Span.Partition
import Splittable.Proofs.Tracker.Steps

/-!
# Lineages of trackers

A lineage is the family of trackers that descends from one span.  It begins with one tracker of the
span; every successful split hands back a residual, and a new tracker may take over each residual
once.  Claims, splits, checkpoints and failures come to any tracker in any order.

* `Lineage.act`, `Lineage.run`      : one deed, and a history of deeds;
* `Lineage.Sound`                   : what holds in every state of a lineage;
* `act_sound`, `run_sound`          : a deed keeps it, and so does a history;
* `run_partition`                   : the work of the first span is neither lost nor done twice.
-/

namespace Splittable

/-- The trackers that descend from one span, the residuals of successful splits that no tracker has
taken over, and the claims that were granted, in their order, each with the position of its tracker.
-/
structure Lineage where
  trackers : List Tracker
  residuals : List Span
  granted : List (Nat × Offset)

/-- What is done in a lineage.  A tracker and a residual are named by their positions; a new tracker
can `adopt` a residual. -/
inductive Deed where
  | claim (i : Nat) (p : Offset)
  | split (i : Nat) (f : Binary64)
  | checkpoint (i : Nat)
  | fail (i : Nat) (reason : String)
  | adopt (k : Nat)

namespace Lineage

/-- One tracker of the whole span. -/
def start (whole : Span) : Lineage :=
  ⟨[.new whole], [], []⟩

/-- The tracker `i` after a claim of `p`; a granted claim is written down. -/
def claimed (l : Lineage) (i : Nat) (p : Offset) (outcome : Bool × Tracker) : Lineage :=
  { l with trackers := l.trackers.set i outcome.2
           granted := l.granted ++ if outcome.1 then [(i, p)] else [] }

/-- The tracker `i` after a split; a residual that is handed back waits for a tracker. -/
def divided (l : Lineage) (i : Nat) (outcome : Except Fault Split × Tracker) : Lineage :=
  { l with trackers := l.trackers.set i outcome.2
           residuals := l.residuals ++ match outcome.1 with
             | .ok split => [split.residual]
             | .error _ => [] }

/-- One deed.  A deed that names no tracker or residual does nothing. -/
def act (l : Lineage) : Deed → Lineage
  | .claim i p =>
    match l.trackers[i]? with
    | some t => l.claimed i p (t.claim p)
    | none => l
  | .split i f =>
    match l.trackers[i]? with
    | some t => l.divided i (t.split f)
    | none => l
  | .checkpoint i =>
    match l.trackers[i]? with
    | some t => l.divided i t.checkpoint
    | none => l
  | .fail i reason =>
    match l.trackers[i]? with
    | some t => { l with trackers := l.trackers.set i (t.fail reason) }
    | none => l
  | .adopt k =>
    match l.residuals[k]? with
    | some span => { l with trackers := l.trackers ++ [.new span]
                            residuals := l.residuals.eraseIdx k }
    | none => l

/-- A history of deeds. -/
def run (l : Lineage) (deeds : List Deed) : Lineage :=
  deeds.foldl act l

/-- Everything that is owned: the spans of the trackers and the residuals without a tracker. -/
def owned (l : Lineage) : List Span :=
  l.trackers.map (·.span) ++ l.residuals

/-- What holds in every state of a lineage.  A granted offset lies in the span of its tracker and
not past the last attempt, so that the cursor, and with it every later split point, is beyond. -/
structure Sound (whole : Span) (l : Lineage) : Prop where
  ordered : ∀ t ∈ l.trackers, t.Ordered
  partition : Partition whole l.owned
  held : ∀ i p, (i, p) ∈ l.granted → ∃ t last, l.trackers[i]? = some t ∧ p ∈ t.span ∧
    t.lastAttempted = some last ∧ p ≤ last
  once : (l.granted.map Prod.snd).Nodup

theorem start_sound (whole : Span) : Sound whole (start whole) where
  ordered t ht := by
    rw [List.mem_singleton.1 ht]
    exact Tracker.ordered_new whole
  partition := Partition.single whole
  held _ _ h := by cases h
  once := List.nodup_nil

/-! ## What a tracker is replaced by -/

variable {whole : Span} {l : Lineage} {i : Nat} {t t' : Tracker}

theorem ordered_set (h : ∀ t ∈ l.trackers, t.Ordered) (ht' : t'.Ordered) :
    ∀ u ∈ l.trackers.set i t', u.Ordered := by
  intro u hu
  rcases List.mem_or_eq_of_mem_set hu with hu | rfl
  · exact h u hu
  · exact ht'

theorem map_span_set (hi : l.trackers[i]? = some t) (hspan : t'.span = t.span) :
    (l.trackers.set i t').map (·.span) = l.trackers.map (·.span) := by
  obtain ⟨hlt, rfl⟩ := List.getElem?_eq_some_iff.1 hi
  have hlt' : i < (l.trackers.map (·.span)).length := by simpa using hlt
  rw [List.map_set, hspan, ← List.getElem_map (h := hlt')]
  exact List.set_getElem_self hlt'

theorem owned_perm (hi : l.trackers[i]? = some t) :
    l.owned.Perm (t.span :: ((l.trackers.eraseIdx i).map (·.span) ++ l.residuals)) := by
  obtain ⟨hlt, rfl⟩ := List.getElem?_eq_some_iff.1 hi
  exact ((List.getElem_cons_eraseIdx_perm hlt).symm.map _).append_right _

theorem divided_perm (hi : l.trackers[i]? = some t) (t' : Tracker) (residual : Span) :
    ((l.trackers.set i t').map (·.span) ++ (l.residuals ++ [residual])).Perm
      (t'.span :: residual :: ((l.trackers.eraseIdx i).map (·.span) ++ l.residuals)) := by
  have hlt := (List.getElem?_eq_some_iff.1 hi).1
  have hset := (List.set_perm_cons_eraseIdx hlt t').map (·.span)
  apply (hset.append_right _).trans
  rw [List.map_cons, List.cons_append, ← List.append_assoc]
  exact (List.perm_append_singleton _ _).cons _

/-- Granted offsets stay where they are if every tracker keeps its attempts and, up to its cursor,
its span. -/
theorem held_set (h : Sound whole l) (hi : l.trackers[i]? = some t)
    (hkeep : ∀ p last, p ∈ t.span → t.lastAttempted = some last → p ≤ last →
      p ∈ t'.span ∧ ∃ last', t'.lastAttempted = some last' ∧ p ≤ last') :
    ∀ j p, (j, p) ∈ l.granted → ∃ u last, (l.trackers.set i t')[j]? = some u ∧ p ∈ u.span ∧
      u.lastAttempted = some last ∧ p ≤ last := by
  intro j p hp
  obtain ⟨u, last, hj, hmem, hlast, hle⟩ := h.held j p hp
  by_cases hij : i = j
  · subst hij
    cases hi.symm.trans hj
    obtain ⟨hmem', last', hlast', hle'⟩ := hkeep p last hmem hlast hle
    have hlt := (List.getElem?_eq_some_iff.1 hi).1
    exact ⟨t', last', List.getElem?_set_self hlt, hmem', hlast', hle'⟩
  · exact ⟨u, last, by rw [List.getElem?_set_ne hij]; exact hj, hmem, hlast, hle⟩

/-! ## Each deed keeps a lineage sound -/

theorem replace_sound (h : Sound whole l) (hi : l.trackers[i]? = some t) (ht' : t'.Ordered)
    (hspan : t'.span = t.span) (hlast : ∀ last, t.lastAttempted = some last →
      ∃ last', t'.lastAttempted = some last' ∧ last ≤ last') :
    Sound whole { l with trackers := l.trackers.set i t' } where
  ordered := ordered_set h.ordered ht'
  partition := by
    have hp := h.partition
    unfold owned at hp ⊢
    rw [map_span_set hi hspan]
    exact hp
  held := held_set h hi fun p last hmem hl hle => by
    obtain ⟨last', hl', hle'⟩ := hlast last hl
    exact ⟨by rw [hspan]; exact hmem, last', hl', Int64.le_trans hle hle'⟩
  once := h.once

theorem fail_sound (h : Sound whole l) (hi : l.trackers[i]? = some t) (reason : String) :
    Sound whole { l with trackers := l.trackers.set i (t.fail reason) } :=
  replace_sound h hi (h.ordered t (List.mem_of_getElem? hi)) rfl
    fun last hl => ⟨last, hl, Int64.le_refl last⟩

/-- An offset that is granted now was never granted before: on the same tracker it would not be
past the last attempt, and on another one it would lie in two spans. -/
theorem not_granted (h : Sound whole l) (hi : l.trackers[i]? = some t) {p : Offset}
    (hp : p ∈ t.span) (hlast : ∀ last, t.lastAttempted = some last → last < p) :
    p ∉ l.granted.map Prod.snd := by
  intro hmem
  obtain ⟨⟨j, q⟩, hq, rfl⟩ := List.mem_map.1 hmem
  obtain ⟨u, last, hj, hu, hl, hle⟩ := h.held j q hq
  have hspan : ∀ {k : Nat} {v : Tracker}, l.trackers[k]? = some v → l.owned[k]? = some v.span := by
    intro k v hk
    have hlt := (List.getElem?_eq_some_iff.1 hk).1
    unfold owned
    rw [List.getElem?_append_left (by simpa using hlt), List.getElem?_map, hk]
    rfl
  have hij := h.partition.unique (hspan hi) (hspan hj) hp hu
  subst hij
  cases hi.symm.trans hj
  exact Int64.not_le.2 (hlast last hl) hle

theorem claim_sound (h : Sound whole l) (hi : l.trackers[i]? = some t) (p : Offset) :
    Sound whole (l.claimed i p (t.claim p)) := by
  have ht : t.Ordered := h.ordered t (List.mem_of_getElem? hi)
  have hspec := Tracker.claim_spec t p
  have ht' := ht.claim p
  have hspan := Tracker.claim_span t p
  unfold claimed
  generalize t.claim p = outcome at *
  obtain ⟨granted, t'⟩ := outcome
  dsimp only at hspec ht' hspan ⊢
  -- every claim keeps the span; only a granted one adds an offset
  cases hspec with
  | stopped | beforeStart | backwards =>
    simpa using replace_sound h hi ht' hspan fun last hl => ⟨last, hl, Int64.le_refl last⟩
  | exhausted _ _ hlast _ =>
    simpa using replace_sound h hi ht' hspan
      fun last hl => ⟨p, rfl, Int64.le_of_lt (hlast last hl)⟩
  | granted _ hstart hlast hstop =>
    have hr := replace_sound h hi ht' hspan
      fun last hl => ⟨p, rfl, Int64.le_of_lt (hlast last hl)⟩
    refine ⟨hr.ordered, hr.partition, ?_, ?_⟩
    · intro j q hq
      rcases List.mem_append.1 hq with hq | hq
      · exact hr.held j q hq
      · obtain ⟨rfl, rfl⟩ : j = i ∧ q = p := by simpa using hq
        have hlt := (List.getElem?_eq_some_iff.1 hi).1
        exact ⟨_, q, List.getElem?_set_self hlt, ⟨hstart, hstop⟩, rfl, Int64.le_refl q⟩
    · have hnew := not_granted h hi ⟨hstart, hstop⟩ hlast
      simp only [if_true, List.map_append, List.map_cons, List.map_nil]
      exact List.nodup_append.2 ⟨h.once, by simp, fun a ha b hb hab => by
        rw [List.mem_singleton.1 hb] at hab
        exact hnew (hab ▸ ha)⟩

theorem split_sound (h : Sound whole l) (hi : l.trackers[i]? = some t) (f : Binary64) :
    Sound whole (l.divided i (t.split f)) := by
  have ht : t.Ordered := h.ordered t (List.mem_of_getElem? hi)
  have hspec := Tracker.split_spec ht f
  have ht' := ht.split f
  unfold divided
  generalize t.split f = outcome at *
  obtain ⟨result, t'⟩ := outcome
  dsimp only at hspec ht' ⊢
  cases hspec with
  | invalid | nothing =>
    simpa using replace_sound h hi ht rfl fun last hl => ⟨last, hl, Int64.le_refl last⟩
  | cut point _ _ hcursor hlow hhigh _ =>
    have hstart : t.span.start ≤ point := Int64.le_trans ht.start_le_cursor hlow
    refine ⟨ordered_set h.ordered ht', ?_, ?_, h.once⟩
    · -- the span of the tracker is cut in two; the right part goes to the residuals
      have hcut := (h.partition.of_perm (owned_perm hi)).cut hstart hhigh
      exact hcut.of_perm (divided_perm hi { t with span := ⟨t.span.start, point⟩ } _).symm
    · refine held_set h hi fun p last hmem hl hle => ⟨⟨hmem.1, ?_⟩, last, hl, hle⟩
      exact Int64.lt_of_le_of_lt hle
        (Int64.lt_of_lt_of_le (Tracker.lt_cursor_of_attempted hl hcursor) hlow)

theorem adopt_sound (h : Sound whole l) {k : Nat} {span : Span}
    (hk : l.residuals[k]? = some span) :
    Sound whole { l with trackers := l.trackers ++ [.new span]
                         residuals := l.residuals.eraseIdx k } where
  ordered u hu := by
    rcases List.mem_append.1 hu with hu | hu
    · exact h.ordered u hu
    · rw [List.mem_singleton.1 hu]
      exact Tracker.ordered_new span
  partition := by
    obtain ⟨hlt, rfl⟩ := List.getElem?_eq_some_iff.1 hk
    apply h.partition.of_perm
    simp only [owned, List.map_append, List.map_cons, List.map_nil, List.append_assoc]
    exact (List.getElem_cons_eraseIdx_perm hlt).symm.append_left _
  held i p hp := by
    obtain ⟨u, last, hi, hrest⟩ := h.held i p hp
    have hlt := (List.getElem?_eq_some_iff.1 hi).1
    exact ⟨u, last, by rw [List.getElem?_append_left hlt]; exact hi, hrest⟩
  once := h.once

/-- **A deed keeps a lineage sound.** -/
theorem act_sound (h : Sound whole l) (deed : Deed) : Sound whole (l.act deed) := by
  cases deed with
  | claim i p =>
    simp only [act]
    split
    · exact claim_sound h ‹_› p
    · exact h
  | split i f =>
    simp only [act]
    split
    · exact split_sound h ‹_› f
    · exact h
  | checkpoint i =>
    simp only [act]
    split
    · exact split_sound h ‹_› .zero
    · exact h
  | fail i reason =>
    simp only [act]
    split
    · exact fail_sound h ‹_› reason
    · exact h
  | adopt k =>
    simp only [act]
    split
    · exact adopt_sound h ‹_›
    · exact h

/-- **So does a history of deeds.** -/
theorem run_sound (h : Sound whole l) (deeds : List Deed) : Sound whole (l.run deeds) := by
  induction deeds generalizing l with
  | nil => exact h
  | cons deed deeds ih => exact ih (act_sound h deed)

/-- **The work of a span is neither lost nor done twice.**  After any history of deeds the spans of
all trackers and the residuals without a tracker share no offset and hold exactly the offsets of
the first span.  No offset is granted twice, by one tracker or by two, and a granted offset lies in
the span of its tracker, however that was split afterwards. -/
theorem run_partition (whole : Span) (deeds : List Deed) :
    let l := (start whole).run deeds
    (l.trackers.map (·.span) ++ l.residuals).Pairwise Span.Apart ∧
    (∀ p, p ∈ whole ↔ ∃ s ∈ l.trackers.map (·.span) ++ l.residuals, p ∈ s) ∧
    (l.granted.map Prod.snd).Nodup ∧
    ∀ i p, (i, p) ∈ l.granted → ∃ t, l.trackers[i]? = some t ∧ p ∈ t.span := by
  intro l
  have h : Sound whole l := run_sound (start_sound whole) deeds
  refine ⟨h.partition.apart, h.partition.covers, h.once, fun i p hp => ?_⟩
  obtain ⟨t, last, hi, hmem, _⟩ := h.held i p hp
  exact ⟨t, hi, hmem⟩

end Lineage

end Splittable
