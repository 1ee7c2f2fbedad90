import Splittable.Proofs.Json.Records

/-!
# Spans, splits and settings in JSON

Each of the ways to write a span, a split or settings is read back as the value, inverted bounds and
extreme integers included.  The parts of a split are spans, written in any of the ways themselves.

* `Span.WrittenAs`, `Split.WrittenAs`, `Settings.WrittenAs` : the ways to write a value;
* `ofJson?_writtenAs` : what is read from them, one for each of the three;
* `ofJson?_repeats`   : a field that is given twice is refused, also in a part of a split;
* `records_read_back` : the three together, from their texts.
-/

namespace Splittable

/-- Every text of the value `j` is read as `a`, its compact text among them. -/
structure Json.Reads {α : Type} (ofJson? : Json → Option α) (j : Json) (a : α) : Prop where
  compact : (Json.parse? j.compact).bind ofJson? = some a
  text : ∀ text, Json.parse? text = some j → (Json.parse? text).bind ofJson? = some a

theorem Json.WellFormed.reads {α : Type} {ofJson? : Json → Option α} {j : Json} {a : α}
    (h : j.WellFormed) (hread : ofJson? j = some a) : j.Reads ofJson? a where
  compact := by rw [Json.parse?_compact h, Option.bind_some, hread]
  text text htext := by rw [htext, Option.bind_some, hread]

variable {j : Json}

/-! ## Spans -/

namespace Span

/-- The fields of a span. -/
def fields (s : Span) : List (String × Json) :=
  [("start", .ofInt s.start.toInt), ("end", .ofInt s.stop.toInt)]

/-- The ways to write a span. -/
def WrittenAs (s : Span) (j : Json) : Prop :=
  Json.Written s.fields j

variable {s : Span}

theorem writtenAs_toJson (s : Span) : s.WrittenAs s.toJson :=
  Json.written_ofFields s.fields

theorem WrittenAs.wellFormed (h : s.WrittenAs j) : j.WellFormed :=
  Json.Written.wellFormed h (by simp [fields, Json.wellFormed_ofInt])

/-- **A span is read back from each of the ways to write it.** -/
theorem ofJson?_writtenAs (h : s.WrittenAs j) : ofJson? j = some s := by
  have hfields : j.fields? fieldNames =
      some [some (.ofInt s.start.toInt), some (.ofInt s.stop.toInt)] :=
    Json.fields?_written (by simp [fields]) (show Json.Written s.fields j from h)
  simp [ofJson?, hfields]

theorem ofJson?_repeats (h : j.Repeats fieldNames) : ofJson? j = none := by
  rw [ofJson?, Json.fields?_repeats h]

end Span

/-! ## Splits -/

namespace Split

/-- The fields of a split whose parts are written as `primary` and `residual`. -/
def fields (primary residual : Json) : List (String × Json) :=
  [("primary", primary), ("residual", residual)]

/-- The ways to write a split: its parts are written in any of their ways. -/
inductive WrittenAs (s : Split) (j : Json) : Prop
  | intro {primary residual : Json} (hprimary : s.primary.WrittenAs primary)
      (hresidual : s.residual.WrittenAs residual) (h : Json.Written (fields primary residual) j)

/-- A field is given twice, in the split or in one of its parts. -/
inductive Repeats : Json → Prop
  | own {j : Json} (h : j.Repeats fieldNames) : Repeats j
  | entry {entries : List (List Piece × Json)} {name : String} {part : Json}
      (name_mem : name ∈ fieldNames) (part_mem : part ∈ Json.given name entries)
      (h : part.Repeats Span.fieldNames) : Repeats (.object entries)
  | item {items : List Json} {part : Json} (part_mem : part ∈ items)
      (h : part.Repeats Span.fieldNames) : Repeats (.array items)

variable {s : Split}

theorem writtenAs_toJson (s : Split) : s.WrittenAs s.toJson :=
  ⟨s.primary.writtenAs_toJson, s.residual.writtenAs_toJson, Json.written_ofFields _⟩

theorem WrittenAs.wellFormed (h : s.WrittenAs j) : j.WellFormed := by
  obtain ⟨hprimary, hresidual, h⟩ := h
  exact h.wellFormed (by simp [fields, hprimary.wellFormed, hresidual.wellFormed])

/-- **A split is read back from each of the ways to write it.** -/
theorem ofJson?_writtenAs (h : s.WrittenAs j) : ofJson? j = some s := by
  obtain ⟨hprimary, hresidual, h⟩ := h
  rename_i primary residual
  have hfields : j.fields? fieldNames = some [some primary, some residual] :=
    Json.fields?_written (by simp [fields]) h
  simp [ofJson?, hfields, Span.ofJson?_writtenAs hprimary, Span.ofJson?_writtenAs hresidual]

theorem Repeats.exists_part (h : Repeats j) {values : List (Option Json)}
    (hvalues : j.fields? fieldNames = some values) :
    ∃ part, some part ∈ values ∧ part.Repeats Span.fieldNames := by
  cases h with
  | own h =>
    rw [Json.fields?_repeats h] at hvalues
    cases hvalues
  | entry name_mem part_mem h => exact ⟨_, Json.mem_of_given hvalues name_mem part_mem, h⟩
  | item part_mem h =>
    rw [Json.fields?] at hvalues
    split at hvalues
    · cases hvalues
      exact ⟨_, List.mem_append_left _ (List.mem_map_of_mem part_mem), h⟩
    · cases hvalues

theorem ofJson?_repeats (h : Repeats j) : ofJson? j = none := by
  unfold ofJson?
  split
  · rename_i primary residual hvalues
    obtain ⟨part, hmem, hpart⟩ := h.exists_part hvalues
    have hnone := Span.ofJson?_repeats hpart
    simp only [List.mem_cons, Option.some.injEq, List.not_mem_nil, or_false] at hmem
    rcases hmem with rfl | rfl
    · rw [hnone]
      rfl
    · rw [hnone]
      cases Span.ofJson? primary <;> rfl
  · rfl

end Split

/-! ## Settings -/

namespace Settings

/-- The fields of settings. -/
def fields (s : Settings) : List (String × Json) :=
  [("split_fraction", .ofBinary64 s.splitFraction),
    ("signal_timeout_ms", .ofInt s.signalTimeout.toNat),
    ("initial_splits", .ofInt s.initialSplits.toNat),
    ("parallelism", match s.parallelism with | some n => .ofInt n.toNat | none => .null)]

/-- The ways to write settings. -/
def WrittenAs (s : Settings) (j : Json) : Prop :=
  Json.Written s.fields j

variable {s : Settings}

theorem writtenAs_toJson (s : Settings) : s.WrittenAs s.toJson :=
  Json.written_ofFields s.fields

theorem WrittenAs.wellFormed (h : s.WrittenAs j) : j.WellFormed := by
  refine Json.Written.wellFormed h ?_
  have hparallelism :
      (match s.parallelism with | some n => Json.ofInt n.toNat | none => .null).WellFormed := by
    cases s.parallelism with
    | none => exact .null
    | some n => exact Json.wellFormed_ofInt n.toNat
  simp [fields, Json.wellFormed_ofInt, Json.wellFormed_ofBinary64, hparallelism]

theorem field?_some {α : Type} (otherwise : α) (read : Json → Option α) (j : Json) :
    field? otherwise read (some j) = read j := by
  rw [field?]

theorem optional?_written (n : Option UInt64) :
    optional? (match n with | some n => .ofInt n.toNat | none => .null) = some n := by
  cases n with
  | none => rfl
  | some n =>
    show (Json.ofInt n.toNat).uint64?.map some = _
    rw [Json.uint64?_ofInt, Option.map_some]

/-- **Settings are read back from each of the ways to write them**, if their fraction is. -/
theorem ofJson?_writtenAs (h : s.WrittenAs j)
    (hfraction : (Json.ofBinary64 s.splitFraction).binary64? = some s.splitFraction) :
    ofJson? j = some s := by
  have hfields : j.fields? fieldNames = some (s.fields.map fun field => some field.2) :=
    Json.fields?_written (by simp [fields]) h
  rw [ofJson?, hfields]
  simp only [fields, List.map_cons, List.map_nil, field?_some, hfraction, Json.uint64?_ofInt,
    optional?_written, Option.bind_eq_bind, Option.bind_some, Option.pure_def]

theorem ofJson?_repeats (h : j.Repeats fieldNames) : ofJson? j = none := by
  rw [ofJson?, Json.fields?_repeats h]

end Settings

/-! ## The three together -/

/-- **What is written is read back.**  A span, a split or settings are read back from their JSON,
from the object with their fields in any order and others among them, and from the array of their
fields; an object that gives a field twice is refused.  Of settings this holds if the text of their
fraction reads back to it. -/
theorem records_read_back (span : Span) (split : Split) (settings : Settings) :
    (span.WrittenAs span.toJson ∧ ∀ j, span.WrittenAs j → j.Reads Span.ofJson? span) ∧
    (split.WrittenAs split.toJson ∧ ∀ j, split.WrittenAs j → j.Reads Split.ofJson? split) ∧
    (settings.WrittenAs settings.toJson ∧
      ((Json.parse? (Json.ofBinary64 settings.splitFraction).compact).bind Json.binary64? =
        some settings.splitFraction →
      ∀ j, settings.WrittenAs j → j.Reads Settings.ofJson? settings)) ∧
    ∀ text j, Json.parse? text = some j →
      (j.Repeats Span.fieldNames → (Json.parse? text).bind Span.ofJson? = none) ∧
      (Split.Repeats j → (Json.parse? text).bind Split.ofJson? = none) ∧
      (j.Repeats Settings.fieldNames → (Json.parse? text).bind Settings.ofJson? = none) := by
  refine ⟨⟨span.writtenAs_toJson, fun j h => h.wellFormed.reads (Span.ofJson?_writtenAs h)⟩,
    ⟨split.writtenAs_toJson, fun j h => h.wellFormed.reads (Split.ofJson?_writtenAs h)⟩,
    ⟨settings.writtenAs_toJson, fun hfraction j h => ?_⟩, fun text j htext => ?_⟩
  · rw [Json.parse?_compact (Json.wellFormed_ofBinary64 _), Option.bind_some] at hfraction
    exact h.wellFormed.reads (Settings.ofJson?_writtenAs h hfraction)
  · rw [htext]
    exact ⟨Span.ofJson?_repeats, Split.ofJson?_repeats, Settings.ofJson?_repeats⟩

/-- Settings are read back from an object with their fields the other way round, behind a field that
they do not know. -/
theorem records_read_back_reversed :
    (Json.parse? (Json.object (Json.entriesOf
        (Settings.fields ⟨.round false (3 / 10), 5000, 1, none⟩) ++
      [(Piece.ofString "note", Json.ofString "a\tb")]).reverse).compact).bind Settings.ofJson? =
      some ⟨.round false (3 / 10), 5000, 1, none⟩ := by
  obtain ⟨-, -, ⟨-, hsettings⟩, -⟩ := records_read_back ⟨7, -9⟩ ⟨⟨0, 5⟩, ⟨5, 9⟩⟩
    ⟨.round false (3 / 10), 5000, 1, none⟩
  refine (hsettings (by decide +kernel) _
    (.object _ (List.reverse_perm _) fun entry he => ?_)).compact
  obtain rfl := List.mem_singleton.1 he
  exact ⟨⟨_, Piece.text?_ofString "note", by decide⟩, Json.wellFormed_ofString _, rfl⟩

end Splittable
