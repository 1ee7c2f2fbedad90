import Splittable.Json.Codec
import Splittable.Proofs.Json.Reading

/-!
# Records in JSON

A record may be written as an object with its fields in any order and other fields among them, or as
the array of its fields.  Spans, splits and settings are read back from each of these, and an object
that gives one of their fields twice is refused.

* `Json.Written`, `Json.Repeats` : the ways to write a record, and the objects that are refused;
* `fields?_written`     : the fields come back in the order of the record;
* `fields?_repeats`     : none do if one of them is given twice;
* `wellFormed_ofBinary64` : every number of the format is written as the grammar has it;
* `records_read_back`   : spans, splits and settings are read back.
-/

namespace Splittable

/-! ## Text -/

namespace Piece

theorem text?_map_char (cs : List Char) : text? (cs.map .char) = some cs := by
  induction cs with
  | nil => rfl
  | cons c cs ih => rw [List.map_cons, text?, ih, Option.map_some]

theorem text?_ofString (s : String) : text? (ofString s) = some s.toList :=
  text?_map_char s.toList

theorem wellFormed_of_text? {pieces : List Piece} {cs : List Char} (h : text? pieces = some cs) :
    ∀ p ∈ pieces, p.WellFormed := by
  induction pieces using text?.induct generalizing cs with
  | case1 => simp
  | case2 c rest ih =>
    rw [text?, Option.map_eq_some_iff] at h
    obtain ⟨cs', hrest, -⟩ := h
    exact List.forall_mem_cons.2 ⟨trivial, ih hrest⟩
  | case3 high low rest hpair ih =>
    rw [text?, if_pos hpair, Option.map_eq_some_iff] at h
    obtain ⟨cs', hrest, -⟩ := h
    rw [Bool.and_eq_true] at hpair
    exact List.forall_mem_cons.2 ⟨Bool.or_eq_true_iff.2 (Or.inl hpair.1),
      List.forall_mem_cons.2 ⟨Bool.or_eq_true_iff.2 (Or.inr hpair.2), ih hrest⟩⟩
  | case4 high low rest hpair =>
    rw [text?, if_neg hpair] at h
    cases h
  | case5 code rest hrest =>
    rw [text?] at h
    · cases h
    · exact hrest

end Piece

namespace Json

/-! ## Numbers and texts that can be written -/

theorem wellFormed_ofInt (n : Int) : (ofInt n).WellFormed :=
  .number (Numeral.wellFormed_ofInt n)

theorem wellFormed_ofString (s : String) : (ofString s).WellFormed :=
  .string (Piece.wellFormed_of_text? (Piece.text?_ofString s))

/-- **Every number of the format is written as the grammar has it.** -/
theorem wellFormed_ofBinary64 (x : Binary64) : (ofBinary64 x).WellFormed := by
  cases x with
  | nan => exact .null
  | infinite _ => exact .null
  | finite negative m hm =>
    rw [ofBinary64]
    split
    · exact .number ⟨by simp, by simp, by simp, by simp, by simp⟩
    · rename_i hne
      have hpos : 0 < m := lt_of_le_of_ne hm.1 (Ne.symm hne)
      exact .number (Numeral.wellFormed_ofDecimal negative (Decimal.shortest_pos .toEven hpos))

@[simp] theorem int64?_ofInt (n : Int64) : (ofInt n.toInt).int64? = some n := by
  simp only [int64?, ofInt, Numeral.int?_ofInt, Option.bind_eq_bind, Option.bind_some]
  rw [if_pos ⟨Int64.minValue_le_toInt n, Int64.toInt_le n⟩, Int64.ofInt_toInt]

@[simp] theorem uint64?_ofInt (n : UInt64) : (ofInt n.toNat).uint64? = some n := by
  have hbounds : 0 ≤ (n.toNat : Int) ∧ (n.toNat : Int) < UInt64.size :=
    ⟨Int.natCast_nonneg _, Int.ofNat_lt.2 n.toNat_lt_size⟩
  unfold uint64? ofInt
  dsimp only
  rw [Numeral.int?_ofInt, Option.bind_eq_bind, Option.bind_some, if_pos hbounds,
    Int.toNat_natCast, UInt64.ofNat_toNat]

/-! ## The ways to write a record -/

/-- Whether a value is a text, a number, a truth value or `null`. -/
def isScalar : Json → Bool
  | .array _ => false
  | .object _ => false
  | _ => true

/-- A field that a record does not know. -/
structure Foreign (names : List String) (entry : List Piece × Json) : Prop where
  key : ∃ cs, Piece.text? entry.1 = some cs ∧ ∀ name ∈ names, cs ≠ name.toList
  value : entry.2.WellFormed
  scalar : entry.2.isScalar = true

/-- The entries of an object with the given fields. -/
def entriesOf (fields : List (String × Json)) : List (List Piece × Json) :=
  fields.map fun (name, value) => (Piece.ofString name, value)

/-- The ways to write a record with the given fields: an object with the fields in any order and
others anywhere among them, or the array of the fields in their order. -/
inductive Written (fields : List (String × Json)) : Json → Prop
  | object {entries : List (List Piece × Json)} (others : List (List Piece × Json))
      (order : entries.Perm (entriesOf fields ++ others))
      (foreign : ∀ entry ∈ others, Foreign (fields.map (·.1)) entry) :
      Written fields (.object entries)
  | array : Written fields (.array (fields.map (·.2)))

/-- An object that gives one of the fields more than once. -/
inductive Repeats (names : List String) : Json → Prop
  | object {entries : List (List Piece × Json)} {name : String} (mem : name ∈ names)
      (twice : 2 ≤ (given name entries).length) : Repeats names (.object entries)

variable {fields : List (String × Json)} {names : List String} {j : Json}

theorem written_ofFields (fields : List (String × Json)) : Written fields (ofFields fields) :=
  .object [] (by rw [List.append_nil]; exact List.Perm.refl _) (by simp)

theorem exists_key_text {entries others : List (List Piece × Json)}
    (order : entries.Perm (entriesOf fields ++ others))
    (foreign : ∀ entry ∈ others, Foreign (fields.map (·.1)) entry) :
    ∀ entry ∈ entries, ∃ cs, Piece.text? entry.1 = some cs := by
  intro entry he
  rcases List.mem_append.1 (order.mem_iff.1 he) with he | he
  · obtain ⟨field, -, rfl⟩ := List.mem_map.1 he
    exact ⟨_, Piece.text?_ofString field.1⟩
  · obtain ⟨cs, htext, -⟩ := (foreign entry he).key
    exact ⟨cs, htext⟩

theorem Written.wellFormed (h : Written fields j) (hfields : ∀ field ∈ fields, field.2.WellFormed) :
    j.WellFormed := by
  cases h with
  | array => exact .array (List.forall_mem_map.2 hfields)
  | @object entries others order foreign =>
    refine .object (fun entry he => ?_) (fun entry he => ?_)
    · obtain ⟨cs, htext⟩ := exists_key_text order foreign entry he
      exact Piece.wellFormed_of_text? htext
    · rcases List.mem_append.1 (order.mem_iff.1 he) with he | he
      · obtain ⟨field, hfield, rfl⟩ := List.mem_map.1 he
        exact hfields field hfield
      · exact (foreign entry he).value

/-! ## Finding the fields -/

theorem given_perm {entries entries' : List (List Piece × Json)} (h : entries.Perm entries')
    (name : String) : (given name entries).Perm (given name entries') :=
  (h.filter _).map _

theorem given_append (name : String) (entries entries' : List (List Piece × Json)) :
    given name (entries ++ entries') = given name entries ++ given name entries' := by
  simp only [given, List.filter_append, List.map_append]

theorem given_cons (name : String) (field : String × Json) (fields : List (String × Json)) :
    given name (entriesOf (field :: fields)) =
      (if field.1 = name then [field.2] else []) ++ given name (entriesOf fields) := by
  simp only [given, entriesOf, List.map_cons, List.filter_cons, Piece.text?_ofString,
    Option.some.injEq, String.toList_inj, decide_eq_true_eq]
  split <;> rfl

theorem given_eq_nil {name : String} (h : name ∉ fields.map (·.1)) :
    given name (entriesOf fields) = [] := by
  induction fields with
  | nil => rfl
  | cons field fields ih =>
    rw [List.map_cons, List.mem_cons, not_or] at h
    rw [given_cons, if_neg (Ne.symm h.1), ih h.2, List.nil_append]

/-- Each field of a record is found once among its entries. -/
theorem given_entriesOf (hnodup : (fields.map (·.1)).Nodup) :
    ∀ field ∈ fields, given field.1 (entriesOf fields) = [field.2] := by
  induction fields with
  | nil => simp
  | cons field fields ih =>
    rw [List.map_cons, List.nodup_cons] at hnodup
    refine List.forall_mem_cons.2 ⟨?_, fun other hother => ?_⟩
    · rw [given_cons, if_pos rfl, given_eq_nil hnodup.1, List.append_nil]
    · have hne : field.1 ≠ other.1 := fun heq =>
        hnodup.1 (heq ▸ List.mem_map_of_mem hother)
      rw [given_cons, if_neg hne, List.nil_append, ih hnodup.2 other hother]

theorem given_foreign {others : List (List Piece × Json)} {name : String} (h : name ∈ names)
    (foreign : ∀ entry ∈ others, Foreign names entry) : given name others = [] := by
  rw [given, List.map_eq_nil_iff, List.filter_eq_nil_iff]
  intro entry he hkey
  obtain ⟨cs, htext, hne⟩ := (foreign entry he).key
  rw [decide_eq_true_iff, htext, Option.some.injEq] at hkey
  exact hne name h hkey

theorem given_written {entries others : List (List Piece × Json)}
    (hnodup : (fields.map (·.1)).Nodup) (order : entries.Perm (entriesOf fields ++ others))
    (foreign : ∀ entry ∈ others, Foreign (fields.map (·.1)) entry) :
    ∀ field ∈ fields, given field.1 entries = [field.2] := by
  intro field hfield
  have hgiven := given_perm order field.1
  rw [given_append, given_entriesOf hnodup field hfield,
    given_foreign (List.mem_map_of_mem hfield) foreign, List.append_nil] at hgiven
  exact List.perm_singleton.1 hgiven

theorem mapM_fields {f : String → Option (Option Json)}
    (h : ∀ field ∈ fields, f field.1 = some (some field.2)) :
    (fields.map (·.1)).mapM f = some (fields.map fun field => some field.2) := by
  induction fields with
  | nil => rfl
  | cons field fields ih =>
    rw [List.forall_mem_cons] at h
    simp only [List.map_cons, List.mapM_cons, h.1, ih h.2, Option.bind_eq_bind, Option.bind_some,
      Option.pure_def]

/-- **The fields of a record are read in their order, whatever the order of the entries.** -/
theorem fields?_written (hnodup : (fields.map (·.1)).Nodup) (h : Written fields j) :
    j.fields? (fields.map (·.1)) = some (fields.map fun field => some field.2) := by
  cases h with
  | array => simp [fields?]
  | @object entries others order foreign =>
    have hkeys : ∀ entry ∈ entries, (Piece.text? entry.1).isSome = true := fun entry he =>
      Option.isSome_iff_exists.2 (exists_key_text order foreign entry he)
    rw [fields?, if_pos (List.all_eq_true.2 hkeys)]
    exact mapM_fields fun field hfield => by rw [given_written hnodup order foreign field hfield]

theorem exists_of_mapM {α β : Type} {f : α → Option β} {l : List α} {r : List β}
    (h : l.mapM f = some r) {a : α} (ha : a ∈ l) : ∃ b ∈ r, f a = some b := by
  induction l generalizing r with
  | nil => cases ha
  | cons c l ih =>
    rw [List.mapM_cons] at h
    simp only [Option.bind_eq_bind, Option.bind_eq_some_iff, Option.pure_def,
      Option.some.injEq] at h
    obtain ⟨b, hb, bs, hbs, rfl⟩ := h
    rcases List.mem_cons.1 ha with rfl | ha
    · exact ⟨b, List.mem_cons_self .., hb⟩
    · obtain ⟨b', hb', hf⟩ := ih hbs ha
      exact ⟨b', List.mem_cons_of_mem b hb', hf⟩

/-- **An object that gives one of the fields twice has none.** -/
theorem fields?_repeats (h : Repeats names j) : j.fields? names = none := by
  cases h with
  | @object entries name mem twice =>
    rw [fields?]
    split
    · refine Option.eq_none_iff_forall_ne_some.2 fun values hvalues => ?_
      obtain ⟨found, -, hfound⟩ := exists_of_mapM hvalues mem
      -- The reader takes a name only if it finds nothing for it, or a single value.
      split at hfound
      · rename_i heq
        rw [heq] at twice
        exact absurd twice (by decide)
      · rename_i heq
        rw [heq] at twice
        exact absurd twice (by simp)
      · cases hfound
    · rfl

/-- What an object gives for a name is among the fields that are read. -/
theorem mem_of_given {entries : List (List Piece × Json)} {values : List (Option Json)}
    (h : (object entries).fields? names = some values) {name : String} (hname : name ∈ names)
    {value : Json} (hvalue : value ∈ given name entries) : some value ∈ values := by
  rw [fields?] at h
  split at h
  · obtain ⟨found, hmem, hfound⟩ := exists_of_mapM h hname
    split at hfound
    · rename_i heq
      rw [heq] at hvalue
      cases hvalue
    · rename_i heq
      rw [heq, List.mem_singleton] at hvalue
      rw [Option.some.injEq] at hfound
      rwa [hvalue, hfound]
    · cases hfound
  · cases h

end Json

end Splittable
