import Splittable.Proofs.Json.Digits

/-!
# What is written reads back

A value is read off the front of a text that begins with its compact form.  Each reader stops where
the writer stopped: a number because what follows it is no digit, point or exponent, a string at its
closing quote, and lists at their closing bracket or brace.

* `Delimited`             : what may follow a value;
* `readDigits_write`, `readNumeral_write`, `readPieces_write` : the parts of a text;
* `WellFormed`            : values that a text can stand for;
* `readValue_write`       : values, by recursion on them;
* `parse?_compact`        : the compact text of a value stands for it.
-/

namespace Splittable

/-! ## Values that a text can stand for -/

/-- Any character, and as a half only a surrogate half. -/
def Piece.WellFormed : Piece → Prop
  | .char _ => True
  | .half code => Piece.isHigh code || Piece.isLow code

namespace Json

/-- Every number is one of the grammar, and every half a surrogate half. -/
inductive WellFormed : Json → Prop
  | null : WellFormed .null
  | bool (value : Bool) : WellFormed (.bool value)
  | number {numeral : Numeral} (h : numeral.WellFormed) : WellFormed (.number numeral)
  | string {pieces : List Piece} (h : ∀ p ∈ pieces, p.WellFormed) : WellFormed (.string pieces)
  | array {items : List Json} (h : ∀ item ∈ items, WellFormed item) : WellFormed (.array items)
  | object {entries : List (List Piece × Json)}
      (keys : ∀ entry ∈ entries, ∀ p ∈ entry.1, p.WellFormed)
      (values : ∀ entry ∈ entries, WellFormed entry.2) : WellFormed (.object entries)

variable {rest : List Char}

/-! ## Characters -/

theorem digit?_digitChar : ∀ d < 10, digit? (Decimal.digitChar d) = some d := by decide

theorem hexDigit?_hexDigit : ∀ d < 16, hexDigit? (hexDigit d) = some d := by decide

/-- After a value there is nothing, or a comma, or the end of a list. -/
def Delimited (rest : List Char) : Prop :=
  ∀ c ∈ rest.head?, c = ',' ∨ c = ']' ∨ c = '\x7d'

theorem delimited_nil : Delimited [] := nofun

theorem delimited_cons {c : Char} (h : c = ',' ∨ c = ']' ∨ c = '\x7d') : Delimited (c :: rest) := by
  intro c' hc'
  obtain rfl : c = c' := by simpa using hc'
  exact h

/-! ## Numbers -/

/-- What follows some digits is no digit. -/
def Undigited (rest : List Char) : Prop :=
  ∀ c ∈ rest.head?, digit? c = none

theorem Delimited.undigited (h : Delimited rest) : Undigited rest := by
  intro c hc
  rcases h c hc with rfl | rfl | rfl <;> decide

theorem undigited_cons {c : Char} (h : digit? c = none) : Undigited (c :: rest) := by
  intro c' hc'
  obtain rfl : c = c' := by simpa using hc'
  exact h

/-- **Digits are read up to what is no digit.** -/
theorem readDigits_write {ds : List Nat} (hds : ∀ d ∈ ds, d < 10) (hrest : Undigited rest) :
    readDigits (writeDigits ds ++ rest) = (ds, rest) := by
  induction ds with
  | nil =>
    cases rest with
    | nil => rfl
    | cons c cs =>
      show readDigits (c :: cs) = _
      rw [readDigits, hrest c rfl]
  | cons d ds ih =>
    have hd := digit?_digitChar d (hds d (List.mem_cons_self ..))
    have hih := ih fun e he => hds e (List.mem_cons_of_mem d he)
    show readDigits (Decimal.digitChar d :: (writeDigits ds ++ rest)) = _
    rw [readDigits, hd]
    simp only [hih]

theorem readWhole_write {ds : List Nat} (hds : ∀ d ∈ ds, d < 10) (hne : ds ≠ [])
    (hleading : ∀ es, ds = 0 :: es → es = []) (hrest : Undigited rest) :
    readWhole (writeDigits ds ++ rest) = some (ds, rest) := by
  unfold readWhole
  rw [readDigits_write hds hrest]
  split
  · rename_i heq
    exact absurd (congrArg Prod.fst heq) hne
  · rename_i heq
    exact absurd (hleading _ (congrArg Prod.fst heq)) (List.cons_ne_nil _ _)
  · rfl

theorem digitChar_ne {d : Nat} (hd : d < 10) {c : Char} (hc : digit? c = none) :
    Decimal.digitChar d ≠ c := by
  rintro rfl
  rw [digit?_digitChar d hd] at hc
  cases hc

theorem readExponentSign_digits {ds : List Nat} (hds : ∀ d ∈ ds, d < 10) (hne : ds ≠ []) :
    readExponentSign (writeDigits ds ++ rest) = (.unsigned, writeDigits ds ++ rest) := by
  obtain ⟨d, ds, rfl⟩ := List.exists_cons_of_ne_nil hne
  have hd := hds d (List.mem_cons_self ..)
  show readExponentSign (Decimal.digitChar d :: _) = (_, Decimal.digitChar d :: _)
  unfold readExponentSign
  split
  · rename_i heq
    exact absurd (List.cons.inj heq).1 (digitChar_ne hd rfl)
  · rename_i heq
    exact absurd (List.cons.inj heq).1 (digitChar_ne hd rfl)
  · rfl

theorem readExponent_mark {cs : List Char} {sign : ExponentSign} {ds : List Nat}
    (hds : ∀ d ∈ ds, d < 10) (hne : ds ≠ []) (hrest : Undigited rest)
    (hsign : readExponentSign cs = (sign, writeDigits ds ++ rest)) :
    readExponent ('e' :: cs) = some (some (sign, ds), rest) := by
  obtain ⟨d, ds, rfl⟩ := List.exists_cons_of_ne_nil hne
  rw [readExponent, if_pos (Or.inl rfl), hsign]
  simp only [readDigits_write hds hrest]

theorem readExponent_write {exponent : Option (ExponentSign × List Nat)}
    (hexponent : ∀ sign ds, exponent = some (sign, ds) → ds ≠ [] ∧ ∀ d ∈ ds, d < 10)
    (hrest : Delimited rest) :
    readExponent (writeExponent exponent ++ rest) = some (exponent, rest) := by
  rcases exponent with _ | ⟨sign, ds⟩
  · cases rest with
    | nil => rfl
    | cons c cs =>
      show readExponent (c :: cs) = _
      rcases hrest c rfl with rfl | rfl | rfl <;> rfl
  · obtain ⟨hne, hds⟩ := hexponent sign ds rfl
    cases sign with
    | unsigned =>
      exact readExponent_mark hds hne hrest.undigited (readExponentSign_digits hds hne)
    | plus => exact readExponent_mark hds hne hrest.undigited rfl
    | minus => exact readExponent_mark hds hne hrest.undigited rfl

/-- After the digits of a number there is its exponent or what follows the number: no digit and no
point. -/
theorem head_exponent (exponent : Option (ExponentSign × List Nat)) (hrest : Delimited rest) :
    ∀ c ∈ (writeExponent exponent ++ rest).head?, digit? c = none ∧ c ≠ '.' := by
  rcases exponent with _ | ⟨_ | _ | _, ds⟩
  · intro c hc
    rcases hrest c hc with rfl | rfl | rfl <;> decide
  all_goals
    intro c hc
    obtain rfl : 'e' = c := Option.some.inj hc
    decide

theorem readPlaces_write {ds : List Nat} (hds : ∀ d ∈ ds, d < 10)
    (hrest : ∀ c ∈ rest.head?, digit? c = none ∧ c ≠ '.') :
    readPlaces ((if ds.isEmpty then [] else '.' :: writeDigits ds) ++ rest) = some (ds, rest) := by
  cases ds with
  | nil =>
    show readPlaces rest = _
    unfold readPlaces
    split
    · exact absurd rfl (hrest _ rfl).2
    · rfl
  | cons d ds =>
    show readPlaces ('.' :: (writeDigits (d :: ds) ++ rest)) = _
    simp only [readPlaces, readDigits_write hds fun c hc => (hrest c hc).1]

/-- **A number is read up to what follows it.** -/
theorem readNumeral_write {n : Numeral} (h : n.WellFormed) (hrest : Delimited rest) :
    readNumeral (writeNumeral n ++ rest) = some (n, rest) := by
  obtain ⟨negative, whole, places, exponent⟩ := n
  obtain ⟨hwhole, hne, hleading, hplaces, hexponent⟩ := h
  have hundigited : Undigited ((if places.isEmpty then [] else '.' :: writeDigits places) ++
      (writeExponent exponent ++ rest)) := by
    cases places with
    | nil => exact fun c hc => (head_exponent exponent hrest c hc).1
    | cons d ds => exact undigited_cons rfl
  have hreadWhole := readWhole_write hwhole hne hleading hundigited
  have hreadPlaces := readPlaces_write hplaces (head_exponent exponent hrest)
  have hreadExponent := readExponent_write hexponent hrest
  simp only [writeNumeral, List.append_assoc]
  cases negative with
  | true =>
    simp only [readNumeral, if_true, List.cons_append, List.nil_append, hreadWhole, hreadPlaces,
      hreadExponent, Option.bind_eq_bind, Option.bind_some, Option.pure_def]
  | false =>
    obtain ⟨d, ds, rfl⟩ := List.exists_cons_of_ne_nil hne
    have hd := digitChar_ne (hwhole d (List.mem_cons_self ..)) (c := '-') rfl
    simp only [readNumeral, Bool.false_eq_true, if_false, List.nil_append]
    split
    · rename_i heq
      exact absurd (List.cons.inj heq).1 hd
    · simp only [hreadWhole, hreadPlaces, hreadExponent, Option.bind_eq_bind, Option.bind_some,
        Option.pure_def]

/-! ## Strings -/

theorem pieceOfCode_half {code : Nat} (h : (Piece.half code).WellFormed) :
    pieceOfCode code = .half code :=
  if_pos h

theorem pieceOfCode_char {c : Char} (h : c.toNat < 32) : pieceOfCode c.toNat = .char c := by
  have hnot : ¬ (Piece.isHigh c.toNat || Piece.isLow c.toNat) = true := by
    simp only [Piece.isHigh, Piece.isLow, Bool.or_eq_true, Bool.and_eq_true, decide_eq_true_eq]
    omega
  rw [pieceOfCode, if_neg hnot, Char.ofNat_toNat]

/-- Four hexadecimal digits stand for the code below `16 ^ 4` that they are the digits of. -/
theorem hexCode?_digits {code : Nat} (h : code < 65536) :
    hexCode? (hexDigit (code / 4096 % 16)) (hexDigit (code / 256 % 16))
      (hexDigit (code / 16 % 16)) (hexDigit (code % 16)) = some code := by
  have hdigit : ∀ n, hexDigit? (hexDigit (n % 16)) = some (n % 16) := fun n =>
    hexDigit?_hexDigit _ (Nat.mod_lt n (by decide))
  simp only [hexCode?, hdigit, Option.bind_eq_bind, Option.bind_some, Option.pure_def,
    Option.some.injEq]
  omega

theorem readPieces_code {code : Nat} (h : code < 65536) (cs : List Char) :
    readPieces (writeCode code ++ cs) =
      (readPieces cs).map fun (pieces, rest) => (pieceOfCode code :: pieces, rest) := by
  simp only [writeCode, List.cons_append, List.nil_append, readPieces, hexCode?_digits h,
    Option.bind_eq_bind, Option.bind_some, Option.pure_def]
  exact Option.map_eq_bind.symm

theorem readPieces_escape {e c : Char} (h : escaped? e = some c) (cs : List Char) :
    readPieces ('\\' :: e :: cs) =
      (readPieces cs).map fun (pieces, rest) => (.char c :: pieces, rest) := by
  have hu : e ≠ 'u' := by
    rintro rfl
    cases h
  rw [readPieces, h]
  · exact Option.map_eq_bind.symm
  · exact fun _ _ _ _ _ heq _ => hu heq

theorem readPieces_plain {c : Char} (hquote : c ≠ '"') (hbackslash : c ≠ '\\')
    (hcontrol : ¬ c.toNat < 32) (cs : List Char) :
    readPieces (c :: cs) =
      (readPieces cs).map fun (pieces, rest) => (.char c :: pieces, rest) := by
  rw [readPieces, if_neg hcontrol]
  · exact Option.map_eq_bind.symm
  · exact fun heq => hquote heq
  · exact fun _ _ _ _ _ heq _ => hbackslash heq
  · exact fun _ _ heq _ => hbackslash heq

theorem readPieces_piece {p : Piece} (h : p.WellFormed) (cs : List Char) :
    readPieces (writePiece p ++ cs) =
      (readPieces cs).map fun (pieces, rest) => (p :: pieces, rest) := by
  cases p with
  | half code =>
    have hcode : code < 65536 := by
      simp only [Piece.WellFormed, Piece.isHigh, Piece.isLow, Bool.or_eq_true, Bool.and_eq_true,
        decide_eq_true_eq] at h
      omega
    rw [writePiece, readPieces_code hcode, pieceOfCode_half h]
  | char c =>
    rw [writePiece, writeChar]
    split
    · subst c
      exact readPieces_escape rfl cs
    split
    · subst c
      exact readPieces_escape rfl cs
    split
    · subst c
      exact readPieces_escape rfl cs
    split
    · subst c
      exact readPieces_escape rfl cs
    split
    · subst c
      exact readPieces_escape rfl cs
    split
    · subst c
      exact readPieces_escape rfl cs
    split
    · subst c
      exact readPieces_escape rfl cs
    split
    · rename_i hcontrol
      rw [readPieces_code (by omega), pieceOfCode_char hcontrol]
    · rename_i hquote hbackslash _ _ _ _ _ hcontrol
      exact readPieces_plain hquote hbackslash hcontrol cs

/-- **A string is read up to its closing quote.** -/
theorem readPieces_write {pieces : List Piece} (h : ∀ p ∈ pieces, p.WellFormed)
    (rest : List Char) :
    readPieces (pieces.flatMap writePiece ++ '"' :: rest) = some (pieces, rest) := by
  induction pieces with
  | nil => rw [List.flatMap_nil, List.nil_append, readPieces]
  | cons p pieces ih =>
    rw [List.flatMap_cons, List.append_assoc, readPieces_piece (h p (List.mem_cons_self ..)),
      ih fun q hq => h q (List.mem_cons_of_mem p hq)]
    rfl

/-! ## Values -/

theorem skipBlanks_cons {c : Char} (h : isBlank c = false) (cs : List Char) :
    skipBlanks (c :: cs) = c :: cs :=
  List.dropWhile_cons_of_neg (by rw [h]; exact Bool.false_ne_true)

/-- Neither a blank nor the beginning of any value but a number, nor the end of an array. -/
structure NumeralHead (c : Char) : Prop where
  blank : isBlank c = false
  null : c ≠ 'n'
  true : c ≠ 't'
  false : c ≠ 'f'
  quote : c ≠ '"'
  bracket : c ≠ '['
  brace : c ≠ '\x7b'
  closing : c ≠ ']'

theorem numeralHead_digitChar {d : Nat} (hd : d < 10) : NumeralHead (Decimal.digitChar d) where
  blank := by
    simp only [isBlank, Bool.or_eq_false_iff, decide_eq_false_iff_not]
    exact ⟨⟨⟨digitChar_ne hd rfl, digitChar_ne hd rfl⟩, digitChar_ne hd rfl⟩, digitChar_ne hd rfl⟩
  null := digitChar_ne hd rfl
  true := digitChar_ne hd rfl
  false := digitChar_ne hd rfl
  quote := digitChar_ne hd rfl
  bracket := digitChar_ne hd rfl
  brace := digitChar_ne hd rfl
  closing := digitChar_ne hd rfl

theorem exists_numeralHead {n : Numeral} (h : n.WellFormed) :
    ∃ c cs, writeNumeral n = c :: cs ∧ NumeralHead c := by
  obtain ⟨negative, whole, places, exponent⟩ := n
  cases negative with
  | true => exact ⟨'-', _, rfl, by constructor <;> decide⟩
  | false =>
    obtain ⟨d, ds, rfl⟩ := List.exists_cons_of_ne_nil h.nonempty
    exact ⟨_, _, rfl, numeralHead_digitChar (h.whole d (List.mem_cons_self ..))⟩

/-- A value begins with no blank and with no closing bracket. -/
theorem exists_head {v : Json} (h : v.WellFormed) :
    ∃ c cs, write v = c :: cs ∧ isBlank c = false ∧ c ≠ ']' := by
  cases h with
  | null => exact ⟨'n', _, by rw [write], rfl, by decide⟩
  | bool value => cases value <;> exact ⟨_, _, by rw [write], rfl, by decide⟩
  | number h =>
    obtain ⟨c, cs, hwrite, hhead⟩ := exists_numeralHead h
    exact ⟨c, cs, by rw [write, hwrite], hhead.blank, hhead.closing⟩
  | string h => exact ⟨'"', _, by rw [write, writeString], rfl, by decide⟩
  | @array items h => cases items <;> exact ⟨'[', _, by rw [write], rfl, by decide⟩
  | @object entries keys values =>
    cases entries <;> exact ⟨'\x7b', _, by rw [write], rfl, by decide⟩

theorem readValue_numeral {n : Numeral} (h : n.WellFormed) (fuel : Nat) (hrest : Delimited rest) :
    readValue (fuel + 1) (writeNumeral n ++ rest) = some (.number n, rest) := by
  have hread := readNumeral_write h hrest
  obtain ⟨c, cs, hwrite, hhead⟩ := exists_numeralHead h
  rw [hwrite, List.cons_append] at hread ⊢
  rw [readValue, skipBlanks_cons hhead.blank]
  split
  · rename_i heq
    exact absurd (List.cons.inj heq).1 hhead.null
  · rename_i heq
    exact absurd (List.cons.inj heq).1 hhead.true
  · rename_i heq
    exact absurd (List.cons.inj heq).1 hhead.false
  · rename_i heq
    exact absurd (List.cons.inj heq).1 hhead.quote
  · rename_i heq
    exact absurd (List.cons.inj heq).1 hhead.bracket
  · rename_i heq
    exact absurd (List.cons.inj heq).1 hhead.brace
  · rw [hread]
    rfl

theorem delimited_items (items : List Json) : Delimited (writeItems items ++ rest) := by
  cases items with
  | nil =>
    rw [writeItems]
    exact delimited_cons (Or.inr (Or.inl rfl))
  | cons item items =>
    rw [writeItems]
    exact delimited_cons (Or.inl rfl)

theorem delimited_entries (entries : List (List Piece × Json)) :
    Delimited (writeEntries entries ++ rest) := by
  cases entries with
  | nil =>
    rw [writeEntries]
    exact delimited_cons (Or.inr (Or.inr rfl))
  | cons entry entries =>
    rw [writeEntries]
    exact delimited_cons (Or.inl rfl)

mutual

/-- **A value is read up to what follows it.** -/
theorem readValue_write : ∀ (v : Json) (fuel : Nat) (rest : List Char), v.WellFormed →
    (write v).length ≤ fuel → Delimited rest → readValue fuel (write v ++ rest) = some (v, rest)
  | v, 0, rest, h, hfuel, _ => by
    obtain ⟨c, cs, hwrite, -⟩ := exists_head h
    rw [hwrite] at hfuel
    exact absurd hfuel (Nat.not_succ_le_zero _)
  | .null, fuel + 1, rest, _, _, _ => by
    rw [write, readValue]
    rfl
  | .bool true, fuel + 1, rest, _, _, _ => by
    rw [write, readValue]
    rfl
  | .bool false, fuel + 1, rest, _, _, _ => by
    rw [write, readValue]
    rfl
  | .number n, fuel + 1, rest, .number h, _, hrest => by
    rw [write]
    exact readValue_numeral h fuel hrest
  | .string pieces, fuel + 1, rest, .string h, _, _ => by
    have hread := readPieces_write h rest
    rw [write, writeString, List.cons_append, List.append_assoc, readValue,
      skipBlanks_cons rfl]
    simp only [List.cons_append, List.nil_append, hread, Option.bind_eq_bind, Option.bind_some,
      Option.pure_def]
  | .array [], fuel + 1, rest, _, _, _ => by
    rw [write, readValue]
    rfl
  | .array (item :: items), fuel + 1, rest, .array h, hfuel, _ => by
    have hitem := h item (List.mem_cons_self ..)
    obtain ⟨c, cs, hwrite, hblank, hclosing⟩ := exists_head hitem
    rw [write, List.length_cons, List.length_append] at hfuel
    have hread := readValue_write item fuel (writeItems items ++ rest) hitem (by omega)
      (delimited_items items)
    have hreads := readItems_write items fuel rest (fun v hv => h v (List.mem_cons_of_mem item hv))
      (by omega)
    rw [write, List.cons_append, List.append_assoc, readValue, skipBlanks_cons rfl]
    rw [hwrite, List.cons_append] at hread ⊢
    simp only [skipBlanks_cons hblank]
    split
    · rename_i heq
      exact absurd (List.cons.inj heq).1 hclosing
    · simp only [hread, hreads, Option.bind_eq_bind, Option.bind_some, Option.pure_def]
  | .object [], fuel + 1, rest, _, _, _ => by
    rw [write, readValue]
    rfl
  | .object ((key, value) :: entries), fuel + 1, rest, .object keys values, hfuel, _ => by
    rw [write, List.length_cons, List.length_append, List.length_cons, List.length_append] at hfuel
    have hread := readEntry_write key value fuel (writeEntries entries ++ rest)
      (keys _ (List.mem_cons_self ..)) (values _ (List.mem_cons_self ..)) (by omega)
      (delimited_entries entries)
    have hreads := readEntries_write entries fuel rest
      (fun e he => keys e (List.mem_cons_of_mem _ he))
      (fun e he => values e (List.mem_cons_of_mem _ he)) (by omega)
    rw [write, List.cons_append, List.append_assoc, List.cons_append, List.append_assoc, readValue,
      skipBlanks_cons rfl]
    rw [writeString, List.cons_append] at hread ⊢
    simp only [skipBlanks_cons (c := '"') rfl]
    split
    · rename_i heq
      exact absurd (List.cons.inj heq).1 (by decide)
    · simp only [hread, hreads, Option.bind_eq_bind, Option.bind_some, Option.pure_def]

theorem readItems_write : ∀ (items : List Json) (fuel : Nat) (rest : List Char),
    (∀ item ∈ items, item.WellFormed) → (writeItems items).length ≤ fuel →
    readItems fuel (writeItems items ++ rest) = some (items, rest)
  | [], 0, rest, _, hfuel => by
    rw [writeItems] at hfuel
    exact absurd hfuel (Nat.not_succ_le_zero _)
  | _ :: _, 0, rest, _, hfuel => by
    rw [writeItems] at hfuel
    exact absurd hfuel (Nat.not_succ_le_zero _)
  | [], fuel + 1, rest, _, _ => by
    rw [writeItems, readItems]
    rfl
  | item :: items, fuel + 1, rest, h, hfuel => by
    rw [writeItems, List.length_cons, List.length_append] at hfuel
    have hread := readValue_write item fuel (writeItems items ++ rest)
      (h item (List.mem_cons_self ..)) (by omega) (delimited_items items)
    have hreads := readItems_write items fuel rest (fun v hv => h v (List.mem_cons_of_mem item hv))
      (by omega)
    rw [writeItems, List.cons_append, List.append_assoc, readItems, skipBlanks_cons rfl]
    simp only [hread, hreads, Option.bind_eq_bind, Option.bind_some, Option.pure_def]

theorem readEntry_write : ∀ (key : List Piece) (value : Json) (fuel : Nat) (rest : List Char),
    (∀ p ∈ key, p.WellFormed) → value.WellFormed →
    (writeString key).length + (write value).length ≤ fuel → Delimited rest →
    readEntry fuel (writeString key ++ ':' :: (write value ++ rest)) = some ((key, value), rest)
  | key, value, 0, rest, _, _, hfuel, _ => by
    rw [writeString, List.length_cons] at hfuel
    omega
  | key, value, fuel + 1, rest, hkey, hvalue, hfuel, hrest => by
    rw [writeString, List.length_cons] at hfuel
    have hread := readValue_write value fuel rest hvalue (by omega) hrest
    have hpieces := readPieces_write hkey (':' :: (write value ++ rest))
    rw [writeString, List.cons_append, List.append_assoc, readEntry, skipBlanks_cons rfl]
    simp only [List.cons_append, List.nil_append, hpieces, skipBlanks_cons (c := ':') rfl, hread,
      Option.bind_eq_bind, Option.bind_some, Option.pure_def]

theorem readEntries_write : ∀ (entries : List (List Piece × Json)) (fuel : Nat) (rest : List Char),
    (∀ entry ∈ entries, ∀ p ∈ entry.1, p.WellFormed) →
    (∀ entry ∈ entries, entry.2.WellFormed) → (writeEntries entries).length ≤ fuel →
    readEntries fuel (writeEntries entries ++ rest) = some (entries, rest)
  | [], 0, rest, _, _, hfuel => by
    rw [writeEntries] at hfuel
    exact absurd hfuel (Nat.not_succ_le_zero _)
  | _ :: _, 0, rest, _, _, hfuel => by
    rw [writeEntries] at hfuel
    exact absurd hfuel (Nat.not_succ_le_zero _)
  | [], fuel + 1, rest, _, _, _ => by
    rw [writeEntries, readEntries]
    rfl
  | (key, value) :: entries, fuel + 1, rest, keys, values, hfuel => by
    rw [writeEntries, List.length_cons, List.length_append, List.length_cons,
      List.length_append] at hfuel
    have hread := readEntry_write key value fuel (writeEntries entries ++ rest)
      (keys _ (List.mem_cons_self ..)) (values _ (List.mem_cons_self ..)) (by omega)
      (delimited_entries entries)
    have hreads := readEntries_write entries fuel rest
      (fun e he => keys e (List.mem_cons_of_mem _ he))
      (fun e he => values e (List.mem_cons_of_mem _ he)) (by omega)
    rw [writeEntries, List.cons_append, List.append_assoc, List.cons_append, List.append_assoc,
      readEntries, skipBlanks_cons rfl]
    simp only [hread, hreads, Option.bind_eq_bind, Option.bind_some, Option.pure_def]

end

/-- **The compact text of a value stands for it.** -/
theorem parse?_compact {v : Json} (h : v.WellFormed) : parse? v.compact = some v := by
  have hread := readValue_write v (2 * (write v).length + 2) [] h (by omega) delimited_nil
  rw [List.append_nil] at hread
  unfold parse?
  rw [compact, String.toList_ofList]
  simp only [hread]
  rfl

end Json

end Splittable
