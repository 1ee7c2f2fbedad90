import Mathlib.Algebra.BigOperators.Group.List.Basic
import Mathlib.Data.List.Chain
import Mathlib.Data.Int.Order.Basic
import Mathlib.Tactic.Positivity
import Splittable.Proofs.Span.Pieces

/-!
# Pieces of nearly equal length

The bounds between the pieces of a span are rounded down one by one, and pieces that come out empty
are left out.  All the same the pieces are as even as offsets allow, and there are as many of them
as there is room for.

* `length_part`      : neighbouring bounds are apart by the even share, rounded down or up;
* `Tiles.sum_length` : the lengths of spans that lie end to end add up;
* `length_pieces`    : how many pieces there are;
* `pieces_even`      : the pieces, and that 128 bits suffice to compute them.
-/

namespace Splittable

namespace Span

theorem length_eq {s : Span} (h : s.start ≤ s.stop) :
    (s.length : Int) = s.stop.toInt - s.start.toInt := by
  rw [Offset.le_iff] at h
  unfold length
  omega

end Span

/-! ## Spans that lie end to end -/

namespace Tiles

variable {start stop : Offset} {spans : List Span}

theorem start_of_head (h : Tiles start stop spans) : ∀ s ∈ spans.head?, s.start = start := by
  cases h with
  | nil => simp
  | cons => simp

theorem stop_of_last (h : Tiles start stop spans) : ∀ s ∈ spans.getLast?, s.stop = stop := by
  induction h with
  | nil => simp
  | @cons start middle stop rest _ htail ih =>
    cases rest with
    | nil =>
      cases htail
      simp
    | cons s rest => simpa [List.getLast?_cons_cons] using ih

theorem isChain (h : Tiles start stop spans) : spans.IsChain fun a b => a.stop = b.start := by
  induction h with
  | nil => exact .nil
  | cons _ htail ih =>
    exact List.isChain_cons.2 ⟨fun s hs => (htail.start_of_head s hs).symm, ih⟩

/-- **The lengths add up** to that of the whole. -/
theorem sum_length (h : Tiles start stop spans) :
    ((spans.map Span.length).sum : Int) = stop.toInt - start.toInt := by
  induction h with
  | nil => simp
  | @cons start middle stop rest hle _ ih =>
    have hlength := Span.length_eq (s := ⟨start, middle⟩) hle
    rw [List.map_cons, List.sum_cons, Nat.cast_add, hlength, ih]
    dsimp only
    omega

end Tiles

/-! ## Even shares -/

/-- The multiples of `size / n`, each rounded down, are apart by that share, rounded down or up. -/
theorem share_bounds (size : Int) {n : Int} (hn : 0 < n) (i : Int) :
    size / n ≤ (i + 1) * size / n - i * size / n ∧
      (i + 1) * size / n - i * size / n ≤ (size + n - 1) / n := by
  have hrest := Int.emod_nonneg (i * size) hn.ne'
  have hrest' := Int.emod_lt_of_pos (i * size) hn
  have hnext : (i + 1) * size / n = i * size / n + (i * size % n + size) / n := by
    have hsum : (i + 1) * size = i * size % n + size + n * (i * size / n) := by
      have := Int.emod_add_mul_ediv (i * size) n
      rw [Int.add_mul, Int.one_mul]
      omega
    rw [hsum, Int.add_mul_ediv_left _ _ hn.ne']
    omega
  have hlow := Int.ediv_le_ediv hn (show size ≤ i * size % n + size by omega)
  have hhigh := Int.ediv_le_ediv hn (show i * size % n + size ≤ size + n - 1 by omega)
  omega

namespace Span

variable {s : Span} {n : Nat}

/-- **Neighbouring bounds are apart by the even share**, rounded down or up. -/
theorem length_part (h : s.start ≤ s.stop) {i : Nat} (hi : i < n) :
    s.length / n ≤ (Span.mk (s.bound n i) (s.bound n (i + 1))).length ∧
      (Span.mk (s.bound n i) (s.bound n (i + 1))).length ≤ (s.length + n - 1) / n := by
  have hlength := length_eq (s := ⟨s.bound n i, s.bound n (i + 1)⟩) (bound_le_succ h hi)
  dsimp only at hlength
  rw [toInt_bound h (by omega) (by omega), toInt_bound h (by omega) (by omega),
    ← length_eq h] at hlength
  have hshare := share_bounds s.length (show (0 : Int) < n by omega) i
  have hlow : ((s.length / n : Nat) : Int) = s.length / n := by push_cast; rfl
  have hhigh : (((s.length + n - 1) / n : Nat) : Int) = (s.length + n - 1) / n := by
    rw [Int.natCast_ediv, Nat.cast_sub (by omega)]
    push_cast
    rfl
  push_cast at hlength
  omega

theorem mem_pieces (hn : 2 ≤ n) {p : Span} :
    p ∈ s.pieces n ↔ p.start < p.stop ∧ ∃ i < n, Span.mk (s.bound n i) (s.bound n (i + 1)) = p := by
  unfold pieces
  rw [if_neg (by omega), List.mem_filter, List.mem_map]
  simp only [List.mem_range, isEmpty, Bool.not_eq_true', decide_eq_false_iff_not, Int64.not_le]
  exact and_comm

theorem length_piece (h : s.start ≤ s.stop) (hn : 2 ≤ n) {p : Span} (hp : p ∈ s.pieces n) :
    s.length / n ≤ p.length ∧ p.length ≤ (s.length + n - 1) / n := by
  obtain ⟨_, i, hi, rfl⟩ := (mem_pieces hn).1 hp
  exact length_part h hi

theorem length_pos {p : Span} (h : p.start < p.stop) : 0 < p.length := by
  rw [Offset.lt_iff] at h
  unfold length
  omega

/-- **There are as many pieces as there is room for.**  With room for `n` pieces none is empty; with
room for fewer, every piece that is left holds a single offset. -/
theorem length_pieces (h : s.start ≤ s.stop) (hn : 2 ≤ n) :
    (s.pieces n).length = min n s.length := by
  rcases Nat.lt_or_ge s.length n with hlt | hge
  · have hone : (s.pieces n).map Span.length = List.replicate (s.pieces n).length 1 := by
      refine List.eq_replicate_iff.2 ⟨List.length_map _, fun k hk => ?_⟩
      obtain ⟨p, hp, rfl⟩ := List.mem_map.1 hk
      have hpos := length_pos ((mem_pieces hn).1 hp).1
      have hshare := (length_piece h hn hp).2
      have hceil : (s.length + n - 1) / n < 2 := (Nat.div_lt_iff_lt_mul (by omega)).2 (by omega)
      omega
    have hsum := (pieces_tile h n).sum_length
    rw [hone, List.sum_replicate_nat, Nat.mul_one, ← length_eq h] at hsum
    omega
  · have hall : s.pieces n = (List.range n).map fun i => ⟨s.bound n i, s.bound n (i + 1)⟩ := by
      unfold pieces
      rw [if_neg (by omega)]
      refine List.filter_eq_self.2 fun p hp => ?_
      obtain ⟨i, hi, rfl⟩ := List.mem_map.1 hp
      have hshare := (length_part h (List.mem_range.1 hi)).1
      have hfloor : 1 ≤ s.length / n := (Nat.one_le_div_iff (by omega)).2 hge
      have hle := bound_le_succ h (List.mem_range.1 hi)
      have hlength := length_eq (s := ⟨s.bound n i, s.bound n (i + 1)⟩) hle
      dsimp only at hlength
      have hlt : s.bound n i < s.bound n (i + 1) := by
        rw [Offset.lt_iff]
        omega
      simpa [isEmpty] using hlt
    rw [hall, List.length_map, List.length_range]
    omega

/-- The products of which the bounds are computed fit into 128 bits, and no bound is cut off when
it is written as an offset. -/
theorem bound_exact (h : s.start ≤ s.stop) (hn : 2 ≤ n) (hsize : n * s.length < 2 ^ 127) {i : Nat}
    (hi : i ≤ n) :
    0 ≤ i * (s.stop.toInt - s.start.toInt) ∧ i * (s.stop.toInt - s.start.toInt) < 2 ^ 127 ∧
      (s.bound n i).toInt = s.start.toInt + (i * (s.stop.toInt - s.start.toInt)).tdiv n := by
  have hnonneg : 0 ≤ (i : Int) * s.length := by positivity
  have hproduct : i * s.length ≤ n * s.length := Nat.mul_le_mul_right _ hi
  rw [toInt_bound h hi (by omega), ← length_eq h, Int.tdiv_eq_ediv_of_nonneg hnonneg]
  refine ⟨hnonneg, ?_, rfl⟩
  exact_mod_cast hproduct.trans_lt hsize

/-- **A division is even and leaves nothing out.**  A span of `L` offsets is divided into `n`
pieces, or into `L` of them if that is fewer.  No piece is empty, they lie end to end from the start
of the span to its end, and each of them has the length `L / n`, rounded down or up.  As long as
`n * L` fits into 128 bits, so does every product on the way, and every bound is an exact offset. -/
theorem pieces_even (s : Span) (n : Nat) (h : s.start ≤ s.stop) (hn : 2 ≤ n)
    (hsize : n * s.length < 2 ^ 127) :
    (s.pieces n).length = min n s.length ∧
    (∀ p ∈ s.pieces n, p.start < p.stop) ∧
    (∀ p ∈ (s.pieces n).head?, p.start = s.start) ∧
    (∀ p ∈ (s.pieces n).getLast?, p.stop = s.stop) ∧
    (s.pieces n).IsChain (fun a b => a.stop = b.start) ∧
    (∀ p ∈ s.pieces n, p.length = s.length / n ∨ p.length = (s.length + n - 1) / n) ∧
    ∀ i ≤ n,
      0 ≤ i * (s.stop.toInt - s.start.toInt) ∧ i * (s.stop.toInt - s.start.toInt) < 2 ^ 127 ∧
      (s.bound n i).toInt = s.start.toInt + (i * (s.stop.toInt - s.start.toInt)).tdiv n := by
  have htiles := pieces_tile h n
  refine ⟨length_pieces h hn, fun p hp => ((mem_pieces hn).1 hp).1, htiles.start_of_head,
    htiles.stop_of_last, htiles.isChain, fun p hp => ?_, fun i hi => bound_exact h hn hsize hi⟩
  obtain ⟨hlow, hhigh⟩ := length_piece h hn hp
  have hnear : (s.length + n - 1) / n ≤ s.length / n + 1 := by
    have hle := Nat.div_le_div_right (c := n) (show s.length + n - 1 ≤ s.length + n by omega)
    rwa [Nat.add_div_right _ (by omega)] at hle
  omega

/-- The widest span of all in seven pieces. -/
theorem pieces_even_widest :
    Int64.minValue ≤ Int64.maxValue ∧ 2 ≤ 7 ∧
    7 * (Span.mk Int64.minValue Int64.maxValue).length < 2 ^ 127 ∧
    ((Span.mk Int64.minValue Int64.maxValue).pieces 7).length = 7 ∧
    ∀ p ∈ (Span.mk Int64.minValue Int64.maxValue).pieces 7,
      p.length = 2635249153387078802 ∨ p.length = 2635249153387078803 := by
  have hlength : (Span.mk Int64.minValue Int64.maxValue).length = 18446744073709551615 := by decide
  have hle : Int64.minValue ≤ Int64.maxValue := by decide
  have hsize : 7 * (Span.mk Int64.minValue Int64.maxValue).length < 2 ^ 127 := by
    rw [hlength]
    decide
  have heven := pieces_even ⟨Int64.minValue, Int64.maxValue⟩ 7 hle (by decide) hsize
  rw [hlength] at heven
  exact ⟨hle, by decide, hsize, heven.1, heven.2.2.2.2.2.1⟩

end Span

end Splittable
