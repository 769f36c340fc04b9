import Mathlib

/-!
# `fastq_chars`: the tail scan

Model of the tail check of `fastq_chars` (`src/src/fastq_chars.cc:143-160`) for one read with
quality `q` of length `len` and `T = opt_fastq_tail`. When `len >= T` the scan takes
`tail_char = q[len - 1]`, then `while (*q-- == tail_char)` walks left, counting `tail_len` up to
`T`; `tail_chars[tail_char]` is incremented when `tail_len >= T`.

The pointer may leave the string: `readAt` gives the quality inside `[0, len)` and, elsewhere,
whatever byte the memory there holds (`outside`, arbitrary). The scan returns the byte whose
`tail_chars` entry it increments, if any, and the positions it reads.

`q` is a `char *`: `int tail_char = *q--` is the `char` value of the byte, `toChar`, and indexes
`tail_chars`. The qualities `fastq_next` leaves are bytes `1..127` (`Record`), whose `char`
value is the byte; `tail_count` carries that bound, so the byte the scan returns is the entry
the code increments.

Results:
* `tailLoop_reads`, `tailLoop_full` (the loop): the positions the loop reads, and when it ends
  with `tail_len >= T`.
* **`tail_count`**: for `T ≥ 1`, qualities of bytes `1..127` and any memory outside the string,
  the scan increments `tail_chars[c]` exactly when `len ≥ T` and the last `T` quality symbols
  are all `c`, `c` being the `char` index; every position it reads is in `[0, len)`, except
  `-1` when `T = 1` and `len = 1`.
* `tail_reads_before_start`: with `T = 1` and a one-byte quality the scan reads `q[-1]`.
-/

namespace Vsearch.FastqChars

/-- The byte at position `j` as the scan reads it: the quality inside `[0, len)`, and
`outside j` elsewhere. -/
def readAt (qual : List Nat) (outside : Int → Nat) (j : Int) : Nat :=
  if 0 ≤ j ∧ j < qual.length then qual.getD j.toNat 0 else outside j

/-- The loop `while (*q-- == tail_char)` from position `j` with `tail_len` so far: the final
`tail_len` and the positions read. -/
def tailLoop (read : Int → Nat) (T tail_char : Nat) (j : Int) (tail_len : Nat) : Nat × List Int :=
  if read j = tail_char then
    if h : T ≤ tail_len + 1 then (tail_len + 1, [j])
    else
      let res := tailLoop read T tail_char (j - 1) (tail_len + 1)
      (res.1, j :: res.2)
  else (tail_len, [j])
termination_by T - tail_len
decreasing_by omega

/-- A byte assigned to a `char`. -/
def toChar (c : Nat) : Int := if c < 128 then c else (c : Int) - 256

theorem toChar_of_lt {c : Nat} (h : c < 128) : toChar c = c := if_pos h

/-- The tail check of one read: the quality byte `tail_char` when `tail_chars[tail_char]` is
incremented, if it is, and the positions of the quality string read. The code indexes with the
`char` value `toChar tail_char`, the byte itself below 128. -/
def tailScan (T : Nat) (qual : List Nat) (outside : Int → Nat) : Option Nat × List Int :=
  if T ≤ qual.length then
    let read := readAt qual outside
    let tail_char := read (qual.length - 1)
    let res := tailLoop read T tail_char (qual.length - 2) 1
    (if T ≤ res.1 then some tail_char else none, (qual.length - 1 : Int) :: res.2)
  else (none, [])

theorem readAt_of_lt {qual : List Nat} (outside : Int → Nat) {i : Nat} (h : i < qual.length) :
    readAt qual outside i = qual.getD i 0 := by
  simp [readAt, h]

/-- The last `T` symbols of `qual` are all `c`, position by position from the end. -/
theorem drop_eq_replicate_iff {qual : List Nat} {T c : Nat} (h : T ≤ qual.length) :
    qual.drop (qual.length - T) = List.replicate T c ↔
      ∀ s < T, qual.getD (qual.length - 1 - s) 0 = c := by
  rw [List.eq_replicate_iff, List.length_drop, show qual.length - (qual.length - T) = T by omega]
  simp only [true_and, List.getD_eq_getElem?_getD]
  constructor
  · intro hall s hs
    have hp : qual.length - 1 - s < qual.length := by omega
    rw [List.getElem?_eq_getElem hp, Option.getD_some]
    refine hall _ (List.mem_iff_getElem?.mpr ⟨T - 1 - s, ?_⟩)
    rw [List.getElem?_drop, show qual.length - T + (T - 1 - s) = qual.length - 1 - s by omega,
      List.getElem?_eq_getElem hp]
  · intro hall x hx
    obtain ⟨i, hi⟩ := List.mem_iff_getElem?.mp hx
    rw [List.getElem?_drop] at hi
    have hiT : i < T := by
      by_contra h'
      rw [List.getElem?_eq_none (by omega)] at hi
      cases hi
    have := hall (T - 1 - i) (by omega)
    rwa [show qual.length - 1 - (T - 1 - i) = qual.length - T + i by omega, hi] at this

section Loop

variable (read : Int → Nat) (T c : Nat)

/-- The loop reads from `j` leftwards, at most down to `j - (T - 1 - tail_len)`. -/
theorem tailLoop_reads (j : Int) (t : Nat) :
    ∀ x ∈ (tailLoop read T c j t).2, j - ((T - 1 - t : Nat) : Int) ≤ x ∧ x ≤ j := by
  induction j, t using tailLoop.induct read T c with
  | case1 j t hj h =>
    rw [tailLoop, if_pos hj, dif_pos h]; simp
  | case2 j t hj h ih =>
    rw [tailLoop, if_pos hj, dif_neg h]
    intro x hx
    rcases List.mem_cons.mp hx with rfl | hx
    · omega
    · have := ih x hx; omega
  | case3 j t hj =>
    rw [tailLoop, if_neg hj]; simp

/-- The loop ends with `tail_len ≥ T` exactly when `T ≤ tail_len` already, or every position it
is to read, down to `j - (T - 1 - tail_len)`, holds `c`. -/
theorem tailLoop_full (j : Int) (t : Nat) :
    T ≤ (tailLoop read T c j t).1 ↔
      T ≤ t ∨ ∀ s : Nat, t ≤ s → s < T → read (j - (s - t : Nat)) = c := by
  induction j, t using tailLoop.induct read T c with
  | case1 j t hj h =>
    rw [tailLoop, if_pos hj, dif_pos h]
    simp only [h, true_iff]
    by_cases ht : T ≤ t
    · exact .inl ht
    · refine .inr fun s h1 h2 => ?_
      rw [show s - t = 0 by omega]; simpa using hj
  | case2 j t hj h ih =>
    rw [tailLoop, if_pos hj, dif_neg h, ih]
    -- the next pass reads position `j - 1` as the `(s - (t + 1))`-th step, this one as `s - t`
    have shift : ∀ s, t + 1 ≤ s →
        j - 1 - ((s - (t + 1) : Nat) : Int) = j - ((s - t : Nat) : Int) := fun s _ => by omega
    constructor
    · rintro (h' | h')
      · omega
      · refine .inr fun s h1 h2 => ?_
        rcases Nat.eq_or_lt_of_le h1 with rfl | h1
        · simpa using hj
        · rw [← shift s h1]; exact h' s h1 h2
    · rintro (h' | h')
      · omega
      · exact .inr fun s h1 h2 => by rw [shift s (by omega)]; exact h' s (by omega) h2
  | case3 j t hj =>
    rw [tailLoop, if_neg hj]
    constructor
    · exact .inl
    · rintro (h' | h')
      · exact h'
      · by_contra ht
        exact hj (by simpa using h' t le_rfl (by omega))

end Loop

section Scan

variable {T : Nat} (hT : 1 ≤ T) (qual : List Nat) (outside : Int → Nat)
include hT

/-- With `len ≥ T ≥ 1` the loop, started at `len - 2` with `tail_len = 1`, reaches `T` exactly
when the last `T` symbols equal the last one. -/
theorem tailLoop_last (hL : T ≤ qual.length) :
    T ≤ (tailLoop (readAt qual outside) T (qual.getD (qual.length - 1) 0)
        ((qual.length : Int) - 2) 1).1 ↔
      ∀ s < T, qual.getD (qual.length - 1 - s) 0 = qual.getD (qual.length - 1) 0 := by
  have hpos : ∀ s : Nat, 1 ≤ s → s < T →
      readAt qual outside ((qual.length : Int) - 2 - ((s - 1 : Nat) : Int)) =
        qual.getD (qual.length - 1 - s) 0 := fun s h1 h2 => by
    rw [show (qual.length : Int) - 2 - ((s - 1 : Nat) : Int) = ((qual.length - 1 - s : Nat) : Int)
      by omega, readAt_of_lt outside (by omega)]
  rw [tailLoop_full]
  constructor
  · rintro (h | h) s hs
    · rw [show s = 0 by omega, Nat.sub_zero]
    · rcases Nat.eq_zero_or_pos s with rfl | hs0
      · rw [Nat.sub_zero]
      · rw [← hpos s hs0 hs, h s hs0 hs]
  · intro h
    exact .inr fun s h1 h2 => by rw [hpos s h1 h2, h s h2]

/-- The scan increments `tail_chars[c]` exactly when `len ≥ T` and the last `T` symbols are
all `c`. -/
theorem tailScan_fst (c : Nat) :
    (tailScan T qual outside).1 = some c ↔
      T ≤ qual.length ∧ ∀ s < T, qual.getD (qual.length - 1 - s) 0 = c := by
  unfold tailScan
  split
  case isFalse hL => simp [hL]
  case isTrue hL =>
    simp only [hL, true_and]
    rw [show ((qual.length : Int) - 1) = ((qual.length - 1 : Nat) : Int) by omega,
      readAt_of_lt outside (by omega)]
    have hlast := tailLoop_last hT qual outside hL
    split_ifs with hfull
    · rw [Option.some_inj]
      constructor
      · rintro rfl; exact (hlast.mp hfull)
      · intro h; rw [← h 0 hT, Nat.sub_zero]
    · simp only [reduceCtorEq, false_iff]
      intro h
      exact hfull (hlast.mpr fun s hs => by rw [h s hs, ← h 0 hT, Nat.sub_zero])

/-- Every position the scan reads is inside the string, except `-1` for `T = 1`, `len = 1`. -/
theorem tailScan_reads :
    ∀ x ∈ (tailScan T qual outside).2,
      (0 ≤ x ∧ x < qual.length) ∨ (T = 1 ∧ qual.length = 1 ∧ x = -1) := by
  unfold tailScan
  split
  case isFalse => simp
  case isTrue hL =>
    intro x hx
    rcases List.mem_cons.mp hx with rfl | hx
    · omega
    · have := tailLoop_reads _ T _ _ 1 x hx
      omega

/-- The scan's count, with the tail stated as the last `T` symbols. -/
theorem tailScan_some_iff (c : Nat) :
    (tailScan T qual outside).1 = some c ↔
      T ≤ qual.length ∧ qual.drop (qual.length - T) = List.replicate T c := by
  rw [tailScan_fst hT]
  exact ⟨fun ⟨hL, h⟩ => ⟨hL, (drop_eq_replicate_iff hL).mpr h⟩,
    fun ⟨hL, h⟩ => ⟨hL, (drop_eq_replicate_iff hL).mp h⟩⟩

end Scan

/-- **The tail count.** For `T ≥ 1`, a quality of bytes `1..127` as `fastq_next` leaves it, and
whatever the memory outside the quality string holds, the scan increments `tail_chars[c]`
exactly when `len ≥ T` and the last `T` quality symbols are all `c`, at most once per read, and
the `char` `tail_char` the code indexes with is `c` itself; it reads only positions inside the
string, except position `-1` when `T = 1` and `len = 1`. -/
theorem tail_count (T : Nat) (hT : 1 ≤ T) (qual : List Nat)
    (hq : ∀ b ∈ qual, 0 < b ∧ b < 128) (outside : Int → Nat) :
    (∀ c, (tailScan T qual outside).1 = some c ↔
      T ≤ qual.length ∧ qual.drop (qual.length - T) = List.replicate T c) ∧
    (∀ c, (tailScan T qual outside).1 = some c → toChar c = c) ∧
    ∀ x ∈ (tailScan T qual outside).2,
      (0 ≤ x ∧ x < qual.length) ∨ (T = 1 ∧ qual.length = 1 ∧ x = -1) := by
  refine ⟨tailScan_some_iff hT qual outside, fun c hc => toChar_of_lt ?_,
    tailScan_reads hT qual outside⟩
  obtain ⟨-, hdrop⟩ := (tailScan_some_iff hT qual outside c).mp hc
  have hc' : c ∈ qual.drop (qual.length - T) := by
    rw [hdrop]; exact List.mem_replicate.mpr ⟨by omega, rfl⟩
  exact (hq c (List.mem_of_mem_drop hc')).2

/-- `T = 2`, quality `II`: the tail `I` is counted, whatever lies before the string. -/
theorem tail_count_two :
    (tailScan 2 [73, 73] fun _ => 0).1 = some 73 :=
  ((tail_count 2 (by decide) [73, 73] (by decide) fun _ => 0).1 73).mpr ⟨by decide, rfl⟩

/-- `T = 1`, a read of one base with quality `I`: after reading `q[0]` the loop tests `*q--` at
position `-1`, before the quality string, whatever byte is there. -/
theorem tail_reads_before_start (outside : Int → Nat) :
    (tailScan 1 [73] outside).2 = [0, -1] ∧ (tailScan 1 [73] outside).1 = some 73 := by
  have h0 : readAt [73] outside (([73].length : Int) - 1) = 73 := by simp [readAt]
  simp only [tailScan, if_pos (show 1 ≤ [73].length by decide), h0]
  rw [tailLoop]
  split <;> simp

end Vsearch.FastqChars
