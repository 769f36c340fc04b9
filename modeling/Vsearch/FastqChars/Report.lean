import Vsearch.FastqChars.Reading

/-!
# `fastq_chars`: the rows of the two tables

Which rows the two tables of `fastq_chars` print (`src/src/fastq_chars.cc:250-288`), as data.
The letter table has a row for every byte `c < 256` with `sequence_chars[c] > 0`: the byte, its
count and `maxrun[c]`. The quality table walks `c` from `qmin` to `qmax` and has a row for every
byte with `quality_chars[c] > 0`: the byte, its count and `tail_chars[c]`. The text of a row is
not modelled; the percentages divide by `total_chars`, which is positive on every printed row
(`Reading.lean`). `qmin` and `qmax` are bytes below 128 here, so the walk starts at
`qmin.toNat`.

Results:
* `filter_range'_eq`: walking only `[lo, hi]` drops no byte that lies there.
* `Counted.letterRows`, `Counted.qualityRows`: the rows of the two tables in any state that
  has counted the records.
* **`table_rows`**: the letter table lists exactly the bases that occur and the quality table
  exactly the quality bytes that occur, in ascending order, with their counts.
-/

namespace Vsearch.FastqChars

/-- The rows of the letter table (`fastq_chars.cc:250-272`). -/
def letterRows (s : State) : List (Nat × Nat × Nat) :=
  ((List.range 256).filter fun c => 0 < s.sequence_chars c).map
    fun c => (c, s.sequence_chars c, s.maxrun c)

/-- The rows of the quality table (`fastq_chars.cc:278-288`), for `c` from `qmin` to `qmax`. -/
def qualityRows (s : State) (qmin qmax : Int) : List (Nat × Nat × Nat) :=
  ((List.range' qmin.toNat (qmax + 1 - qmin).toNat).filter fun c => 0 < s.quality_chars c).map
    fun c => (c, s.quality_chars c, s.tail_chars c)

/-- Filtering the bytes `lo..hi` finds every byte `c < 256` the test holds of, when those all
lie in `[lo, hi]`. -/
theorem filter_range'_eq (p : Nat → Bool) {lo hi : Nat} (hhi : hi < 256) (hlo : lo ≤ hi + 1)
    (h : ∀ c, p c → lo ≤ c ∧ c ≤ hi) :
    (List.range' lo (hi + 1 - lo)).filter p = (List.range 256).filter p := by
  have e1 : List.range' 0 lo ++ List.range' lo (hi + 1 - lo) = List.range' 0 (hi + 1) := by
    simpa [show hi + 1 - lo + lo = hi + 1 by omega] using List.range'_append_1 0 lo (hi + 1 - lo)
  have e2 : List.range' 0 (hi + 1) ++ List.range' (hi + 1) (255 - hi) = List.range' 0 256 := by
    simpa [show 255 - hi + (hi + 1) = 256 by omega] using List.range'_append_1 0 (hi + 1) (255 - hi)
  have n1 : (List.range' 0 lo).filter p = [] :=
    List.filter_eq_nil_iff.mpr fun c hc hp => by simp at hc; have := h c hp; omega
  have n3 : (List.range' (hi + 1) (255 - hi)).filter p = [] :=
    List.filter_eq_nil_iff.mpr fun c hc hp => by simp at hc; have := h c hp; omega
  rw [List.range_eq_range', ← e2, ← e1, List.filter_append, List.filter_append, n1, n3,
    List.nil_append, List.append_nil]

theorem getD_min?_le_getD_max? (l : List Nat) : l.min?.getD 0 ≤ l.max?.getD 0 := by
  rcases hm : l.max? with _ | a
  · rw [List.max?_eq_none_iff.mp hm]; rfl
  · exact List.min?_getD_le_of_mem (List.max?_eq_some_iff'.mp hm).1

theorem decide_count_pos (l : List Nat) (c : Nat) : decide (0 < l.count c) = decide (c ∈ l) := by
  simp [List.count_pos_iff]

/-- A state that has counted the records has a letter row per base that occurs. -/
theorem Counted.letterRows {rs : List Record} {s : State} (h : Counted rs s) :
    letterRows s = ((List.range 256).filter (· ∈ rs.flatMap Record.sequence)).map
      (fun c => (c, (rs.flatMap Record.sequence).count c, s.maxrun c)) := by
  simp only [FastqChars.letterRows, h.sequence_chars, decide_count_pos]

/-- A state that has counted the records, its quality table walked from the least to the
greatest quality byte read, has a row per quality byte that occurs. -/
theorem Counted.qualityRows {rs : List Record} {s : State} (h : Counted rs s) :
    qualityRows s ((rs.flatMap Record.quality).min?.getD 0 : Nat)
        ((rs.flatMap Record.quality).max?.getD 0 : Nat) =
      ((List.range 256).filter (· ∈ rs.flatMap Record.quality)).map
        (fun c => (c, (rs.flatMap Record.quality).count c, s.tail_chars c)) := by
  have hmax := getD_max?_lt (by norm_num) (flatMap_quality_lt rs)
  have hle := getD_min?_le_getD_max? (rs.flatMap Record.quality)
  simp only [FastqChars.qualityRows, h.quality_chars, decide_count_pos]
  rw [Int.toNat_natCast, show ((rs.flatMap Record.quality).max?.getD 0 : Int) + 1 -
      ((rs.flatMap Record.quality).min?.getD 0 : Int) =
      (((rs.flatMap Record.quality).max?.getD 0 + 1 - (rs.flatMap Record.quality).min?.getD 0
        : Nat) : Int) by omega,
    Int.toNat_natCast, filter_range'_eq _ (by omega) ?_ ?_]
  · omega
  · intro c hc
    simp only [decide_eq_true_eq] at hc
    exact ⟨List.min?_getD_le_of_mem hc, List.le_max?_getD_of_mem hc⟩

/-- **The printed tables.** After the reading loop over any records, the letter table has one
row per base that occurs and the quality table, walked from `qmin` to `qmax`, one row per
quality byte that occurs, both in ascending order with the byte's count. -/
theorem table_rows (T : Nat) (outside : Nat → Int → Nat) (rs : List Record) :
    let s := readLoop T outside rs
    letterRows s = ((List.range 256).filter (· ∈ rs.flatMap Record.sequence)).map
        (fun c => (c, (rs.flatMap Record.sequence).count c, s.maxrun c)) ∧
    qualityRows s (qminScan s.quality_chars) (qmaxScan s.quality_chars) =
      ((List.range 256).filter (· ∈ rs.flatMap Record.quality)).map
        (fun c => (c, (rs.flatMap Record.quality).count c, s.tail_chars c)) := by
  have h := counted_readLoop T outside rs
  refine ⟨h.letterRows, ?_⟩
  rw [h.qminScan, h.qmaxScan]
  exact h.qualityRows

end Vsearch.FastqChars
