import Vsearch.FastqChars.Report

/-!
# `fastq_chars`: the report

What `fastq_chars` prints after the reading loop (`src/src/fastq_chars.cc:168-375`): the number
of reads and, when there is one, the quality range, the guessed encoding and the two tables. The
same report goes to `stderr` unless `--quiet` (lines 207-290) and to the log (lines 292-375): the
two blocks are one code path, `report`.

* `qmin`, `qmax`, `fastq_ascii`, `fastq_qmin`, `fastq_qmax` are `char`s. `asChar v` is what a
  `char` holds after the `int` `v` is assigned to it: its low byte, signed.
* `guess` is the guessed encoding (lines 191-205), `formatGuess` the line naming the format
  (lines 219-244), `nLabel` the bytes printed after `Q=` on the rows of `N` and `n`
  (lines 259-269).
* A `Report` holds the values the lines print, in order; the text of a line (padding, the
  `%5.1f` percentages) is not modelled.

`specReport T rs` is the report as the reads determine it, with no loop state: the number of
reads, the least and greatest quality byte, and per byte that occurs its count, the longest run
of it less one, the reads whose last `T` qualities are it, and on the row of `N` the range of
the qualities found at an `N`.

Results:
* `Counted.letterTable`: the letter table of any state that has counted the reads; the row of
  `n` never appears, since the reads are upper-cased, and the row of `N` shows the range of
  qualities at an `N`.
* `Counted.report` (any such state, with the tail table of `T`) and **`fastq_chars_refines`**:
  for `T ≥ 1` and any memory around the quality strings, `fastq_chars` prints `specReport`.
* `specReport_perm` and **`fastq_chars_perm`**: the report depends neither on the order of the
  reads nor on the memory around them.
* `guess_of_range` and **`guess_decodes`**: qualities written as phred scores plus 33 (scores
  up to 41), or plus 64 (scores from -5, one of them at least 11), are guessed with their
  offset, and the printed `fastq_qmin` and `fastq_qmax` are the least and greatest score.
-/

namespace Vsearch.FastqChars

/-! ## The report as the code prints it -/

/-- The value a `char` holds after the `int` `v` is assigned to it. -/
def asChar (v : Int) : Int := toChar (v % 256).toNat

/-- The guessed encoding: `fastq_ascii`, `fastq_qmin`, `fastq_qmax`. -/
structure Guess where
  fastq_ascii : Int
  fastq_qmin : Int
  fastq_qmax : Int
  deriving DecidableEq, Repr

/-- The guess from `qmin` and `qmax` (`fastq_chars.cc:191-205`). -/
def guess (qmin qmax : Int) : Guess :=
  let fastq_ascii : Int := if qmin < 59 ∨ qmax < 75 then 33 else 64
  ⟨fastq_ascii, asChar (qmin - fastq_ascii), asChar (qmax - fastq_ascii)⟩

/-- The line naming the format (`fastq_chars.cc:219-244`). -/
def formatGuess (qmin qmax fastq_ascii : Int) : String :=
  if fastq_ascii = 64 then
    if qmin < 64 then "Guess: Solexa format (phred+64)\n"
    else if qmin < 66 then "Guess: Illumina 1.3+ format (phred+64)\n"
    else "Guess: Illumina 1.5+ format (phred+64)\n"
  else if qmax > 73 then "Guess: Illumina 1.8+ format (phred+33)\n"
  else "Guess: Original Sanger format (phred+33)\n"

/-- The bytes printed after `Q=` on the row of `N` or `n` (`fastq_chars.cc:259-269`). -/
def nLabel (qmin_n qmax_n : Nat) : List Nat :=
  if qmin_n < qmax_n then [qmin_n, qmax_n] else [qmin_n]

/-- A row of the letter table: the byte, `sequence_chars[c]`, `maxrun[c]`, and the bytes
printed after `Q=`. -/
structure LetterRow where
  letter : Nat
  count : Nat
  maxrun : Nat
  q : List Nat
  deriving DecidableEq, Repr

/-- The letter table (`fastq_chars.cc:250-272`). -/
def letterTable (s : State) : List LetterRow :=
  (letterRows s).map fun x =>
    ⟨x.1, x.2.1, x.2.2, if x.1 = 78 ∨ x.1 = 110 then nLabel s.qmin_n s.qmax_n else []⟩

/-- What follows `Read n sequences.` when `seq_count > 0` (`fastq_chars.cc:213-288`): `Qmin`,
`Qmax`, `Range`, the guess and its format line, and the two tables. -/
structure Details where
  qmin : Int
  qmax : Int
  range : Int
  guess : Guess
  format : String
  letters : List LetterRow
  qualities : List (Nat × Nat × Nat)
  deriving DecidableEq, Repr

/-- A report: `seq_count`, and the details when it is positive. -/
structure Report where
  seq_count : Nat
  details : Option Details
  deriving DecidableEq, Repr

/-- The details printed from the state `s` the loop ends in. -/
def details (s : State) : Details :=
  let qmin := qminScan s.quality_chars
  let qmax := qmaxScan s.quality_chars
  let g := guess qmin qmax
  ⟨qmin, qmax, qmax - qmin + 1, g, formatGuess qmin qmax g.fastq_ascii, letterTable s,
    qualityRows s qmin qmax⟩

/-- The report printed from the state `s` (`fastq_chars.cc:207-375`). -/
def report (s : State) : Report :=
  ⟨s.seq_count, if 0 < s.seq_count then some (details s) else none⟩

/-- `fastq_chars` on the reads `rs`, with `T = opt_fastq_tail` and `outside` the memory around
the quality strings: the report it prints. -/
def fastqChars (T : Nat) (outside : Nat → Int → Nat) (rs : List Record) : Report :=
  report (readLoop T outside rs)

/-! ## The report as the reads determine it -/

/-- The least and the greatest of `l`, once when they coincide. -/
def qRange (l : List Nat) : List Nat :=
  match l.min?, l.max? with
  | some a, some b => if a = b then [a] else [a, b]
  | _, _ => []

/-- The reads whose last `T` quality symbols are all `c`. -/
def tailsOf (T c : Nat) (rs : List Record) : Nat :=
  rs.countP fun r =>
    T ≤ r.quality.length ∧ r.quality.drop (r.quality.length - T) = List.replicate T c

/-- The report computed from the reads. -/
def specReport (T : Nat) (rs : List Record) : Report :=
  let seqs := rs.flatMap Record.sequence
  let quals := rs.flatMap Record.quality
  let qmin : Int := (quals.min?.getD 0 : Nat)
  let qmax : Int := (quals.max?.getD 0 : Nat)
  let g := guess qmin qmax
  ⟨rs.length, if 0 < rs.length then some
    ⟨qmin, qmax, qmax - qmin + 1, g, formatGuess qmin qmax g.fastq_ascii,
      ((List.range 256).filter (· ∈ seqs)).map fun c =>
        ⟨c, seqs.count c, (rs.map fun r => longestRun c r.sequence - 1).max?.getD 0,
          if c = 78 then qRange (nQualities rs) else []⟩,
      ((List.range 256).filter (· ∈ quals)).map fun c => (c, quals.count c, tailsOf T c rs)⟩
    else none⟩

/-! ## The code prints the report of the reads -/

theorem asChar_of_lt {v : Int} (h1 : -128 ≤ v) (h2 : v < 128) : asChar v = v := by
  unfold asChar toChar
  split <;> omega

/-- A read with an `N` has a quality at that `N`. -/
theorem nQualities_ne_nil {rs : List Record} (h : 78 ∈ rs.flatMap Record.sequence) :
    nQualities rs ≠ [] := by
  obtain ⟨r, hr, h78⟩ := List.mem_flatMap.mp h
  rw [← List.map_fst_zip _ _ r.quality_length.ge] at h78
  obtain ⟨x, hx, hx78⟩ := List.mem_map.mp h78
  exact List.ne_nil_of_mem (List.mem_flatMap.mpr
    ⟨r, hr, List.mem_map.mpr ⟨x, List.mem_filter.mpr ⟨hx, by simp [hx78]⟩, rfl⟩⟩)

/-- On a nonempty list, the label of the least and greatest byte is `qRange`. -/
theorem nLabel_eq_qRange {l : List Nat} (h : l ≠ []) :
    nLabel (l.min?.getD 255) (l.max?.getD 0) = qRange l := by
  obtain ⟨a, ha⟩ := Option.ne_none_iff_exists'.mp (mt List.min?_eq_none_iff.mp h)
  obtain ⟨b, hb⟩ := Option.ne_none_iff_exists'.mp (mt List.max?_eq_none_iff.mp h)
  have hab : a ≤ b := (List.max?_eq_some_iff'.mp hb).2 a (List.min?_eq_some_iff'.mp ha).1
  simp only [nLabel, qRange, ha, hb, Option.getD_some]
  split_ifs <;> first | rfl | omega

/-- **The letter table.** In a state that has counted the records, one row per base that occurs,
ascending, with its count and its longest run less one; the row of `N` shows the range of
qualities at an `N`, and no other row shows qualities. -/
theorem Counted.letterTable {rs : List Record} {s : State} (h : Counted rs s) :
    letterTable s =
      ((List.range 256).filter (· ∈ rs.flatMap Record.sequence)).map fun c =>
        ⟨c, (rs.flatMap Record.sequence).count c,
          (rs.map fun r => longestRun c r.sequence - 1).max?.getD 0,
          if c = 78 then qRange (nQualities rs) else []⟩ := by
  rw [FastqChars.letterTable, h.letterRows, List.map_map]
  refine List.map_congr_left fun c hc => ?_
  have hc' : c ∈ rs.flatMap Record.sequence := by simpa using (List.mem_filter.mp hc).2
  have h110 : c ≠ 110 := by
    obtain ⟨r, -, hr⟩ := List.mem_flatMap.mp hc'
    have := r.upcased c hr
    omega
  simp only [Function.comp, h.maxrun, foldl_max_zero, h110, or_false]
  split_ifs with h78
  · subst h78
    rw [h.qmin_n, h.qmax_n, foldl_max_zero,
      foldl_min_of_le fun x hx => (nQualities_lt rs x hx).le.trans (by norm_num),
      nLabel_eq_qRange (nQualities_ne_nil hc')]
  · rfl

/-- A state that has counted the records, with the tail table of `T`, prints the report of the
records. -/
theorem Counted.report {T : Nat} {rs : List Record} {s : State} (h : Counted rs s)
    (htail : ∀ c, s.tail_chars c = tailsOf T c rs) :
    report s = specReport T rs := by
  simp only [FastqChars.report, specReport, details, h.seq_count, h.qminScan, h.qmaxScan,
    h.letterTable, h.qualityRows, htail]

/-- **`fastq_chars` prints the report of its reads.** For `T ≥ 1` and whatever memory lies
around the quality strings, the report is `specReport`: the number of reads and, if there is
one, the least and greatest quality byte (0 for none), their range, the guess read off them,
and the two tables of the bytes that occur with their counts, runs and tails. -/
theorem fastq_chars_refines {T : Nat} (hT : 1 ≤ T) (outside : Nat → Int → Nat)
    (rs : List Record) :
    fastqChars T outside rs = specReport T rs :=
  (counted_readLoop T outside rs).report fun c => tail_chars_foldl hT outside c rs [] _ rfl

/-- `T = 2`, one read `AN` with quality `5I`: `fastq_chars` prints the report of that read. -/
theorem fastq_chars_refines_one :
    fastqChars 2 (fun _ _ => 0) [⟨[65, 78], [53, 73], rfl, by decide, by decide, by decide⟩] =
      specReport 2 [⟨[65, 78], [53, 73], rfl, by decide, by decide, by decide⟩] :=
  fastq_chars_refines (by decide) _ _

/-! ## Order independence -/

theorem min?_perm {l l' : List Nat} (h : l.Perm l') : l.min? = l'.min? :=
  Option.ext fun _ => by simp only [Option.mem_def, List.min?_eq_some_iff', h.mem_iff]

theorem max?_perm {l l' : List Nat} (h : l.Perm l') : l.max? = l'.max? :=
  Option.ext fun _ => by simp only [Option.mem_def, List.max?_eq_some_iff', h.mem_iff]

/-- `specReport` is a function of the multiset of reads. -/
theorem specReport_perm (T : Nat) {rs rs' : List Record} (h : rs.Perm rs') :
    specReport T rs = specReport T rs' := by
  have hs := h.flatMap_right Record.sequence
  have hq := h.flatMap_right Record.quality
  have hrun : ∀ c, (rs.map fun r => longestRun c r.sequence - 1).max? =
      (rs'.map fun r => longestRun c r.sequence - 1).max? := fun c => max?_perm (h.map _)
  have hn : qRange (nQualities rs) = qRange (nQualities rs') := by
    have hp : (nQualities rs).Perm (nQualities rs') := h.flatMap_right _
    simp only [qRange, min?_perm hp, max?_perm hp]
  have ht : ∀ c, tailsOf T c rs = tailsOf T c rs' := fun c => h.countP_eq _
  simp only [specReport, h.length_eq, hs.mem_iff, hs.count_eq, hq.mem_iff, hq.count_eq,
    min?_perm hq, max?_perm hq, hrun, hn, ht]

/-- **The report ignores the order of the reads.** For `T ≥ 1`, reordering the reads and
changing the memory around the quality strings leave the printed report unchanged: a run never
continues from one read into the next, and the tail check never depends on that memory. -/
theorem fastq_chars_perm {T : Nat} (hT : 1 ≤ T) (outside outside' : Nat → Int → Nat)
    {rs rs' : List Record} (h : rs.Perm rs') :
    fastqChars T outside rs = fastqChars T outside' rs' := by
  rw [fastqChars, fastqChars,
    (counted_readLoop T outside rs).report fun c => tail_chars_foldl hT outside c rs [] _ rfl,
    (counted_readLoop T outside' rs').report fun c => tail_chars_foldl hT outside' c rs' [] _ rfl,
    specReport_perm T h]

/-- `T = 2`, the reads `AA`/`II` and `NN`/`##` in both orders, with different memory around
them: one report. -/
theorem fastq_chars_perm_swap :
    [(⟨[65, 65], [73, 73], rfl, by decide, by decide, by decide⟩ : Record),
        ⟨[78, 78], [35, 35], rfl, by decide, by decide, by decide⟩].Perm
      [⟨[78, 78], [35, 35], rfl, by decide, by decide, by decide⟩,
        ⟨[65, 65], [73, 73], rfl, by decide, by decide, by decide⟩] ∧
    fastqChars 2 (fun _ _ => 0)
        [⟨[65, 65], [73, 73], rfl, by decide, by decide, by decide⟩,
          ⟨[78, 78], [35, 35], rfl, by decide, by decide, by decide⟩] =
      fastqChars 2 (fun _ _ => 73)
        [⟨[78, 78], [35, 35], rfl, by decide, by decide, by decide⟩,
          ⟨[65, 65], [73, 73], rfl, by decide, by decide, by decide⟩] :=
  ⟨List.Perm.swap _ _ [], fastq_chars_perm (by decide) _ _ (List.Perm.swap _ _ [])⟩

/-! ## The guessed encoding -/

/-- On bytes `a ≤ b < 128`, the guess reads the range at offset 33 when `b ≤ 74`, and at
offset 64 when `59 ≤ a` and `75 ≤ b`. -/
theorem guess_of_range {a b : Nat} {off : Int} (hab : a ≤ b) (hb : b < 128)
    (h : off = 33 ∧ b ≤ 74 ∨ off = 64 ∧ 59 ≤ a ∧ 75 ≤ b) :
    guess a b = ⟨off, a - off, b - off⟩ := by
  simp only [guess]
  rcases h with ⟨rfl, h⟩ | ⟨rfl, h1, h2⟩
  · rw [if_pos (by omega), asChar_of_lt (by omega) (by omega), asChar_of_lt (by omega) (by omega)]
  · rw [if_neg (by omega), asChar_of_lt (by omega) (by omega), asChar_of_lt (by omega) (by omega)]

/-- **The guess decodes the encoding.** If the quality bytes are phred scores plus 33 with no
score above 41, or phred scores plus 64 with none below -5 and one at least 11, the report
guesses that offset, and the `fastq_qmin` and `fastq_qmax` it prints are the least and greatest
score. -/
theorem guess_decodes (T : Nat) (outside : Nat → Int → Nat) (rs : List Record) (off : Int)
    (henc : off = 33 ∧ (∀ b ∈ rs.flatMap Record.quality, b ≤ 33 + 41) ∨
      off = 64 ∧ (∀ b ∈ rs.flatMap Record.quality, 64 - 5 ≤ b) ∧
        ∃ b ∈ rs.flatMap Record.quality, 64 + 11 ≤ b)
    (hne : rs.flatMap Record.quality ≠ []) :
    (fastqChars T outside rs).details.map Details.guess =
      some ⟨off, ((rs.flatMap Record.quality).min?.getD 0 : Nat) - off,
        ((rs.flatMap Record.quality).max?.getD 0 : Nat) - off⟩ := by
  obtain ⟨a, ha⟩ := Option.ne_none_iff_exists'.mp (mt List.min?_eq_none_iff.mp hne)
  obtain ⟨b, hb⟩ := Option.ne_none_iff_exists'.mp (mt List.max?_eq_none_iff.mp hne)
  have ha' := List.min?_eq_some_iff'.mp ha
  have hb' := List.max?_eq_some_iff'.mp hb
  have h := counted_readLoop T outside rs
  have hpos : 0 < (readLoop T outside rs).seq_count := by
    rw [h.seq_count, List.length_pos]
    rintro rfl; exact hne rfl
  simp only [fastqChars, report, if_pos hpos, Option.map_some', details, h.qminScan,
    h.qmaxScan, ha, hb, Option.getD_some]
  refine congrArg some (guess_of_range (hb'.2 a ha'.1) (flatMap_quality_lt rs b hb'.1) ?_)
  rcases henc with ⟨rfl, hle⟩ | ⟨rfl, hge, c, hc, hc75⟩
  · exact .inl ⟨rfl, hle b hb'.1⟩
  · exact .inr ⟨rfl, hge a ha'.1, hc75.trans (hb'.2 c hc)⟩

/-- One read with qualities `#` and `I` (phred 2 and 40 plus 33): offset 33, scores 2 to 40.
One read with qualities `@` and `h` (phred 0 and 40 plus 64): offset 64, scores 0 to 40. -/
theorem guess_decodes_sanger_illumina :
    (fastqChars 4 (fun _ _ => 0)
        [⟨[65, 65], [35, 73], rfl, by decide, by decide, by decide⟩]).details.map
      Details.guess = some ⟨33, 2, 40⟩ ∧
    (fastqChars 4 (fun _ _ => 0)
        [⟨[65, 65], [64, 104], rfl, by decide, by decide, by decide⟩]).details.map
      Details.guess = some ⟨64, 0, 40⟩ :=
  ⟨(guess_decodes 4 _ _ 33 (.inl ⟨rfl, by decide⟩) (by decide)).trans (by decide),
    (guess_decodes 4 _ _ 64 (.inr ⟨rfl, by decide, by decide⟩) (by decide)).trans (by decide)⟩

end Vsearch.FastqChars
