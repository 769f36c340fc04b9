import Vsearch.Subsample.Sampling
import Vsearch.Subsample.Output

/-!
# `subsample` whole, and the width of its counters

`subsample()` (`src/src/subsample.cc:76-320`) once the input is read: the FASTQ check
(`subsample.cc:122-125`), the bound on `n` (`175-178`), the selection loop and the output
pass. The loop counts in `std::vector<int> abundance`; the output pass reads
`int64_t ab_sub = abundance[i]`. `toInt32` is the value an `int` holds after `c` increments
from 0: the low 32 bits of `c`, read in two's complement (what the hardware does; the C++
standard leaves signed overflow undefined).

The file opening, `db_read` and the progress bar are not modelled. `n` is taken as given: the
`--sample_pct` conversion is floating point. The two report lines (`subsample.cc:149-159`,
`290-297`) are `subsampleMessages`; `stderr` and the log get the same lines.

Results:
* `subsample_eq_ok`, `sum_tally_selectUnits` and **`subsample_selects`**: with positive
  weights below `2^31`, `subsample` succeeds and writes the output pass of the selection result
  `tally w (selectUnits n 0 ds)`, a valid selection (`s_i ≤ w_i`, `Σ s_i = n`): the counters
  never wrap.
* **`subsample_messages`**: a run that succeeds reports `Got M reads from A amplicons` and
  `Subsampled n reads from K amplicons`, `K` the amplicons with a read taken, `K ≤ min n A`,
  and `K = 0` only when `n = 0`.
* `int_counter_wraps`: one amplicon of `2^31` reads, all taken. The counter passes `INT_MAX`,
  `ab_sub` reads `-2^31`, and the output has no kept record and a discarded one of `2^32`
  reads.
-/

namespace Vsearch.Subsample

/-- The `int` that `abundance[i]` holds after `c` increments from 0. -/
def toInt32 (c : Nat) : Int :=
  if c % 2 ^ 32 < 2 ^ 31 then (c % 2 ^ 32 : Nat) else (c % 2 ^ 32 : Nat) - 2 ^ 32

theorem toInt32_of_lt {c : Nat} (h : c < 2 ^ 31) : toInt32 c = c := by
  unfold toInt32
  rw [Nat.mod_eq_of_lt (by omega), if_pos h]

/-- `subsample()` once the input is read, for `n` reads to take and the scripted draws `ds`. -/
def subsample (o : Outputs) (sizein isFastq : Bool) (ab : List Nat) (n : Nat)
    (ds : List Nat) : Except String Written :=
  if (o.fastqout || o.fastqout_discarded) && !isFastq then
    .error "Cannot write FASTQ output with a FASTA input file, lacking quality scores"
  else if massTotal sizein ab < n then
    .error "Cannot subsample more reads than in the original sample"
  else
    .ok (writeOutput o ((weights sizein ab).zip
      ((selection sizein ab n ds).1.abundance.map toInt32)))

theorem admissible_replicate_zero : ∀ m : Nat, Admissible (List.replicate m 0)
  | 0 => trivial
  | m + 1 => ⟨by simp, admissible_replicate_zero m⟩

theorem exists_ge_of_forall₂ {s w : List Nat} (h : List.Forall₂ (· ≤ ·) s w) :
    ∀ c ∈ s, ∃ v ∈ w, c ≤ v := by
  induction h with
  | nil => simp
  | cons hab _ ih =>
    intro c hc
    rcases List.mem_cons.mp hc with rfl | hc
    · exact ⟨_, List.mem_cons_self _ _, hab⟩
    · obtain ⟨v, hv, hcv⟩ := ih c hc
      exact ⟨v, List.mem_cons_of_mem _ hv, hcv⟩

section Run

variable (o : Outputs) (sizein isFastq : Bool) (ab : List Nat)
  (hpos : ∀ v ∈ weights sizein ab, 0 < v) (hint : ∀ v ∈ weights sizein ab, v < 2 ^ 31)
  (hfq : (o.fastqout || o.fastqout_discarded) = true → isFastq = true)
  {n : Nat} (hn : n ≤ massTotal sizein ab) {ds : List Nat}
  (hds : ds.length = massTotal sizein ab) (hadm : Admissible ds)
include hn hds hadm

/-- The reads taken add up to `n`. -/
theorem sum_tally_selectUnits : (tally (weights sizein ab) (selectUnits n 0 ds)).sum = n := by
  have hsub := selectUnits_sublist_range n hds
  rw [sum_tally fun u hu => groupOf_lt (List.mem_range.mp (hsub.subset hu)),
    length_selectUnits 0 hadm (by omega)]

include hpos hint hfq in
/-- With positive weights below `2^31` and the FASTQ check passed, `subsample` runs the output
pass on the per-amplicon count of the reads taken, read back exactly from the `int`s. -/
theorem subsample_eq_ok :
    subsample o sizein isFastq ab n ds = .ok (writeOutput o ((weights sizein ab).zip
      ((tally (weights sizein ab) (selectUnits n 0 ds)).map Int.ofNat))) := by
  have hle : List.Forall₂ (· ≤ ·) (tally (weights sizein ab) (selectUnits n 0 ds))
      (weights sizein ab) := tally_le (selectUnits_sublist_range n hds)
  have hcast : (tally (weights sizein ab) (selectUnits n 0 ds)).map toInt32 =
      (tally (weights sizein ab) (selectUnits n 0 ds)).map Int.ofNat :=
    List.map_congr_left fun c hc => by
      obtain ⟨v, hv, hcv⟩ := exists_ge_of_forall₂ hle c hc
      exact toInt32_of_lt (lt_of_le_of_lt hcv (hint v hv))
  have hfalse : ((o.fastqout || o.fastqout_discarded) && !isFastq) = false := by
    cases h : (o.fastqout || o.fastqout_discarded) <;> simp_all
  rw [subsample, if_neg (by simp [hfalse]), if_neg (by omega),
    selection_tally_pos hpos hn hds hadm, hcast]

end Run

/-- **`subsample` writes the partition of its selection.** With positive weights below `2^31`,
`n ≤ mass_total`, admissible draws and no FASTQ output for a FASTA input, `subsample` runs the
output pass on `s = tally w (selectUnits n 0 ds)`, the per-amplicon count of the reads taken,
read back exactly from the `int` counters; `s` is a valid selection. -/
theorem subsample_selects (o : Outputs) (sizein isFastq : Bool) (ab : List Nat)
    (hpos : ∀ v ∈ weights sizein ab, 0 < v) (hint : ∀ v ∈ weights sizein ab, v < 2 ^ 31)
    (hfq : (o.fastqout || o.fastqout_discarded) = true → isFastq = true)
    (n : Nat) (hn : n ≤ massTotal sizein ab) (ds : List Nat)
    (hds : ds.length = massTotal sizein ab) (hadm : Admissible ds) :
    let s := tally (weights sizein ab) (selectUnits n 0 ds)
    subsample o sizein isFastq ab n ds =
        .ok (writeOutput o ((weights sizein ab).zip (s.map Int.ofNat))) ∧
      List.Forall₂ (· ≤ ·) s (weights sizein ab) ∧ s.sum = n :=
  ⟨subsample_eq_ok o sizein isFastq ab hpos hint hfq hn hds hadm,
    tally_le (selectUnits_sublist_range n hds), sum_tally_selectUnits sizein ab hn hds hadm⟩

/-- Abundances `[2, 1]`, both FASTA outputs, two reads, draws `0, 1, 0`: `subsample` writes the
partition of `s = [1, 1]`. -/
theorem subsample_selects_two_one :
    subsample ⟨true, false, true, false⟩ true false [2, 1] 2 [0, 1, 0] =
      .ok (writeOutput ⟨true, false, true, false⟩
        ([2, 1].zip ((tally [2, 1] (selectUnits 2 0 [0, 1, 0])).map Int.ofNat))) :=
  (subsample_selects ⟨true, false, true, false⟩ true false [2, 1] (by decide) (by decide)
    (by decide) 2 (by decide) [0, 1, 0] (by decide) (by decide)).1

/-- One amplicon of `2^31` reads under `--sizein`, all of them taken, FASTA output of the
discarded reads: the counter ends at `2^31 > INT_MAX`, `ab_sub` reads `-2^31`, no read is kept
and the discarded file gets one record of `mass - ab_sub = 2^32` reads. -/
theorem int_counter_wraps :
    (selection true [2 ^ 31] (2 ^ 31) (List.replicate (2 ^ 31) 0)).1.abundance = [2 ^ 31] ∧
      2147483647 < 2 ^ 31 ∧ toInt32 (2 ^ 31) = -2 ^ 31 ∧
      ∃ st, subsample ⟨false, false, true, false⟩ true false [2 ^ 31] (2 ^ 31)
          (List.replicate (2 ^ 31) 0) = .ok st ∧
        st.count .kept = 0 ∧ st.file .discarded .fasta = [⟨0, 2 ^ 32, 1⟩] := by
  have hall : (selection true [2 ^ 31] (massTotal true [2 ^ 31]) (List.replicate (2 ^ 31) 0)).1.abundance =
      weights true [2 ^ 31] :=
    selection_all_pos (by simp [weights]) (by rw [List.length_replicate]; rfl)
      (admissible_replicate_zero _)
  rw [show massTotal true [2 ^ 31] = 2 ^ 31 from rfl, show weights true [2 ^ 31] = [2 ^ 31] from rfl]
    at hall
  refine ⟨hall, by norm_num, by decide, ?_⟩
  rw [subsample, if_neg (by decide), if_neg (by decide), hall]
  exact ⟨_, rfl, rfl, rfl⟩

/-! ## The report lines -/

/-- `Got %llu reads from %d amplicons` (`subsample.cc:149-159`). -/
def gotMessage (mass_total dbsequencecount : Nat) : String :=
  "Got " ++ toString mass_total ++ " reads from " ++ toString dbsequencecount ++ " amplicons\n"

/-- `Subsampled %llu reads from %d amplicons` (`subsample.cc:290-297`). -/
def subsampledMessage (n samples : Nat) : String :=
  "Subsampled " ++ toString n ++ " reads from " ++ toString samples ++ " amplicons\n"

/-- The lines `subsample` writes to `stderr` (unless `--quiet`) and, the same, to the log: the
first once the input has passed the FASTQ check, the second after the output pass. -/
def subsampleMessages (o : Outputs) (sizein isFastq : Bool) (ab : List Nat) (n : Nat)
    (ds : List Nat) : List String :=
  if (o.fastqout || o.fastqout_discarded) && !isFastq then []
  else gotMessage (massTotal sizein ab) ab.length ::
    match subsample o sizein isFastq ab n ds with
    | .error _ => []
    | .ok w => [subsampledMessage n (w.count .kept)]

theorem length_filter_pos_le_sum : ∀ l : List Nat, (l.filter (0 < ·)).length ≤ l.sum
  | [] => le_rfl
  | a :: l => by
    have := length_filter_pos_le_sum l
    by_cases ha : 0 < a <;> simp [List.filter_cons, ha] <;> omega

theorem countP_enum_snd {α : Type} (l : List α) (p : α → Bool) :
    l.enum.countP (fun x => p x.2) = l.countP p := by
  conv_rhs => rw [← List.enum_map_snd l]
  rw [List.countP_map]; rfl

/-- The kept side has one record per positive count. -/
theorem length_shares_kept {w s : List Nat} (h : s.length ≤ w.length) :
    (shares .kept (w.zip (s.map Int.ofNat))).length = (s.filter (0 < ·)).length := by
  have hsnd : (w.zip (s.map Int.ofNat)).countP (fun x => decide (0 < x.2)) =
      ((w.zip (s.map Int.ofNat)).map Prod.snd).countP (fun y : Int => decide (0 < y)) := by
    rw [List.countP_map]; rfl
  rw [shares, ← List.countP_eq_length_filter, List.countP_map, ← List.countP_eq_length_filter]
  simp only [Function.comp_def, Side.amount]
  rw [countP_enum_snd (w.zip (s.map Int.ofNat)) (fun x => decide (0 < x.2)), hsnd,
    List.map_snd_zip _ _ (by simpa using h), List.countP_map]
  simp [Function.comp_def]

/-- **The report lines.** In a run under the hypotheses of `subsample_selects`, `subsample`
writes `Got M reads from A amplicons`, then `Subsampled n reads from K amplicons`, where `K`
counts the amplicons with a read taken: `K` is at most `n` and at most `A`, and it is 0 only
when `n` is. -/
theorem subsample_messages (o : Outputs) (sizein isFastq : Bool) (ab : List Nat)
    (hpos : ∀ v ∈ weights sizein ab, 0 < v) (hint : ∀ v ∈ weights sizein ab, v < 2 ^ 31)
    (hfq : (o.fastqout || o.fastqout_discarded) = true → isFastq = true)
    (n : Nat) (hn : n ≤ massTotal sizein ab) (ds : List Nat)
    (hds : ds.length = massTotal sizein ab) (hadm : Admissible ds) :
    let K := ((tally (weights sizein ab) (selectUnits n 0 ds)).filter (0 < ·)).length
    subsampleMessages o sizein isFastq ab n ds =
        [gotMessage (massTotal sizein ab) ab.length, subsampledMessage n K] ∧
      K ≤ n ∧ K ≤ ab.length ∧ (K = 0 ↔ n = 0) := by
  intro K
  have hsum := sum_tally_selectUnits sizein ab hn hds hadm
  have hlen : (tally (weights sizein ab) (selectUnits n 0 ds)).length = ab.length := by simp
  have hlw : (tally (weights sizein ab) (selectUnits n 0 ds)).length ≤
      (weights sizein ab).length := by simp
  have hfalse : ((o.fastqout || o.fastqout_discarded) && !isFastq) = false := by
    cases h : (o.fastqout || o.fastqout_discarded) <;> simp_all
  refine ⟨?_, hsum ▸ length_filter_pos_le_sum _, hlen ▸ List.length_filter_le _ _, ?_⟩
  · rw [subsampleMessages, if_neg (by simp [hfalse]),
      subsample_eq_ok o sizein isFastq ab hpos hint hfq hn hds hadm]
    simp only [(writeOutput_spec o _).1, length_shares_kept hlw, K]
  · rw [← hsum, List.length_eq_zero, List.filter_eq_nil_iff, List.sum_eq_zero_iff]
    simp

/-- Abundances `[2, 1]`, two reads to take, draws `0, 1, 0`: `Got 3 reads from 2 amplicons`,
then `Subsampled 2 reads from` the amplicons with a read taken. -/
theorem subsample_messages_two_one :
    subsampleMessages ⟨true, false, true, false⟩ true false [2, 1] 2 [0, 1, 0] =
      [gotMessage 3 2, subsampledMessage 2
        ((tally [2, 1] (selectUnits 2 0 [0, 1, 0])).filter (0 < ·)).length] :=
  (subsample_messages ⟨true, false, true, false⟩ true false [2, 1] (by decide) (by decide)
    (by decide) 2 (by decide) [0, 1, 0] (by decide) (by decide)).1

end Vsearch.Subsample
