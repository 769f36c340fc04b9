import Vsearch.Subsample.Cursor

/-!
# What the loop of `subsample` computes

`Cursor.lean` states the loop's invariant for any mass lookup that reads the weights inside the
table. Here it is instantiated with the lookup of `subsample` itself (`dbMass`, both modes),
over admissible draws for the `mass_total` reads.

Results:
* **`subsample_loop_bounds`**: every state the loop reaches with `x > 0` has
  `x ≤ mass_total - r` (so `random_ulong` never gets the bound 0), `r < mass_total` (so
  `mass_total - r` does not wrap) and `a` inside the `abundance` vector; the loop ends with
  `x = 0` after at most `mass_total` passes. This holds for every weight list, zero weights
  included.
* `selection_charges_occ`: for every weight list the loop charges each read it takes to the
  amplicon whose run of `max w_i 1` passes holds it.
* **`selection_result`**: with positive weights (always so without `--sizein`) those runs are
  the amplicons' own reads, so `abundance` is the per-amplicon count of the reads taken: it sums
  to `n`, stays within the weights, and equals them when `n = mass_total`.
* `zero_weight_charged`: a weight-zero amplicon breaks the last point; the cursor charges it
  the read of the next amplicon.
* `abundance_read_past_end`: the table is read at index `k`, for an empty input before the loop
  and after the last read of the last amplicon is taken.
-/

namespace Vsearch.Subsample

theorem dbMass_agrees (sizein : Bool) (ab : List Nat) :
    ∀ a < (weights sizein ab).length, dbMass sizein ab a = (weights sizein ab)[a]? :=
  fun _ ha => dbMass_of_lt (by simpa using ha)

/-- The invariant at the start of `subsample`'s loop. -/
theorem inv_loopStart {sizein : Bool} {ab : List Nat} {n : Nat} {ds : List Nat}
    (hn : n ≤ ds.length) (hadm : Admissible ds) :
    Inv ds.length (weights sizein ab) (dbMass sizein ab) (selectUnits n 0 ds)
      (loopStart sizein ab n, ds) := by
  have : Inv ds.length (weights sizein ab) (dbMass sizein ab) (selectUnits n 0 ds)
      (init (dbMass sizein ab) (weights sizein ab).length n, ds) := Inv.initial hn hadm
  simpa [loopStart] using this

/-- `subsample`'s loop is the loop of `Cursor.lean` over the `k` weights. -/
theorem selection_eq_run (sizein : Bool) (ab : List Nat) (n : Nat) (ds : List Nat) :
    selection sizein ab n ds =
      run (dbMass sizein ab) (init (dbMass sizein ab) (weights sizein ab).length n) ds := by
  rw [selection, loopStart, length_weights]

theorem selectUnits_sublist_range {sizein : Bool} {ab : List Nat} (n : Nat) {ds : List Nat}
    (hds : ds.length = massTotal sizein ab) :
    List.Sublist (selectUnits n 0 ds) (List.range (weights sizein ab).sum) := by
  rw [List.range_eq_range', ← massTotal_eq_sum, ← hds]
  exact selectUnits_sublist n 0 ds

/-- With positive weights the runs of the cursor are the amplicons' blocks. -/
theorem selection_tally_pos {sizein : Bool} {ab : List Nat} (hpos : ∀ v ∈ weights sizein ab, 0 < v)
    {n : Nat} {ds : List Nat} (hn : n ≤ massTotal sizein ab)
    (hds : ds.length = massTotal sizein ab) (hadm : Admissible ds) :
    (selection sizein ab n ds).1.abundance = tally (weights sizein ab) (selectUnits n 0 ds) := by
  rw [selection_eq_run, (run_tally (dbMass_agrees sizein ab)
    (hds.trans (massTotal_eq_sum sizein ab)).le (hn.trans_eq hds.symm) hadm).2, occ_of_pos hpos]

/-- With positive weights, taking every read gives every amplicon its weight. -/
theorem selection_all_pos {sizein : Bool} {ab : List Nat} (hpos : ∀ v ∈ weights sizein ab, 0 < v)
    {ds : List Nat} (hds : ds.length = massTotal sizein ab) (hadm : Admissible ds) :
    (selection sizein ab (massTotal sizein ab) ds).1.abundance = weights sizein ab := by
  rw [selection_tally_pos hpos le_rfl hds hadm, ← hds, selectUnits_all 0 hadm,
    ← List.range_eq_range', hds, massTotal_eq_sum, tally_range]

/-- For every weight list the loop stops with `x = 0`, charging each read it takes to the
amplicon whose run of `max w_i 1` passes holds it. -/
theorem selection_charges_occ (sizein : Bool) (ab : List Nat) (n : Nat) (ds : List Nat)
    (hn : n ≤ massTotal sizein ab) (hds : ds.length = massTotal sizein ab)
    (hadm : Admissible ds) :
    (selection sizein ab n ds).1.x = 0 ∧
      (selection sizein ab n ds).1.abundance = tally (occ (weights sizein ab)) (selectUnits n 0 ds) := by
  rw [selection_eq_run]
  exact run_tally (dbMass_agrees sizein ab) (hds.trans (massTotal_eq_sum sizein ab)).le
    (hn.trans_eq hds.symm) hadm

/-- Abundances `[0, 1]`: the read taken is charged to amplicon 0, whose run of one pass holds
it. -/
theorem selection_charges_occ_zero_one :
    (selection true [0, 1] 1 [0]).1.abundance = tally (occ [0, 1]) (selectUnits 1 0 [0]) :=
  (selection_charges_occ true [0, 1] 1 [0] (by decide) (by decide) (by decide)).2

/-- **The loop stays in bounds.** -/
theorem subsample_loop_bounds (sizein : Bool) (ab : List Nat) (n : Nat) (ds : List Nat)
    (hn : n ≤ massTotal sizein ab) (hds : ds.length = massTotal sizein ab)
    (hadm : Admissible ds) :
    (∀ t es, Relation.ReflTransGen (Pass (dbMass sizein ab)) (loopStart sizein ab n, ds) (t, es) →
      0 < t.x → t.x ≤ massTotal sizein ab - t.r ∧ t.r < massTotal sizein ab ∧
        t.a < t.abundance.length ∧ t.abundance.length = ab.length) ∧
    (selection sizein ab n ds).1.x = 0 ∧ (selection sizein ab n ds).1.r ≤ massTotal sizein ab := by
  have hM : ds.length ≤ (weights sizein ab).sum := by rw [hds, massTotal_eq_sum]
  have hi : Inv ds.length (weights sizein ab) (dbMass sizein ab) (selectUnits n 0 ds)
      (loopStart sizein ab n, ds) := inv_loopStart (hn.trans_eq hds.symm) hadm
  have hend : (selection sizein ab n ds).1.x = 0 := by
    rw [selection_eq_run]
    exact (run_tally (dbMass_agrees sizein ab) hM (hn.trans_eq hds.symm) hadm).1
  refine ⟨fun t es h hx => ?_, hend, ?_⟩
  · have ht := hi.reaches (dbMass_agrees sizein ab) hM h
    obtain ⟨P, hab, -⟩ := ht.taken
    have hab' : t.abundance = tally (occ (weights sizein ab)) P := hab
    rw [← hds]
    exact ⟨(ht.bounds hM hx).1, (ht.bounds hM hx).2.1, (ht.bounds hM hx).2.2, by simp [hab']⟩
  · have := (hi.reaches (dbMass_agrees sizein ab) hM (run_reaches _ _ ds)).reads
    rw [← hds]; simp only [selection]; omega

/-- Abundances `[2, 1]`, two reads to take, draws `0, 1, 0`: the loop ends with `x = 0`. -/
theorem subsample_loop_bounds_two_one :
    (selection true [2, 1] 2 [0, 1, 0]).1.x = 0 :=
  (subsample_loop_bounds true [2, 1] 2 [0, 1, 0] (by decide) (by decide) (by decide)).2.1

/-- **The selection result.** With positive weights the loop's `abundance` counts, per amplicon,
the reads taken from its own block: it sums to `n`, stays within the weights, and is the
weights themselves when every read is taken. -/
theorem selection_result (sizein : Bool) (ab : List Nat) (hpos : ∀ v ∈ weights sizein ab, 0 < v)
    (n : Nat) (ds : List Nat) (hn : n ≤ massTotal sizein ab)
    (hds : ds.length = massTotal sizein ab) (hadm : Admissible ds) :
    (selection sizein ab n ds).1.abundance = tally (weights sizein ab) (selectUnits n 0 ds) ∧
    (selection sizein ab n ds).1.abundance.sum = n ∧
    List.Forall₂ (· ≤ ·) (selection sizein ab n ds).1.abundance (weights sizein ab) ∧
    (n = massTotal sizein ab → (selection sizein ab n ds).1.abundance = weights sizein ab) := by
  have htally := selection_tally_pos hpos hn hds hadm
  have hsub : List.Sublist (selectUnits n 0 ds) (List.range (weights sizein ab).sum) :=
    selectUnits_sublist_range n hds
  refine ⟨htally, ?_, htally ▸ tally_le hsub, fun hM => hM ▸ selection_all_pos hpos hds hadm⟩
  rw [htally, sum_tally fun u hu => groupOf_lt (List.mem_range.mp (hsub.subset hu)),
    length_selectUnits 0 hadm (by omega)]

/-- Abundances `[2, 1]`, two reads to take, draws `0, 1, 0`: reads 0 and 2 are taken, one for
each amplicon. -/
theorem selection_result_two_one :
    (selection true [2, 1] 2 [0, 1, 0]).1.abundance = tally [2, 1] [0, 2] :=
  (selection_result true [2, 1] (by decide) 2 [0, 1, 0] (by decide) (by decide) (by decide)).1

/-- A weight-zero amplicon is charged the read of the next one: weights `[0, 1]`, one read to
take, draw `0`. Read 0 belongs to amplicon 1, the loop counts it for amplicon 0. -/
theorem zero_weight_charged :
    (selection true [0, 1] 1 [0]).1.abundance = [1, 0] ∧
      tally [0, 1] (selectUnits 1 0 [0]) = [0, 1] := by
  decide

/-- The abundance table is read at index `k`: before the loop of an empty input
(`db_getabundance(0)`), and after the last read of the last amplicon is taken (weights `[1]`,
one read to take, draw `0`: the cursor moves to amplicon 1 and reads it). -/
theorem abundance_read_past_end :
    (loopStart true [] 0).mass = none ∧
      (selection true [1] 1 [0]).1.a = 1 ∧ (selection true [1] 1 [0]).1.mass = none := by
  decide

end Vsearch.Subsample
