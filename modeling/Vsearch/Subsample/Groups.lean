import Vsearch.Subsample.Select

/-!
# Amplicons as runs of reads

The spec (4.2) lays the `M` reads out in amplicon order: amplicon `i` owns the reads
`[start w i, start w (i + 1))`, `w_i` of them. `groupOf w u` is the amplicon owning read `u`,
and `tally w P` counts the reads of `P` per amplicon: the `SelectionResult` the spec asks for
when `P` is the set of reads taken.

The cursor of `subsample` does not walk these runs but the runs of `occ w`: it tests
`m >= mass` only after `++m`, so it spends `max w_i 1` passes on amplicon `i`. The two layouts
agree when every weight is positive (`occ_of_pos`).

Results:
* `countP_groupOf_range` / `tally_range`: amplicon `i` owns exactly `w_i` reads, so taking
  every read tallies to `w`.
* `tally_le`: a set of distinct reads tallies to at most `w_i` per amplicon.
* `sum_tally`: reads that all lie before `start w k` tally to their number.
* `tally_append_single`: one more read adds one to the entry of its amplicon, which is the
  `abundance[a]++` of the loop.
-/

namespace Vsearch.Subsample

/-- `start w i`: the first read of amplicon `i`, `w_0 + ... + w_{i-1}`. -/
def start (w : List Nat) (i : Nat) : Nat := (w.take i).sum

/-- The amplicon owning read `u`: the `i` with `start w i ≤ u < start w (i + 1)`, and
`w.length` past the last read. -/
def groupOf : List Nat → Nat → Nat
  | [], _ => 0
  | v :: vs, u => if u < v then 0 else groupOf vs (u - v) + 1

/-- The passes the cursor spends on each amplicon: `max w_i 1`. -/
def occ (w : List Nat) : List Nat := w.map (max · 1)

/-- The reads of `P` per amplicon of `w`. -/
def tally (w : List Nat) (P : List Nat) : List Nat :=
  (List.range w.length).map fun i => P.countP (groupOf w · = i)

/-! ## Runs -/

@[simp] theorem start_zero (w : List Nat) : start w 0 = 0 := by simp [start]

@[simp] theorem start_cons_succ (v : Nat) (vs : List Nat) (i : Nat) :
    start (v :: vs) (i + 1) = v + start vs i := by simp [start]

theorem start_succ : ∀ {w : List Nat} {i v : Nat}, w[i]? = some v →
    start w (i + 1) = start w i + v
  | _ :: _, 0, _, h => by simp_all
  | _ :: _, i + 1, _, h => by
    rw [start_cons_succ, start_cons_succ, start_succ (by simpa using h)]; omega

theorem start_length (w : List Nat) : start w w.length = w.sum := by simp [start]

theorem groupOf_eq : ∀ {w : List Nat} {a u : Nat}, start w a ≤ u → u < start w (a + 1) →
    groupOf w u = a
  | [], a, u, h1, h2 => by simp [start] at h2
  | v :: vs, 0, u, _, h2 => by simp_all [groupOf, start]
  | v :: vs, a + 1, u, h1, h2 => by
    rw [start_cons_succ] at h1 h2
    rw [groupOf, if_neg (by omega), groupOf_eq (a := a) (by omega) (by omega)]

theorem groupOf_lt : ∀ {w : List Nat} {u : Nat}, u < w.sum → groupOf w u < w.length
  | [], _, h => by simp at h
  | v :: vs, u, h => by
    simp only [groupOf, List.length_cons]
    split
    · omega
    · have := groupOf_lt (w := vs) (u := u - v) (by simp at h; omega); omega

theorem countP_groupOf_range : ∀ (w : List Nat) (i : Nat),
    (List.range w.sum).countP (groupOf w · = i) = w.getD i 0
  | [], _ => by simp
  | v :: vs, i => by
    have hhead : ∀ u ∈ List.range v, groupOf (v :: vs) u = 0 := fun u hu => by
      simp [groupOf, List.mem_range.mp hu]
    have htail : ∀ u, groupOf (v :: vs) (v + u) = groupOf vs u + 1 := fun u => by
      simp [groupOf]
    rw [List.sum_cons, List.range_add, List.countP_append, List.countP_map]
    cases i with
    | zero =>
      rw [List.countP_eq_length.mpr (by simpa using hhead), List.countP_eq_zero.mpr (by simp [htail])]
      simp
    | succ j =>
      rw [List.countP_eq_zero.mpr (by simp +contextual [hhead])]
      simp only [Function.comp_def, htail, Nat.add_right_cancel_iff, countP_groupOf_range vs j]
      simp

/-! ## The cursor's layout -/

@[simp] theorem length_occ (w : List Nat) : (occ w).length = w.length := by simp [occ]

theorem getElem?_occ (w : List Nat) (i : Nat) : (occ w)[i]? = w[i]?.map (max · 1) := by
  simp [occ]

theorem occ_of_pos {w : List Nat} (h : ∀ v ∈ w, 0 < v) : occ w = w := by
  conv_rhs => rw [← List.map_id w]
  exact List.map_congr_left fun v hv => by simp; have := h v hv; omega

theorem sum_le_sum_occ (w : List Nat) : w.sum ≤ (occ w).sum := by
  induction w with
  | nil => simp [occ]
  | cons v vs ih => simp only [occ, List.map_cons, List.sum_cons] at ih ⊢; omega

/-! ## Tallies -/

@[simp] theorem length_tally (w P : List Nat) : (tally w P).length = w.length := by
  simp [tally]

theorem tally_nil (w : List Nat) : tally w [] = List.replicate w.length 0 := by
  simp [tally]

theorem getElem_tally (w P : List Nat) (i : Nat) (h : i < (tally w P).length) :
    (tally w P)[i] = P.countP (groupOf w · = i) := by
  simp [tally]

theorem tally_append_single (w P : List Nat) (u : Nat) :
    tally w (P ++ [u]) = (tally w P).modify (· + 1) (groupOf w u) := by
  apply List.ext_getElem (by simp)
  intro i h1 h2
  rw [List.getElem_modify, getElem_tally, getElem_tally, List.countP_append]
  by_cases hi : groupOf w u = i <;> simp [hi]

theorem tally_range (w : List Nat) : tally w (List.range w.sum) = w := by
  apply List.ext_getElem (by simp)
  intro i h1 h2
  rw [getElem_tally, countP_groupOf_range, List.getD_eq_getElem?_getD, List.getElem?_eq_getElem h2]
  rfl

theorem tally_le {w P : List Nat} (h : List.Sublist P (List.range w.sum)) :
    List.Forall₂ (· ≤ ·) (tally w P) w := by
  conv_rhs => rw [← tally_range w]
  refine List.forall₂_iff_get.mpr ⟨by simp, fun i h1 h2 => ?_⟩
  simp only [List.get_eq_getElem, getElem_tally]
  exact h.countP_le _

theorem sum_range_indicator (g k : Nat) :
    ((List.range k).map fun i => if g = i then 1 else 0).sum = if g < k then 1 else 0 := by
  induction k with
  | zero => simp
  | succ k ih =>
    rw [List.range_succ, List.map_append, List.sum_append, ih]
    simp only [List.map_singleton, List.sum_singleton]
    split_ifs <;> omega

theorem sum_tally {w : List Nat} :
    ∀ {P : List Nat}, (∀ u ∈ P, groupOf w u < w.length) → (tally w P).sum = P.length
  | [], _ => by simp [tally_nil]
  | u :: P, h => by
    have ih := sum_tally (P := P) fun v hv => h v (List.mem_cons_of_mem u hv)
    have hcons : tally w (u :: P) = (List.range w.length).map fun i =>
        P.countP (groupOf w · = i) + if groupOf w u = i then 1 else 0 := by
      simp only [tally, List.countP_cons, decide_eq_true_eq]
    rw [hcons, List.sum_map_add, ← tally, ih, sum_range_indicator,
      if_pos (h u (List.mem_cons_self u P)), List.length_cons]

end Vsearch.Subsample
