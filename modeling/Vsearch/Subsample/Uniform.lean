import Vsearch.Subsample.Select

/-!
# Every set of reads is equally likely

The spec (4.2) calls the loop of `subsample` the sequential method that draws a uniformly random
`n`-subset of the `M` reads. `drawVectors M` lists each vector of draws `(d_0, ..., d_{M-1})`
with `d_r < M - r` once; there are `M!` of them, and under independent uniform draws each is
equally likely. A vector that the loop stops early on still counts once with all its unused
draws, so the counting is over whole vectors.

Results:
* `mem_drawVectors`, `nodup_drawVectors`, `length_drawVectors`: `drawVectors M` is the set of
  admissible draw vectors for `M` reads, each once, `M!` of them.
* **`uniform_selection`**: for every `n ≤ M` and every `n`-set `S` of reads below `M`, exactly
  `n! (M - n)!` draw vectors make the loop take the reads of `S`, so each of the `C(M, n)` sets
  has probability `1 / C(M, n)`. `selectUnits` reads no weight: this holds whatever the
  amplicons are.
-/

namespace Vsearch.Subsample

open Nat

/-- The draw vectors for `M` reads, each once: the draw of pass `r` is below `M - r`. -/
def drawVectors : Nat → List (List Nat)
  | 0 => [[]]
  | M + 1 => (List.range (M + 1)).flatMap fun d => (drawVectors M).map (d :: ·)

theorem mem_drawVectors :
    ∀ {M : Nat} {ds : List Nat}, ds ∈ drawVectors M ↔ ds.length = M ∧ Admissible ds
  | 0, [] => by simp [drawVectors, Admissible]
  | 0, _ :: _ => by simp [drawVectors]
  | M + 1, [] => by simp [drawVectors]
  | M + 1, d :: ds => by
    simp only [drawVectors, List.mem_flatMap, List.mem_range, List.mem_map, List.cons.injEq,
      mem_drawVectors, List.length_cons, Admissible, Nat.add_right_cancel_iff]
    constructor
    · rintro ⟨a, ha, l, ⟨rfl, hl⟩, rfl, rfl⟩; exact ⟨rfl, ha, hl⟩
    · rintro ⟨rfl, hd, hds⟩; exact ⟨d, hd, ds, ⟨rfl, hds⟩, rfl, rfl⟩

theorem nodup_drawVectors : ∀ M : Nat, (drawVectors M).Nodup
  | 0 => List.nodup_singleton _
  | M + 1 => by
    refine List.nodup_flatMap.mpr ⟨fun d _ => (nodup_drawVectors M).map (List.cons_injective),
      (List.nodup_range (M + 1)).pairwise_of_forall_ne fun a _ b _ hab => ?_⟩
    simp only [Function.onFun, List.disjoint_left, List.mem_map]
    rintro _ ⟨l, -, rfl⟩ ⟨l', -, h⟩
    exact hab (List.cons.inj h).1.symm

theorem length_drawVectors : ∀ M : Nat, (drawVectors M).length = M !
  | 0 => rfl
  | M + 1 => by
    simp [drawVectors, List.flatMap_def, Function.comp_def, length_drawVectors M,
      List.map_const', List.sum_const_nat, Nat.factorial_succ]

/-- `min x n` terms `A`, then `n - x` terms `B`. -/
theorem sum_range_ite_lt (x A B : Nat) :
    ∀ n : Nat, ((List.range n).map fun d => if d < x then A else B).sum =
      min x n * A + (n - x) * B
  | 0 => by simp
  | n + 1 => by
    rw [List.range_succ, List.map_append, List.sum_append, List.map_singleton,
      List.sum_singleton, sum_range_ite_lt x A B n]
    rcases Nat.lt_or_ge n x with hn | hn
    · rw [if_pos hn, Nat.min_eq_right (by omega), Nat.min_eq_right (by omega),
        Nat.sub_eq_zero_of_le (by omega), Nat.sub_eq_zero_of_le (by omega)]
      ring
    · rw [if_neg (by omega), Nat.min_eq_left hn, Nat.min_eq_left (by omega), Nat.sub_add_comm hn]
      ring

theorem insert_eq_iff_eq_erase {r : Nat} {S T : Finset Nat} (hT : r ∉ T) (hr : r ∈ S) :
    insert r T = S ↔ T = S.erase r :=
  ⟨fun h => h ▸ (Finset.erase_insert hT).symm, fun h => h ▸ Finset.insert_erase hr⟩

theorem card_le_of_subset_window {S : Finset Nat} {r M : Nat} (hS : ∀ u ∈ S, r ≤ u ∧ u < r + M) :
    S.card ≤ M := by
  have : S ⊆ Finset.Ico r (r + M) := fun u hu => Finset.mem_Ico.mpr (hS u hu)
  simpa using Finset.card_le_card this

/-- What the first draw does to the count: `d < x` takes read `r`, `d ≥ x` passes it. -/
theorem countP_first_draw {M x r d : Nat} {S : Finset Nat} (hx : 0 < x)
    (ih : ∀ (x r : Nat) (S : Finset Nat), (∀ u ∈ S, r ≤ u ∧ u < r + M) → S.card = x →
      (drawVectors M).countP (fun ds => (selectUnits x r ds).toFinset = S) = x ! * (M - x) !)
    (hS : ∀ u ∈ S, r ≤ u ∧ u < r + (M + 1)) (hcard : S.card = x) :
    (drawVectors M).countP (fun ds => (selectUnits x r (d :: ds)).toFinset = S) =
      if d < x then (if r ∈ S then (x - 1)! * (M + 1 - x)! else 0)
      else (if r ∈ S then 0 else x ! * (M - x)!) := by
  have hnot : ∀ x' ds, r ∉ selectUnits x' (r + 1) ds := fun _ _ h => by
    have := (mem_selectUnits h).1; omega
  simp only [selectUnits_cons hx]
  by_cases hd : d < x <;> by_cases hr : r ∈ S <;>
    simp only [hd, hr, if_true, if_false, List.singleton_append, List.nil_append,
      List.toFinset_cons]
  · have hcongr : ∀ ds ∈ drawVectors M,
        decide (insert r (selectUnits (x - 1) (r + 1) ds).toFinset = S) = true ↔
          decide ((selectUnits (x - 1) (r + 1) ds).toFinset = S.erase r) = true := fun ds _ => by
      simpa using insert_eq_iff_eq_erase (by simpa using hnot (x - 1) ds) hr
    rw [List.countP_congr hcongr, ih (x - 1) (r + 1) (S.erase r) (fun u hu => ?_) (by simp [hr, hcard]),
      show M - (x - 1) = M + 1 - x by omega]
    have := Finset.ne_of_mem_erase hu; have := hS u (Finset.mem_of_mem_erase hu); omega
  · refine List.countP_eq_zero.mpr fun ds _ h => hr ?_
    simp only [decide_eq_true_eq] at h
    exact h ▸ Finset.mem_insert_self r _
  · refine List.countP_eq_zero.mpr fun ds _ h => hnot x ds ?_
    simp only [decide_eq_true_eq] at h
    rw [← h] at hr
    exact List.mem_toFinset.mp hr
  · exact ih x (r + 1) S (fun u hu => by
      have := hS u hu; have : u ≠ r := fun h => hr (h ▸ hu); omega) hcard

/-- **The counting step.** Of the draw vectors for the `M` reads from `r` on, with `x` to take,
every `x`-set `S` of those reads is taken by exactly `x! (M - x)!`. -/
theorem countP_selectUnits : ∀ (M x r : Nat) (S : Finset Nat), (∀ u ∈ S, r ≤ u ∧ u < r + M) →
    S.card = x →
      (drawVectors M).countP (fun ds => (selectUnits x r ds).toFinset = S) = x ! * (M - x) !
  | 0, x, r, S, hS, hcard => by
    have hS0 : S = ∅ := Finset.eq_empty_of_forall_not_mem fun u hu => by
      have := hS u hu; omega
    subst hS0
    subst hcard
    simp [drawVectors]
  | M + 1, x, r, S, hS, hcard => by
    simp only [drawVectors, List.flatMap_def, List.countP_flatten, List.map_map,
      Function.comp_def, List.countP_map]
    rcases Nat.eq_zero_or_pos x with rfl | hx
    · have hS0 : S = ∅ := Finset.card_eq_zero.mp hcard
      subst hS0
      simp [length_drawVectors, List.map_const', List.sum_const_nat, Nat.factorial_succ]
    · simp only [countP_first_draw hx (countP_selectUnits M) hS hcard]
      have hle := card_le_of_subset_window hS
      by_cases hr : r ∈ S
      · simp only [hr, if_true, sum_range_ite_lt, Nat.min_eq_left (hcard ▸ hle), mul_zero,
          add_zero, ← mul_assoc, Nat.mul_factorial_pred hx]
      · have hle' : x ≤ M := hcard ▸ card_le_of_subset_window (r := r + 1) fun u hu => by
          have := hS u hu; have : u ≠ r := fun h => hr (h ▸ hu); omega
        simp only [hr, if_false, sum_range_ite_lt, mul_zero, zero_add,
          show M + 1 - x = (M - x) + 1 by omega, Nat.factorial_succ]
        ring

/-- **Uniform selection.** Over the admissible draw vectors for `M` reads, listed once each by
`drawVectors M`, every set `S` of `n` reads below `M` is the set the loop takes for exactly
`n! (M - n)!` of them: under uniform draws each of the `C(M, n)` sets has probability
`1 / C(M, n)`. -/
theorem uniform_selection (M n : Nat) (S : Finset Nat) (hS : S ⊆ Finset.range M)
    (hcard : S.card = n) :
    (∀ ds, ds ∈ drawVectors M ↔ ds.length = M ∧ Admissible ds) ∧ (drawVectors M).Nodup ∧
    (drawVectors M).countP (fun ds => (selectUnits n 0 ds).toFinset = S) = n ! * (M - n)! ∧
    ((drawVectors M).countP (fun ds => (selectUnits n 0 ds).toFinset = S) : ℚ) /
      (drawVectors M).length = 1 / M.choose n := by
  have hcount := countP_selectUnits M n 0 S
    (fun u hu => ⟨Nat.zero_le u, by simpa using hS hu⟩) hcard
  have hle : n ≤ M := hcard ▸ by simpa using Finset.card_le_card hS
  refine ⟨fun _ => mem_drawVectors, nodup_drawVectors M, hcount, ?_⟩
  have hM : ((M ! : ℕ) : ℚ) = (M.choose n : ℚ) * ((n ! * (M - n)! : ℕ) : ℚ) := by
    rw [← Nat.choose_mul_factorial_mul_factorial hle]; push_cast; ring
  have h1 : ((n ! * (M - n)! : ℕ) : ℚ) ≠ 0 := by positivity
  rw [hcount, length_drawVectors, hM, div_mul_cancel_right₀ h1, one_div]

/-- Three reads, two to take: the set `{0, 2}` is taken by `2! 1! = 2` of the `3! = 6` draw
vectors. -/
theorem uniform_selection_three :
    (drawVectors 3).countP (fun ds => (selectUnits 2 0 ds).toFinset = {0, 2}) = 2 :=
  (uniform_selection 3 2 {0, 2} (by decide) (by decide)).2.2.1

end Vsearch.Subsample
