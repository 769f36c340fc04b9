import Vsearch.Subsample.Groups

/-!
# The invariant of the sampling loop

The loop of `subsample` (`src/src/subsample.cc:180-211`) keeps its cursor `(a, m, mass)` and
its counters in step with the read `r` it examines. `Inv` states that relation against the
draws still to come:

* `Cursor`: `r` is `m` passes into amplicon `a`'s run of `occ w` (the cursor spends
  `max w_a 1` passes on amplicon `a`), with `mass` read for `a`;
* `left`, `reads`: at most `x` selections remain among the `mass_total - r` reads left, which
  are the draws still to come;
* `taken`: `abundance` tallies, per run of `occ w`, the reads selected so far, and they and the
  reads `selectUnits` takes from the draws to come make up the reads of the whole run.

`look` is the mass lookup; `hlook` says it reads the weights inside the table, which
`dbMass_of_lt` gives for both modes of `subsample`.

Results:
* `Inv.pass` (step) and `Inv.reaches` (run): every pass keeps `Inv`, so every state the loop
  reaches satisfies it.
* `Inv.bounds`: a reached state with `x > 0` has `x ≤ mass_total - r`, `r < mass_total` and
  `a` inside the `abundance` vector.
* **`run_tally`**: the loop stops with `x = 0`, its `abundance` the tally over the runs of
  `occ w` of the reads `selectUnits` takes. The loop refines sequential selection; the cursor
  only decides which entry each selected read is charged to.
-/

namespace Vsearch.Subsample

/-- Where the cursor stands after `r` passes: `m` passes into amplicon `a`'s run of `occ w`,
short of its end inside the table and at `m = 0` just past it, with `mass` read for `a`. -/
structure Cursor (w : List Nat) (look : Nat → Option Nat) (s : Loop) : Prop where
  at_read : start (occ w) s.a + s.m = s.r
  inside : s.a < w.length → s.r < start (occ w) (s.a + 1)
  past : w.length ≤ s.a → s.a = w.length ∧ s.m = 0
  mass : s.mass = look s.a

/-- The invariant of the loop over its remaining draws `p.2`, for `M = mass_total` and the
reads `picks` the whole run takes. -/
structure Inv (M : Nat) (w : List Nat) (look : Nat → Option Nat) (picks : List Nat)
    (p : Loop × List Nat) : Prop where
  cursor : Cursor w look p.1
  left : p.1.x ≤ p.2.length
  reads : p.1.r + p.2.length = M
  admissible : Admissible p.2
  taken : ∃ P, p.1.abundance = tally (occ w) P ∧ P ++ selectUnits p.1.x p.1.r p.2 = picks

section Invariant

variable {M : Nat} {w : List Nat} {look : Nat → Option Nat} {picks : List Nat}

theorem start_occ_lt {i : Nat} (h : i < w.length) : start (occ w) i < start (occ w) (i + 1) := by
  rw [start_succ (v := max w[i] 1) (by simp [occ, h])]
  omega

/-- Short of `mass_total`, the cursor is inside the table. -/
theorem Cursor.a_lt {s : Loop} (hc : Cursor w look s) (hr : s.r < (occ w).sum) :
    s.a < w.length := by
  by_contra hk
  obtain ⟨ha, hm⟩ := hc.past (by omega)
  have := hc.at_read
  rw [ha, hm, ← length_occ, start_length] at this
  omega

/-- The amplicon the cursor stands on owns read `r` in the layout `occ w`. -/
theorem Cursor.groupOf_r {s : Loop} (hc : Cursor w look s) (ha : s.a < w.length) :
    groupOf (occ w) s.r = s.a :=
  groupOf_eq (by have := hc.at_read; omega) (hc.inside ha)

theorem Cursor.advance (hlook : ∀ a < w.length, look a = w[a]?) {s : Loop}
    (hc : Cursor w look s) (hr : s.r < (occ w).sum) : Cursor w look (s.advance look) := by
  have ha := hc.a_lt hr
  have hv : w[s.a]? = some w[s.a] := List.getElem?_eq_getElem ha
  have hmass : s.mass = some w[s.a] := by rw [hc.mass, hlook _ ha, hv]
  have hend : start (occ w) (s.a + 1) = start (occ w) s.a + max w[s.a] 1 :=
    start_succ (by simp [getElem?_occ, hv])
  have h1 := hc.at_read
  have h2 := hc.inside ha
  rcases advance_cursor look s with ⟨hfull, ha', hm', hmass'⟩ | ⟨hfull, ha', hm', hmass'⟩
  · simp only [hmass, Option.all_some, decide_eq_true_eq] at hfull
    refine ⟨?_, fun h => ?_, fun h => ?_, ?_⟩
    · rw [ha', hm', advance_r, hend]; omega
    · rw [ha', advance_r] at *
      have := start_occ_lt h
      omega
    · rw [ha'] at h ⊢; exact ⟨by omega, hm'⟩
    · rw [ha', hmass']
  · simp only [hmass, Option.all_some, decide_eq_false_iff_not] at hfull
    refine ⟨?_, fun _ => ?_, fun h => ?_, ?_⟩
    · rw [ha', hm', advance_r]; omega
    · rw [ha', advance_r, hend]; omega
    · rw [ha'] at h; omega
    · rw [ha', hmass', hc.mass]

theorem Inv.pass (hlook : ∀ a < w.length, look a = w[a]?) (hM : M ≤ w.sum)
    {p q : Loop × List Nat} (hi : Inv M w look picks p) (hp : Pass look p q) :
    Inv M w look picks q := by
  cases hp with | @mk s d ds hx => ?_
  obtain ⟨hc, hleft, hreads, ⟨hd, hadm⟩, P, hab, hP⟩ := hi
  simp only [List.length_cons] at hleft hreads hd
  have hr : s.r < (occ w).sum := by have := sum_le_sum_occ w; omega
  have hsel : Cursor w look (if d < s.x then s.select else s) := by
    split
    · exact ⟨hc.at_read, hc.inside, hc.past, hc.mass⟩
    · exact hc
  refine ⟨?_, ?_, by simp; omega, hadm, if d < s.x then P ++ [s.r] else P, ?_, ?_⟩
  · have := hsel.advance hlook (by split <;> simpa using hr)
    exact this
  · simp only [step_x]; split <;> omega
  · rw [step_abundance, hab]
    split
    · rw [tally_append_single, hc.groupOf_r (hc.a_lt hr)]
    · rfl
  · rw [← hP, selectUnits_cons hx, step_x, step_r]
    split <;> simp

theorem Inv.reaches (hlook : ∀ a < w.length, look a = w[a]?) (hM : M ≤ w.sum)
    {p q : Loop × List Nat} (hi : Inv M w look picks p)
    (h : Relation.ReflTransGen (Pass look) p q) : Inv M w look picks q := by
  induction h with
  | refl => exact hi
  | tail _ hp ih => exact ih.pass hlook hM hp

theorem Inv.initial {n : Nat} {ds : List Nat} (hn : n ≤ ds.length) (hadm : Admissible ds) :
    Inv ds.length w look (selectUnits n 0 ds) (init look w.length n, ds) := by
  refine ⟨⟨by simp [init], fun h => ?_, fun h => ⟨?_, rfl⟩, rfl⟩, hn, by simp [init], hadm, [], ?_,
    rfl⟩
  · simpa [init] using start_occ_lt h
  · simp only [init] at h ⊢; omega
  · simp [init, tally_nil]

/-- A reached state with `x > 0`: the draw's bound `mass_total - r` is at least `x ≥ 1`, `r`
is below `mass_total`, and `abundance[a]` is inside the vector. -/
theorem Inv.bounds (hM : M ≤ w.sum) {t : Loop} {es : List Nat}
    (hi : Inv M w look picks (t, es)) (hx : 0 < t.x) :
    t.x ≤ M - t.r ∧ t.r < M ∧ t.a < t.abundance.length := by
  have hl : t.x ≤ es.length := hi.left
  have hr : t.r + es.length = M := hi.reads
  obtain ⟨P, hab, -⟩ := hi.taken
  have := sum_le_sum_occ w
  refine ⟨by omega, by omega, ?_⟩
  rw [hab, length_tally, length_occ]
  exact hi.cursor.a_lt (show t.r < (occ w).sum by omega)

end Invariant

/-- **The loop refines sequential selection.** From its initial state, over admissible draws
for at most `w.sum` reads, the loop stops with `x = 0` and `abundance` tallying, per run of
`occ w`, the reads `selectUnits` takes. -/
theorem run_tally {w : List Nat} {look : Nat → Option Nat}
    (hlook : ∀ a < w.length, look a = w[a]?) {n : Nat} {ds : List Nat}
    (hM : ds.length ≤ w.sum) (hn : n ≤ ds.length) (hadm : Admissible ds) :
    (run look (init look w.length n) ds).1.x = 0 ∧
      (run look (init look w.length n) ds).1.abundance = tally (occ w) (selectUnits n 0 ds) := by
  have hi0 : Inv ds.length w look (selectUnits n 0 ds) (init look w.length n, ds) :=
    Inv.initial hn hadm
  have hi := hi0.reaches hlook hM (run_reaches look _ ds)
  have hx : (run look (init look w.length n) ds).1.x = 0 := by
    rcases run_halts look (init look w.length n) ds with h | h
    · exact h
    · have := hi.left; rw [h] at this; simpa using this
  obtain ⟨P, hab, hP⟩ := hi.taken
  rw [hx, selectUnits_zero, List.append_nil] at hP
  exact ⟨hx, hP ▸ hab⟩

end Vsearch.Subsample
