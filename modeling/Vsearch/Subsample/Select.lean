import Vsearch.Subsample.Loop

/-!
# Sequential selection: the reads the loop takes

The `x`/`r` half of the loop of `subsample` (`src/src/subsample.cc:190-211`) is the sequential
method of the spec (4.2): read `r` is taken when its draw `random` is below `x`, the number of
reads still to take, and the loop stops once `x = 0`. `selectUnits x r ds` lists the reads it
takes from read `r` on, with draws `ds`; it reads no weight, so the choice of reads does not
depend on how they are grouped into amplicons.

Results:
* `length_selectUnits`: with admissible draws and `x` at most the reads left, exactly `x` reads
  are taken.
* `selectUnits_sublist`: the reads taken are distinct, in increasing order, from
  `[r, r + |ds|)`.
* `selectUnits_all`: when `x` equals the reads left every read is taken.
-/

namespace Vsearch.Subsample

/-- The reads taken from read `r` on, with `x` still to take and draws `ds`: `random < x`. -/
def selectUnits : Nat → Nat → List Nat → List Nat
  | _, _, [] => []
  | x, r, d :: ds =>
    if 0 < x then
      if d < x then r :: selectUnits (x - 1) (r + 1) ds else selectUnits x (r + 1) ds
    else []

@[simp] theorem selectUnits_nil (x r : Nat) : selectUnits x r [] = [] := rfl

@[simp] theorem selectUnits_zero (r : Nat) (ds : List Nat) : selectUnits 0 r ds = [] := by
  cases ds <;> rfl

/-- One pass of the loop, read as the reads it takes. -/
theorem selectUnits_cons {x : Nat} (hx : 0 < x) (r d : Nat) (ds : List Nat) :
    selectUnits x r (d :: ds) =
      (if d < x then [r] else []) ++ selectUnits (if d < x then x - 1 else x) (r + 1) ds := by
  simp only [selectUnits, if_pos hx]
  split <;> rfl

theorem length_selectUnits :
    ∀ {x : Nat} (r : Nat) {ds : List Nat}, Admissible ds → x ≤ ds.length →
      (selectUnits x r ds).length = x
  | x, _, [], _, hx => by simp at hx; simp [hx]
  | x, r, d :: ds, ⟨hd, hds⟩, hx => by
    rcases Nat.eq_zero_or_pos x with rfl | hpos
    · simp
    · simp only [List.length_cons] at hx
      rw [selectUnits_cons hpos]
      split
      · rw [List.length_append, length_selectUnits (r + 1) hds (by omega)]; simp; omega
      · simpa using length_selectUnits (r + 1) hds (by omega)

theorem selectUnits_sublist :
    ∀ (x r : Nat) (ds : List Nat), List.Sublist (selectUnits x r ds) (List.range' r ds.length)
  | _, _, [] => .slnil
  | x, r, d :: ds => by
    rw [List.length_cons, List.range'_succ]
    unfold selectUnits
    split
    · split
      · exact (selectUnits_sublist _ _ ds).cons₂ r
      · exact (selectUnits_sublist _ _ ds).cons r
    · exact List.nil_sublist _

theorem mem_selectUnits {x r u : Nat} {ds : List Nat} (h : u ∈ selectUnits x r ds) :
    r ≤ u ∧ u < r + ds.length := by
  simpa using (selectUnits_sublist x r ds).subset h

theorem selectUnits_all :
    ∀ (r : Nat) {ds : List Nat}, Admissible ds →
      selectUnits ds.length r ds = List.range' r ds.length
  | _, [], _ => rfl
  | r, d :: ds, ⟨hd, hds⟩ => by
    rw [List.length_cons, selectUnits_cons (by omega), List.range'_succ]
    simp only [if_pos hd, Nat.add_sub_cancel, List.singleton_append, selectUnits_all (r + 1) hds]

end Vsearch.Subsample
