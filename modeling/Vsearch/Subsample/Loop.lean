import Mathlib

/-!
# The sampling loop of `subsample`

Model of the selection pass of `subsample()` (`src/src/subsample.cc:135-211`): the total mass,
the cursor `(a, m, mass)` over the amplicons, and the `while (x > 0)` loop that draws one
random number per read it examines.

* The amplicons are the `k` database sequences and `ab` lists their abundances
  (`db_getabundance`). With `--sizein` amplicon `i` weighs `ab[i]`, without it every amplicon
  weighs 1 (`weights`); `massTotal` is `mass_total`.
* `db_getabundance(a)` is read as `ab[a]?`. The C++ indexes `seqindex` without a bound check;
  the model keeps the `none` of a read past the table in `Loop.mass`. `dbMass` is the
  expression `opt_sizein ? db_getabundance(a) : 1`. Where an unreadable `mass` would be
  compared (`m >= mass`) the model moves to the next amplicon; no pass with `x > 0` gets there
  (`Cursor.lean`).
* `random_ulong(mass_total - r)` is scripted: the draws are a list, one consumed per pass, and
  `Admissible` says each is below its bound.
* The `int` entries of `std::vector<int> abundance` are kept as counts; `Width.lean` reads
  them back as the 32-bit values the C++ stores.

`Pass` is one iteration of the loop. `run` runs it over a draw list and stops at a state
`Pass` reaches (`run_reaches`) where the loop test fails or the draws are used up
(`run_halts`).
-/

namespace Vsearch.Subsample

/-- The amplicon weights: the abundances with `--sizein`, 1 each without. -/
def weights (sizein : Bool) (ab : List Nat) : List Nat :=
  if sizein then ab else ab.map fun _ => 1

/-- `mass_total`: `dbsequencecount` without `--sizein`, the summed abundances with it. -/
def massTotal (sizein : Bool) (ab : List Nat) : Nat :=
  if sizein then ab.sum else ab.length

/-- `opt_sizein ? db_getabundance(a) : 1`, the table read as `ab[a]?`. -/
def dbMass (sizein : Bool) (ab : List Nat) (a : Nat) : Option Nat :=
  if sizein then ab[a]? else some 1

@[simp] theorem length_weights (sizein : Bool) (ab : List Nat) :
    (weights sizein ab).length = ab.length := by
  cases sizein <;> simp [weights]

theorem massTotal_eq_sum (sizein : Bool) (ab : List Nat) :
    massTotal sizein ab = (weights sizein ab).sum := by
  cases sizein <;> simp [massTotal, weights, List.sum_const_nat]

/-- Inside the table `dbMass` reads the amplicon's weight. -/
theorem dbMass_of_lt {sizein : Bool} {ab : List Nat} {a : Nat} (h : a < ab.length) :
    dbMass sizein ab a = (weights sizein ab)[a]? := by
  cases sizein <;> simp [dbMass, weights, h]

/-- The loop variables of the selection pass and the `abundance` vector. -/
structure Loop where
  /-- `x`: number of reads left to select. -/
  x : Nat
  /-- `a`: amplicon number. -/
  a : Nat
  /-- `r`: read being checked. -/
  r : Nat
  /-- `m`: mass of the current amplicon passed so far. -/
  m : Nat
  /-- `mass`: mass of the current amplicon, `none` after a read past the table. -/
  mass : Option Nat
  /-- `abundance`: reads selected per amplicon. -/
  abundance : List Nat
  deriving DecidableEq, Repr

/-- The state the loop starts in (`subsample.cc:162`, `180-186`). -/
def init (look : Nat → Option Nat) (k n : Nat) : Loop :=
  ⟨n, 0, 0, 0, look 0, List.replicate k 0⟩

/-- `abundance[a]++; --x;`: read `r` is selected for amplicon `a`. -/
def Loop.select (s : Loop) : Loop :=
  { s with abundance := s.abundance.modify (· + 1) s.a, x := s.x - 1 }

/-- `++r; ++m; if (m >= mass) { ++a; mass = ...; m = 0; }`. -/
def Loop.advance (look : Nat → Option Nat) (s : Loop) : Loop :=
  if s.mass.all (· ≤ s.m + 1) then
    { s with r := s.r + 1, a := s.a + 1, mass := look (s.a + 1), m := 0 }
  else { s with r := s.r + 1, m := s.m + 1 }

/-- The body of `while (x > 0)` once `random_ulong` has returned `random`. -/
def step (look : Nat → Option Nat) (s : Loop) (random : Nat) : Loop :=
  (if random < s.x then s.select else s).advance look

/-- The loop over a scripted draw list, one draw per pass: the state it stops in and the
draws it left. -/
def run (look : Nat → Option Nat) : Loop → List Nat → Loop × List Nat
  | s, [] => (s, [])
  | s, d :: ds => if 0 < s.x then run look (step look s d) ds else (s, d :: ds)

/-- The state `subsample` enters its loop in, with `n` reads to take. -/
def loopStart (sizein : Bool) (ab : List Nat) (n : Nat) : Loop :=
  init (dbMass sizein ab) ab.length n

/-- The loop of `subsample` over the scripted draws `ds`. -/
def selection (sizein : Bool) (ab : List Nat) (n : Nat) (ds : List Nat) : Loop × List Nat :=
  run (dbMass sizein ab) (loopStart sizein ab n) ds

/-- One pass of `while (x > 0)`, consuming the draw at the head of the list. -/
inductive Pass (look : Nat → Option Nat) : Loop × List Nat → Loop × List Nat → Prop
  | mk {s : Loop} {d : Nat} {ds : List Nat} : 0 < s.x → Pass look (s, d :: ds) (step look s d, ds)

/-- Each draw below its bound: with `ds` the `mass_total - r` draws still to come, the head is
below `mass_total - r`. -/
def Admissible : List Nat → Prop
  | [] => True
  | d :: ds => d < ds.length + 1 ∧ Admissible ds

instance decAdmissible : (ds : List Nat) → Decidable (Admissible ds)
  | [] => isTrue trivial
  | _ :: ds => @instDecidableAnd _ _ _ (decAdmissible ds)

/-! ## One pass -/

section Step

variable (look : Nat → Option Nat) (s : Loop)

@[simp] theorem select_x : s.select.x = s.x - 1 := rfl
@[simp] theorem select_r : s.select.r = s.r := rfl
@[simp] theorem select_a : s.select.a = s.a := rfl
@[simp] theorem select_m : s.select.m = s.m := rfl
@[simp] theorem select_mass : s.select.mass = s.mass := rfl
@[simp] theorem select_abundance :
    s.select.abundance = s.abundance.modify (· + 1) s.a := rfl

@[simp] theorem advance_x : (s.advance look).x = s.x := by
  unfold Loop.advance; split <;> rfl
@[simp] theorem advance_r : (s.advance look).r = s.r + 1 := by
  unfold Loop.advance; split <;> rfl
@[simp] theorem advance_abundance : (s.advance look).abundance = s.abundance := by
  unfold Loop.advance; split <;> rfl

/-- The cursor moves to the next amplicon exactly when `m + 1` reaches `mass`. -/
theorem advance_cursor :
    (s.mass.all (· ≤ s.m + 1) = true ∧ (s.advance look).a = s.a + 1 ∧
      (s.advance look).m = 0 ∧ (s.advance look).mass = look (s.a + 1)) ∨
    (s.mass.all (· ≤ s.m + 1) = false ∧ (s.advance look).a = s.a ∧
      (s.advance look).m = s.m + 1 ∧ (s.advance look).mass = s.mass) := by
  unfold Loop.advance
  split <;> simp_all

@[simp] theorem step_r (d : Nat) : (step look s d).r = s.r + 1 := by
  unfold step; split <;> simp

theorem step_x (d : Nat) : (step look s d).x = if d < s.x then s.x - 1 else s.x := by
  unfold step; split <;> simp

theorem step_abundance (d : Nat) :
    (step look s d).abundance = if d < s.x then s.abundance.modify (· + 1) s.a else s.abundance := by
  unfold step; split <;> simp

end Step

/-! ## Whole runs -/

theorem run_reaches (look : Nat → Option Nat) :
    ∀ (s : Loop) (ds : List Nat), Relation.ReflTransGen (Pass look) (s, ds) (run look s ds)
  | s, [] => .refl
  | s, d :: ds => by
    unfold run
    split
    · exact .head (Pass.mk ‹_›) (run_reaches look _ ds)
    · exact .refl

/-- The loop stops because `x = 0` or because the script has no draw left. -/
theorem run_halts (look : Nat → Option Nat) :
    ∀ (s : Loop) (ds : List Nat), (run look s ds).1.x = 0 ∨ (run look s ds).2 = []
  | s, [] => .inr rfl
  | s, d :: ds => by
    unfold run
    split
    · exact run_halts look _ ds
    · exact .inl (Nat.eq_zero_of_not_pos ‹_›)

end Vsearch.Subsample
