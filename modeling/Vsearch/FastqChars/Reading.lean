import Vsearch.FastqChars.Tail

/-!
# `fastq_chars`: the reading loop and the quality range

Model of the reading loop of `fastq_chars` (`src/src/fastq_chars.cc:94-163`) and of the two
scans for the quality range (`fastq_chars.cc:168-189`).

* A byte is a `Nat`. `Record` is a read as `fastq_next(h, false, chrmap_upcase)` leaves it: the
  sequence upper-cased, the quality as long as the sequence, every byte in `1..127`, so that the
  `int` values `pc` and `qc` index the tables inside `[0, 256)`.
* The tables are functions on bytes; `bump f c` is `f[c]++`.
* `run` and `maxrun` are `int`s counting repeats inside one read, taken as exact (a read shorter
  than `2^31` bytes); `qmin_n` and `qmax_n` hold bytes.
* `outside i` is the memory around the quality string of the read numbered `i`, which the tail
  scan may read (`Tail.lean`).

Out of scope here: the progress bar and the printing (`Summary.lean` models the report).

Results:
* `Scanned.position` (step) and `Scanned.positions` (run): the inner loop over the bases of one
  read counts them, keeps the range of qualities at `N`, and tracks the current run so that
  `maxrun` gains the longest run of the read, less one.
* `Counted.read` (step) and `counted_readLoop` (run): after any number of records the tables
  are the histograms of all bases and qualities, `total_chars` the total length, `maxrun` the
  maximum of the per-read longest runs less one.
* `Counted.qminScan`, `Counted.qmaxScan` and **`reading_loop`**: the histograms sum to
  `total_chars`, the range at `N` and the two scans give the least and greatest qualities.
* `tail_chars_foldl` (run) and **`tail_chars_count`**: for `T ≥ 1` the tail table counts the
  reads whose last `T` qualities are one byte, whatever memory lies around them.
-/

namespace Vsearch.FastqChars

/-- A FASTQ record as `fastq_next(h, false, chrmap_upcase)` leaves it: no lower-case letter in
the sequence, the quality as long as the sequence, bytes in `1..127`. -/
structure Record where
  sequence : List Nat
  quality : List Nat
  quality_length : quality.length = sequence.length
  sequence_bytes : ∀ c ∈ sequence, 0 < c ∧ c < 128
  quality_bytes : ∀ c ∈ quality, 0 < c ∧ c < 128
  upcased : ∀ c ∈ sequence, c < 97 ∨ 122 < c

/-- `f[c]++`. -/
def bump (f : Nat → Nat) (c : Nat) : Nat → Nat := Function.update f c (f c + 1)

/-- The variables of the reading loop: the tables, `total_chars`, `seq_count`, `qmin_n`,
`qmax_n`, and the run tracker `run_char`, `run` of the current read. -/
structure State where
  sequence_chars : Nat → Nat
  quality_chars : Nat → Nat
  tail_chars : Nat → Nat
  total_chars : Nat
  maxrun : Nat → Nat
  seq_count : Nat
  qmin_n : Nat
  qmax_n : Nat
  run_char : Int
  run : Nat

/-- The variables before the loop (`fastq_chars.cc:69-92`). -/
def State.init : State := ⟨fun _ => 0, fun _ => 0, fun _ => 0, 0, fun _ => 0, 0, 255, 0, -1, 0⟩

/-- The range of qualities at `N` (`fastq_chars.cc:116-123`). -/
def State.rangeN (s : State) (qc : Nat) : State :=
  { s with qmin_n := if qc < s.qmin_n then qc else s.qmin_n,
           qmax_n := if qc > s.qmax_n then qc else s.qmax_n }

/-- The run tracker (`fastq_chars.cc:126-138`). In the branch `pc == run_char`,
`maxrun[run_char]` is `maxrun[pc]`. -/
def State.track (s : State) (pc : Nat) : State :=
  if (pc : Int) = s.run_char then
    { s with run := s.run + 1,
             maxrun := if s.run + 1 > s.maxrun pc then Function.update s.maxrun pc (s.run + 1)
               else s.maxrun }
  else { s with run_char := pc, run := 0 }

/-- One pass of the inner loop (`fastq_chars.cc:109-140`) on the base `pc` and the quality
`qc`. -/
def State.position (s : State) (pc qc : Nat) : State :=
  let s := { s with sequence_chars := bump s.sequence_chars pc,
                    quality_chars := bump s.quality_chars qc }
  let s := if pc = 78 ∨ pc = 110 then s.rangeN qc else s
  s.track pc

/-- The start of a pass on the record `r` (`fastq_chars.cc:96-104`): `seq_count++`,
`total_chars += len`, and the run tracker reset. -/
def State.begin (s : State) (r : Record) : State :=
  { s with seq_count := s.seq_count + 1, total_chars := s.total_chars + r.sequence.length,
           run_char := -1, run := 0 }

/-- One pass of the reading loop (`fastq_chars.cc:96-162`) on the record `r`, `outside` the
memory around its quality string. -/
def State.read (T : Nat) (outside : Int → Nat) (s : State) (r : Record) : State :=
  let s := (r.sequence.zip r.quality).foldl (fun s x => s.position x.1 x.2) (s.begin r)
  match (tailScan T r.quality outside).1 with
  | some c => { s with tail_chars := bump s.tail_chars c }
  | none => s

/-- The reading loop over the records `rs`, with `T = opt_fastq_tail`. -/
def readLoop (T : Nat) (outside : Nat → Int → Nat) (rs : List Record) : State :=
  rs.foldl (fun s r => s.read T (outside s.seq_count) r) State.init

/-- The scan for `qmin` (`fastq_chars.cc:172-179`): the first byte counted, 0 if none. -/
def qminScan (quality_chars : Nat → Nat) : Int :=
  toChar (((List.range 256).find? fun c => quality_chars c != 0).getD 0)

/-- The scan for `qmax` (`fastq_chars.cc:182-189`): the last byte counted, 0 if none. -/
def qmaxScan (quality_chars : Nat → Nat) : Int :=
  toChar (((List.range 256).reverse.find? fun c => quality_chars c != 0).getD 0)

/-! ## Runs and the bytes at `N` -/

/-- The length of the block of `c`s that ends `u`. -/
def trailOf (c : Nat) (u : List Nat) : Nat := (u.reverse.takeWhile (· == c)).length

/-- The length of the longest block of consecutive `c`s in `u`. -/
def longestRun (c : Nat) (u : List Nat) : Nat := (u.inits.map (trailOf c)).foldl max 0

/-- The qualities at the positions whose base is `N`, over all records. -/
def nQualities (rs : List Record) : List Nat :=
  rs.flatMap fun r => ((r.sequence.zip r.quality).filter (·.1 == 78)).map (·.2)

@[simp] theorem bump_apply (f : Nat → Nat) (c d : Nat) :
    bump f c d = if d = c then f d + 1 else f d := by
  simp only [bump, Function.update_apply]
  split_ifs with h <;> simp [h]

theorem trailOf_snoc (c : Nat) (u : List Nat) (x : Nat) :
    trailOf c (u ++ [x]) = if x = c then trailOf c u + 1 else 0 := by
  by_cases h : x = c <;> simp [trailOf, h]

@[simp] theorem longestRun_nil (c : Nat) : longestRun c [] = 0 := rfl

theorem longestRun_snoc (c : Nat) (u : List Nat) (x : Nat) :
    longestRun c (u ++ [x]) = max (longestRun c u) (trailOf c (u ++ [x])) := by
  simp [longestRun, List.inits_append]

theorem trailOf_of_getLast?_ne {c : Nat} {u : List Nat} (h : u.getLast? ≠ some c) :
    trailOf c u = 0 := by
  rcases List.eq_nil_or_concat u with rfl | ⟨v, y, rfl⟩
  · rfl
  · rw [List.concat_eq_append] at h ⊢
    rw [trailOf_snoc, if_neg (by simpa using h)]

/-! ## One read: the inner loop -/

section Position

variable (s : State) (pc qc : Nat)

theorem track_eq : s.track pc =
    { s with run_char := pc,
             run := if (pc : Int) = s.run_char then s.run + 1 else 0,
             maxrun := if (pc : Int) = s.run_char then
                 Function.update s.maxrun pc (max (s.maxrun pc) (s.run + 1)) else s.maxrun } := by
  unfold State.track
  by_cases h : (pc : Int) = s.run_char
  · have hm : (if s.run + 1 > s.maxrun pc then Function.update s.maxrun pc (s.run + 1)
        else s.maxrun) = Function.update s.maxrun pc (max (s.maxrun pc) (s.run + 1)) := by
      split_ifs
      · rw [max_eq_right (by omega)]
      · rw [max_eq_left (by omega), Function.update_eq_self]
    rw [if_pos h, if_pos h, if_pos h, hm, h]
  · simp only [if_neg h]

/-- What one pass of the inner loop does to each variable. -/
theorem position_eq : s.position pc qc =
    { s with sequence_chars := bump s.sequence_chars pc,
             quality_chars := bump s.quality_chars qc,
             qmin_n := if pc = 78 ∨ pc = 110 then min s.qmin_n qc else s.qmin_n,
             qmax_n := if pc = 78 ∨ pc = 110 then max s.qmax_n qc else s.qmax_n,
             run_char := pc,
             run := if (pc : Int) = s.run_char then s.run + 1 else 0,
             maxrun := if (pc : Int) = s.run_char then
                 Function.update s.maxrun pc (max (s.maxrun pc) (s.run + 1)) else s.maxrun } := by
  simp only [State.position, track_eq]
  by_cases hN : pc = 78 ∨ pc = 110
  · simp only [if_pos hN, State.rangeN, State.mk.injEq, true_and, and_true]
    constructor <;> split <;> omega
  · simp only [if_neg hN]

end Position

theorem bump_count {f g : Nat → Nat} {u : List Nat} (h : ∀ c, f c = g c + u.count c)
    (x c : Nat) :
    bump f x c = g c + (u ++ [x]).count c := by
  rw [bump_apply, h, List.count_append, List.count_singleton]
  by_cases hc : c = x
  · subst hc; simp; omega
  · simp [hc, Ne.symm hc]

theorem getD_cast_eq_iff (o : Option Nat) (n : Nat) :
    (o.map fun x : Nat => (x : Int)).getD (-1) = n ↔ o = some n := by
  cases o <;> simp

/-- The inner loop after the positions `ps` (base, quality) of a read begun in the state `s₀`. -/
structure Scanned (s₀ : State) (ps : List (Nat × Nat)) (s : State) : Prop where
  sequence_chars : ∀ c, s.sequence_chars c = s₀.sequence_chars c + (ps.map Prod.fst).count c
  quality_chars : ∀ c, s.quality_chars c = s₀.quality_chars c + (ps.map Prod.snd).count c
  qmin_n : s.qmin_n = ((ps.filter fun x => x.1 = 78 ∨ x.1 = 110).map Prod.snd).foldl min s₀.qmin_n
  qmax_n : s.qmax_n = ((ps.filter fun x => x.1 = 78 ∨ x.1 = 110).map Prod.snd).foldl max s₀.qmax_n
  maxrun : ∀ c, s.maxrun c = max (s₀.maxrun c) (longestRun c (ps.map Prod.fst) - 1)
  run_char : s.run_char = ((ps.map Prod.fst).getLast?.map fun x : Nat => (x : Int)).getD (-1)
  run : ∀ y, (ps.map Prod.fst).getLast? = some y → s.run + 1 = trailOf y (ps.map Prod.fst)
  frame : s.tail_chars = s₀.tail_chars ∧ s.total_chars = s₀.total_chars ∧ s.seq_count = s₀.seq_count

theorem Scanned.start {s₀ : State} (h : s₀.run_char = -1) : Scanned s₀ [] s₀ :=
  ⟨by simp, by simp, rfl, rfl, by simp, h, by simp, rfl, rfl, rfl⟩

/-- One pass of the inner loop keeps `Scanned`. -/
theorem Scanned.position {s₀ s : State} {ps : List (Nat × Nat)} (h : Scanned s₀ ps s)
    (pc qc : Nat) : Scanned s₀ (ps ++ [(pc, qc)]) (s.position pc qc) := by
  have hlast : (pc : Int) = s.run_char ↔ (ps.map Prod.fst).getLast? = some pc := by
    rw [h.run_char, eq_comm, getD_cast_eq_iff]
  rw [position_eq]
  refine ⟨fun c => ?_, fun c => ?_, ?_, ?_, fun c => ?_, ?_, fun y hy => ?_, h.frame⟩
  · simpa using bump_count h.sequence_chars pc c
  · simpa using bump_count h.quality_chars qc c
  · by_cases hN : pc = 78 ∨ pc = 110 <;> simp [hN, h.qmin_n, List.filter_append]
  · by_cases hN : pc = 78 ∨ pc = 110 <;> simp [hN, h.qmax_n, List.filter_append]
  · have hsnoc : longestRun c ((ps ++ [(pc, qc)]).map Prod.fst) =
        max (longestRun c (ps.map Prod.fst))
          (if pc = c then trailOf c (ps.map Prod.fst) + 1 else 0) := by
      rw [List.map_append, List.map_singleton, longestRun_snoc, trailOf_snoc]
    dsimp only
    rw [hsnoc]
    by_cases hr : (pc : Int) = s.run_char
    · have hrun := h.run pc (hlast.mp hr)
      rw [if_pos hr]
      by_cases hc : c = pc
      · subst hc; rw [Function.update_same, h.maxrun, if_pos rfl]; omega
      · rw [Function.update_noteq hc, h.maxrun, if_neg (Ne.symm hc)]; omega
    · have h0 := trailOf_of_getLast?_ne (mt hlast.mpr hr)
      rw [if_neg hr, h.maxrun]
      by_cases hc : c = pc
      · subst hc; rw [if_pos rfl, h0]; omega
      · rw [if_neg (Ne.symm hc)]; omega
  · simp
  · simp only [List.map_append, List.map_singleton, List.getLast?_concat, Option.some.injEq] at hy
    subst hy
    dsimp only
    simp only [List.map_append, List.map_singleton, trailOf_snoc, ↓reduceIte]
    by_cases hr : (pc : Int) = s.run_char
    · rw [if_pos hr, h.run _ (hlast.mp hr)]
    · rw [if_neg hr, trailOf_of_getLast?_ne (mt hlast.mpr hr)]

/-- The inner loop over the positions `qs` keeps `Scanned`. -/
theorem Scanned.positions {s₀ : State} :
    ∀ (qs ps : List (Nat × Nat)) {s : State}, Scanned s₀ ps s →
      Scanned s₀ (ps ++ qs) (qs.foldl (fun s x => s.position x.1 x.2) s)
  | [], ps, s, h => by simpa using h
  | x :: qs, ps, s, h => by
    rw [List.foldl_cons, List.append_cons]
    exact Scanned.positions qs (ps ++ [x]) (h.position x.1 x.2)

/-! ## The reading loop -/

/-- A pass of the reading loop: the inner loop from the reset counters, then the tail count. -/
theorem read_eq (T : Nat) (outside : Int → Nat) (s : State) (r : Record) :
    ∃ tc, s.read T outside r = { (r.sequence.zip r.quality).foldl (fun s x => s.position x.1 x.2)
      (s.begin r) with tail_chars := tc } := by
  unfold State.read
  split <;> exact ⟨_, rfl⟩

theorem filter_N (r : Record) :
    (r.sequence.zip r.quality).filter (fun x => x.1 = 78 ∨ x.1 = 110) =
      (r.sequence.zip r.quality).filter (·.1 == 78) := by
  refine List.filter_congr fun x hx => ?_
  have := r.upcased x.1 (List.of_mem_zip hx).1
  have h110 : x.1 ≠ 110 := by omega
  by_cases h78 : x.1 = 78 <;> simp [h78, h110]

theorem nQualities_snoc (rs : List Record) (r : Record) :
    nQualities (rs ++ [r]) =
      nQualities rs ++ ((r.sequence.zip r.quality).filter (·.1 == 78)).map (·.2) := by
  simp [nQualities]

/-- The reading loop after the records `rs`. -/
structure Counted (rs : List Record) (s : State) : Prop where
  sequence_chars : ∀ c, s.sequence_chars c = (rs.flatMap Record.sequence).count c
  quality_chars : ∀ c, s.quality_chars c = (rs.flatMap Record.quality).count c
  total_chars : s.total_chars = (rs.map fun r => r.sequence.length).sum
  maxrun : ∀ c, s.maxrun c = (rs.map fun r => longestRun c r.sequence - 1).foldl max 0
  seq_count : s.seq_count = rs.length
  qmin_n : s.qmin_n = (nQualities rs).foldl min 255
  qmax_n : s.qmax_n = (nQualities rs).foldl max 0

theorem counted_init : Counted [] State.init :=
  ⟨fun _ => rfl, fun _ => rfl, rfl, fun _ => rfl, rfl, rfl, rfl⟩

/-- One pass of the reading loop keeps `Counted`. -/
theorem Counted.read {rs : List Record} {s : State} (h : Counted rs s) (T : Nat)
    (outside : Int → Nat) (r : Record) : Counted (rs ++ [r]) (s.read T outside r) := by
  obtain ⟨tc, he⟩ := read_eq T outside s r
  have hq := r.quality_length
  have hsc : Scanned (s.begin r) (r.sequence.zip r.quality)
      ((r.sequence.zip r.quality).foldl (fun s x => s.position x.1 x.2) (s.begin r)) :=
    Scanned.positions _ [] (Scanned.start rfl)
  have hfst : (r.sequence.zip r.quality).map Prod.fst = r.sequence :=
    List.map_fst_zip _ _ (by omega)
  have hsnd : (r.sequence.zip r.quality).map Prod.snd = r.quality :=
    List.map_snd_zip _ _ (by omega)
  obtain ⟨-, htotal, hcount⟩ := hsc.frame
  rw [he]
  refine ⟨fun c => ?_, fun c => ?_, ?_, fun c => ?_, ?_, ?_, ?_⟩
  all_goals dsimp only
  · rw [hsc.sequence_chars, hfst]; simp [State.begin, h.sequence_chars]
  · rw [hsc.quality_chars, hsnd]; simp [State.begin, h.quality_chars]
  · rw [htotal]; simp [State.begin, h.total_chars]
  · rw [hsc.maxrun, hfst]; simp [State.begin, h.maxrun]
  · rw [hcount]; simp [State.begin, h.seq_count]
  · rw [hsc.qmin_n, filter_N]; simp [State.begin, h.qmin_n, nQualities_snoc]
  · rw [hsc.qmax_n, filter_N]; simp [State.begin, h.qmax_n, nQualities_snoc]

theorem counted_foldl (T : Nat) (outside : Nat → Int → Nat) :
    ∀ (rs pre : List Record) (s : State), Counted pre s →
      Counted (pre ++ rs) (rs.foldl (fun s r => s.read T (outside s.seq_count) r) s)
  | [], pre, s, h => by simpa using h
  | r :: rs, pre, s, h => by
    rw [List.foldl_cons, List.append_cons]
    exact counted_foldl T outside rs _ _ (h.read T _ r)

/-- **The reading loop.** After any list of records the variables are their histograms, total
length, longest runs and range of qualities at `N`. -/
theorem counted_readLoop (T : Nat) (outside : Nat → Int → Nat) (rs : List Record) :
    Counted rs (readLoop T outside rs) :=
  counted_foldl T outside rs [] _ counted_init

/-! ## The quality range and the table sums -/

theorem sum_range_count {l : List Nat} {n : Nat} (h : ∀ c ∈ l, c < n) :
    ∑ c in Finset.range n, l.count c = l.length := by
  induction l with
  | nil => simp
  | cons x l ih =>
    rw [List.length_cons, ← ih fun c hc => h c (List.mem_cons_of_mem x hc)]
    simp only [List.count_cons, Finset.sum_add_distrib, beq_iff_eq, Finset.sum_ite_eq,
      Finset.mem_range, if_pos (h x (List.mem_cons_self x l))]

/-- Counting up from 0 finds the least byte present. -/
theorem find?_range_count {l : List Nat} (hl : ∀ c ∈ l, c < 256) :
    (List.range 256).find? (fun c => l.count c != 0) = l.min? := by
  rcases hmin : l.min? with _ | a
  · rw [List.min?_eq_none_iff] at hmin
    subst hmin
    simp
  · obtain ⟨ha, hle⟩ := List.min?_eq_some_iff'.mp hmin
    rw [List.find?_range_eq_some]
    refine ⟨by simpa [List.count_eq_zero] using ha, List.mem_range.mpr (hl a ha),
      fun j hj => ?_⟩
    have : j ∉ l := fun hj' => absurd (hle j hj') (by omega)
    simpa [List.count_eq_zero] using this

/-- Counting down from 255 finds the greatest byte present. -/
theorem find?_range_reverse_count {l : List Nat} (hl : ∀ c ∈ l, c < 256) :
    (List.range 256).reverse.find? (fun c => l.count c != 0) = l.max? := by
  rw [List.range_eq_range', List.reverse_range', List.find?_map]
  rcases hmax : l.max? with _ | a
  · rw [List.max?_eq_none_iff] at hmax
    subst hmax
    simp
  · obtain ⟨ha, hle⟩ := List.max?_eq_some_iff'.mp hmax
    have := hl a ha
    have hfind : (List.range 256).find? ((fun c => l.count c != 0) ∘ (0 + 256 - 1 - ·)) =
        some (255 - a) := by
      rw [List.find?_range_eq_some]
      refine ⟨?_, List.mem_range.mpr (by omega), fun j hj => ?_⟩
      · simpa [List.count_eq_zero, show 255 - (255 - a) = a by omega] using ha
      · have : 255 - j ∉ l := fun hj' => absurd (hle _ hj') (by omega)
        simpa [List.count_eq_zero] using this
    rw [hfind, Option.map_some']
    congr 1
    omega

theorem foldl_max_zero (l : List Nat) : l.foldl max 0 = l.max?.getD 0 := by
  cases l with
  | nil => rfl
  | cons x xs => rw [List.max?_cons', List.foldl_cons, Nat.zero_max]; rfl

theorem foldl_min_of_le {l : List Nat} {a : Nat} (h : ∀ x ∈ l, x ≤ a) :
    l.foldl min a = l.min?.getD a := by
  cases l with
  | nil => rfl
  | cons x xs =>
    rw [List.min?_cons', List.foldl_cons, min_eq_right (h x (List.mem_cons_self x xs))]; rfl

theorem getD_min?_lt {l : List Nat} {n : Nat} (hn : 0 < n) (h : ∀ c ∈ l, c < n) :
    l.min?.getD 0 < n := by
  rcases hm : l.min? with _ | a
  · exact hn
  · exact h a (List.min?_eq_some_iff'.mp hm).1

theorem getD_max?_lt {l : List Nat} {n : Nat} (hn : 0 < n) (h : ∀ c ∈ l, c < n) :
    l.max?.getD 0 < n := by
  rcases hm : l.max? with _ | a
  · exact hn
  · exact h a (List.max?_eq_some_iff'.mp hm).1

theorem flatMap_quality_lt (rs : List Record) : ∀ c ∈ rs.flatMap Record.quality, c < 128 :=
  fun c hc => by
    obtain ⟨r, -, hr⟩ := List.mem_flatMap.mp hc
    exact (r.quality_bytes c hr).2

theorem flatMap_sequence_lt (rs : List Record) : ∀ c ∈ rs.flatMap Record.sequence, c < 128 :=
  fun c hc => by
    obtain ⟨r, -, hr⟩ := List.mem_flatMap.mp hc
    exact (r.sequence_bytes c hr).2

theorem nQualities_lt (rs : List Record) : ∀ c ∈ nQualities rs, c < 128 := fun c hc => by
  obtain ⟨r, -, hr⟩ := List.mem_flatMap.mp hc
  obtain ⟨x, hx, rfl⟩ := List.mem_map.mp hr
  exact (r.quality_bytes x.2 (List.of_mem_zip (List.mem_filter.mp hx).1).2).2

theorem length_flatMap_quality (rs : List Record) :
    (rs.flatMap Record.quality).length = (rs.map fun r => r.sequence.length).sum := by
  simp only [List.length_flatMap]
  congr 1
  exact List.map_congr_left fun r _ => r.quality_length

/-- A state that has counted the records scans `qmin` to their least quality byte, 0 if none. -/
theorem Counted.qminScan {rs : List Record} {s : State} (h : Counted rs s) :
    qminScan s.quality_chars = ((rs.flatMap Record.quality).min?.getD 0 : Nat) := by
  have hq := flatMap_quality_lt rs
  simp only [FastqChars.qminScan, h.quality_chars,
    find?_range_count fun c hc => (hq c hc).trans (by norm_num : 128 < 256)]
  exact toChar_of_lt (getD_min?_lt (by norm_num) hq)

/-- A state that has counted the records scans `qmax` to their greatest quality byte, 0 if
none. -/
theorem Counted.qmaxScan {rs : List Record} {s : State} (h : Counted rs s) :
    qmaxScan s.quality_chars = ((rs.flatMap Record.quality).max?.getD 0 : Nat) := by
  have hq := flatMap_quality_lt rs
  simp only [FastqChars.qmaxScan, h.quality_chars,
    find?_range_reverse_count fun c hc => (hq c hc).trans (by norm_num : 128 < 256)]
  exact toChar_of_lt (getD_max?_lt (by norm_num) hq)

/-- **What the reading loop and the scans compute.** Over any list of records: the tables are
the histograms of all bases and all qualities; each sums over the 256 bytes to `total_chars`,
the total length, so no printed percentage divides by zero; `maxrun[c]` is the largest over the
reads of the longest run of `c`, less one; `qmin_n`, `qmax_n` are the least and greatest quality
at an `N` (255 and 0 if none); the two scans give the least and greatest quality (0 if none). -/
theorem reading_loop (T : Nat) (outside : Nat → Int → Nat) (rs : List Record) :
    let s := readLoop T outside rs
    (∀ c, s.sequence_chars c = (rs.flatMap Record.sequence).count c) ∧
    (∀ c, s.quality_chars c = (rs.flatMap Record.quality).count c) ∧
    s.total_chars = (rs.map fun r => r.sequence.length).sum ∧
    ∑ c in Finset.range 256, s.sequence_chars c = s.total_chars ∧
    ∑ c in Finset.range 256, s.quality_chars c = s.total_chars ∧
    (∀ c, 0 < s.sequence_chars c ∨ 0 < s.quality_chars c → 0 < s.total_chars) ∧
    (∀ c, s.maxrun c = (rs.map fun r => longestRun c r.sequence - 1).max?.getD 0) ∧
    s.qmin_n = (nQualities rs).min?.getD 255 ∧
    s.qmax_n = (nQualities rs).max?.getD 0 ∧
    qminScan s.quality_chars = ((rs.flatMap Record.quality).min?.getD 0 : Nat) ∧
    qmaxScan s.quality_chars = ((rs.flatMap Record.quality).max?.getD 0 : Nat) := by
  intro s
  have h : Counted rs s := counted_readLoop T outside rs
  have hseq : ∀ c ∈ rs.flatMap Record.sequence, c < 256 :=
    fun c hc => (flatMap_sequence_lt rs c hc).trans (by norm_num)
  have hqual : ∀ c ∈ rs.flatMap Record.quality, c < 256 :=
    fun c hc => (flatMap_quality_lt rs c hc).trans (by norm_num)
  have hlen : (rs.flatMap Record.sequence).length = s.total_chars := by
    rw [h.total_chars, List.length_flatMap]; rfl
  have hlenq : (rs.flatMap Record.quality).length = s.total_chars := by
    rw [h.total_chars, length_flatMap_quality]
  refine ⟨h.sequence_chars, h.quality_chars, h.total_chars, ?_, ?_, fun c hc => ?_,
    fun c => by rw [h.maxrun, foldl_max_zero], ?_, by rw [h.qmax_n, foldl_max_zero],
    h.qminScan, h.qmaxScan⟩
  · simp only [h.sequence_chars, sum_range_count hseq, hlen]
  · simp only [h.quality_chars, sum_range_count hqual, hlenq]
  · rcases hc with hc | hc
    · rw [h.sequence_chars, List.count_pos_iff] at hc
      exact hlen ▸ List.length_pos_of_mem hc
    · rw [h.quality_chars, List.count_pos_iff] at hc
      exact hlenq ▸ List.length_pos_of_mem hc
  · rw [h.qmin_n, foldl_min_of_le fun x hx => (nQualities_lt rs x hx).le.trans (by norm_num)]

/-! ## The tail table -/

theorem read_tail_chars (T : Nat) (outside : Int → Nat) (s : State) (r : Record) :
    (s.read T outside r).tail_chars = match (tailScan T r.quality outside).1 with
      | some c => bump s.tail_chars c
      | none => s.tail_chars := by
  have hsc : Scanned (s.begin r) (r.sequence.zip r.quality)
      ((r.sequence.zip r.quality).foldl (fun s x => s.position x.1 x.2) (s.begin r)) :=
    Scanned.positions _ [] (Scanned.start rfl)
  unfold State.read
  split <;> simp only [hsc.frame.1] <;> rfl

/-- The tail table along the loop from any state: each read adds one to `tail_chars[c]` exactly
when its last `T` quality symbols are all `c`. -/
theorem tail_chars_foldl {T : Nat} (hT : 1 ≤ T) (outside : Nat → Int → Nat) (c : Nat) :
    ∀ (rs pre : List Record) (s : State),
      s.tail_chars c = pre.countP (fun r => T ≤ r.quality.length ∧
        r.quality.drop (r.quality.length - T) = List.replicate T c) →
      (rs.foldl (fun s r => s.read T (outside s.seq_count) r) s).tail_chars c =
        (pre ++ rs).countP (fun r => T ≤ r.quality.length ∧
          r.quality.drop (r.quality.length - T) = List.replicate T c)
  | [], pre, s, h => by simpa using h
  | r :: rs, pre, s, h => by
    rw [List.foldl_cons, List.append_cons]
    refine tail_chars_foldl hT outside c rs _ _ ?_
    rw [read_tail_chars, List.countP_append, List.countP_singleton, ← h]
    have key := (tailScan_some_iff hT r.quality (outside s.seq_count) c).symm
    split
    · next d hd =>
      rw [hd, Option.some_inj] at key
      by_cases hc : c = d
      · subst hc; simp [key]
      · simp [hc, key, Ne.symm hc]
    · next hd => simp [hd] at key; simpa using key

/-- **The tail table.** For `T ≥ 1`, whatever memory lies around the quality strings,
`tail_chars[c]` is the number of reads whose last `T` quality symbols are all `c`. -/
theorem tail_chars_count (T : Nat) (hT : 1 ≤ T) (outside : Nat → Int → Nat) (rs : List Record)
    (c : Nat) :
    (readLoop T outside rs).tail_chars c = rs.countP fun r =>
      T ≤ r.quality.length ∧ r.quality.drop (r.quality.length - T) = List.replicate T c :=
  tail_chars_foldl hT outside c rs [] _ rfl

/-- `T = 2`, one read with quality `II`: `tail_chars['I']` is 1. -/
theorem tail_chars_count_one :
    (readLoop 2 (fun _ _ => 0) [⟨[65, 65], [73, 73], rfl, by decide, by decide, by decide⟩]).tail_chars
      73 = 1 :=
  (tail_chars_count 2 (by decide) _ _ 73).trans (by decide)

end Vsearch.FastqChars
