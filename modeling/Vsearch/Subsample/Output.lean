import Vsearch.Subsample.Groups

/-!
# The output pass of `subsample`

Model of the loop that writes the partition (`src/src/subsample.cc:214-287`). For amplicon `i`
it reads `ab_sub = abundance[i]` and the amplicon's mass, and computes
`ab_discarded = mass - ab_sub`; a positive `ab_sub` increments `samples` and sends a record
numbered `samples` to the kept FASTA and FASTQ files that are open, a positive `ab_discarded`
does the same with `discarded` and the discarded files.

* The two blocks are one code path over a `Side`: its counter and its two files (`emit`).
* A file is identified by its side and `Format`; `Outputs` says which of `--fastaout`,
  `--fastqout`, `--fastaout_discarded`, `--fastqout_discarded` were given. A `Record` keeps
  what `fasta_print_general` / `fastq_print_general` are given besides the amplicon's header,
  sequence and quality: the amplicon, the abundance and the ordinal.
* `ab_sub` and `ab_discarded` are `int64_t`; they are `Int` here (`Width.lean` bounds them).

`shares sd g` is what side `sd` is owed, in input order, and `numbered` numbers it from 1.

Results:
* `writeOutput_file`, `writeOutput_count`: every open file of a side receives exactly that
  side's numbered shares, a file not given receives nothing, and the counter of the side is
  the number of its records.
* **`output_partition`**: for a valid selection (`s_i ≤ w_i`), the kept records are the
  amplicons with `s_i > 0` in order, carrying `s_i` and numbered `1, ..., K`; the discarded
  ones the amplicons with `w_i - s_i > 0`, carrying `w_i - s_i`, numbered `1, ..., D`; the kept
  abundances sum to `n`, the discarded ones to `M - n`, and each amplicon's two abundances add
  up to `w_i`.
-/

namespace Vsearch.Subsample

/-- The two sides of the partition. -/
inductive Side where
  | kept
  | discarded
  deriving DecidableEq, Repr

/-- The two formats of an output file. -/
inductive Format where
  | fasta
  | fastq
  deriving DecidableEq, Repr

/-- Which output files were given on the command line. -/
structure Outputs where
  fastaout : Bool
  fastqout : Bool
  fastaout_discarded : Bool
  fastqout_discarded : Bool

/-- Whether the file of side `sd` in format `f` is open (`opt_... != nullptr`). -/
def Outputs.opens (o : Outputs) : Side → Format → Bool
  | .kept, .fasta => o.fastaout
  | .kept, .fastq => o.fastqout
  | .discarded, .fasta => o.fastaout_discarded
  | .discarded, .fastq => o.fastqout_discarded

/-- A record sent to an output file: the amplicon it copies, its abundance and its ordinal. -/
structure Record where
  amplicon : Nat
  abundance : Int
  ordinal : Nat
  deriving DecidableEq, Repr

/-- `samples` and `discarded` (`count`), and the records each file has received. -/
structure Written where
  count : Side → Nat
  file : Side → Format → List Record

/-- Before the output loop: both counters 0, every file empty. -/
def Written.empty : Written := ⟨fun _ => 0, fun _ _ => []⟩

/-- `fasta_print_general` or `fastq_print_general` to the file of `sd` in format `f`, if open. -/
def Written.print (o : Outputs) (sd : Side) (f : Format) (rec : Record) (st : Written) : Written :=
  if o.opens sd f then
    { st with file := fun sd' f' => if sd' = sd ∧ f' = f then st.file sd' f' ++ [rec] else st.file sd' f' }
  else st

/-- `++samples` (or `++discarded`), then the record numbered so to the side's FASTA and FASTQ
files. -/
def Written.emit (o : Outputs) (sd : Side) (i : Nat) (ab : Int) (st : Written) : Written :=
  let k := st.count sd + 1
  let st := { st with count := fun sd' => if sd' = sd then k else st.count sd' }
  (st.print o sd .fasta ⟨i, ab, k⟩).print o sd .fastq ⟨i, ab, k⟩

/-- The body of the output loop for amplicon `i` of mass `mass`, with `ab_sub = abundance[i]`. -/
def writeAmplicon (o : Outputs) (st : Written) (i mass : Nat) (abSub : Int) : Written :=
  let abDiscarded : Int := mass - abSub
  let st := if 0 < abSub then st.emit o .kept i abSub else st
  if 0 < abDiscarded then st.emit o .discarded i abDiscarded else st

/-- `for (i = 0; i < dbsequencecount; i++)` over the pairs `(mass, abundance[i])`. -/
def writeOutput (o : Outputs) (groups : List (Nat × Int)) : Written :=
  groups.enum.foldl (fun st g => writeAmplicon o st g.1 g.2.1 g.2.2) Written.empty

/-! ## What each side is owed -/

/-- What side `sd` gets of an amplicon of mass `w` with `s` reads kept: `ab_sub` or
`ab_discarded`. -/
def Side.amount : Side → Nat → Int → Int
  | .kept, _, s => s
  | .discarded, w, s => w - s

/-- The amplicons side `sd` has a record for, with the abundance on that side, in input order. -/
def shares (sd : Side) (groups : List (Nat × Int)) : List (Nat × Int) :=
  (groups.enum.map fun g => (g.1, sd.amount g.2.1 g.2.2)).filter (0 < ·.2)

/-- Records numbered `1, 2, ...` in order. -/
def numbered (l : List (Nat × Int)) : List Record :=
  l.enum.map fun p => ⟨p.2.1, p.2.2, p.1 + 1⟩

/-- The abundance the records of `l` give amplicon `i`. -/
def abundanceOf (l : List Record) (i : Nat) : Int :=
  ((l.filter (·.amplicon = i)).map Record.abundance).sum

/-! ## One amplicon -/

section Emit

variable (o : Outputs) (st : Written)

theorem print_count (sd : Side) (f : Format) (rec : Record) :
    (st.print o sd f rec).count = st.count := by
  unfold Written.print; split <;> rfl

theorem print_file (sd : Side) (f : Format) (rec : Record) (sd' : Side) (f' : Format) :
    (st.print o sd f rec).file sd' f' =
      st.file sd' f' ++ (if o.opens sd f ∧ sd' = sd ∧ f' = f then [rec] else []) := by
  unfold Written.print
  by_cases h : o.opens sd f <;> by_cases h' : sd' = sd ∧ f' = f <;> simp [h, h']

theorem emit_count (sd : Side) (i : Nat) (ab : Int) (sd' : Side) :
    (st.emit o sd i ab).count sd' = st.count sd' + (if sd' = sd then 1 else 0) := by
  simp only [Written.emit, print_count]
  split <;> simp_all

theorem emit_file (sd : Side) (i : Nat) (ab : Int) (sd' : Side) (f : Format) :
    (st.emit o sd i ab).file sd' f =
      st.file sd' f ++ (if o.opens sd' f ∧ sd' = sd then [⟨i, ab, st.count sd + 1⟩] else []) := by
  simp only [Written.emit, print_file]
  cases f <;> by_cases h : sd' = sd <;> simp [h]

/-- One amplicon adds one record to each open file of a side whose amount is positive. -/
theorem writeAmplicon_count (i mass : Nat) (abSub : Int) (sd : Side) :
    (writeAmplicon o st i mass abSub).count sd =
      st.count sd + (if 0 < sd.amount mass abSub then 1 else 0) := by
  cases sd <;> simp only [writeAmplicon, Side.amount] <;> split_ifs <;>
    simp_all [emit_count]

theorem writeAmplicon_file (i mass : Nat) (abSub : Int) (sd : Side) (f : Format) :
    (writeAmplicon o st i mass abSub).file sd f = st.file sd f ++
      (if o.opens sd f ∧ 0 < sd.amount mass abSub then
        [⟨i, sd.amount mass abSub, st.count sd + 1⟩] else []) := by
  cases sd <;> simp only [writeAmplicon, Side.amount] <;> split_ifs <;>
    simp_all [emit_file, emit_count]

end Emit

/-! ## The whole pass -/

theorem writeOutput_snoc (o : Outputs) (g : List (Nat × Int)) (x : Nat × Int) :
    writeOutput o (g ++ [x]) = writeAmplicon o (writeOutput o g) g.length x.1 x.2 := by
  simp [writeOutput, List.enum_append, List.enumFrom_singleton]

theorem shares_snoc (sd : Side) (g : List (Nat × Int)) (x : Nat × Int) :
    shares sd (g ++ [x]) = shares sd g ++
      (if 0 < sd.amount x.1 x.2 then [(g.length, sd.amount x.1 x.2)] else []) := by
  simp only [shares, List.enum_append, List.enumFrom_singleton, List.map_append,
    List.filter_append, List.map_singleton, List.filter_singleton]
  by_cases h : 0 < sd.amount x.1 x.2 <;> simp [h]

theorem numbered_snoc (l : List (Nat × Int)) (p : Nat × Int) :
    numbered (l ++ [p]) = numbered l ++ [⟨p.1, p.2, l.length + 1⟩] := by
  simp [numbered, List.enum_append, List.enumFrom_singleton]

/-- **The pass writes each side's shares**: the counter of a side is the number of its shares,
and each open file of the side receives them numbered from 1, a file not given nothing. -/
theorem writeOutput_spec (o : Outputs) (g : List (Nat × Int)) :
    (∀ sd, (writeOutput o g).count sd = (shares sd g).length) ∧
    ∀ sd f, (writeOutput o g).file sd f = if o.opens sd f then numbered (shares sd g) else [] := by
  induction g using List.reverseRecOn with
  | nil => simp [writeOutput, Written.empty, shares, numbered]
  | append_singleton g x ih =>
    refine ⟨fun sd => ?_, fun sd f => ?_⟩
    · rw [writeOutput_snoc, writeAmplicon_count, ih.1, shares_snoc]; split <;> simp
    · rw [writeOutput_snoc, writeAmplicon_file, ih.2, ih.1, shares_snoc]
      by_cases ho : o.opens sd f <;> by_cases ha : 0 < sd.amount x.1 x.2 <;>
        simp [ho, ha, numbered_snoc]

/-! ## Numbered records -/

section Numbered

variable (l : List (Nat × Int))

theorem map_amplicon_numbered : (numbered l).map Record.amplicon = l.map Prod.fst := by
  induction l using List.reverseRecOn with
  | nil => rfl
  | append_singleton l p ih => simp [numbered_snoc, ih]

theorem map_abundance_numbered : (numbered l).map Record.abundance = l.map Prod.snd := by
  induction l using List.reverseRecOn with
  | nil => rfl
  | append_singleton l p ih => simp [numbered_snoc, ih]

theorem map_ordinal_numbered : (numbered l).map Record.ordinal = List.range' 1 l.length := by
  induction l using List.reverseRecOn with
  | nil => rfl
  | append_singleton l p ih =>
    rw [numbered_snoc, List.map_append, ih, List.length_append, List.length_singleton,
      List.range'_concat]
    simp [Nat.add_comm]

@[simp] theorem length_numbered : (numbered l).length = l.length := by simp [numbered]

theorem mem_numbered {rec : Record} (h : rec ∈ numbered l) : (rec.amplicon, rec.abundance) ∈ l := by
  obtain ⟨p, hp, rfl⟩ := List.mem_map.mp h
  exact List.snd_mem_of_mem_enum hp

theorem abundanceOf_numbered (i : Nat) :
    abundanceOf (numbered l) i = ((l.filter (·.1 = i)).map Prod.snd).sum := by
  induction l using List.reverseRecOn with
  | nil => rfl
  | append_singleton l p ih =>
    rw [abundanceOf] at ih ⊢
    by_cases h : p.1 = i <;> simp [numbered_snoc, List.filter_append, ih, h]

end Numbered

/-! ## Shares -/

section Shares

variable (sd : Side)

/-- Side `sd`'s amount for amplicon `i` of `g`. -/
def amountAt (g : List (Nat × Int)) (i : Nat) : Int :=
  sd.amount (g.getD i (0, 0)).1 (g.getD i (0, 0)).2

theorem amountAt_snoc_lt {g : List (Nat × Int)} (x : Nat × Int) {i : Nat} (h : i < g.length) :
    amountAt sd (g ++ [x]) i = amountAt sd g i := by
  rw [amountAt, amountAt, List.getD_append _ _ _ _ h]

theorem amountAt_snoc_length (g : List (Nat × Int)) (x : Nat × Int) :
    amountAt sd (g ++ [x]) g.length = sd.amount x.1 x.2 := by
  simp [amountAt, List.getD_append_right]

theorem map_fst_shares (g : List (Nat × Int)) :
    (shares sd g).map Prod.fst = (List.range g.length).filter (fun i => 0 < amountAt sd g i) := by
  induction g using List.reverseRecOn with
  | nil => rfl
  | append_singleton g x ih =>
    have hcongr : (List.range g.length).filter (fun i => 0 < amountAt sd (g ++ [x]) i) =
        (List.range g.length).filter (fun i => 0 < amountAt sd g i) :=
      List.filter_congr fun i hi => by rw [amountAt_snoc_lt sd x (List.mem_range.mp hi)]
    rw [shares_snoc, List.length_append, List.length_singleton, List.range_succ,
      List.filter_append, List.map_append, ih, hcongr]
    by_cases h : 0 < sd.amount x.1 x.2 <;> simp [h, amountAt_snoc_length]

theorem mem_shares {g : List (Nat × Int)} {p : Nat × Int} (hp : p ∈ shares sd g) :
    p.1 < g.length ∧ p.2 = amountAt sd g p.1 := by
  induction g using List.reverseRecOn with
  | nil => simp [shares] at hp
  | append_singleton g x ih =>
    rw [shares_snoc, List.mem_append] at hp
    rcases hp with hp | hp
    · obtain ⟨h1, h2⟩ := ih hp
      exact ⟨by simp; omega, by rw [amountAt_snoc_lt sd x h1, h2]⟩
    · split at hp
      · simp only [List.mem_singleton] at hp
        subst hp
        exact ⟨by simp, by rw [amountAt_snoc_length]⟩
      · simp at hp

/-- With no negative amount, the shares add up to the amounts. -/
theorem sum_shares {g : List (Nat × Int)} (h : ∀ x ∈ g, 0 ≤ sd.amount x.1 x.2) :
    ((shares sd g).map Prod.snd).sum = (g.map fun x => sd.amount x.1 x.2).sum := by
  induction g using List.reverseRecOn with
  | nil => rfl
  | append_singleton g x ih =>
    have hx := h x (by simp)
    rw [shares_snoc, List.map_append, List.sum_append, ih fun y hy => h y (by simp [hy])]
    by_cases hpos : 0 < sd.amount x.1 x.2
    · simp [hpos]
    · simp [hpos]; omega

/-- With no negative amount, amplicon `i`'s shares add up to its amount. -/
theorem share_at {g : List (Nat × Int)} (h : ∀ x ∈ g, 0 ≤ sd.amount x.1 x.2) {i : Nat}
    (hi : i < g.length) :
    (((shares sd g).filter (·.1 = i)).map Prod.snd).sum = amountAt sd g i := by
  induction g using List.reverseRecOn with
  | nil => simp at hi
  | append_singleton g x ih =>
    have hx := h x (by simp)
    rw [shares_snoc, List.filter_append, List.map_append, List.sum_append]
    rcases Nat.lt_or_ge i g.length with hlt | hge
    · rw [ih (fun y hy => h y (by simp [hy])) hlt, amountAt_snoc_lt sd x hlt]
      split <;> simp [show g.length ≠ i by omega]
    · have hieq : i = g.length := by simp at hi; omega
      subst hieq
      have hnone : (shares sd g).filter (·.1 = g.length) = [] :=
        List.filter_eq_nil_iff.mpr fun p hp => by have := (mem_shares sd hp).1; simp; omega
      rw [hnone, amountAt_snoc_length]
      by_cases hpos : 0 < sd.amount x.1 x.2
      · simp [hpos]
      · simp [hpos]; omega

end Shares

/-! ## A valid selection -/

section Selection

variable {ws s : List Nat} (h : List.Forall₂ (· ≤ ·) s ws)
include h

theorem getD_zip_selection (i : Nat) :
    (ws.zip (s.map Int.ofNat)).getD i (0, 0) = (ws.getD i 0, (s.getD i 0 : Int)) := by
  induction h generalizing i with
  | nil => simp
  | cons _ _ ih =>
    cases i <;> simp only [List.map_cons, List.zip_cons_cons, List.getD_cons_zero,
      List.getD_cons_succ, ih, Int.ofNat_eq_coe]

theorem amount_nonneg_selection (sd : Side) :
    ∀ x ∈ ws.zip (s.map Int.ofNat), 0 ≤ sd.amount x.1 x.2 := by
  induction h with
  | nil => simp
  | @cons a b _ _ hab _ ih =>
    intro x hx
    simp only [List.map_cons, List.zip_cons_cons, List.mem_cons] at hx
    rcases hx with rfl | hx
    · cases sd <;> simp [Side.amount]; omega
    · exact ih x hx

theorem sum_amount_selection (sd : Side) :
    ((ws.zip (s.map Int.ofNat)).map fun x => sd.amount x.1 x.2).sum =
      match sd with
      | .kept => (s.sum : Int)
      | .discarded => (ws.sum : Int) - s.sum := by
  induction h with
  | nil => cases sd <;> rfl
  | cons _ _ ih =>
    cases sd
    · simp_all [Side.amount]
    · simp_all [Side.amount]; omega

end Selection

/-- **The output pass partitions every amplicon** (`subsample.cc:214-287`). For masses `ws` and
a valid selection `s` (`s_i ≤ w_i`): every open file receives its side's records and a file not
given nothing; `samples` and `discarded` count them; the kept records are the amplicons with
`s_i > 0`, in order, carrying `s_i`, numbered `1, ..., K`; the discarded ones the amplicons
with `w_i - s_i > 0`, carrying `w_i - s_i`, numbered `1, ..., D`; the kept abundances sum to
`Σ s_i`, the discarded ones to `Σ w_i - Σ s_i`, and each amplicon's two add up to `w_i`. -/
theorem output_partition (o : Outputs) (ws s : List Nat) (h : List.Forall₂ (· ≤ ·) s ws) :
    let g := ws.zip (s.map Int.ofNat)
    let kept := numbered (shares .kept g)
    let disc := numbered (shares .discarded g)
    (∀ sd f, (writeOutput o g).file sd f = if o.opens sd f then numbered (shares sd g) else []) ∧
    (writeOutput o g).count .kept = kept.length ∧
    (writeOutput o g).count .discarded = disc.length ∧
    kept.map Record.amplicon = (List.range ws.length).filter (fun i => 0 < s.getD i 0) ∧
    kept.map Record.ordinal = List.range' 1 kept.length ∧
    (∀ rec ∈ kept, rec.abundance = s.getD rec.amplicon 0) ∧
    disc.map Record.amplicon = (List.range ws.length).filter (fun i => s.getD i 0 < ws.getD i 0) ∧
    disc.map Record.ordinal = List.range' 1 disc.length ∧
    (∀ rec ∈ disc, rec.abundance = ws.getD rec.amplicon 0 - s.getD rec.amplicon 0) ∧
    (kept.map Record.abundance).sum = s.sum ∧
    (disc.map Record.abundance).sum = ws.sum - s.sum ∧
    ∀ i < ws.length, abundanceOf kept i + abundanceOf disc i = ws.getD i 0 := by
  intro g kept disc
  have hlen : g.length = ws.length := by simp [g, h.length_eq]
  have hat : ∀ sd i, amountAt sd g i = sd.amount (ws.getD i 0) (s.getD i 0) := fun sd i => by
    simp only [amountAt, g, getD_zip_selection h]
  have hnn := amount_nonneg_selection h
  have hrec : ∀ sd, ∀ rec ∈ numbered (shares sd g),
      rec.abundance = sd.amount (ws.getD rec.amplicon 0) (s.getD rec.amplicon 0) :=
    fun sd rec hrec => by rw [← hat]; exact (mem_shares sd (mem_numbered _ hrec)).2
  have hamp : ∀ sd, (numbered (shares sd g)).map Record.amplicon = (List.range ws.length).filter
      (fun i => 0 < sd.amount (ws.getD i 0) (s.getD i 0)) := fun sd => by
    rw [map_amplicon_numbered, map_fst_shares, hlen]; simp only [hat]
  have hsum : ∀ sd, ((numbered (shares sd g)).map Record.abundance).sum =
      (g.map fun x => sd.amount x.1 x.2).sum := fun sd => by
    rw [map_abundance_numbered, sum_shares sd (hnn sd)]
  refine ⟨(writeOutput_spec o g).2, by simp [kept, (writeOutput_spec o g).1],
    by simp [disc, (writeOutput_spec o g).1], ?_, by simp [kept, map_ordinal_numbered],
    fun rec hr => hrec .kept rec hr, ?_, by simp [disc, map_ordinal_numbered],
    fun rec hr => hrec .discarded rec hr, ?_, ?_, fun i hi => ?_⟩
  · simpa [Side.amount] using hamp .kept
  · simpa [Side.amount] using hamp .discarded
  · simpa [sum_amount_selection h] using hsum .kept
  · simpa [sum_amount_selection h] using hsum .discarded
  · simp only [kept, disc, abundanceOf_numbered, share_at _ (hnn _) (hlen ▸ hi), hat,
      Side.amount]
    omega

/-- Weights `[2, 1]`, one read of each taken, every output open: amplicon 0 is split between a
kept record of 1 read and a discarded record of 1 read. -/
theorem output_partition_two_one :
    abundanceOf (numbered (shares .kept ([2, 1].zip ([1, 1].map Int.ofNat)))) 0 +
        abundanceOf (numbered (shares .discarded ([2, 1].zip ([1, 1].map Int.ofNat)))) 0 = 2 :=
  (output_partition ⟨true, true, true, true⟩ [2, 1] [1, 1] (by decide)).2.2.2.2.2.2.2.2.2.2.2 0
    (by decide)

end Vsearch.Subsample
