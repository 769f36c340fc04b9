import Vsearch.FastqJoin.Buffer

/-!
# `fastq_join`: the pairing loop

Model of `check_parameters` (`src/src/fastqjoin.cc:72-84`) and of `fastq_join`
(`fastqjoin.cc:126-256`) from the parameter check to the test for surplus reverse reads. The two
input files are the lists of reads `fastq_next` returns, in order. `fatal` ends the run and what
was written before it stays written; the result is `none` when a pass would access a buffer out
of bounds.

Out of scope: opening and closing files, the progress bar, and the printers themselves. A
written record is what `fastq_print_general` or `fasta_print_general` gets: the forward header,
the first `len` bytes of `seq_v` (and of `qual_v`) and the ordinal `total + 1`. Their constant
abundance and expected-error arguments are left out, and the `static_cast<int>` of the lengths
and of the ordinal is taken as exact.

Results:
* `checkParameters_eq_none`: the parameters pass exactly when `--reverse` and an output are
  given and the two pads have one length.
* `emit_joinPair` (one pass) and `joinLoop_eq` (the loop): each pass writes the joined pair to
  every open output; the loop ends at the shorter file, with the fatal error naming the longer.
* **`fastq_join_pairs`**: for accepted parameters, `fastq_join` ends without a fatal error
  exactly when both files hold as many reads; it writes the first `min p q` pairs in order, the
  `i`-th with `f_i`'s header, `f_i.seq ++ padgap ++ map comp (reverse r_i.seq)` and
  `f_i.qual ++ padgapq ++ reverse r_i.qual`, both of length `|f_i| + |padgap| + |r_i|`.
* **`join_stats`**: the statistics line `N pairs joined` is written, to `stderr` unless
  `--quiet` and to the log if given, exactly by a run that ends without a fatal error, with `N`
  the number of pairs. `--quiet` and `--log` are arguments of `fastqJoinStats`: `Parameters`
  holds the fields the pairing loop reads.
-/

namespace Vsearch.FastqJoin

/-- `check_parameters`: the message of its first fatal error, if any. -/
def checkParameters (p : Parameters) : Option String :=
  if !p.opt_reverse then some "No reverse reads file specified with --reverse"
  else if !p.opt_fastqout && !p.opt_fastaout then some "No output files specified"
  else if p.opt_join_padgap.length != p.opt_join_padgapq.length then
    some "Strings given by --join_padgap and --join_padgapq differ in length"
  else none

/-- The arguments of a `fastq_print_general` call. -/
structure FastqRecord where
  header : List Nat
  sequence : List Nat
  quality : List Nat
  ordinal : Nat
deriving DecidableEq, Repr

/-- The arguments of a `fasta_print_general` call. -/
structure FastaRecord where
  header : List Nat
  sequence : List Nat
  ordinal : Nat
deriving DecidableEq, Repr

/-- The records written to `--fastqout` and `--fastaout`, and `total`. -/
structure Written where
  fastqout : List FastqRecord
  fastaout : List FastaRecord
  total : Nat
deriving DecidableEq, Repr

/-- Nothing written, `total = 0`. -/
def Written.empty : Written := ⟨[], [], 0⟩

/-- The end of a pass (`fastqjoin.cc:217-247`): the joined read goes to each open output,
numbered `total + 1`, then `++total`. -/
def Written.emit (p : Parameters) (w : Written) (header seq_v qual_v : List Nat) (len : Nat) :
    Written where
  fastqout := if p.opt_fastqout then
      w.fastqout ++ [⟨header, seq_v.take len, qual_v.take len, w.total + 1⟩] else w.fastqout
  fastaout := if p.opt_fastaout then
      w.fastaout ++ [⟨header, seq_v.take len, w.total + 1⟩] else w.fastaout
  total := w.total + 1

/-- The loop `while (fastq_next(fastq_fwd, ...))` and the test for reverse reads after it. -/
def joinLoop (p : Parameters) (comp : Nat → Nat) :
    List Read → List Read → Written → Option (Written × Option String)
  | [], [], w => some (w, none)
  | [], _ :: _, w => some (w, some "More reverse reads than forward reads")
  | _ :: _, [], w => some (w, some "More forward reads than reverse reads")
  | f :: fs, r :: rs, w => do
    let (seq_v, qual_v, len) ← joinPair p comp f r
    joinLoop p comp fs rs (w.emit p f.header seq_v qual_v len)

/-- `fastq_join` over the forward reads `fwd` and the reverse reads `rev`: what is written, and
the fatal error that ended the run, if any. -/
def fastqJoin (p : Parameters) (comp : Nat → Nat) (fwd rev : List Read) :
    Option (Written × Option String) :=
  match checkParameters p with
  | some e => some (Written.empty, some e)
  | none => joinLoop p comp fwd rev Written.empty

/-! ## The joined records -/

/-- The `i`-th record of `--fastqout` for the pair `(f, r)`, as the joined read is meant to be. -/
def joinedFastq (p : Parameters) (comp : Nat → Nat) (i : Nat) (f r : Read) : FastqRecord :=
  ⟨f.header, f.sequence ++ p.opt_join_padgap ++ r.sequence.reverse.map comp,
    f.quality ++ p.opt_join_padgapq ++ r.quality.reverse, i + 1⟩

/-- The `i`-th record of `--fastaout` for the pair `(f, r)`. -/
def joinedFasta (p : Parameters) (comp : Nat → Nat) (i : Nat) (f r : Read) : FastaRecord :=
  ⟨f.header, f.sequence ++ p.opt_join_padgap ++ r.sequence.reverse.map comp, i + 1⟩

/-- The fatal error at the end of input, when one file has reads left over. -/
def surplusError (nf nr : Nat) : Option String :=
  if nf = nr then none
  else if nr < nf then some "More forward reads than reverse reads"
  else some "More reverse reads than forward reads"

theorem lengths_joinedFastq (p : Parameters) (comp : Nat → Nat) (i : Nat) (f r : Read)
    (hpad : p.opt_join_padgapq.length = p.opt_join_padgap.length) :
    ((joinedFastq p comp i f r).sequence.length, (joinedFastq p comp i f r).quality.length) =
      (f.sequence.length + p.opt_join_padgap.length + r.sequence.length,
        f.sequence.length + p.opt_join_padgap.length + r.sequence.length) := by
  simp [joinedFastq, hpad, f.quality_length, r.quality_length, Nat.add_assoc]

@[simp] theorem surplusError_succ (nf nr : Nat) :
    surplusError (nf + 1) (nr + 1) = surplusError nf nr := by
  simp [surplusError]

@[simp] theorem surplusError_eq_none (nf nr : Nat) : surplusError nf nr = none ↔ nf = nr := by
  unfold surplusError
  split_ifs <;> simp_all

theorem checkParameters_eq_none (p : Parameters) :
    checkParameters p = none ↔ p.opt_reverse = true ∧
      (p.opt_fastqout || p.opt_fastaout) = true ∧
      p.opt_join_padgap.length = p.opt_join_padgapq.length := by
  obtain ⟨rv, fq, fa, g, q, -, -⟩ := p
  cases rv <;> cases fq <;> cases fa <;> simp [checkParameters]

/-- One pass writes the pair's joined record to each open output. -/
theorem emit_joinPair (p : Parameters) (comp : Nat → Nat) (f r : Read) (w : Written)
    (hpad : p.opt_join_padgapq.length = p.opt_join_padgap.length) :
    ∃ seq_v qual_v len, joinPair p comp f r = some (seq_v, qual_v, len) ∧
      w.emit p f.header seq_v qual_v len =
        ⟨w.fastqout ++ (if p.opt_fastqout then [joinedFastq p comp w.total f r] else []),
          w.fastaout ++ (if p.opt_fastaout then [joinedFasta p comp w.total f r] else []),
          w.total + 1⟩ := by
  refine ⟨_, _, _, joinPair_eq p comp f r hpad, ?_⟩
  have hq := f.quality_length
  have hr := r.quality_length
  have hseq : (f.sequence ++ p.opt_join_padgap ++ r.sequence.reverse.map comp ++ [0]).take
      (f.sequence.length + p.opt_join_padgap.length + r.sequence.length) =
        f.sequence ++ p.opt_join_padgap ++ r.sequence.reverse.map comp :=
    List.take_left' (by simp; omega)
  have hqual : (f.quality ++ p.opt_join_padgapq ++ r.quality.reverse ++ [0]).take
      (f.sequence.length + p.opt_join_padgap.length + r.sequence.length) =
        f.quality ++ p.opt_join_padgapq ++ r.quality.reverse :=
    List.take_left' (by simp; omega)
  simp only [Written.emit, hseq, hqual, joinedFastq, joinedFasta]
  split_ifs <;> simp

theorem enumFrom_zip_cons (k : Nat) (f r : Read) (fs rs : List Read) :
    List.enumFrom k ((f :: fs).zip (r :: rs)) = (k, (f, r)) :: List.enumFrom (k + 1) (fs.zip rs) :=
  rfl

/-- **The loop.** From any written state, the loop writes the joined records of the first
`min p q` pairs, numbered on from `total`, and ends with the error for the longer file. -/
theorem joinLoop_eq (p : Parameters) (comp : Nat → Nat)
    (hpad : p.opt_join_padgapq.length = p.opt_join_padgap.length) :
    ∀ (fwd rev : List Read) (w : Written), joinLoop p comp fwd rev w =
      some (⟨w.fastqout ++ (if p.opt_fastqout then (List.enumFrom w.total (fwd.zip rev)).map
            (fun x => joinedFastq p comp x.1 x.2.1 x.2.2) else []),
          w.fastaout ++ (if p.opt_fastaout then (List.enumFrom w.total (fwd.zip rev)).map
            (fun x => joinedFasta p comp x.1 x.2.1 x.2.2) else []),
          w.total + min fwd.length rev.length⟩,
        surplusError fwd.length rev.length)
  | [], [], w | [], _ :: _, w | _ :: _, [], w => by simp [joinLoop, surplusError]
  | f :: fs, r :: rs, w => by
    obtain ⟨seq_v, qual_v, len, hj, he⟩ := emit_joinPair p comp f r w hpad
    rw [joinLoop, hj, Option.bind_eq_bind, Option.some_bind]
    dsimp only
    rw [he, joinLoop_eq p comp hpad fs rs]
    simp only [enumFrom_zip_cons, List.length_cons, surplusError_succ, Nat.succ_min_succ,
      List.map_cons]
    congr 3
    · split <;> simp
    · split <;> simp
    · omega

/-- **`fastq_join` joins the pairs.** For parameters `check_parameters` accepts, the run ends
without a fatal error exactly when both files hold as many reads, and otherwise with the error
naming the longer file. It writes the first `min p q` pairs, in order: the `i`-th record has
`f_i`'s header, the sequence `f_i.seq ++ padgap ++ map comp (reverse r_i.seq)`, the quality
`f_i.qual ++ padgapq ++ reverse r_i.qual` and ordinal `i + 1`, and its sequence and quality are
both `|f_i| + |padgap| + |r_i|` long. -/
theorem fastq_join_pairs (p : Parameters) (comp : Nat → Nat) (fwd rev : List Read)
    (hp : checkParameters p = none) :
    ∃ w err, fastqJoin p comp fwd rev = some (w, err) ∧
      (err = none ↔ fwd.length = rev.length) ∧ err = surplusError fwd.length rev.length ∧
      w.total = min fwd.length rev.length ∧
      w.fastqout = (if p.opt_fastqout then (fwd.zip rev).enum.map
        (fun x => joinedFastq p comp x.1 x.2.1 x.2.2) else []) ∧
      w.fastaout = (if p.opt_fastaout then (fwd.zip rev).enum.map
        (fun x => joinedFasta p comp x.1 x.2.1 x.2.2) else []) ∧
      w.fastqout.map (fun x => (x.sequence.length, x.quality.length)) =
        (if p.opt_fastqout then (fwd.zip rev).map (fun x =>
          (x.1.sequence.length + p.opt_join_padgap.length + x.2.sequence.length,
            x.1.sequence.length + p.opt_join_padgap.length + x.2.sequence.length)) else []) := by
  obtain ⟨-, -, hpad⟩ := (checkParameters_eq_none p).mp hp
  refine ⟨_, _, by rw [fastqJoin, hp, joinLoop_eq p comp hpad.symm], by simp, rfl,
    by simp [Written.empty], by simp [Written.empty, List.enum], by simp [Written.empty, List.enum],
    ?_⟩
  split
  · conv_rhs => rw [← List.enum_map_snd (fwd.zip rev), List.map_map]
    simp only [Written.empty, List.nil_append, if_pos ‹_›, List.enum, List.map_map]
    exact List.map_congr_left fun x _ => lengths_joinedFastq p comp _ _ _ hpad.symm
  · simp [Written.empty]

/-- One pair, `--fastqout` only, pads `N` and `I`, the identity for the complement table: forward
read `AC` with quality `II`, reverse read `G` with quality `I`. The run ends without an error and
writes `ACNG` with quality `IIII`, numbered 1. -/
theorem fastq_join_pairs_one :
    ∃ w, fastqJoin ⟨true, true, false, [78], [73], by decide, by decide⟩ id
        [⟨[64], [65, 67], [73, 73], by decide, by decide, rfl⟩]
        [⟨[64], [71], [73], by decide, by decide, rfl⟩] = some (w, none) ∧
      w.fastqout = [⟨[64], [65, 67, 78, 71], [73, 73, 73, 73], 1⟩] := by
  obtain ⟨w, err, h, hiff, -, -, hq, -⟩ :=
    fastq_join_pairs ⟨true, true, false, [78], [73], by decide, by decide⟩ id
      [⟨[64], [65, 67], [73, 73], by decide, by decide, rfl⟩]
      [⟨[64], [71], [73], by decide, by decide, rfl⟩] rfl
  exact ⟨w, by rw [h, hiff.mpr rfl], by rw [hq]; rfl⟩

/-! ## The statistics line -/

/-- `stats_message` (`fastqjoin.cc:99-104`): the line for `total` joined pairs. -/
def statsMessage (total : Nat) : String := toString total ++ " pairs joined\n"

/-- Both overloads of `output_stats_message` (`fastqjoin.cc:107-123`): the line, unless the
overload's own test returns first. -/
def outputStats (skip : Bool) (total : Nat) : List String :=
  if skip then [] else [statsMessage total]

/-- `output_stats_message(parameters, total)`: to `stderr`, unless `--quiet`. -/
def outputStatsMessage (opt_quiet : Bool) (total : Nat) : List String :=
  outputStats opt_quiet total

/-- `output_stats_message(parameters, total, log_filename)`: to the log, if one was given. -/
def outputStatsMessageLog (opt_log : Bool) (total : Nat) : List String :=
  outputStats (!opt_log) total

/-- The lines `fastq_join` writes to `stderr` and to the log after the loop
(`fastqjoin.cc:253-259`), for `--quiet` and `--log` as given: none after a fatal error, else the
statistics of `total`. -/
def fastqJoinStats (p : Parameters) (opt_quiet opt_log : Bool) (comp : Nat → Nat)
    (fwd rev : List Read) : Option (List String × List String) :=
  (fastqJoin p comp fwd rev).map fun x =>
    match x.2 with
    | some _ => ([], [])
    | none => (outputStatsMessage opt_quiet x.1.total, outputStatsMessageLog opt_log x.1.total)

/-- **The statistics line.** `fastq_join` writes `N pairs joined` to `stderr` (unless
`--quiet`) and to the log (if one is given) exactly when the parameters pass and both files hold
as many reads, and `N` is then that number; a run that ends in a fatal error writes neither. -/
theorem join_stats (p : Parameters) (opt_quiet opt_log : Bool) (comp : Nat → Nat)
    (fwd rev : List Read) :
    fastqJoinStats p opt_quiet opt_log comp fwd rev =
      some (if checkParameters p = none ∧ fwd.length = rev.length then
        ((if opt_quiet then [] else [statsMessage fwd.length]),
          (if opt_log then [statsMessage fwd.length] else []))
      else ([], [])) := by
  unfold fastqJoinStats fastqJoin
  rcases hp : checkParameters p with _ | e
  · obtain ⟨-, -, hpad⟩ := (checkParameters_eq_none p).mp hp
    rw [joinLoop_eq p comp hpad.symm]
    by_cases hl : fwd.length = rev.length
    · cases opt_log <;>
        simp [hl, surplusError, Written.empty, outputStatsMessage, outputStatsMessageLog,
          outputStats]
    · obtain ⟨e, he⟩ := Option.ne_none_iff_exists'.mp (mt (surplusError_eq_none _ _).mp hl)
      simp [he, hl]
  · simp

end Vsearch.FastqJoin
