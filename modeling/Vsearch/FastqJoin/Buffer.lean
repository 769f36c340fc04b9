import Mathlib

/-!
# `fastq_join`, one pair: the buffers `seq_v` and `qual_v`

Model of the body of the pairing loop of `fastq_join` (`src/src/fastqjoin.cc:180-213`). Both
buffers are resized to `needed = fwd_seq_length + padlen + rev_seq_length + 1` zero bytes; the
forward read and the pad are copied in by `std::strcpy`, and the reverse read is written after
them by `std::transform` over reverse iterators, through `chrmap_complement_vector` for the
sequence.

* A byte is a `Nat`. A `char *` that the reader hands over points at the string's bytes followed
  by a NUL (`cstr`). `Read` carries the reader's contract: no NUL inside, and a quality as long as
  the sequence (`fastq_get_sequence_length` bounds both).
* Every access is `Option`-valued: `none` is a write past the end of the buffer or a read past the
  end of the source.
* `chrmap_complement_vector` is not in `src/`; it is the parameter `comp`.

Results:
* `strcpy_fill`, `transformReverse_fill`: on a buffer of written bytes followed by zeros, each
  write puts its bytes right after the written ones, in bounds.
* **`joinPair_eq`**: when the two pads have one length, the pair's buffers hold
  `f.seq ++ padgap ++ map comp (reverse r.seq)` and `f.qual ++ padgapq ++ reverse r.qual`, then
  one zero, and `len` is the length of both joined strings.
-/

namespace Vsearch.FastqJoin

/-- The memory a `char *` to the string `s` points at: its bytes, then the terminating NUL. -/
def cstr (s : List Nat) : List Nat := s ++ [0]

/-- A FASTQ record as `fastq_next` leaves it: header, sequence and quality, the latter two C
strings with no NUL inside, the quality as long as the sequence. -/
structure Read where
  header : List Nat
  sequence : List Nat
  quality : List Nat
  sequence_nul : 0 ∉ sequence
  quality_nul : 0 ∉ quality
  quality_length : quality.length = sequence.length

/-- The options `fastq_join` reads (`struct Parameters`): whether `--reverse`, `--fastqout` and
`--fastaout` were given, and the strings of `--join_padgap` and `--join_padgapq`, which come from
the command line and so hold no NUL. -/
structure Parameters where
  opt_reverse : Bool
  opt_fastqout : Bool
  opt_fastaout : Bool
  opt_join_padgap : List Nat
  opt_join_padgapq : List Nat
  padgap_nul : 0 ∉ opt_join_padgap
  padgapq_nul : 0 ∉ opt_join_padgapq

/-- Writes `src` into `buf` from offset `off`; `none` when that passes the end of `buf`. -/
def writeAt (buf : List Nat) (off : Nat) (src : List Nat) : Option (List Nat) :=
  if off + src.length ≤ buf.length then some (buf.take off ++ src ++ buf.drop (off + src.length))
  else none

/-- `std::strcpy(&buf[off], src)`: the bytes of `src` up to its first NUL, then that NUL. -/
def strcpy (buf : List Nat) (off : Nat) (src : List Nat) : Option (List Nat) :=
  writeAt buf off (src.takeWhile (· != 0) ++ [0])

/-- `std::transform(reverse_iterator{src + n}, reverse_iterator{src}, &buf[off], f)`: the `j`-th
byte written is `f src[n - 1 - j]`. -/
def transformReverse (buf : List Nat) (off : Nat) (src : List Nat) (n : Nat) (f : Nat → Nat) :
    Option (List Nat) := do
  let out ← (List.range n).mapM fun j => src[n - 1 - j]?.map f
  writeAt buf off out

/-- The body of the pairing loop for forward read `f` and reverse read `r`: `seq_v`, `qual_v`
and `len`. -/
def joinPair (p : Parameters) (comp : Nat → Nat) (f r : Read) :
    Option (List Nat × List Nat × Nat) := do
  let padlen := p.opt_join_padgap.length
  let needed := f.sequence.length + padlen + r.sequence.length + 1
  let seq_v ← strcpy (List.replicate needed 0) 0 (cstr f.sequence)
  let qual_v ← strcpy (List.replicate needed 0) 0 (cstr f.quality)
  let len := f.sequence.length
  let seq_v ← strcpy seq_v len (cstr p.opt_join_padgap)
  let qual_v ← strcpy qual_v len (cstr p.opt_join_padgapq)
  let len := len + padlen
  let seq_v ← transformReverse seq_v len r.sequence r.sequence.length comp
  let qual_v ← transformReverse qual_v len r.quality r.sequence.length id
  pure (seq_v, qual_v, len + r.sequence.length)

/-! ## Writes into a zero-filled tail -/

theorem writeAt_fill (A B : List Nat) {k : Nat} (h : B.length ≤ k) :
    writeAt (A ++ List.replicate k 0) A.length B = some (A ++ B ++ List.replicate (k - B.length) 0) := by
  rw [writeAt, if_pos (by simp; omega)]
  simp [List.drop_append_eq_append_drop, List.drop_replicate]

theorem takeWhile_cstr {s : List Nat} (h : 0 ∉ s) : (cstr s).takeWhile (· != 0) = s := by
  rw [cstr, List.takeWhile_append_of_pos fun c hc => by simpa using ne_of_mem_of_not_mem hc h]
  simp

theorem strcpy_fill {A : List Nat} {off : Nat} (hoff : A.length = off) {s : List Nat}
    (hs : 0 ∉ s) {k : Nat} (h : s.length < k) :
    strcpy (A ++ List.replicate k 0) off (cstr s) =
      some (A ++ s ++ List.replicate (k - s.length) 0) := by
  have hk : List.replicate (k - s.length) 0 = 0 :: List.replicate (k - (s.length + 1)) 0 := by
    rw [← List.replicate_succ]; congr 1; omega
  rw [strcpy, takeWhile_cstr hs, ← hoff, writeAt_fill _ _ (by simpa using h), hk]
  simp

theorem mapM_some {l : List Nat} {g : Nat → Option Nat} {h : Nat → Nat}
    (hg : ∀ j ∈ l, g j = some (h j)) : l.mapM g = some (l.map h) := by
  induction l with
  | nil => rfl
  | cons j l ih =>
    rw [List.mapM_cons, hg j (List.mem_cons_self j l),
      ih fun i hi => hg i (List.mem_cons_of_mem j hi)]
    rfl

theorem map_range_reverse (src : List Nat) (f : Nat → Nat) :
    (List.range src.length).map (fun j => f (src.getD (src.length - 1 - j) 0)) =
      src.reverse.map f := by
  apply List.ext_getElem (by simp)
  intro j h1 h2
  simp only [List.length_map, List.length_range] at h1
  have hj : src.length - 1 - j < src.length := by omega
  simp [List.getElem_reverse, List.getD_eq_getElem?_getD, List.getElem?_eq_getElem hj]

theorem transformReverse_fill {A : List Nat} {off : Nat} (hoff : A.length = off) {src : List Nat}
    {n : Nat} (hn : src.length = n) (f : Nat → Nat) {k : Nat} (h : src.length ≤ k) :
    transformReverse (A ++ List.replicate k 0) off src n f =
      some (A ++ src.reverse.map f ++ List.replicate (k - src.length) 0) := by
  have hread : (List.range src.length).mapM (fun j => src[src.length - 1 - j]?.map f) =
      some (src.reverse.map f) := by
    rw [← map_range_reverse, mapM_some]
    intro j hj
    simp [List.getD_eq_getElem?_getD, List.getElem?_eq_getElem
      (by simp at hj; omega : src.length - 1 - j < src.length)]
  rw [← hoff, ← hn, transformReverse, hread, Option.bind_eq_bind, Option.some_bind,
    writeAt_fill _ _ (by simpa using h), List.length_map, List.length_reverse]

/-- **The buffers of one pair.** With pads of one length, `strcpy` and the reverse `transform`
leave the joined sequence and quality in `seq_v` and `qual_v`, then the zero that `resize` put
at `needed - 1`; `len` is their length. -/
theorem joinPair_eq (p : Parameters) (comp : Nat → Nat) (f r : Read)
    (hpad : p.opt_join_padgapq.length = p.opt_join_padgap.length) :
    joinPair p comp f r =
      some (f.sequence ++ p.opt_join_padgap ++ r.sequence.reverse.map comp ++ [0],
        f.quality ++ p.opt_join_padgapq ++ r.quality.reverse ++ [0],
        f.sequence.length + p.opt_join_padgap.length + r.sequence.length) := by
  have hq := f.quality_length
  have hr := r.quality_length
  have h0 : ∀ k, List.replicate k 0 = [] ++ List.replicate k 0 := fun _ => rfl
  have hnil : ([] : List Nat).length = 0 := rfl
  simp only [joinPair, Option.bind_eq_bind]
  rw [h0, strcpy_fill hnil f.sequence_nul (by omega), strcpy_fill hnil f.quality_nul (by omega)]
  simp only [List.nil_append, Option.some_bind]
  rw [strcpy_fill rfl p.padgap_nul (by omega), strcpy_fill hq p.padgapq_nul (by omega)]
  simp only [Option.some_bind]
  rw [transformReverse_fill (by simp) rfl comp (by omega),
    transformReverse_fill (by simp; omega) hr id (by omega)]
  have hone : ∀ {a b c d e g : Nat}, a = d → b = e → c = g →
      List.replicate (a + b + c + 1 - d - e - g) 0 = [0] := by
    intro a b c d e g h1 h2 h3
    rw [show a + b + c + 1 - d - e - g = 1 by omega]; rfl
  simp [hone hq.symm hpad.symm hr.symm, hone rfl rfl rfl]

end Vsearch.FastqJoin
