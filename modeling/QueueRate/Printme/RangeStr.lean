import QueueRate.Lib.CStr
import QueueRate.Lib.RangeList
import QueueRate.Lib.Runs

/-!
# `bitmap2rangestr`: the set bits of a word as ranges

For each core a thread is bound to, `printme` writes the hardware threads
of the binding as ranges (`0-1`, `0,2`), from a word with one bit for each
(`bitmap2rangestr` in `printme.c`). The function reads the 32 bits once,
keeping where the open range started and whether a range has been written,
and appends each range to a static buffer of `BUFSIZ` chars with `strncat`,
leaving room for the NUL.

Its locals follow the scan of `Runs` bit by bit (`Encodes`,
`loopBody_encodes`): the text so far is the closed runs as ranges, `first`
says that none has been written yet, and `range_start` is the open run's
start or `-999`. No write leaves its buffer and no text is cut
(`bitmap2rangestr_eq`), so reading the result back gives the maximal runs of
set bits (`bitmap2rangestr_roundTrip`).
-/

namespace QueueRate
namespace Printme

open CStr RangeList

/-- `BUFSIZ` of glibc's `<stdio.h>`: the size of `ret` and of `tmp`. -/
def bufsiz : ℕ := 8192

/-- What `%d` prints. -/
def fmtD (n : ℤ) : List Char :=
  if 0 ≤ n then Nat.toDigits 10 n.toNat else '-' :: Nat.toDigits 10 (-n).toNat

/-- The locals of `bitmap2rangestr` that live across the loop. -/
structure Locals where
  ret : List Char
  first : Bool
  rangeStart : ℤ

/-- What `tmp` holds after `snprintf (tmp, stmp, "%d", range_start)` or
`snprintf (tmp, stmp, "%d-%d", range_start, range_end)`, with
`stmp = sizeof(tmp) - 1`. -/
def printRange (rangeStart rangeEnd : ℤ) : List Char :=
  if rangeStart = rangeEnd then snprintf (bufsiz - 1) (fmtD rangeStart)
  else snprintf (bufsiz - 1) (fmtD rangeStart ++ '-' :: fmtD rangeEnd)

/-- Output the range open since `range_start` that ended before bit `i`:
a `,` unless it is the first range, then the range from `tmp`. -/
def outputRange (st : Locals) (i : ℕ) : Option (List Char) :=
  (if st.first then some st.ret else strncat bufsiz st.ret [','] (bufsiz - st.ret.length - 1)).bind
    fun ret => strncat bufsiz ret (printRange st.rangeStart ((i : ℤ) - 1)) (bufsiz - ret.length - 1)

/-- The loop at bit `i`. `isset = (bitmap & (1 << i))` is the bit itself
(for `i = 31` the shift overflows `int`; the compilers give `INT_MIN`). -/
def loopBody (bitmap : BitVec 32) (st : Locals) (i : ℕ) : Option Locals :=
  if 0 ≤ st.rangeStart then
    if bitmap.getLsbD i then some st
    else do
      -- a range just ended
      let ret ← outputRange st i
      some ⟨ret, false, -999⟩
  else if bitmap.getLsbD i then some { st with rangeStart := i }
  else some st

/-- `bitmap2rangestr (bitmap)`: `none` when a write would leave a buffer. -/
def bitmap2rangestr (bitmap : BitVec 32) : Option (List Char) := do
  let st ← (List.range 32).foldlM (loopBody bitmap) ⟨[], true, -999⟩
  -- a range still open after the last bit
  if 0 ≤ st.rangeStart then outputRange st 32 else some st.ret

/-! ### The locals follow the scan -/

/-- The start of a run as `range_start` holds it, `-999` for none. -/
def rangeStartOf : Option ℕ → ℤ
  | some a => a
  | none => -999

/-- The locals hold the scan: the closed runs written out, `first` until
one is, and the open run's start. -/
structure Encodes (sc : Runs.Scan) (st : Locals) : Prop where
  ret : st.ret = fmtRanges sc.closed
  first : st.first = sc.closed.isEmpty
  rangeStart : st.rangeStart = rangeStartOf sc.start

theorem fmtD_natCast (n : ℕ) : fmtD n = Nat.toDigits 10 n := by
  simp [fmtD]

theorem printRange_natCast {a b : ℕ} (h : a < 100 ∧ b < 100) : printRange a b = fmtRange (a, b) := by
  by_cases hab : a = b
  · subst hab
    have hlen : (Nat.toDigits 10 a).length ≤ 5 := by simpa [fmtRange] using length_fmtRange_le (r := (a, a)) h
    simp only [printRange, fmtRange, if_true, fmtD_natCast]
    exact snprintf_of_length_lt (by unfold bufsiz; omega)
  · have hlen : (Nat.toDigits 10 a ++ '-' :: Nat.toDigits 10 b).length ≤ 5 := by
      simpa [fmtRange, hab] using length_fmtRange_le (r := (a, b)) h
    have hab' : (a : ℤ) ≠ b := by exact_mod_cast hab
    simp only [printRange, fmtRange, hab, hab', if_false, fmtD_natCast]
    exact snprintf_of_length_lt (by unfold bufsiz; omega)

theorem outputRange_eq {sc : Runs.Scan} {st : Locals} (h : Encodes sc st) {a i : ℕ} (ha : sc.start = some a)
    (hai : a < i) (hi : i ≤ 32) (hcl : ∀ r ∈ sc.closed, r.1 ≤ r.2 ∧ r.2 < 32) (hlen : sc.closed.length < 32) :
    outputRange st i = some (fmtRanges (sc.closed ++ [(a, i - 1)])) := by
  have hret : st.ret.length ≤ 186 := by
    have := length_fmtRanges_le fun r hr => (⟨by have := hcl r hr; omega, by have := hcl r hr; omega⟩ :
      r.1 < 100 ∧ r.2 < 100)
    rw [h.ret]
    omega
  have hr : (a, i - 1).1 < 100 ∧ (a, i - 1).2 < 100 := ⟨by dsimp; omega, by dsimp; omega⟩
  have htmp := length_fmtRange_le hr
  have hend : ((i : ℤ) - 1) = ((i - 1 : ℕ) : ℤ) := by omega
  unfold outputRange
  rw [h.rangeStart, ha, rangeStartOf, hend, printRange_natCast hr]
  by_cases hcl0 : sc.closed = []
  · -- the first range: no `,`
    have hret0 : st.ret = [] := by rw [h.ret, hcl0, fmtRanges_nil]
    rw [h.first, hcl0, List.isEmpty_nil, if_pos rfl, Option.bind_some, hret0,
      strncat_reserve_of_fits (by unfold bufsiz; simp only [List.length_nil]; omega)]
    simp
  · have hfirst : st.first = false := by rw [h.first, List.isEmpty_eq_false_iff.mpr hcl0]
    rw [hfirst, if_neg Bool.false_ne_true, strncat_reserve_of_fits (by unfold bufsiz; simp; omega),
      Option.bind_some, strncat_reserve_of_fits (by unfold bufsiz; simp; omega), h.ret,
      fmtRanges_append_singleton hcl0]
    simp

/-- **One pass of the loop is one step of the scan.** -/
theorem loopBody_encodes {b : BitVec 32} {k : ℕ} {sc : Runs.Scan} {st : Locals}
    (hinv : Runs.Inv b.getLsbD k sc) (h : Encodes sc st) (hk : k < 32) :
    ∃ st', loopBody b st k = some st' ∧ Encodes (Runs.step b.getLsbD sc k) st' := by
  unfold loopBody
  cases hs : sc.start with
  | none =>
    have hneg : ¬ 0 ≤ st.rangeStart := by rw [h.rangeStart, hs, rangeStartOf]; decide
    rw [if_neg hneg]
    cases hp : b.getLsbD k with
    | true =>
      simp only [Runs.step, hs, hp, ↓reduceIte]
      exact ⟨_, rfl, ⟨h.ret, h.first, rfl⟩⟩
    | false =>
      simp only [Runs.step, hs, hp, Bool.false_eq_true, ↓reduceIte]
      exact ⟨st, rfl, h⟩
  | some a =>
    have hpos : 0 ≤ st.rangeStart := by rw [h.rangeStart, hs, rangeStartOf]; omega
    rw [if_pos hpos]
    cases hp : b.getLsbD k with
    | true =>
      simp only [Runs.step, hs, hp, ↓reduceIte]
      exact ⟨st, rfl, h⟩
    | false =>
      -- the run closes: the range is written and `range_start` cleared
      obtain ⟨hak, -, -, hlen⟩ := hinv.started a hs
      have hcl : ∀ r ∈ sc.closed, r.1 ≤ r.2 ∧ r.2 < 32 := fun r hr => by
        have := hinv.closed r hr
        omega
      rw [if_neg Bool.false_ne_true, outputRange_eq h hs hak hk.le hcl (by omega), Option.bind_eq_bind,
        Option.bind_some]
      simp only [Runs.step, hs, hp]
      exact ⟨_, rfl, ⟨rfl, by simp, rfl⟩⟩

theorem foldlM_loopBody_encodes (b : BitVec 32) {k : ℕ} (hk : k ≤ 32) :
    ∃ st, (List.range k).foldlM (loopBody b) ⟨[], true, -999⟩ = some st ∧ Encodes (Runs.scan b.getLsbD k) st := by
  induction k with
  | zero => exact ⟨_, rfl, ⟨rfl, rfl, rfl⟩⟩
  | succ k ih =>
    obtain ⟨st, hst, h⟩ := ih (by omega)
    obtain ⟨st', hst', h'⟩ := loopBody_encodes (Runs.inv_scan b.getLsbD k) h (by omega)
    refine ⟨st', ?_, ?_⟩
    · rw [List.range_succ, List.foldlM_append, hst, Option.bind_eq_bind, Option.bind_some]
      simpa using hst'
    · rwa [Runs.scan_succ]

/-- **`bitmap2rangestr` writes the maximal runs of set bits as ranges**, in
order, with no write past a buffer and no text cut. -/
theorem bitmap2rangestr_eq (bitmap : BitVec 32) :
    bitmap2rangestr bitmap = some (fmtRanges (Runs.runs bitmap.getLsbD 32)) := by
  obtain ⟨st, hst, h⟩ := foldlM_loopBody_encodes bitmap le_rfl
  have hinv := Runs.inv_scan bitmap.getLsbD 32
  unfold bitmap2rangestr Runs.runs
  rw [hst, Option.bind_eq_bind, Option.bind_some]
  cases hs : (Runs.scan bitmap.getLsbD 32).start with
  | none =>
    rw [if_neg (by rw [h.rangeStart, hs, rangeStartOf]; decide), h.ret]
  | some a =>
    obtain ⟨ha, -, -, hlen⟩ := hinv.started a hs
    have hcl : ∀ r ∈ (Runs.scan bitmap.getLsbD 32).closed, r.1 ≤ r.2 ∧ r.2 < 32 := fun r hr => by
      have := hinv.closed r hr
      omega
    rw [if_pos (by rw [h.rangeStart, hs, rangeStartOf]; omega), outputRange_eq h hs ha le_rfl hcl hlen]

/-- Bits `0`, `1`, `3` and `31`. -/
example : bitmap2rangestr 0x8000000b#32 = some "0-1,3,31".toList := by decide

/-- **Reading back what `bitmap2rangestr` writes gives the set bits**: the
text parses as ranges, in increasing order with a clear bit between each
two, that cover exactly the set bits. -/
theorem bitmap2rangestr_roundTrip (bitmap : BitVec 32) :
    ∃ s rs, bitmap2rangestr bitmap = some s ∧ parseRanges s = some rs ∧ rs.IsChain Runs.Gap ∧
      (∀ r ∈ rs, r.1 ≤ r.2) ∧ ∀ i, Runs.Covers rs i ↔ i < 32 ∧ bitmap.getLsbD i = true :=
  ⟨_, _, bitmap2rangestr_eq bitmap, parseRanges_fmtRanges _, Runs.isChain_runs _ _,
    fun r hr => ((Runs.runs_bounds _ _).1 r hr).1, Runs.covers_runs _ _⟩

theorem length_fmtRanges_runs_le (p : ℕ → Bool) : (fmtRanges (Runs.runs p 32)).length ≤ 192 := by
  obtain ⟨hb, hlen⟩ := Runs.runs_bounds p 32
  have := length_fmtRanges_le fun r hr =>
    (⟨by have := hb r hr; omega, by have := hb r hr; omega⟩ : r.1 < 100 ∧ r.2 < 100)
  omega

end Printme
end QueueRate
