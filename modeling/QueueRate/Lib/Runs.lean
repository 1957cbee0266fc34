import Mathlib.Data.List.Chain

/-!
# The maximal runs of a predicate, by one scan

The scan reads `p 0, p 1, …, p (n - 1)` once, keeping the runs of `true`
closed so far and where the open one started: a `false` closes the open
run before it, a `true` with no run open opens one, and a run still open at
the end closes at `n - 1` (`runs`). A point lies in one of the runs exactly
when `p` holds there (`covers_runs`), and the runs come in increasing order
with at least one point between each two (`isChain_runs`), so none could be
merged with the next.
-/

namespace Runs

/-- What the scan keeps: the runs closed so far, and where the open one started. -/
structure Scan where
  closed : List (ℕ × ℕ)
  start : Option ℕ

/-- The scan at point `i`. -/
def step (p : ℕ → Bool) (st : Scan) (i : ℕ) : Scan :=
  match st.start, p i with
  | some a, false => ⟨st.closed ++ [(a, i - 1)], none⟩
  | none, true => ⟨st.closed, some i⟩
  | _, _ => st

/-- The scan of `[0, k)`. -/
def scan (p : ℕ → Bool) (k : ℕ) : Scan := (List.range k).foldl (step p) ⟨[], none⟩

/-- The maximal runs of `p` on `[0, n)`, as closed intervals. -/
def runs (p : ℕ → Bool) (n : ℕ) : List (ℕ × ℕ) :=
  match (scan p n).start with
  | some a => (scan p n).closed ++ [(a, n - 1)]
  | none => (scan p n).closed

/-- The second interval starts after a point that follows the first. -/
def Gap (r r' : ℕ × ℕ) : Prop := r.2 + 1 < r'.1

/-- `i` lies in one of the intervals. -/
def Covers (rs : List (ℕ × ℕ)) (i : ℕ) : Prop := ∃ r ∈ rs, r.1 ≤ i ∧ i ≤ r.2

variable {p : ℕ → Bool}

theorem scan_succ (p : ℕ → Bool) (k : ℕ) : scan p (k + 1) = step p (scan p k) k := by
  rw [scan, List.range_succ, List.foldl_append]
  rfl

theorem covers_append_singleton {rs : List (ℕ × ℕ)} {a b i : ℕ} :
    Covers (rs ++ [(a, b)]) i ↔ Covers rs i ∨ (a ≤ i ∧ i ≤ b) := by
  simp [Covers, or_and_right, exists_or]

/-- What the scan of `[0, k)` keeps: the closed runs in order with gaps,
each ending before the point before `k`; an open run that started after
them and holds up to `k`; with none open, `p` fails just before `k`; and `p`
holds below `k` exactly on the closed runs and from the open start on. -/
structure Inv (p : ℕ → Bool) (k : ℕ) (st : Scan) : Prop where
  chain : st.closed.IsChain Gap
  closed : ∀ r ∈ st.closed, r.1 ≤ r.2 ∧ r.2 + 1 < k
  length : st.closed.length ≤ k
  started : ∀ a, st.start = some a → a < k ∧ (∀ r ∈ st.closed, r.2 + 1 < a) ∧ (∀ j, a ≤ j → j < k → p j = true) ∧
    st.closed.length < k
  stopped : st.start = none → ∀ j, j + 1 = k → p j = false
  covers : ∀ i < k, p i = true ↔ Covers st.closed i ∨ ∃ a, st.start = some a ∧ a ≤ i

theorem inv_zero : Inv p 0 ⟨[], none⟩ where
  chain := .nil
  closed _ h := by cases h
  length := le_refl 0
  started _ h := by cases h
  stopped _ _ h := by omega
  covers _ h := by omega

theorem Inv.not_covers {k : ℕ} {st : Scan} (h : Inv p k st) {i : ℕ} (hi : k ≤ i + 1) : ¬ Covers st.closed i := by
  rintro ⟨r, hr, -, hri⟩
  have := (h.closed r hr).2
  omega

theorem Inv.close {k a : ℕ} {st : Scan} (h : Inv p k st) (ha : st.start = some a) (hp : p k = false) :
    Inv p (k + 1) ⟨st.closed ++ [(a, k - 1)], none⟩ := by
  obtain ⟨hak, hgap, hrun, hlen⟩ := h.started a ha
  refine ⟨?_, fun r hr => ?_, ?_, fun _ h => (by cases h), fun _ j hj => ?_, fun i hi => ?_⟩
  · refine h.chain.append (.singleton _) fun r hr r' hr' => ?_
    simp only [List.head?_cons, Option.mem_def, Option.some.injEq] at hr'
    rw [← hr']
    exact hgap r (List.mem_of_getLast? hr)
  · rcases List.mem_append.mp hr with hr | hr
    · have := h.closed r hr
      omega
    · rw [List.mem_singleton.mp hr]
      omega
  · simp only [List.length_append, List.length_singleton]
    omega
  · rwa [show j = k by omega]
  · simp only [covers_append_singleton, reduceCtorEq, false_and, exists_false, or_false]
    rcases Nat.lt_succ_iff_lt_or_eq.mp hi with hi | rfl
    · -- below `k`, the open run is now the last closed one
      rw [h.covers i hi, ha]
      simp only [Option.some.injEq, exists_eq_left']
      exact or_congr_right (and_iff_left_of_imp fun _ => by omega).symm
    · rw [hp]
      simp only [Bool.false_eq_true, false_iff, not_or, not_and, not_le]
      exact ⟨h.not_covers (by omega), fun _ => by omega⟩

theorem Inv.open {k : ℕ} {st : Scan} (h : Inv p k st) (hs : st.start = none) (hp : p k = true) :
    Inv p (k + 1) ⟨st.closed, some k⟩ := by
  have hlen := h.length
  refine ⟨h.chain, fun r hr => ?_, Nat.le_succ_of_le hlen, fun a ha => ?_, fun h => (by cases h), fun i hi => ?_⟩
  · have := h.closed r hr
    omega
  · obtain rfl := Option.some.inj ha
    refine ⟨by omega, fun r hr => (h.closed r hr).2, fun j hj hjk => ?_, Nat.lt_succ_of_le hlen⟩
    rwa [show j = k by omega]
  · rcases Nat.lt_succ_iff_lt_or_eq.mp hi with hi | rfl
    · rw [h.covers i hi, hs]
      simp only [reduceCtorEq, false_and, exists_false, or_false, Option.some.injEq, exists_eq_left']
      exact (or_iff_left (by omega)).symm
    · simp [hp]

theorem Inv.keep {k : ℕ} {st : Scan} (h : Inv p k st)
    (hst : (∃ a, st.start = some a ∧ p k = true) ∨ (st.start = none ∧ p k = false)) : Inv p (k + 1) st := by
  have hlen := h.length
  refine ⟨h.chain, fun r hr => ?_, by omega, fun a ha => ?_, fun hs j hj => ?_, fun i hi => ?_⟩
  · have := h.closed r hr
    omega
  · obtain ⟨hak, hgap, hrun, hlen'⟩ := h.started a ha
    refine ⟨by omega, hgap, fun j hj hjk => ?_, by omega⟩
    rcases Nat.lt_succ_iff_lt_or_eq.mp hjk with hjk | rfl
    · exact hrun j hj hjk
    · rcases hst with ⟨a', ha', hp⟩ | ⟨hs, -⟩
      · exact hp
      · rw [hs] at ha
        cases ha
  · rcases hst with ⟨a', ha', -⟩ | ⟨-, hp⟩
    · rw [hs] at ha'
      cases ha'
    · rwa [show j = k by omega]
  · rcases Nat.lt_succ_iff_lt_or_eq.mp hi with hi | rfl
    · exact h.covers i hi
    · rcases hst with ⟨a, ha, hp⟩ | ⟨hs, hp⟩
      · exact iff_of_true hp (.inr ⟨a, ha, (h.started a ha).1.le⟩)
      · rw [hs, hp]
        simp only [Bool.false_eq_true, reduceCtorEq, false_and, exists_false, or_false, false_iff]
        exact h.not_covers (by omega)

theorem Inv.succ {k : ℕ} {st : Scan} (h : Inv p k st) : Inv p (k + 1) (step p st k) := by
  unfold step
  cases hs : st.start with
  | none =>
    cases hp : p k with
    | true => exact h.open hs hp
    | false => exact h.keep (.inr ⟨hs, hp⟩)
  | some a =>
    cases hp : p k with
    | true => exact h.keep (.inl ⟨a, hs, hp⟩)
    | false => exact h.close hs hp

theorem inv_scan (p : ℕ → Bool) (k : ℕ) : Inv p k (scan p k) := by
  induction k with
  | zero => exact inv_zero
  | succ k ih =>
    rw [scan_succ]
    exact ih.succ

/-- **The runs are exactly where `p` holds** on `[0, n)`. -/
theorem covers_runs (p : ℕ → Bool) (n i : ℕ) : Covers (runs p n) i ↔ i < n ∧ p i = true := by
  have h := inv_scan p n
  unfold runs
  cases hs : (scan p n).start with
  | none =>
    by_cases hi : i < n
    · rw [h.covers i hi, hs]
      simp [hi]
    · simp only [hi, false_and, iff_false]
      exact h.not_covers (by omega)
  | some a =>
    obtain ⟨han, -, -, -⟩ := h.started a hs
    rw [covers_append_singleton]
    by_cases hi : i < n
    · rw [h.covers i hi, hs]
      simp only [Option.some.injEq, exists_eq_left', hi, true_and]
      exact or_congr_right (and_iff_left_of_imp fun _ => by omega)
    · simp only [hi, false_and, iff_false, not_or, not_and, not_le]
      exact ⟨h.not_covers (by omega), fun _ => by omega⟩

/-- **The runs are in increasing order, with a point between each two.** -/
theorem isChain_runs (p : ℕ → Bool) (n : ℕ) : (runs p n).IsChain Gap := by
  have h := inv_scan p n
  unfold runs
  cases hs : (scan p n).start with
  | none => exact h.chain
  | some a =>
    refine h.chain.append (.singleton _) fun r hr r' hr' => ?_
    simp only [List.head?_cons, Option.mem_def, Option.some.injEq] at hr'
    rw [← hr']
    exact (h.started a hs).2.1 r (List.mem_of_getLast? hr)

theorem runs_bounds (p : ℕ → Bool) (n : ℕ) :
    (∀ r ∈ runs p n, r.1 ≤ r.2 ∧ r.2 < n) ∧ (runs p n).length ≤ n := by
  have h := inv_scan p n
  unfold runs
  cases hs : (scan p n).start with
  | none =>
    refine ⟨fun r hr => ?_, h.length⟩
    have := h.closed r hr
    omega
  | some a =>
    obtain ⟨han, -, -, hlen⟩ := h.started a hs
    refine ⟨fun r hr => ?_, ?_⟩
    · rcases List.mem_append.mp hr with hr | hr
      · have := h.closed r hr
        omega
      · rw [List.mem_singleton.mp hr]
        omega
    · simp only [List.length_append, List.length_singleton]
      omega

end Runs
