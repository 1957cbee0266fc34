import Mathlib.Data.Nat.Digits.Defs

/-!
# Lists of ranges as text

A set of numbers written as its ranges, `0-3,5,7-8`: a range of one number
is the number alone, a longer one is its two ends joined by `-`, and the
ranges are joined by `,` (`fmtRanges`). Reading the text back
(`parseRanges`) gives the ranges again (`parseRanges_fmtRanges`), and with
every end below `100` the text takes at most six chars a range
(`length_fmtRanges_le`).
-/

namespace RangeList

/-- The range `a-b` as text; `a` alone when `a = b`. -/
def fmtRange (r : ℕ × ℕ) : List Char :=
  if r.1 = r.2 then Nat.toDigits 10 r.1 else Nat.toDigits 10 r.1 ++ '-' :: Nat.toDigits 10 r.2

/-- The ranges joined by `,`. -/
def fmtRanges (rs : List (ℕ × ℕ)) : List Char := [','].intercalate (rs.map fmtRange)

/-- A number in decimal: one digit or more. -/
def parseNat (s : List Char) : Option ℕ :=
  if !s.isEmpty && s.all Char.isDigit then some (Nat.ofDigitChars 10 s 0) else none

/-- A number alone, or two numbers joined by `-`. -/
def parseRange (s : List Char) : Option (ℕ × ℕ) :=
  match s.splitOn '-' with
  | [a] => (parseNat a).map fun n => (n, n)
  | [a, b] => do
    let x ← parseNat a
    let y ← parseNat b
    some (x, y)
  | _ => none

/-- No ranges, or ranges joined by `,`. -/
def parseRanges (s : List Char) : Option (List (ℕ × ℕ)) :=
  if s.isEmpty then some [] else (s.splitOn ',').mapM parseRange

/-! ### The digits of a number -/

theorem not_mem_toDigits {c : Char} (hc : c.isDigit = false) (n : ℕ) : c ∉ Nat.toDigits 10 n := fun h => by
  rw [Nat.isDigit_of_mem_toDigits (by norm_num) (by norm_num) h] at hc
  cases hc

theorem parseNat_toDigits (n : ℕ) : parseNat (Nat.toDigits 10 n) = some n := by
  have hdig : (Nat.toDigits 10 n).all Char.isDigit = true :=
    List.all_eq_true.mpr fun _ h => Nat.isDigit_of_mem_toDigits (by norm_num) (by norm_num) h
  rw [parseNat, List.isEmpty_eq_false_iff.mpr Nat.toDigits_ne_nil, hdig, Nat.ofDigitChars_ten_toDigits]
  rfl

theorem length_toDigits_le_two {n : ℕ} (h : n < 100) : (Nat.toDigits 10 n).length ≤ 2 :=
  (Nat.length_toDigits_le_iff (by norm_num) (by norm_num)).mpr h

/-! ### One range -/

theorem fmtRange_ne_nil (r : ℕ × ℕ) : fmtRange r ≠ [] := by
  unfold fmtRange
  split_ifs
  · exact Nat.toDigits_ne_nil
  · simp [Nat.toDigits_ne_nil]

theorem comma_not_mem_fmtRange (r : ℕ × ℕ) : ',' ∉ fmtRange r := by
  have hc := not_mem_toDigits (c := ',') rfl
  unfold fmtRange
  split_ifs
  · exact hc r.1
  · simp [hc]

theorem parseRange_fmtRange (r : ℕ × ℕ) : parseRange (fmtRange r) = some r := by
  obtain ⟨a, b⟩ := r
  have hd := not_mem_toDigits (c := '-') rfl
  unfold fmtRange parseRange
  by_cases hab : a = b
  · subst hab
    rw [if_pos rfl, List.splitOn_eq_singleton (hd a)]
    simp [parseNat_toDigits]
  · -- the two ends are the two pieces between the one `-`
    have hsplit : (Nat.toDigits 10 a ++ '-' :: Nat.toDigits 10 b).splitOn '-' =
        [Nat.toDigits 10 a, Nat.toDigits 10 b] := by
      rw [← List.splitOn_intercalate '-' (by simp [hd]) (List.cons_ne_nil _ _)]
      simp [List.intercalate_cons_cons]
    rw [if_neg hab, hsplit]
    simp [parseNat_toDigits]

theorem length_fmtRange_le {r : ℕ × ℕ} (h : r.1 < 100 ∧ r.2 < 100) : (fmtRange r).length ≤ 5 := by
  have h1 := length_toDigits_le_two h.1
  have h2 := length_toDigits_le_two h.2
  unfold fmtRange
  split_ifs
  · omega
  · simp only [List.length_append, List.length_cons]
    omega

/-! ### Ranges joined by `,` -/

@[simp] theorem fmtRanges_nil : fmtRanges [] = [] := rfl

@[simp] theorem fmtRanges_singleton (r : ℕ × ℕ) : fmtRanges [r] = fmtRange r := List.intercalate_singleton

theorem fmtRanges_cons (r : ℕ × ℕ) {rs : List (ℕ × ℕ)} (hrs : rs ≠ []) :
    fmtRanges (r :: rs) = fmtRange r ++ ',' :: fmtRanges rs := by
  rw [fmtRanges, List.map_cons, List.intercalate_cons_of_ne_nil (by simpa using hrs), List.append_assoc,
    List.singleton_append]
  rfl

theorem intercalate_append_singleton {α : Type*} (sep : List α) {ts : List (List α)} (hts : ts ≠ [])
    (t : List α) : sep.intercalate (ts ++ [t]) = sep.intercalate ts ++ sep ++ t := by
  induction ts with
  | nil => exact absurd rfl hts
  | cons t₀ ts ih =>
    cases ts with
    | nil => rw [List.singleton_append, List.intercalate_cons_cons, List.intercalate_singleton,
        List.intercalate_singleton]
    | cons t₁ ts =>
      rw [List.cons_append, List.intercalate_cons_of_ne_nil (show t₁ :: ts ++ [t] ≠ [] by simp),
        ih (List.cons_ne_nil t₁ ts), List.intercalate_cons_of_ne_nil (List.cons_ne_nil t₁ ts)]
      simp

theorem fmtRanges_append_singleton {rs : List (ℕ × ℕ)} (hrs : rs ≠ []) (r : ℕ × ℕ) :
    fmtRanges (rs ++ [r]) = fmtRanges rs ++ ',' :: fmtRange r := by
  rw [fmtRanges, List.map_append, List.map_singleton, intercalate_append_singleton _ (by simpa using hrs)]
  simp [fmtRanges]

theorem fmtRanges_ne_nil {rs : List (ℕ × ℕ)} (hrs : rs ≠ []) : fmtRanges rs ≠ [] := by
  obtain ⟨r, rs, rfl⟩ := List.exists_cons_of_ne_nil hrs
  by_cases h : rs = []
  · subst h
    simpa using fmtRange_ne_nil r
  · rw [fmtRanges_cons r h]
    simp [fmtRange_ne_nil]

theorem mapM_parseRange_fmtRange (rs : List (ℕ × ℕ)) : (rs.map fmtRange).mapM parseRange = some rs := by
  induction rs with
  | nil => rfl
  | cons r rs ih => simp [List.mapM_cons, parseRange_fmtRange, ih]

theorem parseRanges_fmtRanges (rs : List (ℕ × ℕ)) : parseRanges (fmtRanges rs) = some rs := by
  by_cases hrs : rs = []
  · subst hrs
    rfl
  · -- no range has a `,` in it, so the `,`s split the text into the ranges
    rw [parseRanges, List.isEmpty_eq_false_iff.mpr (fmtRanges_ne_nil hrs), fmtRanges,
      List.splitOn_intercalate ',' (fun _ hl => ?_) (by simpa using hrs)]
    · exact mapM_parseRange_fmtRange rs
    obtain ⟨r, -, rfl⟩ := List.mem_map.mp hl
    exact comma_not_mem_fmtRange r

/-- With every end below `100`, at most six chars a range. -/
theorem length_fmtRanges_le {rs : List (ℕ × ℕ)} (h : ∀ r ∈ rs, r.1 < 100 ∧ r.2 < 100) :
    (fmtRanges rs).length ≤ 6 * rs.length := by
  induction rs with
  | nil => simp
  | cons r rs ih =>
    have hr := length_fmtRange_le (h r List.mem_cons_self)
    have ih := ih fun r' hr' => h r' (List.mem_cons_of_mem _ hr')
    by_cases hrs : rs = []
    · subst hrs
      simp only [fmtRanges_singleton, List.length_singleton]
      omega
    · rw [fmtRanges_cons r hrs]
      simp only [List.length_append, List.length_cons]
      omega

end RangeList
